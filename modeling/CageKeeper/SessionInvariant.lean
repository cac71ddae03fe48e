import CageKeeper.SessionOrder
import CageKeeper.SessionLedger

/-! What a session in order can look like. The place of the parent, the place of the child and what
is in the two pipes are in one of a few agreements, and the books of the session balance. Every
step that keeps the session in order leads from one such state to another. -/

namespace CageKeeper
open ByteStream

variable {F W G : Type} {natives : Natives F W} {interp : Interp G}

inductive Op.Defines : Op F → Prop where
  | defineConstant (name : CString) (value : Value) : Defines (.defineConstant name value)
  | defineFunction (name : CString) (f : F) : Defines (.defineFunction name f)

/-- The operations that a caller of `process_callbacks` stands for. -/
inductive Op.For : Caller → Op F → Prop where
  | compileScript (script : CString) : For .compileScript (.compileScript script)
  | callFunction (name : CString) (args : Value) :
      For (.callFunction name) (.callFunction name args)

/-- The child, what is on its way to it and what is on its way from it, while the parent is in
`process_callbacks`; log lines apart. -/
inductive Partner (natives : Natives F W) (caller : Caller) :
    Child G → Bytes → List Mark → Flight → Prop where
  /-- The child has not read the command yet. -/
  | entering {c : Child G} {state : G} {pending : List (Op F)} {operation : Op F}
      (hpoint : c.point = .loop state)
      (hpending : ∀ operation ∈ pending, operation.Defines ∧ operation.Readable)
      (hfor : operation.For caller) (hreadable : operation.Readable) :
      Partner natives caller c ((pending ++ [operation]).flatMap (Op.command natives)) [] {}
  /-- The child waits for the answer to a callback that the parent has not read yet. -/
  | calling {c : Child G} {name : CString} {args : Value}
      {resume : Option Value → Guest (Finished G)} (hpoint : c.point = .await resume)
      (hends : ∀ reply, (resume reply).Ends (Finished.Replies caller))
      (hname : StringFits maxStringSize name.length)
      (hargs : args.Fits maxStringSize maxArraySize) :
      Partner natives caller c [] (proxyFunctionCall name args) { callbacks := [(name, args)] }
  /-- The answer is on its way. -/
  | answered {c : Child G} {value : Value} {resume : Option Value → Guest (Finished G)}
      (hpoint : c.point = .await resume)
      (hends : ∀ reply, (resume reply).Ends (Finished.Replies caller)) (hvalue : value.Fits 0 0) :
      Partner natives caller c (writeValue value) [] { replies := [value] }
  /-- The child is done with the command. -/
  | finished {c : Child G} {state : G} {reply : Reply} (hpoint : c.point = .loop state)
      (hfor : Reply.For caller reply)
      (hfits : ∀ value, reply.value = some (some value) → value.Fits maxStringSize maxArraySize) :
      Partner natives caller c [] reply.written { values := reply.value.toList }

/-- The agreements of parent, child and pipes, and what is on its way in each. -/
inductive Talk (natives : Natives F W) : Session F W G → Flight → Prop where
  /-- Outside all operations; definitions and log lines may be on their way. -/
  | outside {p : Parent F W} {c : Child G} {state : G} {pending : List (Op F)}
      {lines : List CString} (hpoint : p.point = .host) (hframes : p.frames = [])
      (hchild : c.point = .loop state)
      (hpending : ∀ operation ∈ pending, operation.Defines ∧ operation.Readable) :
      Talk natives ⟨p, c, pending.flatMap (Op.command natives), lines.flatMap sandboxLog⟩
        { lines := lines }
  /-- A question is on its way behind definitions. -/
  | asking {p : Parent F W} {c : Child G} {state : G} {pending : List (Op F)} {name : CString}
      (hpoint : p.point = .isFunctionReply name) (hframes : p.frames = [])
      (hchild : c.point = .loop state)
      (hpending : ∀ operation ∈ pending, operation.Defines ∧ operation.Readable)
      (hreadable : (Op.isFunction name : Op F).Readable) :
      Talk natives ⟨p, c, (pending ++ [Op.isFunction name]).flatMap (Op.command natives), []⟩ {}
  /-- The answer to a question is on its way. -/
  | told {p : Parent F W} {c : Child G} {state : G} {name : CString} {ret : Bool}
      (hpoint : p.point = .isFunctionReply name) (hframes : p.frames = [])
      (hchild : c.point = .loop state) :
      Talk natives ⟨p, c, [], mark .reply (writeByte (boolByte ret))⟩ { answers := [(name, ret)] }
  /-- In `process_callbacks`. -/
  | serving {p : Parent F W} {c : Child G} {caller : Caller} {toRight : Bytes} {tail : List Mark}
      {flight : Flight} {lines : List CString} (hpoint : p.point = .callbacks caller)
      (hframes : p.frames = []) (hpartner : Partner natives caller c toRight tail flight) :
      Talk natives ⟨p, c, toRight, lines.flatMap sandboxLog ++ tail⟩ { flight with lines := lines }
  /-- In a native function. -/
  | native {p : Parent F W} {c : Child G} {caller : Caller} {body : Body F W}
      {resume : Option Value → Guest (Finished G)} (hpoint : p.point = .native caller body)
      (hframes : p.frames = []) (hchild : c.point = .await resume)
      (hends : ∀ reply, (resume reply).Ends (Finished.Replies caller)) :
      Talk natives ⟨p, c, [], []⟩ { running := 1 }
  /-- Back from `process_callbacks`. -/
  | returned {p : Parent F W} {c : Child G} {caller : Caller} {state : G} {reply : Reply}
      (hpoint : p.point = .callbacksDone caller reply.returned false) (hframes : p.frames = [])
      (hchild : c.point = .loop state) (hfor : Reply.For caller reply)
      (hfits : ∀ value, reply.value = some (some value) → value.Fits maxStringSize maxArraySize) :
      Talk natives ⟨p, c, [], reply.content⟩ { values := reply.value.toList }
  /-- Before the result of `compile_script`. -/
  | compiled {p : Parent F W} {c : Child G} {state : G} {ret : Bool}
      (hpoint : p.point = .compileReply) (hframes : p.frames = [])
      (hchild : c.point = .loop state) :
      Talk natives ⟨p, c, [], (Reply.compiled ret).content⟩ {}
  /-- Before the result of `call_function`. -/
  | called {p : Parent F W} {c : Child G} {state : G} {name : CString} {value : Value}
      (hpoint : p.point = .callReply name) (hframes : p.frames = [])
      (hchild : c.point = .loop state) (hfits : value.Fits maxStringSize maxArraySize) :
      Talk natives ⟨p, c, [], (Reply.called (some value)).content⟩ { values := [some value] }

theorem Talk.idle {p : Parent F W} {c : Child G} {state : G} (hpoint : p.point = .host)
    (hframes : p.frames = []) (hchild : c.point = .loop state) : Talk natives ⟨p, c, [], []⟩ {} :=
  @Talk.outside F W G natives p c state [] [] hpoint hframes hchild (by simp)

/-- The invariant of a session in order. -/
def Session.Invariant (natives : Natives F W) (s : Session F W G) : Prop :=
  ∃ flight, Talk natives s flight ∧ (ledger s.left s.right).Balanced flight

theorem Session.Invariant.start (world : W) (program : List (Op F)) (state : G) :
    (Session.start world program state).Invariant natives :=
  ⟨_, .idle rfl rfl rfl, .start world program state⟩

/-! ### Steps of the parent -/

section Parent

theorem Parent.invoke_defines (natives : Natives F W) {p : Parent F W} (hframes : p.frames = [])
    {operation : Op F} (hdefines : operation.Defines) {c : Child G} (flight : Flight)
    (hbooks : (ledger p c).Balanced { flight with values := [] }) :
    (invoke natives p operation).1.point = .host ∧ (invoke natives p operation).1.frames = [] ∧
      (ledger (invoke natives p operation).1 c).Balanced { flight with values := [] } := by
  cases hdefines with
  | defineConstant name value =>
      simp only [invoke, defineConstantProxy, finish_nil hframes]
      exact ⟨trivial, hframes, Ledger.Balanced.finish flight .unit hbooks⟩
  | defineFunction name f =>
      simp only [invoke, defineFunctionProxy]
      split
      · obtain ⟨line, hline⟩ := Option.isSome_iff_exists.mp (alreadyDefined_isSome name)
        simp only [report, hline, finish_nil, hframes]
        exact ⟨trivial, trivial, Ledger.Balanced.finish flight .unit (hbooks.report line)⟩
      · simp only [finish_nil, hframes]
        exact ⟨trivial, trivial, Ledger.Balanced.finish flight .unit hbooks⟩

theorem Session.Invariant.parent_outside {p next : Parent F W} {c : Child G} {state : G}
    {pending : List (Op F)} {lines : List CString} {rest : List Mark} {written : Bytes}
    (hpoint : p.point = .host) (hframes : p.frames = []) (hchild : c.point = .loop state)
    (hpending : ∀ operation ∈ pending, operation.Defines ∧ operation.Readable)
    (hbooks : (ledger p c).Balanced { lines := lines })
    (horder : Session.ParentInOrder
      ⟨p, c, pending.flatMap (Op.command natives), lines.flatMap sandboxLog⟩)
    (hstep : (parentMachine natives).step p (lines.flatMap sandboxLog) =
      some (next, rest, written)) :
    Session.Invariant natives ⟨next, c, pending.flatMap (Op.command natives) ++ written, rest⟩ := by
  simp only [Session.ParentInOrder, hpoint] at horder
  cases hprogram : p.program with
  | nil =>
      simp only [parentMachine, Parent.step_host_nil hpoint hprogram, Option.map_none,
        reduceCtorEq] at hstep
  | cons operation program =>
      obtain ⟨hreadable, hearly⟩ := horder operation (by rw [hprogram]; rfl)
      rw [parent_invokes natives hpoint hprogram] at hstep
      simp only [Option.some.injEq, Prod.mk.injEq] at hstep
      obtain ⟨rfl, rfl, rfl⟩ := hstep
      have hcommand : pending.flatMap (Op.command natives) ++ operation.command natives =
          (pending ++ [operation]).flatMap (Op.command natives) := by simp
      have hdefined : ∀ hdefines : operation.Defines, ∀ op ∈ pending ++ [operation],
          op.Defines ∧ op.Readable := fun hdefines =>
        List.forall_mem_append.mpr ⟨hpending, List.forall_mem_singleton.mpr ⟨hdefines, hreadable⟩⟩
      rw [hcommand]
      cases operation with
      | defineConstant name value =>
          obtain ⟨hhost, hempty, hbooks⟩ := Parent.invoke_defines natives
            (p := { p with program := program }) hframes (.defineConstant name value)
            { lines := lines } hbooks
          exact ⟨_, .outside hhost hempty hchild (hdefined (.defineConstant name value)), hbooks⟩
      | defineFunction name f =>
          obtain ⟨hhost, hempty, hbooks⟩ := Parent.invoke_defines natives
            (p := { p with program := program }) hframes (.defineFunction name f)
            { lines := lines } hbooks
          exact ⟨_, .outside hhost hempty hchild (hdefined (.defineFunction name f)), hbooks⟩
      | compileScript script =>
          have hcall : p.inCall = false := hearly
          have hpartner : Partner natives .compileScript c _ [] {} :=
            .entering hchild hpending (.compileScript script) hreadable
          simp only [Parent.invoke, Parent.compileScriptProxy, hcall]
          rw [← List.append_nil (lines.flatMap sandboxLog)]
          exact ⟨_, .serving rfl hframes hpartner, hbooks⟩
      | isFunction name =>
          have hnone : lines = [] := by
            cases lines with
            | nil => rfl
            | cons line lines => simp [Op.early, sandboxLog, mark, writeByte] at hearly
          subst hnone
          exact ⟨_, .asking rfl hframes hchild hpending hreadable, hbooks⟩
      | callFunction name args =>
          have hcall : p.inCall = false := hearly
          have hpartner : Partner natives (.callFunction name) c _ [] {} :=
            .entering hchild hpending (.callFunction name args) hreadable
          simp only [Parent.invoke, Parent.callFunctionProxy, hcall]
          rw [← List.append_nil (lines.flatMap sandboxLog)]
          exact ⟨_, .serving rfl hframes hpartner, hbooks⟩

theorem Session.Invariant.parent_serving {p next : Parent F W} {c : Child G} {caller : Caller}
    {toRight : Bytes} {tail : List Mark} {flight : Flight} {lines : List CString}
    {rest : List Mark} {written : Bytes} (hpoint : p.point = .callbacks caller)
    (hframes : p.frames = []) (hpartner : Partner natives caller c toRight tail flight)
    (hbooks : (ledger p c).Balanced { flight with lines := lines })
    (horder : Session.ParentInOrder ⟨p, c, toRight, lines.flatMap sandboxLog ++ tail⟩)
    (hstep : (parentMachine natives).step p (lines.flatMap sandboxLog ++ tail) =
      some (next, rest, written)) :
    Session.Invariant natives ⟨next, c, toRight ++ written, rest⟩ := by
  cases lines with
  | cons line lines =>
      obtain ⟨delivered, hlogged, -⟩ := hbooks.lines
      have hline : IsLogLine line := hbooks.logLines line (by simp [hlogged])
      obtain ⟨heard, hheard⟩ :=
        Option.isSome_iff_exists.mp (hbooks.deliverable line (List.mem_cons_self ..))
      rw [List.flatMap_cons, List.append_assoc, parent_hears natives hpoint hline hheard] at hstep
      simp only [Option.some.injEq, Prod.mk.injEq] at hstep
      obtain ⟨rfl, rfl, rfl⟩ := hstep
      rw [List.append_nil]
      exact ⟨_, .serving hpoint hframes hpartner, hbooks.hear hheard⟩
  | nil =>
      rw [List.flatMap_nil, List.nil_append] at hstep horder
      cases hpartner with
      | entering =>
          rw [parentMachine_waits natives (fun _ => Parent.step_callbacks hpoint) readMessage_nil]
            at hstep
          cases hstep
      | answered =>
          rw [parentMachine_waits natives (fun _ => Parent.step_callbacks hpoint) readMessage_nil]
            at hstep
          cases hstep
      | @calling name args resume hchild hends hname hargs =>
          simp only [Session.ParentInOrder, hpoint] at horder
          have hread : readMessage (⟨unmark (proxyFunctionCall name args), .more⟩ : Pipe) =
              .ok (.callback name args) ⟨[], .more⟩ := by
            simpa [proxyFunctionCall, writeByte] using readMessage_writeCallback hname hargs [] .more
          rw [hread] at horder
          obtain ⟨f, hfind⟩ := Option.isSome_iff_exists.mp horder
          rw [← List.append_nil (proxyFunctionCall name args),
            parent_calls natives hpoint hname hargs hfind] at hstep
          simp only [Option.some.injEq, Prod.mk.injEq] at hstep
          obtain ⟨rfl, rfl, rfl⟩ := hstep
          exact ⟨_, .native rfl hframes hchild hends, Ledger.Balanced.call {} f hbooks⟩
      | @finished state reply hchild hfor hfits =>
          rw [← List.append_nil reply.written, parent_returns natives hpoint] at hstep
          simp only [Option.some.injEq, Prod.mk.injEq] at hstep
          obtain ⟨rfl, rfl, rfl⟩ := hstep
          rw [List.append_nil, List.append_nil]
          exact ⟨_, .returned rfl hframes hchild hfor hfits, hbooks⟩

theorem Session.Invariant.parent_returned {p : Parent F W} {c : Child G} {caller : Caller}
    {state : G} {reply : Reply} (hframes : p.frames = []) (hchild : c.point = .loop state)
    (hfor : Reply.For caller reply)
    (hfits : ∀ value, reply.value = some (some value) → value.Fits maxStringSize maxArraySize)
    (hbooks : (ledger p c).Balanced { values := reply.value.toList }) :
    Session.Invariant natives
      ⟨p.afterCallbacks caller reply.returned false, c, [], reply.content⟩ := by
  cases reply with
  | compiled ret =>
      cases caller with
      | compileScript => exact ⟨_, .compiled rfl hframes hchild, hbooks⟩
      | callFunction name => cases hfor
  | called ret =>
      cases caller with
      | compileScript => cases hfor
      | callFunction name =>
          cases ret with
          | some value => exact ⟨_, .called rfl hframes hchild (hfits value rfl), hbooks⟩
          | none =>
              -- `RESP_ERROR`: the operation returns `NULL` at once
              have hafter : p.afterCallbacks (.callFunction name) false false =
                  p.finish (.value none) := rfl
              rw [show (Reply.called none).returned = false from rfl, hafter,
                Parent.finish_nil hframes]
              exact ⟨_, .idle rfl hframes hchild,
                Ledger.Balanced.finish {} (.value none) hbooks⟩

theorem Session.Invariant.parent_step {s : Session F W G} {next : Parent F W} {rest : List Mark}
    {written : Bytes} (h : s.Invariant natives) (horder : s.ParentInOrder)
    (hstep : (parentMachine natives).step s.left s.toLeft = some (next, rest, written)) :
    Session.Invariant natives ⟨next, s.right, s.toRight ++ written, rest⟩ := by
  obtain ⟨flight, htalk, hbooks⟩ := h
  cases htalk with
  | outside hpoint hframes hchild hpending =>
      exact .parent_outside hpoint hframes hchild hpending hbooks horder hstep
  | asking hpoint =>
      rw [parentMachine_waits natives (fun _ => Parent.step_isFunctionReply hpoint) rfl] at hstep
      cases hstep
  | @told p c state name ret hpoint hframes hchild =>
      rw [← List.append_nil (mark .reply _), parent_told natives hpoint] at hstep
      simp only [Option.some.injEq, Prod.mk.injEq] at hstep
      obtain ⟨rfl, rfl, rfl⟩ := hstep
      rw [Parent.finish_nil (p := { p with answers := p.answers ++ [(name, ret)] }) hframes]
      exact ⟨_, .idle rfl hframes hchild,
        Ledger.Balanced.finish {} (.bool ret) (Ledger.Balanced.answer {} hbooks)⟩
  | serving hpoint hframes hpartner =>
      exact .parent_serving hpoint hframes hpartner hbooks horder hstep
  | @native p c caller body resume hpoint hframes hchild hends =>
      simp only [Session.ParentInOrder, hpoint] at horder
      obtain ⟨value, world, rfl, hvalue⟩ := body.plain_iff.mp horder
      rw [parent_answers natives hpoint] at hstep
      simp only [Option.some.injEq, Prod.mk.injEq] at hstep
      obtain ⟨rfl, rfl, rfl⟩ := hstep
      exact ⟨_, @Talk.serving F W G natives _ c caller _ _ _ [] rfl hframes
        (.answered hchild hends hvalue), Ledger.Balanced.reply {} value hbooks⟩
  | @returned p c caller state reply hpoint hframes hchild hfor hfits =>
      rw [parent_leaves natives hpoint] at hstep
      simp only [Option.some.injEq, Prod.mk.injEq] at hstep
      obtain ⟨rfl, rfl, rfl⟩ := hstep
      exact .parent_returned hframes hchild hfor hfits hbooks
  | @compiled p c state ret hpoint hframes hchild =>
      rw [← List.append_nil (Reply.content _), parent_compiled natives hpoint] at hstep
      simp only [Option.some.injEq, Prod.mk.injEq] at hstep
      obtain ⟨rfl, rfl, rfl⟩ := hstep
      rw [Parent.finish_nil hframes]
      exact ⟨_, .idle rfl hframes hchild,
        Ledger.Balanced.finish {} (.bool ret) hbooks⟩
  | @called p c state name value hpoint hframes hchild hfits =>
      rw [← List.append_nil (Reply.content _), parent_called natives hpoint hfits] at hstep
      simp only [Option.some.injEq, Prod.mk.injEq] at hstep
      obtain ⟨rfl, rfl, rfl⟩ := hstep
      rw [Parent.finish_nil hframes]
      exact ⟨_, .idle rfl hframes hchild,
        Ledger.Balanced.finish {} (.value (some value)) hbooks⟩

end Parent

/-! ### Steps of the child -/

section Child

/-- A command has arrived, and the run of the interpreter for it is in order. -/
theorem Session.ChildInOrder.command {p : Parent F W} {c : Child G} {state : G} {bytes : Bytes}
    {marks : List Mark} (horder : Session.ChildInOrder interp ⟨p, c, bytes, marks⟩)
    (hpoint : c.point = .loop state) {operation : Op F} {later : Bytes}
    (hbytes : bytes = operation.command natives ++ later) (hreadable : operation.Readable) :
    (childLoop interp (operation.request natives) state).InOrder p ∧
      ((childLoop interp (operation.request natives) state).stop.calls →
        (operation.request natives).entersGuest) := by
  simp only [Session.ChildInOrder, hpoint, hbytes,
    operation.readRequest_command natives hreadable] at horder
  exact horder

/-- The child carries out a definition: it may log, and it is at its commands again. -/
theorem Session.ChildInOrder.defines {p : Parent F W} {c next : Child G} {state : G}
    {bytes rest : Bytes} {marks written : List Mark}
    (horder : Session.ChildInOrder interp ⟨p, c, bytes, marks⟩) (hpoint : c.point = .loop state)
    {definition : Op F} {later : Bytes} (hbytes : bytes = definition.command natives ++ later)
    (hdefines : definition.Defines) (hreadable : definition.Readable)
    (hstep : (childMachine interp).step c bytes = some (next, rest, written)) :
    ∃ (guest : Guest (Finished G)) (state' : G), guest.InOrder p ∧
      next = { c with point := .loop state', logged := c.logged ++ guest.lines } ∧
      rest = later ∧ written = guest.lines.flatMap sandboxLog := by
  obtain ⟨hguest, hcalls⟩ := horder.command hpoint hbytes hreadable
  have hends : (childLoop interp (definition.request natives) state).Ends Finished.Silent := by
    cases hdefines with
    | defineConstant name value => exact defineConstant_ends interp state _ _
    | defineFunction name f => exact defineFunction_ends interp state _ _
  have hquiet : (definition.request natives).entersGuest = false := by
    cases hdefines <;> rfl
  rw [hbytes, child_obeys interp hpoint natives hreadable, Child.advance_eq] at hstep
  cases hdone : (childLoop interp (definition.request natives) state).stop with
  | done finished =>
      obtain ⟨state', rfl⟩ := hends.of_done hdone
      rw [hdone] at hstep
      cases hstep
      exact ⟨_, state', hguest, by simp [Child.halt], rfl, by simp [Child.halt]⟩
  | call name args resume =>
      rw [hdone, hquiet] at hcalls
      exact absurd (hcalls rfl) Bool.false_ne_true

theorem child_tells (interp : Interp G) {c : Child G} {state : G} (hpoint : c.point = .loop state)
    {name : CString} (hreadable : (Op.isFunction name : Op F).Readable)
    (hquiet : (childLoop interp (.isFunction (some name)) state).lines = [])
    (hcalls : (childLoop interp (.isFunction (some name)) state).stop.calls = false) :
    ∃ state' ret, (childMachine interp).step c ((Op.isFunction name).command natives) =
      some ({ c with
        point := .loop state'
        answers := c.answers ++ [(some name, ret)] }, [],
        mark .reply (writeByte (boolByte ret))) := by
  cases hdone : (childLoop interp (.isFunction (some name)) state).stop with
  | done finished =>
      obtain ⟨state', ret, rfl⟩ := (isFunction_ends interp state name).of_done hdone
      refine ⟨state', ret, ?_⟩
      rw [← List.append_nil ((Op.isFunction name).command natives),
        child_obeys interp hpoint natives hreadable]
      simp [Child.advance_eq, Op.request, hdone, hquiet, Child.halt]
  | call callback args resume =>
      rw [hdone] at hcalls
      exact absurd hcalls.symm Bool.false_ne_true

/-- The interpreter has run up to its next stop in a command that the parent serves. -/
theorem Session.Invariant.of_guest {p : Parent F W} {c : Child G} {caller : Caller}
    {lines : List CString} {guest : Guest (Finished G)} (hpoint : p.point = .callbacks caller)
    (hframes : p.frames = []) (hends : guest.Ends (Finished.Replies caller))
    (horder : guest.InOrder p) (hbooks : (ledger p c).Balanced { lines := lines }) :
    Session.Invariant natives
      ⟨p, (c.advance guest).1, [], lines.flatMap sandboxLog ++ (c.advance guest).2⟩ := by
  have hlog := hbooks.log guest.lines_isLogLine horder.lines
  rw [Child.advance_eq]
  simp only [← List.append_assoc, ← List.flatMap_append]
  cases hstop : guest.stop with
  | done finished =>
      obtain ⟨state, reply, hfor, rfl⟩ := hends.of_done hstop
      have hfits : ∀ value, reply.value = some (some value) →
          value.Fits maxStringSize maxArraySize := by
        have hstopped := horder.fits
        rw [hstop] at hstopped
        exact fun value hvalue => hstopped value (by rw [hvalue]; rfl)
      refine ⟨_, .serving hpoint hframes (.finished rfl hfor hfits), ?_⟩
      simp only [Child.halt, Option.toList_none, List.append_nil, if_true]
      exact Ledger.Balanced.give { lines := lines ++ guest.lines } reply.value.toList hlog
  | call name args resume =>
      have hstopped := horder.fits
      rw [hstop] at hstopped
      obtain ⟨hname, hargs⟩ := hstopped
      refine ⟨_, .serving hpoint hframes
        (.calling rfl (hends.of_call hstop) hname hargs), ?_⟩
      exact Ledger.Balanced.send { lines := lines ++ guest.lines } name args hlog

theorem Session.Invariant.child_entering {p : Parent F W} {c next : Child G} {caller : Caller}
    {state : G} {pending : List (Op F)} {operation : Op F} {lines : List CString} {rest : Bytes}
    {written : List Mark} (hpoint : p.point = .callbacks caller) (hframes : p.frames = [])
    (hchild : c.point = .loop state)
    (hpending : ∀ operation ∈ pending, operation.Defines ∧ operation.Readable)
    (hfor : operation.For caller) (hreadable : operation.Readable)
    (hbooks : (ledger p c).Balanced { lines := lines })
    (horder : Session.ChildInOrder interp
      ⟨p, c, (pending ++ [operation]).flatMap (Op.command natives), lines.flatMap sandboxLog⟩)
    (hstep : (childMachine interp).step c ((pending ++ [operation]).flatMap (Op.command natives)) =
      some (next, rest, written)) :
    Session.Invariant natives ⟨p, next, rest, lines.flatMap sandboxLog ++ written⟩ := by
  cases pending with
  | nil =>
      have hbytes : ([] ++ [operation]).flatMap (Op.command natives) =
          operation.command natives ++ [] := by simp
      obtain ⟨hguest, -⟩ := horder.command hchild hbytes hreadable
      have hends : (childLoop interp (operation.request natives) state).Ends
          (Finished.Replies caller) := by
        cases hfor with
        | compileScript script => exact compileScript_ends interp state _
        | callFunction name args => exact callFunction_ends interp state name _ _
      rw [hbytes, child_obeys interp hchild natives hreadable] at hstep
      simp only [Option.some.injEq, Prod.mk.injEq] at hstep
      obtain ⟨rfl, rfl, rfl⟩ := hstep
      exact .of_guest hpoint hframes hends hguest hbooks
  | cons definition pending =>
      obtain ⟨⟨hdefines, hdefinition⟩, hpending⟩ := List.forall_mem_cons.mp hpending
      have hbytes : (definition :: pending ++ [operation]).flatMap (Op.command natives) =
          definition.command natives ++ (pending ++ [operation]).flatMap (Op.command natives) :=
        List.flatMap_cons
      obtain ⟨guest, state', hguest, rfl, rfl, rfl⟩ :=
        horder.defines hchild hbytes hdefines hdefinition hstep
      rw [← List.flatMap_append, ← List.append_nil (List.flatMap _ (lines ++ _))]
      exact ⟨_, .serving hpoint hframes (.entering rfl hpending hfor hreadable),
        hbooks.log guest.lines_isLogLine hguest.lines⟩

/-- The child carries out a definition while the parent is outside all operations. -/
theorem Session.Invariant.child_outside {p : Parent F W} {c next : Child G} {state : G}
    {pending : List (Op F)} {lines : List CString} {rest : Bytes} {written : List Mark}
    (hpoint : p.point = .host) (hframes : p.frames = []) (hchild : c.point = .loop state)
    (hpending : ∀ operation ∈ pending, operation.Defines ∧ operation.Readable)
    (hbooks : (ledger p c).Balanced { lines := lines })
    (horder : Session.ChildInOrder interp
      ⟨p, c, pending.flatMap (Op.command natives), lines.flatMap sandboxLog⟩)
    (hstep : (childMachine interp).step c (pending.flatMap (Op.command natives)) =
      some (next, rest, written)) :
    Session.Invariant natives ⟨p, next, rest, lines.flatMap sandboxLog ++ written⟩ := by
  cases pending with
  | nil =>
      rw [List.flatMap_nil, child_loop_waits interp hchild] at hstep
      cases hstep
  | cons definition pending =>
      obtain ⟨⟨hdefines, hdefinition⟩, hpending⟩ := List.forall_mem_cons.mp hpending
      obtain ⟨guest, state', hguest, rfl, rfl, rfl⟩ :=
        horder.defines hchild List.flatMap_cons hdefines hdefinition hstep
      rw [← List.flatMap_append]
      exact ⟨_, .outside hpoint hframes rfl hpending, hbooks.log guest.lines_isLogLine hguest.lines⟩

/-- The child carries out what comes before the parent's question, or answers it. -/
theorem Session.Invariant.child_asking {p : Parent F W} {c next : Child G} {state : G}
    {pending : List (Op F)} {name : CString} {rest : Bytes} {written : List Mark}
    (hpoint : p.point = .isFunctionReply name) (hframes : p.frames = [])
    (hchild : c.point = .loop state)
    (hpending : ∀ operation ∈ pending, operation.Defines ∧ operation.Readable)
    (hreadable : (Op.isFunction name : Op F).Readable) (hbooks : (ledger p c).Balanced {})
    (horder : Session.ChildInOrder interp
      ⟨p, c, (pending ++ [Op.isFunction name]).flatMap (Op.command natives), []⟩)
    (hstep : (childMachine interp).step c
      ((pending ++ [Op.isFunction name]).flatMap (Op.command natives)) =
        some (next, rest, written)) :
    Session.Invariant natives ⟨p, next, rest, written⟩ := by
  have hasks : p.point.asks := by rw [hpoint]; rfl
  cases pending with
  | nil =>
      have hbytes : ([] ++ [Op.isFunction name]).flatMap (Op.command natives) =
          (Op.isFunction name).command natives := by simp
      obtain ⟨hguest, hcalls⟩ :=
        horder.command hchild (hbytes.trans (List.append_nil _).symm) hreadable
      obtain ⟨state', ret, htold⟩ := child_tells interp hchild hreadable (hguest.quiet hasks)
        (by simpa [Op.request, Request.entersGuest] using hcalls)
      rw [hbytes, htold] at hstep
      cases hstep
      exact ⟨_, .told hpoint hframes rfl, Ledger.Balanced.tell {} name ret hbooks⟩
  | cons definition pending =>
      obtain ⟨⟨hdefines, hdefinition⟩, hpending⟩ := List.forall_mem_cons.mp hpending
      obtain ⟨guest, state', hguest, rfl, rfl, rfl⟩ :=
        horder.defines hchild List.flatMap_cons hdefines hdefinition hstep
      rw [hguest.quiet hasks, List.append_nil]
      exact ⟨_, .asking hpoint hframes rfl hpending hreadable, hbooks⟩

theorem Session.Invariant.child_answered {p : Parent F W} {c next : Child G} {caller : Caller}
    {resume : Option Value → Guest (Finished G)} {value : Value} {lines : List CString}
    {rest : Bytes} {written : List Mark} (hpoint : p.point = .callbacks caller)
    (hframes : p.frames = []) (hchild : c.point = .await resume)
    (hends : ∀ reply, (resume reply).Ends (Finished.Replies caller)) (hvalue : value.Fits 0 0)
    (hbooks : (ledger p c).Balanced { replies := [value], lines := lines })
    (horder : Session.ChildInOrder interp ⟨p, c, writeValue value, lines.flatMap sandboxLog⟩)
    (hstep : (childMachine interp).step c (writeValue value) = some (next, rest, written)) :
    Session.Invariant natives ⟨p, next, rest, lines.flatMap sandboxLog ++ written⟩ := by
  have hread : readValueNolimit.attempt (⟨writeValue value, .more⟩ : Pipe) =
      .ok (some value) ⟨[], .more⟩ := by
    rw [← List.append_nil (writeValue value), Reader.attempt_apply,
      readValueNolimit_writeValue hvalue, Outcome.attempt_ok]
  simp only [Session.ChildInOrder, hchild, hread] at horder
  rw [← List.append_nil (writeValue value), child_resumes interp hchild hvalue] at hstep
  cases hstep
  exact .of_guest hpoint hframes (hends (some value)) horder
    (Ledger.Balanced.receive { lines := lines } hbooks)

theorem Session.Invariant.child_step {s : Session F W G} {next : Child G} {rest : Bytes}
    {written : List Mark} (h : s.Invariant natives) (horder : s.ChildInOrder interp)
    (hstep : (childMachine interp).step s.right s.toRight = some (next, rest, written)) :
    Session.Invariant natives ⟨s.left, next, rest, s.toLeft ++ written⟩ := by
  obtain ⟨flight, htalk, hbooks⟩ := h
  cases htalk with
  | outside hpoint hframes hchild hpending =>
      exact .child_outside hpoint hframes hchild hpending hbooks horder hstep
  | asking hpoint hframes hchild hpending hreadable =>
      exact .child_asking hpoint hframes hchild hpending hreadable hbooks horder hstep
  | told _ _ hchild =>
      rw [child_loop_waits interp hchild] at hstep
      cases hstep
  | serving hpoint hframes hpartner =>
      cases hpartner with
      | entering hchild hpending hfor hreadable =>
          rw [List.append_nil] at horder ⊢
          exact .child_entering hpoint hframes hchild hpending hfor hreadable hbooks horder hstep
      | calling hchild =>
          rw [child_await_waits interp hchild] at hstep
          cases hstep
      | answered hchild hends hvalue =>
          rw [List.append_nil] at horder ⊢
          exact .child_answered hpoint hframes hchild hends hvalue hbooks horder hstep
      | finished hchild =>
          rw [child_loop_waits interp hchild] at hstep
          cases hstep
  | native _ _ hchild =>
      rw [child_await_waits interp hchild] at hstep
      cases hstep
  | returned _ _ hchild =>
      rw [child_loop_waits interp hchild] at hstep
      cases hstep
  | compiled _ _ hchild =>
      rw [child_loop_waits interp hchild] at hstep
      cases hstep
  | called _ _ hchild =>
      rw [child_loop_waits interp hchild] at hstep
      cases hstep

end Child

theorem Session.Invariant.step {s t : Session F W G} (h : s.Invariant natives)
    (hstep : Session.OrderlyStep natives interp s t) : t.Invariant natives := by
  cases hstep with
  | parent horder hstep => exact h.parent_step horder hstep
  | child horder hstep => exact h.child_step horder hstep

/-- **Sessions in order.** The invariant holds in every state a session in order reaches. -/
theorem Session.Orderly.invariant {world : W} {program : List (Op F)} {state : G}
    {s : Session F W G} (h : Session.Orderly natives interp world program state s) :
    s.Invariant natives := by
  induction h with
  | refl => exact .start world program state
  | tail _ hstep ih => exact ih.step hstep

end CageKeeper
