import CageKeeper.ProxySurvival

/-! The flag `in_call` over sequences of outermost calls. It is set before `process_callbacks` and
reset after it has returned true; where it returns false the operation returns early, and the flag
stays set, so that every later call is refused. -/

namespace CageKeeper
open ByteStream

variable {F W : Type} {natives : Natives F W}

/-- The operations that run the guest's program. -/
inductive Op.EntersGuest : Op F → Prop where
  | compileScript (script : CString) : EntersGuest (.compileScript script)
  | callFunction (name : CString) (args : Value) : EntersGuest (.callFunction name args)

instance (operation : Op F) : Decidable operation.EntersGuest :=
  match operation with
  | .compileScript script => isTrue (.compileScript script)
  | .callFunction name args => isTrue (.callFunction name args)
  | .defineConstant _ _ => isFalse nofun
  | .defineFunction _ _ => isFalse nofun
  | .isFunction _ => isFalse nofun

/-- The host outside callbacks, about to call an operation. -/
def Parent.calling (p : Parent F W) (operation : Op F) : Parent F W :=
  { p with point := .host, frames := [], program := [operation] }

/-- An outermost call of an operation that runs the guest's program, from its start to its return,
on a finished stream from the child. -/
structure OutermostCall (natives : Natives F W) (p : Parent F W) (operation : Op F) (pipe : Pipe)
    (after : Parent F W) : Prop where
  enters : operation.EntersGuest
  closed : pipe.ending ≠ .more
  run : ∃ rest, Relation.ReflTransGen (Solo natives) (p.calling operation, pipe) (after, rest)
  returned : after.point = .host
  done : after.program = []

/-- A sequence of outermost calls, with the state in which each of them starts and its stream. -/
inductive OutermostCalls (natives : Natives F W) :
    Parent F W → List (Parent F W × Pipe) → Parent F W → Prop where
  | nil (p : Parent F W) : OutermostCalls natives p [] p
  | cons {p next last : Parent F W} {operation : Op F} {pipe : Pipe}
      {calls : List (Parent F W × Pipe)} (call : OutermostCall natives p operation pipe next)
      (rest : OutermostCalls natives next calls last) :
      OutermostCalls natives p ((p.calling operation, pipe) :: calls) last

theorem reaches_solo {a b : Host F W} (h : Relation.ReflTransGen (Loop natives) a b) :
    Relation.ReflTransGen (Solo natives) a b := by
  induction h with
  | refl => exact .refl
  | tail _ hstep ih => exact ih.tail hstep.2

theorem terminal_of_host {p : Parent F W} {pipe : Pipe} (hpoint : p.point = .host)
    (hprogram : p.program = []) : Terminal (Solo natives) (p, pipe) := by
  rintro b ⟨written, hstep⟩
  rw [Parent.step_host_nil hpoint hprogram] at hstep
  cases hstep

theorem terminal_of_crashed {p : Parent F W} {pipe : Pipe} (hpoint : p.point = .crashed) :
    Terminal (Solo natives) (p, pipe) := by
  rintro b ⟨written, hstep⟩
  rw [Parent.step_crashed hpoint] at hstep
  cases hstep

namespace Parent

/-- The operation has returned to the host's program, with the flag as it was. -/
structure Returned (p next : Parent F W) : Prop where
  point : next.point = .host
  program : next.program = p.program
  inCall : next.inCall = p.inCall

theorem returned_finish {p : Parent F W} (hframes : p.frames = []) (result : Result) :
    p.Returned (p.finish result) := by
  constructor <;> simp [finish, hframes]

theorem returned_timeout {p : Parent F W} (hframes : p.frames = []) {line : Option CString}
    (hline : line.isSome) (result : Result) :
    p.Returned (report { p with timeout := true } .proxy line (finish · result)) := by
  obtain ⟨line, rfl⟩ := Option.isSome_iff_exists.mp hline
  constructor <;> simp [report, finish, hframes]

theorem returned_compileScriptReturn {p : Parent F W} (hframes : p.frames = [])
    (reply : Option UInt8) (expired : Bool) :
    p.Returned (p.compileScriptReturn reply expired) := by
  cases reply with
  | some b => exact returned_finish hframes _
  | none =>
      cases expired with
      | true => exact returned_timeout hframes compileReplyTimeout_isSome _
      | false => exact returned_finish hframes _

theorem returned_callFunctionReturn {p : Parent F W} (hframes : p.frames = []) (name : CString)
    (reply : Option Value) (expired : Bool) :
    p.Returned (p.callFunctionReturn name reply expired) := by
  cases reply with
  | some b => exact returned_finish hframes _
  | none =>
      cases expired with
      | true => exact returned_timeout hframes (callReplyTimeout_isSome name) _
      | false => exact returned_finish hframes _

/-- After a `process_callbacks` that returned false the operation returns at once. -/
theorem returned_afterCallbacks {p : Parent F W} (hframes : p.frames = []) (caller : Caller)
    (expired : Bool) : p.Returned (p.afterCallbacks caller false expired) := by
  cases caller with
  | compileScript =>
      cases expired with
      | true => exact returned_timeout hframes compileTimeout_isSome _
      | false => exact returned_finish hframes _
  | callFunction name =>
      cases expired with
      | true => exact returned_timeout hframes (callTimeout_isSome name) _
      | false => exact returned_finish hframes _

end Parent

/-- Once `process_callbacks` has returned, the operation returns too; the flag is reset only in
case of success. -/
theorem afterLoop_reaches (natives : Natives F W) {p : Parent F W} {pipe : Pipe} {caller : Caller}
    {ret expired : Bool} (hpoint : p.point = .callbacksDone caller ret expired)
    (hframes : p.frames = []) (hcall : p.inCall = true) (hclosed : pipe.ending ≠ .more) :
    ∃ after rest, Relation.ReflTransGen (Solo natives) (p, pipe) (after, rest) ∧
      after.point = .host ∧ after.program = p.program ∧ after.inCall = !ret := by
  have hstep : Solo natives (p, pipe) (p.afterCallbacks caller ret expired, pipe) :=
    ⟨[], Parent.step_callbacksDone hpoint⟩
  cases ret with
  | false =>
      have hreturned := Parent.returned_afterCallbacks hframes caller expired
      exact ⟨_, pipe, .single hstep, hreturned.point, hreturned.program,
        hreturned.inCall.trans hcall⟩
  | true =>
      cases caller with
      | compileScript =>
          obtain ⟨reply, rest, hreply, -, -⟩ :=
            readByte_attempt_answers.ok_of_closed readByte_lawful.attempt hclosed
          have hreturned := Parent.returned_compileScriptReturn
            (p := { p with inCall := false, point := .compileReply }) hframes reply
            (rest.ending = .expired)
          refine ⟨_, rest, .head hstep (.single ⟨[], ?_⟩), hreturned.point, hreturned.program,
            hreturned.inCall⟩
          exact (Parent.step_compileReply rfl).trans
            (Parent.afterRead_eq_some.mpr ⟨reply, hreply, rfl, rfl⟩)
      | callFunction name =>
          obtain ⟨reply, rest, hreply, -, -⟩ :=
            readValue_attempt_answers.ok_of_closed readValue_lawful.attempt hclosed
          have hreturned := Parent.returned_callFunctionReturn
            (p := { p with inCall := false, point := .callReply name }) hframes name reply
            (rest.ending = .expired)
          refine ⟨_, rest, .head hstep (.single ⟨[], ?_⟩), hreturned.point, hreturned.program,
            hreturned.inCall⟩
          exact (Parent.step_callReply rfl).trans
            (Parent.afterRead_eq_some.mpr ⟨reply, hreply, rfl, rfl⟩)

theorem enter_loop (natives : Natives F W) {p : Parent F W} {operation : Op F}
    (henters : operation.EntersGuest) (hcall : p.inCall = false) (pipe : Pipe) :
    ∃ entered caller, Solo natives (p.calling operation, pipe) (entered, pipe) ∧
      entered.point = .callbacks caller ∧ entered.frames = [] ∧ entered.inCall = true ∧
      entered.program = [] ∧ entered.serving pipe = (p.calling operation).serving pipe := by
  cases henters with
  | compileScript script =>
      refine ⟨_, .compileScript, ⟨_, Parent.step_host rfl rfl⟩, ?_⟩
      simp [Parent.invoke, Parent.compileScriptProxy, Parent.calling, hcall, Parent.serving]
  | callFunction name args =>
      refine ⟨_, .callFunction name, ⟨_, Parent.step_host rfl rfl⟩, ?_⟩
      simp [Parent.invoke, Parent.callFunctionProxy, Parent.calling, hcall, Parent.serving]

theorem program_of_loop {p p' : Parent F W} {pipe pipe' : Pipe} {caller : Caller}
    (hpoint : p.point = .callbacks caller) (hframes : p.frames = []) (hcall : p.inCall = true)
    (hloop : Relation.ReflTransGen (Loop natives) (p, pipe) (p', pipe')) :
    p'.program = p.program := by
  have hstart : InTurn natives (p.serving pipe) 0 (p, pipe) :=
    .reading hpoint hframes hcall (.refl _)
  generalize hend : (p', pipe') = b at hloop
  induction hloop generalizing p' pipe' with
  | refl =>
      cases hend
      rfl
  | @tail a b hrun hstep ih =>
      subst hend
      obtain ⟨n, hturn⟩ := hstart.run hrun
      obtain ⟨hin, written, hsolo⟩ := hstep
      exact (hturn.calls hin hsolo).1.trans (ih rfl)

/-- **One call.** An outermost call leaves the flag reset exactly if its stream does not make
`process_callbacks` fail. -/
theorem OutermostCall.inCall_iff {p after : Parent F W} {operation : Op F} {pipe : Pipe}
    (h : OutermostCall natives p operation pipe after) (hcall : p.inCall = false) :
    after.inCall = false ↔ ¬Fails natives ((p.calling operation).serving pipe) := by
  obtain ⟨rest, hrun⟩ := h.run
  have hterminal : Terminal (Solo natives) (after, rest) := terminal_of_host h.returned h.done
  obtain ⟨entered, caller, henter, hpoint, hframes, hin, hprogram, hserving⟩ :=
    enter_loop natives h.enters hcall pipe
  obtain ⟨⟨done, middle⟩, hloop, hout⟩ := loop_reaches natives hpoint hframes hin h.closed
  have hstart : InTurn natives (entered.serving pipe) 0 (entered, pipe) :=
    .reading hpoint hframes hin (.refl _)
  obtain ⟨n, hturn⟩ := hstart.run hloop
  have hreach := Relation.ReflTransGen.head henter (reaches_solo hloop)
  have hdone : done.program = [] := (program_of_loop hpoint hframes hin hloop).trans hprogram
  rw [hserving] at hturn
  rcases hout with ⟨caller', ret, expired, hreturn, hmiddle⟩ | hdead
  · cases hturn with
    | @returned _ _ _ caller' ret expired s hpoint' hframes' hcall' hserved hend =>
        obtain ⟨final, last, hfinal, hhost, hempty, hflag⟩ :=
          afterLoop_reaches natives hpoint' hframes' hcall' hmiddle
        have hsame : (final, last) = (after, rest) := solo_deterministic.end_unique
          (terminal_of_host hhost (hempty.trans hdone)) hterminal (hreach.trans hfinal) hrun
        cases hsame
        cases ret with
        | true =>
            refine iff_of_true (by simpa using hflag) fun hfails => ?_
            exact hfails.not_returns ⟨s, hserved.reflTransGen, hend⟩
        | false =>
            exact iff_of_false (by simp [hflag]) (not_not_intro ⟨s, hserved.reflTransGen, hend⟩)
    | reading hpoint' => simp [hpoint'] at hreturn
    | running hpoint' => simp [hpoint'] at hreturn
    | asking hpoint' => simp [hpoint'] at hreturn
    | crashed hpoint' => simp [hpoint'] at hreturn
  · have hsame := solo_deterministic.end_unique (terminal_of_crashed hdead) hterminal hreach hrun
    cases hsame
    exact absurd (hdead.symm.trans h.returned) (by simp)

/-- **A sequence of calls.** Over any sequence of outermost calls, from a proxy with the flag reset,
none is refused and the flag is reset at the end exactly if none of the streams makes
`process_callbacks` fail. -/
theorem outermostCalls_inCall_iff {p last : Parent F W} {calls : List (Parent F W × Pipe)}
    (h : OutermostCalls natives p calls last) (hcall : p.inCall = false) :
    ((∀ call ∈ calls, call.1.inCall = false) ∧ last.inCall = false) ↔
      ∀ call ∈ calls, ¬Fails natives (call.1.serving call.2) := by
  induction h with
  | nil p => simp [hcall]
  | @cons p next last operation pipe calls call rest ih =>
      have hiff := call.inCall_iff hcall
      simp only [List.forall_mem_cons]
      constructor
      · rintro ⟨⟨-, hcalls⟩, hlast⟩
        have hnext : next.inCall = false := by
          cases rest with
          | nil => exact hlast
          | cons _ _ => exact (List.forall_mem_cons.mp hcalls).1
        exact ⟨hiff.mp hnext, (ih hnext).mp ⟨hcalls, hlast⟩⟩
      · rintro ⟨hfirst, hrest⟩
        have hnext := hiff.mpr hfirst
        obtain ⟨hcalls, hlast⟩ := (ih hnext).mpr hrest
        exact ⟨⟨hcall, hcalls⟩, hlast⟩

/-- The process after at most the given number of steps. -/
def runSolo (natives : Natives F W) : Nat → Host F W → Host F W
  | 0, a => a
  | n + 1, a =>
      match a.1.step natives a.2 with
      | some (p, pipe, _) => runSolo natives n (p, pipe)
      | none => a

theorem reaches_runSolo (natives : Natives F W) (n : Nat) (a : Host F W) :
    Relation.ReflTransGen (Solo natives) a (runSolo natives n a) := by
  induction n generalizing a with
  | zero => exact .refl
  | succ n ih =>
      rw [runSolo]
      split
      · rename_i hstep
        exact .head ⟨_, hstep⟩ (ih _)
      · exact .refl

/-- A call that the child answers by `RESP_RETURN` comes back, whatever follows it in the stream. -/
theorem OutermostCall.exists_of_returns {p : Parent F W} {operation : Op F} {pipe : Pipe}
    (henters : operation.EntersGuest) (hclosed : pipe.ending ≠ .more) (hcall : p.inCall = false)
    (hreturns : Returns natives ((p.calling operation).serving pipe)) :
    ∃ after, OutermostCall natives p operation pipe after := by
  obtain ⟨entered, caller, henter, hpoint, hframes, hin, hprogram, hserving⟩ :=
    enter_loop natives henters hcall pipe
  obtain ⟨⟨done, middle⟩, hloop, hout⟩ := loop_reaches natives hpoint hframes hin hclosed
  have hreach := Relation.ReflTransGen.head henter (reaches_solo hloop)
  have hdone : done.program = [] := (program_of_loop hpoint hframes hin hloop).trans hprogram
  have hstart : InTurn natives (entered.serving pipe) 0 (entered, pipe) :=
    .reading hpoint hframes hin (.refl _)
  obtain ⟨n, hturn⟩ := hstart.run hloop
  rw [hserving] at hturn
  rcases hout with ⟨caller', ret, expired, hreturn, hmiddle⟩ | hdead
  · cases hturn with
    | returned hpoint' hframes' hcall' =>
        obtain ⟨after, rest, hfinal, hhost, hempty, -⟩ :=
          afterLoop_reaches natives hpoint' hframes' hcall' hmiddle
        exact ⟨after, henters, hclosed, ⟨rest, hreach.trans hfinal⟩, hhost, hempty.trans hdone⟩
    | reading hpoint' => simp [hpoint'] at hreturn
    | running hpoint' => simp [hpoint'] at hreturn
    | asking hpoint' => simp [hpoint'] at hreturn
    | crashed hpoint' => simp [hpoint'] at hreturn
  · cases hturn with
    | crashed _ hcrashes => exact absurd hreturns hcrashes.not_returns
    | reading hpoint' => simp [hpoint'] at hdead
    | running hpoint' => simp [hpoint'] at hdead
    | asking hpoint' => simp [hpoint'] at hdead
    | returned hpoint' => simp [hpoint'] at hdead

/-- The host calls `f`, serves a callback and is given 7, and then compiles a script. -/
theorem outermostCalls_inCall_callback :
    ∃ calls last, OutermostCalls echoNatives Parent.withG calls last ∧
      calls.map Prod.snd =
        [⟨callbackOfG ++ (11 :: writeValue (.int32 7#32)), .eof⟩, ⟨[11, 1], .eof⟩] ∧
      (∀ call ∈ calls, call.1.inCall = false) ∧ last.inCall = false := by
  have hreturns : Returns echoNatives ((Parent.withG.calling
      (.callFunction (CString.lit "f") (.int32 7#32))).serving
        ⟨callbackOfG ++ (11 :: writeValue (.int32 7#32)), .eof⟩) :=
    ⟨_, .single (served_callbackOfG _ _), _, readMessage_returnTag _ _⟩
  obtain ⟨middle, hfirst⟩ :=
    OutermostCall.exists_of_returns (.callFunction _ _) Ending.noConfusion rfl hreturns
  have hmiddle := (hfirst.inCall_iff rfl).mpr fun hfails => hfails.not_returns hreturns
  have hreturns' : Returns echoNatives ((middle.calling
      (.compileScript (CString.lit "x"))).serving ⟨[11, 1], .eof⟩) :=
    ⟨_, .refl, _, readMessage_returnTag _ _⟩
  obtain ⟨last, hsecond⟩ :=
    OutermostCall.exists_of_returns (.compileScript _) Ending.noConfusion hmiddle hreturns'
  have hcalls := OutermostCalls.cons hfirst (.cons hsecond (.nil last))
  refine ⟨_, _, hcalls, rfl, (outermostCalls_inCall_iff hcalls rfl).mpr ?_⟩
  refine List.forall_mem_cons.mpr ⟨fun hfails => hfails.not_returns hreturns, ?_⟩
  exact List.forall_mem_singleton.mpr fun hfails => hfails.not_returns hreturns'

/-- The host after an outermost call of `f` with no arguments has been given its result. -/
def afterCall (inCall : Bool) (result : Option Value) : Parent Unit Unit :=
  { Parent.start () [] with
    inCall := inCall
    results := [.value result] }

/-- A call answered by `RESP_ERROR`, as every call of a guest function that raises is. -/
theorem outermostCall_error :
    OutermostCall nullNatives (.start () []) (.callFunction (CString.lit "f") (.array []))
      ⟨[12], .eof⟩ (afterCall true none) where
  enters := .callFunction _ _
  closed := Ending.noConfusion
  run := ⟨⟨[], .eof⟩, reaches_runSolo nullNatives 3 _⟩
  returned := rfl
  done := rfl

/-- After one failed call the flag stays set. -/
theorem not_inCall_reset_error :
    ¬∀ calls last, OutermostCalls nullNatives (.start () []) calls last →
      (∀ call ∈ calls, call.1.inCall = false) ∧ last.inCall = false := by
  intro h
  exact absurd (h _ _ (.cons outermostCall_error (.nil _))).2 (by decide)

end CageKeeper
