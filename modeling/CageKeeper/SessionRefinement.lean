import CageKeeper.SessionDirect
import CageKeeper.SessionCallbacks
import CageKeeper.ProxyInCall
import CageKeeper.BoundedNet

/-! The sandboxed run and the direct run. Between two operations a session stands where the direct
run stands; one operation takes both to such states again, with the same result and the same
calls of native functions. One schedule is enough to see this, since the steps of the two
processes can be reordered: every other interleaving comes to the same end. -/

namespace CageKeeper
open ByteStream

variable {F W G α : Type} {natives : Natives F W} {interp : Interp G}

/-- What the native functions of the parent have done. -/
def Parent.trace (p : Parent F W) : Trace F W := ⟨p.world, p.calls, p.replies⟩

/-- Between two operations: nothing is on its way, and the interpreter's memory, the registered
functions and the native functions are as in the direct run. -/
structure Matches (d : Direct F W G) (s : Session F W G) : Prop where
  host : s.left.point = .host
  frames : s.left.frames = []
  child : s.right.point = .loop d.memory
  toRight : s.toRight = []
  toLeft : s.toLeft = []
  functions : s.left.callbackFunctions.find = d.functions
  trace : s.left.trace = d.trace

/-! ### Steps -/

section Steps

theorem Session.run_parent {p next : Parent F W} {c : Child G} {toRight written after : Bytes}
    {toLeft rest : List Mark}
    (hstep : (parentMachine natives).step p toLeft = some (next, rest, written))
    (hafter : toRight ++ written = after) :
    Session.Run natives interp ⟨p, c, toRight, toLeft⟩ ⟨next, c, after, rest⟩ := by
  subst hafter
  exact .left hstep

/-- A step of a process that has nothing on its way to the other one. -/
abbrev Session.Calm (natives : Natives F W) (interp : Interp G) :
    Session F W G → Session F W G → Prop :=
  Net.Calm (parentMachine natives) (childMachine interp)

theorem Session.calm_parent {p next : Parent F W} {c : Child G} {written : Bytes}
    {toLeft rest : List Mark}
    (hstep : (parentMachine natives).step p toLeft = some (next, rest, written)) :
    Session.Calm natives interp ⟨p, c, [], toLeft⟩ ⟨next, c, written, rest⟩ :=
  .left rfl hstep

theorem Session.calm_child {p : Parent F W} {c next : Child G} {toRight rest : Bytes}
    {written : List Mark}
    (hstep : (childMachine interp).step c toRight = some (next, rest, written)) :
    Session.Calm natives interp ⟨p, c, toRight, []⟩ ⟨p, next, rest, written⟩ :=
  .right rfl hstep

/-- The child, at its commands, carries out the one that has arrived. -/
theorem Session.calm_command (natives : Natives F W) (interp : Interp G) {c : Child G} {state : G}
    (hchild : c.point = .loop state) {operation : Op F} (hreadable : operation.Readable)
    (p : Parent F W) :
    Session.Calm natives interp ⟨p, c, operation.command natives, []⟩
      ⟨p, (c.advance (childLoop interp (operation.request natives) state)).1, [],
        (c.advance (childLoop interp (operation.request natives) state)).2⟩ := by
  have hstep := child_obeys interp hchild natives hreadable []
  rw [List.append_nil] at hstep
  exact Session.calm_child hstep

theorem Session.run_command (natives : Natives F W) (interp : Interp G) {c : Child G} {state : G}
    (hchild : c.point = .loop state) {operation : Op F} (hreadable : operation.Readable)
    (p : Parent F W) :
    Session.Run natives interp ⟨p, c, operation.command natives, []⟩
      ⟨p, (c.advance (childLoop interp (operation.request natives) state)).1, [],
        (c.advance (childLoop interp (operation.request natives) state)).2⟩ :=
  (Session.calm_command natives interp hchild hreadable p).step

theorem Child.advance_done (c : Child G) {finished : Finished G} (halive : finished.alive = true) :
    (c.advance (.done finished)).1.point = .loop finished.state := by
  simp only [advance, halive, if_true]

/-- A command during which the interpreter neither logs nor calls back. -/
theorem Session.calm_quiet {c : Child G} {state : G} (hchild : c.point = .loop state)
    {operation : Op F} (hreadable : operation.Readable) {finished : Finished G}
    (hdone : childLoop interp (operation.request natives) state = .done finished)
    (halive : finished.alive = true) :
    ∃ c', c'.point = .loop finished.state ∧ ∀ p : Parent F W,
      Session.Calm natives interp ⟨p, c, operation.command natives, []⟩
        ⟨p, c', [], finished.written⟩ := by
  refine ⟨_, c.advance_done halive, fun p => ?_⟩
  have hrun := Session.calm_command natives interp hchild hreadable p
  rw [hdone] at hrun
  exact hrun

end Steps

/-! ### A run of the interpreter -/

/-- What `process_callbacks` does not change. -/
structure Parent.Alike (p next : Parent F W) : Prop where
  point : next.point = p.point
  frames : next.frames = p.frames
  inCall : next.inCall = p.inCall
  program : next.program = p.program
  results : next.results = p.results
  functions : next.callbackFunctions.find = p.callbackFunctions.find

/-- The parent serves a run of the interpreter to its end, and the native functions do what they
do in the direct run. -/
theorem guest_simulated (interp : Interp G) (finish : α → Finished G)
    {functions : CString → Option F} {P : α → Prop} (guest : Guest α) {p : Parent F W}
    {c : Child G} {caller : Caller} {result : α} {after : Trace F W}
    (hpoint : p.point = .callbacks caller)
    (hfunctions : p.callbackFunctions.find = functions)
    (hadmissible : guest.Admissible natives functions P p.world)
    (hdirect : guest.direct natives functions p.trace = some (result, after)) :
    ∃ (next : Parent F W) (c' : Child G),
      Relation.ReflTransGen (Session.Calm natives interp)
        ⟨p, (c.advance (guest.map finish)).1, [], (c.advance (guest.map finish)).2⟩
        ⟨next, (c'.advance (.done (finish result))).1, [], (finish result).written⟩ ∧
      p.Alike next ∧ next.trace = after := by
  induction guest generalizing p c with
  | done result' =>
      cases hdirect
      exact ⟨p, c, .refl, ⟨rfl, rfl, rfl, rfl, rfl, rfl⟩, rfl⟩
  | log text guest ih =>
      obtain ⟨hplain, hrest⟩ := hadmissible
      have hheard := (languageLog_eq_self_iff (logLine_isLogLine text)).mpr hplain
      obtain ⟨next, c', hrun, halike, htrace⟩ := ih
        (p := { p with lines := p.lines ++ [(.child, logLine text)] })
        (c := { c with logged := c.logged ++ [logLine text] }) hpoint hfunctions hrest hdirect
      refine ⟨next, c', .head ?_ hrun, ?_, htrace⟩
      · exact Session.calm_parent
          (parent_hears natives hpoint (logLine_isLogLine text) hheard _)
      · exact ⟨halike.point, halike.frames, halike.inCall, halike.program, halike.results,
          halike.functions⟩
  | call name args resume ih =>
      obtain ⟨hname, hargs, f, value, world, hfind, hcall, hvalue, hrest⟩ := hadmissible
      simp only [Guest.direct, hfind, Parent.trace, hcall, Option.toList_some] at hdirect
      obtain ⟨next, c', hrun, halike, htrace⟩ := ih (some value)
        (p := { p with
          callbackFunctions := p.callbackFunctions.visit name
          world := world
          calls := p.calls ++ [(f, args)]
          replies := p.replies ++ [value] })
        (c := { c with
          point := .await fun reply => (resume reply).map finish
          sent := c.sent ++ [(name, args)]
          received := c.received ++ [some value] }) hpoint
        ((funext fun other => CallbackTable.find_visit _ _ _).trans hfunctions) hrest hdirect
      -- the parent starts the function and writes its value, and the child reads it
      have hstart := parent_calls natives hpoint hname hargs.fits
        ((congrFun hfunctions name).trans hfind) []
      have hanswer := parent_answers natives
        (p := { p with
          callbackFunctions := p.callbackFunctions.visit name
          point := .native caller (natives.call f args p.world)
          calls := p.calls ++ [(f, args)] }) (congrArg (Point.native caller) hcall) []
      have hresume := child_resumes interp
        (c := { c with
          point := .await fun reply => (resume reply).map finish
          sent := c.sent ++ [(name, args)] }) rfl hvalue.fits []
      rw [List.append_nil] at hstart hresume
      refine ⟨next, c', .head (Session.calm_parent hstart) (.head (Session.calm_parent hanswer)
        (.head (Session.calm_child hresume) ?_)), ?_, htrace⟩
      · simpa only [hpoint, List.nil_append] using hrun
      · exact ⟨halike.point, halike.frames, halike.inCall, halike.program, halike.results,
          halike.functions.trans (funext fun other => CallbackTable.find_visit _ _ _)⟩

/-! ### An operation -/

/-- The session after some operations, which have returned what the direct run has. -/
structure Follows (s next : Session F W G) (rest : List (Op F)) (returned : List Result) :
    Prop where
  program : next.left.program = rest
  results : next.left.results = s.left.results ++ returned
  /-- The flag stays set after a call that returns `NULL`. -/
  inCall : next.left.inCall = true ↔ s.left.inCall = true ∨ Result.value none ∈ returned

/-- The state of the direct run is reached, with its results. -/
def Simulated (natives : Natives F W) (interp : Interp G) (s : Session F W G)
    (rest : List (Op F)) (returned : List Result) (next : Direct F W G) : Prop :=
  ∃ s', Relation.ReflTransGen (Session.Run natives interp) s s' ∧ Matches next s' ∧
    Follows s s' rest returned

/-- The same by a run in which the two processes take turns. -/
def CalmlySimulated (natives : Natives F W) (interp : Interp G) (s : Session F W G)
    (rest : List (Op F)) (returned : List Result) (next : Direct F W G) : Prop :=
  ∃ s', Relation.ReflTransGen (Session.Calm natives interp) s s' ∧ Matches next s' ∧
    Follows s s' rest returned

theorem Parent.invoke_defineFunction (natives : Natives F W) {p : Parent F W}
    (hframes : p.frames = []) {name : CString} (f : F)
    (hfree : p.callbackFunctions.find name = none) :
    ∃ next, (invoke natives p (.defineFunction name f)).1 = next ∧ next.point = .host ∧
      next.frames = [] ∧ next.inCall = p.inCall ∧ next.program = p.program ∧
      next.results = p.results ++ [.unit] ∧ next.trace = p.trace ∧
      next.callbackFunctions.find = Function.update p.callbackFunctions.find name (some f) := by
  refine ⟨_, rfl, ?_⟩
  simp only [invoke, defineFunctionProxy]
  split
  · rename_i hfind
    simp [CallbackTable.contains_eq, hfree] at hfind
  · simp only [finish_nil, hframes]
    refine ⟨trivial, trivial, trivial, trivial, trivial, rfl, ?_⟩
    funext other
    rw [CallbackTable.find_put, CallbackTable.find_visit, Function.update_apply]

section Operations

variable {d next : Direct F W G} {s : Session F W G} {program : List (Op F)} {result : Result}

theorem defineConstant_simulated {name : CString} {value : Value} (hmatches : Matches d s)
    (hprogram : s.left.program = .defineConstant name value :: program)
    (hadmissible : (Op.defineConstant name value).Admissible natives interp d)
    (hcall : d.call natives interp (.defineConstant name value) = some (result, next)) :
    CalmlySimulated natives interp s program [result] next := by
  obtain ⟨p, c, toRight, toLeft⟩ := s
  obtain ⟨hhost, hframes, hchild, rfl, rfl, hfunctions, htrace⟩ := hmatches
  obtain ⟨hname, hvalue, memory, hquiet⟩ := hadmissible
  dsimp only at hprogram hhost hframes hchild hfunctions htrace
  simp only [Direct.call, hquiet, Guest.direct, Option.map_some, Option.some.injEq,
    Prod.mk.injEq] at hcall
  obtain ⟨rfl, rfl⟩ := hcall
  have hreadable : (Op.defineConstant name value : Op F).Readable := ⟨hname, hvalue.fits⟩
  have hdone : childLoop interp ((Op.defineConstant name value).request natives) d.memory =
      .done ⟨memory, [], true, none, none⟩ := by
    simp only [Op.request, childLoop, hquiet, Guest.map]
  obtain ⟨c', hloop, hobey⟩ := Session.calm_quiet hchild hreadable hdone rfl
  have hinvoke := parent_invokes natives hhost hprogram []
  simp only [Parent.invoke, Parent.defineConstantProxy, Parent.finish_nil, hframes] at hinvoke
  refine ⟨_, .head (Session.calm_parent hinvoke) (.single (hobey _)), ?_, ?_⟩
  · exact ⟨rfl, rfl, hloop, rfl, rfl, hfunctions, htrace⟩
  · exact ⟨rfl, rfl, by simp⟩

theorem defineFunction_simulated {name : CString} {f : F} (hmatches : Matches d s)
    (hprogram : s.left.program = .defineFunction name f :: program)
    (hadmissible : (Op.defineFunction name f).Admissible natives interp d)
    (hcall : d.call natives interp (.defineFunction name f) = some (result, next)) :
    CalmlySimulated natives interp s program [result] next := by
  obtain ⟨p, c, toRight, toLeft⟩ := s
  obtain ⟨hhost, hframes, hchild, rfl, rfl, hfunctions, htrace⟩ := hmatches
  obtain ⟨hname, hparams, hnew, memory, hquiet⟩ := hadmissible
  dsimp only at hprogram hhost hframes hchild hfunctions htrace
  simp only [Direct.call, hquiet, Guest.direct, Option.map_some, Option.some.injEq,
    Prod.mk.injEq] at hcall
  obtain ⟨rfl, rfl⟩ := hcall
  have hreadable : (Op.defineFunction name f).Readable := hname
  -- the number of parameters crosses in one byte
  have hbyte : (UInt8.ofNat (natives.numParams f)).toNat = natives.numParams f := by
    rw [UInt8.toNat_ofNat']
    omega
  have hdone : childLoop interp ((Op.defineFunction name f).request natives) d.memory =
      .done ⟨memory, [], true, none, none⟩ := by
    simp only [Op.request, childLoop, hbyte, hquiet, Guest.map]
  obtain ⟨c', hloop, hobey⟩ := Session.calm_quiet hchild hreadable hdone rfl
  have hfree : p.callbackFunctions.find name = none := by rw [hfunctions, hnew]
  obtain ⟨q, hq, hqhost, hqframes, hqcall, hqprogram, hqresults, hqtrace, hqfunctions⟩ :=
    Parent.invoke_defineFunction natives (p := { p with program := program }) hframes f hfree
  have hinvoke := parent_invokes natives hhost hprogram []
  rw [hq] at hinvoke
  refine ⟨_, .head (Session.calm_parent hinvoke) (.single (hobey _)), ?_, ?_⟩
  · exact ⟨hqhost, hqframes, hloop, rfl, rfl, by rw [hqfunctions, hfunctions],
      hqtrace.trans htrace⟩
  · exact ⟨hqprogram, hqresults, by simp [hqcall]⟩

theorem isFunction_simulated {name : CString} (hmatches : Matches d s)
    (hprogram : s.left.program = .isFunction name :: program)
    (hadmissible : (Op.isFunction name).Admissible natives interp d)
    (hcall : d.call natives interp (.isFunction name) = some (result, next)) :
    CalmlySimulated natives interp s program [result] next := by
  obtain ⟨p, c, toRight, toLeft⟩ := s
  obtain ⟨hhost, hframes, hchild, rfl, rfl, hfunctions, htrace⟩ := hmatches
  obtain ⟨hname, ⟨ret, memory⟩, hquiet⟩ := hadmissible
  dsimp only at hprogram hhost hframes hchild hfunctions htrace
  simp only [Direct.call, hquiet, Guest.direct, Option.map_some, Option.some.injEq,
    Prod.mk.injEq] at hcall
  obtain ⟨rfl, rfl⟩ := hcall
  have hreadable : (Op.isFunction name : Op F).Readable := hname
  have hdone : childLoop interp ((Op.isFunction name).request natives) d.memory =
      .done ⟨memory, mark .reply (writeByte (boolByte ret)), true, some (some name, ret), none⟩ := by
    simp only [Op.request, childLoop, hquiet, Guest.map]
  obtain ⟨c', hloop, hobey⟩ := Session.calm_quiet hchild hreadable hdone rfl
  have hinvoke := parent_invokes natives hhost hprogram []
  have htold := parent_told natives
    (p := { p with program := program, point := .isFunctionReply name }) rfl ret []
  rw [List.append_nil, Parent.finish_nil (p := { p with
    program := program
    point := .isFunctionReply name
    answers := p.answers ++ [(name, ret)] }) hframes] at htold
  refine ⟨_, .head (Session.calm_parent hinvoke) (.head (hobey _)
    (.single (Session.calm_parent htold))), ?_, ?_⟩
  · exact ⟨rfl, hframes, hloop, rfl, rfl, hfunctions, htrace⟩
  · exact ⟨rfl, rfl, by simp⟩

theorem compileScript_simulated {script : CString} (hmatches : Matches d s)
    (hprogram : s.left.program = .compileScript script :: program)
    (hadmissible : (Op.compileScript script).Admissible natives interp d)
    (hallowed : s.left.inCall = false)
    (hcall : d.call natives interp (.compileScript script) = some (result, next)) :
    CalmlySimulated natives interp s program [result] next := by
  obtain ⟨p, c, toRight, toLeft⟩ := s
  obtain ⟨hhost, hframes, hchild, rfl, rfl, hfunctions, htrace⟩ := hmatches
  obtain ⟨hscript, hguest⟩ := hadmissible
  dsimp only at hprogram hhost hframes hchild hfunctions htrace hallowed
  obtain ⟨⟨⟨ret, memory⟩, after⟩, hdirect, heq⟩ := Option.map_eq_some_iff.mp hcall
  cases heq
  rw [← htrace] at hguest hdirect
  have hreadable : (Op.compileScript script : Op F).Readable := hscript
  -- the parent enters `process_callbacks`, and the interpreter runs
  have hinvoke := parent_invokes natives hhost hprogram []
  simp only [Parent.invoke, Parent.compileScriptProxy, hallowed, Bool.false_eq_true,
    if_false] at hinvoke
  have hobey := Session.calm_command natives interp hchild hreadable
    { p with program := program, inCall := true, point := .callbacks .compileScript }
  obtain ⟨q, c', hserve, halike, hafter⟩ := guest_simulated interp
    (fun result => ⟨result.2, (Reply.compiled result.1).written, true, none, none⟩)
    (interp.compileScript (some script) d.memory)
    (p := { p with program := program, inCall := true, point := .callbacks .compileScript })
    (c := c) rfl hfunctions hguest hdirect
  have hqframes : q.frames = [] := halike.frames.trans hframes
  -- the parent reads the tag and the result
  have hreturn := parent_returns natives halike.point (.compiled ret) []
  have hleave := parent_leaves natives
    (p := { q with point := .callbacksDone .compileScript true false }) rfl
    (Reply.compiled ret).content
  have hreply := parent_compiled natives
    (p := { q with inCall := false, point := .compileReply }) rfl ret []
  rw [List.append_nil, List.append_nil] at hreturn
  rw [List.append_nil, Parent.finish_nil (p := { q with
    inCall := false
    point := .compileReply }) hqframes] at hreply
  refine ⟨_, .head (Session.calm_parent hinvoke) (.head hobey
    (hserve.trans (.head (Session.calm_parent hreturn) (.head (Session.calm_parent hleave)
    (.single (Session.calm_parent hreply)))))), ?_, ?_⟩
  · exact ⟨rfl, hqframes, c'.advance_done rfl, rfl, rfl, halike.functions.trans hfunctions, hafter⟩
  · exact ⟨halike.program, congrArg (· ++ _) halike.results, by simp [hallowed]⟩

theorem callFunction_simulated {name : CString} {args : Value} (hmatches : Matches d s)
    (hprogram : s.left.program = .callFunction name args :: program)
    (hadmissible : (Op.callFunction name args).Admissible natives interp d)
    (hallowed : s.left.inCall = false)
    (hcall : d.call natives interp (.callFunction name args) = some (result, next)) :
    CalmlySimulated natives interp s program [result] next := by
  obtain ⟨p, c, toRight, toLeft⟩ := s
  obtain ⟨hhost, hframes, hchild, rfl, rfl, hfunctions, htrace⟩ := hmatches
  obtain ⟨hname, hargs, hguest⟩ := hadmissible
  dsimp only at hprogram hhost hframes hchild hfunctions htrace hallowed
  obtain ⟨⟨⟨ret, memory⟩, after⟩, hdirect, heq⟩ := Option.map_eq_some_iff.mp hcall
  cases heq
  rw [← htrace] at hguest hdirect
  have hfits : ∀ value ∈ ret, value.Within maxStringSize maxArraySize :=
    hguest.result hdirect
  have hreadable : (Op.callFunction name args : Op F).Readable := ⟨hname, hargs.fits⟩
  -- the parent enters `process_callbacks`, and the interpreter runs
  have hinvoke := parent_invokes natives hhost hprogram []
  simp only [Parent.invoke, Parent.callFunctionProxy, hallowed, Bool.false_eq_true,
    if_false] at hinvoke
  have hobey := Session.calm_command natives interp hchild hreadable
    { p with program := program, inCall := true, point := .callbacks (.callFunction name) }
  rw [Op.request, childLoop_callFunction] at hobey
  obtain ⟨q, c', hserve, halike, hafter⟩ := guest_simulated interp
    (fun result => ⟨result.2, (Reply.called result.1).written, true, none, some result.1⟩)
    (interp.callFunction (some name) (some args) d.memory)
    (p := { p with program := program, inCall := true, point := .callbacks (.callFunction name) })
    (c := c) rfl hfunctions hguest hdirect
  have hqframes : q.frames = [] := halike.frames.trans hframes
  -- the parent reads the tag and, unless it is `RESP_ERROR`, the value
  have hreturn := parent_returns natives halike.point (.called ret) []
  rw [List.append_nil, List.append_nil] at hreturn
  cases ret with
  | none =>
      have hleave := parent_leaves natives
        (p := { q with point := .callbacksDone (.callFunction name) false false }) rfl []
      rw [show Parent.afterCallbacks { q with
          point := .callbacksDone (.callFunction name) false false } (.callFunction name) false
          false = Parent.finish { q with
            point := .callbacksDone (.callFunction name) false false } (.value none) from rfl,
        Parent.finish_nil (p := { q with
          point := .callbacksDone (.callFunction name) false false }) hqframes] at hleave
      refine ⟨_, .head (Session.calm_parent hinvoke) (.head hobey
        (hserve.trans (.head (Session.calm_parent hreturn)
        (.single (Session.calm_parent hleave))))), ?_, ?_⟩
      · exact ⟨rfl, hqframes, c'.advance_done rfl, rfl, rfl, halike.functions.trans hfunctions,
          hafter⟩
      · exact ⟨halike.program, congrArg (· ++ _) halike.results, by simp [halike.inCall]⟩
  | some value =>
      have hleave := parent_leaves natives
        (p := { q with point := .callbacksDone (.callFunction name) true false }) rfl
        (Reply.called (some value)).content
      have hreply := parent_called natives
        (p := { q with inCall := false, point := .callReply name }) rfl (hfits value rfl).fits []
      rw [List.append_nil, Parent.finish_nil (p := { q with
        inCall := false
        point := .callReply name }) hqframes] at hreply
      refine ⟨_, .head (Session.calm_parent hinvoke) (.head hobey
        (hserve.trans (.head (Session.calm_parent hreturn) (.head (Session.calm_parent hleave)
        (.single (Session.calm_parent hreply)))))), ?_, ?_⟩
      · exact ⟨rfl, hqframes, c'.advance_done rfl, rfl, rfl, halike.functions.trans hfunctions,
          hafter⟩
      · exact ⟨halike.program, congrArg (· ++ _) halike.results, by simp [hallowed]⟩

/-- **One operation.** An operation within the limits of the proxy, with `in_call` reset if it runs
the guest's program, does what it does in the direct run. -/
theorem op_calmlySimulated {operation : Op F} (hmatches : Matches d s)
    (hprogram : s.left.program = operation :: program)
    (hadmissible : operation.Admissible natives interp d)
    (hallowed : operation.EntersGuest → s.left.inCall = false)
    (hcall : d.call natives interp operation = some (result, next)) :
    CalmlySimulated natives interp s program [result] next := by
  cases operation with
  | defineConstant name value => exact defineConstant_simulated hmatches hprogram hadmissible hcall
  | defineFunction name f => exact defineFunction_simulated hmatches hprogram hadmissible hcall
  | compileScript script =>
      exact compileScript_simulated hmatches hprogram hadmissible (hallowed (.compileScript script))
        hcall
  | isFunction name => exact isFunction_simulated hmatches hprogram hadmissible hcall
  | callFunction name args =>
      exact callFunction_simulated hmatches hprogram hadmissible
        (hallowed (.callFunction name args)) hcall

theorem op_simulated {operation : Op F} (hmatches : Matches d s)
    (hprogram : s.left.program = operation :: program)
    (hadmissible : operation.Admissible natives interp d)
    (hallowed : operation.EntersGuest → s.left.inCall = false)
    (hcall : d.call natives interp operation = some (result, next)) :
    Simulated natives interp s program [result] next := by
  obtain ⟨s', hrun, hreached⟩ := op_calmlySimulated hmatches hprogram hadmissible hallowed hcall
  exact ⟨s', Net.Calm.run hrun, hreached⟩

end Operations

end CageKeeper
