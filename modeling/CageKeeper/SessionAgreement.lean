import CageKeeper.SessionRefinement

/-! The sandboxed run of a whole program. It agrees with the direct run as long as no call of the
guest's program comes after one that has returned `NULL`: the flag `in_call` is still set then,
the call is refused after its command has been written, and what the child answers to this command
is left in the pipe. -/

namespace CageKeeper
open ByteStream

variable {F W G : Type} {natives : Natives F W} {interp : Interp G}

/-- Whatever the order in which the two processes take their steps, the sandboxed run of a program
comes to an end, and at this end it stands where the direct run does, with the same results. -/
def Agrees (natives : Natives F W) (interp : Interp G) (world : W) (memory : G)
    (program : List (Op F)) : Prop :=
  ∃ results after t,
    (Direct.start world memory).run natives interp program = some (results, after) ∧
    Matches after t ∧ t.left.program = [] ∧ t.left.results = results ∧
    Terminal (Session.Run natives interp) t ∧
    (∀ s, Relation.ReflTransGen (Session.Run natives interp) (.start world program memory) s →
      Relation.ReflTransGen (Session.Run natives interp) s t) ∧
    Acc (flip (Session.Run natives interp)) (.start world program memory)

/-- No operation that runs the guest's program finds the flag `in_call` set: it is not set at
first, and no `call_function` before the operation has returned `NULL` in the direct run. -/
def Direct.Allowed (natives : Natives F W) (interp : Interp G) (inCall : Bool) (d : Direct F W G)
    (program : List (Op F)) : Prop :=
  ∀ done operation rest, program = done ++ operation :: rest → operation.EntersGuest →
    ∀ results after, d.run natives interp done = some (results, after) →
      inCall = false ∧ Result.value none ∉ results

/-! ### Parts of a program -/

section Parts

variable {d next : Direct F W G} {program rest : List (Op F)} {operation : Op F} {inCall : Bool}

theorem Direct.Admissible.of_append (h : d.Admissible natives interp (program ++ rest)) :
    d.Admissible natives interp program := by
  induction program generalizing d with
  | nil => trivial
  | cons operation program ih => exact ⟨h.1, fun result next hcall => ih (h.2 result next hcall)⟩

theorem Direct.Admissible.last
    (h : d.Admissible natives interp (program ++ [operation])) {results : List Result}
    (hrun : d.run natives interp program = some (results, next)) :
    operation.Admissible natives interp next := by
  induction program generalizing d results with
  | nil =>
      cases hrun
      exact h.1
  | cons first program ih =>
      obtain ⟨⟨result, middle⟩, hcall, hrest⟩ := Option.bind_eq_some_iff.mp hrun
      obtain ⟨⟨results, after⟩, hrest, heq⟩ := Option.map_eq_some_iff.mp hrest
      cases heq
      exact ih (h.2 result middle hcall) hrest

theorem Direct.Allowed.of_append (h : d.Allowed natives interp inCall (program ++ rest)) :
    d.Allowed natives interp inCall program := by
  intro done operation later hprogram
  exact h done operation (later ++ rest) (by rw [hprogram, List.append_assoc, List.cons_append])

theorem Direct.Allowed.first (h : d.Allowed natives interp inCall (operation :: program))
    (henters : operation.EntersGuest) : inCall = false :=
  (h [] operation program rfl henters [] d rfl).1

theorem Direct.Allowed.tail (h : d.Allowed natives interp inCall (operation :: program))
    {result : Result} (hcall : d.call natives interp operation = some (result, next))
    {inCall' : Bool} (hflag : inCall' = true ↔ inCall = true ∨ Result.value none ∈ [result]) :
    next.Allowed natives interp inCall' program := by
  intro done later rest hprogram henters results after hrun
  obtain ⟨hunset, hnone⟩ := h (operation :: done) later rest (by rw [hprogram, List.cons_append])
    henters (result :: results) after
    (by simp only [run, hcall, Option.bind_some, hrun, Option.map_some])
  obtain ⟨hhead, htail⟩ := not_or.mp (mt List.mem_cons.mpr hnone)
  refine ⟨Bool.eq_false_iff.mpr fun hset => ?_, htail⟩
  rcases hflag.mp hset with hset | hmem
  · exact Bool.false_ne_true (hunset.symm.trans hset)
  · exact hhead (List.mem_singleton.mp hmem)

theorem Direct.allowed_of_run {results : List Result}
    (hrun : d.run natives interp program = some (results, next))
    (hnone : Result.value none ∉ results) : d.Allowed natives interp false program := by
  rintro done operation rest rfl - first after hdone
  rw [run_append, hdone, Option.bind_some] at hrun
  obtain ⟨⟨later, last⟩, -, heq⟩ := Option.map_eq_some_iff.mp hrun
  cases heq
  exact ⟨rfl, fun hmem => hnone (List.mem_append_left _ hmem)⟩

/-- A program is allowed if all but its last operation are and the last one is too. -/
theorem Direct.Allowed.concat (h : d.Allowed natives interp inCall program)
    (hlast : operation.EntersGuest → ∀ results after,
      d.run natives interp program = some (results, after) →
        inCall = false ∧ Result.value none ∉ results) :
    d.Allowed natives interp inCall (program ++ [operation]) := by
  intro done later rest hprogram henters
  rcases List.eq_nil_or_concat rest with rfl | ⟨rest, last, rfl⟩
  · obtain ⟨rfl, heq⟩ := List.append_inj' hprogram rfl
    cases heq
    exact hlast henters
  · rw [List.concat_eq_append, ← List.cons_append, ← List.append_assoc] at hprogram
    obtain ⟨rfl, -⟩ := List.append_inj' hprogram rfl
    exact h done later rest rfl henters

end Parts

/-! ### Where no call is refused -/

section Agreement

variable {d after : Direct F W G} {s t u : Session F W G} {program rest : List (Op F)}

theorem Follows.trans {results later : List Result} (h : Follows s t program results)
    (h' : Follows t u rest later) : Follows s u rest (results ++ later) where
  program := h'.program
  results := by rw [h'.results, h.results, List.append_assoc]
  inCall := by rw [h'.inCall, h.inCall, List.mem_append, or_assoc]

/-- **Programs.** A program of which no call is refused does what it does in the direct run. The
induction is on the program, by one operation of the session at a time. -/
theorem program_simulated {results : List Result} (hmatches : Matches d s)
    (hprogram : s.left.program = program ++ rest)
    (hadmissible : d.Admissible natives interp program)
    (hallowed : d.Allowed natives interp s.left.inCall program)
    (hrun : d.run natives interp program = some (results, after)) :
    Simulated natives interp s rest results after := by
  induction program generalizing d s results with
  | nil =>
      cases hrun
      exact ⟨s, .refl, hmatches, hprogram, (List.append_nil _).symm, by simp⟩
  | cons operation program ih =>
      obtain ⟨⟨result, middle⟩, hcall, hrest⟩ := Option.bind_eq_some_iff.mp hrun
      obtain ⟨⟨results, after⟩, hrest, heq⟩ := Option.map_eq_some_iff.mp hrest
      cases heq
      obtain ⟨t, hfirst, hmiddle, hfollows⟩ :=
        op_simulated hmatches hprogram hadmissible.1 hallowed.first hcall
      obtain ⟨u, hlater, hafter, hfollows'⟩ := ih hmiddle hfollows.program
        (hadmissible.2 result middle hcall) (hallowed.tail hcall hfollows.inCall) hrest
      exact ⟨u, hfirst.trans hlater, hafter, hfollows.trans hfollows'⟩

theorem matches_start (world : W) (program : List (Op F)) (memory : G) :
    Matches (.start world memory) (.start world program memory) where
  host := rfl
  frames := rfl
  child := rfl
  toRight := rfl
  toLeft := rfl
  functions := funext fun name => CallbackTable.find_new name
  trace := rfl

theorem Session.terminal_of_waits {s : Session F W G} (hhost : s.left.point = .host)
    (hprogram : s.left.program = [])
    (hchild : (childMachine interp).step s.right s.toRight = none) :
    Terminal (Session.Run natives interp) s := by
  intro t hstep
  cases hstep with
  | left hleft =>
      simp only [parentMachine, Parent.step_host_nil hhost hprogram, Option.map_none,
        reduceCtorEq] at hleft
  | right hright =>
      rw [hchild] at hright
      cases hright

theorem Matches.terminal (h : Matches d s) (hprogram : s.left.program = []) :
    Terminal (Session.Run natives interp) s :=
  Session.terminal_of_waits h.host hprogram (by rw [h.toRight, child_loop_waits interp h.child])

theorem agrees_of_allowed {world : W} {memory : G}
    (hadmissible : (Direct.start world memory).Admissible natives interp program)
    (hallowed : (Direct.start world memory).Allowed natives interp false program) :
    Agrees natives interp world memory program := by
  obtain ⟨results, after, hrun⟩ := hadmissible.run
  obtain ⟨t, hreach, hmatches, hfollows⟩ := program_simulated (matches_start world program memory)
    (List.append_nil program).symm hadmissible hallowed hrun
  have hterminal : Terminal (Session.Run natives interp) t := hmatches.terminal hfollows.program
  have hdiamond := Session.run_diamond natives interp
  exact ⟨results, after, t, hrun, hmatches, hfollows.program, hfollows.results, hterminal,
    fun s hs => hdiamond.reaches_terminal hterminal hreach hs, hdiamond.acc hterminal hreach⟩

end Agreement

/-! ### A refused call -/

section Refusal

variable {p : Parent F W} {c : Child G} {operation : Op F}

theorem Parent.invoke_refused (natives : Natives F W) (hframes : p.frames = [])
    (henters : operation.EntersGuest) (hset : p.inCall = true) :
    (invoke natives p operation).1.point = .host ∧
      (invoke natives p operation).1.program = p.program := by
  cases henters with
  | compileScript script =>
      obtain ⟨line, hline⟩ := Option.isSome_iff_exists.mp compileRefusal_isSome
      simp [invoke, compileScriptProxy, hset, report, hline, finish_nil, hframes]
  | callFunction name args =>
      obtain ⟨line, hline⟩ := Option.isSome_iff_exists.mp callRefusal_isSome
      simp [invoke, callFunctionProxy, hset, report, hline, finish_nil, hframes]

theorem Op.EntersGuest.ends (henters : operation.EntersGuest) (natives : Natives F W)
    (interp : Interp G) (state : G) :
    ∃ caller, (childLoop interp (operation.request natives) state).Ends
      (Finished.Replies caller) := by
  cases henters with
  | compileScript script => exact ⟨_, compileScript_ends interp state _⟩
  | callFunction name args => exact ⟨_, callFunction_ends interp state name _ _⟩

theorem Reply.written_ne_nil (reply : Reply) : reply.written ≠ [] := by
  simp [written, mark, writeByte]

/-- After its command the child either waits for an answer or has written a reply. -/
theorem Child.advance_replies {caller : Caller} {guest : Guest (Finished G)}
    (hends : guest.Ends (Finished.Replies caller)) :
    (∃ resume, (c.advance guest).1.point = .await resume) ∨
      (∃ state, (c.advance guest).1.point = .loop state) ∧ (c.advance guest).2 ≠ [] := by
  rw [advance_eq]
  cases hstop : guest.stop with
  | call name args resume => exact .inl ⟨resume, rfl⟩
  | done finished =>
      obtain ⟨state, reply, -, rfl⟩ := hends.of_done hstop
      refine .inr ⟨⟨state, rfl⟩, ?_⟩
      simp [halt, reply.written_ne_nil]

/-- What the child does with the command of a refused call, no operation of the host reads. -/
theorem refused_differs (natives : Natives F W) (interp : Interp G) {d : Direct F W G}
    {s : Session F W G} (hmatches : Matches d s) (hprogram : s.left.program = [operation])
    (hreadable : operation.Readable)
    (henters : operation.EntersGuest) (hset : s.left.inCall = true) :
    ∃ t, Relation.ReflTransGen (Session.Run natives interp) s t ∧
      Terminal (Session.Run natives interp) t ∧ ∀ after : Direct F W G, ¬Matches after t := by
  obtain ⟨p, c, toRight, toLeft⟩ := s
  obtain ⟨hhost, hframes, hchild, rfl, rfl, -, -⟩ := hmatches
  dsimp only at hprogram hhost hframes hchild hset
  obtain ⟨hpoint, hdone⟩ := Parent.invoke_refused natives
    (p := { p with program := [] }) hframes henters hset
  obtain ⟨caller, hends⟩ := henters.ends natives interp d.memory
  have hinvoke := parent_invokes natives hhost hprogram []
  have hobey := Session.run_command natives interp hchild hreadable
    (Parent.invoke natives { p with program := [] } operation).1
  refine ⟨_, .head (Session.run_parent hinvoke (List.nil_append _)) (.single hobey), ?_, ?_⟩
  · apply Session.terminal_of_waits hpoint hdone
    rcases c.advance_replies hends with ⟨resume, hawait⟩ | ⟨⟨state, hloop⟩, -⟩
    · exact child_await_waits interp hawait
    · exact child_loop_waits interp hloop
  · intro after hafter
    rcases c.advance_replies hends with ⟨resume, hawait⟩ | ⟨-, hwritten⟩
    · cases hawait.symm.trans hafter.child
    · exact hwritten hafter.toLeft

end Refusal

/-! ### Agreement -/

theorem Op.Admissible.readable {d : Direct F W G} {operation : Op F}
    (h : operation.Admissible natives interp d) : operation.Readable := by
  cases operation with
  | defineConstant name value => exact ⟨h.1, h.2.1.fits⟩
  | defineFunction name f => exact h.1
  | compileScript script => exact h.1
  | isFunction name => exact h.1
  | callFunction name args => exact ⟨h.1, h.2.1.fits⟩

/-- **The sandboxed run.** For a program within the limits of the proxy, the sandboxed run agrees
with the direct run after every operation exactly if no `compile_script` and no `call_function`
comes after a `call_function` that has returned `NULL`. -/
theorem agrees_iff {world : W} {memory : G} {program : List (Op F)}
    (h : (Direct.start world memory).Admissible natives interp program) :
    (∀ done, done <+: program → Agrees natives interp world memory done) ↔
      (Direct.start world memory).Allowed natives interp false program := by
  constructor
  · intro hagrees
    suffices hprefix : ∀ done, done <+: program →
        (Direct.start world memory).Allowed natives interp false done from
      hprefix program (List.prefix_refl program)
    intro done
    induction done using List.reverseRecOn with
    | nil => exact fun _ first operation rest hnil => by simp at hnil
    | append_singleton done operation ih =>
        intro hdone
        have hallowed := ih ((List.prefix_append done [operation]).trans hdone)
        refine hallowed.concat fun henters results after hrun => ⟨rfl, fun hnull => ?_⟩
        obtain ⟨rest, rfl⟩ := hdone
        have hadmissible : (Direct.start world memory).Admissible natives interp
            (done ++ [operation]) := h.of_append
        -- with the flag set, the last operation is refused
        obtain ⟨s, hreach, hmatches, hfollows⟩ := program_simulated
          (matches_start world (done ++ [operation]) memory) rfl hadmissible.of_append hallowed hrun
        obtain ⟨t, hrefused, hterminal, hdiffers⟩ := refused_differs natives interp
          hmatches hfollows.program (hadmissible.last hrun).readable henters
          (hfollows.inCall.mpr (.inr hnull))
        obtain ⟨-, after', t', -, hmatches', -, -, -, hall, -⟩ :=
          hagrees (done ++ [operation]) (List.prefix_append _ rest)
        rcases (hall t (hreach.trans hrefused)).cases_head with rfl | ⟨u, hstep, -⟩
        · exact hdiffers after' hmatches'
        · exact hterminal u hstep
  · rintro hallowed done ⟨rest, rfl⟩
    exact agrees_of_allowed h.of_append hallowed.of_append

/-- The host defines a constant and `g`, compiles a script, asks for `f` and calls it twice. -/
def sandboxProgram : List (Op Unit) :=
  [.defineConstant (CString.lit "k") (.string (CString.lit "v")),
    .defineFunction (CString.lit "g") (), .compileScript (CString.lit "script"),
    .isFunction (CString.lit "f"), .callFunction (CString.lit "f") (.int32 7#32),
    .callFunction (CString.lit "f") (.array [.boolean true, .void])]

theorem agrees_echo : Agrees echoNatives echoInterp () () sandboxProgram := by
  have hadmissible : (Direct.start () ()).Admissible echoNatives echoInterp sandboxProgram := by
    decide +kernel
  obtain ⟨results, after, hrun⟩ := hadmissible.run
  have hresults : ((Direct.start () ()).run echoNatives echoInterp sandboxProgram).map Prod.fst =
      some [.unit, .unit, .bool true, .bool true, .value (some (.int32 7#32)),
        .value (some (.array [.boolean true, .void]))] := by
    decide +kernel
  rw [hrun] at hresults
  refine (agrees_iff hadmissible).mpr (Direct.allowed_of_run hrun ?_) _ List.prefix_rfl
  cases hresults
  decide

/-- A guest whose function returns `NULL` the first time and a value afterwards. -/
def nullInterp : Interp Bool where
  defineConstant _ _ state := .done state
  defineFunction _ _ state := .done state
  compileScript _ state := .done (true, state)
  isFunction _ state := .done (true, state)
  callFunction _ _ state := .done (if state then some .void else none, true)

/-- The second call returns `NULL` too. -/
theorem not_agrees_null :
    ¬∀ program, (Direct.start () false).Admissible echoNatives nullInterp program →
      Agrees echoNatives nullInterp () false program := by
  intro h
  obtain ⟨s, hs, hresults, hparent, hchild⟩ := Session.exists_of_play echoNatives nullInterp
    (.start () [.callFunction (CString.lit "f") .void, .callFunction (CString.lit "f") .void] false)
    [.parent, .child, .parent, .parent, .parent, .child]
    (fun s => s.left.results = [.value none, .value none] ∧
      (s.turn echoNatives nullInterp .parent).isNone ∧
      (s.turn echoNatives nullInterp .child).isNone) (by decide +kernel)
  have hterminal : Terminal (Session.Run echoNatives nullInterp) s :=
    Session.terminal_of_turn fun party => by
      cases party
      · exact Option.isNone_iff_eq_none.mp hparent
      · exact Option.isNone_iff_eq_none.mp hchild
  obtain ⟨results, after, t, hrun, -, -, hreturned, -, hall, -⟩ :=
    h [.callFunction (CString.lit "f") .void, .callFunction (CString.lit "f") .void]
      (by decide +kernel)
  have hdirect : ((Direct.start () false).run echoNatives nullInterp
      [.callFunction (CString.lit "f") .void, .callFunction (CString.lit "f") .void]).map Prod.fst =
      some [.value none, .value (some .void)] := by
    decide +kernel
  rcases (hall s hs).cases_head with rfl | ⟨u, hstep, -⟩
  · rw [hrun, Option.map_some, ← hreturned, hresults] at hdirect
    cases hdirect
  · exact hterminal u hstep

end CageKeeper
