import CageKeeper.ProxyInCall
import CageKeeper.SessionCallbacks

/-! The log. A line of the child is formatted once in the child, sent as it is, and used as a
format by the parent, which reads it the next time it is in `process_callbacks`. In a session in
order the hook receives the lines in the order they were logged, each itself exactly where there is
no `%` in it; what is logged when the host runs the guest no more is received by nobody. -/

namespace CageKeeper
open ByteStream

variable {F W G : Type} {natives : Natives F W} {interp : Interp G}

/-- The parent is in `process_callbacks`. -/
def Point.serves : Point F W → Bool
  | .callbacks _ => true
  | .native _ _ => true
  | _ => false

/-- The parent reads messages, or its program has an operation left during which it will. -/
def Parent.Listens (p : Parent F W) : Prop :=
  p.point.serves ∨ ∃ operation ∈ p.program, operation.EntersGuest

instance (p : Parent F W) : Decidable p.Listens := by
  unfold Parent.Listens
  infer_instance

/-- The sessions in order, with the lines that the child has logged while the parent was not to read
messages any more. -/
inductive Session.OrderlyLog (natives : Natives F W) (interp : Interp G) (world : W)
    (program : List (Op F)) (state : G) : Session F W G → List CString → Prop where
  | start : OrderlyLog natives interp world program state (.start world program state) []
  | step {s t : Session F W G} {unheard : List CString}
      (hrun : OrderlyLog natives interp world program state s unheard)
      (hstep : Session.OrderlyStep natives interp s t) :
      OrderlyLog natives interp world program state t
        (if s.left.Listens then unheard
          else unheard ++ t.right.logged.drop s.right.logged.length)

/-- The hook has received what the child has logged: all of it when the host is through with its
program, and up to what is still on its way before. -/
structure LogUnchanged (s : Session F W G) : Prop where
  prefix_eq : heard s.left.lines = s.right.logged.take (heard s.left.lines).length
  complete : s.left.point = .host → s.left.program = [] →
    (heard s.left.lines).length = s.right.logged.length

theorem Session.OrderlyLog.orderly {world : W} {program : List (Op F)} {state : G}
    {s : Session F W G} {unheard : List CString}
    (h : Session.OrderlyLog natives interp world program state s unheard) :
    Session.Orderly natives interp world program state s := by
  induction h with
  | start => exact .refl
  | step _ hstep ih => exact ih.tail hstep

/-! ### Who logs and who listens -/

theorem Child.logged_step {c next : Child G} {pipe rest : Pipe} {written : List Mark}
    (hstep : c.step interp pipe = some (next, rest, written)) : c.logged <+: next.logged := by
  have hadvance : ∀ (c : Child G) (guest : Guest (Finished G)),
      c.logged <+: (c.advance guest).1.logged := by
    intro c guest
    rw [Child.advance_eq]
    cases guest.stop <;> exact List.prefix_append _ _
  unfold Child.step at hstep
  split at hstep
  · split at hstep
    · cases hstep
      exact hadvance _ _
    · cases hstep
      exact List.prefix_refl _
    · cases hstep
  · split at hstep
    · rename_i reply rest' hread
      cases hstep
      exact hadvance { c with received := c.received ++ [reply] } _
    · cases hstep
  · cases hstep

section Deaf

variable {p : Parent F W}

theorem Parent.deaf_finish (hframes : p.frames = [])
    (hprogram : ¬∃ operation ∈ p.program, operation.EntersGuest) (result : Result) :
    ¬(p.finish result).Listens ∧ heard (p.finish result).lines = heard p.lines := by
  rw [finish_nil hframes]
  exact ⟨not_or.mpr ⟨Bool.false_ne_true, hprogram⟩, rfl⟩

theorem Parent.deaf_report (hframes : p.frames = [])
    (hprogram : ¬∃ operation ∈ p.program, operation.EntersGuest) (line : Option CString)
    (result : Result) :
    ¬(p.report .proxy line (finish · result)).Listens ∧
      heard (p.report .proxy line (finish · result)).lines = heard p.lines := by
  cases line with
  | none => exact ⟨not_or.mpr ⟨Bool.false_ne_true, hprogram⟩, rfl⟩
  | some line =>
      obtain ⟨hdeaf, hheard⟩ :=
        deaf_finish (p := { p with lines := p.lines ++ [(.proxy, line)] }) hframes hprogram result
      refine ⟨hdeaf, hheard.trans ?_⟩
      simp [heard]

theorem Parent.deaf_invoke (natives : Natives F W) (hframes : p.frames = [])
    (hprogram : ¬∃ operation ∈ p.program, operation.EntersGuest) {operation : Op F}
    (hdefines : ¬operation.EntersGuest) :
    ¬(invoke natives p operation).1.Listens ∧
      heard (invoke natives p operation).1.lines = heard p.lines := by
  cases operation with
  | defineConstant name value => exact deaf_finish hframes hprogram .unit
  | defineFunction name f =>
      simp only [invoke, defineFunctionProxy]
      split
      · exact deaf_report (p := { p with callbackFunctions := p.callbackFunctions.visit name })
          hframes hprogram _ .unit
      · exact deaf_finish
          (p := { p with callbackFunctions := (p.callbackFunctions.visit name).put name f _ })
          hframes hprogram .unit
  | compileScript script => exact absurd (.compileScript script) hdefines
  | isFunction name => exact ⟨not_or.mpr ⟨Bool.false_ne_true, hprogram⟩, rfl⟩
  | callFunction name args => exact absurd (.callFunction name args) hdefines

/-- A parent that is not to read messages any more hears nothing, and stays so. -/
theorem Parent.deaf_step {next : Parent F W} {pipe rest : Pipe} {written : Bytes}
    (hdeaf : ¬p.Listens) (hframes : p.frames = [])
    (hstep : p.step natives pipe = some (next, rest, written)) :
    ¬next.Listens ∧ heard next.lines = heard p.lines := by
  obtain ⟨hserves, hprogram⟩ := not_or.mp hdeaf
  cases hpoint : p.point with
  | host =>
      cases hcalls : p.program with
      | nil =>
          rw [step_host_nil hpoint hcalls] at hstep
          cases hstep
      | cons operation program =>
          rw [step_host hpoint hcalls] at hstep
          cases hstep
          rw [hcalls] at hprogram
          exact deaf_invoke (p := { p with program := program }) natives hframes
            (fun ⟨op, hmem, henters⟩ => hprogram ⟨op, List.mem_cons_of_mem _ hmem, henters⟩)
            fun henters => hprogram ⟨operation, List.mem_cons_self .., henters⟩
  | callbacks caller => exact absurd (by rw [hpoint]; rfl) hserves
  | native caller body => exact absurd (by rw [hpoint]; rfl) hserves
  | callbacksDone caller ret expired =>
      rw [step_callbacksDone hpoint] at hstep
      cases hstep
      cases caller with
      | compileScript =>
          simp only [afterCallbacks]
          split
          · exact ⟨not_or.mpr ⟨Bool.false_ne_true, hprogram⟩, rfl⟩
          split
          · exact deaf_report (p := { p with timeout := true }) hframes hprogram _ _
          · exact deaf_finish hframes hprogram _
      | callFunction name =>
          simp only [afterCallbacks]
          split
          · exact ⟨not_or.mpr ⟨Bool.false_ne_true, hprogram⟩, rfl⟩
          split
          · exact deaf_report (p := { p with timeout := true }) hframes hprogram _ _
          · exact deaf_finish hframes hprogram _
  | compileReply =>
      rw [step_compileReply hpoint, afterRead_eq_some] at hstep
      obtain ⟨reply, -, rfl, -⟩ := hstep
      cases reply with
      | some b => exact deaf_finish hframes hprogram _
      | none =>
          simp only [compileScriptReturn]
          split
          · exact deaf_report (p := { p with timeout := true }) hframes hprogram _ _
          · exact deaf_finish hframes hprogram _
  | callReply name =>
      rw [step_callReply hpoint, afterRead_eq_some] at hstep
      obtain ⟨reply, -, rfl, -⟩ := hstep
      cases reply with
      | some value => exact deaf_finish hframes hprogram _
      | none =>
          simp only [callFunctionReturn]
          split
          · exact deaf_report (p := { p with timeout := true }) hframes hprogram _ _
          · exact deaf_finish hframes hprogram _
  | isFunctionReply name =>
      rw [step_isFunctionReply hpoint, afterRead_eq_some] at hstep
      obtain ⟨reply, -, rfl, -⟩ := hstep
      exact deaf_finish (p := { p with answers := p.answers ++ [(name, reply.any (· ≠ 0))] }) hframes
        hprogram _
  | crashed =>
      rw [step_crashed hpoint] at hstep
      cases hstep

/-- A parent that reads messages goes on doing so until `process_callbacks` returns or it dies. -/
theorem Parent.serves_step {next : Parent F W} {pipe rest : Pipe} {written : Bytes}
    (hserves : p.point.serves) (hbody : ∀ caller body, p.point = .native caller body → body.plain)
    (hstep : p.step natives pipe = some (next, rest, written)) :
    next.point.serves ∨ next.point = .crashed ∨
      ∃ caller ret expired, next.point = .callbacksDone caller ret expired := by
  cases hpoint : p.point with
  | callbacks caller =>
      rw [step_callbacks hpoint, afterRead_eq_some] at hstep
      obtain ⟨message, -, rfl, -⟩ := hstep
      cases message with
      | callback name args =>
          simp only [processCallbacks, report]
          split
          · split
            · exact Or.inr (Or.inl rfl)
            · exact Or.inr (Or.inr ⟨_, _, _, rfl⟩)
          · exact Or.inl rfl
      | log text =>
          cases text with
          | none => exact Or.inr (Or.inl rfl)
          | some text =>
              simp only [processCallbacks, report]
              split
              · exact Or.inr (Or.inl rfl)
              · exact Or.inl hserves
      | other => exact Or.inl hserves
      | failed => exact Or.inr (Or.inr ⟨_, _, _, rfl⟩)
      | error => exact Or.inr (Or.inr ⟨_, _, _, rfl⟩)
      | «return» => exact Or.inr (Or.inr ⟨_, _, _, rfl⟩)
  | native caller body =>
      obtain ⟨value, world, rfl, -⟩ := body.plain_iff.mp (hbody caller body hpoint)
      rw [step_native_value hpoint] at hstep
      cases hstep
      exact Or.inl rfl
  | _ => simp [hpoint, Point.serves] at hserves

end Deaf

/-! ### What is on its way -/

/-- The lines that the child has logged and the hook has not received. -/
def Session.pending (s : Session F W G) : List CString :=
  s.right.logged.drop (heard s.left.lines).length

theorem Session.pending_eq {s : Session F W G} {flight : Flight}
    (hbooks : (ledger s.left s.right).Balanced flight) : s.pending = flight.lines := by
  obtain ⟨delivered, hlogged, hheard⟩ := hbooks.lines
  have hlength : (heard s.left.lines).length = delivered.length := by
    simpa [ledger] using congrArg List.length hheard
  have hall : s.right.logged = delivered ++ flight.lines := hlogged
  rw [pending, hall, hlength, List.drop_left]

theorem Talk.frames_eq_nil {s : Session F W G} {flight : Flight} (h : Talk natives s flight) :
    s.left.frames = [] := by
  cases h with
  | serving hpoint hframes => exact hframes
  | _ => assumption

/-- An operation that enters the guest is one during which the parent listens. -/
theorem Session.listens_step {s : Session F W G} {next : Parent F W} {rest : Pipe} {written : Bytes}
    {pipe : Pipe} (horder : s.ParentInOrder)
    (hprogram : ∃ operation ∈ s.left.program, operation.EntersGuest)
    (hstep : s.left.step natives pipe = some (next, rest, written)) : next.Listens := by
  by_cases hpoint : s.left.point = .host
  · cases hcalls : s.left.program with
    | nil => simp [hcalls] at hprogram
    | cons operation program =>
        simp only [Session.ParentInOrder, hpoint] at horder
        obtain ⟨-, hearly⟩ := horder operation (by rw [hcalls]; rfl)
        rw [Parent.step_host hpoint hcalls] at hstep
        cases hstep
        by_cases henters : operation.EntersGuest
        · left
          cases henters with
          | compileScript script =>
              have hcall : s.left.inCall = false := hearly
              simp [Parent.invoke, Parent.compileScriptProxy, hcall, Point.serves]
          | callFunction name args =>
              have hcall : s.left.inCall = false := hearly
              simp [Parent.invoke, Parent.callFunctionProxy, hcall, Point.serves]
        · right
          rw [Parent.invoke_program]
          obtain ⟨op, hmem, hop⟩ := hprogram
          rw [hcalls] at hmem
          rcases List.mem_cons.mp hmem with rfl | hmem
          · exact absurd hop henters
          · exact ⟨op, hmem, hop⟩
  · right
    rwa [Parent.step_program hpoint hstep]

/-- When the parent ceases to listen, nothing of the child's is on its way to the hook. -/
theorem Session.pending_of_deafened {s t : Session F W G} {rest : Pipe} {written : Bytes}
    {pipe : Pipe} (ht : t.Invariant natives) (horder : s.ParentInOrder) (hlistens : s.left.Listens)
    (hdeaf : ¬t.left.Listens)
    (hstep : s.left.step natives pipe = some (t.left, rest, written)) : t.pending = [] := by
  obtain ⟨flight, htalk, hbooks⟩ := ht
  rw [pending_eq hbooks]
  rcases hlistens with hserves | hprogram
  · have hbody : ∀ caller body, s.left.point = .native caller body → body.plain := by
      intro caller body hpoint
      simpa only [Session.ParentInOrder, hpoint] using horder
    rcases Parent.serves_step hserves hbody hstep with h | hcrashed | ⟨caller, ret, expired, hback⟩
    · exact absurd (Or.inl h) hdeaf
    · cases htalk <;> simp_all
    · cases htalk <;> simp_all
  · exact absurd (listens_step horder hprogram hstep) hdeaf

/-- What nobody is to receive is what is on its way to a parent that does not listen. -/
theorem Session.OrderlyLog.unheard_eq {world : W} {program : List (Op F)} {state : G}
    {s : Session F W G} {unheard : List CString}
    (h : Session.OrderlyLog natives interp world program state s unheard) :
    unheard = if s.left.Listens then [] else s.pending := by
  induction h with
  | start => split <;> rfl
  | @step s t unheard hrun hstep ih =>
      obtain ⟨flight, htalk, hbooks⟩ := hrun.orderly.invariant
      have ht : t.Invariant natives := (hrun.step hstep).orderly.invariant
      cases hstep with
      | @parent next rest written horder hparent =>
          obtain ⟨⟨next', pipe, written'⟩, hpipe, heq⟩ := Option.map_eq_some_iff.mp hparent
          cases heq
          have hlog : s.right.logged.drop s.right.logged.length = ([] : List CString) :=
            List.drop_length
          by_cases hlistens : s.left.Listens
          · rw [if_pos hlistens] at ih ⊢
            by_cases hnext : next.Listens
            · rw [if_pos hnext, ih]
            · rw [if_neg hnext, ih]
              exact (pending_of_deafened ht horder hlistens hnext hpipe).symm
          · obtain ⟨hdeaf, hheard⟩ := Parent.deaf_step hlistens htalk.frames_eq_nil hpipe
            rw [if_neg hlistens] at ih ⊢
            rw [if_neg hdeaf, ih, hlog, List.append_nil, pending, pending, hheard]
      | @child next rest written horder hchild =>
          obtain ⟨⟨next', pipe, written'⟩, hpipe, heq⟩ := Option.map_eq_some_iff.mp hchild
          cases heq
          by_cases hlistens : s.left.Listens
          · rw [if_pos hlistens] at ih ⊢
            rw [if_pos hlistens, ih]
          · rw [if_neg hlistens] at ih ⊢
            obtain ⟨lines, hlines⟩ := Child.logged_step hpipe
            obtain ⟨delivered, hlogged, hheard⟩ := hbooks.lines
            have hlength : (heard s.left.lines).length = delivered.length := by
              simpa [ledger] using congrArg List.length hheard
            have hle : (heard s.left.lines).length ≤ s.right.logged.length := by
              have hall : s.right.logged = delivered ++ flight.lines := hlogged
              rw [hall, hlength, List.length_append]
              exact Nat.le_add_right _ _
            rw [if_neg hlistens, ih, pending, pending, ← hlines, List.drop_left,
              List.drop_append_of_le_length hle]

/-- **The log.** In a session in order the hook receives the child's lines, each as it was logged,
exactly if there is no `%` in the lines it has received and, once the host is through, the child has
logged nothing since the parent was last to read messages. -/
theorem logUnchanged_iff {world : W} {program : List (Op F)} {state : G} {s : Session F W G}
    {unheard : List CString}
    (h : Session.OrderlyLog natives interp world program state s unheard) :
    LogUnchanged s ↔
      (∀ line ∈ s.right.logged.take (heard s.left.lines).length, percent ∉ line.bytes) ∧
        (s.left.point = .host → s.left.program = [] → unheard = []) := by
  obtain ⟨flight, htalk, hbooks⟩ := h.orderly.invariant
  obtain ⟨delivered, hlogged, hheard⟩ := hbooks.lines
  replace hlogged : s.right.logged = delivered ++ flight.lines := hlogged
  replace hheard : (heard s.left.lines).map some = delivered.map (languageLog · []) := hheard
  have hlength : (heard s.left.lines).length = delivered.length := by
    simpa using congrArg List.length hheard
  have htake : s.right.logged.take (heard s.left.lines).length = delivered := by
    rw [hlogged, hlength, List.take_left]
  have hlines : ∀ line ∈ delivered, IsLogLine line := fun line hmem =>
    hbooks.logLines line (by
      show line ∈ s.right.logged
      rw [hlogged]
      exact List.mem_append_left _ hmem)
  have hsame : heard s.left.lines = delivered ↔ ∀ line ∈ delivered, percent ∉ line.bytes :=
    calc heard s.left.lines = delivered
      _ ↔ (heard s.left.lines).map some = delivered.map some :=
        (List.map_inj_right fun _ _ => Option.some.inj).symm
      _ ↔ ∀ line ∈ delivered, languageLog line [] = some line := by
        rw [hheard, List.map_inj_left]
      _ ↔ ∀ line ∈ delivered, percent ∉ line.bytes :=
        forall₂_congr fun line hmem => languageLog_eq_self_iff (hlines line hmem)
  have hcomplete : s.left.point = .host → s.left.program = [] →
      ((heard s.left.lines).length = s.right.logged.length ↔ unheard = []) := by
    intro hpoint hprogram
    have hdeaf : ¬s.left.Listens := by simp [Parent.Listens, hpoint, hprogram, Point.serves]
    rw [h.unheard_eq, if_neg hdeaf, Session.pending_eq hbooks, hlogged, hlength,
      List.length_append, Nat.left_eq_add, List.length_eq_zero_iff]
  rw [htake, ← hsame]
  constructor
  · intro hunchanged
    exact ⟨hunchanged.prefix_eq.trans htake, fun hpoint hprogram =>
      (hcomplete hpoint hprogram).mp (hunchanged.complete hpoint hprogram)⟩
  · rintro ⟨heq, hheardAll⟩
    exact ⟨heq.trans htake.symm, fun hpoint hprogram =>
      (hcomplete hpoint hprogram).mpr (hheardAll hpoint hprogram)⟩

theorem Session.Orderly.log {world : W} {program : List (Op F)} {state : G} {s : Session F W G}
    (h : Session.Orderly natives interp world program state s) :
    ∃ unheard, Session.OrderlyLog natives interp world program state s unheard := by
  induction h with
  | refl => exact ⟨_, .start⟩
  | tail _ hstep ih =>
      obtain ⟨unheard, hlog⟩ := ih
      exact ⟨_, hlog.step hstep⟩

theorem logUnchanged_echo :
    ∃ s unheard, Session.OrderlyLog echoNatives echoInterp () echoProgram () s unheard ∧
      s.left.results.length = echoProgram.length ∧
      heard s.left.lines = [CString.lit "hi"] ∧ LogUnchanged s := by
  obtain ⟨s, horderly, hresults, hheard, hpending, hplain⟩ :=
    Session.exists_orderly echoNatives echoInterp () echoProgram () echoTurns
      (fun s => s.left.results.length = echoProgram.length ∧
        heard s.left.lines = [CString.lit "hi"] ∧ s.pending = [] ∧
        ∀ line ∈ s.right.logged.take (heard s.left.lines).length, percent ∉ line.bytes)
      (by decide +kernel)
  obtain ⟨unheard, hlog⟩ := horderly.log
  have hnone : unheard = [] := by
    rw [hlog.unheard_eq, hpending, ite_self]
  exact ⟨s, unheard, hlog, hresults, hheard,
    (logUnchanged_iff hlog).mpr ⟨hplain, fun _ _ => hnone⟩⟩

/-- A guest whose functions log a line with an escaped percent sign. -/
def percentInterp : Interp Unit :=
  { echoInterp with callFunction _ _ _ := .log (CString.lit "100%%") (.done (some .void, ())) }

/-- The hook receives `100%`. -/
theorem not_logUnchanged_percent :
    ¬∀ s, Relation.ReflTransGen (Session.Step echoNatives percentInterp)
        (.start () [.callFunction (CString.lit "f") .void] ()) s → LogUnchanged s := by
  intro h
  obtain ⟨s, hs, hheard, hlogged⟩ := Session.exists_of_play echoNatives percentInterp
    (.start () [.callFunction (CString.lit "f") .void] ()) [.parent, .child, .parent]
    (fun s => heard s.left.lines = [CString.lit "100%"] ∧
      s.right.logged = [CString.lit "100%%"]) (by decide +kernel)
  have hprefix := (h s (Session.steps_of_run hs)).prefix_eq
  rw [hheard, hlogged] at hprefix
  exact absurd hprefix (by decide)

end CageKeeper
