import CageKeeper.SessionPipes

/-! Hosts that go by what their operations return: the next operation depends on the results so far,
as it does in a program that calls a function only if it is there. Such a host comes to the same value
with the proxy as without it. -/

namespace CageKeeper
open ByteStream

variable {F W G ρ : Type}

/-- A host: it is through, or it calls an operation and goes on with what that returns. -/
inductive HostProgram (F ρ : Type) where
  | done (value : ρ)
  | call (operation : Op F) (next : Result → HostProgram F ρ)

namespace HostProgram

variable (natives : Natives F W) (interp : Interp G)

def direct : HostProgram F ρ → Direct F W G → Option (ρ × Direct F W G)
  | .done value, d => some (value, d)
  | .call operation next, d =>
      (d.call natives interp operation).bind fun (result, d) => (next result).direct d

/-- All operations are within the limits of the proxy, and the guest's program is not run any more
after a call that has returned `NULL`. -/
def Within : HostProgram F ρ → (nulled : Bool) → Direct F W G → Prop
  | .done _, _, _ => True
  | .call operation next, nulled, d =>
      operation.Admissible natives interp d ∧ (operation.EntersGuest → nulled = false) ∧
        ∀ result after, d.call natives interp operation = some (result, after) →
          (next result).Within (nulled || result = .value none) after

instance decidableWithin (natives : Natives F W) (interp : Interp G) :
    ∀ (program : HostProgram F ρ) (nulled : Bool) (d : Direct F W G),
      Decidable (program.Within natives interp nulled d)
  | .done _, _, _ => isTrue trivial
  | .call operation next, nulled, d =>
      match hcall : d.call natives interp operation with
      | none => decidable_of_iff (operation.Admissible natives interp d ∧
          (operation.EntersGuest → nulled = false)) (by simp [Within, hcall])
      | some (result, after) =>
          have := decidableWithin natives interp (next result) (nulled || result = .value none) after
          decidable_of_iff (operation.Admissible natives interp d ∧
              (operation.EntersGuest → nulled = false) ∧
              (next result).Within natives interp (nulled || result = .value none) after)
            (by simp [Within, hcall])

end HostProgram

/-! ### The host's process -/

/-- Where a host stands: before its next operation, or in one. -/
inductive Control (F ρ : Type) where
  | at (program : HostProgram F ρ)
  | waits (next : Result → HostProgram F ρ)

/-- The host's process, with the program it runs. -/
structure HostState (F W ρ : Type) where
  parent : Parent F W
  control : Control F ρ

/-- What the operation that the host waits for has returned. -/
def Parent.returned (p : Parent F W) : Option Result :=
  match p.point, p.program with
  | .host, [] => p.results.getLast?
  | _, _ => none

/-- A host as a machine: the steps of an operation are those of the parent. -/
def hostMachine (natives : Natives F W) : Machine (HostState F W ρ) Mark UInt8 where
  step h marks :=
    match h.control with
    | .at (.done _) => none
    | .at (.call operation next) =>
        ((parentMachine natives).step { h.parent with program := [operation] } marks).map
          fun (p, rest, written) => (⟨p, .waits next⟩, rest, written)
    | .waits next =>
        match h.parent.returned with
        | some result => some (⟨h.parent, .at (next result)⟩, marks, [])
        | none =>
            ((parentMachine natives).step h.parent marks).map
              fun (p, rest, written) => (⟨p, .waits next⟩, rest, written)

section Host

variable {natives : Natives F W}

theorem hostMachine_monotone (natives : Natives F W) :
    (hostMachine natives : Machine (HostState F W ρ) Mark UInt8).Monotone := by
  intro h marks next rest written hstep later
  obtain ⟨p, control⟩ := h
  have hmore : ∀ {q : Parent F W} {next' : Result → HostProgram F ρ},
      ((parentMachine natives).step q marks).map (fun (p, rest, written) =>
          ((⟨p, .waits next'⟩ : HostState F W ρ), rest, written)) = some (next, rest, written) →
        ((parentMachine natives).step q (marks ++ later)).map (fun (p, rest, written) =>
          ((⟨p, .waits next'⟩ : HostState F W ρ), rest, written)) = some (next, rest ++ later, written) := by
    intro q next' hq
    obtain ⟨⟨p', rest', written'⟩, hparent, heq⟩ := Option.map_eq_some_iff.mp hq
    cases heq
    rw [parentMachine_monotone natives hparent later, Option.map_some]
  cases control with
  | «at» program =>
      cases program with
      | done value => cases hstep
      | call operation next' => exact hmore hstep
  | waits next' =>
      cases hreturned : p.returned with
      | none =>
          simp only [hostMachine, hreturned] at hstep ⊢
          exact hmore hstep
      | some result =>
          simp only [hostMachine, hreturned] at hstep ⊢
          cases hstep
          rfl

theorem hostMachine_reads (natives : Natives F W) :
    (hostMachine natives : Machine (HostState F W ρ) Mark UInt8).Reads := by
  intro h marks next rest written hstep
  obtain ⟨p, control⟩ := h
  have hmore : ∀ {q : Parent F W} {next' : Result → HostProgram F ρ},
      ((parentMachine natives).step q marks).map (fun (p, rest, written) =>
          ((⟨p, .waits next'⟩ : HostState F W ρ), rest, written)) = some (next, rest, written) →
        rest <:+ marks := by
    intro q next' hq
    obtain ⟨⟨p', rest', written'⟩, hparent, heq⟩ := Option.map_eq_some_iff.mp hq
    cases heq
    exact parentMachine_reads natives hparent
  cases control with
  | «at» program =>
      cases program with
      | done value => cases hstep
      | call operation next' => exact hmore hstep
  | waits next' =>
      cases hreturned : p.returned with
      | none =>
          simp only [hostMachine, hreturned] at hstep
          exact hmore hstep
      | some result =>
          simp only [hostMachine, hreturned] at hstep
          cases hstep
          exact List.suffix_refl _

theorem Parent.returned_of_step {p : Parent F W} {marks : List Mark} {result}
    (hstep : (parentMachine natives).step p marks = some result) : p.returned = none := by
  unfold returned
  split
  next hpoint hprogram =>
    simp only [parentMachine, step_host_nil hpoint hprogram, Option.map_none, reduceCtorEq] at hstep
  · rfl

/-! ### One operation -/

/-- The host for a parent that has a single operation before it, or is in it. -/
def HostState.of (operation : Op F) (next : Result → HostProgram F ρ) (p : Parent F W) :
    HostState F W ρ :=
  match p.program with
  | [] => ⟨p, .waits next⟩
  | _ :: _ => ⟨{ p with program := [] }, .at (.call operation next)⟩

abbrev HostSession (F W G ρ : Type) := Net (HostState F W ρ) (Child G) Mark UInt8

/-- The session of a host for one with the parent of `HostState.of`. -/
def Session.hosted (operation : Op F) (next : Result → HostProgram F ρ) (s : Session F W G) :
    HostSession F W G ρ :=
  ⟨.of operation next s.left, s.right, s.toRight, s.toLeft⟩

/-- The parent has no other operation before it. -/
def Session.Single (operation : Op F) (s : Session F W G) : Prop :=
  s.left.program = [] ∨ s.left.program = [operation] ∧ s.left.point = .host

variable {interp : Interp G} {operation : Op F} {next : Result → HostProgram F ρ}
  {s t : Session F W G}

theorem HostState.of_nil {p : Parent F W} (hprogram : p.program = []) :
    HostState.of operation next p = ⟨p, .waits next⟩ := by
  rw [HostState.of, hprogram]

theorem hostMachine_step {p p' : Parent F W} {marks rest : List Mark} {written : Bytes}
    (hsingle : p.program = [] ∨ p.program = [operation] ∧ p.point = .host)
    (hstep : (parentMachine natives).step p marks = some (p', rest, written)) :
    (hostMachine natives).step (.of operation next p) marks =
      some (.of operation next p', rest, written) ∧ p'.program = [] := by
  rcases hsingle with hprogram | ⟨hprogram, hpoint⟩
  · have hpoint : p.point ≠ .host := by
      intro hpoint
      simp only [parentMachine, Parent.step_host_nil hpoint hprogram, Option.map_none,
        reduceCtorEq] at hstep
    obtain ⟨⟨p₁, pipe, written₁⟩, hpipe, heq⟩ := Option.map_eq_some_iff.mp hstep
    cases heq
    have hprogram' : p'.program = [] := (Parent.step_program hpoint hpipe).trans hprogram
    refine ⟨?_, hprogram'⟩
    rw [HostState.of_nil hprogram, HostState.of_nil hprogram']
    simp only [hostMachine, Parent.returned_of_step hstep, hstep, Option.map_some]
  · rw [parent_invokes natives hpoint hprogram] at hstep
    cases hstep
    have hprogram' : (Parent.invoke natives { p with program := [] } operation).1.program = [] :=
      Parent.invoke_program { p with program := [] } operation
    refine ⟨?_, hprogram'⟩
    rw [HostState.of_nil hprogram']
    have hof : HostState.of operation next p = ⟨{ p with program := [] }, .at (.call operation next)⟩ := by
      rw [HostState.of, hprogram]
    rw [hof]
    simp only [hostMachine, parent_invokes natives (p := { p with program := [operation] }) hpoint rfl,
      Option.map_some]

theorem Session.hosted_calm (hsingle : s.Single operation) (h : Session.Calm natives interp s t) :
    Net.Calm (hostMachine natives) (childMachine interp) (s.hosted operation next)
      (t.hosted operation next) ∧ t.Single operation := by
  cases h with
  | left hempty hstep =>
      obtain ⟨hhost, hprogram⟩ := hostMachine_step hsingle hstep
      exact ⟨.left hempty hhost, Or.inl hprogram⟩
  | right hempty hstep => exact ⟨.right hempty hstep, hsingle⟩

theorem Session.hosted_run (hsingle : s.Single operation)
    (h : Relation.ReflTransGen (Session.Calm natives interp) s t) :
    Relation.ReflTransGen (Net.Calm (hostMachine natives) (childMachine interp))
      (s.hosted operation next) (t.hosted operation next) ∧ t.Single operation := by
  induction h with
  | refl => exact ⟨.refl, hsingle⟩
  | tail _ hstep ih =>
      obtain ⟨hrun, hsingle⟩ := ih
      obtain ⟨hcalm, hsingle⟩ := Session.hosted_calm hsingle hstep
      exact ⟨hrun.tail hcalm, hsingle⟩

end Host

/-! ### Hosts with and without a proxy -/

section Hosts

variable {natives : Natives F W} {interp : Interp G}

/-- The session that a session with a host contains. -/
def HostSession.session (h : HostSession F W G ρ) : Session F W G :=
  ⟨h.left.parent, h.right, h.toRight, h.toLeft⟩

/-- A host before its next operation, at a state of the direct run. -/
structure HostSession.Stands (h : HostSession F W G ρ) (program : HostProgram F ρ)
    (d : Direct F W G) (nulled : Bool) : Prop where
  control : h.left.control = .at program
  program : h.left.parent.program = []
  inCall : h.left.parent.inCall = nulled
  directly : Matches d h.session

theorem HostSession.Stands.call {h : HostSession F W G ρ} {operation : Op F}
    {next : Result → HostProgram F ρ} {d after : Direct F W G} {nulled : Bool} {result : Result}
    (hstands : h.Stands (.call operation next) d nulled)
    (hadmissible : operation.Admissible natives interp d)
    (hallowed : operation.EntersGuest → nulled = false)
    (hcall : d.call natives interp operation = some (result, after)) :
    ∃ h', Relation.ReflTransGen (Net.Calm (hostMachine natives) (childMachine interp)) h h' ∧
      HostSession.Stands h' (next result) after (nulled || result = .value none) := by
  obtain ⟨⟨p, control⟩, c, toRight, toLeft⟩ := h
  obtain ⟨hcontrol, hprogram, hinCall, hmatches⟩ := hstands
  dsimp only at hcontrol hprogram hinCall
  subst hcontrol
  -- the same parent with the operation as its program
  let s : Session F W G := ⟨{ p with program := [operation] }, c, toRight, toLeft⟩
  have hs : Matches d s := ⟨hmatches.host, hmatches.frames, hmatches.child, hmatches.toRight,
    hmatches.toLeft, hmatches.functions, hmatches.trace⟩
  obtain ⟨t, hcalm, ht, hfollows⟩ := op_calmlySimulated hs rfl hadmissible
    (fun henters => hinCall.trans (hallowed henters)) hcall
  have hsingle : s.Single operation := Or.inr ⟨rfl, hmatches.host⟩
  have hrun : Relation.ReflTransGen (Net.Calm (hostMachine natives) (childMachine interp))
      (s.hosted operation next) (t.hosted operation next) :=
    (Session.hosted_run hsingle hcalm).1
  have hstart : s.hosted operation next = ⟨⟨p, .at (.call operation next)⟩, c, toRight, toLeft⟩ := by
    cases p
    cases hprogram
    rfl
  have hend : t.hosted operation next = ⟨⟨t.left, .waits next⟩, t.right, t.toRight, t.toLeft⟩ := by
    rw [Session.hosted, HostState.of_nil hfollows.program]
  rw [hstart, hend] at hrun
  have hreturned : t.left.returned = some result := by
    simp only [Parent.returned, ht.host, hfollows.program, hfollows.results, List.getLast?_concat]
  refine ⟨⟨⟨t.left, .at (next result)⟩, t.right, [], t.toLeft⟩, hrun.tail (.left ht.toRight ?_), ?_⟩
  · simp only [hostMachine, hreturned]
  · refine ⟨rfl, hfollows.program, ?_, ?_⟩
    · rw [Bool.eq_iff_iff, hfollows.inCall, Bool.or_eq_true, decide_eq_true_iff, List.mem_singleton,
        ← hinCall, eq_comm (b := result)]
    · exact ⟨ht.host, ht.frames, ht.child, rfl, ht.toLeft, ht.functions, ht.trace⟩

/-- **Hosts.** A host within the limits of the proxy comes to the value of its direct run. The
induction is on the host, by one operation at a time. -/
theorem HostProgram.Within.calmly {program : HostProgram F ρ} {h : HostSession F W G ρ}
    {d : Direct F W G} {nulled : Bool} (hstands : h.Stands program d nulled)
    (hwithin : program.Within natives interp nulled d) :
    ∃ value after h' nulled', program.direct natives interp d = some (value, after) ∧
      Relation.ReflTransGen (Net.Calm (hostMachine natives) (childMachine interp)) h h' ∧
      HostSession.Stands h' (.done value) after nulled' := by
  induction program generalizing h d nulled with
  | done value => exact ⟨value, d, h, nulled, rfl, .refl, hstands⟩
  | call operation next ih =>
      obtain ⟨hadmissible, hallowed, hnext⟩ := hwithin
      obtain ⟨result, middle, hcall⟩ := hadmissible.call
      obtain ⟨h₁, hrun, hstands₁⟩ := hstands.call hadmissible hallowed hcall
      obtain ⟨value, after, h₂, nulled₂, hdirect, hrun₂, hstands₂⟩ :=
        ih result hstands₁ (hnext result middle hcall)
      refine ⟨value, after, h₂, nulled₂, ?_, hrun.trans hrun₂, hstands₂⟩
      rw [HostProgram.direct, hcall, Option.bind_some]
      exact hdirect

theorem HostSession.Stands.terminal {h : HostSession F W G ρ} {value : ρ} {d : Direct F W G}
    {nulled : Bool} (hstands : h.Stands (.done value) d nulled) :
    Terminal (Net.Step (hostMachine natives) (childMachine interp)) h := by
  intro t hstep
  cases hstep with
  | left hstep =>
      simp only [hostMachine, hstands.control, reduceCtorEq] at hstep
  | right hstep =>
      have htoRight : h.toRight = [] := hstands.directly.toRight
      have hwaits : (childMachine interp).step h.right [] = none :=
        child_loop_waits interp hstands.directly.child
      rw [htoRight, hwaits] at hstep
      cases hstep

/-- A host that has called no operation yet. -/
def HostSession.start (world : W) (program : HostProgram F ρ) (memory : G) : HostSession F W G ρ :=
  ⟨⟨.start world [], .at program⟩, .start memory, [], []⟩

/-- A step of the host or of the child, over pipes of a capacity. -/
abbrev HostSession.Step (natives : Natives F W) (interp : Interp G) (capacity : Nat) :
    BoundedNet (HostState F W ρ) (Child G) Mark UInt8 →
      BoundedNet (HostState F W ρ) (Child G) Mark UInt8 → Prop :=
  BoundedNet.Step (hostMachine natives) (childMachine interp) capacity

/-- Whatever the sizes of the pipes and the order of the steps are, the host gets through, with the
value of its direct run, and leaves the sandbox in its state. -/
def HostProgram.Completes (natives : Natives F W) (interp : Interp G) (world : W) (memory : G)
    (program : HostProgram F ρ) : Prop :=
  ∃ value after, program.direct natives interp (.start world memory) = some (value, after) ∧
    ∀ capacity, 0 < capacity →
      Acc (flip (HostSession.Step natives interp capacity))
        (BoundedNet.start (HostSession.start world program memory)) ∧
      ∀ b, Relation.ReflTransGen (HostSession.Step natives interp capacity)
          (BoundedNet.start (HostSession.start world program memory)) b →
        Terminal (HostSession.Step natives interp capacity) b →
        b.net.left.control = .at (.done value) ∧ Matches after (HostSession.session b.net)

theorem HostProgram.Within.exists_direct {program : HostProgram F ρ} {d : Direct F W G}
    {nulled : Bool} (hwithin : program.Within natives interp nulled d) :
    ∃ value after, program.direct natives interp d = some (value, after) := by
  induction program generalizing d nulled with
  | done value => exact ⟨value, d, rfl⟩
  | call operation next ih =>
      obtain ⟨hadmissible, -, hnext⟩ := hwithin
      obtain ⟨result, middle, hcall⟩ := hadmissible.call
      obtain ⟨value, after, hdirect⟩ := ih result (hnext result middle hcall)
      refine ⟨value, after, ?_⟩
      rw [HostProgram.direct, hcall, Option.bind_some]
      exact hdirect

theorem HostProgram.Within.ends {world : W} {memory : G} {program : HostProgram F ρ}
    (hwithin : program.Within natives interp false (.start world memory)) {value : ρ}
    {after : Direct F W G}
    (hdirect : program.direct natives interp (.start world memory) = some (value, after))
    {capacity : Nat} (hcapacity : 0 < capacity) :
    Acc (flip (HostSession.Step natives interp capacity))
        (BoundedNet.start (HostSession.start world program memory)) ∧
      ∀ b, Relation.ReflTransGen (HostSession.Step natives interp capacity)
          (BoundedNet.start (HostSession.start world program memory)) b →
        Terminal (HostSession.Step natives interp capacity) b →
        b.net.left.control = .at (.done value) ∧ Matches after (HostSession.session b.net) := by
  have hstands : HostSession.Stands (HostSession.start world program memory) program
      (.start world memory) false :=
    ⟨rfl, rfl, rfl, matches_start world [] memory⟩
  obtain ⟨value', after', t, nulled, hdirect', hcalm, ht⟩ := hwithin.calmly hstands
  rw [hdirect] at hdirect'
  cases hdirect'
  have hcalm' : Relation.ReflTransGen (Net.Calm (hostMachine natives) (childMachine interp))
      (BoundedNet.start (HostSession.start world program memory)).net t := by
    rwa [BoundedNet.net_start]
  obtain ⟨hacc, hends⟩ := BoundedNet.ends_of_calm (hostMachine_monotone natives)
    (childMachine_monotone interp) (hostMachine_reads natives) (childMachine_reads interp) hcapacity
    ht.terminal ht.directly.toRight ht.directly.toLeft hcalm'
  refine ⟨hacc, fun b hreach hterminal => ?_⟩
  rw [hends b hreach hterminal]
  exact ⟨ht.control, ht.directly⟩

/-- **Hosts over pipes.** A host that decides by what its operations return gets through with the proxy,
over pipes of any size, and comes to the same value as without it, if its operations are within the
limits and it does not run the guest's program again after a call that has returned `NULL`. -/
theorem HostProgram.completes {world : W} {memory : G} {program : HostProgram F ρ}
    (hwithin : program.Within natives interp false (.start world memory)) :
    program.Completes natives interp world memory := by
  obtain ⟨value, after, hdirect⟩ := hwithin.exists_direct
  exact ⟨value, after, hdirect, fun capacity hcapacity => hwithin.ends hdirect hcapacity⟩

/-- The host gives the guest `g` and a script, and calls `f` if there is one. -/
def askingHost : HostProgram Unit (Option Value) :=
  .call (.defineFunction (CString.lit "g") ()) fun _ =>
    .call (.compileScript (CString.lit "script")) fun _ =>
      .call (.isFunction (CString.lit "f")) fun found =>
        match found with
        | .bool true => .call (.callFunction (CString.lit "f") (.int32 7#32)) fun result =>
            match result with
            | .value value => .done value
            | _ => .done none
        | _ => .done none

theorem HostProgram.completes_asking : askingHost.Completes echoNatives echoInterp () () :=
  HostProgram.completes (by decide +kernel)

end Hosts

/-! ### Guests that keep to the limits -/

section Obedience

variable {α : Type}

/-- A run that stays within the limits of the proxy whatever the native functions have done before. -/
def Guest.Obeys (natives : Natives F W) (functions : CString → Option F) (P : α → Prop) :
    Guest α → Prop
  | .done result => P result
  | .log text next => percent ∉ (logLine text).bytes ∧ next.Obeys natives functions P
  | .call name args resume =>
      StringFits maxStringSize name.length ∧ args.Within maxStringSize maxArraySize ∧
        ∃ f, functions name = some f ∧ ∀ world, ∃ value next,
          natives.call f args world = .ret (some value) next ∧ value.Within 0 0 ∧
            (resume (some value)).Obeys natives functions P

/-- An interpreter that has been given some functions and, in the states with a property, keeps to the
limits: only its runs of the script log and call back, and no call returns `NULL`. -/
structure Interp.Obeys (natives : Natives F W) (functions : CString → Option F) (interp : Interp G)
    (Inv : G → Prop) : Prop where
  defineConstant : ∀ name value memory, Inv memory → ∃ after,
    interp.defineConstant (some name) (some value) memory = .done after ∧ Inv after
  defineFunction : ∀ name numParams memory, Inv memory → ∃ after,
    interp.defineFunction (some name) numParams memory = .done after ∧ Inv after
  isFunction : ∀ name memory, Inv memory → ∃ ret after,
    interp.isFunction (some name) memory = .done (ret, after) ∧ Inv after
  compileScript : ∀ script memory, Inv memory →
    (interp.compileScript (some script) memory).Obeys natives functions fun result => Inv result.2
  callFunction : ∀ name args memory, Inv memory →
    (interp.callFunction (some name) (some args) memory).Obeys natives functions fun result =>
      (∃ value, result.1 = some value ∧ value.Within maxStringSize maxArraySize) ∧ Inv result.2

variable {natives : Natives F W} {interp : Interp G} {functions : CString → Option F} {Inv : G → Prop}

theorem Guest.Obeys.admissible {P : α → Prop} {guest : Guest α}
    (h : guest.Obeys natives functions P) (world : W) :
    guest.Admissible natives functions P world := by
  induction guest generalizing world with
  | done result => exact h
  | log text next ih => exact ⟨h.1, ih h.2 world⟩
  | call name args resume ih =>
      obtain ⟨hname, hargs, f, hfind, hcall⟩ := h
      obtain ⟨value, next, hreturns, hvalue, hrest⟩ := hcall world
      exact ⟨hname, hargs, f, value, next, hfind, hreturns, hvalue, ih (some value) hrest next⟩

theorem Guest.Admissible.imp {P Q : α → Prop} (hPQ : ∀ result, P result → Q result)
    {guest : Guest α} {world : W} (h : guest.Admissible natives functions P world) :
    guest.Admissible natives functions Q world := by
  induction guest generalizing world with
  | done result => exact hPQ result h
  | log text next ih => exact ⟨h.1, ih h.2⟩
  | call name args resume ih =>
      obtain ⟨hname, hargs, f, value, next, hfind, hcall, hvalue, hrest⟩ := h
      exact ⟨hname, hargs, f, value, next, hfind, hcall, hvalue, ih (some value) hrest⟩

namespace HostProgram

variable {next : Result → HostProgram F ρ} {d : Direct F W G} {nulled : Bool} {name : CString}

/-! One rule for each operation, as a host calls it. -/

theorem within_defineConstant (hobeys : interp.Obeys natives functions Inv) {value : Value}
    (hname : StringFits 0 name.length) (hvalue : value.Within 0 0) (hinv : Inv d.memory)
    (hnext : ∀ memory, Inv memory →
      (next .unit).Within natives interp nulled ⟨memory, d.functions, d.trace⟩) :
    (HostProgram.call (.defineConstant name value) next).Within natives interp nulled d := by
  obtain ⟨after, hdefines, hafter⟩ := hobeys.defineConstant name value d.memory hinv
  refine ⟨⟨hname, hvalue, after, hdefines⟩, by rintro ⟨⟩, ?_⟩
  intro result later hcall
  rw [Direct.call, hdefines] at hcall
  cases hcall
  simpa using hnext after hafter

theorem within_defineFunction (hobeys : interp.Obeys natives functions Inv) {f : F}
    (hname : StringFits 0 name.length) (hparams : natives.numParams f ≤ 255)
    (hnew : d.functions name = none) (hinv : Inv d.memory)
    (hnext : ∀ memory, Inv memory → (next .unit).Within natives interp nulled
      ⟨memory, Function.update d.functions name (some f), d.trace⟩) :
    (HostProgram.call (.defineFunction name f) next).Within natives interp nulled d := by
  obtain ⟨after, hdefines, hafter⟩ :=
    hobeys.defineFunction name (natives.numParams f) d.memory hinv
  refine ⟨⟨hname, hparams, hnew, after, hdefines⟩, by rintro ⟨⟩, ?_⟩
  intro result later hcall
  rw [Direct.call, hdefines] at hcall
  cases hcall
  simpa using hnext after hafter

theorem within_isFunction (hobeys : interp.Obeys natives functions Inv)
    (hname : StringFits 0 name.length) (hinv : Inv d.memory)
    (hnext : ∀ ret memory, Inv memory →
      (next (.bool ret)).Within natives interp nulled ⟨memory, d.functions, d.trace⟩) :
    (HostProgram.call (.isFunction name) next).Within natives interp nulled d := by
  obtain ⟨ret, after, hanswers, hafter⟩ := hobeys.isFunction name d.memory hinv
  refine ⟨⟨hname, (ret, after), hanswers⟩, by rintro ⟨⟩, ?_⟩
  intro result later hcall
  rw [Direct.call, hanswers] at hcall
  cases hcall
  simpa using hnext ret after hafter

theorem within_compileScript (hobeys : interp.Obeys natives functions Inv) {script : CString}
    (hscript : StringFits 0 script.length) (hfunctions : d.functions = functions)
    (hinv : Inv d.memory)
    (hnext : ∀ ret memory trace, Inv memory →
      (next (.bool ret)).Within natives interp false ⟨memory, functions, trace⟩) :
    (HostProgram.call (.compileScript script) next).Within natives interp false d := by
  have hruns := (hobeys.compileScript script d.memory hinv).admissible d.trace.world
  rw [← hfunctions] at hruns
  refine ⟨⟨hscript, hruns.imp fun _ _ => trivial⟩, fun _ => rfl, ?_⟩
  intro result later hcall
  obtain ⟨⟨⟨ret, memory⟩, trace⟩, hdirect, heq⟩ := Option.map_eq_some_iff.mp hcall
  cases heq
  have hafter : Inv memory := hruns.result hdirect
  rw [hfunctions]
  simpa using hnext ret memory trace hafter

theorem within_callFunction (hobeys : interp.Obeys natives functions Inv) {args : Value}
    (hname : StringFits 0 name.length) (hargs : args.Within 0 0)
    (hfunctions : d.functions = functions) (hinv : Inv d.memory)
    (hnext : ∀ value memory trace, Inv memory →
      (next (.value (some value))).Within natives interp false ⟨memory, functions, trace⟩) :
    (HostProgram.call (.callFunction name args) next).Within natives interp false d := by
  have hruns := (hobeys.callFunction name args d.memory hinv).admissible d.trace.world
  rw [← hfunctions] at hruns
  refine ⟨⟨hname, hargs, hruns.imp fun result h => ?_⟩, fun _ => rfl, ?_⟩
  · obtain ⟨⟨value, hvalue, hwithin⟩, -⟩ := h
    rw [hvalue]
    rintro value' ⟨⟩
    exact hwithin
  · intro result later hcall
    obtain ⟨⟨⟨ret, memory⟩, trace⟩, hdirect, heq⟩ := Option.map_eq_some_iff.mp hcall
    cases heq
    obtain ⟨⟨value, hvalue, -⟩, hafter⟩ := hruns.result hdirect
    dsimp only at hvalue hafter
    subst hvalue
    rw [hfunctions]
    simpa using hnext value memory trace hafter

end HostProgram

end Obedience

end CageKeeper
