import CageKeeper.TimedReaders

/-! The time the host waits for the child. Every operation that waits has a `struct timeval` of its
own, which starts at `proxy->timeout` and is handed by pointer to all its reads, through the loop of
`process_callbacks`, through strings, values and log lines. A callback may start operations that have
budgets of their own. -/

namespace CageKeeper
open ByteStream

variable {F W : Type}

/-- The budget of an operation that is under way: how long it has waited in `select`, and what its
`timeout` holds. -/
structure Budget where
  waited : Nat
  left : Nat
  deriving DecidableEq

/-- The host's process with its end of the pipe in time. -/
structure TimedParent (F W : Type) where
  parent : Parent F W
  fd : Fd
  /-- The budgets of the operations under way, the innermost first. -/
  budgets : List Budget
  /-- How long the operations that have returned have waited. -/
  finished : List Nat

/-- `timeout.tv_sec = proxy->timeout`, in microseconds. -/
def microseconds (seconds : Nat) : Nat := seconds * 1000000

namespace TimedParent

/-- A process that has called no operation yet. -/
def start (world : W) (program : List (Op F)) (fd : Fd) : TimedParent F W :=
  ⟨.start world program, fd, [], []⟩

/-- An operation has been called; it has a budget if it is going to wait. -/
def enter (s : TimedParent F W) (maxtime : Nat) (p : Parent F W) : TimedParent F W :=
  match p.point with
  | .callbacks _ | .isFunctionReply _ =>
      { s with parent := p, budgets := ⟨0, microseconds maxtime⟩ :: s.budgets }
  | _ => { s with parent := p }

/-- The operation returns, and its `timeout` is gone. -/
def leave (s : TimedParent F W) : TimedParent F W :=
  { s with
    budgets := s.budgets.tail
    finished := s.finished ++ (s.budgets.head?.map Budget.waited).toList }

/-- Whether `!timeout.tv_sec && !timeout.tv_usec`. -/
def expired (s : TimedParent F W) : Bool := s.budgets.head?.any (·.left = 0)

/-- A step that starts with a read, which is given the `timeout` of the operation. -/
def afterRead {α : Type} (s : TimedParent F W) (reader : Reader TimedFd α)
    (next : α → Bool → Parent F W) : Option (TimedParent F W) :=
  match s.budgets with
  | [] => none
  | budget :: budgets =>
      match reader ⟨s.fd, budget.left⟩ with
      | .ok value rest =>
          some { s with
            parent := next value (rest.timeout = 0)
            fd := rest.fd
            budgets := ⟨budget.waited + (rest.fd.clock - s.fd.clock), rest.timeout⟩ :: budgets }
      | _ => none

/-- The next step of the process, and what it writes. -/
def step (natives : Natives F W) (maxtime : Nat) (s : TimedParent F W) :
    Option (TimedParent F W × Bytes) :=
  let p := s.parent
  match p.point with
  | .host =>
      match p.program with
      | [] => none
      | operation :: program =>
          let (p, written) := Parent.invoke natives { p with program := program } operation
          some (s.enter maxtime p, written)
  | .callbacks caller => do
      let s ← s.afterRead readMessage fun message expired =>
        p.processCallbacks natives caller message expired
      some (s, [])
  | .native caller (.ret (some value) world) =>
      some ({ s with parent := { p with
        point := .callbacks caller
        world := world
        replies := p.replies ++ [value] } }, writeValue value)
  | .native caller (.ret none world) =>
      some ({ s with parent := { p with
        point := .callbacksDone caller false s.expired
        world := world } }, [])
  | .native _ (.holed array world) =>
      some ({ s with parent := { p with
        point := .crashed
        world := world } }, array.ref.writeBefore)
  | .native caller (.op operation world resume) =>
      let (p, written) := Parent.invoke natives
        { p with world := world, frames := ⟨caller, resume⟩ :: p.frames } operation
      some (s.enter maxtime p, written)
  | .callbacksDone caller ret expired =>
      let s := { s with parent := p.afterCallbacks caller ret expired }
      some (if ret then s else s.leave, [])
  | .compileReply => do
      let s ← s.afterRead readByte.attempt fun reply expired => p.compileScriptReturn reply expired
      some (s.leave, [])
  | .callReply name => do
      let s ← s.afterRead readValue.attempt fun reply expired =>
        p.callFunctionReturn name reply expired
      some (s.leave, [])
  | .isFunctionReply name => do
      let s ← s.afterRead readByte.attempt fun reply _ => p.isFunctionReturn name reply
      some (s.leave, [])
  | .crashed => none

inductive Run (natives : Natives F W) (maxtime : Nat) (first : TimedParent F W) :
    TimedParent F W → Prop where
  | start : Run natives maxtime first first
  | step {s next : TimedParent F W} {written : Bytes} (hrun : Run natives maxtime first s)
      (hstep : s.step natives maxtime = some (next, written)) : Run natives maxtime first next

end TimedParent

/-! ### The operations under way -/

namespace Parent

def depth (p : Parent F W) : Nat :=
  match p.point with
  | .host => p.frames.length
  | _ => p.frames.length + 1

/-- The process has died, or this many operations are under way. -/
def AtDepth (p : Parent F W) (depth : Nat) : Prop := p.point = .crashed ∨ p.depth = depth

theorem finish_depth (p : Parent F W) (result : Result) :
    (p.finish result).depth = p.frames.length := by
  rw [finish]
  cases p.frames with
  | nil => rfl
  | cons frame frames => rfl

theorem atDepth_finish (p : Parent F W) (result : Result) :
    (p.finish result).AtDepth p.frames.length :=
  Or.inr (p.finish_depth result)

theorem atDepth_report (p : Parent F W) (origin : Origin) (line : Option CString) (result : Result) :
    (p.report origin line (finish · result)).AtDepth p.frames.length := by
  cases line with
  | none => exact Or.inl rfl
  | some line => exact atDepth_finish _ result

theorem atDepth_processCallbacks (natives : Natives F W) (p : Parent F W) {caller : Caller}
    (hpoint : p.point = .callbacks caller) (message : Message) (expired : Bool) :
    (p.processCallbacks natives caller message expired).AtDepth (p.frames.length + 1) := by
  cases message with
  | failed => exact Or.inr rfl
  | callback name args =>
      simp only [processCallbacks]
      generalize languageError _ [] = line
      split
      · cases line with
        | none => exact Or.inl rfl
        | some line => exact Or.inr rfl
      · exact Or.inr rfl
  | log message =>
      cases message with
      | none => exact Or.inl rfl
      | some message =>
          rw [processCallbacks]
          cases languageLog message [] with
          | none => exact Or.inl rfl
          | some line =>
              apply Or.inr
              simp only [report, id, depth, hpoint]
  | error => exact Or.inr rfl
  | «return» => exact Or.inr rfl
  | other =>
      apply Or.inr
      simp only [processCallbacks, depth, hpoint]

theorem atDepth_afterCallbacks (p : Parent F W) (caller : Caller) (ret expired : Bool) :
    (p.afterCallbacks caller ret expired).AtDepth (p.frames.length + if ret then 1 else 0) := by
  cases caller with
  | compileScript =>
      simp only [afterCallbacks]
      generalize languageError _ [] = line
      cases ret with
      | true => exact Or.inr rfl
      | false =>
          cases expired with
          | true => exact atDepth_report { p with timeout := true } _ _ _
          | false => exact atDepth_finish p _
  | callFunction name =>
      simp only [afterCallbacks]
      generalize languageError _ [name] = line
      cases ret with
      | true => exact Or.inr rfl
      | false =>
          cases expired with
          | true => exact atDepth_report { p with timeout := true } _ _ _
          | false => exact atDepth_finish p _

theorem atDepth_compileScriptReturn (p : Parent F W) (reply : Option UInt8) (expired : Bool) :
    (p.compileScriptReturn reply expired).AtDepth p.frames.length := by
  unfold compileScriptReturn
  generalize languageError _ [] = line
  cases reply with
  | some b => exact atDepth_finish p _
  | none =>
      cases expired with
      | true => exact atDepth_report { p with timeout := true } _ _ _
      | false => exact atDepth_finish p _

theorem atDepth_callFunctionReturn (p : Parent F W) (name : CString) (reply : Option Value)
    (expired : Bool) : (p.callFunctionReturn name reply expired).AtDepth p.frames.length := by
  unfold callFunctionReturn
  generalize languageError _ [name] = line
  cases reply with
  | some value => exact atDepth_finish p _
  | none =>
      cases expired with
      | true => exact atDepth_report { p with timeout := true } _ _ _
      | false => exact atDepth_finish p _

/-- Before a read of a message or of the answer of `is_function_proxy`. -/
def Waits (p : Parent F W) : Prop :=
  (∃ caller, p.point = .callbacks caller) ∨ ∃ name, p.point = .isFunctionReply name

theorem not_waits_finish (p : Parent F W) (result : Result) : ¬(p.finish result).Waits := by
  rw [finish]
  cases p.frames with
  | nil => rintro (⟨_, h⟩ | ⟨_, h⟩) <;> cases h
  | cons frame frames => rintro (⟨_, h⟩ | ⟨_, h⟩) <;> cases h

theorem not_waits_report (p : Parent F W) (origin : Origin) (line : Option CString)
    (result : Result) : ¬(p.report origin line (finish · result)).Waits := by
  cases line with
  | none => rintro (⟨_, h⟩ | ⟨_, h⟩) <;> cases h
  | some line => exact not_waits_finish _ result

theorem invoke_spec (natives : Natives F W) (p : Parent F W) (operation : Op F) :
    ((invoke natives p operation).1.Waits ∧ (invoke natives p operation).1.frames = p.frames) ∨
      (¬(invoke natives p operation).1.Waits ∧
        (invoke natives p operation).1.AtDepth p.frames.length) := by
  cases operation with
  | defineConstant name value => exact Or.inr ⟨not_waits_finish _ _, atDepth_finish _ _⟩
  | defineFunction name f =>
      simp only [invoke, defineFunctionProxy]
      generalize languageError _ [name] = line
      split
      · exact Or.inr ⟨not_waits_report _ _ _ _, atDepth_report _ _ _ _⟩
      · exact Or.inr ⟨not_waits_finish _ _, atDepth_finish _ _⟩
  | compileScript script =>
      simp only [invoke, compileScriptProxy]
      generalize languageError _ [] = line
      split
      · exact Or.inr ⟨not_waits_report _ _ _ _, atDepth_report _ _ _ _⟩
      · exact Or.inl ⟨Or.inl ⟨_, rfl⟩, rfl⟩
  | isFunction name => exact Or.inl ⟨Or.inr ⟨_, rfl⟩, rfl⟩
  | callFunction name args =>
      simp only [invoke, callFunctionProxy]
      generalize languageError _ [] = line
      split
      · exact Or.inr ⟨not_waits_report _ _ _ _, atDepth_report _ _ _ _⟩
      · exact Or.inl ⟨Or.inl ⟨_, rfl⟩, rfl⟩

end Parent

namespace TimedParent

/-- What the operations under way have waited and may still wait adds up to `proxy->timeout`, and no
operation that has returned has waited longer. -/
structure PaidFor (maxtime : Nat) (s : TimedParent F W) : Prop where
  paid : ∀ budget ∈ s.budgets, budget.waited + budget.left = microseconds maxtime
  finished : ∀ waited ∈ s.finished, waited ≤ microseconds maxtime

/-- All waiting is paid for, and there is a budget for every operation under way. -/
structure Budgeted (maxtime : Nat) (s : TimedParent F W) : Prop extends PaidFor maxtime s where
  nested : s.parent.AtDepth s.budgets.length

theorem PaidFor.leave {maxtime : Nat} {s : TimedParent F W} (hs : PaidFor maxtime s) :
    PaidFor maxtime s.leave := by
  refine ⟨fun budget hmem => hs.paid budget (List.mem_of_mem_tail hmem), fun waited hmem => ?_⟩
  rcases List.mem_append.mp hmem with hold | hnew
  · exact hs.finished waited hold
  · obtain ⟨budget, hhead, rfl⟩ := Option.map_eq_some_iff.mp (Option.mem_toList.mp hnew)
    have hpaid := hs.paid budget (List.mem_of_mem_head? hhead)
    omega

/-- **One read of an operation.** It draws on the budget of the operation, and no other. -/
theorem PaidFor.afterRead {maxtime : Nat} {s s' : TimedParent F W} (hs : PaidFor maxtime s)
    {α : Type} {reader : Reader TimedFd α} (hruns : reader.Runs TimedFd.Spends)
    {next : α → Bool → Parent F W} (hread : s.afterRead reader next = some s') :
    PaidFor maxtime s' ∧ s'.budgets.length = s.budgets.length ∧
      ∃ value expired, s'.parent = next value expired := by
  rw [TimedParent.afterRead] at hread
  split at hread
  · cases hread
  rename_i budget budgets hbudgets
  have hrun := hruns ⟨s.fd, budget.left⟩
  split at hread
  · rename_i value rest hresult
    rw [hresult] at hrun
    cases hread
    have hpaid := hs.paid
    rw [hbudgets, List.forall_mem_cons] at hpaid
    refine ⟨⟨List.forall_mem_cons.mpr ⟨?_, hpaid.2⟩, hs.finished⟩, ?_, value, _, rfl⟩
    · have htotal := hrun.total
      have hclock := hrun.clock_le
      simp only at htotal hclock ⊢
      omega
    · rw [hbudgets]
      rfl
  · cases hread

namespace Budgeted

variable {maxtime : Nat} {s : TimedParent F W}

theorem start (maxtime : Nat) (world : W) (program : List (Op F)) (fd : Fd) :
    Budgeted maxtime (.start world program fd : TimedParent F W) where
  paid := nofun
  finished := nofun
  nested := Or.inr rfl

theorem enter (hs : Budgeted maxtime s) (natives : Natives F W) {p : Parent F W}
    (hdepth : p.frames.length = s.budgets.length) (operation : Op F) :
    Budgeted maxtime (s.enter maxtime (Parent.invoke natives p operation).1) := by
  rcases p.invoke_spec natives operation with ⟨hwaits, hframes⟩ | ⟨hwaits, hat⟩
  · have henter : s.enter maxtime (Parent.invoke natives p operation).1
        = { s with
            parent := (Parent.invoke natives p operation).1
            budgets := ⟨0, microseconds maxtime⟩ :: s.budgets } := by
      rcases hwaits with ⟨caller, hpoint⟩ | ⟨name, hpoint⟩ <;> rw [TimedParent.enter, hpoint]
    rw [henter]
    refine ⟨⟨List.forall_mem_cons.mpr ⟨Nat.zero_add _, hs.paid⟩, hs.finished⟩, Or.inr ?_⟩
    rw [List.length_cons, ← hdepth, ← hframes]
    rcases hwaits with ⟨caller, hpoint⟩ | ⟨name, hpoint⟩ <;> simp only [Parent.depth, hpoint]
  · have henter : s.enter maxtime (Parent.invoke natives p operation).1
        = { s with parent := (Parent.invoke natives p operation).1 } := by
      rw [TimedParent.enter]
      split
      · rename_i caller hpoint
        exact absurd (Or.inl ⟨caller, hpoint⟩) hwaits
      · rename_i name hpoint
        exact absurd (Or.inr ⟨name, hpoint⟩) hwaits
      · rfl
    rw [henter]
    exact ⟨⟨hs.paid, hs.finished⟩, hdepth ▸ hat⟩

theorem length_eq (hs : Budgeted maxtime s) (hpoint : s.parent.point ≠ .crashed)
    (hhost : s.parent.point ≠ .host) : s.budgets.length = s.parent.frames.length + 1 := by
  have hdepth : s.parent.depth = s.budgets.length := hs.nested.resolve_left hpoint
  rw [← hdepth, Parent.depth]
  split
  · exact absurd ‹s.parent.point = .host› hhost
  · rfl

theorem length_tail (hs : Budgeted maxtime s) (hpoint : s.parent.point ≠ .crashed)
    (hhost : s.parent.point ≠ .host) : s.budgets.tail.length = s.parent.frames.length := by
  rw [List.length_tail, hs.length_eq hpoint hhost, Nat.add_sub_cancel]

theorem afterRead_isSome (hs : Budgeted maxtime s) {α : Type} {reader : Reader TimedFd α}
    (hruns : reader.Runs TimedFd.Spends) (hframes : ∀ channel, reader channel ≠ .exhausted)
    (hreject : ∀ channel rest, reader channel ≠ .reject rest) {next : α → Bool → Parent F W}
    (hpoint : s.parent.point ≠ .crashed) (hhost : s.parent.point ≠ .host) :
    (s.afterRead reader next).isSome := by
  have hlength := hs.length_eq hpoint hhost
  rw [TimedParent.afterRead]
  split
  · rename_i hbudgets
    rw [hbudgets] at hlength
    cases hlength
  · rename_i budget budgets hbudgets
    rcases hruns.exists_rest (hframes ⟨s.fd, budget.left⟩) with ⟨value, rest, hok, -⟩ | ⟨rest, h, -⟩
    · rw [hok]
      rfl
    · exact absurd h (hreject _ _)

end Budgeted

section Readers

open TimedFd

theorem readMessage_spends : (readMessage : Reader TimedFd Message).Runs Spends :=
  readMessage_runs Spends.refl Spends.trans TimedFd.read_runs

theorem readByte_spends : (readByte.attempt : Reader TimedFd _).Runs Spends :=
  .attempt (readByte_runs Spends.refl Spends.trans TimedFd.read_runs)

theorem readValue_spends : (readValue.attempt : Reader TimedFd _).Runs Spends :=
  .attempt (readValue_runs Spends.refl Spends.trans TimedFd.read_runs)

end Readers

theorem Budgeted.returns {maxtime : Nat} {s next : TimedParent F W} {written : Bytes}
    (hs : Budgeted maxtime s) {α : Type} {reader : Reader TimedFd α}
    (hruns : reader.Runs TimedFd.Spends) {after : α → Bool → Parent F W}
    (hafter : ∀ value expired, (after value expired).AtDepth s.budgets.tail.length)
    (hstep : (do
      let s ← s.afterRead reader after
      some (s.leave, ([] : Bytes))) = some (next, written)) : Budgeted maxtime next := by
  obtain ⟨s', hread, hresult⟩ := Option.bind_eq_some_iff.mp hstep
  cases hresult
  obtain ⟨hpaid, hlength, value, expired, hparent⟩ := hs.toPaidFor.afterRead hruns hread
  refine ⟨hpaid.leave, ?_⟩
  have hat := hafter value expired
  rw [← hparent, List.length_tail, ← hlength, ← List.length_tail] at hat
  exact hat

/-- **One step.** It draws on no budget but that of the innermost operation. -/
theorem Budgeted.step {natives : Natives F W} {maxtime : Nat} {s next : TimedParent F W}
    {written : Bytes} (hs : Budgeted maxtime s)
    (hstep : s.step natives maxtime = some (next, written)) : Budgeted maxtime next := by
  have hinside := hs.length_eq
  have htail := hs.length_tail
  obtain ⟨p, fd, budgets, finished⟩ := s
  unfold TimedParent.step at hstep
  simp only at hstep hinside htail
  -- outside all operations there are as many budgets as frames, and inside one there is one more
  cases hpoint : p.point with
  | host =>
      simp only [hpoint] at hstep
      cases hprogram : p.program with
      | nil =>
          rw [hprogram] at hstep
          cases hstep
      | cons operation program =>
          rw [hprogram] at hstep
          cases hstep
          apply hs.enter natives
          have hdepth : p.depth = budgets.length := hs.nested.resolve_left (hpoint ▸ nofun)
          rw [← hdepth, Parent.depth, hpoint]
  | callbacks caller =>
      simp only [hpoint] at hstep
      obtain ⟨s', hread, hresult⟩ := Option.bind_eq_some_iff.mp hstep
      cases hresult
      obtain ⟨hpaid, hlength, message, expired, hparent⟩ :=
        hs.toPaidFor.afterRead readMessage_spends hread
      refine ⟨hpaid, ?_⟩
      have hat := p.atDepth_processCallbacks natives hpoint message expired
      rw [← hparent, ← hinside (hpoint ▸ nofun) (hpoint ▸ nofun)] at hat
      exact hlength ▸ hat
  | native caller body =>
      simp only [hpoint] at hstep
      have hdepth := (hinside (hpoint ▸ nofun) (hpoint ▸ nofun)).symm
      cases body with
      | ret value world =>
          cases value with
          | none =>
              cases hstep
              exact ⟨⟨hs.paid, hs.finished⟩, Or.inr hdepth⟩
          | some value =>
              cases hstep
              exact ⟨⟨hs.paid, hs.finished⟩, Or.inr hdepth⟩
      | holed array world =>
          cases hstep
          exact ⟨⟨hs.paid, hs.finished⟩, Or.inl rfl⟩
      | op operation world resume =>
          cases hstep
          apply hs.enter natives
          exact hdepth
  | callbacksDone caller ret expired =>
      simp only [hpoint] at hstep
      have hat := p.atDepth_afterCallbacks caller ret expired
      have hafter : PaidFor maxtime ⟨p.afterCallbacks caller ret expired, fd, budgets, finished⟩ :=
        ⟨hs.paid, hs.finished⟩
      cases ret with
      | true =>
          cases hstep
          exact ⟨hafter, hinside (hpoint ▸ nofun) (hpoint ▸ nofun) ▸ hat⟩
      | false =>
          cases hstep
          exact ⟨hafter.leave, htail (hpoint ▸ nofun) (hpoint ▸ nofun) ▸ hat⟩
  | compileReply =>
      simp only [hpoint] at hstep
      refine hs.returns readByte_spends (fun reply expired => ?_) hstep
      rw [htail (hpoint ▸ nofun) (hpoint ▸ nofun)]
      exact p.atDepth_compileScriptReturn reply expired
  | callReply name =>
      simp only [hpoint] at hstep
      refine hs.returns readValue_spends (fun reply expired => ?_) hstep
      rw [htail (hpoint ▸ nofun) (hpoint ▸ nofun)]
      exact p.atDepth_callFunctionReturn name reply expired
  | isFunctionReply name =>
      simp only [hpoint] at hstep
      refine hs.returns readByte_spends (fun reply _ => ?_) hstep
      rw [htail (hpoint ▸ nofun) (hpoint ▸ nofun)]
      exact Parent.atDepth_finish _ _
  | crashed =>
      simp only [hpoint] at hstep
      cases hstep

theorem Budgeted.step_isSome {natives : Natives F W} {maxtime : Nat} {s : TimedParent F W}
    (hs : Budgeted maxtime s) (hcrashed : s.parent.point ≠ .crashed)
    (hhost : s.parent.point ≠ .host) : (s.step natives maxtime).isSome := by
  have hbind : ∀ {found : Option (TimedParent F W)} {g : TimedParent F W → TimedParent F W × Bytes},
      found.isSome → (found.bind fun s => some (g s)).isSome := fun hfound => by
    obtain ⟨s', hs'⟩ := Option.isSome_iff_exists.mp hfound
    rw [hs']
    rfl
  have hbyte : ∀ channel : TimedFd, readByte.attempt channel ≠ .exhausted := fun channel =>
    TimedFd.attempt_ne_exhausted (TimedFd.readByte_ne_exhausted channel)
  have hvalue : ∀ channel : TimedFd, readValue.attempt channel ≠ .exhausted := fun channel =>
    TimedFd.attempt_ne_exhausted (TimedFd.readValue_ne_exhausted channel)
  rw [TimedParent.step]
  split
  · exact absurd ‹_› hhost
  · exact hbind (hs.afterRead_isSome readMessage_spends TimedFd.readMessage_ne_exhausted
      TimedFd.readMessage_ne_reject hcrashed hhost)
  · rfl
  · rfl
  · rfl
  · rfl
  · rfl
  · exact hbind (hs.afterRead_isSome readByte_spends hbyte
      (fun _ => TimedFd.attempt_ne_reject _) hcrashed hhost)
  · exact hbind (hs.afterRead_isSome readValue_spends hvalue
      (fun _ => TimedFd.attempt_ne_reject _) hcrashed hhost)
  · exact hbind (hs.afterRead_isSome readByte_spends hbyte
      (fun _ => TimedFd.attempt_ne_reject _) hcrashed hhost)
  · exact absurd ‹_› hcrashed

/-- **A time budget cannot be stretched.** Whatever the child does, in every operation that is under
way and in every one that has returned the host has waited at most `proxy->timeout`; and no read
keeps the process from going on. -/
theorem waits_within_budget (natives : Natives F W) (maxtime : Nat) (world : W)
    (program : List (Op F)) (fd : Fd) {s : TimedParent F W}
    (hrun : Run natives maxtime (.start world program fd) s) :
    (∀ budget ∈ s.budgets, budget.waited ≤ microseconds maxtime) ∧
      (∀ waited ∈ s.finished, waited ≤ microseconds maxtime) ∧
      (s.parent.point ≠ .crashed → s.parent.point ≠ .host → (s.step natives maxtime).isSome) := by
  have hs : Budgeted maxtime s := by
    induction hrun with
    | start => exact .start maxtime world program fd
    | step hrun hstep ih => exact ih.step hstep
  exact ⟨fun budget hmem => (hs.paid budget hmem) ▸ Nat.le_add_right _ _, hs.finished,
    fun hcrashed hhost => hs.step_isSome hcrashed hhost⟩

def after (natives : Natives F W) (maxtime : Nat) : Nat → TimedParent F W → Option (TimedParent F W)
  | 0, s => some s
  | steps + 1, s => do
      let (next, _) ← s.step natives maxtime
      next.after natives maxtime steps

theorem Run.of_after {natives : Natives F W} {maxtime steps : Nat} {first s last : TimedParent F W}
    (hrun : Run natives maxtime first s) (h : s.after natives maxtime steps = some last) :
    Run natives maxtime first last := by
  induction steps generalizing s with
  | zero =>
      cases h
      exact hrun
  | succ steps ih =>
      obtain ⟨⟨next, written⟩, hstep, hrest⟩ := Option.bind_eq_some_iff.mp h
      exact ih (hrun.step hstep) hrest

def piece (wait : Nat) : Bytes → Nat × FdEvent
  | [] => (wait, .selectFails .eintr)
  | b :: bytes => (wait, .bytes b bytes)

/-- A child that is asked to call `g`. In pieces, with signals in between, it sends a line for the log, calls
`f` of the host with an array inside an array, and returns another one. -/
def dribblingChild : TimedParent Unit Unit :=
  .start () [.defineFunction (.lit "f") (), .callFunction (.lit "g") (.array [])]
    ⟨0, [piece 1000000 (writeByte Resp.log.code), piece 500000 (writeString (.lit "hi")),
      piece 1000000 (writeByte Resp.callback.code), piece 500000 [],
      piece 2000000 (writeString (.lit "f")), piece 1000000 (writeValue (.array [.array [.int32 1]])),
      piece 500000 (writeByte Resp.return.code),
      piece 2500000 (writeValue (.array [.array [.boolean true], .string (.lit "x")]))]⟩

/-- The function of the host returns a number. -/
def numberNatives : Natives Unit Unit := ⟨fun _ => 1, fun _ _ world => .ret (some (.int32 7)) world⟩

theorem waits_within_budget_dribbling :
    ∃ s, Run numberNatives 10 dribblingChild s ∧
      s.parent.results = [.unit, .value (some (.array [.array [.boolean true], .string (.lit "x")]))] ∧
      s.parent.calls = [((), .array [.array [.int32 1]])] ∧ s.finished = [9000000] ∧
      ∀ waited ∈ s.finished, waited ≤ microseconds 10 := by
  have hafter : (dribblingChild.after numberNatives 10 8).map
      (fun s => (s.parent.results, s.parent.calls, s.finished)) =
        some ([.unit, .value (some (.array [.array [.boolean true], .string (.lit "x")]))],
          [((), .array [.array [.int32 1]])], [9000000]) := by
    decide +kernel
  obtain ⟨s, hs, hends⟩ := Option.map_eq_some_iff.mp hafter
  rw [Prod.mk.injEq, Prod.mk.injEq] at hends
  obtain ⟨hresults, hcalls, hfinished⟩ := hends
  have hrun := Run.of_after .start hs
  exact ⟨s, hrun, hresults, hcalls, hfinished, (waits_within_budget _ 10 () _ _ hrun).2.1⟩

end TimedParent

end CageKeeper
