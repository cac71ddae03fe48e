import CageKeeper.Descriptor

/-! The two read loops of `util.c`: `read_with_retry`, and `read_with_timeout`, which waits in
`select` before every `read` and draws on a time budget. -/

namespace CageKeeper
open ByteStream

inductive ReadEnd (ρ : Type) where
  /-- The loop returns, with this in the buffer. -/
  | returned (ret : Bool) (data : Bytes) (rest : ρ)
  /-- A `read` waits for good. -/
  | waits

def ReadEnd.map {ρ ρ' : Type} (f : ρ → ρ') : ReadEnd ρ → ReadEnd ρ'
  | .returned ret data rest => .returned ret data (f rest)
  | .waits => .waits

/-- What both loops make of the result of a `read`: they return `false`, or go on after these
bytes. -/
def received : Except Errno Bytes → Option Bytes
  -- errno == EINTR || errno == EAGAIN
  | .error .eintr | .error .eagain => some []
  -- read error
  | .error .other => none
  -- EOF
  | .ok [] => none
  | .ok bytes => some bytes

/-- The loop of `read_with_retry`; `pos` is the number of bytes in the buffer. -/
def retryLoop (len : Int) (data : Bytes) (fd : Fd) : ReadEnd Fd :=
  if _hpos : (data.length : Int) < len then
    match _hread : fd.read (len - data.length).toNat with
    | none => .waits
    | some (ret, rest) =>
        match received ret with
        | none => .returned false data rest
        | some bytes => retryLoop len (data ++ bytes) rest
  else .returned true data fd
termination_by fd.events.weight
decreasing_by exact Fd.read_weight (by omega) _hread

/-- `read_with_retry`. -/
def readWithRetry (fd : Fd) (len : Int) : ReadEnd Fd := retryLoop len [] fd

/-- How the inner loop of `read_with_timeout` ends. -/
inductive SelectEnd where
  /-- `return false`. -/
  | failed (timeout : Nat) (fd : Fd)
  | done (readfds : Bool) (timeout : Nat) (fd : Fd)

/-- The inner loop of `read_with_timeout`. -/
def selectLoop (readfds : Bool) (timeout : Nat) (fd : Fd) : SelectEnd :=
  match _hret : (fd.select readfds timeout).ret with
  | .error errno =>
      let selected := fd.select readfds timeout
      if errno = .eintr ∨ errno = .eagain then
        selectLoop selected.readfds selected.timeout selected.fd
      else .failed selected.timeout selected.fd
  | .ok _ =>
      let selected := fd.select readfds timeout
      .done selected.readfds selected.timeout selected.fd
termination_by fd.events.weight
decreasing_by exact (fd.select_paid readfds timeout).2 errno _hret

theorem selectLoop_weight (readfds : Bool) (timeout : Nat) (fd : Fd) :
    ∀ set left rest, selectLoop readfds timeout fd = .done set left rest →
      rest.events.weight ≤ fd.events.weight := by
  fun_induction selectLoop readfds timeout fd with
  | case1 readfds timeout fd errno hret selected hretry ih =>
      intro set left rest h
      exact Nat.le_trans (ih set left rest h) (fd.select_paid readfds timeout).1.weight_le
  | case2 => exact nofun
  | case3 readfds timeout fd count hret selected =>
      intro set left rest h
      cases h
      exact (fd.select_paid readfds timeout).1.weight_le

/-- The outer loop of `read_with_timeout`. -/
def timeoutLoop (len : Int) (readfds : Bool) (timeout : Nat) (data : Bytes) (fd : Fd) :
    ReadEnd (Nat × Fd) :=
  if _hpos : (data.length : Int) < len then
    match _hselect : selectLoop readfds timeout fd with
    | .failed timeout fd => .returned false data (timeout, fd)
    | .done readfds timeout ready =>
        if !readfds then .returned false data (timeout, ready)
        else
          match _hread : ready.read (len - data.length).toNat with
          | none => .waits
          | some (ret, rest) =>
              match received ret with
              | none => .returned false data (timeout, rest)
              | some bytes => timeoutLoop len readfds timeout (data ++ bytes) rest
  else .returned true data (timeout, fd)
termination_by fd.events.weight
decreasing_by
  exact Nat.lt_of_lt_of_le (Fd.read_weight (by omega) _hread)
    (selectLoop_weight _ _ _ _ _ _ _hselect)

/-- `read_with_timeout`. The timeout may be missing; otherwise what is left of it is stored. -/
def readWithTimeout (fd : Fd) (len : Int) : Option Nat → ReadEnd (Option Nat × Fd)
  | none => (readWithRetry fd len).map (none, ·)
  | some timeout =>
      (timeoutLoop len true timeout [] fd).map fun rest => (some rest.1, rest.2)

/-! ### The plain loop -/

theorem remaining_nil (len : Int) : (len - ([] : Bytes).length).toNat = len.toNat :=
  congrArg Int.toNat (Int.sub_zero len)

/-- What the loop of `read_with_retry` comes to. -/
inductive RetrySpec (len : Int) (data : Bytes) (fd : Fd) : ReadEnd Fd → Prop where
  | complete {taken : Bytes} {rest : Fd} (hlength : taken.length = (len - data.length).toNat)
      (hstream : fd.stream = taken ++ rest.stream) (hends : rest.ends = fd.ends) :
      RetrySpec len data fd (.returned true (data ++ taken) rest)
  | incomplete {rest : Fd} (hlength : data.length + fd.stream.length < len)
      (hends : fd.ends = true) :
      RetrySpec len data fd (.returned false (data ++ fd.stream) rest)
  | waits (hlength : data.length + fd.stream.length < len) (hends : fd.ends = false) :
      RetrySpec len data fd .waits

theorem received_eq_none {ret : Except Errno Bytes} (h : received ret = none) :
    ret = .ok [] ∨ ret = .error .other := by
  rcases ret with (_ | _ | _) | (_ | ⟨first, more⟩)
  · cases h
  · cases h
  · exact Or.inr rfl
  · exact Or.inl rfl
  · cases h

theorem received_eq_some {ret : Except Errno Bytes} {bytes : Bytes}
    (h : received ret = some bytes) :
    (bytes = [] ∧ ∃ errno, errno ≠ .other ∧ ret = .error errno) ∨ (bytes ≠ [] ∧ ret = .ok bytes) := by
  rcases ret with (_ | _ | _) | (_ | ⟨first, more⟩)
  · exact Or.inl ⟨(Option.some.inj h).symm, .eintr, nofun, rfl⟩
  · exact Or.inl ⟨(Option.some.inj h).symm, .eagain, nofun, rfl⟩
  · cases h
  · cases h
  · cases h
    exact Or.inr ⟨List.cons_ne_nil _ _, rfl⟩

/-- One turn takes some of the bytes that are asked for, and they are the next ones. -/
theorem read_received {count : Nat} (hcount : 0 < count) {fd rest : Fd} {ret : Except Errno Bytes}
    {bytes : Bytes} (hread : fd.read count = some (ret, rest)) (hret : received ret = some bytes) :
    bytes.length ≤ count ∧ fd.stream = bytes ++ rest.stream ∧ rest.ends = fd.ends := by
  have hspec := fd.read_spec hcount
  rw [hread] at hspec
  rcases received_eq_some hret with ⟨rfl, errno, herrno, rfl⟩ | ⟨hne, rfl⟩
  · cases hspec with
    | retries _ hstream hends => exact ⟨Nat.zero_le _, hstream.symm, hends⟩
    | fails => exact absurd rfl herrno
  · cases hspec with
    | eof => exact absurd rfl hne
    | takes _ hlength hstream hends => exact ⟨hlength, hstream, hends⟩

theorem read_received_weight {count : Nat} (hcount : 0 < count) {fd rest : Fd}
    {ret : Except Errno Bytes} {bytes : Bytes} (hread : fd.read count = some (ret, rest))
    (hret : received ret = some bytes) : rest.events.weight + bytes.length ≤ fd.events.weight := by
  rcases received_eq_some hret with ⟨rfl, errno, -, rfl⟩ | ⟨-, rfl⟩
  · exact Nat.le_of_lt (Fd.read_weight hcount hread)
  · exact Fd.read_weight_bytes hread

/-- A turn that makes the loop return `false` has found the end of the stream. -/
theorem read_not_received {count : Nat} (hcount : 0 < count) {fd rest : Fd}
    {ret : Except Errno Bytes} (hread : fd.read count = some (ret, rest))
    (hret : received ret = none) : fd.stream = [] ∧ fd.ends = true := by
  have hspec := fd.read_spec hcount
  rw [hread] at hspec
  rcases received_eq_none hret with rfl | rfl
  · cases hspec with
    | eof hstream hends => exact ⟨hstream, hends⟩
    | takes hne => exact absurd rfl hne
  · cases hspec with
    | retries herrno => exact absurd rfl herrno
    | fails hstream hends => exact ⟨hstream, hends⟩

/-- **`read_with_retry`.** -/
theorem retryLoop_spec (len : Int) (data : Bytes) (fd : Fd) :
    RetrySpec len data fd (retryLoop len data fd) := by
  fun_induction retryLoop len data fd with
  | case1 data fd hpos hread =>
      have hspec := fd.read_spec (by omega : 0 < (len - data.length).toNat)
      rw [hread] at hspec
      cases hspec with
      | waits hstream hends =>
          apply RetrySpec.waits _ hends
          rw [hstream, List.length_nil]
          omega
  | case2 data fd hpos ret rest hread hret =>
      obtain ⟨hstream, hends⟩ := read_not_received (by omega) hread hret
      have hdata : data = data ++ fd.stream := by rw [hstream, List.append_nil]
      conv => arg 4; rw [hdata]
      apply RetrySpec.incomplete _ hends
      rw [hstream, List.length_nil]
      omega
  | case3 data fd hpos ret rest hread bytes hret ih =>
      obtain ⟨hlength, hstream, hends⟩ := read_received (by omega) hread hret
      have hcount : (data ++ bytes).length = data.length + bytes.length := List.length_append
      have htotal : fd.stream.length = bytes.length + rest.stream.length := by
        rw [hstream, List.length_append]
      generalize retryLoop len (data ++ bytes) rest = result at ih ⊢
      cases ih with
      | @complete taken last hlength' hstream' hends' =>
          rw [List.append_assoc]
          apply RetrySpec.complete _ _ (hends'.trans hends)
          · rw [List.length_append, hlength', hcount]
            omega
          · rw [hstream, hstream', List.append_assoc]
      | incomplete hlength' hends' =>
          rw [List.append_assoc, ← hstream]
          exact .incomplete (by omega) (hends.symm.trans hends')
      | waits hlength' hends' => exact .waits (by omega) (hends.symm.trans hends')
  | case4 data fd hpos =>
      have hdone : RetrySpec len data fd (.returned true (data ++ []) fd) :=
        .complete (by rw [List.length_nil]; omega) rfl rfl
      rwa [List.append_nil] at hdone

/-! ### The turns of the loops -/

section Turns

variable {len : Int} {data bytes : Bytes} {fd rest ready : Fd} {ret : Except Errno Bytes}
  {readfds : Bool} {timeout left : Nat}

theorem retryLoop_done (hpos : ¬(data.length : Int) < len) :
    retryLoop len data fd = .returned true data fd := by
  rw [retryLoop, dif_neg hpos]

theorem retryLoop_waits (hpos : (data.length : Int) < len)
    (hread : fd.read (len - data.length).toNat = none) : retryLoop len data fd = .waits := by
  rw [retryLoop, dif_pos hpos]
  split
  · rfl
  · rename_i hread'
    cases hread.symm.trans hread'

theorem retryLoop_reads (hpos : (data.length : Int) < len)
    (hread : fd.read (len - data.length).toNat = some (ret, rest)) :
    retryLoop len data fd = match received ret with
      | none => .returned false data rest
      | some bytes => retryLoop len (data ++ bytes) rest := by
  rw [retryLoop, dif_pos hpos]
  split
  · rename_i hread'
    cases hread.symm.trans hread'
  · rename_i hread'
    cases hread.symm.trans hread'
    rfl

theorem retryLoop_stops (hpos : (data.length : Int) < len)
    (hread : fd.read (len - data.length).toNat = some (ret, rest)) (hret : received ret = none) :
    retryLoop len data fd = .returned false data rest := by
  rw [retryLoop_reads hpos hread, hret]

theorem retryLoop_goesOn (hpos : (data.length : Int) < len)
    (hread : fd.read (len - data.length).toNat = some (ret, rest))
    (hret : received ret = some bytes) :
    retryLoop len data fd = retryLoop len (data ++ bytes) rest := by
  rw [retryLoop_reads hpos hread, hret]

theorem selectLoop_ok {count : Nat} (hret : (fd.select readfds timeout).ret = .ok count) :
    selectLoop readfds timeout fd = .done (fd.select readfds timeout).readfds
      (fd.select readfds timeout).timeout (fd.select readfds timeout).fd := by
  rw [selectLoop]
  split
  · rename_i hret'
    cases hret.symm.trans hret'
  · rfl

theorem selectLoop_retries {errno : Errno} (herrno : errno ≠ .other)
    (hret : (fd.select readfds timeout).ret = .error errno) :
    selectLoop readfds timeout fd = selectLoop (fd.select readfds timeout).readfds
      (fd.select readfds timeout).timeout (fd.select readfds timeout).fd := by
  rw [selectLoop]
  split
  · rename_i hret'
    cases hret.symm.trans hret'
    apply if_pos
    cases errno with
    | other => exact absurd rfl herrno
    | eintr => exact Or.inl rfl
    | eagain => exact Or.inr rfl
  · rename_i hret'
    cases hret.symm.trans hret'

theorem timeoutLoop_done (hpos : ¬(data.length : Int) < len) :
    timeoutLoop len readfds timeout data fd = .returned true data (timeout, fd) := by
  rw [timeoutLoop, dif_neg hpos]

theorem timeoutLoop_expires (hpos : (data.length : Int) < len)
    (hselect : selectLoop readfds timeout fd = .done false left ready) :
    timeoutLoop len readfds timeout data fd = .returned false data (left, ready) := by
  rw [timeoutLoop, dif_pos hpos]
  split
  · rename_i hselect'
    cases hselect.symm.trans hselect'
  · rename_i hselect'
    cases hselect.symm.trans hselect'
    rfl

theorem timeoutLoop_reads (hpos : (data.length : Int) < len)
    (hselect : selectLoop readfds timeout fd = .done true left ready)
    (hread : ready.read (len - data.length).toNat = some (ret, rest)) :
    timeoutLoop len readfds timeout data fd = match received ret with
      | none => .returned false data (left, rest)
      | some bytes => timeoutLoop len true left (data ++ bytes) rest := by
  rw [timeoutLoop, dif_pos hpos]
  split
  · rename_i hselect'
    cases hselect.symm.trans hselect'
  · rename_i hselect'
    cases hselect.symm.trans hselect'
    rw [if_neg (by decide)]
    split
    · rename_i hread'
      cases hread.symm.trans hread'
    · rename_i hread'
      cases hread.symm.trans hread'
      rfl

theorem timeoutLoop_stops (hpos : (data.length : Int) < len)
    (hselect : selectLoop readfds timeout fd = .done true left ready)
    (hread : ready.read (len - data.length).toNat = some (ret, rest))
    (hret : received ret = none) :
    timeoutLoop len readfds timeout data fd = .returned false data (left, rest) := by
  rw [timeoutLoop_reads hpos hselect hread, hret]

theorem timeoutLoop_goesOn (hpos : (data.length : Int) < len)
    (hselect : selectLoop readfds timeout fd = .done true left ready)
    (hread : ready.read (len - data.length).toNat = some (ret, rest))
    (hret : received ret = some bytes) :
    timeoutLoop len readfds timeout data fd = timeoutLoop len true left (data ++ bytes) rest := by
  rw [timeoutLoop_reads hpos hselect hread, hret]

end Turns

/-! ### The two loops agree -/

theorem retryLoop_arrivals (len : Int) (data : Bytes) (fd : Fd) :
    retryLoop len data fd.arrivals = (retryLoop len data fd).map Fd.arrivals := by
  fun_induction retryLoop len data fd with
  | case1 data fd hpos hread =>
      apply retryLoop_waits hpos
      rw [Fd.read_arrivals, hread]
      rfl
  | case2 data fd hpos ret rest hread hret =>
      apply retryLoop_stops hpos _ hret
      rw [Fd.read_arrivals, hread]
      rfl
  | case3 data fd hpos ret rest hread bytes hret ih =>
      rw [← ih]
      apply retryLoop_goesOn hpos _ hret
      rw [Fd.read_arrivals, hread]
      rfl
  | case4 data fd hpos => exact retryLoop_done hpos

/-- The inner loop of `read_with_timeout` waits for what `read` waits for, as long as the time
lasts. -/
theorem selectLoop_read (count : Nat) (fd : Fd) (timeout : Nat)
    (hselect : fd.events.SelectInterrupted) :
    (∀ ret rest, fd.read count = some (ret, rest) → rest.clock ≤ fd.clock + timeout →
      ∃ ready, selectLoop true timeout fd = .done true (fd.clock + timeout - rest.clock) ready ∧
        ready.read count = some (ret, rest)) ∧
    ((∀ ret rest, fd.read count = some (ret, rest) → fd.clock + timeout < rest.clock) →
      ∃ ready, selectLoop true timeout fd = .done false 0 ready ∧
        ready.clock = fd.clock + timeout) := by
  obtain ⟨clock, events⟩ := fd
  induction events generalizing clock timeout with
  | nil => exact ⟨nofun, fun _ => ⟨_, selectLoop_ok rfl, rfl⟩⟩
  | cons next events ih =>
      obtain ⟨delay, event⟩ := next
      by_cases hlate : timeout < delay
      · have hselected : (Fd.mk clock ((delay, event) :: events)).select true timeout
            = ⟨.ok 0, false, 0, ⟨clock + timeout, (delay - timeout, event) :: events⟩⟩ :=
          Fd.selectEvents_late hlate ..
        refine ⟨fun ret rest hread hclock => ?_,
          fun _ => ⟨⟨clock + timeout, (delay - timeout, event) :: events⟩, ?_, rfl⟩⟩
        · rw [Fd.read, Fd.readEvents_delay] at hread
          have hle := (Fd.read_clock_le (Fd.mk (clock + delay) ((0, event) :: events)) hread)
          simp only at hle hclock
          omega
        · rw [selectLoop_ok (by rw [hselected]), hselected]
      have htotal : clock + delay + (timeout - delay) = clock + timeout := by omega
      rcases Fd.selectFails_or event with ⟨errno, rfl⟩ | hevent
      · have hselected : (Fd.mk clock ((delay, .selectFails errno) :: events)).select true timeout
            = ⟨.error errno, true, timeout - delay, ⟨clock + delay, events⟩⟩ :=
          Fd.selectEvents_fails hlate ..
        have herrno : errno ≠ .other := hselect delay errno (List.mem_cons_self ..)
        have hlater := ih (timeout - delay) (clock + delay) hselect.tail
        simp only [htotal] at hlater
        rw [selectLoop_retries herrno (by rw [hselected]), hselected]
        exact hlater
      · have hselected : (Fd.mk clock ((delay, event) :: events)).select true timeout
            = ⟨.ok 1, true, timeout - delay, ⟨clock + delay, (0, event) :: events⟩⟩ :=
          Fd.selectEvents_arrival hlate true hevent ..
        obtain ⟨ret, rest, hnow, hclock⟩ := Fd.readEvents_now count hevent events (clock + delay)
        have hread : (Fd.mk clock ((delay, event) :: events)).read count = some (ret, rest) := by
          rw [Fd.read, Fd.readEvents_delay]
          exact hnow
        refine ⟨fun ret' rest' hread' _ => ?_, fun hexpires => ?_⟩
        · cases hread.symm.trans hread'
          refine ⟨⟨clock + delay, (0, event) :: events⟩, ?_, hnow⟩
          rw [selectLoop_ok (by rw [hselected]), hselected, hclock]
          apply congrArg (SelectEnd.done true · _)
          simp only
          omega
        · have hlt := hexpires ret rest hread
          simp only at hlt
          omega

theorem retryLoop_clock_le (len : Int) (data : Bytes) (fd : Fd) :
    ∀ ret data' rest, retryLoop len data fd = .returned ret data' rest → fd.clock ≤ rest.clock := by
  fun_induction retryLoop len data fd with
  | case1 data fd hpos hread => exact nofun
  | case2 data fd hpos ret rest hread hret =>
      intro ret' data' rest' h
      cases h
      exact fd.read_clock_le hread
  | case3 data fd hpos ret rest hread bytes hret ih =>
      intro ret' data' rest' h
      exact Nat.le_trans (fd.read_clock_le hread) (ih ret' data' rest' h)
  | case4 data fd hpos =>
      intro ret' data' rest' h
      cases h
      exact Nat.le_refl _

/-- **The two loops agree.** What `read_with_retry` does within the time, `read_with_timeout` does
too; if it takes longer, `read_with_timeout` gives up when the time is over. -/
theorem timeoutLoop_eq (len : Int) (data : Bytes) (fd : Fd) (timeout : Nat)
    (hselect : fd.events.SelectInterrupted) :
    (∀ ret data' rest, retryLoop len data fd = .returned ret data' rest →
      rest.clock ≤ fd.clock + timeout → timeoutLoop len true timeout data fd
        = .returned ret data' (fd.clock + timeout - rest.clock, rest)) ∧
    ((∀ ret data' rest, retryLoop len data fd = .returned ret data' rest →
      fd.clock + timeout < rest.clock) →
      ∃ data' rest, timeoutLoop len true timeout data fd = .returned false data' (0, rest) ∧
        data'.length < len) := by
  fun_induction retryLoop len data fd generalizing timeout with
  | case1 data fd hpos hread =>
      refine ⟨nofun, fun _ => ?_⟩
      obtain ⟨ready, hready, -⟩ := (selectLoop_read (len - data.length).toNat fd timeout hselect).2
        fun ret rest hread' => by cases hread.symm.trans hread'
      exact ⟨data, ready, timeoutLoop_expires hpos hready, hpos⟩
  | case2 data fd hpos ret rest hread hret =>
      obtain ⟨hintime, hlate⟩ := selectLoop_read (len - data.length).toNat fd timeout hselect
      refine ⟨fun ret' data' rest' h hclock => ?_, fun hexpires => ?_⟩
      · cases h
        obtain ⟨ready, hready, hread'⟩ := hintime ret rest hread hclock
        exact timeoutLoop_stops hpos hready hread' hret
      · obtain ⟨ready, hready, -⟩ := hlate fun ret' rest' hread' => by
          cases hread.symm.trans hread'
          exact hexpires false data rest rfl
        exact ⟨data, ready, timeoutLoop_expires hpos hready, hpos⟩
  | case3 data fd hpos ret rest hread bytes hret ih =>
      obtain ⟨hintime, hlate⟩ := selectLoop_read (len - data.length).toNat fd timeout hselect
      by_cases hclock : rest.clock ≤ fd.clock + timeout
      · obtain ⟨ready, hready, hread'⟩ := hintime ret rest hread hclock
        rw [timeoutLoop_goesOn hpos hready hread' hret]
        have hlater := ih (fd.clock + timeout - rest.clock) (Fd.read_selectInterrupted hread hselect)
        rwa [Nat.add_sub_cancel' hclock] at hlater
      · refine ⟨fun ret' data' rest' h hclock' => ?_, fun _ => ?_⟩
        · have hle := retryLoop_clock_le _ _ _ _ _ _ h
          exact absurd (Nat.le_trans hle hclock') hclock
        · obtain ⟨ready, hready, -⟩ := hlate fun ret' rest' hread' => by
            cases hread.symm.trans hread'
            exact Nat.lt_of_not_le hclock
          exact ⟨data, ready, timeoutLoop_expires hpos hready, hpos⟩
  | case4 data fd hpos =>
      refine ⟨fun ret data' rest h _ => ?_, fun hexpires => ?_⟩
      · cases h
        rw [Nat.add_sub_cancel_left]
        exact timeoutLoop_done hpos
      · exact absurd (hexpires true data fd rfl) (Nat.not_lt_of_le (Nat.le_add_right ..))

/-! ### The loop with a timeout, whatever happens -/

/-- The inner loop finds the descriptor readable, or the time over, or an error; the time it has
waited and the time it leaves add up to what it was given. -/
inductive SelectLoopSpec (timeout : Nat) (fd : Fd) : SelectEnd → Prop where
  | failed {left : Nat} {rest : Fd} (hpaid : Fd.Paid timeout fd left rest) :
      SelectLoopSpec timeout fd (.failed left rest)
  | expired {rest : Fd} (hpaid : Fd.Paid timeout fd 0 rest) :
      SelectLoopSpec timeout fd (.done false 0 rest)
  | ready {left clock : Nat} {event : FdEvent} {events : FdEvents}
      (hevent : ∀ errno, event ≠ .selectFails errno)
      (hpaid : Fd.Paid timeout fd left ⟨clock, (0, event) :: events⟩)
      (hstream : Fd.stream ⟨clock, (0, event) :: events⟩ = fd.stream)
      (hends : Fd.ends ⟨clock, (0, event) :: events⟩ = fd.ends) :
      SelectLoopSpec timeout fd (.done true left ⟨clock, (0, event) :: events⟩)

theorem selectLoop_spec {readfds : Bool} (hset : readfds = true) (timeout : Nat) (fd : Fd) :
    SelectLoopSpec timeout fd (selectLoop readfds timeout fd) := by
  fun_induction selectLoop readfds timeout fd with
  | case1 readfds timeout fd errno hret selected hretry ih =>
      subst hset
      have hspec := fd.select_spec timeout
      have hpaid := (fd.select_paid true timeout).1
      change selected.ret = .error errno at hret
      change Fd.Paid timeout fd selected.timeout selected.fd at hpaid
      change Fd.SelectSpec fd selected at hspec
      clear_value selected
      cases hspec with
      | expires => cases hret
      | fails hstream hends =>
          have hlater := ih rfl
          simp only at hlater hpaid ⊢
          generalize selectLoop true _ _ = result at hlater ⊢
          cases hlater with
          | failed hlate => exact .failed (hpaid.trans hlate)
          | expired hlate => exact .expired (hpaid.trans hlate)
          | ready hevent hintime hstream' hends' =>
              exact .ready hevent (hpaid.trans hintime) (hstream'.trans hstream)
                (hends'.trans hends)
      | ready => cases hret
  | case2 readfds timeout fd errno hret selected hretry =>
      subst hset
      exact .failed (fd.select_paid true timeout).1
  | case3 readfds timeout fd count hret selected =>
      subst hset
      have hspec := fd.select_spec timeout
      have hpaid := (fd.select_paid true timeout).1
      change selected.ret = .ok count at hret
      change Fd.Paid timeout fd selected.timeout selected.fd at hpaid
      change Fd.SelectSpec fd selected at hspec
      clear_value selected
      cases hspec with
      | expires => exact .expired hpaid
      | fails => cases hret
      | ready hevent hstream hends => exact .ready hevent hpaid hstream hends

/-- A `read` of a descriptor that the inner loop has found readable takes no time. -/
theorem SelectLoopSpec.read {timeout left count : Nat} {fd ready : Fd} (hcount : 0 < count)
    (hspec : SelectLoopSpec timeout fd (.done true left ready)) :
    ∃ ret rest, ready.read count = some (ret, rest) ∧ Fd.Paid timeout fd left rest ∧
      ready.stream = fd.stream ∧ ready.ends = fd.ends ∧
      ready.events.weight ≤ fd.events.weight := by
  cases hspec with
  | @ready _ clock event events hevent hpaid hstream hends =>
      obtain ⟨ret, rest, hread, hsame⟩ := Fd.readEvents_now count hevent events clock
      refine ⟨ret, rest, hread, hpaid.trans ⟨?_, ?_, ?_⟩, hstream, hends, hpaid.weight_le⟩
      · rw [hsame]
      · exact Nat.le_of_eq hsame.symm
      · exact Nat.le_of_lt (Fd.read_weight hcount hread)

/-- What `read_with_timeout` comes to, whatever happens: it always returns, the time it has waited
and the time it leaves add up to what it was given, and it is `true` only when the buffer is full. -/
inductive TimeoutSpec (len : Int) (timeout : Nat) (data : Bytes) (fd : Fd) :
    ReadEnd (Nat × Fd) → Prop where
  | complete {taken : Bytes} {left : Nat} {rest : Fd}
      (hlength : taken.length = (len - data.length).toNat)
      (hstream : fd.stream = taken ++ rest.stream) (hends : rest.ends = fd.ends)
      (hpaid : Fd.Paid timeout fd left rest)
      (hweight : rest.events.weight + taken.length ≤ fd.events.weight) :
      TimeoutSpec len timeout data fd (.returned true (data ++ taken) (left, rest))
  | incomplete {data' : Bytes} {left : Nat} {rest : Fd} (hlength : data'.length < len)
      (hpaid : Fd.Paid timeout fd left rest) :
      TimeoutSpec len timeout data fd (.returned false data' (left, rest))

/-- **`read_with_timeout`.** -/
theorem timeoutLoop_spec (len : Int) {readfds : Bool} (hset : readfds = true) (timeout : Nat)
    (data : Bytes) (fd : Fd) :
    TimeoutSpec len timeout data fd (timeoutLoop len readfds timeout data fd) := by
  fun_induction timeoutLoop len readfds timeout data fd with
  | case1 readfds timeout data fd hpos left rest hselect =>
      have hspec := selectLoop_spec hset timeout fd
      rw [hselect] at hspec
      cases hspec with
      | failed hpaid => exact .incomplete hpos hpaid
  | case2 readfds timeout data fd hpos set left ready hselect hunset =>
      have hspec := selectLoop_spec hset timeout fd
      rw [hselect] at hspec
      cases hspec with
      | expired hpaid => exact .incomplete hpos hpaid
      | ready => cases hunset
  | case3 readfds timeout data fd hpos set left ready hselect hunset hread =>
      obtain rfl : set = true := by simpa using hunset
      have hspec := selectLoop_spec hset timeout fd
      rw [hselect] at hspec
      obtain ⟨ret, rest, hnow, -⟩ := hspec.read (by omega : 0 < (len - data.length).toNat)
      cases hread.symm.trans hnow
  | case4 readfds timeout data fd hpos set left ready hselect hunset ret rest hread hret =>
      obtain rfl : set = true := by simpa using hunset
      have hspec := selectLoop_spec hset timeout fd
      rw [hselect] at hspec
      obtain ⟨ret', rest', hnow, hpaid, -⟩ := hspec.read (by omega : 0 < (len - data.length).toNat)
      cases hread.symm.trans hnow
      exact .incomplete hpos hpaid
  | case5 readfds timeout data fd hpos set left ready hselect hunset ret rest hread bytes hret ih =>
      obtain rfl : set = true := by simpa using hunset
      have hspec := selectLoop_spec hset timeout fd
      rw [hselect] at hspec
      obtain ⟨ret', rest', hnow, hpaid, hstream, hends, hweight⟩ :=
        hspec.read (by omega : 0 < (len - data.length).toNat)
      cases hread.symm.trans hnow
      obtain ⟨hbytes, hstream', hends'⟩ := read_received (by omega) hread hret
      have hused := read_received_weight (by omega) hread hret
      have hcount : (data ++ bytes).length = data.length + bytes.length := List.length_append
      have hlater := ih rfl
      generalize timeoutLoop len true left (data ++ bytes) rest = result at hlater ⊢
      cases hlater with
      | @complete taken _ _ hlength hstream'' hends'' hlater hweight' =>
          rw [List.append_assoc]
          apply TimeoutSpec.complete _ _ _ (hpaid.trans hlater)
          · rw [List.length_append]
            omega
          · rw [List.length_append, hlength, hcount]
            omega
          · rw [← hstream, hstream', hstream'', List.append_assoc]
          · exact hends''.trans (hends'.trans hends)
      | incomplete hlength hlater => exact .incomplete hlength (hpaid.trans hlater)
  | case6 readfds timeout data fd hpos =>
      have hdone : TimeoutSpec len timeout data fd (.returned true (data ++ []) (timeout, fd)) :=
        .complete (by rw [List.length_nil]; omega) rfl rfl (.refl _ _) (Nat.le_refl _)
      rwa [List.append_nil] at hdone

/-! ### Both functions -/

/-- What a reader takes for the outcome of a read loop. -/
def ReadEnd.outcome : ReadEnd Fd → Outcome Pipe Bytes
  | .returned true data rest => .ok data rest.pipe
  | .returned false _ _ => .reject ⟨[], .eof⟩
  | .waits => .short

theorem readWithRetry_outcome (fd : Fd) (len : Int) :
    (readWithRetry fd len).outcome = Pipe.read len.toNat fd.pipe := by
  have hspec := retryLoop_spec len [] fd
  rw [readWithRetry]
  generalize retryLoop len [] fd = result at hspec ⊢
  cases hspec with
  | @complete taken rest hlength hstream hends =>
      symm
      rw [List.nil_append]
      apply Pipe.read_eq_ok.mpr
      refine ⟨hlength.trans (remaining_nil len), hstream, ?_⟩
      · rw [Fd.pipe, Fd.pipe, hends]
  | incomplete hlength hends =>
      have hshort : ¬len.toNat ≤ fd.stream.length := by
        rw [List.length_nil] at hlength
        omega
      rw [Pipe.read, Fd.pipe, if_neg hshort, hends]
      rfl
  | waits hlength hends =>
      have hshort : ¬len.toNat ≤ fd.stream.length := by
        rw [List.length_nil] at hlength
        omega
      rw [Pipe.read, Fd.pipe, if_neg hshort, hends]
      rfl

/-- **Exact reads.** `read_with_retry` is `true` exactly when the stream supplies `len` bytes; then
the buffer holds these and nothing behind them has been taken. It is `false` when the stream ends
before that. -/
theorem readWithRetry_exact (fd : Fd) (len : Int) :
    ((∃ data rest, readWithRetry fd len = .returned true data rest) ↔ len ≤ fd.stream.length) ∧
    (∀ data rest, readWithRetry fd len = .returned true data rest →
      data = fd.stream.take len.toNat ∧ rest.stream = fd.stream.drop len.toNat) ∧
    ((∃ data rest, readWithRetry fd len = .returned false data rest) ↔
      fd.stream.length < len ∧ fd.ends = true) := by
  have hspec := retryLoop_spec len [] fd
  rw [readWithRetry]
  generalize retryLoop len [] fd = result at hspec ⊢
  cases hspec with
  | @complete taken rest hlength hstream hends =>
      have htaken : taken.length = len.toNat := hlength.trans (remaining_nil len)
      have hle : len ≤ fd.stream.length := by
        rw [hstream, List.length_append]
        omega
      refine ⟨⟨fun _ => hle, fun _ => ⟨_, _, rfl⟩⟩, fun data last h => ?_, nofun, fun h => ?_⟩
      · cases h
        rw [hstream, ← htaken, List.take_left, List.drop_left]
        exact ⟨rfl, rfl⟩
      · exact absurd h.1 (Int.not_lt.mpr hle)
  | incomplete hlength hends =>
      rw [List.length_nil] at hlength
      refine ⟨⟨nofun, fun hle => ?_⟩, nofun, fun _ => ⟨?_, hends⟩, fun _ => ⟨_, _, rfl⟩⟩ <;> omega
  | waits hlength hends =>
      rw [List.length_nil] at hlength
      refine ⟨⟨nofun, fun hle => ?_⟩, nofun, nofun, fun h => ?_⟩
      · omega
      · rw [hends] at h
        cases h.2

/-- `read_with_timeout` beside a `read_with_retry` that nothing interrupts but what arrives. -/
theorem readWithTimeout_agrees (fd : Fd) (len : Int) {timeout : Nat}
    (hselect : fd.events.SelectInterrupted) :
    (∀ ret data rest, readWithRetry fd.arrivals len = .returned ret data rest →
      rest.clock ≤ fd.clock + timeout →
      ∃ left last, readWithTimeout fd len (some timeout) = .returned ret data (some left, last) ∧
        last.arrivals = rest) ∧
    ((∀ ret data rest, readWithRetry fd.arrivals len = .returned ret data rest →
      fd.clock + timeout < rest.clock) →
      ∃ data last, readWithTimeout fd len (some timeout) = .returned false data last) := by
  obtain ⟨hintime, hlate⟩ := timeoutLoop_eq len [] fd timeout hselect
  rw [readWithRetry, retryLoop_arrivals, readWithTimeout]
  refine ⟨fun ret data rest h hclock => ?_, fun hexpires => ?_⟩
  · cases hplain : retryLoop len [] fd with
    | returned ret' data' rest' =>
        rw [hplain] at h
        cases h
        rw [hintime _ _ _ hplain hclock]
        exact ⟨_, _, rfl, rfl⟩
    | waits =>
        rw [hplain] at h
        cases h
  · obtain ⟨data, rest, htimed, -⟩ := hlate fun ret data rest hplain => by
      apply hexpires ret data rest.arrivals
      rw [hplain]
      rfl
    rw [htimed]
    exact ⟨_, _, rfl⟩

theorem readWithTimeout_exact (fd : Fd) (len : Int) {timeout : Option Nat} {data : Bytes}
    {last : Option Nat × Fd} (h : readWithTimeout fd len timeout = .returned true data last) :
    len ≤ fd.stream.length ∧ data = fd.stream.take len.toNat ∧
      last.2.stream = fd.stream.drop len.toNat := by
  cases timeout with
  | none =>
      obtain ⟨hiff, hexact, -⟩ := readWithRetry_exact fd len
      rw [readWithTimeout] at h
      cases hplain : readWithRetry fd len with
      | returned ret data' rest =>
          rw [hplain] at h
          cases h
          exact ⟨hiff.mp ⟨_, _, hplain⟩, hexact _ _ hplain⟩
      | waits =>
          rw [hplain] at h
          cases h
  | some timeout =>
      have hspec := timeoutLoop_spec len rfl timeout [] fd
      rw [readWithTimeout] at h
      generalize timeoutLoop len true timeout [] fd = result at hspec h
      cases hspec with
      | @complete taken left rest hlength hstream =>
          cases h
          have htaken : taken.length = len.toNat := hlength.trans (remaining_nil len)
          rw [hstream, ← htaken, List.length_append, List.nil_append, List.take_left,
            List.drop_left]
          exact ⟨by omega, rfl, rfl⟩
      | incomplete => cases h

/-- **The read loops.** Both read exactly the next `len` bytes of the stream, however these arrive.
With a budget that lasts, `read_with_timeout` has the result, the buffer and the remaining stream of
`read_with_retry`, whatever interrupts its `select`s; with one that does not last it returns `false`;
and it is never `true` for a buffer that is only partly filled. -/
theorem read_loops (fd : Fd) (len : Int) :
    (((∃ data rest, readWithRetry fd len = .returned true data rest) ↔ len ≤ fd.stream.length) ∧
      (∀ data rest, readWithRetry fd len = .returned true data rest →
        data = fd.stream.take len.toNat ∧ rest.stream = fd.stream.drop len.toNat) ∧
      ((∃ data rest, readWithRetry fd len = .returned false data rest) ↔
        fd.stream.length < len ∧ fd.ends = true)) ∧
    (∀ timeout, fd.events.SelectInterrupted →
      (∀ ret data rest, readWithRetry fd.arrivals len = .returned ret data rest →
        rest.clock ≤ fd.clock + timeout →
        ∃ left last, readWithTimeout fd len (some timeout) = .returned ret data (some left, last) ∧
          last.arrivals = rest) ∧
      ((∀ ret data rest, readWithRetry fd.arrivals len = .returned ret data rest →
        fd.clock + timeout < rest.clock) →
        ∃ data last, readWithTimeout fd len (some timeout) = .returned false data last)) ∧
    ∀ timeout data last, readWithTimeout fd len timeout = .returned true data last →
      len ≤ fd.stream.length ∧ data = fd.stream.take len.toNat ∧
        last.2.stream = fd.stream.drop len.toNat := by
  refine ⟨readWithRetry_exact fd len, fun timeout hselect => ?_, fun timeout data last h => ?_⟩
  · exact readWithTimeout_agrees fd len hselect
  · exact readWithTimeout_exact fd len h

end CageKeeper
