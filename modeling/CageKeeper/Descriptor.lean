import CageKeeper.StreamReader

/-! A file descriptor in time. What is going to happen to it is a list of events with the time that
passes before each of them: bytes arrive, possibly some now and some later, the writer closes its end,
a call fails or is interrupted by a signal. `read` blocks until something happens that concerns it;
`select` blocks for at most the time it is given and stores what is left of it. -/

namespace ByteStream

/-- `errno` after a system call that has failed. -/
inductive Errno where
  | eintr
  | eagain
  | other
  deriving DecidableEq

inductive FdEvent where
  /-- At least one byte arrives. -/
  | bytes (first : UInt8) (more : Bytes)
  | eof
  /-- The next `read` fails. -/
  | readFails (errno : Errno)
  /-- A `select` that is waiting fails; `read` does not take notice. -/
  | selectFails (errno : Errno)
  deriving DecidableEq

/-- The events to come, each with the time that passes before it. -/
abbrev FdEvents := List (Nat × FdEvent)

/-- A descriptor, and the time that has been spent waiting for it. -/
structure Fd where
  clock : Nat
  events : FdEvents
  deriving DecidableEq

namespace FdEvents

/-- Bytes that a `read` leaves are there at once. -/
def leave : Bytes → FdEvents → FdEvents
  | [], events => events
  | first :: more, events => (0, .bytes first more) :: events

/-- The bytes that come before the end of the stream or a hard error. -/
def stream : FdEvents → Bytes
  | [] => []
  | (_, .bytes first more) :: events => first :: more ++ stream events
  | (_, .eof) :: _ => []
  | (_, .readFails .other) :: _ => []
  | (_, .readFails _) :: events => stream events
  | (_, .selectFails _) :: events => stream events

/-- Whether the bytes end there, and do not only stop for good. -/
def ends : FdEvents → Bool
  | [] => false
  | (_, .bytes _ _) :: events => ends events
  | (_, .eof) :: _ => true
  | (_, .readFails .other) :: _ => true
  | (_, .readFails _) :: events => ends events
  | (_, .selectFails _) :: events => ends events

/-- The events that `read` takes notice of. The time that passes before others is added to theirs. -/
def arrivals : (waited : Nat) → FdEvents → FdEvents
  | _, [] => []
  | waited, (delay, .selectFails _) :: events => arrivals (waited + delay) events
  | waited, (delay, event) :: events => (waited + delay, event) :: arrivals 0 events

/-- An upper bound on the number of calls in which an event shows up. -/
def calls : FdEvent → Nat
  | .bytes _ more => more.length + 2
  | _ => 1

/-- An upper bound on the number of calls that have an effect on the events. -/
def weight : FdEvents → Nat
  | [] => 0
  | (_, event) :: events => calls event + weight events

/-- Nothing but signals gets in the way of a `select`. -/
def SelectInterrupted (events : FdEvents) : Prop :=
  ∀ delay errno, (delay, FdEvent.selectFails errno) ∈ events → errno ≠ .other

@[simp] theorem stream_leave (bytes : Bytes) (events : FdEvents) :
    stream (leave bytes events) = bytes ++ stream events := by
  cases bytes <;> rfl

@[simp] theorem ends_leave (bytes : Bytes) (events : FdEvents) :
    ends (leave bytes events) = ends events := by
  cases bytes <;> rfl

@[simp] theorem arrivals_leave (bytes : Bytes) (events : FdEvents) :
    arrivals 0 (leave bytes events) = leave bytes (arrivals 0 events) := by
  cases bytes <;> rfl

theorem weight_cons (delay : Nat) (event : FdEvent) (events : FdEvents) :
    weight ((delay, event) :: events) = calls event + weight events := rfl

theorem weight_lt_cons (delay : Nat) (events : FdEvents) (event : FdEvent) :
    weight events < weight ((delay, event) :: events) := by
  rw [weight_cons]
  apply Nat.lt_add_of_pos_left
  cases event <;> simp [calls]

theorem weight_leave_le (bytes : Bytes) (events : FdEvents) :
    weight (leave bytes events) ≤ bytes.length + 1 + weight events := by
  cases bytes with
  | nil => exact Nat.le_add_left _ _
  | cons first more =>
      have hweight : weight (leave (first :: more) events)
          = (first :: more).length + 1 + weight events := by
        rw [leave, weight_cons, calls, List.length_cons]
      exact Nat.le_of_eq hweight

theorem SelectInterrupted.tail {event : Nat × FdEvent} {events : FdEvents}
    (h : SelectInterrupted (event :: events)) : SelectInterrupted events :=
  fun delay errno hmem => h delay errno (List.mem_cons_of_mem _ hmem)

theorem SelectInterrupted.leave {events : FdEvents} (h : SelectInterrupted events)
    (bytes : Bytes) : SelectInterrupted (leave bytes events) := by
  cases bytes with
  | nil => exact h
  | cons first more =>
      intro delay errno hmem
      rcases List.mem_cons.mp hmem with heq | hold
      · cases heq
      · exact h delay errno hold

end FdEvents

namespace Fd

/-- The bytes that come before the end of the stream or a hard error. -/
def stream (fd : Fd) : Bytes := fd.events.stream

def ends (fd : Fd) : Bool := fd.events.ends

/-- The pipe that the readers see: the bytes of the stream, and whether they end. -/
def pipe (fd : Fd) : Pipe := ⟨fd.stream, if fd.ends then .eof else .more⟩

/-- The descriptor when no `select` is interrupted. -/
def arrivals (fd : Fd) : Fd := ⟨fd.clock, fd.events.arrivals 0⟩

/-! ### `read` -/

/-- `read` with the events to come. It has no result if it waits for good. -/
def readEvents (count : Nat) : FdEvents → (clock : Nat) → Option (Except Errno Bytes × Fd)
  | [], _ => none
  | (delay, .bytes first more) :: events, clock =>
      some (.ok ((first :: more).take count),
        ⟨clock + delay, FdEvents.leave ((first :: more).drop count) events⟩)
  | (delay, .eof) :: events, clock => some (.ok [], ⟨clock + delay, events⟩)
  | (delay, .readFails errno) :: events, clock => some (.error errno, ⟨clock + delay, events⟩)
  | (delay, .selectFails _) :: events, clock => readEvents count events (clock + delay)

/-- `read` of at most `count` bytes. -/
def read (fd : Fd) (count : Nat) : Option (Except Errno Bytes × Fd) :=
  readEvents count fd.events fd.clock

/-- What a `read` says about the bytes of the stream. -/
inductive ReadSpec (count : Nat) (fd : Fd) : Option (Except Errno Bytes × Fd) → Prop where
  | waits (hstream : fd.stream = []) (hends : fd.ends = false) : ReadSpec count fd none
  | retries {errno : Errno} {rest : Fd} (herrno : errno ≠ .other)
      (hstream : rest.stream = fd.stream) (hends : rest.ends = fd.ends) :
      ReadSpec count fd (some (.error errno, rest))
  | fails {rest : Fd} (hstream : fd.stream = []) (hends : fd.ends = true) :
      ReadSpec count fd (some (.error .other, rest))
  | eof {rest : Fd} (hstream : fd.stream = []) (hends : fd.ends = true) :
      ReadSpec count fd (some (.ok [], rest))
  | takes {bytes : Bytes} {rest : Fd} (hne : bytes ≠ []) (hlength : bytes.length ≤ count)
      (hstream : fd.stream = bytes ++ rest.stream) (hends : rest.ends = fd.ends) :
      ReadSpec count fd (some (.ok bytes, rest))

/-- **One `read`.** -/
theorem read_spec {count : Nat} (hcount : 0 < count) (fd : Fd) :
    ReadSpec count fd (fd.read count) := by
  obtain ⟨clock, events⟩ := fd
  rw [read]
  induction events generalizing clock with
  | nil => exact .waits rfl rfl
  | cons next events ih =>
      obtain ⟨delay, event⟩ := next
      cases event with
      | bytes first more =>
          refine .takes ?_ (List.length_take_le ..) ?_ (FdEvents.ends_leave ..)
          · rw [ne_eq, List.take_eq_nil_iff]
            rintro (hzero | hnil)
            · exact absurd hzero (Nat.ne_of_gt hcount)
            · cases hnil
          · calc
              (first :: more) ++ FdEvents.stream events
                  = ((first :: more).take count ++ (first :: more).drop count)
                      ++ FdEvents.stream events := by rw [List.take_append_drop]
              _ = (first :: more).take count
                    ++ FdEvents.stream (FdEvents.leave ((first :: more).drop count) events) := by
                rw [FdEvents.stream_leave, List.append_assoc]
      | eof => exact .eof rfl rfl
      | readFails errno =>
          cases errno with
          | other => exact .fails rfl rfl
          | eintr => exact .retries nofun rfl rfl
          | eagain => exact .retries nofun rfl rfl
      | selectFails errno =>
          have hlater := ih (clock + delay)
          rw [readEvents]
          generalize readEvents count events (clock + delay) = result at hlater ⊢
          cases hlater with
          | waits hstream hends => exact .waits hstream hends
          | retries herrno hstream hends => exact .retries herrno hstream hends
          | fails hstream hends => exact .fails hstream hends
          | eof hstream hends => exact .eof hstream hends
          | takes hne hlength hstream hends => exact .takes hne hlength hstream hends

theorem read_weight {count : Nat} (hcount : 0 < count) {fd rest : Fd} {ret : Except Errno Bytes}
    (h : fd.read count = some (ret, rest)) :
    rest.events.weight < fd.events.weight := by
  obtain ⟨clock, events⟩ := fd
  rw [read] at h
  induction events generalizing clock with
  | nil => cases h
  | cons next events ih =>
      obtain ⟨delay, event⟩ := next
      have hless := FdEvents.weight_lt_cons delay events
      cases event with
      | bytes first more =>
          cases h
          apply Nat.lt_of_le_of_lt (FdEvents.weight_leave_le ..)
          rw [List.length_drop, List.length_cons, FdEvents.weight_cons, FdEvents.calls]
          omega
      | eof =>
          cases h
          exact hless .eof
      | readFails errno =>
          cases h
          exact hless (.readFails errno)
      | selectFails errno =>
          exact Nat.lt_trans (ih (clock + delay) h) (hless (.selectFails errno))

theorem read_weight_bytes {count : Nat} {fd rest : Fd} {bytes : Bytes}
    (h : fd.read count = some (.ok bytes, rest)) :
    rest.events.weight + bytes.length ≤ fd.events.weight := by
  obtain ⟨clock, events⟩ := fd
  rw [read] at h
  induction events generalizing clock with
  | nil => cases h
  | cons next events ih =>
      obtain ⟨delay, event⟩ := next
      have hless := FdEvents.weight_lt_cons delay events
      cases event with
      | bytes first more =>
          cases h
          have hleave := FdEvents.weight_leave_le ((first :: more).drop count) events
          rw [List.length_drop, List.length_cons] at hleave
          simp only [List.length_take, List.length_cons, FdEvents.weight_cons, FdEvents.calls]
          by_cases hall : more.length + 1 ≤ count
          · rw [List.drop_eq_nil_of_le hall, FdEvents.leave]
            omega
          · omega
      | eof =>
          cases h
          exact Nat.le_of_lt (hless .eof)
      | readFails errno => cases h
      | selectFails errno =>
          exact Nat.le_trans (ih (clock + delay) h) (Nat.le_of_lt (hless (.selectFails errno)))

theorem read_clock_le (fd : Fd) {count : Nat} {rest : Fd} {ret : Except Errno Bytes}
    (h : fd.read count = some (ret, rest)) : fd.clock ≤ rest.clock := by
  obtain ⟨clock, events⟩ := fd
  rw [read] at h
  induction events generalizing clock with
  | nil => cases h
  | cons next events ih =>
      obtain ⟨delay, event⟩ := next
      cases event with
      | selectFails errno => exact Nat.le_trans (Nat.le_add_right ..) (ih (clock + delay) h)
      | bytes first more =>
          cases h
          exact Nat.le_add_right ..
      | eof =>
          cases h
          exact Nat.le_add_right ..
      | readFails errno =>
          cases h
          exact Nat.le_add_right ..

theorem readEvents_delay (count delay : Nat) (event : FdEvent) (events : FdEvents) (clock : Nat) :
    readEvents count ((delay, event) :: events) clock
      = readEvents count ((0, event) :: events) (clock + delay) := by
  cases event <;> rfl

theorem readEvents_now (count : Nat) {event : FdEvent} (hevent : ∀ errno, event ≠ .selectFails errno)
    (events : FdEvents) (clock : Nat) :
    ∃ ret rest, readEvents count ((0, event) :: events) clock = some (ret, rest) ∧
      rest.clock = clock := by
  cases event with
  | selectFails errno => exact absurd rfl (hevent errno)
  | bytes first more => exact ⟨_, _, rfl, rfl⟩
  | eof => exact ⟨_, _, rfl, rfl⟩
  | readFails errno => exact ⟨_, _, rfl, rfl⟩

theorem read_arrivals (fd : Fd) (count : Nat) :
    fd.arrivals.read count = (fd.read count).map fun result => (result.1, result.2.arrivals) := by
  obtain ⟨clock, events⟩ := fd
  have hwaited : ∀ waited, readEvents count (FdEvents.arrivals waited events) clock
      = (readEvents count events (clock + waited)).map
          fun result => (result.1, result.2.arrivals) := by
    induction events generalizing clock with
    | nil => exact fun _ => rfl
    | cons next events ih =>
        intro waited
        obtain ⟨delay, event⟩ := next
        cases event with
        | bytes first more =>
            simp only [FdEvents.arrivals, readEvents, Option.map_some, Nat.add_assoc, arrivals,
              FdEvents.arrivals_leave]
        | eof => simp only [FdEvents.arrivals, readEvents, Option.map_some, Nat.add_assoc, arrivals]
        | readFails errno =>
            simp only [FdEvents.arrivals, readEvents, Option.map_some, Nat.add_assoc, arrivals]
        | selectFails errno =>
            rw [FdEvents.arrivals, ih, readEvents, Nat.add_assoc]
  exact hwaited 0

theorem read_selectInterrupted {count : Nat} {fd rest : Fd} {ret : Except Errno Bytes}
    (h : fd.read count = some (ret, rest)) (hselect : fd.events.SelectInterrupted) :
    rest.events.SelectInterrupted := by
  obtain ⟨clock, events⟩ := fd
  rw [read] at h
  induction events generalizing clock with
  | nil => cases h
  | cons next events ih =>
      obtain ⟨delay, event⟩ := next
      cases event with
      | selectFails errno => exact ih (clock + delay) h hselect.tail
      | bytes first more =>
          cases h
          exact hselect.tail.leave _
      | eof =>
          cases h
          exact hselect.tail
      | readFails errno =>
          cases h
          exact hselect.tail

/-! ### `select` -/

/-- What `select` returns, whether the descriptor is in the set it has stored, and the time it has
stored. -/
structure Selected where
  ret : Except Errno Nat
  readfds : Bool
  timeout : Nat
  fd : Fd

/-- `select` with the events to come. `readfds` says whether the descriptor is in the set; an error
leaves the set alone. -/
def selectEvents (readfds : Bool) : (timeout : Nat) → FdEvents → (clock : Nat) → Selected
  | timeout, [], clock => ⟨.ok 0, false, 0, ⟨clock + timeout, []⟩⟩
  | timeout, (delay, event) :: events, clock =>
      if timeout < delay then
        ⟨.ok 0, false, 0, ⟨clock + timeout, (delay - timeout, event) :: events⟩⟩
      else
        match event with
        | .selectFails errno =>
            ⟨.error errno, readfds, timeout - delay, ⟨clock + delay, events⟩⟩
        | event =>
            if readfds then
              ⟨.ok 1, true, timeout - delay, ⟨clock + delay, (0, event) :: events⟩⟩
            else
              let later := selectEvents readfds (timeout - delay) events (clock + delay)
              { later with fd := ⟨later.fd.clock, (0, event) :: later.fd.events⟩ }

/-- `select` on one descriptor. -/
def select (fd : Fd) (readfds : Bool) (timeout : Nat) : Selected :=
  selectEvents readfds timeout fd.events fd.clock

theorem selectEvents_late {timeout delay : Nat} (hlate : timeout < delay) (readfds : Bool)
    (event : FdEvent) (events : FdEvents) (clock : Nat) :
    selectEvents readfds timeout ((delay, event) :: events) clock
      = ⟨.ok 0, false, 0, ⟨clock + timeout, (delay - timeout, event) :: events⟩⟩ := by
  unfold selectEvents
  exact if_pos hlate

theorem selectEvents_arrival {timeout delay : Nat} (hlate : ¬timeout < delay) (readfds : Bool)
    {event : FdEvent} (hevent : ∀ errno, event ≠ .selectFails errno) (events : FdEvents)
    (clock : Nat) :
    selectEvents readfds timeout ((delay, event) :: events) clock
      = if readfds then ⟨.ok 1, true, timeout - delay, ⟨clock + delay, (0, event) :: events⟩⟩
        else
          let later := selectEvents readfds (timeout - delay) events (clock + delay)
          { later with fd := ⟨later.fd.clock, (0, event) :: later.fd.events⟩ } := by
  cases event with
  | selectFails errno => exact absurd rfl (hevent errno)
  | bytes first more => exact if_neg hlate
  | eof => exact if_neg hlate
  | readFails errno => exact if_neg hlate

theorem selectEvents_fails {timeout delay : Nat} (hlate : ¬timeout < delay) (readfds : Bool)
    (errno : Errno) (events : FdEvents) (clock : Nat) :
    selectEvents readfds timeout ((delay, .selectFails errno) :: events) clock
      = ⟨.error errno, readfds, timeout - delay, ⟨clock + delay, events⟩⟩ := by
  exact if_neg hlate

/-- An event that makes a `select` fail, or one that makes the descriptor readable. -/
theorem selectFails_or (event : FdEvent) :
    (∃ errno, event = .selectFails errno) ∨ ∀ errno, event ≠ .selectFails errno := by
  cases event with
  | selectFails errno => exact Or.inl ⟨errno, rfl⟩
  | bytes first more => exact Or.inr nofun
  | eof => exact Or.inr nofun
  | readFails errno => exact Or.inr nofun

/-- What `select` comes to when the descriptor is in the set. -/
inductive SelectSpec (fd : Fd) : Selected → Prop where
  | expires {rest : Fd} (hstream : rest.stream = fd.stream) (hends : rest.ends = fd.ends) :
      SelectSpec fd ⟨.ok 0, false, 0, rest⟩
  | fails {errno : Errno} {left : Nat} {rest : Fd} (hstream : rest.stream = fd.stream)
      (hends : rest.ends = fd.ends) : SelectSpec fd ⟨.error errno, true, left, rest⟩
  | ready {left clock : Nat} {event : FdEvent} {events : FdEvents}
      (hevent : ∀ errno, event ≠ .selectFails errno)
      (hstream : Fd.stream ⟨clock, (0, event) :: events⟩ = fd.stream)
      (hends : Fd.ends ⟨clock, (0, event) :: events⟩ = fd.ends) :
      SelectSpec fd ⟨.ok 1, true, left, ⟨clock, (0, event) :: events⟩⟩

theorem stream_delay (delay delay' : Nat) (event : FdEvent) (events : FdEvents) :
    FdEvents.stream ((delay, event) :: events) = FdEvents.stream ((delay', event) :: events) ∧
      FdEvents.ends ((delay, event) :: events) = FdEvents.ends ((delay', event) :: events) := by
  cases event with
  | bytes first more => exact ⟨rfl, rfl⟩
  | eof => exact ⟨rfl, rfl⟩
  | readFails errno => cases errno <;> exact ⟨rfl, rfl⟩
  | selectFails errno => exact ⟨rfl, rfl⟩

theorem select_spec (fd : Fd) (timeout : Nat) : SelectSpec fd (fd.select true timeout) := by
  obtain ⟨clock, events⟩ := fd
  rw [select]
  match events with
  | [] => exact .expires rfl rfl
  | (delay, event) :: events =>
      by_cases hlate : timeout < delay
      · rw [selectEvents_late hlate]
        have hsame := stream_delay (delay - timeout) delay event events
        exact .expires hsame.1 hsame.2
      rcases selectFails_or event with ⟨errno, rfl⟩ | hevent
      · rw [selectEvents_fails hlate]
        exact .fails rfl rfl
      · rw [selectEvents_arrival hlate true hevent]
        have hsame := stream_delay 0 delay event events
        exact .ready hevent hsame.1 hsame.2

/-- Time has passed only as far as a budget has paid for it, and no events have been added. -/
structure Paid (timeout : Nat) (fd : Fd) (left : Nat) (rest : Fd) : Prop where
  total : rest.clock + left = fd.clock + timeout
  clock_le : fd.clock ≤ rest.clock
  weight_le : rest.events.weight ≤ fd.events.weight

theorem Paid.refl (timeout : Nat) (fd : Fd) : Paid timeout fd timeout fd :=
  ⟨rfl, Nat.le_refl _, Nat.le_refl _⟩

theorem Paid.trans {timeout middle left : Nat} {fd next rest : Fd}
    (h : Paid timeout fd middle next) (h' : Paid middle next left rest) :
    Paid timeout fd left rest :=
  ⟨h'.total.trans h.total, Nat.le_trans h.clock_le h'.clock_le,
    Nat.le_trans h'.weight_le h.weight_le⟩

/-- **One `select`.** What it has waited is paid for by the time it was given, and if it fails it has
used up one of the events. -/
theorem select_paid (fd : Fd) (readfds : Bool) (timeout : Nat) :
    Paid timeout fd (fd.select readfds timeout).timeout (fd.select readfds timeout).fd ∧
      ∀ errno, (fd.select readfds timeout).ret = .error errno →
        (fd.select readfds timeout).fd.events.weight < fd.events.weight := by
  obtain ⟨clock, events⟩ := fd
  rw [select]
  induction events generalizing timeout clock with
  | nil => exact ⟨⟨rfl, Nat.le_add_right .., Nat.le_refl _⟩, nofun⟩
  | cons next events ih =>
      obtain ⟨delay, event⟩ := next
      have hsame : ∀ time, FdEvents.weight ((time, event) :: events)
          = FdEvents.weight ((delay, event) :: events) := fun time => by
        rw [FdEvents.weight_cons, FdEvents.weight_cons]
      by_cases hlate : timeout < delay
      · rw [selectEvents_late hlate]
        exact ⟨⟨rfl, Nat.le_add_right .., Nat.le_of_eq (hsame _)⟩, nofun⟩
      have htotal : clock + delay + (timeout - delay) = clock + timeout := by omega
      rcases selectFails_or event with ⟨errno, rfl⟩ | hevent
      · rw [selectEvents_fails hlate]
        have hless := FdEvents.weight_lt_cons delay events (.selectFails errno)
        exact ⟨⟨htotal, Nat.le_add_right .., Nat.le_of_lt hless⟩, fun _ _ => hless⟩
      · rw [selectEvents_arrival hlate readfds hevent]
        cases readfds with
        | true => exact ⟨⟨htotal, Nat.le_add_right .., Nat.le_of_eq (hsame 0)⟩, nofun⟩
        | false =>
            obtain ⟨hpaid, hlt⟩ := ih (timeout - delay) (clock + delay)
            have hmore : ∀ {rest : FdEvents}, rest.weight ≤ FdEvents.weight events →
                FdEvents.weight ((0, event) :: rest) ≤ FdEvents.weight ((delay, event) :: events) :=
              fun hle => by
                rw [FdEvents.weight_cons, FdEvents.weight_cons]
                exact Nat.add_le_add_left hle _
            refine ⟨⟨hpaid.total.trans htotal, ?_, hmore hpaid.weight_le⟩, fun errno h => ?_⟩
            · exact Nat.le_trans (Nat.le_add_right ..) hpaid.clock_le
            · simp only [Bool.false_eq_true, if_false, FdEvents.weight_cons]
              exact Nat.add_lt_add_left (hlt errno h) _

end Fd

end ByteStream
