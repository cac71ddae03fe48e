import Mathlib.Data.List.Basic
import Mathlib.Tactic.Common

/-! Readers over a byte channel. A reader takes what it needs from the front of a channel; besides
succeeding and failing it can find that the bytes it needs have not arrived, which is where a
process blocks, or that it has no stack frame left. Readers are generic in the channel; the
theory here is about `Pipe`, a byte string together with what follows its last byte. -/

namespace ByteStream

abbrev Bytes := List UInt8

inductive Outcome (χ α : Type) where
  /-- The reader returns a value. -/
  | ok (value : α) (rest : χ)
  /-- The reader reports a failure to its caller. -/
  | reject (rest : χ)
  /-- The reader waits for bytes that have not arrived. -/
  | short
  /-- The reader calls itself deeper than the stack frames it was given. -/
  | exhausted

namespace Outcome

variable {χ α β : Type}

def bind (outcome : Outcome χ α) (next : α → χ → Outcome χ β) : Outcome χ β :=
  match outcome with
  | .ok value rest => next value rest
  | .reject rest => .reject rest
  | .short => .short
  | .exhausted => .exhausted

/-- The caller tests for failure and goes on, as C code does with a returned `NULL`. -/
def attempt : Outcome χ α → Outcome χ (Option α)
  | .ok value rest => .ok (some value) rest
  | .reject rest => .ok none rest
  | .short => .short
  | .exhausted => .exhausted

@[simp] theorem bind_ok (value : α) (rest : χ) (next : α → χ → Outcome χ β) :
    (ok value rest).bind next = next value rest := rfl

@[simp] theorem bind_reject (rest : χ) (next : α → χ → Outcome χ β) :
    (reject rest : Outcome χ α).bind next = reject rest := rfl

@[simp] theorem bind_short (next : α → χ → Outcome χ β) :
    (short : Outcome χ α).bind next = short := rfl

@[simp] theorem bind_exhausted (next : α → χ → Outcome χ β) :
    (exhausted : Outcome χ α).bind next = exhausted := rfl

@[simp] theorem attempt_ok (value : α) (rest : χ) :
    (ok value rest).attempt = ok (some value) rest := rfl

@[simp] theorem attempt_reject (rest : χ) :
    (reject rest : Outcome χ α).attempt = ok none rest := rfl

@[simp] theorem attempt_short : (short : Outcome χ α).attempt = short := rfl

@[simp] theorem attempt_exhausted : (exhausted : Outcome χ α).attempt = exhausted := rfl

theorem bind_eq_ok {outcome : Outcome χ α} {next : α → χ → Outcome χ β} {value : β} {rest : χ} :
    outcome.bind next = .ok value rest ↔
      ∃ first middle, outcome = .ok first middle ∧ next first middle = .ok value rest := by
  cases outcome <;> simp [bind]

theorem bind_eq_reject {outcome : Outcome χ α} {next : α → χ → Outcome χ β} {rest : χ} :
    outcome.bind next = .reject rest ↔
      outcome = .reject rest ∨
        ∃ first middle, outcome = .ok first middle ∧ next first middle = .reject rest := by
  cases outcome <;> simp [bind]

theorem bind_eq_short {outcome : Outcome χ α} {next : α → χ → Outcome χ β} :
    outcome.bind next = .short ↔
      outcome = .short ∨ ∃ first middle, outcome = .ok first middle ∧ next first middle = .short := by
  cases outcome <;> simp [bind]

theorem bind_eq_exhausted {outcome : Outcome χ α} {next : α → χ → Outcome χ β} :
    outcome.bind next = .exhausted ↔
      outcome = .exhausted ∨
        ∃ first middle, outcome = .ok first middle ∧ next first middle = .exhausted := by
  cases outcome <;> simp [bind]

theorem attempt_eq_ok {outcome : Outcome χ α} {value : Option α} {rest : χ} :
    outcome.attempt = .ok value rest ↔
      (∃ inner, value = some inner ∧ outcome = .ok inner rest) ∨
        (value = none ∧ outcome = .reject rest) := by
  cases outcome <;> cases value <;> simp [attempt]

end Outcome

/-- A reader of values of type `α` from a channel of type `χ`. -/
def Reader (χ α : Type) := χ → Outcome χ α

namespace Reader

variable {χ α β : Type}

instance : Monad (Reader χ) where
  pure value := fun channel => .ok value channel
  bind reader next := fun channel => (reader channel).bind fun value rest => next value rest

def reject : Reader χ α := fun channel => .reject channel

def exhausted : Reader χ α := fun _ => .exhausted

def attempt (reader : Reader χ α) : Reader χ (Option α) := fun channel => (reader channel).attempt

@[simp] theorem pure_apply (value : α) (channel : χ) :
    (pure value : Reader χ α) channel = .ok value channel := rfl

@[simp] theorem bind_apply (reader : Reader χ α) (next : α → Reader χ β) (channel : χ) :
    (reader >>= next) channel = (reader channel).bind fun value rest => next value rest := rfl

@[simp] theorem reject_apply (channel : χ) : (reject : Reader χ α) channel = .reject channel := rfl

@[simp] theorem exhausted_apply (channel : χ) : (exhausted : Reader χ α) channel = .exhausted := rfl

@[simp] theorem attempt_apply (reader : Reader χ α) (channel : χ) :
    reader.attempt channel = (reader channel).attempt := rfl

@[simp] theorem ite_apply (condition : Prop) [Decidable condition] (left right : Reader χ α)
    (channel : χ) : (if condition then left else right) channel =
      if condition then left channel else right channel := by
  split <;> rfl

end Reader

/-- A source of bytes: how a block of a given length is read from it, and a bound on the number of
bytes it can still deliver. -/
class Channel (χ : Type) where
  read : Nat → Reader χ Bytes
  left : χ → Nat

/-! ### Stack frames -/

namespace Reader

variable {χ α β : Type}

/-- The second reader does what the first one does wherever the first one has stack enough. -/
def Below (lower upper : Reader χ α) : Prop :=
  ∀ channel, lower channel ≠ .exhausted → upper channel = lower channel

theorem Below.refl (reader : Reader χ α) : reader.Below reader := fun _ _ => rfl

theorem Below.exhausted (upper : Reader χ α) : (Reader.exhausted : Reader χ α).Below upper :=
  fun _ h => absurd rfl h

theorem Below.bind {lower upper : Reader χ α} {next next' : α → Reader χ β}
    (hreader : lower.Below upper) (hnext : ∀ value, (next value).Below (next' value)) :
    (lower >>= next).Below (upper >>= next') := by
  intro channel h
  simp only [bind_apply] at h ⊢
  have hlower : lower channel ≠ .exhausted := fun heq => h (by rw [heq]; rfl)
  rw [hreader channel hlower]
  cases hfirst : lower channel with
  | ok value rest =>
      rw [hfirst] at h
      exact hnext value rest h
  | reject rest => rfl
  | short => rfl
  | exhausted => rfl

theorem Below.ite {condition : Prop} [Decidable condition] {left right left' right' : Reader χ α}
    (hleft : left.Below left') (hright : right.Below right') :
    (if condition then left else right).Below (if condition then left' else right') := by
  split
  · exact hleft
  · exact hright

/-- A reader run with more stack frames than there can be bytes. -/
def withFrames [Channel χ] (reader : Nat → Reader χ α) : Reader χ α := fun channel =>
  reader (Channel.left channel + 1) channel

/-! ### What runs keep -/

/-- No run of the reader waits, and what it leaves of a channel is related to what there was. -/
def Runs (R : χ → χ → Prop) (reader : Reader χ α) : Prop :=
  ∀ channel, match reader channel with
    | .ok _ rest => R channel rest
    | .reject rest => R channel rest
    | .short => False
    | .exhausted => True

namespace Runs

variable {R : χ → χ → Prop} {reader : Reader χ α}

theorem pure (hrefl : ∀ channel, R channel channel) (value : α) :
    (Pure.pure value : Reader χ α).Runs R :=
  hrefl

theorem reject (hrefl : ∀ channel, R channel channel) : (Reader.reject : Reader χ α).Runs R :=
  hrefl

theorem exhausted : (Reader.exhausted : Reader χ α).Runs R := fun _ => trivial

theorem bind (htrans : ∀ first middle last, R first middle → R middle last → R first last)
    {next : α → Reader χ β} (hreader : reader.Runs R) (hnext : ∀ value, (next value).Runs R) :
    (reader >>= next).Runs R := by
  intro channel
  have hfirst := hreader channel
  rw [bind_apply]
  cases hresult : reader channel with
  | ok value rest =>
      rw [hresult] at hfirst
      have hlater := hnext value rest
      rw [Outcome.bind_ok]
      cases hend : next value rest with
      | ok value' last =>
          rw [hend] at hlater
          exact htrans _ _ _ hfirst hlater
      | reject last =>
          rw [hend] at hlater
          exact htrans _ _ _ hfirst hlater
      | short =>
          rw [hend] at hlater
          exact hlater
      | exhausted => trivial
  | reject rest =>
      rw [hresult] at hfirst
      exact hfirst
  | short =>
      rw [hresult] at hfirst
      exact hfirst
  | exhausted => trivial

theorem ite {condition : Prop} [Decidable condition] {left right : Reader χ α}
    (hleft : left.Runs R) (hright : right.Runs R) :
    (if condition then left else right).Runs R := by
  split
  · exact hleft
  · exact hright

theorem attempt (hreader : reader.Runs R) : reader.attempt.Runs R := by
  intro channel
  have hrun := hreader channel
  rw [attempt_apply]
  cases hresult : reader channel with
  | ok value rest =>
      rw [hresult] at hrun
      exact hrun
  | reject rest =>
      rw [hresult] at hrun
      exact hrun
  | short =>
      rw [hresult] at hrun
      exact hrun
  | exhausted => trivial

theorem withFrames [Channel χ] {reader : Nat → Reader χ α} (h : ∀ frames, (reader frames).Runs R) :
    (Reader.withFrames reader).Runs R :=
  fun channel => h _ channel

/-- A run that does not use up its stack frames leaves a channel. -/
theorem exists_rest (hrun : reader.Runs R) {channel : χ} (hframes : reader channel ≠ .exhausted) :
    (∃ value rest, reader channel = .ok value rest ∧ R channel rest) ∨
      ∃ rest, reader channel = .reject rest ∧ R channel rest := by
  have hresult := hrun channel
  cases hend : reader channel with
  | ok value rest =>
      rw [hend] at hresult
      exact Or.inl ⟨value, rest, rfl, hresult⟩
  | reject rest =>
      rw [hend] at hresult
      exact Or.inr ⟨rest, rfl, hresult⟩
  | short =>
      rw [hend] at hresult
      exact hresult.elim
  | exhausted => exact absurd hend hframes

end Runs

end Reader

inductive Ending where
  /-- The writer is alive: a read past the last byte waits. -/
  | more
  /-- The writer has closed its end. -/
  | eof
  /-- The time budget of the reader runs out before another byte arrives. -/
  | timeout
  /-- The time budget of the reader has run out. -/
  | expired
  deriving DecidableEq

/-- The bytes that have arrived at a reader, and what follows them. -/
structure Pipe where
  bytes : Bytes
  ending : Ending
  deriving DecidableEq

namespace Pipe

/-- A read of `count` bytes. One that cannot be completed uses up what is there. -/
def read (count : Nat) : Reader Pipe Bytes := fun pipe =>
  if count ≤ pipe.bytes.length then
    .ok (pipe.bytes.take count) ⟨pipe.bytes.drop count, pipe.ending⟩
  else
    match pipe.ending with
    | .more => .short
    | .timeout => .reject ⟨[], .expired⟩
    | ending => .reject ⟨[], ending⟩

instance : Channel Pipe where
  read := read
  left pipe := pipe.bytes.length

@[simp] theorem channel_read : (Channel.read : Nat → Reader Pipe Bytes) = read := rfl

@[simp] theorem channel_left (pipe : Pipe) : Channel.left pipe = pipe.bytes.length := rfl

/-- A block that has arrived is read and nothing else is touched. -/
theorem read_append (block rest : Bytes) (ending : Ending) :
    read block.length ⟨block ++ rest, ending⟩ = .ok block ⟨rest, ending⟩ := by
  simp [read]

theorem read_of_length_eq {count : Nat} {block : Bytes} (hlength : block.length = count)
    (rest : Bytes) (ending : Ending) :
    read count ⟨block ++ rest, ending⟩ = .ok block ⟨rest, ending⟩ := by
  subst hlength
  exact read_append block rest ending

theorem read_eq_ok {count : Nat} {pipe rest : Pipe} {block : Bytes} :
    read count pipe = .ok block rest ↔
      block.length = count ∧ pipe.bytes = block ++ rest.bytes ∧ rest.ending = pipe.ending := by
  obtain ⟨bytes, ending⟩ := pipe
  obtain ⟨restBytes, restEnding⟩ := rest
  constructor
  · intro h
    simp only [read] at h
    split at h
    · injection h with hblock hrest
      injection hrest with hbytes hending
      subst hblock hbytes hending
      exact ⟨List.length_take_of_le ‹count ≤ bytes.length›, by simp, rfl⟩
    · cases ending <;> simp at h
  · rintro ⟨hlength, hbytes, hending⟩
    simp only at hbytes hending
    subst hbytes hending
    exact read_of_length_eq hlength restBytes _

theorem read_eq_reject {count : Nat} {pipe rest : Pipe} (h : read count pipe = .reject rest) :
    pipe.bytes.length < count ∧ rest.bytes = [] ∧ pipe.ending ≠ .more ∧ rest.ending ≠ .more := by
  obtain ⟨bytes, ending⟩ := pipe
  simp only [read] at h
  split at h
  · simp at h
  · cases ending <;> simp at h <;> subst h <;> simp <;> omega

theorem read_ne_exhausted (count : Nat) (pipe : Pipe) : read count pipe ≠ .exhausted := by
  obtain ⟨bytes, ending⟩ := pipe
  simp only [read]
  split
  · simp
  · cases ending <;> simp

end Pipe

/-- What every reader built from block reads does: it takes a prefix of the bytes, a verdict
reached on the bytes present is not changed by later ones, and on a finished pipe it does not
wait. -/
structure Reader.Lawful {α : Type} (reader : Reader Pipe α) : Prop where
  ok_taken : ∀ {pipe value rest}, reader pipe = .ok value rest →
    ∃ taken, pipe.bytes = taken ++ rest.bytes
  reject_taken : ∀ {pipe rest}, reader pipe = .reject rest →
    ∃ taken, pipe.bytes = taken ++ rest.bytes
  ok_ending : ∀ {pipe value rest}, reader pipe = .ok value rest →
    (rest.ending = .more ↔ pipe.ending = .more)
  reject_ending : ∀ {pipe rest}, reader pipe = .reject rest →
    (rest.ending = .more ↔ pipe.ending = .more)
  ok_extend : ∀ {bytes value rest}, reader ⟨bytes, .more⟩ = .ok value rest →
    ∀ later ending, reader ⟨bytes ++ later, ending⟩ = .ok value ⟨rest.bytes ++ later, ending⟩
  reject_extend : ∀ {bytes rest}, reader ⟨bytes, .more⟩ = .reject rest →
    ∀ later ending, reader ⟨bytes ++ later, ending⟩ = .reject ⟨rest.bytes ++ later, ending⟩
  not_short : ∀ {pipe}, pipe.ending ≠ .more → reader pipe ≠ .short

namespace Reader.Lawful

variable {α β : Type}

theorem read (count : Nat) : (Pipe.read count).Lawful where
  ok_taken h := ⟨_, (Pipe.read_eq_ok.mp h).2.1⟩
  reject_taken {pipe rest} h := ⟨pipe.bytes, by rw [(Pipe.read_eq_reject h).2.1, List.append_nil]⟩
  ok_ending h := by rw [(Pipe.read_eq_ok.mp h).2.2]
  reject_ending h := iff_of_false (Pipe.read_eq_reject h).2.2.2 (Pipe.read_eq_reject h).2.2.1
  ok_extend h later ending := by
    obtain ⟨hlength, hbytes, -⟩ := Pipe.read_eq_ok.mp h
    exact Pipe.read_eq_ok.mpr ⟨hlength, by simp only at hbytes ⊢; rw [hbytes, List.append_assoc], rfl⟩
  reject_extend h := absurd rfl (Pipe.read_eq_reject h).2.2.1
  not_short {pipe} hclosed h := by
    obtain ⟨bytes, ending⟩ := pipe
    simp only [Pipe.read] at h
    split at h
    · simp at h
    · cases ending <;> simp at h hclosed

theorem pure (value : α) : (Pure.pure value : Reader Pipe α).Lawful where
  ok_taken h := by injection h with _ h; subst h; exact ⟨[], rfl⟩
  reject_taken h := by simp at h
  ok_ending h := by injection h with _ h; subst h; rfl
  reject_ending h := by simp at h
  ok_extend h later ending := by injection h with hv h; subst hv h; rfl
  reject_extend h := by simp at h
  not_short _ h := by simp at h

theorem reject : (Reader.reject : Reader Pipe α).Lawful where
  ok_taken h := by simp at h
  reject_taken h := by injection h with h; subst h; exact ⟨[], rfl⟩
  ok_ending h := by simp at h
  reject_ending h := by injection h with h; subst h; rfl
  ok_extend h := by simp at h
  reject_extend h later ending := by injection h with h; subst h; rfl
  not_short _ h := by simp at h

theorem exhausted : (Reader.exhausted : Reader Pipe α).Lawful where
  ok_taken h := by simp at h
  reject_taken h := by simp at h
  ok_ending h := by simp at h
  reject_ending h := by simp at h
  ok_extend h := by simp at h
  reject_extend h := by simp at h
  not_short _ h := by simp at h

theorem bind {reader : Reader Pipe α} {next : α → Reader Pipe β} (hreader : reader.Lawful)
    (hnext : ∀ value, (next value).Lawful) : (reader >>= next).Lawful where
  ok_taken h := by
    obtain ⟨first, middle, hfirst, hsecond⟩ := Outcome.bind_eq_ok.mp h
    obtain ⟨taken, htaken⟩ := hreader.ok_taken hfirst
    obtain ⟨more, hmore⟩ := (hnext first).ok_taken hsecond
    exact ⟨taken ++ more, by rw [htaken, hmore, List.append_assoc]⟩
  reject_taken h := by
    rcases Outcome.bind_eq_reject.mp h with hfirst | ⟨first, middle, hfirst, hsecond⟩
    · exact hreader.reject_taken hfirst
    · obtain ⟨taken, htaken⟩ := hreader.ok_taken hfirst
      obtain ⟨more, hmore⟩ := (hnext first).reject_taken hsecond
      exact ⟨taken ++ more, by rw [htaken, hmore, List.append_assoc]⟩
  ok_ending h := by
    obtain ⟨first, middle, hfirst, hsecond⟩ := Outcome.bind_eq_ok.mp h
    exact ((hnext first).ok_ending hsecond).trans (hreader.ok_ending hfirst)
  reject_ending h := by
    rcases Outcome.bind_eq_reject.mp h with hfirst | ⟨first, middle, hfirst, hsecond⟩
    · exact hreader.reject_ending hfirst
    · exact ((hnext first).reject_ending hsecond).trans (hreader.ok_ending hfirst)
  ok_extend h later ending := by
    obtain ⟨first, ⟨bytes, middle⟩, hfirst, hsecond⟩ := Outcome.bind_eq_ok.mp h
    have hmore : middle = .more := (hreader.ok_ending hfirst).mpr rfl
    subst hmore
    rw [Reader.bind_apply, hreader.ok_extend hfirst, Outcome.bind_ok]
    exact (hnext first).ok_extend hsecond later ending
  reject_extend h later ending := by
    rcases Outcome.bind_eq_reject.mp h with hfirst | ⟨first, ⟨bytes, middle⟩, hfirst, hsecond⟩
    · rw [Reader.bind_apply, hreader.reject_extend hfirst, Outcome.bind_reject]
    · have hmore : middle = .more := (hreader.ok_ending hfirst).mpr rfl
      subst hmore
      rw [Reader.bind_apply, hreader.ok_extend hfirst, Outcome.bind_ok]
      exact (hnext first).reject_extend hsecond later ending
  not_short hclosed h := by
    rcases Outcome.bind_eq_short.mp h with hfirst | ⟨first, middle, hfirst, hsecond⟩
    · exact hreader.not_short hclosed hfirst
    · exact (hnext first).not_short (fun hmore => hclosed ((hreader.ok_ending hfirst).mp hmore)) hsecond

theorem attempt {reader : Reader Pipe α} (hreader : reader.Lawful) : reader.attempt.Lawful where
  ok_taken h := by
    rcases Outcome.attempt_eq_ok.mp h with ⟨inner, -, hinner⟩ | ⟨-, hinner⟩
    · exact hreader.ok_taken hinner
    · exact hreader.reject_taken hinner
  reject_taken {pipe rest} h := by
    simp only [Reader.attempt_apply] at h
    cases hinner : reader pipe <;> simp [hinner] at h
  ok_ending h := by
    rcases Outcome.attempt_eq_ok.mp h with ⟨inner, -, hinner⟩ | ⟨-, hinner⟩
    · exact hreader.ok_ending hinner
    · exact hreader.reject_ending hinner
  reject_ending {pipe rest} h := by
    simp only [Reader.attempt_apply] at h
    cases hinner : reader pipe <;> simp [hinner] at h
  ok_extend h later ending := by
    rcases Outcome.attempt_eq_ok.mp h with ⟨inner, hvalue, hinner⟩ | ⟨hvalue, hinner⟩
    · rw [Reader.attempt_apply, hreader.ok_extend hinner, hvalue, Outcome.attempt_ok]
    · rw [Reader.attempt_apply, hreader.reject_extend hinner, hvalue, Outcome.attempt_reject]
  reject_extend {bytes rest} h := by
    simp only [Reader.attempt_apply] at h
    cases hinner : reader ⟨bytes, .more⟩ <;> simp [hinner] at h
  not_short {pipe} hclosed h := by
    simp only [Reader.attempt_apply] at h
    cases hinner : reader pipe <;> simp [hinner] at h
    exact hreader.not_short hclosed hinner

theorem ite {condition : Prop} [Decidable condition] {left right : Reader Pipe α}
    (hleft : left.Lawful) (hright : right.Lawful) :
    (if condition then left else right).Lawful := by
  split
  · exact hleft
  · exact hright

/-- More frames for a longer pipe do not change what a lawful family of readers does. -/
theorem withFrames {reader : Nat → Reader Pipe α} (hreader : ∀ frames, (reader frames).Lawful)
    (hbelow : ∀ {frames frames'}, frames ≤ frames' → (reader frames).Below (reader frames')) :
    (Reader.withFrames reader).Lawful where
  ok_taken h := (hreader _).ok_taken h
  reject_taken h := (hreader _).reject_taken h
  ok_ending h := (hreader _).ok_ending h
  reject_ending h := (hreader _).reject_ending h
  ok_extend {bytes value rest} h later ending := by
    have hextend := (hreader (bytes.length + 1)).ok_extend h later ending
    have hframes : bytes.length + 1 ≤ (bytes ++ later).length + 1 := by simp
    exact (hbelow hframes _ (by simp [hextend])).trans hextend
  reject_extend {bytes rest} h later ending := by
    have hextend := (hreader (bytes.length + 1)).reject_extend h later ending
    have hframes : bytes.length + 1 ≤ (bytes ++ later).length + 1 := by simp
    exact (hbelow hframes _ (by simp [hextend])).trans hextend
  not_short hclosed h := (hreader _).not_short hclosed h

/-- What a lawful reader leaves of a finished pipe is no longer and finished. -/
theorem rest_closed {reader : Reader Pipe α} (hreader : reader.Lawful) {pipe rest : Pipe}
    {value : α} (hread : reader pipe = .ok value rest) (hclosed : pipe.ending ≠ .more) :
    rest.bytes.length ≤ pipe.bytes.length ∧ rest.ending ≠ .more := by
  obtain ⟨taken, htaken⟩ := hreader.ok_taken hread
  refine ⟨?_, fun hmore => hclosed ((hreader.ok_ending hread).mp hmore)⟩
  rw [htaken, List.length_append]
  omega

end Reader.Lawful

/-! ### Readers that always answer -/

/-- A reader whose caller tests every failure: it answers or waits. -/
def Reader.Answers {α : Type} (reader : Reader Pipe α) : Prop :=
  ∀ pipe, (∃ value rest, reader pipe = .ok value rest) ∨ reader pipe = .short

namespace Reader.Answers

variable {α β : Type}

theorem pure (value : α) : (Pure.pure value : Reader Pipe α).Answers := fun pipe =>
  Or.inl ⟨value, pipe, rfl⟩

theorem bind {reader : Reader Pipe α} {next : α → Reader Pipe β} (hreader : reader.Answers)
    (hnext : ∀ value, (next value).Answers) : (reader >>= next).Answers := by
  intro pipe
  rcases hreader pipe with ⟨value, rest, h⟩ | h
  · rw [Reader.bind_apply, h, Outcome.bind_ok]
    exact hnext value rest
  · rw [Reader.bind_apply, h]
    exact Or.inr rfl

theorem attempt {reader : Reader Pipe α} (hreader : ∀ pipe, reader pipe ≠ .exhausted) :
    reader.attempt.Answers := by
  intro pipe
  rw [Reader.attempt_apply]
  cases h : reader pipe with
  | ok value rest => exact Or.inl ⟨_, _, rfl⟩
  | reject rest => exact Or.inl ⟨_, _, rfl⟩
  | short => exact Or.inr rfl
  | exhausted => exact absurd h (hreader pipe)

/-- On a finished pipe such a reader answers. -/
theorem ok_of_closed {reader : Reader Pipe α} (hanswers : reader.Answers)
    (hlawful : reader.Lawful) {pipe : Pipe} (hclosed : pipe.ending ≠ .more) :
    ∃ value rest, reader pipe = .ok value rest ∧ rest.bytes.length ≤ pipe.bytes.length ∧
      rest.ending ≠ .more := by
  rcases hanswers pipe with ⟨value, rest, h⟩ | h
  · exact ⟨value, rest, h, hlawful.rest_closed h hclosed⟩
  · exact absurd h (hlawful.not_short hclosed)

end Reader.Answers

end ByteStream
