import CageKeeper.ReadLoops
import CageKeeper.ProxyParent

/-! The readers of the wire format on a descriptor with a time budget. A reader that is handed a
budget hands the same one to every read inside it, so that the time waited and the time left keep
their sum, whatever is read. -/

namespace CageKeeper
open ByteStream

/-- A descriptor and the `struct timeval` that the reads are given. -/
structure TimedFd where
  fd : Fd
  timeout : Nat
  deriving DecidableEq

namespace TimedFd

/-- `read_with_timeout` as a block read. -/
def read (count : Nat) : Reader TimedFd Bytes := fun channel =>
  match timeoutLoop count true channel.timeout [] channel.fd with
  | .returned true data (timeout, fd) => .ok data ⟨fd, timeout⟩
  | .returned false _ (timeout, fd) => .reject ⟨fd, timeout⟩
  | .waits => .short

instance : Channel TimedFd where
  read := read
  left channel := channel.fd.events.weight

@[simp] theorem channel_read : (Channel.read : Nat → Reader TimedFd Bytes) = read := rfl

@[simp] theorem channel_left (channel : TimedFd) :
    Channel.left channel = channel.fd.events.weight := rfl

/-- What has been waited is paid for by the budget. -/
def Spends (before after : TimedFd) : Prop :=
  Fd.Paid before.timeout before.fd after.timeout after.fd

theorem Spends.refl (channel : TimedFd) : Spends channel channel := Fd.Paid.refl _ _

theorem Spends.trans (first middle last : TimedFd) (h : Spends first middle)
    (h' : Spends middle last) : Spends first last :=
  Fd.Paid.trans h h'

/-- Every block read returns, and is paid for. -/
theorem read_runs (count : Nat) : (read count).Runs Spends := by
  intro channel
  have hspec := timeoutLoop_spec count rfl channel.timeout [] channel.fd
  rw [read]
  generalize timeoutLoop count true channel.timeout [] channel.fd = result at hspec ⊢
  cases hspec with
  | complete _ _ _ hpaid => exact hpaid
  | incomplete _ hpaid => exact hpaid

/-- A block that has been read is gone. -/
theorem read_weight {count : Nat} {channel rest : TimedFd} {data : Bytes}
    (h : read count channel = .ok data rest) :
    rest.fd.events.weight + count ≤ channel.fd.events.weight := by
  have hspec := timeoutLoop_spec count rfl channel.timeout [] channel.fd
  rw [read] at h
  generalize timeoutLoop count true channel.timeout [] channel.fd = result at hspec h
  cases hspec with
  | complete hlength _ _ _ hweight =>
      cases h
      rw [hlength, List.length_nil] at hweight
      simp only
      omega
  | incomplete => cases h

theorem read_ne_exhausted (count : Nat) (channel : TimedFd) : read count channel ≠ .exhausted := by
  rw [read]
  split <;> nofun

end TimedFd

/-! ### Readers that hand on what they are given -/

section Runs

variable {χ : Type} [Channel χ] {R : χ → χ → Prop} (hrefl : ∀ channel, R channel channel)
  (htrans : ∀ first middle last, R first middle → R middle last → R first last)
  (hread : ∀ count, (Channel.read count : Reader χ Bytes).Runs R)

include hrefl htrans hread

theorem readByte_runs : (readByte : Reader χ UInt8).Runs R :=
  .bind htrans (hread 1) fun _ => .pure hrefl _

theorem readWord_runs : (readWord : Reader χ (BitVec 32)).Runs R :=
  .bind htrans (hread 4) fun _ => .pure hrefl _

theorem readString_runs (maxSize : Int) : (readString maxSize : Reader χ CString).Runs R := by
  refine .bind htrans (readWord_runs hrefl htrans hread) fun word => ?_
  refine .ite (.reject hrefl) (.ite (.reject hrefl) ?_)
  exact .bind htrans (hread _) fun _ => .pure hrefl _

omit hread [Channel χ] in
theorem readEntries_runs {readEntry : Int → Reader χ (Value × Int)}
    (hentry : ∀ count, (readEntry count).Runs R) (remaining : Nat) (count : Int) :
    (readEntries readEntry remaining count).Runs R := by
  induction remaining generalizing count with
  | zero => exact .pure hrefl _
  | succ remaining ih =>
      exact .bind htrans (hentry count) fun _ => .bind htrans (ih _) fun _ => .pure hrefl _

theorem readValueCounted_runs (maxStringSize maxArraySize : Int) (frames : Nat) (count : Int) :
    (readValueCounted maxStringSize maxArraySize frames count : Reader χ _).Runs R := by
  induction frames generalizing count with
  | zero => exact .exhausted
  | succ frames ih =>
      have hword := readWord_runs hrefl htrans hread
      have hbyte := readByte_runs hrefl htrans hread
      refine .bind htrans hbyte fun b => ?_
      cases ValueType.ofCode b with
      | none => exact .reject hrefl
      | some type =>
          cases type with
          | void => exact .pure hrefl _
          | float32 => exact .bind htrans hword fun _ => .pure hrefl _
          | int32 => exact .bind htrans hword fun _ => .pure hrefl _
          | boolean => exact .bind htrans hbyte fun _ => .pure hrefl _
          | string =>
              exact .bind htrans (readString_runs hrefl htrans hread _) fun _ => .pure hrefl _
          | array =>
              refine .bind htrans hword fun _ =>
                .ite (.reject hrefl) (.ite (.reject hrefl) (.ite (.reject hrefl) ?_))
              exact .bind htrans (readEntries_runs hrefl htrans ih _ _) fun _ => .pure hrefl _
          | function => exact .reject hrefl

theorem readValue_runs : (readValue : Reader χ Value).Runs R :=
  .bind htrans (.withFrames fun frames => readValueCounted_runs hrefl htrans hread _ _ frames 0)
    fun _ => .pure hrefl _

/-- The reads of `process_callbacks`. -/
theorem readMessage_runs : (readMessage : Reader χ Message).Runs R := by
  have hstring := readString_runs hrefl htrans hread maxStringSize
  have hvalue := readValue_runs hrefl htrans hread
  refine .bind htrans (.attempt (readByte_runs hrefl htrans hread)) fun resp => ?_
  cases resp with
  | none => exact .pure hrefl _
  | some resp =>
      show (readContent (Resp.ofCode resp)).Runs R
      cases Resp.ofCode resp with
      | none => exact .pure hrefl _
      | some resp =>
          cases resp with
          | callback =>
              refine .bind htrans (.attempt hstring) fun name => ?_
              cases name with
              | none => exact .pure hrefl _
              | some name =>
                  refine .bind htrans (.attempt hvalue) fun args => ?_
                  cases args with
                  | none => exact .pure hrefl _
                  | some args => exact .pure hrefl _
          | log => exact .bind htrans (.attempt hstring) fun _ => .pure hrefl _
          | error => exact .pure hrefl _
          | «return» => exact .pure hrefl _

end Runs

/-! ### Stack frames on a descriptor -/

namespace TimedFd

theorem readByte_weight {channel rest : TimedFd} {b : UInt8} (h : readByte channel = .ok b rest) :
    rest.fd.events.weight < channel.fd.events.weight := by
  obtain ⟨block, middle, hblock, hpure⟩ := Outcome.bind_eq_ok.mp h
  cases hpure
  exact read_weight hblock

theorem readByte_ne_exhausted (channel : TimedFd) : readByte channel ≠ .exhausted := by
  simp [readByte, Outcome.bind_eq_exhausted, read_ne_exhausted]

theorem readWord_ne_exhausted (channel : TimedFd) : readWord channel ≠ .exhausted := by
  simp [readWord, Outcome.bind_eq_exhausted, read_ne_exhausted]

theorem readString_ne_exhausted (maxSize : Int) (channel : TimedFd) :
    readString maxSize channel ≠ .exhausted := by
  simp only [readString, Reader.bind_apply, ne_eq, Outcome.bind_eq_exhausted, not_or, not_exists,
    not_and]
  refine ⟨readWord_ne_exhausted channel, fun word rest _ => ?_⟩
  split
  · simp
  split
  · simp
  · simp [Outcome.bind_eq_exhausted, read_ne_exhausted]

theorem attempt_ne_exhausted {α : Type} {outcome : Outcome TimedFd α} (h : outcome ≠ .exhausted) :
    outcome.attempt ≠ .exhausted := by
  cases outcome with
  | exhausted => exact absurd rfl h
  | ok value rest => nofun
  | reject rest => nofun
  | short => nofun

/-- A reader that returns leaves no more events than there were. -/
theorem weight_le_of_ok {α : Type} {reader : Reader TimedFd α} (hrun : reader.Runs Spends)
    {channel rest : TimedFd} {value : α} (h : reader channel = .ok value rest) :
    rest.fd.events.weight ≤ channel.fd.events.weight := by
  have hspends := hrun channel
  rw [h] at hspends
  exact hspends.weight_le

theorem readEntries_ne_exhausted {bound : Nat} {readEntry : Int → Reader TimedFd (Value × Int)}
    (hruns : ∀ count, (readEntry count).Runs Spends)
    (hentry : ∀ count (channel : TimedFd), channel.fd.events.weight < bound →
      readEntry count channel ≠ .exhausted) (remaining : Nat) (count : Int) (channel : TimedFd)
    (hweight : channel.fd.events.weight < bound) :
    readEntries readEntry remaining count channel ≠ .exhausted := by
  induction remaining generalizing count channel with
  | zero => simp [readEntries]
  | succ remaining ih =>
      simp only [readEntries, Reader.bind_apply, ne_eq, Outcome.bind_eq_exhausted, not_or,
        not_exists, not_and]
      refine ⟨hentry count channel hweight, fun entry rest hrest => ⟨?_, ?_⟩⟩
      · exact ih _ _ (Nat.lt_of_le_of_lt (weight_le_of_ok (hruns count) hrest) hweight)
      · simp

/-- With more frames than bytes to come the reader does not overflow. -/
theorem readValueCounted_ne_exhausted (maxStringSize maxArraySize : Int) (frames : Nat)
    (count : Int) (channel : TimedFd) (hframes : channel.fd.events.weight < frames) :
    readValueCounted maxStringSize maxArraySize frames count channel ≠ .exhausted := by
  induction frames generalizing count channel with
  | zero => cases hframes
  | succ frames ih =>
      intro h
      simp only [readValueCounted, Reader.bind_apply, Outcome.bind_eq_exhausted] at h
      rcases h with h | ⟨b, body, hb, h⟩
      · exact readByte_ne_exhausted channel h
      have hless := readByte_weight hb
      cases htype : ValueType.ofCode b with
      | none => simp [htype] at h
      | some type =>
          cases type <;> simp only [htype, Reader.bind_apply, Outcome.bind_eq_exhausted,
            Reader.pure_apply, Reader.reject_apply, reduceCtorEq, and_false, exists_false,
            or_false, readWord_ne_exhausted, readByte_ne_exhausted, readString_ne_exhausted,
            false_or] at h
          obtain ⟨length, entries, hlength, h⟩ := h
          have hword := weight_le_of_ok (readWord_runs Spends.refl Spends.trans read_runs) hlength
          split at h
          · simp at h
          split at h
          · simp at h
          split at h
          · simp at h
          simp only [Reader.bind_apply, Outcome.bind_eq_exhausted, Reader.pure_apply, reduceCtorEq,
            and_false, exists_false, or_false] at h
          have hruns := readValueCounted_runs Spends.refl Spends.trans read_runs maxStringSize
            maxArraySize frames
          exact readEntries_ne_exhausted hruns ih _ _ entries (by omega) h

theorem readValue_ne_exhausted (channel : TimedFd) : readValue channel ≠ .exhausted := by
  simp only [readValue, Reader.bind_apply, ne_eq, Outcome.bind_eq_exhausted, not_or, not_exists,
    not_and]
  refine ⟨readValueCounted_ne_exhausted _ _ _ _ _ (Nat.lt_succ_self _), ?_⟩
  simp

theorem readMessage_ne_exhausted (channel : TimedFd) : readMessage channel ≠ .exhausted := by
  simp only [readMessage, Reader.bind_apply, Reader.attempt_apply, ne_eq,
    Outcome.bind_eq_exhausted, not_or, not_exists, not_and]
  refine ⟨attempt_ne_exhausted (readByte_ne_exhausted channel), fun resp rest _ => ?_⟩
  cases resp with
  | none => simp
  | some resp =>
      show readContent (Resp.ofCode resp) rest ≠ .exhausted
      cases Resp.ofCode resp with
      | none => simp [readContent]
      | some resp =>
          cases resp with
          | callback =>
              simp only [readContent, Reader.bind_apply, Reader.attempt_apply, ne_eq,
                Outcome.bind_eq_exhausted, not_or, not_exists, not_and]
              refine ⟨attempt_ne_exhausted (readString_ne_exhausted _ rest), fun name body _ => ?_⟩
              cases name with
              | none => simp
              | some name =>
                  simp only [Reader.bind_apply, Reader.attempt_apply,
                    Outcome.bind_eq_exhausted, not_or, not_exists, not_and]
                  refine ⟨attempt_ne_exhausted (readValue_ne_exhausted body), fun args _ _ => ?_⟩
                  cases args <;> simp
          | log =>
              simp only [readContent, Reader.bind_apply, Reader.attempt_apply, ne_eq,
                Outcome.bind_eq_exhausted, not_or, not_exists, not_and]
              exact ⟨attempt_ne_exhausted (readString_ne_exhausted _ rest), fun _ _ _ => nofun⟩
          | error => simp [readContent]
          | «return» => simp [readContent]

theorem attempt_ne_reject {α : Type} (outcome : Outcome TimedFd α) (rest : TimedFd) :
    outcome.attempt ≠ .reject rest := by
  cases outcome <;> nofun

/-- `process_callbacks` sees a failed read as a message. -/
theorem readMessage_ne_reject (channel rest : TimedFd) : readMessage channel ≠ .reject rest := by
  simp only [readMessage, Reader.bind_apply, Reader.attempt_apply, ne_eq, Outcome.bind_eq_reject,
    not_or, not_exists, not_and]
  refine ⟨attempt_ne_reject _ _, fun resp body _ => ?_⟩
  cases resp with
  | none => simp
  | some resp =>
      show readContent (Resp.ofCode resp) body ≠ .reject rest
      cases Resp.ofCode resp with
      | none => simp [readContent]
      | some resp =>
          cases resp with
          | callback =>
              simp only [readContent, Reader.bind_apply, Reader.attempt_apply, ne_eq,
                Outcome.bind_eq_reject, not_or, not_exists, not_and]
              refine ⟨attempt_ne_reject _ _, fun name body _ => ?_⟩
              cases name with
              | none => simp
              | some name =>
                  simp only [Reader.bind_apply, Reader.attempt_apply, Outcome.bind_eq_reject,
                    not_or, not_exists, not_and]
                  refine ⟨attempt_ne_reject _ _, fun args _ _ => ?_⟩
                  cases args <;> simp
          | log =>
              simp only [readContent, Reader.bind_apply, Reader.attempt_apply, ne_eq,
                Outcome.bind_eq_reject, not_or, not_exists, not_and]
              exact ⟨attempt_ne_reject _ _, fun _ _ _ => nofun⟩
          | error => simp [readContent]
          | «return» => simp [readContent]

end TimedFd

end CageKeeper
