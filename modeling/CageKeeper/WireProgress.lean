import CageKeeper.WireLaws

/-! The reader of values makes progress. Every call takes a byte, so that it ends on every stream
whatever lengths the stream announces, and a value has no more nodes than the bytes it is read from. -/

namespace CageKeeper
open ByteStream

namespace Value

mutual

def nodes : Value → Nat
  | .array data => nodesOfList data + 1
  | _ => 1

def nodesOfList : List Value → Nat
  | [] => 0
  | entry :: data => nodes entry + nodesOfList data

end

end Value

namespace RawValue

mutual

/-- Every array has the elements that its header announces, and none if that is a negative number. -/
def Complete : RawValue → Prop
  | .array length data => data.length = length.toInt.toNat ∧ CompleteList data
  | _ => True

def CompleteList : List RawValue → Prop
  | [] => True
  | entry :: data => Complete entry ∧ CompleteList data

end

theorem complete_of_tally {maxStringSize maxArraySize : Int} (raw : RawValue) :
    ∀ {count c : Int}, raw.tally maxStringSize maxArraySize count = some c → raw.Complete := by
  induction raw using induction with
  | array length data ih =>
      intro count c htally
      rw [tally] at htally
      split at htally
      · rename_i hchecks
        obtain ⟨inner, hlist, -⟩ := Option.map_eq_some_iff.mp htally
        refine ⟨hchecks.2, ?_⟩
        clear htally hchecks
        induction data generalizing count with
        | nil => trivial
        | cons entry data ihdata =>
            rw [List.forall_mem_cons] at ih
            obtain ⟨middle, hentry, hdata⟩ := Option.bind_eq_some_iff.mp hlist
            exact ⟨ih.1 hentry, ihdata ih.2 hdata⟩
      · cases htally
  | _ => exact fun _ => trivial

/-- **Every node takes a byte.** -/
theorem nodes_value_le (raw : RawValue) : raw.value.nodes ≤ raw.encode.length := by
  induction raw using induction with
  | array length data ih =>
      have hlist : Value.nodesOfList (valueList data) ≤ (encodeList data).length := by
        induction data with
        | nil => exact Nat.le_refl 0
        | cons entry data ihdata =>
            rw [List.forall_mem_cons] at ih
            rw [valueList, Value.nodesOfList, encodeList, List.length_append]
            exact Nat.add_le_add ih.1 (ihdata ih.2)
      rw [value, Value.nodes, encode, List.length_cons, List.length_append]
      omega
  | _ => exact Nat.succ_le_succ (Nat.zero_le _)

theorem encode_length_pos (raw : RawValue) : 0 < raw.encode.length := by
  cases raw <;> exact Nat.succ_pos _

end RawValue

/-- `_read_value`, with more stack frames than there can be bytes. -/
def readValueFramed {χ : Type} [Channel χ] (maxStringSize maxArraySize count : Int) :
    Reader χ (Value × Int) :=
  Reader.withFrames fun frames => readValueCounted maxStringSize maxArraySize frames count

section Framed

variable {maxStringSize maxArraySize count : Int}

theorem readValueCounted_eq_framed {pipe : Pipe} {frames : Nat} (hframes : pipe.bytes.length < frames) :
    readValueCounted maxStringSize maxArraySize frames count pipe
      = readValueFramed maxStringSize maxArraySize count pipe :=
  readValueCounted_below _ _ hframes count pipe
    (readValueCounted_ne_exhausted count (Nat.lt_succ_self _))

theorem readValueFramed_ne_exhausted (pipe : Pipe) :
    readValueFramed maxStringSize maxArraySize count pipe ≠ .exhausted :=
  readValueCounted_ne_exhausted count (Nat.lt_succ_self _)

theorem readValueFramed_lawful :
    (readValueFramed maxStringSize maxArraySize count : Reader Pipe _).Lawful :=
  .withFrames (fun frames => readValueCounted_lawful _ _ frames count)
    fun hle => readValueCounted_below _ _ hle count

theorem readValueFramed_eq_ok {pipe rest : Pipe} {value : Value} {c : Int} :
    readValueFramed maxStringSize maxArraySize count pipe = .ok (value, c) rest ↔
      ∃ raw : RawValue, pipe.bytes = raw.encode ++ rest.bytes ∧ rest.ending = pipe.ending ∧
        raw.tally maxStringSize maxArraySize count = some c ∧ value = raw.value := by
  refine readValueCounted_eq_ok.trans ⟨?_, ?_⟩
  · rintro ⟨raw, -, hraw⟩
    exact ⟨raw, hraw⟩
  · rintro ⟨raw, hbytes, hraw⟩
    refine ⟨raw, ?_, hbytes, hraw⟩
    have hle := raw.frames_le_length
    rw [Pipe.channel_left, hbytes, List.length_append]
    omega

end Framed

/-- **The reader makes progress.** On every stream that ends, with any limits, `_read_value` returns.
A value it returns is complete, has no more nodes than the bytes that it has been read from, of which
there is one at least, and does not depend on what follows these. It fails only on a stream that does
not start with a value it accepts. -/
theorem readValue_progress (maxStringSize maxArraySize count : Int) (pipe : Pipe) :
    (∀ frames, pipe.bytes.length < frames →
      readValueCounted maxStringSize maxArraySize frames count pipe
        = readValueFramed maxStringSize maxArraySize count pipe) ∧
    (pipe.ending ≠ .more →
      (∃ value c rest,
        readValueFramed maxStringSize maxArraySize count pipe = .ok (value, c) rest) ∨
      ∃ rest, readValueFramed maxStringSize maxArraySize count pipe = .reject rest) ∧
    (∀ value c rest,
      readValueFramed maxStringSize maxArraySize count pipe = .ok (value, c) rest →
      ∃ raw : RawValue, raw.Complete ∧ value = raw.value ∧ pipe.bytes = raw.encode ++ rest.bytes ∧
        1 ≤ raw.encode.length ∧ value.nodes ≤ raw.encode.length ∧
        ∀ later ending, readValueFramed maxStringSize maxArraySize count
          (⟨raw.encode ++ later, ending⟩ : Pipe) = .ok (value, c) ⟨later, ending⟩) ∧
    ∀ rest, readValueFramed maxStringSize maxArraySize count pipe = .reject rest →
      (∃ taken, pipe.bytes = taken ++ rest.bytes) ∧
        ∀ (raw : RawValue) (c : Int), raw.tally maxStringSize maxArraySize count = some c →
          ¬raw.encode <+: pipe.bytes := by
  refine ⟨fun frames => readValueCounted_eq_framed, fun hends => ?_, fun value c rest hok => ?_,
    fun rest hreject => ⟨readValueFramed_lawful.reject_taken hreject, ?_⟩⟩
  · cases hresult : (readValueFramed maxStringSize maxArraySize count pipe : Outcome Pipe _) with
    | ok result rest => exact Or.inl ⟨result.1, result.2, rest, rfl⟩
    | reject rest => exact Or.inr ⟨rest, rfl⟩
    | short => exact absurd hresult (readValueFramed_lawful.not_short hends)
    | exhausted => exact absurd hresult (readValueFramed_ne_exhausted pipe)
  · obtain ⟨raw, hbytes, hending, htally, rfl⟩ := readValueFramed_eq_ok.mp hok
    refine ⟨raw, raw.complete_of_tally htally, rfl, hbytes, raw.encode_length_pos,
      raw.nodes_value_le, fun later ending => ?_⟩
    exact readValueFramed_eq_ok.mpr ⟨raw, rfl, rfl, htally, rfl⟩
  · rintro raw c htally ⟨rest', hprefix⟩
    have hok : readValueFramed maxStringSize maxArraySize count pipe
        = .ok (raw.value, c) ⟨rest', pipe.ending⟩ :=
      readValueFramed_eq_ok.mpr ⟨raw, hprefix.symm, rfl, htally, rfl⟩
    cases hreject.symm.trans hok

end CageKeeper
