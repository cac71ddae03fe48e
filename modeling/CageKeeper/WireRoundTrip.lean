import CageKeeper.WireLaws

/-! Reading back what was written. A value's own encoding is one of the encodings the reader
accepts, with its counter equal to the number of array elements, as long as the strings and the
elements stay below the limits and below `INT_MAX`. -/

namespace CageKeeper
open ByteStream

namespace Value

mutual

/-- The value as `write_value` puts it on the wire. -/
def raw : Value → RawValue
  | .void => .void
  | .float32 bits => .float32 bits
  | .int32 bits => .int32 bits
  | .boolean b => .boolean (if b then 1 else 0)
  | .string str => .string str.bytes
  | .array data => .array (BitVec.ofNat 32 data.length) (rawList data)

def rawList : List Value → List RawValue
  | [] => []
  | entry :: data => raw entry :: rawList data

end

/-- The reader accepts the value's encoding under these limits. -/
def Fits (maxStringSize maxArraySize : Int) (value : Value) : Prop :=
  (value.raw.tally maxStringSize maxArraySize 0).isSome

instance (maxStringSize maxArraySize : Int) (value : Value) :
    Decidable (value.Fits maxStringSize maxArraySize) := by
  unfold Fits
  infer_instance

@[simp] theorem rawList_length (data : List Value) : (rawList data).length = data.length := by
  induction data with
  | nil => rfl
  | cons entry data ih => simp [rawList, ih]

theorem encode_raw (value : Value) : value.raw.encode = writeValue value := by
  induction value using induction with
  | array data ih =>
      have hlist : RawValue.encodeList (rawList data) = writeEntries data := by
        induction data with
        | nil => rfl
        | cons entry data ihdata =>
            rw [rawList, RawValue.encodeList, writeEntries, ih entry (by simp),
              ihdata fun entry hmem => ih entry (by simp [hmem])]
      rw [raw, RawValue.encode, hlist, writeValue, writeByte, List.singleton_append,
        List.cons_append]
  | boolean b => cases b <;> rfl
  | _ => rfl

theorem value_raw (value : Value) : value.raw.value = value := by
  induction value using induction with
  | string str => rw [raw, RawValue.value, CString.ofBytes_bytes]
  | boolean b => cases b <;> rfl
  | array data ih =>
      have hlist : RawValue.valueList (rawList data) = data := by
        induction data with
        | nil => rfl
        | cons entry data ihdata =>
            rw [rawList, RawValue.valueList, ih entry (by simp),
              ihdata fun entry hmem => ih entry (by simp [hmem])]
      rw [raw, RawValue.value, hlist]
  | _ => rfl

/-- The strings and the number of elements stay below the limits, where `0` stands for none. -/
structure Within (maxStringSize maxArraySize : Int) (value : Value) : Prop where
  strings : ∀ str ∈ value.strings, StringFits maxStringSize str.length
  elements : maxArraySize ≠ 0 → (value.elements : Int) < maxArraySize
  elements_int : (value.elements : Int) < intMax

instance (maxStringSize maxArraySize : Int) (value : Value) :
    Decidable (value.Within maxStringSize maxArraySize) :=
  decidable_of_iff ((∀ str ∈ value.strings, StringFits maxStringSize str.length) ∧
      (maxArraySize ≠ 0 → (value.elements : Int) < maxArraySize) ∧
      (value.elements : Int) < intMax)
    ⟨fun h => ⟨h.1, h.2.1, h.2.2⟩, fun h => ⟨h.strings, h.elements, h.elements_int⟩⟩

/-- The counter while a value within the limits is read: it grows by the value's own elements, and
no check fails as long as the total stays below the limits. -/
theorem tally_raw {maxStringSize maxArraySize : Int} (value : Value)
    (hstrings : ∀ str ∈ value.strings, StringFits maxStringSize str.length) {count : Int}
    (hcount : 0 ≤ count) (helements : maxArraySize ≠ 0 → count + value.elements < maxArraySize)
    (hint : count + value.elements < intMax) :
    value.raw.tally maxStringSize maxArraySize count = some (count + value.elements) := by
  induction value using induction generalizing count with
  | string str =>
      have hfits : StringFits maxStringSize str.bytes.length := hstrings str (by simp [strings])
      rw [raw, RawValue.tally, if_pos hfits]
      simp [elements]
  | array data ih =>
      have hlist : ∀ {count : Int}, 0 ≤ count →
          (maxArraySize ≠ 0 → count + elementsOfList data < maxArraySize) →
          count + elementsOfList data < intMax →
          RawValue.tallyList maxStringSize maxArraySize (rawList data) count =
            some (count + elementsOfList data) := by
        simp only [strings] at hstrings
        clear helements hint hcount
        induction data with
        | nil =>
            intro count _ _ _
            rw [rawList, RawValue.tallyList, elementsOfList, Int.natCast_zero, Int.add_zero]
        | cons entry data ihdata =>
            intro count hcount helements hint
            simp only [elementsOfList, Int.natCast_add] at helements hint ⊢
            have hentry : entry.raw.tally maxStringSize maxArraySize count =
                some (count + entry.elements) :=
              ih entry (by simp) (fun str hmem => hstrings str (by simp [stringsOfList, hmem]))
                hcount (fun hne => by have := helements hne; omega) (by omega)
            rw [rawList, RawValue.tallyList, hentry, Option.bind_some,
              ihdata (fun entry hmem => ih entry (by simp [hmem]))
                (fun str hmem => hstrings str (by simp [stringsOfList, hmem])) (by omega)
                (fun hne => by have := helements hne; omega) (by omega)]
            congr 1
            omega
      simp only [elements, Int.natCast_add] at helements hint ⊢
      have hmax : count + (data.length + elementsOfList data) < 2147483647 := by
        simpa only [intMax] using hint
      have hlength : (BitVec.ofNat 32 data.length).toInt = data.length :=
        toInt_ofNat_of_lt (by simp only [intMax]; omega)
      have hdiff : wrap (intMax - count) = intMax - count :=
        wrap_of_range (by simp only [intMax]; omega) (by omega)
      have hsum : wrap (data.length + count) = data.length + count :=
        wrap_of_range (by omega) (by simp only [intMax]; omega)
      have hfits : ArrayFits maxArraySize count data.length := by
        refine ⟨fun h => ?_, ?_, fun h => ?_⟩
        · have := helements h.1
          omega
        · rw [hdiff]
          simp only [intMax]
          omega
        · have := helements h.1
          rw [hsum] at h
          omega
      rw [raw, RawValue.tally, hlength, if_pos ⟨hfits, by simp⟩,
        hlist hcount (fun hne => by have := helements hne; omega) (by omega), Option.map_some,
        wrap_of_range (by omega) (by simp only [intMax]; omega)]
      congr 1
      omega
  | _ => simp [raw, RawValue.tally, elements]

theorem Within.tally {maxStringSize maxArraySize : Int} {value : Value}
    (h : value.Within maxStringSize maxArraySize) :
    value.raw.tally maxStringSize maxArraySize 0 = some (value.elements : Int) := by
  rw [tally_raw value h.strings (Int.le_refl 0) (fun hne => by simpa using h.elements hne)
    (by simpa using h.elements_int), Int.zero_add]

theorem Within.fits {maxStringSize maxArraySize : Int} {value : Value}
    (h : value.Within maxStringSize maxArraySize) : value.Fits maxStringSize maxArraySize := by
  rw [Fits, h.tally]
  rfl

end Value

theorem withFrames_readValueCounted_eq_ok {maxStringSize maxArraySize count c : Int}
    {pipe rest : Pipe} {value : Value} :
    Reader.withFrames (fun frames => readValueCounted maxStringSize maxArraySize frames count)
        pipe = .ok (value, c) rest ↔
      ∃ raw : RawValue, pipe.bytes = raw.encode ++ rest.bytes ∧ rest.ending = pipe.ending ∧
        raw.tally maxStringSize maxArraySize count = some c ∧ value = raw.value := by
  simp only [Reader.withFrames, Pipe.channel_left, readValueCounted_eq_ok]
  constructor
  · rintro ⟨raw, -, h⟩
    exact ⟨raw, h⟩
  · rintro ⟨raw, hbytes, h⟩
    have hframes := raw.frames_le_length
    refine ⟨raw, ?_, hbytes, h⟩
    rw [hbytes, List.length_append]
    omega

/-- **Decode undoes encode.** Whatever follows a value within the limits, the reader returns the
value, leaves what follows unread, and its counter ends at the number of array elements. -/
theorem readValueCounted_writeValue (value : Value) (rest : Bytes) (ending : Ending)
    (maxStringSize maxArraySize : Int) (h : value.Within maxStringSize maxArraySize) :
    Reader.withFrames (fun frames => readValueCounted maxStringSize maxArraySize frames 0)
        (⟨writeValue value ++ rest, ending⟩ : Pipe) =
      .ok (value, (value.elements : Int)) ⟨rest, ending⟩ :=
  withFrames_readValueCounted_eq_ok.mpr
    ⟨value.raw, by rw [value.encode_raw], rfl, h.tally, value.value_raw.symm⟩

/-- The hypothesis is met under both limits by a nested array of every leaf type. -/
theorem readValueCounted_writeValue_nested :
    let value := Value.array [.void, .float32 0x40400000#32, .int32 7#32, .boolean true,
      .array [.string (CString.lit "foobar")]]
    value.Within 4096 1024 ∧
      Reader.withFrames (fun frames => readValueCounted 4096 1024 frames 0)
          (⟨writeValue value ++ [1, 2, 3], .more⟩ : Pipe) = .ok (value, 6) ⟨[1, 2, 3], .more⟩ := by
  have h : Value.Within 4096 1024 (.array [.void, .float32 0x40400000#32, .int32 7#32,
      .boolean true, .array [.string (CString.lit "foobar")]]) :=
    ⟨by decide, by decide, by decide⟩
  exact ⟨h, readValueCounted_writeValue _ _ _ _ _ h⟩

end CageKeeper
