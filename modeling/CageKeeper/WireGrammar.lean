import CageKeeper.WireFormat

/-! The byte strings the value reader accepts. A `RawValue` is a value as it stands on the wire:
any byte for a boolean, NUL bytes inside a string, an array length that need not be sensible. The
reader succeeds exactly on the encoding of a raw value that passes its checks. -/

namespace CageKeeper
open ByteStream

section Primitives

theorem readByte_eq_ok {pipe rest : Pipe} {b : UInt8} :
    readByte pipe = .ok b rest ↔ pipe.bytes = b :: rest.bytes ∧ rest.ending = pipe.ending := by
  simp only [readByte, Reader.bind_apply, Pipe.channel_read, Outcome.bind_eq_ok,
    Pipe.read_eq_ok, Reader.pure_apply, Outcome.ok.injEq]
  constructor
  · rintro ⟨block, middle, ⟨hlength, hbytes, hending⟩, hb, rfl⟩
    obtain ⟨a, rfl⟩ := List.length_eq_one_iff.mp hlength
    obtain rfl : a = b := hb
    exact ⟨hbytes, hending⟩
  · rintro ⟨hbytes, hending⟩
    exact ⟨[b], rest, ⟨rfl, by simpa using hbytes, hending⟩, rfl, rfl⟩

theorem readWord_eq_ok {pipe rest : Pipe} {word : BitVec 32} :
    readWord pipe = .ok word rest ↔
      pipe.bytes = wordBytes word ++ rest.bytes ∧ rest.ending = pipe.ending := by
  simp only [readWord, Reader.bind_apply, Pipe.channel_read, Outcome.bind_eq_ok,
    Pipe.read_eq_ok, Reader.pure_apply, Outcome.ok.injEq]
  constructor
  · rintro ⟨block, middle, ⟨hlength, hbytes, hending⟩, rfl, rfl⟩
    exact ⟨by rw [wordBytes_bytesWord hlength, hbytes], hending⟩
  · rintro ⟨hbytes, hending⟩
    exact ⟨wordBytes word, rest, ⟨rfl, hbytes, hending⟩, bytesWord_wordBytes word, rfl⟩

/-- The length `read_string` accepts: `malloc` can be asked for one byte more, and it is below the
maximum if there is one. -/
def StringFits (maxSize : Int) (length : Nat) : Prop :=
  (length : Int) < intMax ∧ (maxSize ≠ 0 → (length : Int) < maxSize)

instance (maxSize : Int) (length : Nat) : Decidable (StringFits maxSize length) := by
  unfold StringFits
  infer_instance

theorem toInt_ofNat_of_lt {length : Nat} (h : (length : Int) ≤ intMax) :
    (BitVec.ofNat 32 length).toInt = length := by
  simp only [intMax] at h
  rw [BitVec.toInt_ofNat']
  exact Int.bmod_eq_of_le (by omega) (by omega)

theorem ofNat_toInt_toNat {word : BitVec 32} (h : 0 ≤ word.toInt) :
    BitVec.ofNat 32 word.toInt.toNat = word := by
  apply BitVec.eq_of_toNat_eq
  have hlt := word.isLt
  rw [BitVec.toInt_eq_toNat_cond] at h ⊢
  split at h
  · rename_i hsmall
    simp only [hsmall, if_true, Int.toNat_natCast, BitVec.toNat_ofNat]
    omega
  · omega

theorem wrap_of_range {result : Int} (hlow : -2147483648 ≤ result) (hhigh : result ≤ intMax) :
    wrap result = result := by
  simp only [intMax] at hhigh
  exact Int.bmod_eq_of_le (by omega) (by omega)

/-- The test `malloc(l+1)` makes on a length that is not negative. -/
theorem wrap_succ_neg_iff {length : Int} (hlow : 0 ≤ length) (hhigh : length ≤ intMax) :
    wrap (length + 1) < 0 ↔ length = intMax := by
  by_cases h : length = intMax
  · subst h
    decide
  · rw [wrap_of_range (by omega) (by omega)]
    omega

theorem toInt_le_intMax (word : BitVec 32) : word.toInt ≤ intMax := by
  have h := BitVec.toInt_lt (x := word)
  simp only [intMax]
  omega

theorem readString_eq_ok {maxSize : Int} {pipe rest : Pipe} {s : CString} :
    readString maxSize pipe = .ok s rest ↔
      ∃ block, StringFits maxSize block.length ∧
        pipe.bytes = wordBytes (BitVec.ofNat 32 block.length) ++ block ++ rest.bytes ∧
        rest.ending = pipe.ending ∧ s = CString.ofBytes block := by
  simp only [readString, Reader.bind_apply, Outcome.bind_eq_ok, readWord_eq_ok]
  constructor
  · rintro ⟨word, middle, ⟨hword, hmiddle⟩, h⟩
    have hmax := toInt_le_intMax word
    split at h
    · simp at h
    split at h
    · simp at h
    rename_i hnotbad hmalloc
    obtain ⟨hnonneg, hfits⟩ := not_or.mp hnotbad
    replace hnonneg : 0 ≤ word.toInt := Int.not_lt.mp hnonneg
    simp only [Reader.bind_apply, Pipe.channel_read, Outcome.bind_eq_ok, Pipe.read_eq_ok,
      Reader.pure_apply, Outcome.ok.injEq] at h
    obtain ⟨block, last, ⟨hlength, hbytes, hending⟩, rfl, rfl⟩ := h
    rw [wrap_succ_neg_iff hnonneg hmax] at hmalloc
    have hcast : (block.length : Int) = word.toInt := by omega
    refine ⟨block, ⟨by omega, fun hne => by have := fun h => hfits ⟨hne, h⟩; omega⟩, ?_,
      hending.trans hmiddle, rfl⟩
    rw [hword, hbytes, hlength, ofNat_toInt_toNat hnonneg, List.append_assoc]
  · rintro ⟨block, ⟨hmax, hfits⟩, hbytes, hending, rfl⟩
    refine ⟨BitVec.ofNat 32 block.length, ⟨block ++ rest.bytes, pipe.ending⟩,
      ⟨by rw [hbytes, List.append_assoc], rfl⟩, ?_⟩
    simp only [toInt_ofNat_of_lt (Int.le_of_lt hmax)]
    rw [if_neg (not_or.mpr ⟨by omega, fun h => absurd (hfits h.1) (Int.not_lt.mpr h.2)⟩),
      if_neg (by rw [wrap_succ_neg_iff (Int.natCast_nonneg _) (Int.le_of_lt hmax)]; omega)]
    simp only [Reader.bind_apply, Pipe.channel_read, Int.toNat_natCast, Pipe.read_append,
      Outcome.bind_ok, Reader.pure_apply, Outcome.ok.injEq, true_and]
    rw [← hending]

end Primitives

inductive RawValue where
  | void
  | float32 (bits : BitVec 32)
  | int32 (bits : BitVec 32)
  | boolean (b : UInt8)
  | string (block : Bytes)
  | array (length : BitVec 32) (data : List RawValue)

/-- The three checks `_read_value` makes on an array's length before it reads the elements. -/
def ArrayFits (maxArraySize count length : Int) : Prop :=
  ¬(maxArraySize ≠ 0 ∧ length ≥ maxArraySize) ∧ ¬length ≥ wrap (intMax - count) ∧
    ¬(maxArraySize ≠ 0 ∧ wrap (length + count) ≥ maxArraySize)

instance (maxArraySize count length : Int) : Decidable (ArrayFits maxArraySize count length) := by
  unfold ArrayFits
  infer_instance

namespace RawValue

mutual

def encode : RawValue → Bytes
  | .void => [ValueType.void.code]
  | .float32 bits => ValueType.float32.code :: wordBytes bits
  | .int32 bits => ValueType.int32.code :: wordBytes bits
  | .boolean b => [ValueType.boolean.code, b]
  | .string block =>
      ValueType.string.code :: (wordBytes (BitVec.ofNat 32 block.length) ++ block)
  | .array length data => ValueType.array.code :: (wordBytes length ++ encodeList data)

def encodeList : List RawValue → Bytes
  | [] => []
  | entry :: data => encode entry ++ encodeList data

end

mutual

def value : RawValue → Value
  | .void => .void
  | .float32 bits => .float32 bits
  | .int32 bits => .int32 bits
  | .boolean b => .boolean (b ≠ 0)
  | .string block => .string (CString.ofBytes block)
  | .array _ data => .array (valueList data)

def valueList : List RawValue → List Value
  | [] => []
  | entry :: data => value entry :: valueList data

end

mutual

def frames : RawValue → Nat
  | .array _ data => framesOfList data + 1
  | _ => 1

def framesOfList : List RawValue → Nat
  | [] => 0
  | entry :: data => max (frames entry) (framesOfList data)

end

mutual

/-- The counter after the reader's checks have all passed, starting from `count`. -/
def tally (maxStringSize maxArraySize : Int) : RawValue → Int → Option Int
  | .string block, count => if StringFits maxStringSize block.length then some count else none
  | .array length data, count =>
      if ArrayFits maxArraySize count length.toInt ∧ data.length = length.toInt.toNat then
        (tallyList maxStringSize maxArraySize data count).map fun count =>
          wrap (count + length.toInt)
      else none
  | _, count => some count

def tallyList (maxStringSize maxArraySize : Int) : List RawValue → Int → Option Int
  | [], count => some count
  | entry :: data, count =>
      (tally maxStringSize maxArraySize entry count).bind
        (tallyList maxStringSize maxArraySize data)

end

@[elab_as_elim] theorem induction {motive : RawValue → Prop} (void : motive .void)
    (float32 : ∀ bits, motive (.float32 bits)) (int32 : ∀ bits, motive (.int32 bits))
    (boolean : ∀ b, motive (.boolean b)) (string : ∀ block, motive (.string block))
    (array : ∀ length data, (∀ entry ∈ data, motive entry) → motive (.array length data))
    (raw : RawValue) : motive raw := by
  refine RawValue.rec (motive_2 := fun data => ∀ entry ∈ data, motive entry)
    void float32 int32 boolean string array ?_ ?_ raw
  · exact List.forall_mem_nil _
  · intro head tail hhead htail
    exact List.forall_mem_cons.mpr ⟨hhead, htail⟩

@[simp] theorem valueList_length (data : List RawValue) :
    (valueList data).length = data.length := by
  induction data with
  | nil => rfl
  | cons entry data ih => simp [valueList, ih]

theorem frames_pos (raw : RawValue) : 0 < raw.frames := by
  cases raw <;> simp [frames]

/-- Every call of the reader takes a byte. -/
theorem frames_le_length (raw : RawValue) : raw.frames ≤ raw.encode.length := by
  induction raw using induction with
  | array length data ih =>
      have hlist : framesOfList data ≤ (encodeList data).length := by
        induction data with
        | nil => simp [framesOfList]
        | cons entry data ihdata =>
            have hentry := ih entry (by simp)
            have hrest := ihdata fun entry hmem => ih entry (by simp [hmem])
            simp only [framesOfList, encodeList, List.length_append]
            omega
      simp only [frames, encode, List.length_cons, List.length_append]
      omega
  | _ => simp [frames, encode]

end RawValue

open RawValue

section Reader

variable {maxStringSize maxArraySize : Int}

/-- With this stack the reader returns a value exactly when its input starts with the encoding of
a raw value that passes its checks and nests no deeper. -/
def ReadsRaw (maxStringSize maxArraySize : Int) (bound : Nat) : Prop :=
  ∀ (count c : Int) (pipe rest : Pipe) (value : Value),
    readValueCounted maxStringSize maxArraySize bound count pipe = .ok (value, c) rest ↔
      ∃ raw : RawValue, raw.frames ≤ bound ∧ pipe.bytes = raw.encode ++ rest.bytes ∧
        rest.ending = pipe.ending ∧ raw.tally maxStringSize maxArraySize count = some c ∧
        value = raw.value

theorem readEntries_eq_ok {bound : Nat} (hentry : ReadsRaw maxStringSize maxArraySize bound)
    {remaining : Nat} {count c : Int} {pipe rest : Pipe} {data : List Value} :
    readEntries (readValueCounted maxStringSize maxArraySize bound) remaining count pipe =
        .ok (data, c) rest ↔
      ∃ raws : List RawValue, framesOfList raws ≤ bound ∧ raws.length = remaining ∧
        pipe.bytes = encodeList raws ++ rest.bytes ∧ rest.ending = pipe.ending ∧
        tallyList maxStringSize maxArraySize raws count = some c ∧ data = valueList raws := by
  induction remaining generalizing count c pipe rest data with
  | zero =>
      simp only [readEntries, Reader.pure_apply, Outcome.ok.injEq, Prod.mk.injEq,
        List.length_eq_zero_iff]
      constructor
      · rintro ⟨⟨rfl, rfl⟩, rfl⟩
        exact ⟨[], by simp [framesOfList], rfl, rfl, rfl, rfl, rfl⟩
      · rintro ⟨raws, -, rfl, hbytes, hending, htally, rfl⟩
        obtain ⟨bytes, ending⟩ := pipe
        obtain ⟨restBytes, restEnding⟩ := rest
        simp only [encodeList, List.nil_append, tallyList, Option.some.injEq] at *
        exact ⟨⟨rfl, htally⟩, by rw [hbytes, hending]⟩
  | succ remaining ih =>
      simp only [readEntries, Reader.bind_apply, Outcome.bind_eq_ok, Prod.exists,
        hentry _ _ _ _ _, ih, Reader.pure_apply, Outcome.ok.injEq, Prod.mk.injEq]
      constructor
      · rintro ⟨_, _, middle, ⟨raw, hframes, hbytes, hending, htally, rfl⟩, _, _, last,
          ⟨raws, hframes', hlength, hbytes', hending', htally', rfl⟩, ⟨rfl, rfl⟩, rfl⟩
        refine ⟨raw :: raws, Nat.max_le.mpr ⟨hframes, hframes'⟩, by simp [hlength], ?_,
          hending'.trans hending, by simp [tallyList, htally, htally'], rfl⟩
        rw [hbytes, hbytes', encodeList, List.append_assoc]
      · rintro ⟨raws, hframes, hlength, hbytes, hending, htally, rfl⟩
        cases raws with
        | nil => simp at hlength
        | cons raw raws =>
            simp only [framesOfList, Nat.max_le] at hframes
            simp only [tallyList, Option.bind_eq_some_iff] at htally
            obtain ⟨middle, htally, htally'⟩ := htally
            refine ⟨raw.value, middle, ⟨encodeList raws ++ rest.bytes, pipe.ending⟩,
              ⟨raw, hframes.1, ?_, rfl, htally, rfl⟩, valueList raws, c, rest,
              ⟨raws, hframes.2, by simpa using hlength, rfl, hending, htally', rfl⟩, ⟨rfl, rfl⟩, rfl⟩
            rw [hbytes, encodeList, List.append_assoc]

/-- What the reader takes from the pipe is the encoding of a raw value. -/
theorem exists_raw_of_readValueCounted {bound : Nat}
    (ih : ReadsRaw maxStringSize maxArraySize bound) {count c : Int} {pipe rest : Pipe}
    {value : Value}
    (h : readValueCounted maxStringSize maxArraySize (bound + 1) count pipe =
      .ok (value, c) rest) :
    ∃ raw : RawValue, raw.frames ≤ bound + 1 ∧ pipe.bytes = raw.encode ++ rest.bytes ∧
      rest.ending = pipe.ending ∧ raw.tally maxStringSize maxArraySize count = some c ∧
      value = raw.value := by
  simp only [readValueCounted, Reader.bind_apply, Outcome.bind_eq_ok, readByte_eq_ok] at h
  obtain ⟨b, middle, ⟨hb, hmiddle⟩, h⟩ := h
  cases htype : ValueType.ofCode b with
  | none => simp [htype] at h
  | some type =>
      obtain rfl := ValueType.eq_code_of_ofCode htype
      cases type with
      | void =>
          simp only [htype, Reader.pure_apply, Outcome.ok.injEq, Prod.mk.injEq] at h
          obtain ⟨⟨rfl, rfl⟩, rfl⟩ := h
          exact ⟨.void, by simp [frames], hb, hmiddle, rfl, rfl⟩
      | float32 =>
          simp only [htype, Reader.bind_apply, Outcome.bind_eq_ok, readWord_eq_ok,
            Reader.pure_apply, Outcome.ok.injEq, Prod.mk.injEq] at h
          obtain ⟨bits, last, ⟨hbits, hlast⟩, ⟨rfl, rfl⟩, rfl⟩ := h
          exact ⟨.float32 bits, by simp [frames], by rw [hb, hbits]; rfl,
            hlast.trans hmiddle, rfl, rfl⟩
      | int32 =>
          simp only [htype, Reader.bind_apply, Outcome.bind_eq_ok, readWord_eq_ok,
            Reader.pure_apply, Outcome.ok.injEq, Prod.mk.injEq] at h
          obtain ⟨bits, last, ⟨hbits, hlast⟩, ⟨rfl, rfl⟩, rfl⟩ := h
          exact ⟨.int32 bits, by simp [frames], by rw [hb, hbits]; rfl,
            hlast.trans hmiddle, rfl, rfl⟩
      | boolean =>
          simp only [htype, Reader.bind_apply, Outcome.bind_eq_ok, readByte_eq_ok,
            Reader.pure_apply, Outcome.ok.injEq, Prod.mk.injEq] at h
          obtain ⟨b, last, ⟨hbyte, hlast⟩, ⟨rfl, rfl⟩, rfl⟩ := h
          exact ⟨.boolean b, by simp [frames], by rw [hb, hbyte]; rfl,
            hlast.trans hmiddle, rfl, rfl⟩
      | string =>
          simp only [htype, Reader.bind_apply, Outcome.bind_eq_ok, readString_eq_ok,
            Reader.pure_apply, Outcome.ok.injEq, Prod.mk.injEq] at h
          obtain ⟨_, last, ⟨block, hfits, hblock, hlast, rfl⟩, ⟨rfl, rfl⟩, rfl⟩ := h
          refine ⟨.string block, by simp [frames], by rw [hb, hblock]; rfl,
            hlast.trans hmiddle, ?_, rfl⟩
          rw [tally, if_pos hfits]
      | array =>
          simp only [htype, Reader.bind_apply, Outcome.bind_eq_ok, readWord_eq_ok] at h
          obtain ⟨length, body, ⟨hlength, hbody⟩, h⟩ := h
          split at h
          · simp at h
          split at h
          · simp at h
          split at h
          · simp at h
          rename_i hlong hover htotal
          simp only [Reader.bind_apply, Outcome.bind_eq_ok, Prod.exists,
            readEntries_eq_ok ih, Reader.pure_apply, Outcome.ok.injEq, Prod.mk.injEq] at h
          obtain ⟨_, inner, last, ⟨raws, hframes, hcount, hraws, hlast, htally, rfl⟩,
            ⟨rfl, rfl⟩, rfl⟩ := h
          refine ⟨.array length raws, Nat.succ_le_succ hframes, ?_,
            (hlast.trans hbody).trans hmiddle, ?_, rfl⟩
          · rw [hb, hlength, hraws, encode, List.cons_append, List.append_assoc]
          · rw [tally, if_pos ⟨⟨hlong, hover, htotal⟩, hcount⟩, htally, Option.map_some]
      | function => simp [htype] at h

/-- The encoding of a raw value that passes the checks is read. -/
theorem readValueCounted_of_raw {bound : Nat} (ih : ReadsRaw maxStringSize maxArraySize bound)
    {count c : Int} {pipe rest : Pipe} {raw : RawValue} (hframes : raw.frames ≤ bound + 1)
    (hbytes : pipe.bytes = raw.encode ++ rest.bytes) (hending : rest.ending = pipe.ending)
    (htally : raw.tally maxStringSize maxArraySize count = some c) :
    readValueCounted maxStringSize maxArraySize (bound + 1) count pipe =
      .ok (raw.value, c) rest := by
  simp only [readValueCounted, Reader.bind_apply, Outcome.bind_eq_ok, readByte_eq_ok]
  cases raw with
  | void =>
      obtain rfl : count = c := by simpa [tally] using htally
      exact ⟨_, rest, ⟨hbytes, hending⟩, by simp [value]⟩
  | float32 bits =>
      obtain rfl : count = c := by simpa [tally] using htally
      refine ⟨_, ⟨wordBytes bits ++ rest.bytes, pipe.ending⟩, ⟨hbytes, rfl⟩, ?_⟩
      simp only [ValueType.ofCode_code, Reader.bind_apply, Outcome.bind_eq_ok,
        readWord_eq_ok]
      exact ⟨bits, rest, ⟨rfl, hending⟩, rfl⟩
  | int32 bits =>
      obtain rfl : count = c := by simpa [tally] using htally
      refine ⟨_, ⟨wordBytes bits ++ rest.bytes, pipe.ending⟩, ⟨hbytes, rfl⟩, ?_⟩
      simp only [ValueType.ofCode_code, Reader.bind_apply, Outcome.bind_eq_ok,
        readWord_eq_ok]
      exact ⟨bits, rest, ⟨rfl, hending⟩, rfl⟩
  | boolean b =>
      obtain rfl : count = c := by simpa [tally] using htally
      refine ⟨_, ⟨b :: rest.bytes, pipe.ending⟩, ⟨hbytes, rfl⟩, ?_⟩
      simp only [ValueType.ofCode_code, Reader.bind_apply, Outcome.bind_eq_ok,
        readByte_eq_ok]
      exact ⟨b, rest, ⟨rfl, hending⟩, rfl⟩
  | string block =>
      simp only [tally, Option.ite_none_right_eq_some, Option.some.injEq] at htally
      obtain ⟨hfits, rfl⟩ := htally
      refine ⟨_, ⟨wordBytes (BitVec.ofNat 32 block.length) ++ block ++ rest.bytes,
        pipe.ending⟩, ⟨hbytes, rfl⟩, ?_⟩
      simp only [ValueType.ofCode_code, Reader.bind_apply, Outcome.bind_eq_ok,
        readString_eq_ok]
      exact ⟨_, rest, ⟨block, hfits, rfl, hending, rfl⟩, rfl⟩
  | array length data =>
      simp only [tally, Option.ite_none_right_eq_some, Option.map_eq_some_iff] at htally
      obtain ⟨⟨⟨hlong, hover, htotal⟩, hcount⟩, inner, htally, rfl⟩ := htally
      refine ⟨_, ⟨wordBytes length ++ encodeList data ++ rest.bytes, pipe.ending⟩,
        ⟨hbytes, rfl⟩, ?_⟩
      simp only [ValueType.ofCode_code, Reader.bind_apply, Outcome.bind_eq_ok,
        readWord_eq_ok]
      refine ⟨length, ⟨encodeList data ++ rest.bytes, pipe.ending⟩,
        ⟨by rw [List.append_assoc], rfl⟩, ?_⟩
      rw [if_neg hlong, if_neg hover, if_neg htotal, Reader.bind_apply, Outcome.bind_eq_ok]
      refine ⟨(valueList data, inner), rest, (readEntries_eq_ok ih).mpr ?_, rfl⟩
      exact ⟨data, Nat.le_of_succ_le_succ hframes, hcount, rfl, hending, htally, rfl⟩

/-- **What the reader accepts.** `_read_value` returns a value exactly when its input starts with
the encoding of a raw value that passes its checks and nests no deeper than its stack; it then
has consumed that encoding and nothing else. -/
theorem readValueCounted_eq_ok {bound : Nat} {count c : Int} {pipe rest : Pipe} {value : Value} :
    readValueCounted maxStringSize maxArraySize bound count pipe = .ok (value, c) rest ↔
      ∃ raw : RawValue, raw.frames ≤ bound ∧ pipe.bytes = raw.encode ++ rest.bytes ∧
        rest.ending = pipe.ending ∧ raw.tally maxStringSize maxArraySize count = some c ∧
        value = raw.value := by
  induction bound generalizing count c pipe rest value with
  | zero =>
      simp only [readValueCounted, Reader.exhausted_apply, reduceCtorEq, false_iff, not_exists]
      rintro raw ⟨hframes, -⟩
      exact absurd raw.frames_pos (by omega)
  | succ bound ih =>
      have hreads : ReadsRaw maxStringSize maxArraySize bound := fun _ _ _ _ _ => ih
      constructor
      · exact exists_raw_of_readValueCounted hreads
      · rintro ⟨raw, hframes, hbytes, hending, htally, rfl⟩
        exact readValueCounted_of_raw hreads hframes hbytes hending htally

end Reader

end CageKeeper
