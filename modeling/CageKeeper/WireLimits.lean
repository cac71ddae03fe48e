import CageKeeper.WireRoundTrip

/-! What the limits of `read_value` bound. The counter takes an array's length in only after the
array's elements have been read, so the lengths of the arrays a value is nested in are not in it
when the value is checked. Strings are bounded on every stream; elements and depth are bounded
exactly when the array headers of the stream happen to be. -/

namespace CageKeeper
open ByteStream

namespace RawValue

mutual

/-- The lengths that the array headers of an encoding declare. -/
def headers : RawValue → List Nat
  | .array length data => length.toInt.toNat :: headersOfList data
  | _ => []

def headersOfList : List RawValue → List Nat
  | [] => []
  | entry :: data => headers entry ++ headersOfList data

end

/-- In an encoding that passes the checks the headers declare the elements of the value. -/
theorem sum_headers {maxStringSize maxArraySize count c : Int} {raw : RawValue}
    (htally : raw.tally maxStringSize maxArraySize count = some c) :
    raw.headers.sum = raw.value.elements := by
  induction raw using induction generalizing count c with
  | array length data ih =>
      simp only [tally, Option.ite_none_right_eq_some, Option.map_eq_some_iff] at htally
      obtain ⟨⟨-, hlength⟩, inner, hlist, -⟩ := htally
      have hsum : (headersOfList data).sum = Value.elementsOfList (valueList data) := by
        clear hlength
        induction data generalizing count with
        | nil => rfl
        | cons entry data ihdata =>
            simp only [tallyList, Option.bind_eq_some_iff] at hlist
            obtain ⟨middle, hentry, hrest⟩ := hlist
            rw [headersOfList, List.sum_append, ih entry (by simp) hentry,
              ihdata (fun entry hmem => ih entry (by simp [hmem])) hrest, valueList,
              Value.elementsOfList]
      rw [headers, List.sum_cons, hsum, value, Value.elements, valueList_length, hlength]
  | _ => simp [headers, value, Value.elements]

theorem length_lt_of_mem_strings {maxStringSize maxArraySize count c : Int} {raw : RawValue}
    (hmax : maxStringSize ≠ 0) (htally : raw.tally maxStringSize maxArraySize count = some c)
    {str : CString} (hmem : str ∈ raw.value.strings) : (str.length : Int) < maxStringSize := by
  induction raw using induction generalizing count c with
  | string block =>
      simp only [tally, Option.ite_none_right_eq_some] at htally
      have hblock := htally.1.2 hmax
      have hshorter := CString.length_ofBytes_le block
      simp only [value, Value.strings, List.mem_singleton] at hmem
      subst hmem
      omega
  | array length data ih =>
      simp only [tally, Option.ite_none_right_eq_some, Option.map_eq_some_iff] at htally
      obtain ⟨-, inner, hlist, -⟩ := htally
      simp only [value, Value.strings] at hmem
      induction data generalizing count with
      | nil => simp [valueList, Value.stringsOfList] at hmem
      | cons entry data ihdata =>
          simp only [tallyList, Option.bind_eq_some_iff] at hlist
          obtain ⟨middle, hentry, hrest⟩ := hlist
          simp only [valueList, Value.stringsOfList, List.mem_append] at hmem
          rcases hmem with hmem | hmem
          · exact ih entry (by simp) hentry hmem
          · exact ihdata (fun entry hmem => ih entry (by simp [hmem])) hrest hmem
  | _ => simp [value, Value.strings] at hmem

end RawValue

/-- What `read_value` is to guarantee on a stream from the child: the limits hold of the value it
returns, whose nesting and whose reading stay within 1024 levels. -/
structure ReaderLimits (pipe : Pipe) : Prop where
  strings : ∀ value rest, readValue pipe = .ok value rest →
    ∀ str ∈ value.strings, (str.length : Int) < maxStringSize
  elements : ∀ value rest, readValue pipe = .ok value rest → (value.elements : Int) < maxArraySize
  depth : ∀ value rest, readValue pipe = .ok value rest → value.depth < 1025
  recursion : readValueCounted maxStringSize maxArraySize 1024 0 pipe ≠ .exhausted

theorem readValue_eq_ok {pipe rest : Pipe} {value : Value} :
    readValue pipe = .ok value rest ↔
      ∃ raw : RawValue, pipe.bytes = raw.encode ++ rest.bytes ∧ rest.ending = pipe.ending ∧
        (raw.tally maxStringSize maxArraySize 0).isSome ∧ value = raw.value := by
  simp only [readValue, Reader.bind_apply, Outcome.bind_eq_ok, Prod.exists,
    withFrames_readValueCounted_eq_ok, Reader.pure_apply, Outcome.ok.injEq, Option.isSome_iff_exists]
  constructor
  · rintro ⟨_, c, _, ⟨raw, hbytes, hending, htally, rfl⟩, rfl, rfl⟩
    exact ⟨raw, hbytes, hending, ⟨c, htally⟩, rfl⟩
  · rintro ⟨raw, hbytes, hending, ⟨c, htally⟩, rfl⟩
    exact ⟨_, c, _, ⟨raw, hbytes, hending, htally, rfl⟩, rfl, rfl⟩

/-! ### What the check of a header leaves out -/

section Headers

open RawValue

variable {maxStringSize maxArraySize : Int}

/-- Where the reader comes to a value: the lengths of the arrays open around it, the outermost first,
and what the headers of the arrays completed before it declare. -/
inductive Around (maxStringSize maxArraySize : Int) :
    Int → Bytes → List Nat → Nat → Int → Bytes → Prop where
  | here {count : Int} {bytes : Bytes} :
      Around maxStringSize maxArraySize count bytes [] 0 count bytes
  | inside {count middle inner : Int} {length : BitVec 32} {before : List RawValue}
      {bytes rest : Bytes} {opened : List Nat} {closed : Nat}
      (hfits : ArrayFits maxArraySize count length.toInt)
      (hbefore : before.length < length.toInt.toNat)
      (htally : tallyList maxStringSize maxArraySize before count = some middle)
      (hinside : Around maxStringSize maxArraySize middle bytes opened closed inner rest) :
      Around maxStringSize maxArraySize count
        (ValueType.array.code :: (wordBytes length ++ (encodeList before ++ bytes)))
        (length.toInt.toNat :: opened) ((headersOfList before).sum + closed) inner rest

theorem Around.opens {count inner : Int} {bytes rest : Bytes} {opened : List Nat} {closed : Nat}
    (h : Around maxStringSize maxArraySize count bytes opened closed inner rest) :
    Opens maxStringSize maxArraySize opened.length count bytes := by
  induction h with
  | here => exact .here
  | inside hfits hbefore htally _ ih => exact .inside hfits hbefore htally ih

theorem Around.length_le_sum {count inner : Int} {bytes rest : Bytes} {opened : List Nat}
    {closed : Nat} (h : Around maxStringSize maxArraySize count bytes opened closed inner rest) :
    opened.length ≤ opened.sum := by
  induction h with
  | here => exact Nat.le_refl _
  | inside hfits hbefore _ _ ih =>
      rw [List.length_cons, List.sum_cons]
      omega

theorem Opens.mono {depth depth' : Nat} {count : Int} {bytes : Bytes}
    (h : Opens maxStringSize maxArraySize depth count bytes) (hle : depth' ≤ depth) :
    Opens maxStringSize maxArraySize depth' count bytes := by
  induction h generalizing depth' with
  | here =>
      obtain rfl := Nat.le_zero.mp hle
      exact .here
  | inside hfits hbefore htally _ ih =>
      cases depth' with
      | zero => exact .here
      | succ depth' => exact .inside hfits hbefore htally (ih (Nat.le_of_succ_le_succ hle))

theorem Opens.exists_around {depth : Nat} {count : Int} {bytes : Bytes}
    (h : Opens maxStringSize maxArraySize depth count bytes) :
    ∃ opened closed inner rest, opened.length = depth ∧
      Around maxStringSize maxArraySize count bytes opened closed inner rest := by
  induction h with
  | here => exact ⟨[], 0, _, _, rfl, .here⟩
  | inside hfits hbefore htally _ ih =>
      obtain ⟨opened, closed, inner, rest, hdepth, haround⟩ := ih
      exact ⟨_, _, inner, rest, by rw [List.length_cons, hdepth],
        .inside hfits hbefore htally haround⟩

theorem exists_around_of_opens {depth : Nat} {count : Int} {bytes : Bytes}
    (h : Opens maxStringSize maxArraySize (depth + 1) count bytes) :
    ∃ opened closed inner length rest, opened.length = depth ∧
      Around maxStringSize maxArraySize count bytes opened closed inner
        (ValueType.array.code :: (wordBytes length ++ rest)) ∧
      ArrayFits maxArraySize inner length.toInt ∧ 0 < length.toInt.toNat := by
  induction depth generalizing count bytes with
  | zero =>
      cases h with
      | inside hfits hbefore htally _ =>
          exact ⟨[], 0, count, _, _, rfl, .here, hfits, by omega⟩
  | succ depth ih =>
      cases h with
      | inside hfits hbefore htally hopens =>
          obtain ⟨opened, closed, inner, length, rest, hdepth, haround, hinner, hpos⟩ := ih hopens
          exact ⟨_, _, inner, length, rest, by rw [List.length_cons, hdepth],
            .inside hfits hbefore htally haround, hinner, hpos⟩

/-- Two encodings that pass the checks at the start of one stream declare the same. -/
theorem encode_unique {count c c' : Int} {raw raw' : RawValue} {rest rest' : Bytes}
    (hbytes : raw.encode ++ rest = raw'.encode ++ rest')
    (htally : raw.tally maxStringSize maxArraySize count = some c)
    (htally' : raw'.tally maxStringSize maxArraySize count = some c') :
    raw.headers.sum = raw'.headers.sum ∧ c = c' ∧ rest = rest' := by
  have hread : readValueCounted maxStringSize maxArraySize (max raw.frames raw'.frames) count
      (⟨raw.encode ++ rest, .eof⟩ : Pipe) = .ok (raw.value, c) ⟨rest, .eof⟩ :=
    readValueCounted_eq_ok.mpr ⟨raw, Nat.le_max_left _ _, rfl, rfl, htally, rfl⟩
  have hread' : readValueCounted maxStringSize maxArraySize (max raw.frames raw'.frames) count
      (⟨raw.encode ++ rest, .eof⟩ : Pipe) = .ok (raw'.value, c') ⟨rest', .eof⟩ :=
    readValueCounted_eq_ok.mpr ⟨raw', Nat.le_max_right _ _, hbytes, rfl, htally', rfl⟩
  rw [hread, Outcome.ok.injEq, Prod.mk.injEq, Pipe.mk.injEq] at hread'
  obtain ⟨⟨hvalue, hcount⟩, hrest, -⟩ := hread'
  exact ⟨by rw [sum_headers htally, sum_headers htally', hvalue], hcount, hrest⟩

/-- The elements that a loop has completed are the first ones of any encoding of all of them. -/
theorem tallyList_split {count middle c : Int} {before data : List RawValue} {rest last : Bytes}
    (hbytes : encodeList data ++ last = encodeList before ++ rest)
    (hlength : before.length < data.length)
    (hbefore : tallyList maxStringSize maxArraySize before count = some middle)
    (hdata : tallyList maxStringSize maxArraySize data count = some c) :
    ∃ (entry : RawValue) (after : List RawValue) (inner : Int),
      rest = entry.encode ++ (encodeList after ++ last) ∧
      entry.tally maxStringSize maxArraySize middle = some inner ∧
      (headersOfList data).sum =
        (headersOfList before).sum + (entry.headers.sum + (headersOfList after).sum) := by
  induction before generalizing data count with
  | nil =>
      cases data with
      | nil => exact absurd hlength (Nat.lt_irrefl _)
      | cons entry after =>
          obtain rfl : count = middle := by simpa [tallyList] using hbefore
          simp only [tallyList, Option.bind_eq_some_iff] at hdata
          obtain ⟨inner, hentry, -⟩ := hdata
          refine ⟨entry, after, inner, ?_, hentry, by simp [headersOfList]⟩
          rw [← List.append_assoc]
          exact hbytes.symm
  | cons raw before ih =>
      cases data with
      | nil => exact absurd hlength (Nat.not_lt_zero _)
      | cons entry data =>
          simp only [tallyList, Option.bind_eq_some_iff] at hbefore hdata
          obtain ⟨first, hraw, hbefore⟩ := hbefore
          obtain ⟨first', hentry, hdata⟩ := hdata
          rw [encodeList, encodeList, List.append_assoc, List.append_assoc] at hbytes
          obtain ⟨hsame, rfl, hrest⟩ := encode_unique hbytes hentry hraw
          obtain ⟨found, after, inner, hfound, hpasses, hsum⟩ :=
            ih hrest (Nat.lt_of_succ_lt_succ hlength) hbefore hdata
          refine ⟨found, after, inner, hfound, hpasses, ?_⟩
          rw [headersOfList, headersOfList, List.sum_append, List.sum_append, hsum, hsame,
            Nat.add_assoc]

theorem encode_eq_array {length : BitVec 32} {raw : RawValue} {bytes last : Bytes}
    (hbytes : ValueType.array.code :: (wordBytes length ++ bytes) = raw.encode ++ last) :
    ∃ data, raw = .array length data ∧ bytes = encodeList data ++ last := by
  cases raw with
  | array length' data =>
      rw [encode, List.cons_append, List.cons.injEq, List.append_assoc] at hbytes
      obtain ⟨hword, hrest⟩ := List.append_inj hbytes.2 rfl
      have hlength := congrArg bytesWord hword
      rw [bytesWord_wordBytes, bytesWord_wordBytes] at hlength
      exact ⟨data, by rw [hlength], hrest⟩
  | _ => simp [encode, ValueType.code] at hbytes

/-- A header inside an encoding that passes the checks is one of those that declare its elements. -/
theorem Around.le_headers {count inner c : Int} {bytes header rest last : Bytes}
    {opened : List Nat} {closed : Nat} {length : BitVec 32} {raw : RawValue}
    (h : Around maxStringSize maxArraySize count bytes opened closed inner header)
    (hheader : header = ValueType.array.code :: (wordBytes length ++ rest))
    (hbytes : bytes = raw.encode ++ last)
    (htally : raw.tally maxStringSize maxArraySize count = some c) :
    opened.sum + closed + length.toInt.toNat ≤ raw.headers.sum := by
  induction h generalizing raw last c with
  | here =>
      obtain ⟨data, rfl, -⟩ := encode_eq_array (hheader.symm.trans hbytes)
      simp [headers]
  | @inside count middle inner outer before bytes header opened closed hfits hbefore hmiddle _ ih =>
      obtain ⟨data, rfl, hdata⟩ := encode_eq_array hbytes
      simp only [tally, Option.ite_none_right_eq_some, Option.map_eq_some_iff] at htally
      obtain ⟨⟨-, hlength⟩, total, hlist, -⟩ := htally
      obtain ⟨entry, after, passed, hentry, hpasses, hsum⟩ :=
        tallyList_split hdata.symm (hlength.symm ▸ hbefore) hmiddle hlist
      have hinside := ih hheader hentry hpasses
      rw [headers, List.sum_cons, List.sum_cons, hsum]
      omega

theorem exists_last_entry {count c : Int} {data : List RawValue}
    (htally : tallyList maxStringSize maxArraySize data count = some c) :
    (headersOfList data).sum = 0 ∨
      ∃ (before : List RawValue) (entry : RawValue) (after : List RawValue) (middle inner : Int),
      data = before ++ entry :: after ∧
      tallyList maxStringSize maxArraySize before count = some middle ∧
      entry.tally maxStringSize maxArraySize middle = some inner ∧ entry.headers.sum ≠ 0 ∧
      (headersOfList data).sum = (headersOfList before).sum + entry.headers.sum := by
  induction data generalizing count with
  | nil => exact Or.inl rfl
  | cons first data ih =>
      simp only [tallyList, Option.bind_eq_some_iff] at htally
      obtain ⟨next, hfirst, hrest⟩ := htally
      rcases ih hrest with
        hnone | ⟨before, entry, after, middle, inner, rfl, hbefore, hentry, hsome, hsum⟩
      · by_cases hzero : first.headers.sum = 0
        · exact Or.inl (by rw [headersOfList, List.sum_append, hzero, hnone])
        · refine Or.inr ⟨[], first, data, count, next, rfl, rfl, hfirst, hzero, ?_⟩
          simp [headersOfList, hnone]
      · refine Or.inr ⟨first :: before, entry, after, middle, inner, rfl, ?_, hentry, hsome, ?_⟩
        · rw [tallyList, hfirst, Option.bind_some, hbefore]
        · rw [headersOfList, headersOfList, List.sum_append, List.sum_append, hsum, Nat.add_assoc]

theorem encodeList_append (front back : List RawValue) :
    encodeList (front ++ back) = encodeList front ++ encodeList back := by
  induction front with
  | nil => rfl
  | cons entry front ih => rw [List.cons_append, encodeList, encodeList, ih, List.append_assoc]

/-- At the last header of an encoding the open arrays, the completed ones and its own length make up
what the encoding declares. -/
theorem exists_around_last {count c : Int} {raw : RawValue} (last : Bytes)
    (htally : raw.tally maxStringSize maxArraySize count = some c) :
    raw.headers.sum = 0 ∨ ∃ opened closed inner length rest,
      Around maxStringSize maxArraySize count (raw.encode ++ last) opened closed inner
        (ValueType.array.code :: (wordBytes length ++ rest)) ∧
      ArrayFits maxArraySize inner length.toInt ∧
      opened.sum + closed + length.toInt.toNat = raw.headers.sum := by
  induction raw using RawValue.induction generalizing count c last with
  | array length data ih =>
      simp only [tally, Option.ite_none_right_eq_some, Option.map_eq_some_iff] at htally
      obtain ⟨⟨hfits, hlength⟩, total, hlist, -⟩ := htally
      have hhere : (headersOfList data).sum = 0 →
          Around maxStringSize maxArraySize count ((RawValue.array length data).encode ++ last) [] 0
            count (ValueType.array.code :: (wordBytes length ++ (encodeList data ++ last))) ∧
          ([] : List Nat).sum + 0 + length.toInt.toNat =
            (RawValue.array length data).headers.sum := by
        intro hnone
        constructor
        · rw [encode, List.cons_append, List.append_assoc]
          exact .here
        · simp [headers, hnone]
      rcases exists_last_entry hlist with
        hnone | ⟨before, entry, after, middle, inner, rfl, hbefore, hentry, hsome, hsum⟩
      · exact Or.inr ⟨[], 0, count, length, _, (hhere hnone).1, hfits, (hhere hnone).2⟩
      · rcases ih entry (by simp) (encodeList after ++ last) hentry with
          hzero | ⟨opened, closed, deepest, shortest, rest, haround, hinner, htotal⟩
        · exact absurd hzero hsome
        · refine Or.inr ⟨length.toInt.toNat :: opened, (headersOfList before).sum + closed, deepest,
            shortest, rest, ?_, hinner, ?_⟩
          · have hinside := Around.inside hfits
              (by rw [← hlength, List.length_append, List.length_cons]; omega) hbefore haround
            rw [encode, encodeList_append, encodeList]
            simpa only [List.cons_append, List.append_assoc] using hinside
          · rw [headers, List.sum_cons, List.sum_cons, hsum]
            omega
  | _ => exact Or.inl (by simp [headers])

end Headers

/-- The check of an array header passes although the lengths of the arrays open around it, what has
been declared in the arrays completed before it and its own length come to 1024 or more. -/
def LetThrough (bytes : Bytes) : Prop :=
  ∃ opened closed inner length rest,
    Around maxStringSize maxArraySize 0 bytes opened closed inner
      (ValueType.array.code :: (wordBytes length ++ rest)) ∧
    ArrayFits maxArraySize inner length.toInt ∧ 1024 ≤ opened.sum + closed + length.toInt.toNat

/-- The stream does not complete what it starts, and never has 1024 arrays open inside one another. -/
structure BreaksOff (bytes : Bytes) : Prop where
  incomplete : ∀ raw rest, bytes = RawValue.encode raw ++ rest →
    raw.tally maxStringSize maxArraySize 0 = none
  shallow : ∀ opened closed inner rest,
    Around maxStringSize maxArraySize 0 bytes opened closed inner rest → opened.length < 1024

/-- Where 1024 arrays are open the header of the innermost was let through. -/
theorem letThrough_of_opens {bytes : Bytes}
    (h : Opens maxStringSize maxArraySize 1024 0 bytes) : LetThrough bytes := by
  obtain ⟨opened, closed, inner, length, rest, hdepth, haround, hfits, hpos⟩ :=
    exists_around_of_opens h
  have hsum := haround.length_le_sum
  exact ⟨opened, closed, inner, length, rest, haround, hfits, by omega⟩

/-- **When the limits hold.** They hold of a stream exactly if no array header gets through the check
because the check leaves out the open arrays around it or takes negative lengths off, unless the
stream breaks off afterwards. -/
theorem readerLimits_iff (pipe : Pipe) :
    ReaderLimits pipe ↔ (LetThrough pipe.bytes → BreaksOff pipe.bytes) := by
  constructor
  · rintro h ⟨opened, closed, inner, length, rest, haround, -, hmany⟩
    constructor
    · intro raw last hbytes
      refine Option.eq_none_iff_forall_ne_some.mpr fun c hc => ?_
      have helements := h.elements raw.value ⟨last, pipe.ending⟩
        (readValue_eq_ok.mpr ⟨raw, hbytes, rfl, Option.isSome_iff_exists.mpr ⟨c, hc⟩, rfl⟩)
      have hheaders := haround.le_headers rfl hbytes hc
      rw [RawValue.sum_headers hc] at hheaders
      simp only [maxArraySize] at helements
      omega
    · intro opened closed inner rest haround
      by_contra hdeep
      exact h.recursion (readValueCounted_eq_exhausted.mpr
        (haround.opens.mono (Nat.le_of_not_lt hdeep)))
  · intro hletThrough
    have helements : ∀ value rest, readValue pipe = .ok value rest → value.elements < 1024 := by
      intro value rest hread
      obtain ⟨raw, hbytes, -, htally, rfl⟩ := readValue_eq_ok.mp hread
      obtain ⟨c, hc⟩ := Option.isSome_iff_exists.mp htally
      rw [← RawValue.sum_headers hc]
      by_contra hmany
      rcases exists_around_last rest.bytes hc with
        hnone | ⟨opened, closed, inner, length, last, haround, hfits, hsum⟩
      · omega
      · have hbreaks := hletThrough
          ⟨opened, closed, inner, length, last, hbytes ▸ haround, hfits, by omega⟩
        rw [hbreaks.incomplete raw rest.bytes hbytes] at hc
        cases hc
    refine ⟨fun value rest hread str hmem => ?_, fun value rest hread => ?_,
      fun value rest hread => ?_, fun hexhausted => ?_⟩
    · obtain ⟨raw, -, -, htally, rfl⟩ := readValue_eq_ok.mp hread
      obtain ⟨c, hc⟩ := Option.isSome_iff_exists.mp htally
      exact RawValue.length_lt_of_mem_strings (by decide) hc hmem
    · have := helements value rest hread
      simp only [maxArraySize]
      omega
    · have := helements value rest hread
      have := value.depth_le_elements
      omega
    · have hopens := readValueCounted_eq_exhausted.mp hexhausted
      obtain ⟨opened, closed, inner, rest, hdepth, haround⟩ := hopens.exists_around
      have hshallow := (hletThrough (letThrough_of_opens hopens)).shallow _ _ _ _ haround
      omega

/-- One-element arrays inside each other, with a void in the innermost. -/
def nestedArrays : Nat → RawValue
  | 0 => .void
  | depth + 1 => .array 1#32 [nestedArrays depth]

theorem value_elements_nestedArrays (depth : Nat) :
    (nestedArrays depth).value.elements = depth := by
  induction depth with
  | zero => rfl
  | succ depth ih =>
      simp [nestedArrays, RawValue.value, RawValue.valueList, Value.elements,
        Value.elementsOfList, ih, Nat.add_comm]

/-- Every header is checked while the counter is still zero, so the nesting is unlimited. -/
theorem tally_nestedArrays (depth : Nat) :
    ((nestedArrays depth).tally maxStringSize maxArraySize 0).isSome := by
  induction depth with
  | zero => rfl
  | succ depth ih =>
      obtain ⟨c, hc⟩ := Option.isSome_iff_exists.mp ih
      have hfits : ArrayFits maxArraySize 0 (1#32 : BitVec 32).toInt := by decide
      rw [nestedArrays, RawValue.tally, if_pos ⟨hfits, rfl⟩, RawValue.tallyList, hc]
      rfl

/-- A child that sends 1024 nested one-element arrays gets a value with 1024 elements accepted. -/
theorem not_readerLimits_nestedArrays : ¬ReaderLimits ⟨(nestedArrays 1024).encode, .eof⟩ := by
  intro h
  have helements := h.elements (nestedArrays 1024).value ⟨[], .eof⟩
    (readValue_eq_ok.mpr ⟨nestedArrays 1024, by simp, rfl, tally_nestedArrays 1024, rfl⟩)
  rw [value_elements_nestedArrays] at helements
  exact absurd helements (by decide)

end CageKeeper
