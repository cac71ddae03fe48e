import CageKeeper.WireGrammar

/-! The readers of the wire format are lawful: they take a prefix of their input, do not change
their verdict when more bytes arrive, and do not wait on a finished pipe. More stack frames only
turn an overflow into a verdict, so a stack as deep as the input is long never overflows. -/

namespace CageKeeper
open ByteStream RawValue

section Lawful

theorem readByte_lawful : (readByte : Reader Pipe UInt8).Lawful :=
  .bind (.read 1) fun _ => .pure _

theorem readWord_lawful : (readWord : Reader Pipe (BitVec 32)).Lawful :=
  .bind (.read 4) fun _ => .pure _

theorem readString_lawful (maxSize : Int) : (readString maxSize : Reader Pipe CString).Lawful :=
  .bind readWord_lawful fun _ =>
    .ite .reject (.ite .reject (.bind (.read _) fun _ => .pure _))

theorem readEntries_lawful {readEntry : Int → Reader Pipe (Value × Int)}
    (hentry : ∀ count, (readEntry count).Lawful) (remaining : Nat) (count : Int) :
    (readEntries readEntry remaining count).Lawful := by
  induction remaining generalizing count with
  | zero => exact .pure _
  | succ remaining ih => exact .bind (hentry count) fun _ => .bind (ih _) fun _ => .pure _

theorem readValueCounted_lawful (maxStringSize maxArraySize : Int) (frames : Nat) (count : Int) :
    (readValueCounted maxStringSize maxArraySize frames count : Reader Pipe _).Lawful := by
  induction frames generalizing count with
  | zero => exact .exhausted
  | succ frames ih =>
      refine .bind readByte_lawful fun b => ?_
      cases ValueType.ofCode b with
      | none => exact .reject
      | some type =>
          cases type with
          | void => exact .pure _
          | float32 => exact .bind readWord_lawful fun _ => .pure _
          | int32 => exact .bind readWord_lawful fun _ => .pure _
          | boolean => exact .bind readByte_lawful fun _ => .pure _
          | string => exact .bind (readString_lawful _) fun _ => .pure _
          | array =>
              refine .bind readWord_lawful fun _ =>
                .ite .reject (.ite .reject (.ite .reject ?_))
              exact .bind (readEntries_lawful ih _ _) fun _ => .pure _
          | function => exact .reject

end Lawful

section Below

variable {χ : Type} [Channel χ]

omit [Channel χ] in
theorem readEntries_below {lower upper : Int → Reader χ (Value × Int)}
    (hentry : ∀ count, (lower count).Below (upper count)) (remaining : Nat) (count : Int) :
    (readEntries lower remaining count).Below (readEntries upper remaining count) := by
  induction remaining generalizing count with
  | zero => exact .refl _
  | succ remaining ih => exact .bind (hentry count) fun _ => .bind (ih _) fun _ => .refl _

theorem readValueCounted_below (maxStringSize maxArraySize : Int) {frames frames' : Nat}
    (hle : frames ≤ frames') (count : Int) :
    (readValueCounted maxStringSize maxArraySize frames count : Reader χ _).Below
      (readValueCounted maxStringSize maxArraySize frames' count) := by
  induction frames generalizing frames' count with
  | zero => exact .exhausted _
  | succ frames ih =>
      obtain ⟨frames', rfl⟩ : ∃ k, frames' = k + 1 := ⟨frames' - 1, by omega⟩
      refine .bind (.refl _) fun b => ?_
      cases ValueType.ofCode b with
      | none => exact .refl _
      | some type =>
          cases type with
          | array =>
              refine .bind (.refl _) fun _ => .ite (.refl _) (.ite (.refl _) (.ite (.refl _) ?_))
              exact .bind (readEntries_below (fun count => ih (by omega) count) _ _) fun _ => .refl _
          | _ => exact .refl _

end Below

theorem readValue_lawful : (readValue : Reader Pipe Value).Lawful :=
  .bind (.withFrames (fun frames => readValueCounted_lawful _ _ frames 0)
    fun hle => readValueCounted_below _ _ hle 0) fun _ => .pure _

theorem readValueNolimit_lawful : (readValueNolimit : Reader Pipe Value).Lawful :=
  .bind (.withFrames (fun frames => readValueCounted_lawful _ _ frames 0)
    fun hle => readValueCounted_below _ _ hle 0) fun _ => .pure _

/-! ### Running out of stack frames

The reader needs one frame more for every array it is inside of. -/

/-- The input opens `depth` arrays, each inside the one before it: each header passes the reader's
checks, and the elements before the next opening are complete and pass them too. -/
inductive Opens (maxStringSize maxArraySize : Int) : Nat → Int → Bytes → Prop where
  | here {count : Int} {bytes : Bytes} : Opens maxStringSize maxArraySize 0 count bytes
  | inside {depth : Nat} {count inner : Int} {length : BitVec 32} {before : List RawValue}
      {bytes : Bytes} (hfits : ArrayFits maxArraySize count length.toInt)
      (hbefore : before.length < length.toInt.toNat)
      (htally : tallyList maxStringSize maxArraySize before count = some inner)
      (hopens : Opens maxStringSize maxArraySize depth inner bytes) :
      Opens maxStringSize maxArraySize (depth + 1) count
        (ValueType.array.code :: (wordBytes length ++ (encodeList before ++ bytes)))

variable {maxStringSize maxArraySize : Int}

theorem Opens.length_le {depth : Nat} {count : Int} {bytes : Bytes}
    (h : Opens maxStringSize maxArraySize depth count bytes) : depth ≤ bytes.length := by
  induction h with
  | here => exact Nat.zero_le _
  | inside _ _ _ _ ih =>
      simp only [List.length_cons, List.length_append]
      omega

theorem readByte_ne_exhausted (pipe : Pipe) : readByte pipe ≠ .exhausted := by
  simp [readByte, Outcome.bind_eq_exhausted, Pipe.read_ne_exhausted]

theorem readWord_ne_exhausted (pipe : Pipe) : readWord pipe ≠ .exhausted := by
  simp [readWord, Outcome.bind_eq_exhausted, Pipe.read_ne_exhausted]

theorem readString_ne_exhausted (maxSize : Int) (pipe : Pipe) :
    readString maxSize pipe ≠ .exhausted := by
  simp only [readString, Reader.bind_apply, ne_eq, Outcome.bind_eq_exhausted, not_or, not_exists,
    not_and]
  refine ⟨readWord_ne_exhausted pipe, fun word rest _ => ?_⟩
  split
  · simp
  split
  · simp
  · simp [Outcome.bind_eq_exhausted, Pipe.read_ne_exhausted]

/-- The elements before the one at which the loop overflows were all read. -/
theorem readEntries_exhausted {frames remaining : Nat} {count : Int} {pipe : Pipe}
    (h : readEntries (readValueCounted maxStringSize maxArraySize frames) remaining count pipe =
      .exhausted) :
    ∃ (before : List RawValue) (inner : Int) (rest : Pipe), before.length < remaining ∧
      pipe.bytes = encodeList before ++ rest.bytes ∧
      tallyList maxStringSize maxArraySize before count = some inner ∧
      readValueCounted maxStringSize maxArraySize frames inner rest = .exhausted := by
  induction remaining generalizing count pipe with
  | zero => simp [readEntries] at h
  | succ remaining ih =>
      simp only [readEntries, Reader.bind_apply, Outcome.bind_eq_exhausted] at h
      rcases h with h | ⟨⟨entry, middle⟩, rest, hentry, h | ⟨_, _, _, h⟩⟩
      · exact ⟨[], count, pipe, Nat.succ_pos _, rfl, rfl, h⟩
      · obtain ⟨raw, -, hbytes, -, htally, -⟩ := readValueCounted_eq_ok.mp hentry
        obtain ⟨before, inner, last, hlength, hrest, hinner, hlast⟩ := ih h
        refine ⟨raw :: before, inner, last, by simpa using hlength, ?_, ?_, hlast⟩
        · rw [hbytes, hrest, encodeList, List.append_assoc]
        · rw [tallyList, htally, Option.bind_some, hinner]
      · simp at h

theorem opens_of_exhausted {frames : Nat} {count : Int} {pipe : Pipe}
    (h : readValueCounted maxStringSize maxArraySize frames count pipe = .exhausted) :
    Opens maxStringSize maxArraySize frames count pipe.bytes := by
  induction frames generalizing count pipe with
  | zero => exact .here
  | succ frames ih =>
      simp only [readValueCounted, Reader.bind_apply, Outcome.bind_eq_exhausted] at h
      rcases h with h | ⟨b, body, hb, h⟩
      · exact absurd h (readByte_ne_exhausted pipe)
      obtain ⟨hbytes, -⟩ := readByte_eq_ok.mp hb
      cases htype : ValueType.ofCode b with
      | none => simp [htype] at h
      | some type =>
          obtain rfl := ValueType.eq_code_of_ofCode htype
          cases type <;> simp only [htype, Reader.bind_apply, Outcome.bind_eq_exhausted,
            Reader.pure_apply, Reader.reject_apply, reduceCtorEq, and_false, exists_false,
            or_false, readWord_ne_exhausted, readByte_ne_exhausted, readString_ne_exhausted,
            false_or] at h
          obtain ⟨length, entries, hlength, h⟩ := h
          obtain ⟨hlengthBytes, -⟩ := readWord_eq_ok.mp hlength
          split at h
          · simp at h
          split at h
          · simp at h
          split at h
          · simp at h
          rename_i hlong hover htotal
          simp only [Reader.bind_apply, Outcome.bind_eq_exhausted, Reader.pure_apply, reduceCtorEq,
            and_false, exists_false, or_false] at h
          obtain ⟨before, inner, rest, hbefore, hentries, htally, hrest⟩ := readEntries_exhausted h
          rw [hbytes, hlengthBytes, hentries]
          exact .inside ⟨hlong, hover, htotal⟩ hbefore htally (ih hrest)

/-- The loop overflows at an element that overflows, if it gets there. -/
theorem readEntries_exhausted_of_before {frames : Nat} {before : List RawValue}
    {count inner : Int} {bytes : Bytes} {ending : Ending}
    (htally : tallyList maxStringSize maxArraySize before count = some inner)
    (hentry : readValueCounted maxStringSize maxArraySize frames inner
      (⟨bytes, ending⟩ : Pipe) = .exhausted) {remaining : Nat}
    (hremaining : before.length < remaining) :
    readEntries (readValueCounted maxStringSize maxArraySize frames) remaining count
      (⟨encodeList before ++ bytes, ending⟩ : Pipe) = .exhausted := by
  induction before generalizing count remaining with
  | nil =>
      obtain ⟨remaining, rfl⟩ : ∃ k, remaining = k + 1 := ⟨remaining - 1, by simp at hremaining; omega⟩
      obtain rfl : count = inner := by simpa [tallyList] using htally
      simp [readEntries, encodeList, hentry]
  | cons raw before ih =>
      obtain ⟨remaining, rfl⟩ : ∃ k, remaining = k + 1 := ⟨remaining - 1, by simp at hremaining; omega⟩
      simp only [tallyList, Option.bind_eq_some_iff] at htally
      obtain ⟨middle, hraw, htally⟩ := htally
      have hread : readValueCounted maxStringSize maxArraySize raw.frames count
          (⟨raw.encode ++ (encodeList before ++ bytes), ending⟩ : Pipe) =
            .ok (raw.value, middle) ⟨encodeList before ++ bytes, ending⟩ :=
        readValueCounted_eq_ok.mpr ⟨raw, Nat.le_refl _, rfl, rfl, hraw, rfl⟩
      rw [encodeList, List.append_assoc, readEntries, Reader.bind_apply, Outcome.bind_eq_exhausted]
      -- with too few frames for this element the loop overflows here, otherwise further on
      by_cases hexhausted : readValueCounted maxStringSize maxArraySize frames count
          (⟨raw.encode ++ (encodeList before ++ bytes), ending⟩ : Pipe) = .exhausted
      · exact Or.inl hexhausted
      · have hsame : readValueCounted maxStringSize maxArraySize frames count
            (⟨raw.encode ++ (encodeList before ++ bytes), ending⟩ : Pipe) =
              .ok (raw.value, middle) ⟨encodeList before ++ bytes, ending⟩ := by
          rcases Nat.le_total frames raw.frames with hle | hle
          · rw [← readValueCounted_below _ _ hle count _ hexhausted, hread]
          · rw [readValueCounted_below _ _ hle count _ (by simp [hread]), hread]
        refine Or.inr ⟨_, _, hsame, ?_⟩
        simp [ih htally (by simpa using hremaining)]

/-- **Recursion depth.** A stack of `depth` frames overflows exactly on the inputs that open
`depth` arrays inside each other. -/
theorem readValueCounted_eq_exhausted {depth : Nat} {count : Int} {pipe : Pipe} :
    readValueCounted maxStringSize maxArraySize depth count pipe = .exhausted ↔
      Opens maxStringSize maxArraySize depth count pipe.bytes := by
  refine ⟨opens_of_exhausted, fun h => ?_⟩
  obtain ⟨bytes, ending⟩ := pipe
  simp only at h
  induction h with
  | here => rfl
  | @inside depth count inner length before bytes hfits hbefore htally _ ih =>
      have hbyte : readByte (⟨ValueType.array.code :: (wordBytes length ++
          (encodeList before ++ bytes)), ending⟩ : Pipe) =
            .ok ValueType.array.code ⟨wordBytes length ++ (encodeList before ++ bytes), ending⟩ :=
        readByte_eq_ok.mpr ⟨rfl, rfl⟩
      have hword : readWord (⟨wordBytes length ++ (encodeList before ++ bytes), ending⟩ : Pipe) =
          .ok length ⟨encodeList before ++ bytes, ending⟩ := readWord_eq_ok.mpr ⟨rfl, rfl⟩
      simp only [readValueCounted, Reader.bind_apply, hbyte, Outcome.bind_ok,
        ValueType.ofCode_code, hword]
      rw [if_neg hfits.1, if_neg hfits.2.1, if_neg hfits.2.2, Reader.bind_apply,
        readEntries_exhausted_of_before htally ih hbefore, Outcome.bind_exhausted]

/-- With more frames than bytes the reader does not overflow. -/
theorem readValueCounted_ne_exhausted {frames : Nat} (count : Int) {pipe : Pipe}
    (hframes : pipe.bytes.length < frames) :
    readValueCounted maxStringSize maxArraySize frames count pipe ≠ .exhausted := by
  rw [ne_eq, readValueCounted_eq_exhausted]
  intro hopens
  have hlength := hopens.length_le
  omega

end CageKeeper
