import CageKeeper.LoggedReader
import CageKeeper.WireLimits

/-! The arithmetic of `_read_value`. A twin of the reader logs its recursive calls and every
expression of type `int` with the values of its operands. Two things go wrong on a stream: a length
below zero passes the checks and is added to the counter, and the lengths of the arrays that an
array is nested in are added to the counter after its checks. -/

namespace CageKeeper
open ByteStream RawValue

/-- What happens to the counter of `_read_value`. -/
inductive CountEvent where
  /-- A call of `_read_value`, with this `*count`. -/
  | call (count : Int)
  /-- `INT_MAX - *count`. -/
  | difference (count : Int)
  /-- `dummy.length + *count`. -/
  | sum (length count : Int)
  /-- The length of an array has passed the checks. -/
  | accepted (length : Int)
  /-- The elements of an array have been read: `*count += dummy.length`. -/
  | completed (length count : Int)
  deriving DecidableEq

section Reading

variable {χ : Type}

/-- The loop of `_read_value` over the elements of an array. -/
def entriesLogged (readEntry : Int → Logged CountEvent χ (Value × Int)) :
    Nat → Int → Logged CountEvent χ (List Value × Int)
  | 0, count => pure ([], count)
  | remaining + 1, count => do
      let (entry, count) ← readEntry count
      let (data, count) ← entriesLogged readEntry remaining count
      pure (entry :: data, count)

/-- What `_read_value` does with a length that has passed the checks. -/
def arrayLogged (readEntry : Int → Logged CountEvent χ (Value × Int)) (length count : Int) :
    Logged CountEvent χ (Value × Int) := do
  Logged.tell [.accepted length]
  let (data, count) ← entriesLogged readEntry length.toNat count
  Logged.tell [.completed length count]
  pure (.array data, wrap (count + length))

theorem entriesLogged_reader {readEntry : Int → Logged CountEvent χ (Value × Int)}
    {reader : Int → Reader χ (Value × Int)} (hentry : ∀ count, (readEntry count).reader = reader count)
    (remaining : Nat) (count : Int) :
    (entriesLogged readEntry remaining count).reader = readEntries reader remaining count := by
  induction remaining generalizing count with
  | zero => rfl
  | succ remaining ih =>
      rw [entriesLogged, readEntries, Logged.reader_bind, hentry]
      apply congrArg
      funext entry
      rw [Logged.reader_bind, ih]
      rfl

theorem arrayLogged_reader {readEntry : Int → Logged CountEvent χ (Value × Int)}
    {reader : Int → Reader χ (Value × Int)} (hentry : ∀ count, (readEntry count).reader = reader count)
    (length count : Int) :
    (arrayLogged readEntry length count).reader = (do
      let (data, count) ← readEntries reader length.toNat count
      pure (.array data, wrap (count + length))) := by
  rw [arrayLogged, Logged.reader_tell_bind, Logged.reader_bind, entriesLogged_reader hentry]
  rfl

variable [Channel χ]

/-- `_read_value` with a log. -/
def valueLogged (maxStringSize maxArraySize : Int) :
    (frames : Nat) → (count : Int) → Logged CountEvent χ (Value × Int)
  | 0, _ => .lift Reader.exhausted
  | frames + 1, count => do
      Logged.tell [.call count]
      let b ← .lift readByte
      match ValueType.ofCode b with
      | some .void => pure (.void, count)
      | some .float32 => do
          let f32 ← .lift readWord
          pure (.float32 f32, count)
      | some .int32 => do
          let i32 ← .lift readWord
          pure (.int32 i32, count)
      | some .boolean => do
          let b ← .lift readByte
          pure (.boolean (b ≠ 0), count)
      | some .string => do
          let s ← .lift (readString maxStringSize)
          pure (.string s, count)
      | some .array => do
          let word ← .lift readWord
          let length := word.toInt
          if maxArraySize ≠ 0 ∧ length ≥ maxArraySize then
            .lift Reader.reject
          else do
            Logged.tell [.difference count]
            if length ≥ wrap (intMax - count) then
              .lift Reader.reject
            else do
              Logged.tell (if maxArraySize ≠ 0 then [.sum length count] else [])
              if maxArraySize ≠ 0 ∧ wrap (length + count) ≥ maxArraySize then
                .lift Reader.reject
              else do
                arrayLogged (valueLogged maxStringSize maxArraySize frames) length count
      | _ => .lift Reader.reject

theorem valueLogged_reader (maxStringSize maxArraySize : Int) (frames : Nat) (count : Int) :
    (valueLogged maxStringSize maxArraySize frames count : Logged _ χ _).reader
      = readValueCounted maxStringSize maxArraySize frames count := by
  induction frames generalizing count with
  | zero => rfl
  | succ frames ih =>
      rw [valueLogged, readValueCounted, Logged.reader_tell_bind, Logged.reader_bind]
      apply congrArg
      funext b
      cases ValueType.ofCode b with
      | none => rfl
      | some type =>
          cases type with
          | void => rfl
          | float32 => exact Logged.reader_bind _ _
          | int32 => exact Logged.reader_bind _ _
          | boolean => exact Logged.reader_bind _ _
          | string => exact Logged.reader_bind _ _
          | function => rfl
          | array =>
              apply (Logged.reader_bind _ _).trans
              apply congrArg
              funext word
              simp only [Logged.reader_ite, Logged.reader_tell_bind, Logged.reader_lift,
                arrayLogged_reader ih]

end Reading

/-! ### What is to hold of the arithmetic -/

/-- The range of `int`. -/
def InInt (result : Int) : Prop := -2147483648 ≤ result ∧ result ≤ intMax

instance (result : Int) : Decidable (InInt result) := by
  unfold InInt
  infer_instance

/-- What the reader is to keep, when arrays with this many elements have been completed before: its
counter is not negative and is the number of elements of the completed arrays, it accepts no
negative length, and no result leaves the range of `int`. -/
def Sound : Nat → List CountEvent → Prop
  | _, [] => True
  | elements, .call count :: log => (0 ≤ count ∧ count = elements) ∧ Sound elements log
  | elements, .difference count :: log => InInt (intMax - count) ∧ Sound elements log
  | elements, .sum length count :: log => InInt (length + count) ∧ Sound elements log
  | elements, .accepted length :: log => 0 ≤ length ∧ Sound elements log
  | elements, .completed length count :: log =>
      InInt (count + length) ∧ Sound (elements + length.toNat) log

/-- The number of elements of the arrays a log completes. -/
def completedElements : List CountEvent → Nat
  | [] => 0
  | .completed length _ :: log => length.toNat + completedElements log
  | _ :: log => completedElements log

theorem completedElements_append (log log' : List CountEvent) :
    completedElements (log ++ log') = completedElements log + completedElements log' := by
  induction log with
  | nil => simp [completedElements]
  | cons event log ih => cases event <;> simp [completedElements, ih, Nat.add_assoc]

theorem sound_append {elements : Nat} {log log' : List CountEvent} :
    Sound elements (log ++ log') ↔
      Sound elements log ∧ Sound (elements + completedElements log) log' := by
  induction log generalizing elements with
  | nil => simp [Sound, completedElements]
  | cons event log ih =>
      cases event <;> simp [Sound, completedElements, ih, and_assoc, Nat.add_assoc]

theorem Sound.of_mem {elements : Nat} {log : List CountEvent} (hsound : Sound elements log)
    {event : CountEvent} (hmem : event ∈ log) : ∃ elements', Sound elements' [event] := by
  obtain ⟨front, back, rfl⟩ := List.append_of_mem hmem
  have hevent := (sound_append.mp hsound).2
  rw [← List.singleton_append] at hevent
  exact ⟨_, (sound_append.mp hevent).1⟩

/-! ### The array headers of a stream -/

variable {maxStringSize maxArraySize : Int}

/-- Where a value is read with counter `inner` from `rest`, if one is read with counter `count` from
`bytes`: there, or behind array headers that pass the checks and complete elements. -/
inductive Reaches (maxStringSize maxArraySize : Int) : Int → Bytes → Int → Bytes → Prop where
  | here {count : Int} {bytes : Bytes} : Reaches maxStringSize maxArraySize count bytes count bytes
  | inside {count middle inner : Int} {length : BitVec 32} {before : List RawValue}
      {bytes rest : Bytes} (hfits : ArrayFits maxArraySize count length.toInt)
      (hbefore : before.length < length.toInt.toNat)
      (htally : tallyList maxStringSize maxArraySize before count = some middle)
      (hreaches : Reaches maxStringSize maxArraySize middle bytes inner rest) :
      Reaches maxStringSize maxArraySize count
        (ValueType.array.code :: (wordBytes length ++ (encodeList before ++ bytes))) inner rest

/-- No array header that passes the checks has a negative length, and where the elements it declares
are all there, its length and those of the arrays before it add up to at most `INT_MAX`. -/
def HeadersFit (maxStringSize maxArraySize count : Int) (bytes : Bytes) : Prop :=
  ∀ (inner : Int) (length : BitVec 32) (rest : Bytes),
    Reaches maxStringSize maxArraySize count bytes inner
      (ValueType.array.code :: (wordBytes length ++ rest)) →
    ArrayFits maxArraySize inner length.toInt →
    0 ≤ length.toInt ∧
      ∀ (data : List RawValue) (last : Bytes) (total : Int), rest = encodeList data ++ last →
        data.length = length.toInt.toNat →
        tallyList maxStringSize maxArraySize data inner = some total →
        total + length.toInt ≤ intMax

theorem HeadersFit.inside {count middle : Int} {length : BitVec 32} {before : List RawValue}
    {bytes : Bytes}
    (h : HeadersFit maxStringSize maxArraySize count
      (ValueType.array.code :: (wordBytes length ++ (encodeList before ++ bytes))))
    (hfits : ArrayFits maxArraySize count length.toInt)
    (hbefore : before.length < length.toInt.toNat)
    (htally : tallyList maxStringSize maxArraySize before count = some middle) :
    HeadersFit maxStringSize maxArraySize middle bytes := by
  intro inner length' rest hreaches
  exact h inner length' rest (.inside hfits hbefore htally hreaches)

/-! ### Streams whose headers fit -/

/-- A run that starts with `elements` in the counter has a sound log, and what it returns in the
counter is what its log says. -/
def Counts {α : Type} (elements : Nat)
    (run : List CountEvent × Outcome Pipe (α × Int)) : Prop :=
  Sound elements run.1 ∧ ∀ value count rest, run.2 = .ok (value, count) rest →
    count = (elements + completedElements run.1 : Nat) ∧ count ≤ intMax

namespace Counts

variable {α β : Type} {elements : Nat} {pipe : Pipe}

theorem pure (value : α) (hmax : (elements : Int) ≤ intMax) :
    Counts elements ((Pure.pure (value, (elements : Int)) : Logged CountEvent Pipe _) pipe) := by
  refine ⟨trivial, fun value' count rest hresult => ?_⟩
  simp only [Logged.pure_apply, Outcome.ok.injEq, Prod.mk.injEq] at hresult
  obtain ⟨⟨-, rfl⟩, -⟩ := hresult
  exact ⟨rfl, hmax⟩

theorem reject : Counts elements ((Logged.lift Reader.reject : Logged CountEvent Pipe (α × Int)) pipe) :=
  ⟨trivial, fun _ _ _ hresult => nomatch hresult⟩

theorem exhausted :
    Counts elements ((Logged.lift Reader.exhausted : Logged CountEvent Pipe (α × Int)) pipe) :=
  ⟨trivial, fun _ _ _ hresult => nomatch hresult⟩

theorem tell {log : List CountEvent} {next : Unit → Logged CountEvent Pipe (α × Int)}
    (hsound : Sound elements log)
    (hnext : Counts (elements + completedElements log) (next () pipe)) :
    Counts elements ((Logged.tell log >>= next) pipe) := by
  rw [Logged.tell_bind_apply]
  refine ⟨sound_append.mpr ⟨hsound, hnext.1⟩, fun value count rest hresult => ?_⟩
  rw [completedElements_append, ← Nat.add_assoc]
  exact hnext.2 value count rest hresult

theorem lift {reader : Reader Pipe α} {next : α → Logged CountEvent Pipe (β × Int)}
    (hnext : ∀ value rest, reader pipe = .ok value rest → Counts elements (next value rest)) :
    Counts elements ((Logged.lift reader >>= next) pipe) := by
  rw [Logged.lift_bind_apply]
  cases hresult : reader pipe with
  | ok value rest => exact hnext value rest hresult
  | reject rest => exact ⟨trivial, fun _ _ _ hresult => nomatch hresult⟩
  | short => exact ⟨trivial, fun _ _ _ hresult => nomatch hresult⟩
  | exhausted => exact ⟨trivial, fun _ _ _ hresult => nomatch hresult⟩

theorem bind {logged : Logged CountEvent Pipe (α × Int)}
    {next : α × Int → Logged CountEvent Pipe (β × Int)} (hfirst : Counts elements (logged pipe))
    (hnext : ∀ value (elements' : Nat) rest, logged.reader pipe = .ok (value, elements') rest →
      (elements' : Int) ≤ intMax → Counts elements' (next (value, elements') rest)) :
    Counts elements ((logged >>= next) pipe) := by
  rw [Logged.bind_apply]
  obtain ⟨hsound, hcount⟩ := hfirst
  rcases hrun : logged pipe with ⟨log, outcome⟩
  rw [hrun] at hsound hcount
  cases outcome with
  | ok result rest =>
      obtain ⟨value, count⟩ := result
      obtain ⟨heq, hmax⟩ := hcount value count rest rfl
      simp only at heq
      subst heq
      have hlater := hnext value _ rest (congrArg Prod.snd hrun) hmax
      refine ⟨sound_append.mpr ⟨hsound, hlater.1⟩, fun value' count' last hresult => ?_⟩
      rw [completedElements_append, ← Nat.add_assoc]
      exact hlater.2 value' count' last hresult
  | reject rest => exact ⟨hsound, fun _ _ _ hresult => nomatch hresult⟩
  | short => exact ⟨hsound, fun _ _ _ hresult => nomatch hresult⟩
  | exhausted => exact ⟨hsound, fun _ _ _ hresult => nomatch hresult⟩

end Counts

section Fits

variable {frames elements : Nat}

/-- What the reader keeps from a good state with this many stack frames. -/
def CountsFrom (maxStringSize maxArraySize : Int) (frames : Nat) : Prop :=
  ∀ (elements : Nat) (pipe : Pipe), (elements : Int) ≤ intMax →
    HeadersFit maxStringSize maxArraySize elements pipe.bytes →
    Counts elements (valueLogged maxStringSize maxArraySize frames elements pipe)

theorem readValueCounted_of_valueLogged {count : Int} {pipe : Pipe} {value : Value} {c : Int}
    {rest : Pipe}
    (hread : (valueLogged maxStringSize maxArraySize frames count).reader pipe = .ok (value, c) rest) :
    ∃ raw : RawValue, pipe.bytes = raw.encode ++ rest.bytes ∧
      raw.tally maxStringSize maxArraySize count = some c := by
  rw [valueLogged_reader] at hread
  obtain ⟨raw, -, hbytes, -, htally, -⟩ := readValueCounted_eq_ok.mp hread
  exact ⟨raw, hbytes, htally⟩

theorem counts_entries (hentry : CountsFrom maxStringSize maxArraySize frames) {remaining : Nat}
    {pipe : Pipe} (hmax : (elements : Int) ≤ intMax)
    (hfits : ∀ (before : List RawValue) (rest : Bytes) (middle : Int),
      before.length < remaining → pipe.bytes = encodeList before ++ rest →
      tallyList maxStringSize maxArraySize before elements = some middle →
      HeadersFit maxStringSize maxArraySize middle rest) :
    Counts elements (entriesLogged (valueLogged maxStringSize maxArraySize frames) remaining
      elements pipe) := by
  induction remaining generalizing elements pipe with
  | zero => exact .pure [] hmax
  | succ remaining ih =>
      have hfirst := hentry elements pipe hmax
        (hfits [] pipe.bytes elements (Nat.succ_pos _) rfl rfl)
      refine .bind hfirst fun value elements' rest hread hmax' => ?_
      obtain ⟨raw, hbytes, htally⟩ := readValueCounted_of_valueLogged hread
      have hrest := ih hmax' fun before last middle hbefore hlast hmiddle => by
        apply hfits (raw :: before) last middle (Nat.succ_lt_succ hbefore)
        · rw [hbytes, hlast, encodeList, List.append_assoc]
        · rw [tallyList, htally, Option.bind_some, hmiddle]
      exact .bind hrest fun data total _ _ htotal => .pure (value :: data) htotal

theorem counts_array (hentry : CountsFrom maxStringSize maxArraySize frames) {length : BitVec 32}
    {pipe : Pipe} (hmax : (elements : Int) ≤ intMax)
    (hfit : HeadersFit maxStringSize maxArraySize elements
      (ValueType.array.code :: (wordBytes length ++ pipe.bytes)))
    (hchecks : ArrayFits maxArraySize elements length.toInt) :
    Counts elements (arrayLogged (valueLogged maxStringSize maxArraySize frames) length.toInt
      elements pipe) := by
  obtain ⟨hnonneg, htotal⟩ := hfit elements length pipe.bytes .here hchecks
  refine .tell ⟨hnonneg, trivial⟩ (.bind (counts_entries hentry hmax ?_) ?_)
  · intro before rest middle hbefore hbytes htally
    rw [hbytes] at hfit
    exact hfit.inside hchecks hbefore htally
  · intro data total rest hread hle
    rw [entriesLogged_reader (valueLogged_reader _ _ _)] at hread
    obtain ⟨raws, -, hcount, hbytes, -, htally, -⟩ :=
      (readEntries_eq_ok fun _ _ _ _ _ => readValueCounted_eq_ok).mp hread
    have hsum := htotal raws rest.bytes total hbytes hcount htally
    have hcast : ((total + length.toInt.toNat : Nat) : Int) = total + length.toInt := by omega
    refine .tell ⟨⟨by omega, hsum⟩, trivial⟩ ?_
    change Counts (total + length.toInt.toNat) _
    rw [wrap_of_range (by omega) hsum, ← hcast]
    exact .pure _ (by omega)

theorem countsFrom (maxStringSize maxArraySize : Int) (frames : Nat) :
    CountsFrom maxStringSize maxArraySize frames := by
  induction frames with
  | zero => exact fun _ _ _ _ => .exhausted
  | succ frames ih =>
      intro elements pipe hmax hfit
      refine .tell ⟨⟨Int.natCast_nonneg _, rfl⟩, trivial⟩ (.lift fun b middle hb => ?_)
      obtain ⟨hbytes, -⟩ := readByte_eq_ok.mp hb
      cases htype : ValueType.ofCode b with
      | none => exact .reject
      | some type =>
          obtain rfl := ValueType.eq_code_of_ofCode htype
          cases type with
          | void => exact .pure _ hmax
          | float32 => exact .lift fun _ _ _ => .pure _ hmax
          | int32 => exact .lift fun _ _ _ => .pure _ hmax
          | boolean => exact .lift fun _ _ _ => .pure _ hmax
          | string => exact .lift fun _ _ _ => .pure _ hmax
          | function => exact .reject
          | array =>
              refine .lift fun length rest hlength => ?_
              obtain ⟨hword, -⟩ := readWord_eq_ok.mp hlength
              rw [hbytes, hword] at hfit
              have hlow := BitVec.le_toInt (x := length)
              have hdifference : InInt (intMax - elements) := ⟨by omega, by omega⟩
              split
              · exact .reject
              rename_i hlong
              refine .tell ⟨hdifference, trivial⟩ ?_
              rw [wrap_of_range hdifference.1 hdifference.2]
              split
              · exact .reject
              rename_i hover
              have hsum : InInt (length.toInt + elements) := ⟨by omega, by omega⟩
              have hnone : completedElements (if maxArraySize ≠ 0 then
                  [.sum length.toInt elements] else []) = 0 := by split <;> rfl
              refine .tell (by split <;> simp [Sound, hsum]) ?_
              rw [hnone]
              change Counts elements _
              split
              · exact .reject
              rename_i htotal
              refine counts_array ih hmax hfit ⟨hlong, ?_, htotal⟩
              rwa [wrap_of_range hdifference.1 hdifference.2]

end Fits

/-! ### What the log says about the headers -/

section Reached

variable {frames : Nat} {ending : Ending}

theorem valueLogged_header {count : Int} {length : BitVec 32} {bytes : Bytes}
    (hfits : ArrayFits maxArraySize count length.toInt) {event : CountEvent}
    (hmem : event ∈ (arrayLogged (valueLogged maxStringSize maxArraySize frames) length.toInt count
      (⟨bytes, ending⟩ : Pipe)).1) :
    event ∈ (valueLogged maxStringSize maxArraySize (frames + 1) count
      (⟨ValueType.array.code :: (wordBytes length ++ bytes), ending⟩ : Pipe)).1 := by
  have hbyte : (Logged.lift readByte : Logged CountEvent Pipe UInt8).reader
      ⟨ValueType.array.code :: (wordBytes length ++ bytes), ending⟩ =
        .ok ValueType.array.code ⟨wordBytes length ++ bytes, ending⟩ :=
    readByte_eq_ok.mpr ⟨rfl, rfl⟩
  have hword : (Logged.lift readWord : Logged CountEvent Pipe (BitVec 32)).reader
      ⟨wordBytes length ++ bytes, ending⟩ = .ok length ⟨bytes, ending⟩ :=
    readWord_eq_ok.mpr ⟨rfl, rfl⟩
  rw [valueLogged]
  apply Logged.mem_bind_of_right rfl
  apply Logged.mem_bind_of_right hbyte
  simp only [ValueType.ofCode_code]
  apply Logged.mem_bind_of_right hword
  rw [if_neg hfits.1]
  apply Logged.mem_bind_of_right rfl
  rw [if_neg hfits.2.1]
  apply Logged.mem_bind_of_right rfl
  rw [if_neg hfits.2.2]
  exact hmem

theorem mem_entriesLogged {before : List RawValue} {count middle : Int} {bytes : Bytes}
    (hframes : framesOfList before ≤ frames)
    (htally : tallyList maxStringSize maxArraySize before count = some middle) {event : CountEvent}
    (hmem : event ∈ (valueLogged maxStringSize maxArraySize frames middle
      (⟨bytes, ending⟩ : Pipe)).1) {remaining : Nat} (hremaining : before.length < remaining) :
    event ∈ (entriesLogged (valueLogged maxStringSize maxArraySize frames) remaining count
      (⟨encodeList before ++ bytes, ending⟩ : Pipe)).1 := by
  induction before generalizing count remaining with
  | nil =>
      obtain ⟨remaining, rfl⟩ : ∃ k, remaining = k + 1 := ⟨remaining - 1, by simp at hremaining; omega⟩
      obtain rfl : count = middle := by simpa [tallyList] using htally
      exact Logged.mem_bind_of_left hmem
  | cons raw before ih =>
      obtain ⟨remaining, rfl⟩ : ∃ k, remaining = k + 1 := ⟨remaining - 1, by simp at hremaining; omega⟩
      simp only [framesOfList, Nat.max_le] at hframes
      simp only [tallyList, Option.bind_eq_some_iff] at htally
      obtain ⟨first, hraw, htally⟩ := htally
      have hread : (valueLogged maxStringSize maxArraySize frames count).reader
          (⟨raw.encode ++ (encodeList before ++ bytes), ending⟩ : Pipe) =
            .ok (raw.value, first) ⟨encodeList before ++ bytes, ending⟩ := by
        rw [valueLogged_reader]
        exact readValueCounted_eq_ok.mpr ⟨raw, hframes.1, rfl, rfl, hraw, rfl⟩
      rw [encodeList, List.append_assoc]
      apply Logged.mem_bind_of_right hread
      apply Logged.mem_bind_of_left
      exact ih hframes.2 htally (by simpa using hremaining)

theorem framesOfList_le_length (data : List RawValue) :
    framesOfList data ≤ (encodeList data).length := by
  induction data with
  | nil => exact Nat.le_refl _
  | cons raw data ih =>
      have hframes := raw.frames_le_length
      simp only [framesOfList, encodeList, List.length_append]
      omega

theorem Reaches.log {count inner : Int} {bytes rest : Bytes}
    (h : Reaches maxStringSize maxArraySize count bytes inner rest) (ending : Ending)
    (hframes : bytes.length < frames) :
    ∃ frames', rest.length < frames' ∧
      ∀ event ∈ (valueLogged maxStringSize maxArraySize frames' inner (⟨rest, ending⟩ : Pipe)).1,
        event ∈ (valueLogged maxStringSize maxArraySize frames count (⟨bytes, ending⟩ : Pipe)).1 := by
  induction h generalizing frames with
  | here => exact ⟨frames, hframes, fun _ hmem => hmem⟩
  | @inside count middle inner length before bytes rest hfits hbefore htally _ ih =>
      obtain ⟨frames, rfl⟩ : ∃ k, frames = k + 1 := ⟨frames - 1, by omega⟩
      have hlist := framesOfList_le_length before
      simp only [List.length_cons, List.length_append] at hframes
      have hinner : bytes.length < frames := by omega
      obtain ⟨frames', hrest, hlog⟩ := ih hinner
      refine ⟨frames', hrest, fun event hmem => ?_⟩
      apply valueLogged_header hfits
      apply Logged.mem_bind_of_right rfl
      apply Logged.mem_bind_of_left
      exact mem_entriesLogged (by omega) htally (hlog event hmem) hbefore

theorem headersFit_of_sound {elements : Nat} {count : Int} {pipe : Pipe}
    (hframes : pipe.bytes.length < frames)
    (hsound : Sound elements (valueLogged maxStringSize maxArraySize frames count pipe).1) :
    HeadersFit maxStringSize maxArraySize count pipe.bytes := by
  intro inner length rest hreaches hfits
  obtain ⟨frames', hrest, hlog⟩ := hreaches.log pipe.ending hframes
  obtain ⟨frames', rfl⟩ : ∃ k, frames' = k + 1 := ⟨frames' - 1, by omega⟩
  simp only [List.length_cons, List.length_append] at hrest
  have hheader := fun event hmem => hlog event (valueLogged_header hfits hmem)
  constructor
  · have haccepted := hheader (.accepted length.toInt) (Logged.mem_bind_of_left (by simp [Logged.tell]))
    obtain ⟨_, hevent⟩ := hsound.of_mem haccepted
    exact hevent.1
  · rintro data last total rfl hlength htally
    have hread : (entriesLogged (valueLogged maxStringSize maxArraySize frames') length.toInt.toNat
        inner).reader (⟨encodeList data ++ last, pipe.ending⟩ : Pipe) =
          .ok (valueList data, total) ⟨last, pipe.ending⟩ := by
      rw [entriesLogged_reader (valueLogged_reader _ _ _)]
      have hlist := framesOfList_le_length data
      simp only [List.length_append] at hrest
      exact (readEntries_eq_ok fun _ _ _ _ _ => readValueCounted_eq_ok).mpr
        ⟨data, by omega, hlength, rfl, rfl, htally, rfl⟩
    have hcompleted := hheader (.completed length.toInt total) (by
      apply Logged.mem_bind_of_right rfl
      apply Logged.mem_bind_of_right hread
      exact Logged.mem_bind_of_left (by simp [Logged.tell]))
    obtain ⟨_, hevent⟩ := hsound.of_mem hcompleted
    exact hevent.1.2

end Reached

/-! ### When the arithmetic is right -/

/-- The log of `read_value` and `read_value_nolimit`, by their limits. -/
def arithmetic (maxStringSize maxArraySize : Int) (pipe : Pipe) : List CountEvent :=
  (valueLogged maxStringSize maxArraySize (Channel.left pipe + 1) 0 pipe).1

/-- **The arithmetic of the value reader.** It is right on a stream exactly if no array header that
passes the checks has a negative length and the arrays that are completed have at most `INT_MAX`
elements in all. -/
theorem arithmetic_sound_iff (pipe : Pipe) (maxStringSize maxArraySize : Int) :
    Sound 0 (arithmetic maxStringSize maxArraySize pipe) ↔
      HeadersFit maxStringSize maxArraySize 0 pipe.bytes := by
  constructor
  · exact headersFit_of_sound (Nat.lt_succ_self _)
  · intro hfit
    have hmax : ((0 : Nat) : Int) ≤ intMax := by decide
    exact (countsFrom maxStringSize maxArraySize _ 0 pipe hmax hfit).1

/-- With either limits the length -1 is accepted and makes the counter -1, so that the check of
the next array forms `INT_MAX + 1`. -/
theorem arithmetic_unsound :
    ¬Sound 0 (arithmetic CageKeeper.maxStringSize CageKeeper.maxArraySize
      ⟨(RawValue.array 2 [.array (-1) [], .array 0 []]).encode, .eof⟩) ∧
    ¬Sound 0 (arithmetic 0 0 ⟨(RawValue.array 2 [.array (-1) [], .array 0 []]).encode, .eof⟩) := by
  constructor
  · intro hsound
    obtain ⟨_, hevent⟩ := hsound.of_mem (show CountEvent.difference (-1) ∈ _ by decide +kernel)
    exact absurd hevent.1 (by decide)
  · intro hsound
    obtain ⟨_, hevent⟩ := hsound.of_mem (show CountEvent.difference (-1) ∈ _ by decide +kernel)
    exact absurd hevent.1 (by decide)

end CageKeeper
