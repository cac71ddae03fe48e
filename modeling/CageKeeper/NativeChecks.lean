import CageKeeper.NativeCall
import Mathlib.Data.List.Forall2

/-! Which calls `cfunction_call` makes. The three loops over a parameter string agree, and together
with the checks of the arguments they let a native function run on well-typed arguments only. -/

namespace CageKeeper
open ByteStream

/-! ### The walkers of a parameter string -/

theorem parseType_ne_void {c : UInt8} (hc : c ≠ 0) : parseType c ≠ .void := by
  rw [parseType, if_neg hc]
  repeat' split
  all_goals decide

/-- The `ffi_type` of a parameter. -/
def ffiTypeOf (t : ValueType) : FfiType := (typeToFfiType t).getD .void

theorem typeToFfiType_parseType (c : UInt8) :
    typeToFfiType (parseType c) = some (ffiTypeOf (parseType c)) := by
  rw [parseType]
  repeat' split
  all_goals rfl

theorem functionCountArgs_eq (params : Bytes) : functionCountArgs params = params.length := by
  induction params with
  | nil => rfl
  | cons c rest ih => rw [functionCountArgs, ih, List.length_cons]

theorem signatureParams_eq (params : Bytes) : signatureParams params = params.map parseType := by
  induction params with
  | nil => rfl
  | cons c rest ih => rw [signatureParams, ih, List.map_cons]

theorem ffiParams_eq (params : Bytes) :
    ffiParams params = some ((params.map parseType).map ffiTypeOf) := by
  induction params with
  | nil => rfl
  | cons c rest ih =>
      rw [ffiParams, ih, typeToFfiType_parseType]
      rfl

/-- The assertion holds: as many types as parameters, and the types of the signature. -/
theorem functionFfiArgsPlusOne_eq (params : Bytes) :
    functionFfiArgsPlusOne params
      = some (.pointer :: (params.map parseType).map ffiTypeOf) := by
  rw [functionFfiArgsPlusOne, ffiParams_eq, functionCountArgs_eq]
  have hlength : ((params.map parseType).map ffiTypeOf).length = params.length := by
    rw [List.length_map, List.length_map]
  exact if_pos hlength

/-! ### The conversion table -/

def ValueType.isNumber : ValueType → Bool
  | .float32 | .int32 | .boolean => true
  | _ => false

/-- The types an argument may have for a parameter. -/
def convertible (t type : ValueType) : Bool :=
  match t with
  | .float32 | .int32 | .boolean => type.isNumber
  | .string => type.isNumber || type == .string || type == .array
  | .array => type == .array
  | _ => false

/-- The arguments whose text has to be printed for a string parameter. -/
def needsTmp (t type : ValueType) : Bool :=
  t == .string && (type == .float32 || type == .int32 || type == .array)

section Floats

variable (floats : FloatOps)

/-- An argument as an `int`. -/
def asInt : Value → Option (BitVec 32)
  | .float32 v => some (floats.toInt v)
  | .int32 v => some v
  | .boolean v => some (boolWord v)
  | _ => none

/-- An argument as a `float`. -/
def asFloat : Value → Option (BitVec 32)
  | .float32 v => some v
  | .int32 v => some (floats.ofInt v)
  | .boolean v => some (floats.ofInt (boolWord v))
  | _ => none

/-- An argument as a `bool`: whether its number is not zero. -/
def asBool : Value → Option Bool
  | .float32 v => some (floats.toInt v != 0)
  | .int32 v => some (v != 0)
  | .boolean v => some v
  | _ => none

def asText : Value → Option CString
  | .float32 v => some (floats.text v)
  | .int32 v => some (CString.ofBytes (decimal v.toInt))
  | .boolean v => some (CString.lit (if v then "true" else "false"))
  | .string v => some v
  | .array data => some (CString.ofBytes (arrayText data))
  | .void => none

/-- The texts of integers and arrays are printed characters throughout: no byte of them ends the
string early. -/
theorem asText_bytes {o : Value} {text : CString} (h : asText floats o = some text) :
    (∀ v, o = .int32 v → text.bytes = decimal v.toInt) ∧
      ∀ data, o = .array data → text.bytes = arrayText data := by
  constructor
  · rintro v rfl
    cases h
    exact CString.bytes_ofBytes (decimal_nulFree v.toInt)
  · rintro data rfl
    cases h
    refine CString.bytes_ofBytes fun hmem => ?_
    rw [arrayText, List.append_assoc, List.mem_append, List.mem_append] at hmem
    rcases hmem with hopen | hdigits | hclose
    · exact (CString.lit "<array, ").nulFree hopen
    · exact decimal_nulFree _ hdigits
    · exact (CString.lit " items>").nulFree hclose

/-- What a native function should receive for an argument. -/
def conversion (t : ValueType) (o : Value) : Option Received :=
  match t with
  | .float32 => (asFloat floats o).map .float32
  | .int32 => (asInt floats o).map .int32
  | .boolean => (asBool floats o).map .boolean
  | .string => (asText floats o).map .text
  | .array => if o.type = .array then some (.array o) else none
  | _ => none

theorem marshalArg_isSome {t : ValueType} (ht : t ≠ .void) (i : Nat) (o : Value) :
    (marshalArg floats i t o).isSome = convertible t o.type := by
  cases o <;> cases t <;> first | rfl | exact absurd rfl ht

/-- What the stores for one argument are: a word that is the argument's conversion by itself, or
the text of its conversion and a pointer to it. -/
inductive ArgStores (i : Nat) (t : ValueType) (o : Value) : List Store → Prop where
  | word (word : Word) (passed : passedWord (ffiTypeOf t) (.word word) = some word)
      (own : ∀ stores, receive stores word = conversion floats t o)
      (direct : needsTmp t o.type = false) : ArgStores i t o (storeWord i word)
  | text (text : Bytes) (param : t = .string)
      (own : conversion floats t o = some (.text (CString.ofBytes text)))
      (short : text.length < tmpStrSize ∨ ∃ v, o = .float32 v ∧ text = (floats.text v).bytes)
      (printed : needsTmp t o.type = true) : ArgStores i t o (storeText i text)

theorem natAbs_toInt_lt (v : BitVec 32) : v.toInt.natAbs < 10 ^ 10 := by
  have hle := v.le_toInt
  have hlt := v.toInt_lt
  omega

theorem arrayText_length (data : List Value) : (arrayText data).length < tmpStrSize := by
  have hlow : -(2 ^ 31 : Int) ≤ arrayLength data := by
    have := Int.le_bmod (x := (data.length : Int)) (m := 2 ^ 32) (by decide)
    rw [arrayLength, wrap]
    omega
  have hhigh : arrayLength data < 2 ^ 31 := by
    have := Int.bmod_lt (x := (data.length : Int)) (m := 2 ^ 32) (by decide)
    rw [arrayLength, wrap]
    omega
  have hdecimal : (decimal (arrayLength data)).length ≤ 11 := decimal_length_le (by omega)
  have hopen : (CString.lit "<array, ").bytes.length = 8 := by decide
  have hclose : (CString.lit " items>").bytes.length = 7 := by decide
  rw [arrayText, List.length_append, List.length_append, hopen, hclose, tmpStrSize]
  omega

theorem marshalArg_stores {t : ValueType} (ht : t ≠ .void) {i : Nat} {o : Value}
    {stores : List Store} (h : marshalArg floats i t o = some stores) :
    ArgStores floats i t o stores := by
  have hint : ∀ v : BitVec 32, (decimal v.toInt).length < tmpStrSize := fun v =>
    Nat.lt_of_le_of_lt (decimal_length_le (natAbs_toInt_lt v)) (by decide)
  have hfloat : ∀ v, CString.ofBytes (floats.text v).bytes = floats.text v :=
    fun v => CString.ofBytes_bytes _
  cases o with
  | void =>
      cases t with
      | void => exact absurd rfl ht
      | _ => cases h
  | float32 v =>
      cases t with
      | string =>
          cases h
          exact .text _ rfl (congrArg (some ∘ Received.text) (hfloat v).symm)
            (Or.inr ⟨v, rfl, rfl⟩) rfl
      | float32 | int32 | boolean =>
          cases h
          exact .word _ rfl (fun _ => rfl) rfl
      | _ => cases h
  | int32 v =>
      cases t with
      | string =>
          cases h
          exact .text _ rfl rfl (Or.inl (hint v)) rfl
      | float32 | int32 | boolean =>
          cases h
          exact .word _ rfl (fun _ => rfl) rfl
      | _ => cases h
  | boolean v =>
      cases t with
      | float32 | int32 | boolean | string =>
          cases h
          exact .word _ rfl (fun _ => rfl) rfl
      | _ => cases h
  | string v =>
      cases t with
      | string =>
          cases h
          exact .word _ rfl (fun _ => rfl) rfl
      | _ => cases h
  | array data =>
      cases t with
      | string =>
          cases h
          exact .text _ rfl rfl (Or.inl (arrayText_length data)) rfl
      | array =>
          cases h
          exact .word _ rfl (fun _ => rfl) rfl
      | _ => cases h

theorem slotContent_storeWord (i : Nat) (word : Word) :
    slotContent (storeWord i word) (i + 1) = some (.word word) := by
  simp [slotContent, storeWord]

theorem slotContent_storeText (i : Nat) (text : Bytes) :
    slotContent (storeText i text) (i + 1) = some (.word (.pointer (.slot (i + i)))) := by
  simp [slotContent, storeText]

namespace ArgStores

variable {floats} {i : Nat} {t : ValueType} {o : Value} {stores : List Store}

/-- The word of an argument is the one its own stores leave in its slot. -/
theorem slot (h : ArgStores floats i t o stores) :
    ∃ word, Store.mk (i + 1) (.word word) ∈ stores ∧
      slotContent stores (i + 1) = some (.word word) ∧
      passedWord (ffiTypeOf t) (.word word) = some word := by
  cases h with
  | word word passed =>
      exact ⟨word, List.mem_singleton.mpr rfl, slotContent_storeWord i word, passed⟩
  | text text param =>
      refine ⟨.pointer (.slot (i + i)), List.mem_cons_of_mem _ (List.mem_singleton.mpr rfl),
        slotContent_storeText i text, ?_⟩
      rw [param]
      rfl

theorem index (h : ArgStores floats i t o stores) :
    ∀ store ∈ stores, store.index = i + 1 ∨ store.index = i + i := by
  cases h <;> simp [storeWord, storeText]

end ArgStores

/-- Arguments that can all be converted are stored, others stop the loop. -/
theorem marshal_isOk_iff {param : List ValueType} (hparam : ValueType.void ∉ param)
    (data : List Value) (i : Nat) (hlength : param.length = data.length) :
    (∃ stores, marshal floats i param data = .ok stores) ↔
      List.Forall₂ (fun t o => convertible t o.type = true) param data := by
  induction param generalizing data i with
  | nil =>
      obtain rfl := List.length_eq_zero_iff.mp hlength.symm
      exact ⟨fun _ => .nil, fun _ => ⟨[], rfl⟩⟩
  | cons t param ih =>
      cases data with
      | nil => cases hlength
      | cons o data =>
          obtain ⟨ht, hparam⟩ := not_or.mp (fun h => hparam (List.mem_cons.mpr h))
          have hrest := ih hparam data (i + 1) (Nat.succ.inj hlength)
          have harg := marshalArg_isSome floats (Ne.symm ht) i o
          rw [List.forall₂_cons, ← hrest, ← harg, marshal]
          cases marshalArg floats i t o with
          | none => simp
          | some own =>
              cases marshal floats (i + 1) param data with
              | error failed => simp [Except.map]
              | ok stores => simp [Except.map]

/-- The stores for all arguments from the argument `i` on. -/
inductive Marshalled : (i : Nat) → List ValueType → List Value → List Store → Prop where
  | nil (i : Nat) : Marshalled i [] [] []
  | cons {i : Nat} {t : ValueType} {param : List ValueType} {o : Value} {data : List Value}
      {own others : List Store} (first : ArgStores floats i t o own)
      (rest : Marshalled (i + 1) param data others) :
      Marshalled i (t :: param) (o :: data) (own ++ others)

theorem marshalled_of_eq_ok {param : List ValueType} (hparam : ValueType.void ∉ param)
    {data : List Value} {i : Nat} {stores : List Store} (hlength : param.length = data.length)
    (h : marshal floats i param data = .ok stores) : Marshalled floats i param data stores := by
  induction param generalizing data i stores with
  | nil =>
      obtain rfl := List.length_eq_zero_iff.mp hlength.symm
      cases h
      exact .nil i
  | cons t param ih =>
      cases data with
      | nil => cases hlength
      | cons o data =>
          obtain ⟨ht, hparam⟩ := not_or.mp (fun h => hparam (List.mem_cons.mpr h))
          rw [marshal] at h
          cases hown : marshalArg floats i t o with
          | none =>
              rw [hown] at h
              cases h
          | some own =>
              rw [hown] at h
              cases hothers : marshal floats (i + 1) param data with
              | error failed =>
                  rw [hothers] at h
                  cases h
              | ok others =>
                  rw [hothers] at h
                  cases h
                  exact .cons (marshalArg_stores floats (Ne.symm ht) hown)
                    (ih hparam (Nat.succ.inj hlength) hothers)

/-! ### What is in the slots -/

theorem slotContent_append (front back : List Store) (index : Nat) :
    slotContent (front ++ back) index
      = (slotContent back index).or (slotContent front index) := by
  rw [slotContent, List.reverse_append, List.find?_append, Option.map_or]
  rfl

theorem slotContent_eq_none {stores : List Store} {index : Nat}
    (h : ∀ store ∈ stores, store.index ≠ index) : slotContent stores index = none := by
  rw [slotContent, Option.map_eq_none_iff, List.find?_eq_none]
  intro store hstore
  simpa using h store (List.mem_reverse.mp hstore)

namespace Marshalled

variable {floats} {i : Nat} {param : List ValueType} {data : List Value} {stores : List Store}

theorem length_eq (h : Marshalled floats i param data stores) : param.length = data.length := by
  induction h with
  | nil => rfl
  | cons first rest ih => rw [List.length_cons, List.length_cons, ih]

/-- Behind the first argument, everything is stored behind the slots of earlier ones. -/
theorem index (h : Marshalled floats i param data stores) (hi : 0 < i) :
    ∀ store ∈ stores, i < store.index := by
  induction h with
  | nil =>
      intro store hstore
      cases hstore
  | @cons i t param o data own others first rest ih =>
      intro store hstore
      rcases List.mem_append.mp hstore with hstore | hstore
      · have hindex := first.index store hstore
        omega
      · have hindex := ih (Nat.succ_pos i) store hstore
        omega

/-- No later text ends up in the slot of an argument: it holds the argument's word. -/
theorem slot (h : Marshalled floats i param data stores) {k : Nat} {t : ValueType} {o : Value}
    (ht : param[k]? = some t) (ho : data[k]? = some o) :
    ∃ own word, ArgStores floats (i + k) t o own ∧ own ⊆ stores ∧
      slotContent own (i + k + 1) = some (.word word) ∧
      slotContent stores (i + k + 1) = some (.word word) := by
  induction h generalizing k with
  | nil => cases ht
  | @cons i first param o' data own others hown rest ih =>
      cases k with
      | zero =>
          cases ht
          cases ho
          obtain ⟨word, -, hslot, -⟩ := hown.slot
          have hlater : slotContent others (i + 1) = none :=
            slotContent_eq_none fun store hstore =>
              (rest.index (Nat.succ_pos i) store hstore).ne'
          refine ⟨own, word, hown, List.subset_append_left _ _, hslot, ?_⟩
          rw [Nat.add_zero, slotContent_append, hlater, Option.none_or, hslot]
      | succ k =>
          rw [List.getElem?_cons_succ] at ht ho
          obtain ⟨later, word, hlater, hsubset, hlast, hslot⟩ := ih ht ho
          have hindex : i + (k + 1) = i + 1 + k := by omega
          rw [hindex]
          refine ⟨later, word, hlater, fun store hstore => ?_, hlast, ?_⟩
          · exact List.mem_append_right _ (hsubset hstore)
          · rw [slotContent_append, hslot, Option.some_or]

end Marshalled

/-! ### Calls -/

variable {χ : Type}

/-- The types a native function declares for its parameters. -/
def CFunction.paramTypes (f : CFunction χ) : List ValueType := f.params.bytes.map parseType

theorem void_not_mem_paramTypes (f : CFunction χ) : ValueType.void ∉ f.paramTypes := by
  intro hmem
  obtain ⟨c, hc, hvoid⟩ := List.mem_map.mp hmem
  exact parseType_ne_void (fun h => f.params.nulFree (h ▸ hc)) hvoid

def CFunction.call (f : CFunction χ) (stores : List Store) : Invocation χ :=
  ⟨f.context, .pointer :: f.paramTypes.map ffiTypeOf, stores⟩

theorem CFunction.call_words (f : CFunction χ) (stores : List Store) (k : Nat) :
    (f.call stores).words[k]? = f.paramTypes[k]?.map fun t =>
      (slotContent stores (k + 1)).bind (passedWord (ffiTypeOf t)) := by
  rw [Invocation.words, List.getElem?_mapIdx, call, List.tail_cons, List.getElem?_map,
    Option.map_map]
  rfl

theorem returnValue_isSome (c : UInt8) (raw : RetRaw) :
    ∃ value, returnValue (parseType c) raw = some value := by
  rw [parseType]
  repeat' split
  all_goals exact ⟨_, rfl⟩

/-- `cfunction_call` on an array, with the loops over the parameter string done. -/
theorem cfunctionCall_array (f : CFunction χ) (native : Invocation χ → RetRaw)
    (data : List Value) :
    cfunctionCall floats true f native (.array data) =
      if f.paramTypes.length ≠ data.length then
        refuse (languageErrorWith
          (CString.lit "%s: wrong number of arguments: expected %d, got %d\n")
          [.text f.name, .int f.paramTypes.length, .int data.length])
      else
        match marshal floats 0 f.paramTypes data with
        | .error (i, type, t) =>
            refuse (languageErrorWith
              (CString.lit "%s: Can't convert parameter %d from %s to %s\n")
              [.text f.name, .int (i + 1), .text (typeToString type), .text (typeToString t)])
        | .ok stores =>
            (returnValue (parseType (f.ret.bytes.headD 0)) (native (f.call stores))).bind
              fun value => some ⟨value, [], [f.call stores]⟩ := by
  have hlength : functionCountArgs f.params.bytes = f.paramTypes.length := by
    rw [functionCountArgs_eq, CFunction.paramTypes, List.length_map]
  simp only [cfunctionCall, functionGetSignature, functionFfiArgsPlusOne_eq, hlength,
    signatureParams_eq, typeToFfiType_parseType]
  rfl

theorem cfunctionCall_not_array (f : CFunction χ) (native : Invocation χ → RetRaw) {args : Value}
    (hargs : args.type ≠ .array) :
    cfunctionCall floats true f native args =
      refuse (languageErrorWith (CString.lit "%s: function parameters must be an array\n")
        [.text f.name]) := by
  simp only [cfunctionCall, functionGetSignature, functionFfiArgsPlusOne_eq,
    typeToFfiType_parseType]
  cases args with
  | array data => exact absurd rfl hargs
  | _ => rfl

theorem refuse_eq {error : CString} {kinds : List Conversion} (args : List FormatArg)
    (hformat : conversions error.bytes = some kinds)
    (hargs : args.map FormatArg.conversion = kinds) :
    ∃ line, (refuse (languageErrorWith error args) : Option (CallOutcome χ))
      = some ⟨.null, [some line], []⟩ := by
  have hprinted : (languageErrorWith error args).isSome :=
    languageErrorWith_isSome (hargs ▸ hformat)
  obtain ⟨line, hline⟩ := Option.isSome_iff_exists.mp hprinted
  exact ⟨line, by rw [refuse, hline]⟩

theorem notArray_conversions :
    conversions (CString.lit "%s: function parameters must be an array\n").bytes
      = some [.text] := by
  decide

theorem wrongNumber_conversions :
    conversions (CString.lit "%s: wrong number of arguments: expected %d, got %d\n").bytes
      = some [.text, .int, .int] := by
  decide

theorem cannotConvert_conversions :
    conversions (CString.lit "%s: Can't convert parameter %d from %s to %s\n").bytes
      = some [.text, .int, .text, .text] := by
  decide

/-- Arguments that fit a native function: an array with a convertible element for each parameter. -/
def WellTyped (f : CFunction χ) (args : Value) : Prop :=
  ∃ data, args = .array data ∧
    List.Forall₂ (fun c o => convertible (parseType c) o.type = true) f.params.bytes data

theorem wellTyped_array_iff (f : CFunction χ) (data : List Value) :
    WellTyped f (.array data) ↔
      List.Forall₂ (fun t o => convertible t o.type = true) f.paramTypes data := by
  rw [CFunction.paramTypes, List.forall₂_map_left_iff]
  exact ⟨fun ⟨_, heq, h⟩ => (Value.array.inj heq) ▸ h, fun h => ⟨data, rfl, h⟩⟩

/-- What a checked call comes to: the native function runs once on well-typed arguments, and on
others there is one error and no call; where it takes a pointer it gets a pointer. -/
structure Checked (f : CFunction χ) (args : Value) (outcome : CallOutcome χ) : Prop where
  invokes : outcome.calls ≠ [] ↔ WellTyped f args
  once : outcome.calls.length ≤ 1
  refused : ¬ WellTyped f args → outcome.value = .null ∧ ∃ line, outcome.errors = [some line]
  silent : WellTyped f args → outcome.errors = []
  pointers : ∀ call ∈ outcome.calls, ∀ (k : Nat) (c : UInt8), f.params.bytes[k]? = some c →
    parseType c = .string ∨ parseType c = .array →
    ∃ ptr, call.words[k]? = some (some (.pointer ptr))

theorem Checked.of_refused {f : CFunction χ} {args : Value} (hargs : ¬ WellTyped f args)
    (line : CString) : Checked f args ⟨.null, [some line], []⟩ where
  invokes := ⟨fun h => absurd rfl h, fun h => absurd h hargs⟩
  once := Nat.zero_le 1
  refused := fun _ => ⟨rfl, line, rfl⟩
  silent := fun h => absurd h hargs
  pointers := fun _ hcall => nomatch hcall

theorem passedWord_pointer {t : ValueType} (ht : t = .string ∨ t = .array) {content : Content}
    {word : Word} (h : passedWord (ffiTypeOf t) content = some word) :
    ∃ ptr, word = .pointer ptr := by
  have htype : ffiTypeOf t = .pointer := by
    rcases ht with rfl | rfl <;> rfl
  rw [htype] at h
  cases content with
  | text text => cases h
  | word stored =>
      cases stored with
      | pointer ptr =>
          cases h
          exact ⟨ptr, rfl⟩
      | _ => cases h

theorem Marshalled.words {f : CFunction χ} {data : List Value} {stores : List Store}
    (h : Marshalled floats 0 f.paramTypes data stores) {k : Nat} {t : ValueType} {o : Value}
    (ht : f.paramTypes[k]? = some t) (ho : data[k]? = some o) :
    ∃ own word, ArgStores floats k t o own ∧ own ⊆ stores ∧
      slotContent own (k + 1) = some (.word word) ∧
      (f.call stores).words[k]? = some (some word) ∧
      passedWord (ffiTypeOf t) (.word word) = some word := by
  obtain ⟨own, word, hown, hsubset, hlast, hslot⟩ := h.slot ht ho
  rw [Nat.zero_add] at hown hlast hslot
  obtain ⟨last, -, hlast', hpassed⟩ := hown.slot
  rw [hlast, Option.some.injEq, Content.word.injEq] at hlast'
  subst hlast'
  refine ⟨own, word, hown, hsubset, hlast, ?_, hpassed⟩
  rw [CFunction.call_words, ht, Option.map_some, hslot, Option.bind_some, hpassed]

/-- **A native function runs on well-typed arguments only.** -/
theorem cfunctionCall_checked (f : CFunction χ) (native : Invocation χ → RetRaw) (args : Value) :
    ∃ outcome, cfunctionCall floats true f native args = some outcome ∧
      Checked f args outcome := by
  cases args with
  | array data =>
      rw [cfunctionCall_array]
      by_cases hlength : f.paramTypes.length = data.length
      · rw [if_neg (fun h => h hlength)]
        have hok := marshal_isOk_iff floats (void_not_mem_paramTypes f) data 0 hlength
        rw [← wellTyped_array_iff] at hok
        cases hmarshal : marshal floats 0 f.paramTypes data with
        | error failed =>
            obtain ⟨i, type, t⟩ := failed
            obtain ⟨line, hline⟩ := refuse_eq
              [.text f.name, .int (i + 1), .text (typeToString type), .text (typeToString t)]
              cannotConvert_conversions rfl
            refine ⟨_, hline, Checked.of_refused (fun h => ?_) line⟩
            obtain ⟨stores, hstores⟩ := hok.mpr h
            rw [hmarshal] at hstores
            cases hstores
        | ok stores =>
            have hwell : WellTyped f (.array data) := hok.mp ⟨stores, hmarshal⟩
            have hall := marshalled_of_eq_ok floats (void_not_mem_paramTypes f) hlength hmarshal
            obtain ⟨value, hvalue⟩ :=
              returnValue_isSome (f.ret.bytes.headD 0) (native (f.call stores))
            refine ⟨⟨value, [], [f.call stores]⟩, ?_, ?_⟩
            · change (returnValue _ _).bind _ = _
              rw [hvalue]
              rfl
            · refine ⟨⟨fun _ => hwell, fun _ => List.cons_ne_nil _ _⟩, Nat.le_refl 1,
                fun h => absurd hwell h, fun _ => rfl, ?_⟩
              intro call hcall k c hc htype
              obtain rfl := List.mem_singleton.mp hcall
              have ht : f.paramTypes[k]? = some (parseType c) := by
                rw [CFunction.paramTypes, List.getElem?_map, hc, Option.map_some]
              obtain ⟨hk, -⟩ := List.getElem?_eq_some_iff.mp ht
              have ho : data[k]? = some data[k] := List.getElem?_eq_getElem (hlength ▸ hk)
              obtain ⟨own, word, -, -, -, hword, hpassed⟩ := hall.words floats ht ho
              obtain ⟨ptr, rfl⟩ := passedWord_pointer htype hpassed
              exact ⟨ptr, hword⟩
      · rw [if_pos hlength]
        obtain ⟨line, hline⟩ := refuse_eq
          [.text f.name, .int f.paramTypes.length, .int data.length] wrongNumber_conversions rfl
        refine ⟨_, hline, Checked.of_refused (fun h => hlength ?_) line⟩
        exact ((wellTyped_array_iff f data).mp h).length_eq
  | _ =>
      rw [cfunctionCall_not_array floats f native (by simp [Value.type])]
      obtain ⟨line, hline⟩ := refuse_eq [.text f.name] notArray_conversions rfl
      refine ⟨_, hline, Checked.of_refused (fun h => ?_) line⟩
      obtain ⟨data, hdata, -⟩ := h
      cases hdata

end Floats

end CageKeeper
