import CageKeeper.LanguageFormat
import CageKeeper.ValueRef

/-! `cfunction_call` of `function.c`: how the arguments of a guest are checked against the parameter
string of a native function and laid out for `ffi_call`. The array `args_data` is kept as the list of
stores into it, so that what is overwritten stays visible; a slot holds a word or a text, the two
members of the union that matter. Allocation succeeds, and a failed assertion is `none`. -/

namespace CageKeeper
open ByteStream

/-! ### Parameter strings -/

/-- `_parse_type` at one character, which may be the terminator. It moves on by one character. -/
def parseType (c : UInt8) : ValueType :=
  if c = 0 then .void
  else if c = 98 then .boolean -- b
  else if c = 105 then .int32 -- i
  else if c = 102 then .float32 -- f
  else if c = 91 then .array -- [
  else .string

/-- `type_to_string`. -/
def typeToString : ValueType → CString
  | .void => CString.lit "void"
  | .float32 => CString.lit "float32"
  | .int32 => CString.lit "int32"
  | .boolean => CString.lit "boolean"
  | .string => CString.lit "string"
  | .array => CString.lit "array"
  | .function => CString.lit "<unknown>"

/-- The `ffi_type`s that are used. -/
inductive FfiType where
  | void
  | float
  | sint32
  | uint8
  | pointer
  deriving DecidableEq

/-- `_type_to_ffi_type`. -/
def typeToFfiType : ValueType → Option FfiType
  | .void => some .void
  | .float32 => some .float
  | .int32 => some .sint32
  | .boolean => some .uint8
  | .string | .array => some .pointer
  | .function => none

/-- `function_count_args`. -/
def functionCountArgs : Bytes → Nat
  | [] => 0
  | _ :: rest => functionCountArgs rest + 1

/-- The second loop of `function_get_signature`. -/
def signatureParams : Bytes → List ValueType
  | [] => []
  | c :: rest => parseType c :: signatureParams rest

/-- The loop of `function_ffi_args_plus_one`. -/
def ffiParams : Bytes → Option (List FfiType)
  | [] => some []
  | c :: rest => do
      let atype ← typeToFfiType (parseType c)
      let atypes ← ffiParams rest
      pure (atype :: atypes)

/-- `function_ffi_args_plus_one`. -/
def functionFfiArgsPlusOne (params : Bytes) : Option (List FfiType) := do
  let atypes ← ffiParams params
  -- assert(i == num_params)
  if atypes.length = functionCountArgs params then pure (.pointer :: atypes) else none

/-- `function_signature_t`. -/
structure FunctionSignature where
  numParams : Nat
  param : List ValueType
  ret : ValueType

/-- `c_function_def_t`, for contexts of any type. -/
structure CFunction (χ : Type) where
  name : CString
  context : χ
  params : CString
  ret : CString

/-- `function_get_signature`. -/
def functionGetSignature {χ : Type} (f : CFunction χ) : FunctionSignature where
  numParams := functionCountArgs f.params.bytes
  param := signatureParams f.params.bytes
  ret := parseType (f.ret.bytes.headD 0)

/-! ### Storing the arguments -/

/-- What a pointer passed to a native function points to: a string literal of the program, the
string or the whole of an argument, or the text in a slot of `args_data`. -/
inductive Pointer where
  | null
  | literal (text : CString)
  | str (text : CString)
  | value (value : Value)
  | slot (index : Nat)

/-- A word of `args_data`. -/
inductive Word where
  | float32 (bits : BitVec 32)
  | int32 (bits : BitVec 32)
  | boolean (b : Bool)
  | pointer (ptr : Pointer)

inductive Content where
  | word (word : Word)
  | text (text : CString)

/-- A store into `args_data`. -/
structure Store where
  index : Nat
  content : Content

/-- The conversions of floats, which are opaque here. -/
structure FloatOps where
  toInt : BitVec 32 → BitVec 32
  ofInt : BitVec 32 → BitVec 32
  /-- The text of `%f`. -/
  text : BitVec 32 → CString

/-- `TMP_STR_SIZE`. -/
def tmpStrSize : Nat := 32

/-- What `snprintf` leaves of a text in a `tmp_str`. -/
def tmpStr (text : Bytes) : CString := CString.ofBytes (text.take (tmpStrSize - 1))

/-- `v->length`, which is an `int`. -/
def arrayLength (data : List Value) : Int := wrap data.length

/-- The characters of `<array, %d items>`. -/
def arrayText (data : List Value) : Bytes :=
  (CString.lit "<array, ").bytes ++ decimal (arrayLength data) ++ (CString.lit " items>").bytes

/-- A C `bool` as a number. -/
def boolWord (b : Bool) : BitVec 32 := if b then 1 else 0

/-- `args_data[i+1] = word`. -/
def storeWord (i : Nat) (word : Word) : List Store := [⟨i + 1, .word word⟩]

/-- `str = args_data[i+i].tmp_str; snprintf(str, TMP_STR_SIZE, ..); args_data[i+1].ptr = str`. -/
def storeText (i : Nat) (text : Bytes) : List Store :=
  [⟨i + i, .text (tmpStr text)⟩, ⟨i + 1, .word (.pointer (.slot (i + i)))⟩]

section Floats

variable (floats : FloatOps)

/-- The body of the loop of `cfunction_call`: the stores for one argument, `none` for an error. -/
def marshalArg (i : Nat) (t : ValueType) : Value → Option (List Store)
  | .float32 v =>
      match t with
      | .float32 => some (storeWord i (.float32 v))
      | .int32 => some (storeWord i (.int32 (floats.toInt v)))
      | .boolean => some (storeWord i (.boolean (floats.toInt v != 0)))
      | .string => some (storeText i (floats.text v).bytes)
      | _ => none
  | .int32 v =>
      match t with
      | .float32 => some (storeWord i (.float32 (floats.ofInt v)))
      | .int32 => some (storeWord i (.int32 v))
      | .boolean => some (storeWord i (.boolean (v != 0)))
      | .string => some (storeText i (decimal v.toInt))
      | _ => none
  | .boolean v =>
      match t with
      | .float32 => some (storeWord i (.float32 (floats.ofInt (boolWord v))))
      | .int32 => some (storeWord i (.int32 (boolWord v)))
      | .boolean => some (storeWord i (.boolean v))
      | .string =>
          some (storeWord i (.pointer (.literal (CString.lit (if v then "true" else "false")))))
      | _ => none
  | .string v =>
      match t with
      | .string => some (storeWord i (.pointer (.str v)))
      | _ => none
  | .void =>
      match t with
      | .void => some (storeWord i (.pointer .null))
      | _ => none
  | .array data =>
      match t with
      | .array => some (storeWord i (.pointer (.value (.array data))))
      | .string => some (storeText i (arrayText data))
      | _ => none

/-- The loop of `cfunction_call`, from the argument `i` on: all stores, or the argument that cannot
be converted and what it should have been. -/
def marshal : (i : Nat) → List ValueType → List Value →
    Except (Nat × ValueType × ValueType) (List Store)
  | i, t :: param, o :: data =>
      match marshalArg floats i t o with
      | none => .error (i, o.type, t)
      | some stores => (marshal (i + 1) param data).map (stores ++ ·)
  | _, _, _ => .ok []

/-! ### The call -/

/-- A call of the native function: the context, the types `ffi_call` goes by, and the stores into
`args_data` up to then. -/
structure Invocation (χ : Type) where
  context : χ
  atypes : List FfiType
  stores : List Store

def slotContent (stores : List Store) (index : Nat) : Option Content :=
  (stores.reverse.find? (·.index = index)).map Store.content

/-- The word in a slot, read with the type it is passed as. -/
def passedWord : FfiType → Content → Option Word
  | .float, .word (.float32 bits) => some (.float32 bits)
  | .sint32, .word (.int32 bits) => some (.int32 bits)
  | .uint8, .word (.boolean b) => some (.boolean b)
  | .pointer, .word (.pointer ptr) => some (.pointer ptr)
  | _, _ => none

/-- What a native function sees of an argument. -/
inductive Received where
  | float32 (bits : BitVec 32)
  | int32 (bits : BitVec 32)
  | boolean (b : Bool)
  | null
  | text (text : CString)
  | array (value : Value)

/-- A word with what it points to, as long as that is still there. -/
def receive (stores : List Store) : Word → Option Received
  | .float32 bits => some (.float32 bits)
  | .int32 bits => some (.int32 bits)
  | .boolean b => some (.boolean b)
  | .pointer .null => some .null
  | .pointer (.literal text) => some (.text text)
  | .pointer (.str text) => some (.text text)
  | .pointer (.value value) => some (.array value)
  | .pointer (.slot index) =>
      match slotContent stores index with
      | some (.text text) => some (.text text)
      | _ => none

namespace Invocation

variable {χ : Type} (call : Invocation χ)

/-- The words passed behind the context; `ffi_args[i+1]` is `&args_data[i+1]`. -/
def words : List (Option Word) :=
  call.atypes.tail.mapIdx fun i atype => (slotContent call.stores (i + 1)).bind (passedWord atype)

/-- What the native function receives behind the context. -/
def received : List (Option Received) := call.words.map (·.bind (receive call.stores))

end Invocation

/-- `ret_raw` after a call. -/
structure RetRaw where
  f32 : BitVec 32
  i32 : BitVec 32
  b : Bool
  str : CString
  ptr : ValueRef

/-- The value made of `ret_raw`. -/
def returnValue (retType : ValueType) (raw : RetRaw) : Option ValueRef :=
  match retType with
  | .void => some .void
  | .float32 => some (.float32 raw.f32)
  | .int32 => some (.int32 raw.i32)
  | .boolean => some (.boolean raw.b)
  | .string => some (.string raw.str)
  | .array => some raw.ptr
  | .function => none

/-- What `cfunction_call` returns, reports and calls. -/
structure CallOutcome (χ : Type) where
  value : ValueRef
  errors : List (Option CString)
  calls : List (Invocation χ)

variable {χ : Type}

/-- `language_error(..); return NULL`. -/
def refuse (error : Option CString) : Option (CallOutcome χ) := some ⟨.null, [error], []⟩

/-- `cfunction_call`, with the answer of `ffi_prep_cif`. -/
def cfunctionCall (prepared : Bool) (f : CFunction χ) (native : Invocation χ → RetRaw)
    (args : Value) : Option (CallOutcome χ) := do
  let sig := functionGetSignature f
  let atypes ← functionFfiArgsPlusOne f.params.bytes
  let _rtype ← typeToFfiType sig.ret
  if !prepared then
    return ⟨.null, [], []⟩
  match args with
  | .array data =>
      if sig.numParams ≠ data.length then
        refuse (languageErrorWith
          (CString.lit "%s: wrong number of arguments: expected %d, got %d\n")
          [.text f.name, .int sig.numParams, .int data.length])
      else
        match marshal floats 0 sig.param data with
        | .error (i, type, t) =>
            refuse (languageErrorWith
              (CString.lit "%s: Can't convert parameter %d from %s to %s\n")
              [.text f.name, .int (i + 1), .text (typeToString type), .text (typeToString t)])
        | .ok stores =>
            let call : Invocation χ := ⟨f.context, atypes, stores⟩
            let value ← returnValue sig.ret (native call)
            return ⟨value, [], [call]⟩
  | _ =>
      refuse (languageErrorWith (CString.lit "%s: function parameters must be an array\n")
        [.text f.name])

end Floats

end CageKeeper
