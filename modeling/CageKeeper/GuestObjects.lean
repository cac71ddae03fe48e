import CageKeeper.LanguageFormat
import CageKeeper.RecursiveCalls
import CageKeeper.ValueRef

/-! Objects of the four guest languages and their conversion to values. A guest heap gives for each
reference the object it refers to, and containers hold references, so that a heap may be cyclic.
Of an object the model keeps what the converters ask for; the runtimes classify and index objects as
documented, and a conversion from a string to a C string ends at the first NUL byte. An element is
what the converter is given when it asks: where a metamethod or a getter of the guest gives something
else at another time, that is another reference. -/

namespace CageKeeper
open ByteStream RecursiveCalls

/-- The conversions between `double` and the types of values, which are opaque here. Widening a
`float` is exact. -/
structure Doubles where
  narrow : BitVec 64 → BitVec 32
  widen : BitVec 32 → BitVec 64
  toInteger : BitVec 64 → BitVec 32
  narrow_widen : ∀ bits, narrow (widen bits) = bits

/-- The `int32_t` an integer is passed as. -/
def int32Of (value : Int) : BitVec 32 := BitVec.ofInt 32 value

/-- What a converter returns, and the lines it reports on the way. -/
structure Converted where
  ref : ValueRef
  errors : List (Option CString)

def Converted.value (ref : ValueRef) : Converted := ⟨ref, []⟩

/-- `language_error(..); return NULL`. -/
def Converted.failed (error : Option CString) : Converted := ⟨.null, [error]⟩

/-- The state of a loop that fills an array. -/
structure ArrayLoop where
  array : ArrayValue
  errors : List (Option CString)

namespace ArrayLoop

/-- `value_t*array = array_new()`. -/
def start : ArrayLoop := ⟨.arrayNew, []⟩

/-- `array_append(array, ..)` with the result of a recursive call. -/
def append (loop : ArrayLoop) (entry : Converted) : ArrayLoop :=
  ⟨loop.array.arrayAppend entry.ref, loop.errors ++ entry.errors⟩

/-- `return array`. -/
def finish (loop : ArrayLoop) : Converted := ⟨loop.array.ref, loop.errors⟩

theorem finish_foldl (results : List Converted) (loop : ArrayLoop) :
    (results.foldl append loop).finish
      = ⟨.array (loop.array.data ++ results.map Converted.ref),
          loop.errors ++ results.flatMap Converted.errors⟩ := by
  induction results generalizing loop with
  | nil =>
      rw [List.map_nil, List.append_nil, List.flatMap_nil, List.append_nil]
      rfl
  | cons entry results ih =>
      rw [List.foldl_cons, ih, append, ArrayValue.arrayAppend_data, List.map_cons,
        List.flatMap_cons, List.append_assoc, List.append_assoc]
      rfl

theorem finish_start (results : List Converted) :
    (results.foldl append start).finish
      = ⟨.array (results.map Converted.ref), results.flatMap Converted.errors⟩ := by
  rw [finish_foldl]
  rfl

end ArrayLoop

/-- The loop of a converter over all elements of a container. -/
def convertAll {ι : Type} (items : List ι) : Body ι Converted :=
  forEach ArrayLoop.append ArrayLoop.finish items ArrayLoop.start

/-! ### Python -/

/-- A `PyObject`. Of a unicode object and of a string the model has the memory of its buffer. -/
inductive PyObject (ι : Type) where
  | none
  | unicode (data : Bytes)
  | string (data : Bytes)
  | long (value : Int)
  | int (value : Int)
  | bool (b : Bool)
  | float (double : BitVec 64)
  | list (items : List ι)
  | tuple (items : List ι)
  | other (typeName : CString)

namespace PyObject

variable {ι : Type} (o : PyObject ι)

def isNone : Bool := match o with | .none => true | _ => false

def unicodeCheck : Bool := match o with | .unicode _ => true | _ => false

def stringCheck : Bool := match o with | .string _ => true | _ => false

def longCheck : Bool := match o with | .long _ => true | _ => false

/-- `PyInt_Check`; `bool` is a subtype of `int`. -/
def intCheck : Bool := match o with | .int _ | .bool _ => true | _ => false

def floatCheck : Bool := match o with | .float _ => true | _ => false

def boolCheck : Bool := match o with | .bool _ => true | _ => false

def listCheck : Bool := match o with | .list _ => true | _ => false

def tupleCheck : Bool := match o with | .tuple _ => true | _ => false

/-- `PyUnicode_AS_DATA` and `PyString_AsString`: the memory at the pointer. -/
def asData : Bytes := match o with | .unicode data | .string data => data | _ => []

/-- `PyLong_AsLongLong`, which is -1 where it overflows. -/
def asLongLong : Int :=
  match o with
  | .long value => if -2 ^ 63 ≤ value ∧ value < 2 ^ 63 then value else -1
  | _ => -1

/-- `PyInt_AsLong`. -/
def asLong : Int :=
  match o with
  | .int value => value
  | .bool b => if b then 1 else 0
  | _ => -1

/-- `PyFloat_AsDouble`. -/
def asDouble : BitVec 64 := match o with | .float double => double | _ => 0

/-- `o == Py_True`. -/
def isTrue : Bool := match o with | .bool b => b | _ => false

def items : List ι := match o with | .list items | .tuple items => items | _ => []

/-- `o->ob_type->tp_name`. -/
def typeName : CString := match o with | .other typeName => typeName | _ => CString.lit ""

end PyObject

/-- `pyobject_to_value`. -/
def pyobjectToValue {ι : Type} (doubles : Doubles) (o : PyObject ι) : Body ι Converted :=
  if o.isNone then .done (.value .void)
  else if o.unicodeCheck then .done (.value (.string (CString.ofBytes o.asData)))
  else if o.stringCheck then .done (.value (.string (CString.ofBytes o.asData)))
  else if o.longCheck then .done (.value (.int32 (int32Of o.asLongLong)))
  else if o.intCheck then .done (.value (.int32 (int32Of o.asLong)))
  else if o.floatCheck then .done (.value (.float32 (doubles.narrow o.asDouble)))
  else if o.boolCheck then .done (.value (.boolean o.isTrue))
  else if o.listCheck then convertAll o.items
  else if o.tupleCheck then convertAll o.items
  else .done (.failed (languageErrorWith (CString.lit "Can't convert type %s") [.text o.typeName]))

/-! ### Lua -/

/-- A Lua object. A string comes with the number it can be read as, a table with its entries at
integer keys. -/
inductive LuaObject (ι : Type) where
  | nil
  | boolean (b : Bool)
  | number (double : BitVec 64)
  | string (data : Bytes) (number : Option (BitVec 64))
  | table (entries : List (Int × ι))
  | other

namespace LuaObject

variable {ι : Type} (o : LuaObject ι)

def isNil : Bool := match o with | .nil => true | _ => false

def isBoolean : Bool := match o with | .boolean _ => true | _ => false

/-- `lua_isnumber`, which accepts strings that can be read as numbers. -/
def isNumber : Bool := match o with | .number _ => true | .string _ n => n.isSome | _ => false

def isString : Bool := match o with | .number _ | .string _ _ => true | _ => false

def isTable : Bool := match o with | .table _ => true | _ => false

def toBoolean : Bool := match o with | .boolean b => b | .nil => false | _ => true

/-- `lua_tonumber`. -/
def toNumber : BitVec 64 :=
  match o with
  | .number double => double
  | .string _ n => n.getD 0
  | _ => 0

/-- `lua_tostring` of a string. -/
def toLuaString : Bytes := match o with | .string data _ => data | _ => []

def entries : List (Int × ι) := match o with | .table entries => entries | _ => []

end LuaObject

/-- The loop of `lua_to_value` over the keys of a table from `i` on: the elements up to the first
`nil`, looking at no more than some keys. -/
def luaElements {ι : Type} (isNil : ι → Bool) (entries : List (Int × ι)) :
    (keys : Nat) → (i : Int) → List ι
  | 0, _ => []
  | keys + 1, i =>
      match entries.lookup i with
      | none => []
      | some entry => if isNil entry then [] else entry :: luaElements isNil entries keys (i + 1)

/-- The elements `lua_to_value` finds in a table. -/
def LuaObject.items {ι : Type} (heap : ι → LuaObject ι) (o : LuaObject ι) : List ι :=
  luaElements (fun entry => (heap entry).isNil) o.entries (o.entries.length + 1) 0

/-- `lua_to_value`, for an object that is on the stack. -/
def luaToValue {ι : Type} (doubles : Doubles) (heap : ι → LuaObject ι) (o : LuaObject ι) :
    Body ι Converted :=
  if o.isNil then .done (.value .void)
  else if o.isBoolean then .done (.value (.boolean o.toBoolean))
  else if o.isNumber then .done (.value (.float32 (doubles.narrow o.toNumber)))
  else if o.isNumber then .done (.value (.int32 (doubles.toInteger o.toNumber)))
  else if o.isString then .done (.value (.string (CString.ofBytes o.toLuaString)))
  else if o.isTable then convertAll (o.items heap)
  -- the format has a %d and no argument for it
  else .done (.failed (languageErrorWith
    (CString.lit "Don't know how to process lua type: %d\n") []))

/-! ### JavaScript -/

/-- A `jsval`. Of a string the model has its encoding, of an object what `JS_GetArrayLength` and
`JS_GetElement` give: no length, or for each index the element unless it cannot be read. -/
inductive JsValue (ι : Type) where
  | null
  | void
  | int (value : BitVec 32)
  | double (value : BitVec 64)
  | string (encoded : Bytes)
  | boolean (b : Bool)
  | object (elements : Option (List (Option ι)))
  | other

namespace JsValue

variable {ι : Type} (v : JsValue ι)

def isNull : Bool := match v with | .null => true | _ => false

def isVoid : Bool := match v with | .void => true | _ => false

def isInt : Bool := match v with | .int _ => true | _ => false

def isNumber : Bool := match v with | .int _ | .double _ => true | _ => false

def isString : Bool := match v with | .string _ => true | _ => false

def isBoolean : Bool := match v with | .boolean _ => true | _ => false

/-- `JSVAL_IS_OBJECT`, which accepts `null`. -/
def isObject : Bool := match v with | .null | .object _ => true | _ => false

def toInt : BitVec 32 := match v with | .int value => value | _ => 0

def toDouble : BitVec 64 := match v with | .double value => value | _ => 0

def encodeString : Bytes := match v with | .string encoded => encoded | _ => []

def toBoolean : Bool := match v with | .boolean b => b | _ => false

/-- `JS_GetArrayLength` with `JS_GetElement`. -/
def elements : Option (List (Option ι)) := match v with | .object elements => elements | _ => none

end JsValue

/-- The message of both failures in `jsval_to_value`. -/
def arrayLengthError : Option CString :=
  languageErrorWith (CString.lit "Can't determine array length\n") []

/-- The loop of `jsval_to_value` over the elements of an array. -/
def jsElements {ι : Type} : List (Option ι) → ArrayLoop → Body ι Converted
  | [], loop => .done loop.finish
  | none :: _, loop => .done ⟨.null, loop.errors ++ [arrayLengthError]⟩
  | some entry :: rest, loop => .call entry fun result => jsElements rest (loop.append result)

/-- `jsval_to_value`. -/
def jsvalToValue {ι : Type} (doubles : Doubles) (v : JsValue ι) : Body ι Converted :=
  if v.isNull then .done (.value .void)
  else if v.isVoid then .done (.value .void)
  else if v.isInt then .done (.value (.int32 v.toInt))
  else if v.isNumber then .done (.value (.float32 (doubles.narrow v.toDouble)))
  else if v.isString then .done (.value (.string (CString.ofBytes v.encodeString)))
  else if v.isBoolean then .done (.value (.boolean v.toBoolean))
  else if v.isObject then
    match v.elements with
    | none => .done (.failed arrayLengthError)
    | some elements => jsElements elements .start
  else .done (.failed (languageErrorWith
    (CString.lit "Can't convert javascript type to a value.\n") []))

/-- `js_argv_to_args`. -/
def jsArgvToArgs {ι : Type} (argv : List ι) : Body ι Converted := convertAll argv

/-! ### Ruby -/

inductive RubyObject (ι : Type) where
  | nil
  | bignum (value : Int)
  | fixnum (value : Int)
  | true
  | false
  | float (double : BitVec 64)
  | symbol (name : Bytes)
  | string (data : Bytes)
  | array (items : List ι)
  | other

/-- What a call of `ruby_to_value` comes to: a value, or an exception that leaves all calls under
way. -/
inductive RubyResult where
  | value (ref : ValueRef)
  | typeError (message : CString)
  | rangeError

/-- `value_new_int32(NUM2INT(v))`. -/
def num2int (value : Int) : RubyResult :=
  if -2 ^ 31 ≤ value ∧ value < 2 ^ 31 then .value (.int32 (int32Of value)) else .rangeError

/-- The loop of `ruby_to_value` over the elements of an array. -/
def rubyElements {ι : Type} : List ι → ArrayValue → Body ι RubyResult
  | [], array => .done (.value array.ref)
  | item :: rest, array =>
      .call item fun result =>
        match result with
        | .value ref => rubyElements rest (array.arrayAppend ref)
        | .typeError message => .done (.typeError message)
        | .rangeError => .done .rangeError

/-- `ruby_to_value`. -/
def rubyToValue {ι : Type} (doubles : Doubles) : RubyObject ι → Body ι RubyResult
  | .nil => .done (.value .void)
  | .bignum value | .fixnum value => .done (num2int value)
  | .true => .done (.value (.boolean Bool.true))
  | .false => .done (.value (.boolean Bool.false))
  | .float double => .done (.value (.float32 (doubles.narrow double)))
  | .symbol name => .done (.value (.string (CString.ofBytes name)))
  | .string data => .done (.value (.string (CString.ofBytes data)))
  | .array items => rubyElements items .arrayNew
  | .other => .done (.typeError (CString.lit "not valid value"))

def RubyObject.items {ι : Type} : RubyObject ι → List ι
  | .array items => items
  | _ => []

end CageKeeper
