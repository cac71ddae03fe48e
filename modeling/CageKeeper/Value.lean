import CageKeeper.StreamReader
import Mathlib.Data.List.TakeWhile

/-! The values that host and guest exchange: the trees of `function.h`. A C string carries the
proof that it holds no NUL byte, so it is what `strlen` and `strcpy` see of it. Functions never
cross the sandbox inside a value and are not part of the type; floats are opaque words. -/

namespace CageKeeper
open ByteStream

/-- A NUL-terminated string, without its terminator. -/
structure CString where
  bytes : Bytes
  nulFree : (0 : UInt8) ∉ bytes
  deriving DecidableEq

namespace CString

/-- `strlen`. -/
def length (text : CString) : Nat := text.bytes.length

/-- What a C string function sees of a block of memory: the bytes before its first NUL. -/
def ofBytes (block : Bytes) : CString :=
  ⟨block.takeWhile (· ≠ 0), fun hmem => by simpa using List.mem_takeWhile_imp hmem⟩

def lit (text : String) : CString := ofBytes text.toUTF8.data.toList

@[ext] theorem ext {left right : CString} (h : left.bytes = right.bytes) : left = right := by
  cases left
  cases right
  cases h
  rfl

theorem bytes_ofBytes {block : Bytes} (hblock : (0 : UInt8) ∉ block) :
    (ofBytes block).bytes = block := by
  refine List.takeWhile_eq_self_iff.mpr fun byte hmem => ?_
  have hne : byte ≠ 0 := fun h => hblock (h ▸ hmem)
  simpa using hne

theorem ofBytes_bytes (text : CString) : ofBytes text.bytes = text := by
  apply ext
  exact bytes_ofBytes text.nulFree

theorem length_ofBytes_le (block : Bytes) : (ofBytes block).length ≤ block.length :=
  (List.takeWhile_sublist _).length_le

end CString

/-- `value_t`. -/
inductive Value where
  | void
  | float32 (bits : BitVec 32)
  | int32 (bits : BitVec 32)
  | boolean (b : Bool)
  | string (str : CString)
  | array (data : List Value)

/-- `type_t`. -/
inductive ValueType where
  | void
  | float32
  | int32
  | boolean
  | string
  | array
  | function
  deriving DecidableEq

namespace ValueType

def code : ValueType → UInt8
  | .void => 0
  | .float32 => 1
  | .int32 => 2
  | .boolean => 3
  | .string => 4
  | .array => 5
  | .function => 6

/-- The enumerator with a given value, as a `switch` finds it. -/
def ofCode (b : UInt8) : Option ValueType :=
  [void, float32, int32, boolean, string, array, function].find? (·.code = b)

@[simp] theorem ofCode_code (type : ValueType) : ofCode type.code = some type := by
  cases type <;> rfl

theorem eq_code_of_ofCode {b : UInt8} {type : ValueType} (h : ofCode b = some type) :
    b = type.code := by
  have hfound := List.find?_some h
  simpa using (of_decide_eq_true hfound).symm

end ValueType

namespace Value

/-- `v->type`. -/
def type : Value → ValueType
  | .void => .void
  | .float32 _ => .float32
  | .int32 _ => .int32
  | .boolean _ => .boolean
  | .string _ => .string
  | .array _ => .array

/-- Induction over value trees, with the hypothesis for all elements of an array at once. -/
@[elab_as_elim] theorem induction {motive : Value → Prop} (void : motive .void)
    (float32 : ∀ bits, motive (.float32 bits)) (int32 : ∀ bits, motive (.int32 bits))
    (boolean : ∀ b, motive (.boolean b)) (string : ∀ str, motive (.string str))
    (array : ∀ data, (∀ entry ∈ data, motive entry) → motive (.array data)) (value : Value) :
    motive value := by
  refine Value.rec (motive_2 := fun data => ∀ entry ∈ data, motive entry)
    void float32 int32 boolean string array ?_ ?_ value
  · exact List.forall_mem_nil _
  · intro head tail hhead htail
    exact List.forall_mem_cons.mpr ⟨hhead, htail⟩

mutual

/-- The number of array elements in the whole tree. -/
def elements : Value → Nat
  | .array data => data.length + elementsOfList data
  | _ => 0

def elementsOfList : List Value → Nat
  | [] => 0
  | entry :: data => elements entry + elementsOfList data

end

mutual

/-- The number of nodes on the longest path from the root. -/
def depth : Value → Nat
  | .array data => depthOfList data + 1
  | _ => 1

def depthOfList : List Value → Nat
  | [] => 0
  | entry :: data => max (depth entry) (depthOfList data)

end

theorem depth_pos (value : Value) : 0 < value.depth := by
  cases value <;> simp [depth]

mutual

def strings : Value → List CString
  | .string str => [str]
  | .array data => stringsOfList data
  | _ => []

def stringsOfList : List Value → List CString
  | [] => []
  | entry :: data => strings entry ++ stringsOfList data

end

mutual

def types : Value → List ValueType
  | .array data => .array :: typesOfList data
  | value => [value.type]

def typesOfList : List Value → List ValueType
  | [] => []
  | entry :: data => types entry ++ typesOfList data

end

mutual

def decEq : (left right : Value) → Decidable (left = right)
  | .void, .void => isTrue rfl
  | .float32 a, .float32 b => decidable_of_iff (a = b) (by simp)
  | .int32 a, .int32 b => decidable_of_iff (a = b) (by simp)
  | .boolean a, .boolean b => decidable_of_iff (a = b) (by simp)
  | .string a, .string b => decidable_of_iff (a = b) (by simp)
  | .array a, .array b =>
      match decEqList a b with
      | isTrue h => isTrue (by rw [h])
      | isFalse h => isFalse (by simpa using h)
  | .void, .float32 _ | .void, .int32 _ | .void, .boolean _ | .void, .string _ | .void, .array _
  | .float32 _, .void | .float32 _, .int32 _ | .float32 _, .boolean _ | .float32 _, .string _
  | .float32 _, .array _ | .int32 _, .void | .int32 _, .float32 _ | .int32 _, .boolean _
  | .int32 _, .string _ | .int32 _, .array _ | .boolean _, .void | .boolean _, .float32 _
  | .boolean _, .int32 _ | .boolean _, .string _ | .boolean _, .array _ | .string _, .void
  | .string _, .float32 _ | .string _, .int32 _ | .string _, .boolean _ | .string _, .array _
  | .array _, .void | .array _, .float32 _ | .array _, .int32 _ | .array _, .boolean _
  | .array _, .string _ => isFalse (by simp)

def decEqList : (left right : List Value) → Decidable (left = right)
  | [], [] => isTrue rfl
  | [], _ :: _ => isFalse (by simp)
  | _ :: _, [] => isFalse (by simp)
  | a :: as, b :: bs =>
      match decEq a b, decEqList as bs with
      | isTrue h, isTrue t => isTrue (by rw [h, t])
      | isFalse h, _ => isFalse (by simp [h])
      | _, isFalse t => isFalse (by simp [t])

end

instance : DecidableEq Value := decEq

theorem depthOfList_le {data : List Value} {bound : Nat} :
    depthOfList data ≤ bound ↔ ∀ entry ∈ data, entry.depth ≤ bound := by
  induction data with
  | nil => simp [depthOfList]
  | cons entry data ih => simp only [depthOfList, Nat.max_le, ih, List.forall_mem_cons]

theorem mem_typesOfList {data : List Value} {type : ValueType} :
    type ∈ typesOfList data ↔ ∃ entry ∈ data, type ∈ entry.types := by
  induction data with
  | nil => simp [typesOfList]
  | cons entry data ih => simp only [typesOfList, List.mem_append, ih, List.exists_mem_cons_iff]

theorem mem_stringsOfList {data : List Value} {str : CString} :
    str ∈ stringsOfList data ↔ ∃ entry ∈ data, str ∈ entry.strings := by
  induction data with
  | nil => simp [stringsOfList]
  | cons entry data ih => simp only [stringsOfList, List.mem_append, ih, List.exists_mem_cons_iff]

theorem elements_le_of_mem {data : List Value} {entry : Value} (hmem : entry ∈ data) :
    entry.elements ≤ elementsOfList data := by
  induction data with
  | nil => cases hmem
  | cons head data ih =>
      rw [elementsOfList]
      rcases List.mem_cons.mp hmem with rfl | hmem
      · exact Nat.le_add_right _ _
      · exact Nat.le_trans (ih hmem) (Nat.le_add_left _ _)

/-- Every array on a path has an element on it, so a path is no longer than the elements allow. -/
theorem depth_le_elements (value : Value) : value.depth ≤ value.elements + 1 := by
  induction value using induction with
  | array data ih =>
      rw [depth, elements]
      refine Nat.succ_le_succ (depthOfList_le.mpr fun entry hmem => ?_)
      have hpos : 0 < data.length := List.length_pos_of_mem hmem
      have hentry := elements_le_of_mem hmem
      have hdepth := ih entry hmem
      omega
  | _ => simp [depth]

end Value

end CageKeeper
