import CageKeeper.BlockHeap
import CageKeeper.PythonRoundTrip

/-! The references that `value_to_pyobject` owns. `PyTuple_SetItem` and `PyList_SetItem` take a reference over,
so that one `Py_DECREF` gives up all that has been made of a value; where an element is refused, nobody calls
it for what is there already. -/

namespace CageKeeper
open ByteStream BlockHeap

/-! ### Objects in memory -/

/-- What a pointer to an object points to. An object that Python shares, such as `None`, has a block for
each reference to it. -/
structure PyBlock where
  refcnt : Nat
  object : PyObject (Option Addr)

abbrev PyM := HeapM PyBlock

namespace PyObject

def leaf {ι : Type} : PyObject Empty → PyObject ι
  | .none => .none
  | .unicode data => .unicode data
  | .string data => .string data
  | .long value => .long value
  | .int value => .int value
  | .bool b => .bool b
  | .float double => .float double
  | .list _ => .list []
  | .tuple _ => .tuple []
  | .other typeName => .other typeName

def array {ι : Type} (arraysAsTuples : Bool) (items : List ι) : PyObject ι :=
  if arraysAsTuples then .tuple items else .list items

def setItem {ι : Type} (o : PyObject ι) (i : Nat) (entry : ι) : PyObject ι :=
  match o with
  | .list items => .list (items.set i entry)
  | .tuple items => .tuple (items.set i entry)
  | o => o

end PyObject

/-! ### Functions of CPython -/

/-- A new object, with one reference to it. -/
def pyNew (object : PyObject (Option Addr)) : PyM (Option Addr) := do
  let a ← HeapM.alloc ⟨1, object⟩
  pure (some a)

/-- `PyTuple_SetItem` and `PyList_SetItem`. They would give up the item that was there; here there is
none. -/
def pySetItem (array : Addr) (i : Nat) (entry : Addr) : PyM Unit := do
  let o ← HeapM.load array
  match o.object.items[i]? with
  | some none => HeapM.store array { o with object := o.object.setItem i (some entry) }
  | _ => HeapM.require none

/-- The loops of the destructors of lists and tuples, which begin with the last item. -/
def decrefItems (decref : Addr → PyM Unit) : List (Option Addr) → PyM Unit
  | [] => pure ()
  | none :: items => decrefItems decref items
  | some item :: items => do
      decrefItems decref items
      decref item

/-- `Py_DECREF`, with the stack frames that it may use. -/
def pyDecrefFrames : (frames : Nat) → Addr → PyM Unit
  | 0, _ => HeapM.require none
  | frames + 1, a => do
      let o ← HeapM.load a
      if o.refcnt = 1 then do
        decrefItems (pyDecrefFrames frames) o.object.items
        HeapM.free a
      else HeapM.store a { o with refcnt := o.refcnt - 1 }

/-- `Py_DECREF`, with more stack frames than there can be blocks. -/
def pyDecref (a : Addr) : PyM Unit := fun h => pyDecrefFrames (h.fresh + 1) a h

/-! ### `value_to_pyobject` -/

section Convert

variable (wide : Bool) (doubles : Doubles)

mutual

/-- `value_to_pyobject`, in memory. -/
def valueToPyobjectHeap : Value → (arraysAsTuples : Bool) → PyM (Option Addr)
  | .void, _ => pyNew .none
  | .float32 bits, _ => pyNew (.float (doubles.widen bits))
  | .int32 bits, _ => pyNew (.int bits.toInt)
  | .boolean b, _ => pyNew (.bool b)
  | .string str, _ =>
      match utf8Decode str.bytes with
      | some characters => pyNew (.unicode (unicodeData wide characters))
      | none => pure none
  | .array data, arraysAsTuples => do
      let array ← HeapM.alloc ⟨1, .array arraysAsTuples (List.replicate data.length none)⟩
      entriesToPyobjectsHeap array 0 data

/-- The loops of `value_to_pyobject` over the elements of an array, in memory. -/
def entriesToPyobjectsHeap (array : Addr) : (i : Nat) → List Value → PyM (Option Addr)
  | _, [] => pure (some array)
  | i, value :: data => do
      match ← valueToPyobjectHeap value false with
      | none => pure none
      | some entry => do
          pySetItem array i entry
          entriesToPyobjectsHeap array (i + 1) data

end

mutual

/-- How many objects are made of a value, up to the first element that Python refuses. -/
def pyMade : Value → Nat
  | .string str => if (utf8Decode str.bytes).isSome then 1 else 0
  | .array data => pyMadeOf data + 1
  | _ => 1

def pyMadeOf : List Value → Nat
  | [] => 0
  | value :: data =>
      pyMade value + if (valueToPyobject wide doubles value false).isSome then pyMadeOf data else 0

end

end Convert

/-! ### Trees of references -/

/-- An object and where it is in memory, with all it holds; there is one reference to each. -/
inductive OwnedObject where
  | leaf (a : Addr) (object : PyObject Empty)
  | array (a : Addr) (arraysAsTuples : Bool) (items : List OwnedObject)

namespace OwnedObject

@[elab_as_elim] theorem induction {motive : OwnedObject → Prop}
    (leaf : ∀ a object, motive (.leaf a object))
    (array : ∀ a arraysAsTuples items, (∀ item ∈ items, motive item) →
      motive (.array a arraysAsTuples items)) (tree : OwnedObject) : motive tree := by
  refine @OwnedObject.rec motive (fun items => ∀ item ∈ items, motive item) leaf array ?_ ?_ tree
  · exact List.forall_mem_nil _
  · intro head tail hhead htail
    exact List.forall_mem_cons.mpr ⟨hhead, htail⟩

def root : OwnedObject → Addr
  | .leaf a _ => a
  | .array a _ _ => a

mutual

def tree : OwnedObject → PyTree
  | .leaf _ object => .new (.leaf object)
  | .array _ arraysAsTuples items => .new (.array arraysAsTuples (trees items))

def trees : List OwnedObject → List PyTree
  | [] => []
  | item :: items => tree item :: trees items

end

mutual

def blocks : OwnedObject → List (Addr × PyBlock)
  | .leaf a object => [(a, ⟨1, .leaf object⟩)]
  | .array a arraysAsTuples items =>
      (a, ⟨1, .array arraysAsTuples (items.map (some ∘ root))⟩) :: blocksOf items

def blocksOf : List OwnedObject → List (Addr × PyBlock)
  | [] => []
  | item :: items => blocks item ++ blocksOf items

end

theorem blocksOf_append (items others : List OwnedObject) :
    blocksOf (items ++ others) = blocksOf items ++ blocksOf others := by
  induction items with
  | nil => rfl
  | cons item items ih => rw [List.cons_append, blocksOf, ih, blocksOf, List.append_assoc]

variable {h h' : Heap PyBlock} {others : List (Addr × PyBlock)}

end OwnedObject

/-! ### What a conversion makes -/

section Made

open OwnedObject

variable {wide : Bool} {doubles : Doubles} {h h' : Heap PyBlock} {blocks : List (Addr × PyBlock)}

end Made

end CageKeeper
