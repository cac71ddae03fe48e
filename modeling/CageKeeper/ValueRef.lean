import CageKeeper.WireFormat
import Mathlib.Data.Set.List

/-! What a `value_t*` of `function.c` points to. A pointer may be `NULL`, at the top or as an element
of an array, and a `Value` is a tree without such pointers; reading through a `NULL` ends the
process and is `none` here. -/

namespace CageKeeper
open ByteStream

/-- A `value_t*`. -/
inductive ValueRef where
  | null
  | void
  | float32 (bits : BitVec 32)
  | int32 (bits : BitVec 32)
  | boolean (b : Bool)
  | string (str : CString)
  | array (data : List ValueRef)

namespace ValueRef

def isNull : ValueRef → Bool
  | .null => true
  | _ => false

/-- Induction over what is reached from a pointer, with the hypothesis for all elements of an
array at once. -/
@[elab_as_elim] theorem induction {motive : ValueRef → Prop} (null : motive .null)
    (void : motive .void) (float32 : ∀ bits, motive (.float32 bits))
    (int32 : ∀ bits, motive (.int32 bits)) (boolean : ∀ b, motive (.boolean b))
    (string : ∀ str, motive (.string str))
    (array : ∀ data, (∀ entry ∈ data, motive entry) → motive (.array data)) (ref : ValueRef) :
    motive ref := by
  refine ValueRef.rec (motive_2 := fun data => ∀ entry ∈ data, motive entry)
    null void float32 int32 boolean string array ?_ ?_ ref
  · exact List.forall_mem_nil _
  · intro head tail hhead htail
    exact List.forall_mem_cons.mpr ⟨hhead, htail⟩

mutual

/-- A pointer to a tree without `NULL` pointers. -/
def ofValue : Value → ValueRef
  | .void => .void
  | .float32 bits => .float32 bits
  | .int32 bits => .int32 bits
  | .boolean b => .boolean b
  | .string str => .string str
  | .array data => .array (ofValues data)

def ofValues : List Value → List ValueRef
  | [] => []
  | entry :: data => ofValue entry :: ofValues data

end

mutual

/-- No `NULL` is reached from the pointer. -/
def noNull : ValueRef → Bool
  | .null => false
  | .array data => noNulls data
  | _ => true

def noNulls : List ValueRef → Bool
  | [] => true
  | entry :: data => noNull entry && noNulls data

end

mutual

/-- `write_value`, with the `NULL` pointers it may meet. -/
def write : ValueRef → Option Bytes
  | .null => none
  | .void => some (writeValue .void)
  | .float32 bits => some (writeValue (.float32 bits))
  | .int32 bits => some (writeValue (.int32 bits))
  | .boolean b => some (writeValue (.boolean b))
  | .string str => some (writeValue (.string str))
  | .array data => do
      let entries ← writeAll data
      pure (writeByte ValueType.array.code ++ wordBytes (BitVec.ofNat 32 data.length) ++ entries)

def writeAll : List ValueRef → Option Bytes
  | [] => some []
  | entry :: data => do
      let first ← write entry
      let others ← writeAll data
      pure (first ++ others)

end

mutual

/-- What `write_value` writes before it comes to a `NULL`, or all if there is none. -/
def writeBefore : ValueRef → Bytes
  | .null => []
  | .void => writeValue .void
  | .float32 bits => writeValue (.float32 bits)
  | .int32 bits => writeValue (.int32 bits)
  | .boolean b => writeValue (.boolean b)
  | .string str => writeValue (.string str)
  | .array data =>
      writeByte ValueType.array.code ++ wordBytes (BitVec.ofNat 32 data.length) ++
        writeAllBefore data

def writeAllBefore : List ValueRef → Bytes
  | [] => []
  | entry :: data =>
      writeBefore entry ++ if noNull entry then writeAllBefore data else []

end

mutual

/-- `value_destroy`, with the destructors of the types. -/
def destroy : ValueRef → Option Unit
  | .null => none
  | .array data => destroyAll data
  | _ => some ()

/-- The loop of `value_destroy_array`. -/
def destroyAll : List ValueRef → Option Unit
  | [] => some ()
  | entry :: data => do
      destroy entry
      destroyAll data

end

theorem ofValues_eq_map (data : List Value) : ofValues data = data.map ofValue := by
  induction data with
  | nil => rfl
  | cons entry data ih => rw [ofValues, ih, List.map_cons]

theorem noNulls_iff {data : List ValueRef} :
    noNulls data = true ↔ ∀ entry ∈ data, noNull entry = true := by
  induction data with
  | nil => simp [noNulls]
  | cons entry data ih => rw [noNulls, Bool.and_eq_true, ih, List.forall_mem_cons]

theorem noNull_ofValue (value : Value) : noNull (ofValue value) = true := by
  induction value using Value.induction with
  | array data ih =>
      rw [ofValue, ofValues_eq_map, noNull, noNulls_iff]
      intro entry hmem
      obtain ⟨source, hsource, rfl⟩ := List.mem_map.mp hmem
      exact ih source hsource
  | _ => rfl

theorem ofValue_ne_null (value : Value) : ofValue value ≠ .null := by
  intro hnull
  have hvalid := noNull_ofValue value
  rw [hnull] at hvalid
  cases hvalid

theorem noNull_iff {ref : ValueRef} : noNull ref = true ↔ ∃ value, ref = ofValue value := by
  refine ⟨fun h => ?_, ?_⟩
  · induction ref using ValueRef.induction with
    | null => cases h
    | void => exact ⟨.void, rfl⟩
    | float32 bits => exact ⟨.float32 bits, rfl⟩
    | int32 bits => exact ⟨.int32 bits, rfl⟩
    | boolean b => exact ⟨.boolean b, rfl⟩
    | string str => exact ⟨.string str, rfl⟩
    | array data ih =>
        rw [noNull, noNulls_iff] at h
        have hrange : data ∈ Set.range (List.map ofValue) := by
          rw [Set.range_list_map]
          intro entry hmem
          obtain ⟨value, hvalue⟩ := ih entry hmem (h entry hmem)
          exact ⟨value, hvalue.symm⟩
        obtain ⟨source, hsource⟩ := hrange
        refine ⟨.array source, ?_⟩
        rw [ofValue, ofValues_eq_map, hsource]
  · rintro ⟨value, rfl⟩
    exact noNull_ofValue value

/-- A tree without `NULL` pointers can be written, and as what it is. -/
theorem write_ofValue (value : Value) : write (ofValue value) = some (writeValue value) := by
  induction value using Value.induction with
  | array data ih =>
      have hall : writeAll (ofValues data) = some (writeEntries data) := by
        induction data with
        | nil => rfl
        | cons entry data ihdata =>
            rw [List.forall_mem_cons] at ih
            rw [ofValues, writeAll, ih.1, ihdata ih.2]
            rfl
      have hlength : (ofValues data).length = data.length := by
        rw [ofValues_eq_map, List.length_map]
      rw [ofValue, write, hall, hlength, writeValue]
      rfl
  | _ => rfl

theorem destroy_eq_some_iff {ref : ValueRef} : destroy ref = some () ↔ noNull ref = true := by
  induction ref using ValueRef.induction with
  | array data ih =>
      rw [destroy, noNull]
      induction data with
      | nil => simp [destroyAll, noNulls]
      | cons entry data ihdata =>
          rw [List.forall_mem_cons] at ih
          rw [destroyAll, noNulls, Bool.and_eq_true, ← ih.1, ← ihdata ih.2]
          cases destroy entry <;> simp
  | _ => simp [destroy, noNull]

end ValueRef

/-- An array with a `NULL` in it, at some depth. -/
structure HoledArray where
  data : List ValueRef
  holed : ValueRef.noNulls data = false

def HoledArray.ref (array : HoledArray) : ValueRef := .array array.data

/-! ### Arrays under construction -/

/-- A `value_t` of type `TYPE_ARRAY` with its `array_internal_t`: the elements and the room there is
for them. -/
structure ArrayValue where
  size : Nat
  data : List ValueRef
  fits : data.length ≤ size

/-- How `array_append` enlarges an array without room. -/
def growSize (size : Nat) : Nat := ((size ||| 3) <<< 1) + 1

theorem lt_growSize (size : Nat) : size < growSize size := by
  have hle : size ≤ size ||| 3 := Nat.left_le_or
  rw [growSize, Nat.shiftLeft_eq]
  omega

namespace ArrayValue

/-- `value_new_array`. -/
def arrayNew : ArrayValue := ⟨0, [], Nat.le_refl 0⟩

/-- `array_append`. -/
def arrayAppend (array : ArrayValue) (value : ValueRef) : ArrayValue where
  size := if array.size ≤ array.data.length then growSize array.size else array.size
  data := array.data ++ [value]
  fits := by
    have hfits := array.fits
    have hgrow := lt_growSize array.size
    rw [List.length_append, List.length_singleton]
    split
    · omega
    · omega

def ref (array : ArrayValue) : ValueRef := .array array.data

@[simp] theorem arrayNew_data : arrayNew.data = [] := rfl

@[simp] theorem arrayAppend_data (array : ArrayValue) (value : ValueRef) :
    (array.arrayAppend value).data = array.data ++ [value] := rfl

end ArrayValue

/-! ### Copying -/

open ArrayValue

mutual

/-- `value_clone`. -/
def valueClone : Value → ValueRef
  | .void => .null
  | .float32 bits => .float32 bits
  | .int32 bits => .int32 bits
  | .boolean b => .boolean b
  | .string str => .string str
  | .array data => (cloneEntries data arrayNew).ref

/-- The loop of `value_clone` over the elements of an array. -/
def cloneEntries : List Value → ArrayValue → ArrayValue
  | [], array => array
  | entry :: data, array => cloneEntries data (array.arrayAppend (valueClone entry))

end

theorem cloneEntries_data (data : List Value) (array : ArrayValue) :
    (cloneEntries data array).data = array.data ++ data.map valueClone := by
  induction data generalizing array with
  | nil => rw [cloneEntries, List.map_nil, List.append_nil]
  | cons entry data ih =>
      rw [cloneEntries, ih, arrayAppend_data, List.append_assoc, List.singleton_append,
        List.map_cons]

theorem valueClone_array (data : List Value) :
    valueClone (.array data) = .array (data.map valueClone) := by
  rw [valueClone, ref, cloneEntries_data, arrayNew_data, List.nil_append]

/-- Every clone without a `NULL` comes from a tree without `TYPE_VOID`. -/
theorem not_mem_void_of_noNull {value : Value} (h : (valueClone value).noNull = true) :
    ValueType.void ∉ value.types := by
  induction value using Value.induction with
  | void => cases h
  | array data ih =>
      rw [valueClone_array, ValueRef.noNull, ValueRef.noNulls_iff] at h
      intro hmem
      rw [Value.types, List.mem_cons] at hmem
      rcases hmem with hmem | hmem
      · cases hmem
      · obtain ⟨entry, hentry, hvoid⟩ := Value.mem_typesOfList.mp hmem
        exact ih entry hentry (h _ (List.mem_map_of_mem hentry)) hvoid
  | _ => simp [Value.types, Value.type]

theorem valueClone_eq_ofValue {value : Value} (hvoid : ValueType.void ∉ value.types) :
    valueClone value = .ofValue value := by
  induction value using Value.induction with
  | void => exact absurd (List.mem_singleton.mpr rfl) hvoid
  | array data ih =>
      rw [valueClone_array, ValueRef.ofValue, ValueRef.ofValues_eq_map]
      congr 1
      apply List.map_congr_left
      intro entry hmem
      apply ih entry hmem
      intro hentry
      exact hvoid (List.mem_cons_of_mem _ (Value.mem_typesOfList.mpr ⟨entry, hmem, hentry⟩))
  | _ => rfl

/-- A deep copy: a pointer to an equal tree without `NULL` in it, that can be written and destroyed
as the original can. -/
structure DeepCopy (value : Value) (clone : ValueRef) : Prop where
  equal : clone = .ofValue value
  noNull : clone.noNull = true
  written : clone.write = some (writeValue value)
  destroyed : clone.destroy = some ()

theorem DeepCopy.ofValue (value : Value) : DeepCopy value (.ofValue value) where
  equal := rfl
  noNull := ValueRef.noNull_ofValue value
  written := ValueRef.write_ofValue value
  destroyed := ValueRef.destroy_eq_some_iff.mpr (ValueRef.noNull_ofValue value)

/-- **When a clone is a copy.** `value_clone` copies a tree if and only if no node of it has type
`TYPE_VOID`. -/
theorem valueClone_deepCopy_iff (value : Value) :
    DeepCopy value (valueClone value) ↔ ValueType.void ∉ value.types := by
  refine ⟨fun h => not_mem_void_of_noNull h.noNull, fun hvoid => ?_⟩
  rw [valueClone_eq_ofValue hvoid]
  exact DeepCopy.ofValue value

/-- A void inside an array is a `NULL` element of the clone. -/
theorem valueClone_void_element : ¬ ∀ value, DeepCopy value (valueClone value) :=
  fun h => by cases (h (.array [.void])).noNull

end CageKeeper
