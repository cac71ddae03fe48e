import CageKeeper.CheckedInt
import CageKeeper.ValueRef
import Mathlib.Data.List.Induction
import Mathlib.Order.Bounds.Basic

/-! Arrays as they are in memory: a block of slots that `array_append` fills from the front and
enlarges when it is full. The number of slots is always one less than a power of two. What leaves the
range of an `int` or stores outside the block has no result. -/

namespace CageKeeper

/-- A `value_t` of type `TYPE_ARRAY` and its `array_internal_t`. -/
structure ArrayBlock where
  size : Nat
  /-- The slots that `data` points to, unless it is `NULL`. Some may hold nothing yet. -/
  data : Option (List (Option ValueRef))
  length : Nat

namespace ArrayBlock

/-- `value_new_array`, which `array_new` calls. -/
def arrayNew : ArrayBlock := ⟨0, none, 0⟩

/-- `malloc`, or `realloc` where there is a block already. -/
def reallocate (size : Nat) : Option (List (Option ValueRef)) → List (Option ValueRef)
  | none => List.replicate size none
  | some data => data.take size ++ List.replicate (size - data.length) none

/-- The size that `array_append` gives a full array. -/
def grow (size : Nat) : Option Nat := do
  let size ← int (size ||| 3)
  let size ← int (size <<< 1)
  int (size + 1)

/-- `array_append` before the store. -/
def makeRoom (array : ArrayBlock) : Option ArrayBlock :=
  if array.size ≤ array.length then do
    let size ← grow array.size
    some { array with size := size, data := some (reallocate size array.data) }
  else some array

/-- `array->data[array->length++] = value`. -/
def store (array : ArrayBlock) (value : ValueRef) : Option ArrayBlock := do
  let data ← array.data
  if array.length < data.length then
    let length ← int (array.length + 1)
    some { array with data := some (data.set array.length (some value)), length := length }
  else none

/-- `array_append`. -/
def arrayAppend (array : ArrayBlock) (value : ValueRef) : Option ArrayBlock := do
  let array ← array.makeRoom
  array.store value

/-- A new array after some calls of `array_append`. -/
def ofAppends (values : List ValueRef) : Option ArrayBlock := values.foldlM arrayAppend arrayNew

def slots (array : ArrayBlock) : List (Option ValueRef) := array.data.getD []

def elements (array : ArrayBlock) : List (Option ValueRef) := array.slots.take array.length

end ArrayBlock

/-! ### Sizes -/

def blockSizes : Set Nat := {size | ∃ k, 3 ≤ k ∧ size = 2 ^ k - 1}

/-- A block has no slots as long as there are no elements, and as few as it can have afterwards. -/
structure IsCapacity (length size : Nat) : Prop where
  empty : length = 0 → size = 0
  least : length ≠ 0 → IsLeast {size ∈ blockSizes | length ≤ size} size

/-- Numbers of the form `2 ^ k - 1` have only ones, so that the lower two bits are set already. -/
theorem two_pow_sub_one_or_three {k : Nat} (hk : 2 ≤ k) : (2 ^ k - 1) ||| 3 = 2 ^ k - 1 := by
  apply Nat.eq_of_testBit_eq
  intro i
  have hthree : 3 = 2 ^ 2 - 1 := rfl
  rw [Nat.testBit_or, hthree, Nat.testBit_two_pow_sub_one, Nat.testBit_two_pow_sub_one,
    ← Bool.decide_or]
  exact decide_eq_decide.mpr ⟨fun h => h.elim id fun hi => Nat.lt_of_lt_of_le hi hk, Or.inl⟩

/-- **The growth step.** The number of ones grows by one. -/
theorem growSize_two_pow_sub_one {k : Nat} (hk : 2 ≤ k) : growSize (2 ^ k - 1) = 2 ^ (k + 1) - 1 := by
  have hpos : 0 < 2 ^ k := Nat.two_pow_pos k
  rw [growSize, two_pow_sub_one_or_three hk, Nat.shiftLeft_eq, Nat.pow_succ]
  omega

namespace IsCapacity

variable {length size : Nat}

theorem zero : IsCapacity 0 0 := ⟨fun _ => rfl, fun hne => absurd rfl hne⟩

theorem le (hcapacity : IsCapacity length size) {other : Nat} (hother : other ∈ blockSizes)
    (hle : length ≤ other) : size ≤ other := by
  by_cases hzero : length = 0
  · rw [hcapacity.empty hzero]
    exact Nat.zero_le other
  · exact (hcapacity.least hzero).2 ⟨hother, hle⟩

theorem succ_of_lt (hcapacity : IsCapacity length size) (hlt : length < size) :
    IsCapacity (length + 1) size := by
  refine ⟨nofun, fun _ => ⟨?_, fun other hother => ?_⟩⟩
  · have hne : length ≠ 0 := fun hzero => Nat.not_lt_zero _ (hcapacity.empty hzero ▸ hlt)
    exact ⟨(hcapacity.least hne).1.1, hlt⟩
  · exact hcapacity.le hother.1 (Nat.le_of_succ_le hother.2)

theorem succ_of_le (hcapacity : IsCapacity length size) (hle : size ≤ length) :
    IsCapacity (length + 1) (growSize size) := by
  refine ⟨nofun, fun _ => ?_⟩
  by_cases hzero : length = 0
  · obtain rfl : size = 0 := hcapacity.empty hzero
    refine ⟨⟨⟨3, Nat.le_refl 3, rfl⟩, ?_⟩, ?_⟩
    · rw [hzero]
      decide
    · rintro other ⟨⟨k, hk, rfl⟩, -⟩
      exact Nat.sub_le_sub_right (Nat.pow_le_pow_right Nat.two_pos hk) 1
  · obtain ⟨⟨⟨k, hk, rfl⟩, hfits⟩, -⟩ := hcapacity.least hzero
    obtain rfl : length = 2 ^ k - 1 := Nat.le_antisymm hfits hle
    have hpos : 0 < 2 ^ k := Nat.two_pow_pos k
    rw [growSize_two_pow_sub_one (by omega)]
    refine ⟨⟨⟨k + 1, by omega, rfl⟩, ?_⟩, ?_⟩
    · rw [Nat.pow_succ]
      omega
    · rintro other ⟨⟨j, hj, rfl⟩, hlarger⟩
      -- a size above this one has more ones
      have hlt : k < j := by
        apply (Nat.pow_lt_pow_iff_right Nat.one_lt_two).mp
        omega
      exact Nat.sub_le_sub_right (Nat.pow_le_pow_right Nat.two_pos hlt) 1

theorem lt (hcapacity : IsCapacity length size) (hlength : length < 2 ^ 30) : size < 2 ^ 30 := by
  have hle : size ≤ 2 ^ 30 - 1 := hcapacity.le ⟨30, by decide, rfl⟩ (Nat.le_sub_one_of_lt hlength)
  omega

theorem arrayAppend {array : ArrayValue} (hcapacity : IsCapacity array.data.length array.size)
    (value : ValueRef) :
    IsCapacity (array.arrayAppend value).data.length (array.arrayAppend value).size := by
  rw [ArrayValue.arrayAppend_data, List.length_append, List.length_singleton]
  unfold ArrayValue.arrayAppend
  simp only
  split
  · rename_i hfull
    exact hcapacity.succ_of_le hfull
  · rename_i hroom
    exact hcapacity.succ_of_lt (Nat.lt_of_not_le hroom)

end IsCapacity

/-! ### Blocks -/

namespace ArrayBlock

variable {block : ArrayBlock} {array : ArrayValue}

theorem grow_eq {size : Nat} (hsize : growSize size < 2 ^ 31) : grow size = some (growSize size) := by
  rw [growSize, Nat.shiftLeft_eq] at hsize
  have hones : int (size ||| 3) = some (size ||| 3) := int_eq (by omega)
  have hshift : int ((size ||| 3) <<< 1) = some ((size ||| 3) <<< 1) := by
    apply int_eq
    rw [Nat.shiftLeft_eq]
    omega
  simp only [grow, hones, hshift, Option.bind_eq_bind, Option.bind_some]
  apply int_eq
  rw [Nat.shiftLeft_eq]
  omega

/-- The elements of an array are in the first slots of its block, and the others are empty. -/
structure Stores (block : ArrayBlock) (array : ArrayValue) : Prop where
  size_eq : block.size = array.size
  length_eq : block.length = array.data.length
  slots_eq : block.slots
    = array.data.map some ++ List.replicate (array.size - array.data.length) none

theorem arrayNew_stores : arrayNew.Stores ArrayValue.arrayNew := ⟨rfl, rfl, rfl⟩

namespace Stores

theorem slots_length (hstores : block.Stores array) : block.slots.length = block.size := by
  rw [hstores.slots_eq, List.length_append, List.length_map, List.length_replicate,
    hstores.size_eq, Nat.add_sub_cancel' array.fits]

theorem elements_eq (hstores : block.Stores array) : block.elements = array.data.map some := by
  rw [elements, hstores.slots_eq, hstores.length_eq, ← List.length_map some, List.take_left]

theorem reallocate_eq (hstores : block.Stores array) {size : Nat} (hsize : array.size ≤ size) :
    reallocate size block.data
      = array.data.map some ++ List.replicate (size - array.data.length) none := by
  have hlength := hstores.slots_length
  have hslots := hstores.slots_eq
  rw [hstores.size_eq] at hlength
  cases hdata : block.data with
  | none =>
      rw [slots, hdata, Option.getD_none, List.length_nil] at hlength
      have hempty : array.data = [] := by
        apply List.eq_nil_of_length_eq_zero
        exact Nat.le_zero.mp (array.fits.trans_eq hlength.symm)
      rw [reallocate, hempty]
      rfl
  | some data =>
      rw [slots, hdata, Option.getD_some] at hlength hslots
      have hfits := array.fits
      rw [reallocate, List.take_of_length_le (hlength.trans_le hsize), hlength, hslots,
        List.append_assoc, List.replicate_append_replicate]
      congr 2
      omega

/-- After the first half of `array_append` there is a slot for another element. -/
theorem makeRoom (hstores : block.Stores array) {value : ValueRef}
    (hsize : (array.arrayAppend value).size < 2 ^ 31) :
    ∃ roomy, block.makeRoom = some roomy ∧ roomy.size = (array.arrayAppend value).size ∧
      roomy.length = array.data.length ∧ roomy.data
        = some (array.data.map some ++ List.replicate (roomy.size - array.data.length) none) := by
  unfold ArrayBlock.makeRoom
  unfold ArrayValue.arrayAppend at hsize ⊢
  rw [hstores.size_eq, hstores.length_eq]
  by_cases hfull : array.size ≤ array.data.length
  · simp only [if_pos hfull] at hsize ⊢
    refine ⟨⟨growSize array.size, some (reallocate (growSize array.size) block.data),
      block.length⟩, ?_, rfl, hstores.length_eq, ?_⟩
    · exact Option.bind_eq_some_iff.mpr ⟨_, grow_eq hsize, by rw [hstores.length_eq]⟩
    · exact congrArg some (hstores.reallocate_eq (Nat.le_of_lt (lt_growSize array.size)))
  · simp only [if_neg hfull]
    refine ⟨block, rfl, hstores.size_eq, hstores.length_eq, ?_⟩
    have hslots := hstores.slots_eq
    cases hdata : block.data with
    | none =>
        have hlength := hstores.slots_length
        rw [slots, hdata, hstores.size_eq] at hlength
        exact absurd (hlength ▸ Nat.zero_le _) hfull
    | some data =>
        rw [slots, hdata, Option.getD_some] at hslots
        rw [hslots, hstores.size_eq]

theorem arrayAppend (hstores : block.Stores array) {value : ValueRef}
    (hsize : (array.arrayAppend value).size < 2 ^ 31) :
    ∃ roomy next, block.makeRoom = some roomy ∧ roomy.length = array.data.length ∧
      roomy.length < roomy.size ∧ block.size ≤ roomy.size ∧ roomy.store value = some next ∧
      next.Stores (array.arrayAppend value) := by
  obtain ⟨roomy, hroomy, hnewSize, hlength, hdata⟩ := hstores.makeRoom hsize
  have hroom : roomy.length < roomy.size := by
    have hfits := (array.arrayAppend value).fits
    rw [ArrayValue.arrayAppend_data, List.length_append, List.length_singleton] at hfits
    omega
  have hgrows : block.size ≤ roomy.size := by
    rw [hnewSize, hstores.size_eq]
    unfold ArrayValue.arrayAppend
    simp only
    split
    · exact Nat.le_of_lt (lt_growSize array.size)
    · exact Nat.le_refl _
  have hslot : roomy.length < (array.data.map some
      ++ List.replicate (roomy.size - array.data.length) none).length := by
    rw [List.length_append, List.length_map, List.length_replicate]
    omega
  have hcount : int (roomy.length + 1) = some (roomy.length + 1) := int_eq (by omega)
  refine ⟨roomy, { roomy with
    data := some ((array.data.map some ++ List.replicate (roomy.size - array.data.length)
      none).set roomy.length (some value))
    length := roomy.length + 1 }, hroomy, hlength, hroom, hgrows, ?_, hnewSize, ?_, ?_⟩
  · simp only [store, hdata, Option.bind_eq_bind, Option.bind_some, if_pos hslot, hcount]
  · rw [ArrayValue.arrayAppend_data, List.length_append, List.length_singleton, hlength]
  · rw [slots, Option.getD_some, ArrayValue.arrayAppend_data, List.map_append, List.length_append,
      List.length_singleton, ← hnewSize, List.append_assoc, List.set_append,
      List.length_map, hlength, if_neg (Nat.lt_irrefl _), Nat.sub_self]
    obtain ⟨others, hothers⟩ : ∃ others, roomy.size - array.data.length = others + 1 :=
      ⟨roomy.size - array.data.length - 1, by omega⟩
    rw [hothers, List.replicate_succ, List.set_cons_zero, ← Nat.sub_sub, hothers]
    rfl

end Stores

theorem ofAppends_append (values : List ValueRef) (value : ValueRef) :
    ofAppends (values ++ [value]) = (ofAppends values).bind (ArrayBlock.arrayAppend · value) := by
  unfold ofAppends
  rw [List.foldlM_append]
  simp only [List.foldlM_cons, List.foldlM_nil, bind_pure]
  rfl

/-- **Appending, in memory.** The block of an array has the capacity for its elements. -/
theorem ofAppends_stores {values : List ValueRef} (hlength : values.length < 2 ^ 30) :
    ∃ block array, ofAppends values = some block ∧ block.Stores array ∧ array.data = values ∧
      IsCapacity array.data.length array.size := by
  induction values using List.reverseRecOn with
  | nil => exact ⟨arrayNew, .arrayNew, rfl, arrayNew_stores, rfl, .zero⟩
  | append_singleton values value ih =>
      rw [List.length_append, List.length_singleton] at hlength
      obtain ⟨block, array, hblock, hstores, rfl, hcapacity⟩ := ih (Nat.lt_of_succ_lt hlength)
      have hnext := hcapacity.arrayAppend value
      have hsize : (array.arrayAppend value).size < 2 ^ 30 := by
        apply hnext.lt
        rwa [ArrayValue.arrayAppend_data, List.length_append, List.length_singleton]
      obtain ⟨roomy, next, hroomy, -, -, -, hstore, hnextStores⟩ :=
        hstores.arrayAppend (hsize.trans (by decide))
      refine ⟨next, array.arrayAppend value, ?_, hnextStores, ArrayValue.arrayAppend_data .., hnext⟩
      rw [ofAppends_append, hblock, Option.bind_some, ArrayBlock.arrayAppend, hroomy]
      exact hstore

/-- **The capacity of an array.** Fewer than `2 ^ 30` values can be appended to a new array, one after
another. They are its elements, its block has as few slots as it can, every store is below the size,
which never shrinks, and no `int` overflows. -/
theorem appends_keep_capacity (values : List ValueRef) (hlength : values.length < 2 ^ 30) :
    ∃ block, ofAppends values = some block ∧ block.length = values.length ∧
      block.elements = values.map some ∧ block.slots.length = block.size ∧
      IsCapacity values.length block.size ∧
      ∀ front value back, values = front ++ value :: back →
        ∃ before roomy next, ofAppends front = some before ∧ before.makeRoom = some roomy ∧
          roomy.length = front.length ∧ roomy.length < roomy.size ∧ before.size ≤ roomy.size ∧
          roomy.store value = some next ∧ ofAppends (front ++ [value]) = some next := by
  obtain ⟨block, array, hblock, hstores, rfl, hcapacity⟩ := ofAppends_stores hlength
  refine ⟨block, hblock, hstores.length_eq, hstores.elements_eq, hstores.slots_length,
    hstores.size_eq ▸ hcapacity, fun front value back hsplit => ?_⟩
  have hfront : (front ++ [value]).length < 2 ^ 30 := by
    rw [hsplit, List.length_append, List.length_cons] at hlength
    rw [List.length_append, List.length_singleton]
    omega
  have hshort : front.length < 2 ^ 30 := by
    rw [List.length_append, List.length_singleton] at hfront
    omega
  obtain ⟨before, array', hbefore, hstores', rfl, hcapacity'⟩ := ofAppends_stores hshort
  have hsize : (array'.arrayAppend value).size < 2 ^ 30 := by
    apply (hcapacity'.arrayAppend value).lt
    rwa [ArrayValue.arrayAppend_data]
  obtain ⟨roomy, next, hroomy, hcount, hroom, hgrows, hstore, -⟩ :=
    hstores'.arrayAppend (hsize.trans (by decide))
  refine ⟨before, roomy, next, hbefore, hroomy, hcount, hroom, hgrows, hstore, ?_⟩
  rw [ofAppends_append, hbefore, Option.bind_some, ArrayBlock.arrayAppend, hroomy]
  exact hstore

/-- The eighth element finds a full block. -/
theorem appends_keep_capacity_eight :
    (ofAppends (List.replicate 8 .null)).map size = some 15 ∧
      ∃ block, ofAppends (List.replicate 8 .null) = some block ∧ block.length = 8 ∧
        IsCapacity 8 block.size := by
  obtain ⟨block, hblock, hlength, -, -, hcapacity, -⟩ :=
    appends_keep_capacity (List.replicate 8 .null) (by decide)
  exact ⟨by decide, block, hblock, hlength, hcapacity⟩

end ArrayBlock

end CageKeeper
