import Mathlib.Data.List.GetD
import Mathlib.Logic.Function.Iterate
import Mathlib.Tactic.Common

/-! Cyclic redundancy checks that take the least significant bit of a message first. Words and
polynomials may have any width. A shift is linear, so that a chunk of a message can be added at once
before it is shifted out, and what becomes of the lower part of a word can be looked up in a table. -/

namespace ReflectedCrc

variable {w : Nat} (poly : BitVec w)

/-- What a bit that is shifted out leaves behind. -/
def residue (bit : Bool) : BitVec w := if bit then poly else 0

/-- The remainder is shifted by one place. -/
def shift (c : BitVec w) : BitVec w := (c >>> 1) ^^^ residue poly (c.getLsbD 0)

def addBit (c : BitVec w) (bit : Bool) : BitVec w :=
  shift poly (c ^^^ (BitVec.ofBool bit).setWidth w)

/-- The bits of a message one after another. -/
def addBits (c : BitVec w) (bits : List Bool) : BitVec w := bits.foldl (addBit poly) c

/-- The word with these bits, the first one at the lower end. -/
def chunk (w : Nat) (bits : List Bool) : BitVec w := (BitVec.ofBoolListLE bits).setWidth w

def lowBits (count : Nat) (c : BitVec w) : BitVec w := (c.setWidth count).setWidth w

theorem addBits_append (c : BitVec w) (bits more : List Bool) :
    addBits poly c (bits ++ more) = addBits poly (addBits poly c bits) more :=
  List.foldl_append

/-! ### Linearity -/

theorem residue_xor (left right : Bool) :
    residue poly (left ^^ right) = residue poly left ^^^ residue poly right := by
  cases left <;> cases right <;> simp [residue]

theorem shift_xor (left right : BitVec w) :
    shift poly (left ^^^ right) = shift poly left ^^^ shift poly right := by
  unfold shift
  rw [BitVec.ushiftRight_xor_distrib, BitVec.getLsbD_xor, residue_xor]
  ac_rfl

/-- **A shift is linear**, and so are many. -/
theorem shifts_xor (count : Nat) (left right : BitVec w) :
    (shift poly)^[count] (left ^^^ right)
      = (shift poly)^[count] left ^^^ (shift poly)^[count] right := by
  induction count generalizing left right with
  | zero => rfl
  | succ count ih =>
      simp only [Function.iterate_succ_apply]
      rw [shift_xor, ih]

theorem shifts_of_zeros {count : Nat} {c : BitVec w} (hzeros : ∀ i < count, c.getLsbD i = false) :
    (shift poly)^[count] c = c >>> count := by
  induction count with
  | zero => exact (BitVec.ushiftRight_zero c).symm
  | succ count ih =>
      have hbit : (c >>> count).getLsbD 0 = false := by
        rw [BitVec.getLsbD_ushiftRight, Nat.add_zero]
        exact hzeros count (Nat.lt_succ_self count)
      rw [Function.iterate_succ_apply', ih fun i hi => hzeros i (Nat.lt_succ_of_lt hi), shift, hbit,
        residue, BitVec.shiftRight_add]
      simp

/-! ### Chunks -/

theorem getLsbD_chunk (bits : List Bool) (i : Nat) :
    (chunk w bits).getLsbD i = (decide (i < w) && bits.getD i false) := by
  rw [chunk, BitVec.getLsbD_setWidth, BitVec.getLsbD_ofBoolListLE]

theorem chunk_cons (bit : Bool) (bits : List Bool) :
    chunk w (bit :: bits) = (BitVec.ofBool bit).setWidth w ^^^ (chunk w bits <<< 1) := by
  apply BitVec.eq_of_getLsbD_eq
  intro i hi
  rw [BitVec.getLsbD_xor, BitVec.getLsbD_setWidth, BitVec.getLsbD_ofBool, BitVec.getLsbD_shiftLeft,
    getLsbD_chunk, getLsbD_chunk]
  cases i with
  | zero => simp [hi]
  | succ i => simp [hi, Nat.lt_of_succ_lt hi]

/-- Nothing is lost when a chunk that is short enough is shifted up and down. -/
theorem shift_chunk {bits : List Bool} (hlength : bits.length < w) :
    shift poly (chunk w bits <<< 1) = chunk w bits := by
  have hzeros : ∀ i < 1, (chunk w bits <<< 1).getLsbD i = false := by
    intro i hi
    rw [BitVec.getLsbD_shiftLeft, decide_eq_true hi]
    simp
  have hshift := shifts_of_zeros poly hzeros
  rw [Function.iterate_one] at hshift
  rw [hshift]
  apply BitVec.eq_of_getLsbD_eq
  intro i hi
  rw [BitVec.getLsbD_ushiftRight, BitVec.getLsbD_shiftLeft, Nat.add_sub_cancel_left,
    getLsbD_chunk]
  by_cases hlast : 1 + i < w
  · simp [hlast]
  · have hnone : bits.getD i false = false := List.getD_eq_default _ _ (by omega)
    rw [hnone]
    simp

/-- **A chunk at once.** The bits of a chunk that is no longer than a word may all be added before they
are shifted out. -/
theorem addBits_eq {bits : List Bool} (hlength : bits.length ≤ w) (c : BitVec w) :
    addBits poly c bits = (shift poly)^[bits.length] (c ^^^ chunk w bits) := by
  induction bits generalizing c with
  | nil =>
      have hzero : chunk w [] = 0 := by
        apply BitVec.eq_of_getLsbD_eq
        intro i _
        rw [getLsbD_chunk]
        simp
      rw [hzero]
      exact (BitVec.xor_zero).symm
  | cons bit bits ih =>
      calc
        addBits poly c (bit :: bits) = addBits poly (addBit poly c bit) bits := rfl
        _ = (shift poly)^[bits.length] (addBit poly c bit ^^^ chunk w bits) :=
          ih (Nat.le_of_succ_le hlength) _
        _ = (shift poly)^[bits.length] (shift poly (c ^^^ (BitVec.ofBool bit).setWidth w)
              ^^^ shift poly (chunk w bits <<< 1)) := by
          rw [shift_chunk poly hlength, addBit]
        _ = (shift poly)^[(bit :: bits).length] (c ^^^ chunk w (bit :: bits)) := by
          rw [← shift_xor, BitVec.xor_assoc, ← chunk_cons, ← Function.iterate_succ_apply,
            List.length_cons]

/-! ### Tables -/

theorem getLsbD_lowBits (count : Nat) (c : BitVec w) (i : Nat) :
    (lowBits count c).getLsbD i = (decide (i < count) && c.getLsbD i) := by
  rw [lowBits, BitVec.getLsbD_setWidth, BitVec.getLsbD_setWidth]
  by_cases hi : i < w
  · simp [hi]
  · rw [BitVec.getLsbD_of_ge c i (Nat.le_of_not_lt hi)]
    simp

/-- **The table.** What is shifted out depends on the lower part of the word only, and the rest moves
down. -/
theorem shifts_eq_table (count : Nat) (c : BitVec w) :
    (shift poly)^[count] c = (c >>> count) ^^^ (shift poly)^[count] (lowBits count c) := by
  have hsplit : c = (c ^^^ lowBits count c) ^^^ lowBits count c := by
    rw [BitVec.xor_assoc, BitVec.xor_self, BitVec.xor_zero]
  have hzeros : ∀ i < count, (c ^^^ lowBits count c).getLsbD i = false := by
    intro i hi
    rw [BitVec.getLsbD_xor, getLsbD_lowBits, decide_eq_true hi, Bool.true_and, Bool.xor_self]
  have hhigh : (c ^^^ lowBits count c) >>> count = c >>> count := by
    apply BitVec.eq_of_getLsbD_eq
    intro i _
    rw [BitVec.getLsbD_ushiftRight, BitVec.getLsbD_xor, getLsbD_lowBits,
      decide_eq_false (Nat.not_lt.mpr (Nat.le_add_right count i)), Bool.false_and, Bool.xor_false,
      BitVec.getLsbD_ushiftRight]
  calc
    (shift poly)^[count] c
        = (shift poly)^[count] ((c ^^^ lowBits count c) ^^^ lowBits count c) := by rw [← hsplit]
    _ = (c >>> count) ^^^ (shift poly)^[count] (lowBits count c) := by
      rw [shifts_xor, shifts_of_zeros poly hzeros, hhigh]

/-- **A chunk from the table.** -/
theorem addBits_eq_table {bits : List Bool} (hlength : bits.length ≤ w) (c : BitVec w) :
    addBits poly c bits = (c >>> bits.length)
      ^^^ (shift poly)^[bits.length] (lowBits bits.length (c ^^^ chunk w bits)) := by
  have hnone : chunk w bits >>> bits.length = 0 := by
    apply BitVec.eq_of_getLsbD_eq
    intro i _
    rw [BitVec.getLsbD_ushiftRight, getLsbD_chunk, List.getD_eq_default _ _ (Nat.le_add_right _ i)]
    simp
  rw [addBits_eq poly hlength, shifts_eq_table, BitVec.ushiftRight_xor_distrib, hnone]
  congr 1
  exact BitVec.xor_zero

end ReflectedCrc
