import Mathlib.Algebra.Order.Ring.Int

/-! Arithmetic of C in the range of an `int`. An expression that leaves the range has no value. -/

namespace CageKeeper

/-- The value of an expression of type `int`, if it is in range. -/
def int (n : Nat) : Option Nat := if n < 2 ^ 31 then some n else none

theorem int_eq {n : Nat} (h : n < 2 ^ 31) : int n = some n := if_pos h

theorem int_eq_some {n i : Nat} (h : int n = some i) : n < 2 ^ 31 ∧ n = i := by
  rw [int] at h
  split at h
  · rename_i hlt
    exact ⟨hlt, Option.some.inj h⟩
  · cases h

end CageKeeper
