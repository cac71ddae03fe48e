import CageKeeper.BinaryFloat
import CageKeeper.GuestConversion

/-! The numbers that values stand for, with floats as IEEE 754 has them, and what it is for a value to
come back from a guest: as a tree of the same shape with like leaves. -/

namespace CageKeeper
open ByteStream BinaryFloat
open Float.Model (Format)
open Float.Model.UnpackedFloat

theorem extends_binary64 : Extends .binary32 .binary64 := ⟨by decide, by decide, by decide⟩

/-- The conversions between `float`, `double` and the integers. -/
def ieeeDoubles : Doubles where
  narrow := convertBits .binary64 .binary32
  widen := convertBits .binary32 .binary64
  toInteger double := BitVec.ofInt 32 ((unpack .binary64 double).toInt (-2 ^ 63) (2 ^ 63 - 1))
  narrow_widen := convertBits_convertBits extends_binary64

/-- An integer as a `double`. -/
def doubleOfInt (n : Int) : BitVec 64 := pack .binary64 (ofInt .binary64 n)

theorem ValueRef.ofValue_injective {left right : Value} (h : ofValue left = ofValue right) :
    left = right := by
  induction left using Value.induction generalizing right with
  | array data ih =>
      cases right with
      | array data' =>
          rw [ofValue, ofValue, array.injEq, ofValues_eq_map, ofValues_eq_map] at h
          congr 1
          induction data generalizing data' with
          | nil => exact (List.map_eq_nil_iff.mp h.symm).symm
          | cons entry data ihdata =>
              cases data' with
              | nil => cases h
              | cons entry' data' =>
                  rw [List.map_cons, List.map_cons, List.cons.injEq] at h
                  rw [ih entry (List.mem_cons_self ..) h.1,
                    ihdata (fun other hmem => ih other (List.mem_cons_of_mem _ hmem)) data' h.2]
      | _ => cases h
  | _ => cases right <;> simp_all [ofValue]

namespace Value

def number? : Value → Option Number
  | .float32 bits => some (number (unpack .binary32 bits))
  | .int32 bits => some (.rational bits.toInt)
  | _ => none

mutual

def integers : Value → List (BitVec 32)
  | .int32 bits => [bits]
  | .array data => integersOfList data
  | _ => []

def integersOfList : List Value → List (BitVec 32)
  | [] => []
  | entry :: data => integers entry ++ integersOfList data

end

theorem mem_integersOfList {data : List Value} {bits : BitVec 32} :
    bits ∈ integersOfList data ↔ ∃ entry ∈ data, bits ∈ entry.integers := by
  induction data with
  | nil => simp [integersOfList]
  | cons entry data ih =>
      simp only [integersOfList, List.mem_append, ih, List.exists_mem_cons_iff]

mutual

/-- Two trees have the same shape, and leaves that are the same in some sense. -/
def Alike (same : Value → Value → Prop) : Value → Value → Prop
  | .array data, .array data' => AlikeList same data data'
  | value, value' => same value value'

def AlikeList (same : Value → Value → Prop) : List Value → List Value → Prop
  | [], [] => True
  | entry :: data, entry' :: data' => Alike same entry entry' ∧ AlikeList same data data'
  | _, _ => False

end

theorem alikeList_iff {same : Value → Value → Prop} {data data' : List Value} :
    AlikeList same data data' ↔ List.Forall₂ (Alike same) data data' := by
  induction data generalizing data' with
  | nil => cases data' <;> simp [AlikeList]
  | cons entry data ih => cases data' <;> simp [AlikeList, ih]

/-- Leaves of the same type that are equal; a float may be replaced by another one where neither is a
number. -/
def SameLeaf : Value → Value → Prop
  | .void, .void => True
  | .float32 bits, .float32 bits' =>
      bits = bits' ∨
        unpack .binary32 bits = .notANumber ∧ unpack .binary32 bits' = .notANumber
  | .int32 bits, .int32 bits' => bits = bits'
  | .boolean b, .boolean b' => b = b'
  | .string str, .string str' => str = str'
  | _, _ => False

/-- Leaves that are equal, or stand for equal numbers whatever their type. -/
def SameNumber : Value → Value → Prop
  | .void, .void => True
  | .boolean b, .boolean b' => b = b'
  | .string str, .string str' => str = str'
  | value, value' => ∃ number, value.number? = some number ∧ value'.number? = some number

end Value

end CageKeeper
