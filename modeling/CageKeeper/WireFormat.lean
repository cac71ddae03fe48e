import CageKeeper.Value
import Mathlib.Algebra.Order.Ring.Int

/-! The bytes of `language_proxy.c`: how values and strings are written to a pipe and read back.
Words are little-endian and `int` is 32 bits wide. Signed overflow, which C leaves undefined, is
taken to wrap around; allocation succeeds unless the size is negative. -/

namespace CageKeeper
open ByteStream

/-- `INT_MAX`. -/
def intMax : Int := 2147483647

/-- The `int` an arithmetic result is stored as. -/
def wrap (result : Int) : Int := result.bmod (2 ^ 32)

/-- `MAX_ARRAY_SIZE`. -/
def maxArraySize : Int := 1024

/-- `MAX_STRING_SIZE`. -/
def maxStringSize : Int := 4096

def wordBytes (word : BitVec 32) : Bytes :=
  [UInt8.ofNat word.toNat, UInt8.ofNat (word.toNat / 2 ^ 8), UInt8.ofNat (word.toNat / 2 ^ 16),
    UInt8.ofNat (word.toNat / 2 ^ 24)]

def bytesWord : Bytes → BitVec 32
  | [a, b, c, d] => BitVec.ofNat 32
      (a.toNat + b.toNat * 2 ^ 8 + c.toNat * 2 ^ 16 + d.toNat * 2 ^ 24)
  | _ => 0

@[simp] theorem bytesWord_wordBytes (word : BitVec 32) : bytesWord (wordBytes word) = word := by
  apply BitVec.eq_of_toNat_eq
  have hword := word.isLt
  simp only [wordBytes, bytesWord, UInt8.toNat_ofNat', BitVec.toNat_ofNat]
  omega

theorem wordBytes_bytesWord {block : Bytes} (hlength : block.length = 4) :
    wordBytes (bytesWord block) = block := by
  match block, hlength with
  | [a, b, c, d], _ =>
      have ha := a.toNat_lt
      have hb := b.toNat_lt
      have hc := c.toNat_lt
      have hd := d.toNat_lt
      simp only [wordBytes, bytesWord, BitVec.toNat_ofNat, List.cons.injEq, and_true,
        ← UInt8.toNat_inj, UInt8.toNat_ofNat']
      omega

/-! ### Writing -/

/-- `write_byte`. -/
def writeByte (b : UInt8) : Bytes := [b]

/-- `write_string`. -/
def writeString (name : CString) : Bytes :=
  wordBytes (BitVec.ofNat 32 name.length) ++ name.bytes

mutual

/-- `write_value`. -/
def writeValue : Value → Bytes
  | .void => writeByte ValueType.void.code
  | .float32 bits => writeByte ValueType.float32.code ++ wordBytes bits
  | .int32 bits => writeByte ValueType.int32.code ++ wordBytes bits
  | .boolean b => writeByte ValueType.boolean.code ++ writeByte (if b then 1 else 0)
  | .string str => writeByte ValueType.string.code ++ writeString str
  | .array data =>
      writeByte ValueType.array.code ++ wordBytes (BitVec.ofNat 32 data.length) ++ writeEntries data

/-- The loop of `write_value` over the elements of an array. -/
def writeEntries : List Value → Bytes
  | [] => []
  | entry :: data => writeValue entry ++ writeEntries data

end

/-! ### Reading -/

section Reading

variable {χ : Type} [Channel χ]

def readByte : Reader χ UInt8 := do
  let block ← Channel.read 1
  pure (block.headD 0)

def readWord : Reader χ (BitVec 32) := do
  let block ← Channel.read 4
  pure (bytesWord block)

/-- `read_string`. -/
def readString (maxSize : Int) : Reader χ CString := do
  let word ← readWord
  let l := word.toInt
  if l < 0 ∨ (maxSize ≠ 0 ∧ l ≥ maxSize) then
    Reader.reject
  else if wrap (l + 1) < 0 then
    -- malloc(l+1) of a negative size returns NULL
    Reader.reject
  else do
    let s ← Channel.read l.toNat
    pure (CString.ofBytes s)

/-- The loop of `_read_value` over the elements of an array. -/
def readEntries (readEntry : Int → Reader χ (Value × Int)) :
    Nat → Int → Reader χ (List Value × Int)
  | 0, count => pure ([], count)
  | remaining + 1, count => do
      let (entry, count) ← readEntry count
      let (data, count) ← readEntries readEntry remaining count
      pure (entry :: data, count)

/-- `_read_value`, with the stack frames its recursion may use. The counter `*count` is passed in
and returned with the value. -/
def readValueCounted (maxStringSize maxArraySize : Int) :
    (frames : Nat) → (count : Int) → Reader χ (Value × Int)
  | 0, _ => Reader.exhausted
  | frames + 1, count => do
      let b ← readByte
      match ValueType.ofCode b with
      | some .void => pure (.void, count)
      | some .float32 => do
          let f32 ← readWord
          pure (.float32 f32, count)
      | some .int32 => do
          let i32 ← readWord
          pure (.int32 i32, count)
      | some .boolean => do
          let b ← readByte
          pure (.boolean (b ≠ 0), count)
      | some .string => do
          let s ← readString maxStringSize
          pure (.string s, count)
      | some .array => do
          let word ← readWord
          let length := word.toInt
          if maxArraySize ≠ 0 ∧ length ≥ maxArraySize then
            Reader.reject
          else if length ≥ wrap (intMax - count) then
            Reader.reject
          else if maxArraySize ≠ 0 ∧ wrap (length + count) ≥ maxArraySize then
            Reader.reject
          else do
            -- a negative length passes all three checks and the loop does not run
            let (data, count) ←
              readEntries (readValueCounted maxStringSize maxArraySize frames) length.toNat count
            pure (.array data, wrap (count + length))
      | _ => Reader.reject

/-- `read_value`. -/
def readValue : Reader χ Value := do
  let (value, _) ← Reader.withFrames fun frames =>
    readValueCounted maxStringSize maxArraySize frames 0
  pure value

/-- `read_value_nolimit`. -/
def readValueNolimit : Reader χ Value := do
  let (value, _) ← Reader.withFrames fun frames =>
    readValueCounted 0 0 frames 0
  pure value

end Reading

end CageKeeper
