import CageKeeper.DictTable
import CageKeeper.ReflectedCrc

/-! The checksums of `dict.c`. Four functions go through a string or a block with a table of 256
cells, which the first call of any of them fills. A read outside the block that is passed has no
result. -/

namespace CageKeeper
open ByteStream ReflectedCrc

/-! ### The functions -/

/-- The loop of `crc32_init`. -/
def crc32Fill (cells : Vector UInt32 256) (turns : Nat) : Vector UInt32 256 :=
  (List.range turns).foldl (fun cells t => cells.setIfInBounds t (crc32 (UInt32.ofNat t))) cells

theorem crc32Fill_getElem (cells : Vector UInt32 256) (turns : Nat) {t : Nat} (ht : t < 256) :
    (crc32Fill cells turns)[t] = if t < turns then crc32 (UInt32.ofNat t) else cells[t] := by
  induction turns with
  | zero => rfl
  | succ turns ih =>
      unfold crc32Fill at ih ⊢
      rw [List.range_succ, List.foldl_append, List.foldl_cons, List.foldl_nil,
        Vector.getElem_setIfInBounds, ih]
      by_cases hlast : turns = t
      · rw [if_pos hlast, if_pos (by omega), hlast]
      · rw [if_neg hlast]
        exact if_congr (by omega) rfl rfl

/-- The static variables `crc32` and `crc32_initialized`. -/
structure CrcTable where
  cells : Vector UInt32 256
  initialized : Bool
  filled : initialized = true → ∀ t (_ : t < 256), cells[t] = crc32 (UInt32.ofNat t)

theorem and_ff_lt (index : UInt32) : (index &&& 0xff).toNat < 256 := by
  rw [UInt32.toNat_and]
  exact Nat.lt_of_le_of_lt Nat.and_le_right (by decide)

namespace CrcTable

/-- The variables when the program starts. -/
def start : CrcTable := ⟨Vector.replicate 256 0, false, nofun⟩

/-- `crc32_init`. -/
def crc32Init (s : CrcTable) : CrcTable :=
  if s.initialized then s
  else
    ⟨crc32Fill s.cells 256, true, fun _ t ht => by
      rw [crc32Fill_getElem s.cells 256 ht, if_pos ht]⟩

/-- `checksum>>8 ^ crc32[(b^checksum)&0xff]`, for a `b` that has been converted. -/
def next (s : CrcTable) (checksum b : UInt32) : UInt32 :=
  have hindex := and_ff_lt (b ^^^ checksum)
  (checksum >>> 8) ^^^ s.cells[((b ^^^ checksum) &&& 0xff).toNat]

/-- `crc32_add_byte`. -/
def crc32AddByte (s : CrcTable) (checksum : UInt32) (b : UInt8) : CrcTable × UInt32 :=
  let s := s.crc32Init
  (s, s.next checksum b.toUInt32)

/-- The conversion of a `char`, which may be signed. -/
def ofChar (signed : Bool) (c : UInt8) : UInt32 :=
  if signed then c.toInt8.toInt32.toUInt32 else c.toUInt32

/-- The loop of `crc32_add_string`. -/
def stringLoop (s : CrcTable) (signed : Bool) (checksum : UInt32) : Bytes → Option UInt32
  | [] => none
  | c :: rest =>
      if c = 0 then some checksum
      else s.stringLoop signed (s.next checksum (ofChar signed c)) rest

/-- `crc32_add_string`. A string is the bytes from its first one on, or `NULL`. -/
def crc32AddString (s : CrcTable) (signed : Bool) (checksum : UInt32) (text : Option Bytes) :
    Option (CrcTable × UInt32) :=
  let s := s.crc32Init
  match text with
  | none => some (s, checksum)
  | some text => (s.stringLoop signed checksum text).map fun checksum => (s, checksum)

/-- The loop of `crc32_add_bytes`. -/
def bytesLoop (s : CrcTable) (checksum : UInt32) (len : Int) : Bytes → Option UInt32
  | [] => none
  | b :: rest =>
      let checksum := s.next checksum b.toUInt32
      if len - 1 = 0 then some checksum else s.bytesLoop checksum (len - 1) rest

/-- `crc32_add_bytes`. A block is the bytes from its first one on, or `NULL`. -/
def crc32AddBytes (s : CrcTable) (checksum : UInt32) (data : Option Bytes) (len : Int) :
    Option (CrcTable × UInt32) :=
  let s := s.crc32Init
  match data with
  | none => some (s, checksum)
  | some data =>
      if len = 0 then some (s, checksum)
      else (s.bytesLoop checksum len data).map fun checksum => (s, checksum)

/-- The body of the loop of `hash_block`. -/
def hashByte (s : CrcTable) (data : Option Bytes) (checksum : UInt32) (t : Nat) :
    Option UInt32 := do
  let data ← data
  let b ← data[t]?
  some (s.next checksum b.toUInt32)

/-- `hash_block`. -/
def hashBlock (s : CrcTable) (data : Option Bytes) (len : Int) : Option (CrcTable × UInt32) :=
  let s := s.crc32Init
  ((List.range len.toNat).foldlM (s.hashByte data) 0).map fun checksum => (s, checksum)

end CrcTable

/-! ### One bit at a time -/

def crcPoly : BitVec 32 := 0xedb88320

/-- The bits of a byte, the least significant one first. -/
def byteBits (b : UInt8) : List Bool := (List.range 8).map b.toBitVec.getLsbD

/-- The checksum of some bytes, bit after bit. -/
def crcBitSerial (checksum : UInt32) (data : Bytes) : UInt32 :=
  ⟨addBits crcPoly checksum.toBitVec (data.flatMap byteBits)⟩

theorem crc32Step_toBitVec (c : UInt32) : (crc32Step c).toBitVec = shift crcPoly c.toBitVec := by
  have hlow : (c &&& 1).toBitVec = (BitVec.ofBool (c.toBitVec.getLsbD 0)).setWidth 32 := by
    rw [UInt32.toBitVec_and]
    exact BitVec.and_one_eq_setWidth_ofBool_getLsbD
  have hshift : (c >>> 1).toBitVec = c.toBitVec >>> 1 := rfl
  rw [crc32Step, UInt32.toBitVec_xor, UInt32.toBitVec_mul, hlow, hshift, shift, residue,
    BitVec.xor_comm]
  cases c.toBitVec.getLsbD 0 with
  | false => rfl
  | true => rfl

theorem crcBitSerial_append (checksum : UInt32) (data more : Bytes) :
    crcBitSerial checksum (data ++ more) = crcBitSerial (crcBitSerial checksum data) more := by
  unfold crcBitSerial
  rw [List.flatMap_append, addBits_append]

theorem crc32_toBitVec (t : UInt32) : (crc32 t).toBitVec = (shift crcPoly)^[8] t.toBitVec := by
  have hsteps : ∀ (turns : List Nat) (c : UInt32),
      (turns.foldl (fun c _ => crc32Step c) c).toBitVec
        = (shift crcPoly)^[turns.length] c.toBitVec := by
    intro turns
    induction turns with
    | nil => exact fun c => rfl
    | cons turn turns ih =>
        intro c
        rw [List.foldl_cons, ih, crc32Step_toBitVec, List.length_cons, Function.iterate_succ_apply]
  exact hsteps (List.range 8) t

theorem testBit_ff (i : Nat) : (0xff : BitVec 32).getLsbD i = decide (i < 8) := by
  have hones : (0xff : Nat) = 2 ^ 8 - 1 := rfl
  by_cases hi : i < 32
  · have hbit : (0xff : BitVec 32).getLsbD i = Nat.testBit 0xff i := by
      rw [BitVec.getLsbD]
      rfl
    rw [hbit, hones, Nat.testBit_two_pow_sub_one]
  · rw [BitVec.getLsbD_of_ge _ _ (Nat.le_of_not_lt hi), decide_eq_false (by omega)]

theorem lowBits_eight (c : BitVec 32) : lowBits 8 c = c &&& 0xff := by
  apply BitVec.eq_of_getLsbD_eq
  intro i _
  rw [getLsbD_lowBits, BitVec.getLsbD_and, testBit_ff, Bool.and_comm]

theorem chunk_byteBits (b : UInt8) : chunk 32 (byteBits b) = b.toUInt32.toBitVec := by
  apply BitVec.eq_of_getLsbD_eq
  intro i hi
  rw [getLsbD_chunk, UInt8.toBitVec_toUInt32, BitVec.getLsbD_setWidth, byteBits,
    List.getD_eq_getElem?_getD, List.getElem?_map]
  by_cases hbit : i < 8
  · rw [List.getElem?_range hbit]
    rfl
  · rw [List.getElem?_eq_none (by simpa using hbit), BitVec.getLsbD_of_ge _ _ (by omega)]
    rfl

/-- **A byte at once.** -/
theorem crc32AddByte_toBitVec (checksum : UInt32) (b : UInt8) :
    (CageKeeper.crc32AddByte checksum b).toBitVec
      = addBits crcPoly checksum.toBitVec (byteBits b) := by
  have hlength : (byteBits b).length = 8 := rfl
  have hshift : (checksum >>> 8).toBitVec = checksum.toBitVec >>> 8 := rfl
  have hmask : (0xff : UInt32).toBitVec = 0xff := rfl
  have hindex : ((b.toUInt32 ^^^ checksum) &&& 0xff).toBitVec
      = lowBits 8 (checksum.toBitVec ^^^ chunk 32 (byteBits b)) := by
    rw [lowBits_eight, chunk_byteBits, UInt32.toBitVec_and, UInt32.toBitVec_xor, hmask,
      BitVec.xor_comm b.toUInt32.toBitVec]
  calc
    (CageKeeper.crc32AddByte checksum b).toBitVec
        = (checksum.toBitVec >>> 8)
          ^^^ (shift crcPoly)^[8] (lowBits 8 (checksum.toBitVec ^^^ chunk 32 (byteBits b))) := by
      rw [CageKeeper.crc32AddByte, UInt32.toBitVec_xor, hshift, crc32_toBitVec, hindex]
    _ = addBits crcPoly checksum.toBitVec (byteBits b) := by
      rw [addBits_eq_table crcPoly (by rw [hlength]; decide), hlength]

theorem foldl_crc32AddByte (checksum : UInt32) (data : Bytes) :
    data.foldl CageKeeper.crc32AddByte checksum = crcBitSerial checksum data := by
  induction data generalizing checksum with
  | nil => rfl
  | cons b data ih =>
      rw [List.foldl_cons, ih, crcBitSerial, crcBitSerial, List.flatMap_cons, addBits_append,
        crc32AddByte_toBitVec]

/-! ### One turn of a loop -/

theorem and_ff_xor (x y : UInt32) : (x ^^^ y) &&& 0xff = (x &&& 0xff) ^^^ (y &&& 0xff) := by
  apply UInt32.toBitVec_inj.mp
  apply BitVec.eq_of_getLsbD_eq
  intro i _
  simp only [UInt32.toBitVec_and, UInt32.toBitVec_xor, BitVec.getLsbD_and, BitVec.getLsbD_xor]
  exact Bool.and_xor_distrib_right _ _ _

theorem ofChar_and_ff (signed : Bool) (c : UInt8) :
    CrcTable.ofChar signed c &&& 0xff = c.toUInt32 &&& 0xff := by
  cases signed with
  | false => rfl
  | true =>
      have hchar : (CrcTable.ofChar true c).toBitVec = c.toBitVec.signExtend 32 := rfl
      have hmask : (0xff : UInt32).toBitVec = 0xff := rfl
      apply UInt32.toBitVec_inj.mp
      apply BitVec.eq_of_getLsbD_eq
      intro i hi
      rw [UInt32.toBitVec_and, UInt32.toBitVec_and, BitVec.getLsbD_and, BitVec.getLsbD_and, hmask,
        testBit_ff, hchar, UInt8.toBitVec_toUInt32, BitVec.getLsbD_signExtend,
        BitVec.getLsbD_setWidth]
      by_cases hlow : i < 8
      · rw [if_pos hlow]
      · rw [decide_eq_false hlow, Bool.and_false, Bool.and_false]

namespace CrcTable

theorem crc32Init_initialized (s : CrcTable) : s.crc32Init.initialized = true := by
  unfold crc32Init
  by_cases hinitialized : s.initialized = true
  · rw [if_pos hinitialized, hinitialized]
  · rw [if_neg hinitialized]

/-- An index is masked, so that the upper bits of what is added do not count. -/
theorem crc32Init_next (s : CrcTable) (checksum : UInt32) {x : UInt32} {b : UInt8}
    (hlow : x &&& 0xff = b.toUInt32 &&& 0xff) :
    s.crc32Init.next checksum x = CageKeeper.crc32AddByte checksum b := by
  have hindex : (x ^^^ checksum) &&& 0xff = (b.toUInt32 ^^^ checksum) &&& 0xff := by
    rw [and_ff_xor, hlow, and_ff_xor]
  have hcell := s.crc32Init.filled s.crc32Init_initialized _ (and_ff_lt (x ^^^ checksum))
  rw [next, hcell, UInt32.ofNat_toNat, hindex]
  rfl

/-! ### Whole strings and blocks -/

/-- `crc32_add_byte` for one byte after another. -/
def addEachByte (s : CrcTable) (checksum : UInt32) (data : Bytes) : CrcTable × UInt32 :=
  data.foldl (fun state b => state.1.crc32AddByte state.2 b) (s, checksum)

theorem addEachByte_snd (s : CrcTable) (checksum : UInt32) (data : Bytes) :
    (addEachByte s checksum data).2 = crcBitSerial checksum data := by
  rw [← foldl_crc32AddByte]
  unfold addEachByte
  induction data generalizing s checksum with
  | nil => rfl
  | cons b data ih =>
      have hbyte : s.crc32AddByte checksum b
          = (s.crc32Init, CageKeeper.crc32AddByte checksum b) :=
        congrArg (Prod.mk s.crc32Init) (s.crc32Init_next checksum rfl)
      rw [List.foldl_cons, List.foldl_cons, hbyte, ih]

theorem stringLoop_eq (s : CrcTable) (signed : Bool) (checksum : UInt32) {data : Bytes}
    (hnul : 0 ∉ data) (rest : Bytes) :
    s.crc32Init.stringLoop signed checksum (data ++ 0 :: rest)
      = some (crcBitSerial checksum data) := by
  rw [← foldl_crc32AddByte]
  induction data generalizing checksum with
  | nil => rfl
  | cons c data ih =>
      obtain ⟨hc, hdata⟩ := not_or.mp (mt List.mem_cons.mpr hnul)
      rw [List.cons_append, stringLoop, if_neg (Ne.symm hc), ih _ hdata,
        s.crc32Init_next checksum (ofChar_and_ff signed c), List.foldl_cons]

theorem crc32AddString_eq (s : CrcTable) (signed : Bool) (checksum : UInt32) {data : Bytes}
    (hnul : 0 ∉ data) (rest : Bytes) :
    s.crc32AddString signed checksum (some (data ++ 0 :: rest))
      = some (s.crc32Init, crcBitSerial checksum data) := by
  unfold crc32AddString
  show (s.crc32Init.stringLoop signed checksum (data ++ 0 :: rest)).map _ = _
  rw [s.stringLoop_eq signed checksum hnul]
  rfl

/-- The length is that of the bytes, so that the loop stops behind the last one. -/
theorem bytesLoop_eq (s : CrcTable) (checksum : UInt32) (b : UInt8) (data rest : Bytes) :
    s.crc32Init.bytesLoop checksum (data.length + 1) (b :: data ++ rest)
      = some (crcBitSerial checksum (b :: data)) := by
  rw [← foldl_crc32AddByte]
  induction data generalizing checksum b with
  | nil =>
      show some (s.crc32Init.next checksum b.toUInt32) = _
      rw [s.crc32Init_next checksum rfl]
      rfl
  | cons next data ih =>
      have hlen : ((next :: data).length + 1 - 1 : Int) = data.length + 1 := by
        rw [List.length_cons]
        omega
      rw [List.cons_append, bytesLoop, hlen, if_neg (by omega), ih,
        s.crc32Init_next checksum rfl]
      rfl

theorem bytesLoop_eq_none (s : CrcTable) (checksum : UInt32) {data : Bytes} {len : Int}
    (hlen : data.length < len) : s.bytesLoop checksum len data = none := by
  induction data generalizing checksum len with
  | nil => rfl
  | cons b data ih =>
      rw [List.length_cons] at hlen
      rw [bytesLoop, if_neg (by omega), ih]
      omega

theorem crc32AddBytes_eq (s : CrcTable) (checksum : UInt32) (data rest : Bytes) :
    s.crc32AddBytes checksum (some (data ++ rest)) data.length
      = some (s.crc32Init, crcBitSerial checksum data) := by
  cases data with
  | nil => rfl
  | cons b data =>
      have hlen : ((b :: data).length : Int) = data.length + 1 := rfl
      rw [crc32AddBytes, hlen]
      show (if (data.length + 1 : Int) = 0 then _ else _) = _
      rw [if_neg (by omega), bytesLoop_eq]
      rfl

theorem hashByte_foldlM (s : CrcTable) (data : Bytes) (len : Nat) :
    (List.range len).foldlM (s.crc32Init.hashByte (some data)) 0
      = if len ≤ data.length then some (crcBitSerial 0 (data.take len)) else none := by
  induction len with
  | zero => rfl
  | succ len ih =>
      rw [List.range_succ, List.foldlM_append, ih]
      by_cases hlen : len < data.length
      · have hstep : s.crc32Init.hashByte (some data) (crcBitSerial 0 (data.take len)) len
            = some (crcBitSerial 0 (data.take (len + 1))) := by
          rw [List.take_add_one, crcBitSerial_append, ← foldl_crc32AddByte _ data[len]?.toList,
            List.getElem?_eq_getElem hlen]
          show (do let b ← data[len]?; some (s.crc32Init.next _ b.toUInt32)) = _
          rw [List.getElem?_eq_getElem hlen]
          exact congrArg some (s.crc32Init_next _ rfl)
        rw [if_pos hlen.le, if_pos (Nat.succ_le_of_lt hlen), Option.bind_eq_bind, Option.bind_some,
          List.foldlM_cons, hstep]
        rfl
      · have hover : ¬len + 1 ≤ data.length := by omega
        rw [if_neg hover]
        by_cases hlast : len ≤ data.length
        · have hnone : data[len]? = none := List.getElem?_eq_none (Nat.le_of_not_lt hlen)
          rw [if_pos hlast, Option.bind_eq_bind, Option.bind_some, List.foldlM_cons, hashByte]
          show (do let b ← data[len]?; some (s.crc32Init.next _ b.toUInt32)) >>= _ = none
          rw [hnone]
          rfl
        · rw [if_neg hlast]
          rfl

theorem hashBlock_eq (s : CrcTable) (data : Bytes) (len : Nat) :
    s.hashBlock (some data) len = s.crc32AddBytes 0 (some data) len := by
  rw [hashBlock, Int.toNat_natCast, hashByte_foldlM]
  by_cases hlen : len ≤ data.length
  · have hbytes := s.crc32AddBytes_eq 0 (data.take len) (data.drop len)
    rw [List.take_append_drop, List.length_take, Nat.min_eq_left hlen] at hbytes
    rw [if_pos hlen, hbytes]
    rfl
  · rw [if_neg hlen, crc32AddBytes]
    show none = if (len : Int) = 0 then _ else _
    rw [if_neg (by omega), bytesLoop_eq_none _ _ (by omega)]
    rfl

end CrcTable

theorem crcTable_hashBlock (s : CrcTable) (data : Bytes) :
    s.hashBlock (some data) data.length = some (s.crc32Init, hashBlock data) := by
  have hbytes := s.crc32AddBytes_eq 0 data []
  rw [List.append_nil] at hbytes
  rw [s.hashBlock_eq, hbytes, ← foldl_crc32AddByte]
  rfl

/-- **The table makes what single bits make.** Whatever the first checksum is and whether or not the
table has been filled, a block that has at least `len` bytes and a string without a `NUL` before its
end give the checksum of their bits one after another, and so does `crc32_add_byte` for each of the
bytes. `hash_block` is `crc32_add_bytes` from zero, for every length, and two sequences may be added
one after the other. -/
theorem crc_entry_points (s : CrcTable) (checksum : UInt32) (data : Bytes) :
    (∀ rest, (s.crc32AddBytes checksum (some (data ++ rest)) data.length).map Prod.snd
      = some (crcBitSerial checksum data))
    ∧ (0 ∉ data → ∀ signed rest,
        (s.crc32AddString signed checksum (some (data ++ 0 :: rest))).map Prod.snd
          = some (crcBitSerial checksum data))
    ∧ (CrcTable.addEachByte s checksum data).2 = crcBitSerial checksum data
    ∧ (∀ len : Nat, (s.hashBlock (some data) len).map Prod.snd
        = (s.crc32AddBytes 0 (some data) len).map Prod.snd)
    ∧ (∀ more rest, (s.crc32AddBytes checksum (some (data ++ more ++ rest))
          (data ++ more).length).map Prod.snd
        = ((s.crc32AddBytes checksum (some (data ++ rest)) data.length).bind fun added =>
            added.1.crc32AddBytes added.2 (some (more ++ rest)) more.length).map Prod.snd)
    ∧ (∀ more, 0 ∉ data ++ more → ∀ signed rest,
        (s.crc32AddString signed checksum (some (data ++ more ++ 0 :: rest))).map Prod.snd
          = ((s.crc32AddString signed checksum (some (data ++ 0 :: rest))).bind fun added =>
              added.1.crc32AddString signed added.2 (some (more ++ 0 :: rest))).map Prod.snd) := by
  refine ⟨?_, ?_, s.addEachByte_snd checksum data, ?_, ?_, ?_⟩
  · intro rest
    rw [s.crc32AddBytes_eq, Option.map_some]
  · intro hnul signed rest
    rw [s.crc32AddString_eq signed checksum hnul, Option.map_some]
  · intro len
    rw [s.hashBlock_eq]
  · intro more rest
    rw [s.crc32AddBytes_eq, s.crc32AddBytes_eq, Option.bind_some, CrcTable.crc32AddBytes_eq,
      crcBitSerial_append, Option.map_some, Option.map_some]
  · intro more hnul signed rest
    obtain ⟨hdata, hmore⟩ := not_or.mp (mt List.mem_append.mpr hnul)
    rw [s.crc32AddString_eq signed checksum hnul, s.crc32AddString_eq signed checksum hdata,
      Option.bind_some, CrcTable.crc32AddString_eq _ signed _ hmore, crcBitSerial_append,
      Option.map_some, Option.map_some]

end CageKeeper
