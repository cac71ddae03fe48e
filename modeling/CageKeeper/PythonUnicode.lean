import CageKeeper.WireFormat

/-! Unicode objects of CPython 2.7: how `PyUnicode_FromString` decodes UTF-8, and the array of code
units it keeps, two or four bytes each, at which `PyUnicode_AS_DATA` points. The decoder accepts
surrogates, as that version does. -/

namespace CageKeeper
open ByteStream

def isTail (b : UInt8) : Bool := 0x80 ≤ b.toNat && b.toNat ≤ 0xBF

/-- The decoder behind `PyUnicode_FromString`, or `none` where it raises an exception. -/
def utf8Decode : Bytes → Option (List Nat)
  | [] => some []
  | a :: rest =>
      if a.toNat < 0x80 then
        (utf8Decode rest).map (a.toNat :: ·)
      else if 0xC2 ≤ a.toNat ∧ a.toNat ≤ 0xDF then
        match rest with
        | b :: rest =>
            if isTail b then
              (utf8Decode rest).map (((a.toNat - 0xC0) * 0x40 + (b.toNat - 0x80)) :: ·)
            else none
        | _ => none
      else if 0xE0 ≤ a.toNat ∧ a.toNat ≤ 0xEF then
        match rest with
        | b :: c :: rest =>
            if isTail b ∧ isTail c ∧ ¬ (a.toNat = 0xE0 ∧ b.toNat < 0xA0) then
              (utf8Decode rest).map
                (((a.toNat - 0xE0) * 0x1000 + (b.toNat - 0x80) * 0x40 + (c.toNat - 0x80)) :: ·)
            else none
        | _ => none
      else if 0xF0 ≤ a.toNat ∧ a.toNat ≤ 0xF4 then
        match rest with
        | b :: c :: d :: rest =>
            if isTail b ∧ isTail c ∧ isTail d ∧ ¬ (a.toNat = 0xF0 ∧ b.toNat < 0x90) ∧
                ¬ (a.toNat = 0xF4 ∧ 0x8F < b.toNat) then
              (utf8Decode rest).map
                (((a.toNat - 0xF0) * 0x40000 + (b.toNat - 0x80) * 0x1000
                  + (c.toNat - 0x80) * 0x40 + (d.toNat - 0x80)) :: ·)
            else none
        | _ => none
      else none

def halfBytes (unit : Nat) : Bytes := [UInt8.ofNat unit, UInt8.ofNat (unit / 0x100)]

/-- The code units of a character: one of four bytes, or one or two of two bytes. -/
def unitBytes (wide : Bool) (character : Nat) : Bytes :=
  if wide then wordBytes (BitVec.ofNat 32 character)
  else if character < 0x10000 then halfBytes character
  else halfBytes (0xD800 + (character - 0x10000) / 0x400)
    ++ halfBytes (0xDC00 + (character - 0x10000) % 0x400)

/-- The buffer of a unicode object, with its terminator. -/
def unicodeData (wide : Bool) (characters : List Nat) : Bytes :=
  characters.flatMap (unitBytes wide) ++ unitBytes wide 0

/-- What the decoder has accepted: a character of one to four bytes after the other. -/
inductive Decoded : Bytes → List Nat → Prop where
  | nil : Decoded [] []
  | one {a : UInt8} {rest : Bytes} {characters : List Nat} (first : a.toNat < 0x80)
      (others : Decoded rest characters) : Decoded (a :: rest) (a.toNat :: characters)
  | two {a b : UInt8} {rest : Bytes} {characters : List Nat} {character : Nat}
      (second : 0x80 ≤ b.toNat) (bound : character < 0x800) (others : Decoded rest characters) :
      Decoded (a :: b :: rest) (character :: characters)
  | three {a b c : UInt8} {rest : Bytes} {characters : List Nat} {character : Nat}
      (bound : character < 0x10000) (others : Decoded rest characters) :
      Decoded (a :: b :: c :: rest) (character :: characters)
  | four {a b c d : UInt8} {rest : Bytes} {characters : List Nat} {character : Nat}
      (second : b.toNat ≤ 0xBF) (low : 0x10000 ≤ character) (high : character < 0x110000)
      (others : Decoded rest characters) :
      Decoded (a :: b :: c :: d :: rest) (character :: characters)

theorem isTail_iff {b : UInt8} : isTail b = true ↔ 0x80 ≤ b.toNat ∧ b.toNat ≤ 0xBF := by
  rw [isTail, Bool.and_eq_true, decide_eq_true_eq, decide_eq_true_eq]

theorem decoded_of_utf8Decode {str : Bytes} {characters : List Nat}
    (h : utf8Decode str = some characters) : Decoded str characters := by
  fun_induction utf8Decode str generalizing characters with
  | case1 =>
      cases h
      exact .nil
  | case2 a rest ha ih =>
      obtain ⟨others, hothers, rfl⟩ := Option.map_eq_some_iff.mp h
      exact .one ha (ih hothers)
  | case3 a ha1 ha b rest hb ih =>
      obtain ⟨others, hothers, rfl⟩ := Option.map_eq_some_iff.mp h
      rw [isTail_iff] at hb
      exact .two hb.1 (by omega) (ih hothers)
  | case6 a ha1 ha2 ha b c rest htails ih =>
      obtain ⟨others, hothers, rfl⟩ := Option.map_eq_some_iff.mp h
      obtain ⟨hb, hc, -⟩ := htails
      rw [isTail_iff] at hb hc
      exact .three (by omega) (ih hothers)
  | case9 a ha1 ha2 ha3 ha b c d rest htails ih =>
      obtain ⟨others, hothers, rfl⟩ := Option.map_eq_some_iff.mp h
      obtain ⟨hb, hc, hd, hlow, hhigh⟩ := htails
      rw [isTail_iff] at hb hc hd
      exact .four hb.2 (by omega) (by omega) (ih hothers)
  | _ => cases h

/-! ### What a C string function sees of a unicode buffer -/

def seen (block : Bytes) : Bytes := block.takeWhile (· ≠ 0)

theorem seen_zero (block : Bytes) : seen (0 :: block) = [] := by
  rw [seen, List.takeWhile_cons, if_neg (by decide)]

theorem seen_cons {b : UInt8} (hb : b ≠ 0) (block : Bytes) :
    seen (b :: block) = b :: seen block := by
  rw [seen, List.takeWhile_cons, if_pos (by simpa using hb)]
  rfl

theorem seen_cons_length_le (b : UInt8) (block : Bytes) :
    (seen (b :: block)).length ≤ 1 + (seen block).length := by
  by_cases hb : b = 0
  · rw [hb, seen_zero]
    exact Nat.zero_le _
  · rw [seen_cons hb, List.length_cons, Nat.add_comm]

theorem seen_append_length_le (front back : Bytes) :
    (seen (front ++ back)).length ≤ front.length + (seen back).length := by
  induction front with
  | nil => simp
  | cons b front ih =>
      have hcons := seen_cons_length_le b (front ++ back)
      rw [List.cons_append, List.length_cons]
      omega

/-- The first two bytes of a character in the basic plane; in four bytes a NUL follows. -/
theorem unitBytes_basic (wide : Bool) (character : Nat) (h : character < 0x10000) :
    ∃ upper, unitBytes wide character
        = UInt8.ofNat character :: UInt8.ofNat (character / 0x100) :: upper ∧
      (upper = [] ∨ ∃ rest, upper = 0 :: rest) := by
  cases wide with
  | false => exact ⟨[], by rw [unitBytes, if_neg (by decide), if_pos h]; rfl, Or.inl rfl⟩
  | true =>
      have hword : (BitVec.ofNat 32 character).toNat = character := by
        rw [BitVec.toNat_ofNat]
        exact Nat.mod_eq_of_lt (by omega)
      have hthird : character / 2 ^ 16 = 0 := by omega
      refine ⟨[0, UInt8.ofNat (character / 2 ^ 24)], ?_, Or.inr ⟨_, rfl⟩⟩
      rw [unitBytes, if_pos rfl, wordBytes, hword, hthird]
      rfl

theorem seen_basic_length_le (wide : Bool) (character : Nat) (h : character < 0x10000)
    (back : Bytes) : (seen (unitBytes wide character ++ back)).length ≤ 2 + (seen back).length := by
  obtain ⟨upper, hunits, hupper⟩ := unitBytes_basic wide character h
  rw [hunits, List.cons_append, List.cons_append]
  have hfirst := seen_cons_length_le (UInt8.ofNat character)
    (UInt8.ofNat (character / 0x100) :: (upper ++ back))
  have hsecond := seen_cons_length_le (UInt8.ofNat (character / 0x100)) (upper ++ back)
  have hrest : (seen (upper ++ back)).length ≤ (seen back).length := by
    rcases hupper with rfl | ⟨rest, rfl⟩
    · exact Nat.le_refl _
    · rw [List.cons_append, seen_zero]
      exact Nat.zero_le _
  omega

theorem seen_ascii (wide : Bool) {a : UInt8} (ha : a.toNat < 0x80) (hzero : a ≠ 0)
    (back : Bytes) : seen (unitBytes wide a.toNat ++ back) = [a] := by
  obtain ⟨upper, hunits, -⟩ := unitBytes_basic wide a.toNat (by omega)
  have hhigh : a.toNat / 0x100 = 0 := by omega
  rw [hunits, hhigh, UInt8.ofNat_toNat, List.cons_append, List.cons_append, seen_cons hzero]
  exact congrArg (a :: ·) (seen_zero _)

/-- The bytes of a character outside the basic plane: two surrogates, or a unit that ends in NUL. -/
theorem unitBytes_astral (wide : Bool) {character : Nat} (hlow : 0x10000 ≤ character)
    (hhigh : character < 0x110000) :
    (∃ a b c d : UInt8, unitBytes wide character = [a, b, c, d] ∧ 0xD8 ≤ b.toNat) ∨
      ∃ a b c : UInt8, unitBytes wide character = [a, b, c, 0] := by
  cases wide with
  | false =>
      refine Or.inl ⟨_, _, _, _, by rw [unitBytes, if_neg (by decide), if_neg (by omega)]; rfl, ?_⟩
      rw [UInt8.toNat_ofNat']
      omega
  | true =>
      have hword : (BitVec.ofNat 32 character).toNat = character := by
        rw [BitVec.toNat_ofNat]
        exact Nat.mod_eq_of_lt (by omega)
      have hfourth : character / 2 ^ 24 = 0 := by omega
      refine Or.inr ⟨UInt8.ofNat character, UInt8.ofNat (character / 2 ^ 8),
        UInt8.ofNat (character / 2 ^ 16), ?_⟩
      rw [unitBytes, if_pos rfl, wordBytes, hword, hfourth]
      rfl

theorem unitBytes_astral_length (wide : Bool) {character : Nat} (hlow : 0x10000 ≤ character)
    (hhigh : character < 0x110000) : (unitBytes wide character).length = 4 := by
  rcases unitBytes_astral wide hlow hhigh with ⟨a, b, c, d, hunits, -⟩ | ⟨a, b, c, hunits⟩
  · rw [hunits]
    rfl
  · rw [hunits]
    rfl

theorem Decoded.seen_length_le (wide : Bool) {str : Bytes} {characters : List Nat}
    (h : Decoded str characters) (hstr : 0 ∉ str) (back : Bytes) :
    (seen (characters.flatMap (unitBytes wide) ++ back)).length
      ≤ str.length + (seen back).length := by
  induction h with
  | nil => simp
  | @one a rest characters first others ih =>
      have hzero : a ≠ 0 := fun hzero => hstr (List.mem_cons.mpr (Or.inl hzero.symm))
      rw [List.flatMap_cons, List.append_assoc, seen_ascii wide first hzero, List.length_singleton,
        List.length_cons]
      omega
  | @two a b rest characters character second bound others ih =>
      have hrest := ih fun hmem => hstr (List.mem_cons_of_mem _ (List.mem_cons_of_mem _ hmem))
      have hfirst := seen_basic_length_le wide character (by omega)
        (characters.flatMap (unitBytes wide) ++ back)
      rw [List.flatMap_cons, List.append_assoc, List.length_cons, List.length_cons]
      omega
  | @three a b c rest characters character bound others ih =>
      have hrest := ih fun hmem => hstr (by simp [hmem])
      have hfirst := seen_basic_length_le wide character bound
        (characters.flatMap (unitBytes wide) ++ back)
      rw [List.flatMap_cons, List.append_assoc, List.length_cons, List.length_cons,
        List.length_cons]
      omega
  | @four a b c d rest characters character second low high others ih =>
      have hrest := ih fun hmem => hstr (by simp [hmem])
      have hfirst := seen_append_length_le (unitBytes wide character)
        (characters.flatMap (unitBytes wide) ++ back)
      rw [unitBytes_astral_length wide low high] at hfirst
      rw [List.flatMap_cons, List.append_assoc, List.length_cons, List.length_cons,
        List.length_cons, List.length_cons]
      omega

/-- A string of at most one character, which is ASCII. -/
def CString.IsAsciiChar (str : CString) : Prop :=
  str.bytes = [] ∨ ∃ a : UInt8, a.toNat < 0x80 ∧ str.bytes = [a]

theorem seen_terminator (wide : Bool) : seen (unitBytes wide 0) = [] := by
  cases wide <;> rfl

/-- A buffer that shows the decoded bytes holds no character, or an ASCII character alone. -/
theorem Decoded.eq_of_seen (wide : Bool) {str : Bytes} {characters : List Nat}
    (h : Decoded str characters) (hstr : 0 ∉ str)
    (hseen : seen (unicodeData wide characters) = str) :
    str = [] ∨ ∃ a : UInt8, a.toNat < 0x80 ∧ str = [a] := by
  have hprefix : str <+: unicodeData wide characters := hseen ▸ List.takeWhile_prefix _
  have hlength := congrArg List.length hseen
  rw [unicodeData] at hseen hprefix hlength
  cases h with
  | nil => exact Or.inl rfl
  | @one a rest characters first others =>
      have hzero : a ≠ 0 := fun hzero => hstr (List.mem_cons.mpr (Or.inl hzero.symm))
      rw [List.flatMap_cons, List.append_assoc, seen_ascii wide first hzero] at hseen
      exact Or.inr ⟨a, first, hseen.symm⟩
  | @two a b rest characters character second bound others =>
      -- the second byte of the unit is at most 7
      obtain ⟨upper, hunits, -⟩ := unitBytes_basic wide character (by omega)
      rw [List.flatMap_cons, hunits] at hprefix
      have hb : b = UInt8.ofNat (character / 0x100) := by
        simpa using (List.cons_prefix_cons.mp (List.cons_prefix_cons.mp hprefix).2).1
      rw [hb, UInt8.toNat_ofNat'] at second
      omega
  | @three a b c rest characters character bound others =>
      have hfirst := seen_basic_length_le wide character bound
        (characters.flatMap (unitBytes wide) ++ unitBytes wide 0)
      have hrest := others.seen_length_le wide (fun hmem => hstr (by simp [hmem]))
        (unitBytes wide 0)
      rw [seen_terminator, List.length_nil] at hrest
      rw [List.flatMap_cons, List.append_assoc, List.length_cons, List.length_cons,
        List.length_cons] at hlength
      omega
  | @four a b c d rest characters character second low high others =>
      rcases unitBytes_astral wide low high with ⟨a', b', c', d', hunits, hb'⟩ | ⟨a', b', c', hunits⟩
      · -- the second byte belongs to a surrogate
        rw [List.flatMap_cons, hunits] at hprefix
        have hb : b = b' :=
          (List.cons_prefix_cons.mp (List.cons_prefix_cons.mp hprefix).2).1
        rw [hb] at second
        omega
      · rw [List.flatMap_cons, hunits, List.append_assoc] at hlength
        have h1 := seen_cons_length_le a' ([b', c', 0]
          ++ (characters.flatMap (unitBytes wide) ++ unitBytes wide 0))
        have h2 := seen_cons_length_le b' ([c', 0]
          ++ (characters.flatMap (unitBytes wide) ++ unitBytes wide 0))
        have h3 := seen_cons_length_le c' ([0]
          ++ (characters.flatMap (unitBytes wide) ++ unitBytes wide 0))
        rw [List.cons_append, List.nil_append, seen_zero, List.length_nil] at h3
        simp only [List.cons_append, List.nil_append, List.length_cons] at hlength h1 h2 h3
        omega

/-- **A string through a unicode object.** What `PyUnicode_AS_DATA` shows of a string is the string
if and only if it is empty or a single ASCII character. -/
theorem unicode_roundTrip_iff (wide : Bool) (str : CString) :
    (∃ characters, utf8Decode str.bytes = some characters ∧
      CString.ofBytes (unicodeData wide characters) = str) ↔ str.IsAsciiChar := by
  constructor
  · rintro ⟨characters, hdecode, hstr⟩
    exact (decoded_of_utf8Decode hdecode).eq_of_seen wide str.nulFree (congrArg CString.bytes hstr)
  · rintro (hnil | ⟨a, ha, hstr⟩)
    · refine ⟨[], by rw [hnil]; rfl, CString.ext ?_⟩
      rw [hnil]
      exact seen_terminator wide
    · have hzero : a ≠ 0 := fun hzero => str.nulFree (by rw [hstr, hzero]; simp)
      refine ⟨[a.toNat], ?_, CString.ext ?_⟩
      · rw [hstr, utf8Decode.eq_def]
        simp only [if_pos ha]
        rfl
      · rw [hstr]
        have hone : [a.toNat].flatMap (unitBytes wide) = unitBytes wide a.toNat := by simp
        change seen ([a.toNat].flatMap (unitBytes wide) ++ unitBytes wide 0) = [a]
        rw [hone, seen_ascii wide ha hzero]

end CageKeeper
