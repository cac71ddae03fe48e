import Mathlib

/-! Conversions between binary floating-point formats, on the model of floats in Lean's library. A
positive number has at most one canonical mantissa and exponent in a format; rounding finds them if
the number has them. A conversion into a wider format is exact, and one that is exact can be undone. -/

namespace BinaryFloat
open Float.Model (Format UnpackedFloat totalExponent)
open Float.Model.UnpackedFloat

/-- The number a mantissa and an exponent stand for. -/
def value (mantissa : Nat) (exponent : Int) : ℚ := mantissa * 2 ^ exponent

theorem value_pos {mantissa : Nat} (hpos : 0 < mantissa) (exponent : Int) :
    0 < value mantissa exponent :=
  mul_pos (Nat.cast_pos.mpr hpos) (zpow_pos (by decide) exponent)

theorem value_mul_two_pow (mantissa shift : Nat) (exponent : Int) :
    value (mantissa * 2 ^ shift) exponent = value mantissa (exponent + shift) := by
  have htwo : (2 : ℚ) ≠ 0 := by decide
  rw [value, value, zpow_add₀ htwo, zpow_natCast, Nat.cast_mul, Nat.cast_pow, Nat.cast_ofNat,
    mul_assoc, mul_comm ((2 : ℚ) ^ shift)]

/-- The same number with a smaller exponent has a mantissa with zeros behind it. -/
theorem mantissa_eq_of_value_eq {mantissa mantissa' : Nat} {exponent exponent' : Int}
    (hvalue : value mantissa exponent = value mantissa' exponent') (hle : exponent ≤ exponent') :
    mantissa = mantissa' * 2 ^ (exponent' - exponent).toNat := by
  have hexponent : exponent' = exponent + (exponent' - exponent).toNat := by omega
  rw [hexponent, ← value_mul_two_pow, value, value] at hvalue
  have hpower : (2 : ℚ) ^ exponent ≠ 0 := zpow_ne_zero _ (by decide)
  exact_mod_cast mul_right_cancel₀ hpower hvalue

theorem log2_mul_two_pow {mantissa : Nat} (hpos : 0 < mantissa) (shift : Nat) :
    (mantissa * 2 ^ shift).log2 = mantissa.log2 + shift := by
  rw [Nat.log2_eq_iff (Nat.mul_pos hpos (Nat.two_pow_pos shift)).ne']
  constructor
  · rw [Nat.pow_add]
    exact Nat.mul_le_mul_right _ (Nat.log2_self_le hpos.ne')
  · rw [Nat.add_right_comm, Nat.pow_add]
    exact Nat.mul_lt_mul_of_pos_right Nat.lt_log2_self (Nat.two_pow_pos shift)

theorem totalExponent_eq_of_value_eq {mantissa mantissa' : Nat} {exponent exponent' : Int}
    (hpos : 0 < mantissa) (hpos' : 0 < mantissa')
    (hvalue : value mantissa exponent = value mantissa' exponent') :
    totalExponent mantissa exponent = totalExponent mantissa' exponent' := by
  unfold totalExponent
  rcases Int.le_total exponent exponent' with hle | hle
  · rw [mantissa_eq_of_value_eq hvalue hle, log2_mul_two_pow hpos']
    omega
  · rw [mantissa_eq_of_value_eq hvalue.symm hle, log2_mul_two_pow hpos]
    omega

/-! ### Rounding -/

/-- The mantissa and the exponent that a positive number has in a format, where the exponent is not
too large for it. -/
structure Represents (spec : Format) (mantissa : Nat) (exponent : Int) : Prop where
  pos : 0 < mantissa
  canonical : spec.targetExponent (totalExponent mantissa exponent) = exponent
  inRange : exponent + spec.exponentBias + spec.mantissaBitsWithoutImplicit + 1
    < 2 ^ spec.exponentBits

theorem shiftRight_exact (mantissa shift : Nat) :
    (⟨mantissa * 2 ^ shift, false, false⟩ : ExtendedMantissa) >>> shift
      = ⟨mantissa, false, false⟩ := by
  induction shift generalizing mantissa with
  | zero => simp [HShiftRight.hShiftRight, Nat.repeat]
  | succ shift ih =>
      have hstep : (⟨mantissa * 2 ^ (shift + 1), false, false⟩ : ExtendedMantissa) >>> (shift + 1)
          = ((⟨(mantissa * 2) * 2 ^ shift, false, false⟩ : ExtendedMantissa) >>>
              shift).shiftRightOne := by
        rw [Nat.pow_succ', Nat.mul_assoc]
        rfl
      rw [hstep, ih]
      simp [ExtendedMantissa.shiftRightOne]

theorem shiftToTargetExponent_exact {spec : Format} {mantissa : Nat} {exponent : Int}
    (hrepresents : Represents spec mantissa exponent) (shift : Nat) :
    shiftToTargetExponent spec (mantissa * 2 ^ shift) (exponent - shift) .exact
      = (⟨mantissa, false, false⟩, exponent) := by
  have htotal : totalExponent (mantissa * 2 ^ shift) (exponent - shift)
      = totalExponent mantissa exponent := by
    unfold totalExponent
    rw [log2_mul_two_pow hrepresents.pos]
    omega
  have hamount : (exponent - (exponent - shift)).toNat = shift := by omega
  rw [shiftToTargetExponent, htotal, hrepresents.canonical, shiftToExponent, hamount,
    ExtendedMantissa.ofMantissaAndAccuracy, shiftRight_exact]
  simp

theorem roundWithAccuracy_exact {spec : Format} {mantissa : Nat} {exponent : Int}
    (hrepresents : Represents spec mantissa exponent) (sign : Sign) (shift : Nat) :
    roundWithAccuracy spec sign (mantissa * 2 ^ shift) (exponent - shift) .exact
      = .finite sign mantissa exponent hrepresents.pos := by
  have hagain := shiftToTargetExponent_exact hrepresents 0
  rw [Nat.pow_zero, Nat.mul_one, Int.natCast_zero, Int.sub_zero] at hagain
  have hrounded : (⟨mantissa, false, false⟩ : ExtendedMantissa).roundedMantissa = mantissa := rfl
  simp only [roundWithAccuracy, shiftToTargetExponent_exact hrepresents, hrounded, hagain,
    hrepresents.pos.ne', dite_false]

theorem round_eq {spec : Format} {mantissa mantissa' : Nat} {exponent exponent' : Int}
    (hrepresents : Represents spec mantissa' exponent') (hpos : 0 < mantissa)
    (hvalue : value mantissa exponent = value mantissa' exponent') (sign : Sign) :
    round spec sign mantissa exponent = .finite sign mantissa' exponent' hrepresents.pos := by
  have htarget : spec.targetExponent (totalExponent mantissa exponent) = exponent' := by
    rw [totalExponent_eq_of_value_eq hpos hrepresents.pos hvalue, hrepresents.canonical]
  simp only [UnpackedFloat.round, htarget, decreaseExponent, Nat.shiftLeft_eq]
  rcases Int.le_total exponent exponent' with hle | hle
  · have hshift : (exponent - exponent').toNat = 0 := by omega
    have hexponent : exponent - (0 : Nat) = exponent' - ((exponent' - exponent).toNat : Nat) := by
      omega
    rw [hshift, Nat.pow_zero, Nat.mul_one, hexponent, mantissa_eq_of_value_eq hvalue hle]
    exact roundWithAccuracy_exact hrepresents sign _
  · have hmantissa := mantissa_eq_of_value_eq hvalue.symm hle
    have hexponent : exponent - ((exponent - exponent').toNat : Nat) = exponent' - (0 : Nat) := by
      omega
    rw [← hmantissa, hexponent]
    simpa using roundWithAccuracy_exact hrepresents sign 0

/-! ### Bits -/

section Bits

variable {spec : Format}

theorem two_pow_exponentBits (spec : Format) :
    2 ^ spec.exponentBits = 2 * spec.exponentBias + 2 := by
  have hpos := Nat.two_pow_pos (spec.exponentBits - 1)
  have hhalf : 2 ^ spec.exponentBits = 2 * 2 ^ (spec.exponentBits - 1) := by
    rw [← Nat.pow_succ']
    congr 1
    have := spec.he
    omega
  rw [hhalf, Format.exponentBias]
  omega

theorem minExponent_eq (spec : Format) :
    spec.minExponent = 1 - spec.exponentBias - spec.mantissaBitsWithoutImplicit := by
  have hpos := Nat.two_pow_pos (spec.exponentBits - 1)
  have hcast : ((2 ^ (spec.exponentBits - 1) : Nat) : Int) = 2 ^ (spec.exponentBits - 1) := by simp
  rw [Format.minExponent, Format.exponentBias, Format.mantissaBits, ← hcast]
  omega

/-- A canonical mantissa fills the format, or the exponent is the smallest there is. -/
theorem Represents.normal_or_subnormal {mantissa : Nat} {exponent : Int}
    (h : Represents spec mantissa exponent) :
    spec.minExponent ≤ exponent ∧ (mantissa.log2 = spec.mantissaBitsWithoutImplicit ∨
      mantissa.log2 < spec.mantissaBitsWithoutImplicit ∧ exponent = spec.minExponent) := by
  have hcanonical := h.canonical
  rw [Format.targetExponent, totalExponent, Format.mantissaBits] at hcanonical
  omega

theorem ofNat_exponent {biased : Nat} (hrange : biased + 1 < 2 ^ spec.exponentBits) :
    (BitVec.ofNat spec.exponentBits biased).toNat = biased ∧
      BitVec.ofNat spec.exponentBits biased ≠ -1#_ := by
  have htoNat : (BitVec.ofNat spec.exponentBits biased).toNat = biased :=
    Nat.mod_eq_of_lt (by omega)
  refine ⟨htoNat, fun hones => ?_⟩
  have := congrArg BitVec.toNat hones
  rw [htoNat, BitVec.neg_one_eq_allOnes, BitVec.toNat_allOnes] at this
  omega

theorem zero_exponent : BitVec.ofNat spec.exponentBits 0 ≠ -1#_ := by
  have hcapacity := two_pow_exponentBits spec
  exact (ofNat_exponent (by omega)).2

theorem toNat_implicit (mantissa : BitVec spec.mantissaBitsWithoutImplicit) :
    (1#1 ++ mantissa).toNat = 2 ^ spec.mantissaBitsWithoutImplicit + mantissa.toNat := by
  rw [BitVec.toNat_append, BitVec.toNat_ofNat, Nat.mod_eq_of_lt (by decide), Nat.shiftLeft_eq,
    Nat.one_mul]
  have hor := Nat.two_pow_add_eq_or_of_lt mantissa.isLt 1
  rw [Nat.mul_one] at hor
  exact hor.symm

theorem log2_implicit (mantissa : BitVec spec.mantissaBitsWithoutImplicit) :
    (1#1 ++ mantissa).toNat.log2 = spec.mantissaBitsWithoutImplicit := by
  have hlt := mantissa.isLt
  rw [toNat_implicit, Nat.log2_eq_iff (by omega), Nat.pow_succ]
  omega

theorem toNat_pos_of_ne_zero {width : Nat} {field : BitVec width} (h : field ≠ 0#_) :
    0 < field.toNat := by
  rw [Nat.pos_iff_ne_zero]
  intro hzero
  apply h
  apply BitVec.eq_of_toNat_eq
  rw [hzero, BitVec.toNat_ofNat, Nat.zero_mod]

theorem unpack_pack_finite {mantissa : Nat} {exponent : Int}
    (h : Represents spec mantissa exponent) (sign : Sign) :
    unpack spec (pack spec (.finite sign mantissa exponent h.pos))
      = .finite sign mantissa exponent h.pos := by
  obtain ⟨hlow, hcase⟩ := h.normal_or_subnormal
  have hrange := h.inRange
  rw [minExponent_eq] at hlow hcase
  obtain ⟨biased, hbiased⟩ : ∃ biased : Nat,
      exponent + spec.exponentBias + spec.mantissaBitsWithoutImplicit = biased :=
    ⟨_, (Int.toNat_of_nonneg (by omega)).symm⟩
  have hfits : biased + 1 < 2 ^ spec.exponentBits := by
    have hcast : ((2 ^ spec.exponentBits : Nat) : Int) = 2 ^ spec.exponentBits := by simp
    omega
  obtain ⟨htoNat, hones⟩ := ofNat_exponent hfits
  have hzero : BitVec.ofNat spec.exponentBits biased ≠ 0#_ := by
    intro hzero
    rw [hzero, BitVec.toNat_ofNat, Nat.zero_mod] at htoNat
    omega
  have hlog := (Nat.log2_eq_iff h.pos.ne').mp rfl
  simp only [pack, hbiased, Int.toNat_natCast, if_neg (Nat.not_le.mpr hfits)]
  rcases hcase with hnormal | ⟨hsubnormal, hexponent⟩
  · rw [hnormal] at hlog
    rw [if_pos (by rw [hnormal, Format.mantissaBits, Nat.add_comm])]
    have hmantissa : (1#1 ++ BitVec.ofNat spec.mantissaBitsWithoutImplicit mantissa).toNat
        = mantissa := by
      rw [toNat_implicit, BitVec.toNat_ofNat, Nat.mod_eq_sub_mod hlog.1,
        Nat.mod_eq_of_lt (by omega)]
      omega
    simp only [unpack, unpackExponent_packComponents, unpackMantissa_packComponents,
      unpackSign_packComponents, Sign.ofBitVec_toBitVec, hones, hzero, if_false, htoNat, hmantissa]
    congr 1
    omega
  · have hsmall : mantissa < 2 ^ spec.mantissaBitsWithoutImplicit :=
      (Nat.log2_lt h.pos.ne').mp hsubnormal
    rw [if_neg (by rw [Format.mantissaBits]; omega)]
    have hmantissa : (BitVec.ofNat spec.mantissaBitsWithoutImplicit mantissa).toNat = mantissa :=
      Nat.mod_eq_of_lt hsmall
    have hpos : BitVec.ofNat spec.mantissaBitsWithoutImplicit mantissa ≠ 0#_ := by
      intro hzero
      rw [hzero, BitVec.toNat_ofNat, Nat.zero_mod] at hmantissa
      exact h.pos.ne hmantissa
    simp only [unpack, unpackExponent_packComponents, unpackMantissa_packComponents,
      unpackSign_packComponents, Sign.ofBitVec_toBitVec, zero_exponent, hpos, if_false, if_true,
      dite_false, hmantissa]
    congr 1
    rw [BitVec.toNat_ofNat, Nat.zero_mod]
    omega

theorem unpack_pack_infinity (sign : Sign) :
    unpack spec (pack spec (.infinity sign)) = .infinity sign := by
  simp [pack, packedInfinity, unpack]

theorem unpack_pack_zero (sign : Sign) : unpack spec (pack spec (.zero sign)) = .zero sign :=
  unpack_packedZero

theorem toNat_exponent_lt {exponent : BitVec spec.exponentBits} (hones : exponent ≠ -1#_) :
    exponent.toNat + 1 < 2 ^ spec.exponentBits := by
  have hlt := exponent.isLt
  have hne : exponent.toNat ≠ 2 ^ spec.exponentBits - 1 := by
    intro heq
    apply hones
    apply BitVec.eq_of_toNat_eq
    rw [heq, BitVec.neg_one_eq_allOnes, BitVec.toNat_allOnes]
  omega

theorem represents_of_unpack (hwide : 1 < spec.exponentBits) {bits : BitVec spec.numBits}
    {sign : Sign} {mantissa : Nat} {exponent : Int} {hpos : 0 < mantissa}
    (h : unpack spec bits = .finite sign mantissa exponent hpos) :
    Represents spec mantissa exponent := by
  have hmin := minExponent_eq spec
  have hcapacity : (2 : Int) ^ spec.exponentBits = 2 * spec.exponentBias + 2 := by
    exact_mod_cast two_pow_exponentBits spec
  have hbias : (4 : Int) ≤ 2 ^ spec.exponentBits := by
    exact_mod_cast Nat.pow_le_pow_right (by decide : 0 < 2) hwide
  rw [unpack] at h
  split at h
  · split at h <;> cases h
  rename_i hones
  have hlt := toNat_exponent_lt hones
  split at h
  · split at h
    · cases h
    · -- a subnormal number
      cases h
      have hlog := (Nat.log2_lt hpos.ne').mpr (unpackMantissa bits).isLt
      rename_i hzero _
      rw [hzero, BitVec.toNat_ofNat, Nat.zero_mod]
      refine ⟨hpos, ?_, by omega⟩
      rw [Format.targetExponent, totalExponent, Format.mantissaBits]
      omega
  · cases h
    rename_i hzero
    have hpositive := toNat_pos_of_ne_zero hzero
    have hlog := log2_implicit (unpackMantissa bits)
    have hlt' : ((unpackExponent bits).toNat : Int) + 1 < 2 ^ spec.exponentBits := by
      exact_mod_cast hlt
    refine ⟨hpos, ?_, by omega⟩
    rw [Format.targetExponent, totalExponent, Format.mantissaBits, hlog]
    omega

theorem isNaNBits_iff (bits : BitVec spec.numBits) :
    isNaNBits bits = true ↔ unpack spec bits = .notANumber := by
  rw [isNaNBits, decide_eq_true_eq, unpack]
  split
  · rename_i hones
    split
    · rename_i hzero
      simp [hzero]
    · rename_i hpayload
      simp [hones, hpayload]
  · rename_i hones
    simp only [hones, false_and, false_iff]
    split
    · split <;> nofun
    · nofun

/-- Bits are found again from what is unpacked from them, unless that is not a number. -/
theorem pack_unpack_of_number (hwide : 1 < spec.exponentBits) {bits : BitVec spec.numBits}
    (hnumber : unpack spec bits ≠ .notANumber) : pack spec (unpack spec bits) = bits := by
  rw [pack_unpack bits hwide, if_neg]
  rwa [isNaNBits_iff]

end Bits

/-! ### Floats that are not numbers -/

/-- A payload in another format: its first digits, or a quiet one if they are all zero. -/
def convertPayload {source : Nat} (target : Nat) (payload : BitVec source) : BitVec target :=
  let digits := BitVec.ofNat target (payload.toNat * 2 ^ target / 2 ^ source)
  if digits = 0#_ then 1#_ <<< (target - 1) else digits

theorem convertPayload_ne_zero {source target : Nat} (htarget : 0 < target)
    (payload : BitVec source) : convertPayload target payload ≠ 0#_ := by
  rw [convertPayload]
  split
  · intro hzero
    have hbit := congrArg (fun bits => bits.getLsbD (target - 1)) hzero
    simp at hbit
    omega
  · assumption

theorem convertPayload_convertPayload {narrow wide : Nat} (hle : narrow ≤ wide)
    {payload : BitVec narrow} (hpayload : payload ≠ 0#_) :
    convertPayload narrow (convertPayload wide payload) = payload := by
  obtain ⟨shift, rfl⟩ := Nat.exists_eq_add_of_le hle
  have hpos := toNat_pos_of_ne_zero hpayload
  have hdigits : payload.toNat * 2 ^ (narrow + shift) / 2 ^ narrow = payload.toNat * 2 ^ shift := by
    rw [Nat.pow_add, Nat.mul_left_comm, Nat.mul_div_cancel_left _ (Nat.two_pow_pos _)]
  have hwide : (BitVec.ofNat (narrow + shift) (payload.toNat * 2 ^ shift)).toNat
      = payload.toNat * 2 ^ shift := by
    apply Nat.mod_eq_of_lt
    rw [Nat.pow_add]
    exact Nat.mul_lt_mul_of_pos_right payload.isLt (Nat.two_pow_pos _)
  have hback : payload.toNat * 2 ^ shift * 2 ^ narrow / 2 ^ (narrow + shift) = payload.toNat := by
    rw [Nat.mul_assoc, ← Nat.pow_add, Nat.add_comm shift,
      Nat.mul_div_cancel _ (Nat.two_pow_pos _)]
  have hne : BitVec.ofNat (narrow + shift) (payload.toNat * 2 ^ shift) ≠ 0#_ := by
    intro hzero
    rw [hzero, BitVec.toNat_ofNat, Nat.zero_mod] at hwide
    exact (Nat.mul_pos hpos (Nat.two_pow_pos shift)).ne hwide
  rw [convertPayload, convertPayload, hdigits]
  simp only [if_neg hne, hwide, hback, BitVec.ofNat_toNat, BitVec.setWidth_eq, if_neg hpayload]

/-! ### Conversions -/

def convert (spec : Format) : UnpackedFloat → UnpackedFloat
  | .finite sign mantissa exponent _ => round spec sign mantissa exponent
  | .zero sign => .zero sign
  | .infinity sign => .infinity sign
  | .notANumber => .notANumber

/-- Bits in another format. A float that is not a number keeps the first digits of its payload. -/
def convertBits (source target : Format) (bits : BitVec source.numBits) : BitVec target.numBits :=
  if isNaNBits bits then
    packComponents target (Sign.ofBitVec (unpackSign bits)) (-1#_)
      (convertPayload target.mantissaBitsWithoutImplicit (unpackMantissa bits))
  else pack target (convert target (unpack source bits))

theorem convertBits_of_isNaN {source target : Format} {bits : BitVec source.numBits}
    (hnan : isNaNBits bits = true) : isNaNBits (convertBits source target bits) = true := by
  rw [convertBits, if_pos hnan, isNaNBits, unpackExponent_packComponents,
    unpackMantissa_packComponents, decide_eq_true_eq]
  exact ⟨rfl, convertPayload_ne_zero target.hm _⟩

theorem convertBits_of_number {source target : Format} {bits : BitVec source.numBits}
    {float : UnpackedFloat} (hunpack : unpack source bits = float) (hnumber : float ≠ .notANumber) :
    convertBits source target bits = pack target (convert target float) := by
  rw [convertBits, if_neg, hunpack]
  rw [isNaNBits_iff, hunpack]
  exact hnumber

/-- A format has all numbers with few digits that are neither too small nor too large. -/
theorem exists_represents {spec : Format} (hwide : 1 < spec.exponentBits) {mantissa : Nat}
    {exponent : Int} (hpos : 0 < mantissa) (hdigits : mantissa.log2 < spec.mantissaBits)
    (hlow : spec.minExponent ≤ exponent) (hhigh : mantissa.log2 + exponent ≤ spec.exponentBias) :
    ∃ mantissa' exponent', Represents spec mantissa' exponent' ∧
      value mantissa exponent = value mantissa' exponent' := by
  obtain ⟨target, htarget⟩ : ∃ target,
      spec.targetExponent (totalExponent mantissa exponent) = target := ⟨_, rfl⟩
  have hmax := htarget
  rw [Format.targetExponent, totalExponent] at hmax
  have hle : target ≤ exponent := by omega
  have hexponent : exponent = target + ((exponent - target).toNat : Nat) := by omega
  have hvalue : value mantissa exponent
      = value (mantissa * 2 ^ (exponent - target).toNat) target := by
    rw [value_mul_two_pow, ← hexponent]
  have hpos' : 0 < mantissa * 2 ^ (exponent - target).toNat :=
    Nat.mul_pos hpos (Nat.two_pow_pos _)
  refine ⟨_, target, ⟨hpos', ?_, ?_⟩, hvalue⟩
  · rw [← totalExponent_eq_of_value_eq hpos hpos' hvalue, htarget]
  · have hmin := minExponent_eq spec
    have hcapacity : (2 : Int) ^ spec.exponentBits = 2 * spec.exponentBias + 2 := by
      exact_mod_cast two_pow_exponentBits spec
    have hbias : (4 : Int) ≤ 2 ^ spec.exponentBits := by
      exact_mod_cast Nat.pow_le_pow_right (by decide : 0 < 2) hwide
    rw [Format.mantissaBits] at hmax
    omega

theorem unpack_pack_round {spec : Format} {mantissa mantissa' : Nat} {exponent exponent' : Int}
    (hpos : 0 < mantissa) (hrepresents : Represents spec mantissa' exponent')
    (hvalue : value mantissa exponent = value mantissa' exponent') (sign : Sign) :
    unpack spec (pack spec (round spec sign mantissa exponent))
      = .finite sign mantissa' exponent' hrepresents.pos := by
  rw [round_eq hrepresents hpos hvalue, unpack_pack_finite hrepresents]

/-- A format with at least the digits and the exponents of another. -/
structure Extends (narrow wide : Format) : Prop where
  exponents : 1 < narrow.exponentBits
  mantissaBits_le : narrow.mantissaBits ≤ wide.mantissaBits
  exponentBits_le : narrow.exponentBits ≤ wide.exponentBits

theorem exponentBias_le {narrow wide : Format} (h : narrow.exponentBits ≤ wide.exponentBits) :
    narrow.exponentBias ≤ wide.exponentBias := by
  have hnarrow := two_pow_exponentBits narrow
  have hwide := two_pow_exponentBits wide
  have hle := Nat.pow_le_pow_right (by decide : 0 < 2) h
  omega

theorem unpack_convertBits {narrow wide : Format} (h : Extends narrow wide)
    {bits : BitVec narrow.numBits} {sign : Sign} {mantissa : Nat} {exponent : Int}
    {hpos : 0 < mantissa} (hunpack : unpack narrow bits = .finite sign mantissa exponent hpos) :
    ∃ mantissa' exponent' hpos', unpack wide (convertBits narrow wide bits)
        = .finite sign mantissa' exponent' hpos' ∧
      value mantissa exponent = value mantissa' exponent' := by
  have hrepresents := represents_of_unpack h.exponents hunpack
  obtain ⟨hlow, hcase⟩ := hrepresents.normal_or_subnormal
  have hrange := hrepresents.inRange
  have hmin := minExponent_eq narrow
  have hmin' := minExponent_eq wide
  have hbias := exponentBias_le h.exponentBits_le
  have hbits := h.mantissaBits_le
  have hcapacity : (2 : Int) ^ narrow.exponentBits = 2 * narrow.exponentBias + 2 := by
    exact_mod_cast two_pow_exponentBits narrow
  rw [Format.mantissaBits, Format.mantissaBits] at hbits
  obtain ⟨mantissa', exponent', hwide, hvalue⟩ := exists_represents
    (Nat.lt_of_lt_of_le h.exponents h.exponentBits_le) hpos
    (by rw [Format.mantissaBits]; omega) (by omega : wide.minExponent ≤ exponent) (by omega)
  refine ⟨mantissa', exponent', hwide.pos, ?_, hvalue⟩
  rw [convertBits_of_number hunpack nofun, convert, unpack_pack_round hpos hwide hvalue]

/-- **A conversion into a wider format can be undone.** -/
theorem convertBits_convertBits {narrow wide : Format} (h : Extends narrow wide)
    (bits : BitVec narrow.numBits) :
    convertBits wide narrow (convertBits narrow wide bits) = bits := by
  by_cases hnan : isNaNBits bits = true
  · have hpayload : narrow.mantissaBitsWithoutImplicit ≤ wide.mantissaBitsWithoutImplicit := by
      have hbits := h.mantissaBits_le
      rw [Format.mantissaBits, Format.mantissaBits] at hbits
      omega
    have hcomponents := packComponents_unpackSign_unpackExponent_unpackMantissa bits
    obtain ⟨hones, hquiet⟩ := of_decide_eq_true hnan
    rw [hones] at hcomponents
    rw [convertBits, if_pos (convertBits_of_isNaN hnan), convertBits, if_pos hnan,
      unpackSign_packComponents, unpackMantissa_packComponents, Sign.ofBitVec_toBitVec,
      convertPayload_convertPayload hpayload hquiet]
    exact hcomponents
  · rw [isNaNBits_iff] at hnan
    have hback := pack_unpack_of_number h.exponents hnan
    cases hunpack : unpack narrow bits with
    | notANumber => exact absurd hunpack hnan
    | infinity sign =>
        rw [hunpack] at hback
        rw [convertBits_of_number hunpack nofun, convert,
          convertBits_of_number (unpack_pack_infinity sign) nofun, convert, hback]
    | zero sign =>
        rw [hunpack] at hback
        rw [convertBits_of_number hunpack nofun, convert,
          convertBits_of_number (unpack_pack_zero sign) nofun, convert, hback]
    | finite sign mantissa exponent hpos =>
        obtain ⟨mantissa', exponent', hpos', hwide, hvalue⟩ := unpack_convertBits h hunpack
        have hrepresents := represents_of_unpack h.exponents hunpack
        rw [hunpack] at hback
        rw [convertBits_of_number hwide nofun, convert, round_eq hrepresents hpos' hvalue.symm, hback]

/-! ### Numbers -/

inductive Number where
  | notANumber
  | infinity (sign : Sign)
  | rational (value : ℚ)

def signed : Sign → ℚ → ℚ
  | .positive, number => number
  | .negative, number => -number

def number : UnpackedFloat → Number
  | .finite sign mantissa exponent _ => .rational (signed sign (value mantissa exponent))
  | .zero _ => .rational 0
  | .infinity sign => .infinity sign
  | .notANumber => .notANumber

/-! ### Integers -/

/-- An integer has no more significant digits than a format. -/
def FitsDigits (spec : Format) (n : Int) : Prop :=
  ∃ mantissa shift : Nat, n.natAbs = mantissa * 2 ^ shift ∧ mantissa < 2 ^ spec.mantissaBits

/-- The sign of an integer, where zero is positive. -/
def signOf (n : Int) : Sign := if n < 0 then .negative else .positive

theorem ofInt_eq (spec : Format) {n : Int} (hn : n ≠ 0) :
    ofInt spec n = round spec (signOf n) n.natAbs 0 := by
  unfold ofInt UnpackedFloat.normalize signOf
  rcases Int.lt_or_gt_of_ne hn with hneg | hpos
  · have hcompare : compare n 0 = .lt := compare_lt_iff_lt.mpr hneg
    have habs : (-n).toNat = n.natAbs := by omega
    rw [hcompare, if_pos hneg]
    simp only [habs]
  · have hcompare : compare n 0 = .gt := compare_gt_iff_gt.mpr hpos
    have habs : n.toNat = n.natAbs := by omega
    rw [hcompare, if_neg (Int.not_lt.mpr (Int.le_of_lt hpos))]
    simp only [habs]

theorem signed_signOf (n : Int) : signed (signOf n) (n.natAbs : ℚ) = n := by
  rw [Nat.cast_natAbs, signOf]
  split
  · rename_i hneg
    rw [signed, abs_of_neg hneg, Int.cast_neg, neg_neg]
  · rename_i hnonneg
    rw [signed, abs_of_nonneg (Int.not_lt.mp hnonneg)]

theorem value_zero_exponent (mantissa : Nat) : value mantissa 0 = mantissa := by
  rw [value, zpow_zero, mul_one]

theorem abs_signed (sign : Sign) {number : ℚ} (hpos : 0 < number) :
    |signed sign number| = number := by
  cases sign with
  | positive => exact abs_of_pos hpos
  | negative => rw [signed, abs_neg, abs_of_pos hpos]

theorem fitsDigits_of_number {spec : Format} (hwide : 1 < spec.exponentBits)
    {bits : BitVec spec.numBits} {n : Int} (h : number (unpack spec bits) = .rational n) :
    FitsDigits spec n := by
  cases hunpack : unpack spec bits with
  | notANumber =>
      rw [hunpack] at h
      cases h
  | infinity sign =>
      rw [hunpack] at h
      cases h
  | zero sign =>
      rw [hunpack, number, Number.rational.injEq] at h
      obtain rfl : n = 0 := by exact_mod_cast h.symm
      exact ⟨0, 0, rfl, Nat.two_pow_pos _⟩
  | finite sign mantissa exponent hpos =>
      have hrepresents := represents_of_unpack hwide hunpack
      have hlog : mantissa.log2 < spec.mantissaBits := by
        have hcase := hrepresents.normal_or_subnormal
        rw [Format.mantissaBits]
        omega
      have hmantissa := (Nat.log2_lt hpos.ne').mp hlog
      rw [hunpack, number, Number.rational.injEq] at h
      have hvalue : value n.natAbs 0 = value mantissa exponent := by
        rw [value_zero_exponent, Nat.cast_natAbs, Int.cast_abs, ← h,
          abs_signed sign (value_pos hpos exponent)]
      rcases Int.le_total 0 exponent with hle | hle
      · exact ⟨mantissa, _, mantissa_eq_of_value_eq hvalue hle, hmantissa⟩
      · have hshift := mantissa_eq_of_value_eq hvalue.symm hle
        refine ⟨n.natAbs, 0, (Nat.mul_one _).symm, Nat.lt_of_le_of_lt ?_ hmantissa⟩
        rw [hshift]
        exact Nat.le_mul_of_pos_right _ (Nat.two_pow_pos _)

theorem exists_represents_int {spec : Format} (hwide : 1 < spec.exponentBits) {n : Int}
    (hn : n ≠ 0) (hdigits : FitsDigits spec n) (hhigh : n.natAbs.log2 ≤ spec.exponentBias) :
    ∃ mantissa exponent, Represents spec mantissa exponent ∧
      value n.natAbs 0 = value mantissa exponent := by
  obtain ⟨mantissa, shift, habs, hlt⟩ := hdigits
  have hpos : 0 < mantissa := by
    rw [Nat.pos_iff_ne_zero]
    rintro rfl
    rw [Nat.zero_mul] at habs
    exact hn (Int.natAbs_eq_zero.mp habs)
  rw [habs, log2_mul_two_pow hpos] at hhigh
  have hmin := minExponent_eq spec
  have ht := spec.hm
  rw [habs, value_mul_two_pow, Int.zero_add]
  exact exists_represents hwide hpos ((Nat.log2_lt hpos.ne').mpr hlt) (by omega) (by omega)

theorem unpack_pack_ofInt {spec : Format} {n : Int} (hn : n ≠ 0) {mantissa : Nat} {exponent : Int}
    (hrepresents : Represents spec mantissa exponent)
    (hvalue : value n.natAbs 0 = value mantissa exponent) :
    unpack spec (pack spec (ofInt spec n))
      = .finite (signOf n) mantissa exponent hrepresents.pos := by
  rw [ofInt_eq spec hn, unpack_pack_round (Int.natAbs_pos.mpr hn) hrepresents hvalue]

/-- **Integers through two formats.** An integer that goes through a format that has it is still that
integer in another if and only if it has few digits there. -/
theorem number_convertBits_ofInt_iff {source target : Format} (hsource : 1 < source.exponentBits)
    (htarget : 1 < target.exponentBits) {n : Int} (hdigits : FitsDigits source n)
    (hhigh : n.natAbs.log2 ≤ source.exponentBias) (hhigh' : n.natAbs.log2 ≤ target.exponentBias) :
    number (unpack target (convertBits source target (pack source (ofInt source n)))) = .rational n ↔
      FitsDigits target n := by
  refine ⟨fitsDigits_of_number htarget, fun hdigits' => ?_⟩
  by_cases hn : n = 0
  · subst hn
    have hzero : ofInt source 0 = .zero .positive := rfl
    rw [hzero, convertBits_of_number (unpack_pack_zero _) nofun, convert, unpack_pack_zero,
      number, Int.cast_zero]
  · obtain ⟨mantissa, exponent, hrepresents, hvalue⟩ :=
      exists_represents_int hsource hn hdigits hhigh
    obtain ⟨mantissa', exponent', hrepresents', hvalue'⟩ :=
      exists_represents_int htarget hn hdigits' hhigh'
    have hbetween : value mantissa exponent = value mantissa' exponent' := hvalue.symm.trans hvalue'
    rw [convertBits_of_number (unpack_pack_ofInt hn hrepresents hvalue) nofun, convert,
      unpack_pack_round hrepresents.pos hrepresents' hbetween, number, ← hvalue',
      value_zero_exponent, signed_signOf]

end BinaryFloat
