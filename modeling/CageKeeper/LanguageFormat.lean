import CageKeeper.LanguageLog
import Mathlib.Algebra.Order.Ring.Int

/-! Formats with integer arguments, as `cfunction_call` prints them: `%d` besides the `%s` and `%%`
of the other messages. An argument of the wrong kind is undefined behaviour, as is a missing one. -/

namespace CageKeeper
open ByteStream

/-- An argument of the `printf` family. -/
inductive FormatArg where
  | text (str : CString)
  | int (value : Int)

inductive Conversion where
  | text
  | int
  deriving DecidableEq

/-- The conversion an argument is made for. -/
def FormatArg.conversion : FormatArg → Conversion
  | .text _ => .text
  | .int _ => .int

/-- The characters of `%d`. -/
def decimal (value : Int) : Bytes :=
  (if value < 0 then [45] else []) ++
    (Nat.toDigits 10 value.natAbs).map fun digit => UInt8.ofNat digit.toNat

def FormatArg.print : FormatArg → Bytes
  | .text str => str.bytes
  | .int value => decimal value

def conversionOf (letter : UInt8) : Option Conversion :=
  if letter = 115 then some .text else if letter = 100 then some .int else none

/-- The text a format and its arguments stand for. -/
def formatArgs : Bytes → List FormatArg → Option Bytes
  | [], _ => some []
  | b :: rest, args =>
      if b = percent then
        match rest with
        | [] => none
        | letter :: rest =>
            if letter = percent then (formatArgs rest args).map (percent :: ·)
            else
              match args with
              | [] => none
              | arg :: args =>
                  if conversionOf letter = some arg.conversion then
                    (formatArgs rest args).map (arg.print ++ ·)
                  else none
      else (formatArgs rest args).map (b :: ·)

/-- The conversions of a format, unless it has one that is not known. -/
def conversions : Bytes → Option (List Conversion)
  | [] => some []
  | b :: rest =>
      if b = percent then
        match rest with
        | [] => none
        | letter :: rest =>
            if letter = percent then conversions rest
            else
              match conversionOf letter with
              | none => none
              | some conversion => (conversions rest).map (conversion :: ·)
      else conversions rest

/-- `snprintf`: the string it leaves in a buffer. -/
def snprintf (size : Nat) (format : CString) (args : List FormatArg) : Option CString :=
  (formatArgs format.bytes args).map fun text => CString.ofBytes (text.take (size - 1))

/-- `language_error` with arguments of both kinds. -/
def languageErrorWith (error : CString) (args : List FormatArg) : Option CString :=
  (snprintf 1023 error args).map stripNewlines

theorem formatArgs_cons {b : UInt8} (hb : b ≠ percent) (rest : Bytes) (args : List FormatArg) :
    formatArgs (b :: rest) args = (formatArgs rest args).map (b :: ·) := by
  rw [formatArgs.eq_def]
  simp only [if_neg hb]

theorem formatArgs_percent (rest : Bytes) (args : List FormatArg) :
    formatArgs (percent :: percent :: rest) args = (formatArgs rest args).map (percent :: ·) := by
  rw [formatArgs.eq_def]
  simp only [if_pos]

theorem formatArgs_arg {letter : UInt8} (hletter : letter ≠ percent) (rest : Bytes)
    (arg : FormatArg) (args : List FormatArg) :
    formatArgs (percent :: letter :: rest) (arg :: args)
      = if conversionOf letter = some arg.conversion then
          (formatArgs rest args).map (arg.print ++ ·) else none := by
  rw [formatArgs.eq_def]
  simp only [if_pos, if_neg hletter]

theorem formatArgs_isSome {format : Bytes} {args : List FormatArg}
    (h : conversions format = some (args.map FormatArg.conversion)) :
    (formatArgs format args).isSome := by
  fun_induction conversions format generalizing args with
  | case1 => rfl
  | case2 => cases h
  | case3 rest ih =>
      rw [formatArgs_percent, Option.isSome_map]
      exact ih h
  | case4 letter rest hletter hnone => cases h
  | case5 letter rest hletter conversion hconversion ih =>
      obtain ⟨kinds, hkinds, hcons⟩ := Option.map_eq_some_iff.mp h
      cases args with
      | nil => cases hcons
      | cons arg args =>
          rw [List.map_cons, List.cons.injEq] at hcons
          obtain ⟨rfl, rfl⟩ := hcons
          rw [formatArgs_arg hletter, if_pos hconversion, Option.isSome_map]
          exact ih hkinds
  | case6 b rest hb ih =>
      rw [formatArgs_cons hb, Option.isSome_map]
      exact ih h

theorem languageErrorWith_isSome {error : CString} {args : List FormatArg}
    (h : conversions error.bytes = some (args.map FormatArg.conversion)) :
    (languageErrorWith error args).isSome := by
  have htext := formatArgs_isSome h
  rw [languageErrorWith, snprintf, Option.isSome_map, Option.isSome_map]
  exact htext

/-! ### Decimal digits -/

theorem decimal_nulFree (value : Int) : (0 : UInt8) ∉ decimal value := by
  intro hmem
  rcases List.mem_append.mp hmem with hsign | hdigit
  · split at hsign <;> simp at hsign
  · obtain ⟨digit, hdigit, hzero⟩ := List.mem_map.mp hdigit
    have hrange := Nat.isDigit_of_mem_toDigits (by decide) (by decide) hdigit
    simp only [Char.isDigit, Bool.and_eq_true, decide_eq_true_eq] at hrange
    have hlow : 48 ≤ digit.toNat := hrange.1
    have hhigh : digit.toNat ≤ 57 := hrange.2
    have hnat := congrArg UInt8.toNat hzero
    rw [UInt8.toNat_ofNat', Nat.mod_eq_of_lt (by omega)] at hnat
    have h0 : (0 : UInt8).toNat = 0 := rfl
    omega

theorem decimal_length_le {value : Int} (hvalue : value.natAbs < 10 ^ 10) :
    (decimal value).length ≤ 11 := by
  have hdigits : (Nat.toDigits 10 value.natAbs).length ≤ 10 :=
    (Nat.length_toDigits_le_iff (by decide) (by decide)).mpr hvalue
  rw [decimal, List.length_append, List.length_map]
  split
  · rw [List.length_singleton]
    omega
  · rw [List.length_nil]
    omega

end CageKeeper
