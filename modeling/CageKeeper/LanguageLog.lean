import CageKeeper.Value
import Mathlib.Data.List.DropRight

/-! `language_error`, under which name `language_log` is the same function: it formats a message
into a buffer of 1024 bytes and hands the line to the log hook. The conversions the program uses
are `%%` and `%s`; any other one, and one without an argument, is undefined behaviour. -/

namespace CageKeeper
open ByteStream

/-- `'%'`. -/
def percent : UInt8 := 37

/-- `'\n'`. -/
def newline : UInt8 := 10

/-- The text a format and its arguments stand for. -/
def formatText : Bytes → List CString → Option Bytes
  | [], _ => some []
  | b :: rest, args =>
      if b = percent then
        match rest with
        | [] => none
        | conversion :: rest =>
            if conversion = percent then (formatText rest args).map (percent :: ·)
            else if conversion = 115 then
              match args with
              | [] => none
              | arg :: args => (formatText rest args).map (arg.bytes ++ ·)
            else none
      else (formatText rest args).map (b :: ·)

/-- The string `vsnprintf` leaves in a buffer, or `none` where it is undefined. -/
def vsnprintf (size : Nat) (format : CString) (args : List CString) : Option CString :=
  (formatText format.bytes args).map fun text => CString.ofBytes (text.take (size - 1))

/-- The loop of `language_error` that cuts newlines off the end of the buffer. -/
def stripNewlines (buf : CString) : CString :=
  ⟨buf.bytes.rdropWhile (· = newline), fun hmem =>
    buf.nulFree ((List.rdropWhile_prefix _ _).sublist.subset hmem)⟩

/-- `language_error`: the line it hands to `li->log`. -/
def languageError (error : CString) (args : List CString) : Option CString :=
  (vsnprintf 1023 error args).map stripNewlines

/-- `language_log`. -/
abbrev languageLog := languageError

/-- What can be a line of the log: it fits into the buffer and does not end in a newline. -/
structure IsLogLine (line : CString) : Prop where
  length_le : line.length ≤ 1022
  no_newline : line.bytes.getLast? ≠ some newline

theorem stripNewlines_length_le (buf : CString) : (stripNewlines buf).length ≤ buf.length :=
  (List.rdropWhile_prefix _ _).length_le

theorem stripNewlines_getLast? (buf : CString) :
    (stripNewlines buf).bytes.getLast? ≠ some newline := by
  intro hlast
  have hne : (stripNewlines buf).bytes ≠ [] := by
    intro hnil
    rw [hnil] at hlast
    cases hlast
  have hnot := List.rdropWhile_last_not (p := (· = newline)) (l := buf.bytes) hne
  rw [List.getLast?_eq_getLast_of_ne_nil hne, Option.some.injEq] at hlast
  exact hnot (decide_eq_true hlast)

theorem languageError_isLogLine {error line : CString} {args : List CString}
    (h : languageError error args = some line) : IsLogLine line := by
  obtain ⟨buf, hbuf, rfl⟩ := Option.map_eq_some_iff.mp h
  obtain ⟨text, -, rfl⟩ := Option.map_eq_some_iff.mp hbuf
  refine ⟨?_, stripNewlines_getLast? _⟩
  have hcut := CString.length_ofBytes_le (text.take (1023 - 1))
  rw [List.length_take] at hcut
  have hstrip := stripNewlines_length_le (CString.ofBytes (text.take (1023 - 1)))
  omega

theorem formatText_of_not_mem {format : Bytes} (hformat : percent ∉ format)
    (args : List CString) : formatText format args = some format := by
  induction format with
  | nil => rfl
  | cons b rest ih =>
      obtain ⟨hb, hrest⟩ := not_or.mp (fun h => hformat (List.mem_cons.mpr h))
      rw [formatText.eq_def]
      simp only [if_neg (Ne.symm hb), ih hrest, Option.map_some]

/-- Without arguments the only conversion is `%%`, which prints one character for two. -/
theorem formatText_length {format text : Bytes} (h : formatText format [] = some text) :
    text.length ≤ format.length ∧ (percent ∈ format → text.length < format.length) := by
  generalize hargs : ([] : List CString) = args at h
  fun_induction formatText format args generalizing text with
  | case1 => simp_all
  | case2 => cases h
  | case3 rest args ih =>
      obtain ⟨text, htext, rfl⟩ := Option.map_eq_some_iff.mp h
      have := (ih hargs htext).1
      simp only [List.length_cons]
      omega
  | case4 => cases h
  | case5 => cases hargs
  | case6 => cases h
  | case7 b rest args hb ih =>
      obtain ⟨text, htext, rfl⟩ := Option.map_eq_some_iff.mp h
      obtain ⟨hle, hlt⟩ := ih hargs htext
      refine ⟨by simpa using hle, fun hmem => ?_⟩
      have hrest : percent ∈ rest := (List.mem_cons.mp hmem).resolve_left (Ne.symm hb)
      simpa using hlt hrest

/-- **A log line used as a format.** The line comes out as it went in exactly if there is no `%`
in it. -/
theorem languageLog_eq_self_iff {line : CString} (hline : IsLogLine line) :
    languageLog line [] = some line ↔ percent ∉ line.bytes := by
  constructor
  · intro h hmem
    obtain ⟨buf, hbuf, hstrip⟩ := Option.map_eq_some_iff.mp h
    obtain ⟨text, htext, rfl⟩ := Option.map_eq_some_iff.mp hbuf
    have hshorter := (formatText_length htext).2 hmem
    have hcut := CString.length_ofBytes_le (text.take (1023 - 1))
    have hlength := stripNewlines_length_le (CString.ofBytes (text.take (1023 - 1)))
    rw [List.length_take] at hcut
    rw [hstrip] at hlength
    simp only [CString.length] at hlength hcut
    omega
  · intro hmem
    have htake : line.bytes.take (1023 - 1) = line.bytes := List.take_of_length_le hline.length_le
    have hstrip : stripNewlines line = line := by
      apply CString.ext
      refine List.rdropWhile_eq_self_iff.mpr fun hne hlast => hline.no_newline ?_
      rw [List.getLast?_eq_getLast_of_ne_nil hne]
      simpa using hlast
    rw [languageLog, languageError, vsnprintf, formatText_of_not_mem hmem, Option.map_some, htake,
      CString.ofBytes_bytes, Option.map_some, hstrip]

end CageKeeper
