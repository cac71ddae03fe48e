import Mathlib.Data.Finset.Max
import Mathlib.Data.Finset.Card
import Mathlib.Data.Finset.Range
import Mathlib.Logic.Function.Basic

/-! Tables of file descriptors: what is opened gets the lowest descriptor that is free, and there are
only so many of them. The free descriptors are a finite set, and every operation says what it makes
of that set. -/

namespace FileTable

/-- The open files of a process, by descriptor. -/
abbrev Table (φ : Type) := Nat → Option φ

variable {φ : Type} (limit : Nat)

def free (table : Table φ) : Finset Nat := {fd ∈ Finset.range limit | (table fd).isNone}

/-- Opening a file, at the lowest descriptor that is free. -/
def openFile (file : φ) (table : Table φ) : Option (Nat × Table φ) :=
  if hfree : (free limit table).Nonempty then
    some ((free limit table).min' hfree,
      Function.update table ((free limit table).min' hfree) (some file))
  else none

/-- `close`. -/
def close (fd : Nat) (table : Table φ) : Table φ := Function.update table fd none

/-- `pipe`: both ends are opened, or neither is. -/
def openPair (first second : φ) (table : Table φ) : Option (Nat × Nat × Table φ) := do
  let (fd, table) ← openFile limit first table
  let (fd', table) ← openFile limit second table
  pure (fd, fd', table)

variable {limit} {table table' : Table φ} {fd fd' : Nat} {file first second : φ}

theorem mem_free : fd ∈ free limit table ↔ fd < limit ∧ table fd = none := by
  rw [free, Finset.mem_filter, Finset.mem_range, Option.isNone_iff_eq_none]

theorem free_update_some :
    free limit (Function.update table fd (some file)) = (free limit table).erase fd := by
  ext other
  rw [Finset.mem_erase, mem_free, mem_free]
  by_cases heq : other = fd
  · subst heq
    simp
  · simp [heq]

theorem free_close (hfd : fd < limit) : free limit (close fd table) = insert fd (free limit table) := by
  ext other
  rw [Finset.mem_insert, mem_free, mem_free, close]
  by_cases heq : other = fd
  · subst heq
    simp [hfd]
  · simp [heq]

@[simp] theorem close_self : close fd table fd = none := Function.update_self ..

theorem close_of_ne (hne : fd' ≠ fd) : close fd table fd' = table fd' := Function.update_of_ne hne ..

theorem close_eq_some : close fd table fd' = some file ↔ fd' ≠ fd ∧ table fd' = some file := by
  by_cases heq : fd' = fd
  · subst heq
    simp
  · simp [close_of_ne heq, heq]

theorem openFile_eq_some (hopen : openFile limit file table = some (fd, table')) :
    fd ∈ free limit table ∧ table' = Function.update table fd (some file) := by
  unfold openFile at hopen
  split at hopen
  · cases hopen
    exact ⟨Finset.min'_mem _ _, rfl⟩
  · cases hopen

theorem openFile_eq_none : openFile limit file table = none ↔ (free limit table).card = 0 := by
  unfold openFile
  split
  next hfree => simpa using hfree.ne_empty
  next hfree => simpa using hfree

theorem openFile_of_pos (file : φ) (hpos : 0 < (free limit table).card) :
    ∃ fd table', openFile limit file table = some (fd, table') := by
  cases hopen : openFile limit file table with
  | none => exact absurd (openFile_eq_none.mp hopen) (Nat.ne_of_gt hpos)
  | some result => exact ⟨result.1, result.2, rfl⟩

theorem openFile_card (hopen : openFile limit file table = some (fd, table')) :
    (free limit table').card + 1 = (free limit table).card := by
  obtain ⟨hfd, rfl⟩ := openFile_eq_some hopen
  rw [free_update_some, Finset.card_erase_add_one hfd]

theorem openPair_eq_some (hopen : openPair limit first second table = some (fd, fd', table')) :
    table fd = none ∧ table fd' = none ∧ fd ≠ fd' ∧ fd < limit ∧ fd' < limit ∧
      table' = Function.update (Function.update table fd (some first)) fd' (some second) ∧
      (free limit table').card + 2 = (free limit table).card := by
  obtain ⟨⟨fd₁, table₁⟩, hfirst, hopen⟩ := Option.bind_eq_some_iff.mp hopen
  obtain ⟨⟨fd₂, table₂⟩, hsecond, hopen⟩ := Option.bind_eq_some_iff.mp hopen
  cases hopen
  have hcard := openFile_card hfirst
  have hcard' := openFile_card hsecond
  obtain ⟨hfd, rfl⟩ := openFile_eq_some hfirst
  obtain ⟨hfd', rfl⟩ := openFile_eq_some hsecond
  rw [free_update_some, Finset.mem_erase] at hfd'
  obtain ⟨hne, hfd'⟩ := hfd'
  rw [mem_free] at hfd hfd'
  exact ⟨hfd.2, hfd'.2, hne.symm, hfd.1, hfd'.1, rfl, by omega⟩

theorem openPair_eq_none :
    openPair limit first second table = none ↔ (free limit table).card < 2 := by
  constructor
  · intro hopen
    by_contra hlarge
    obtain ⟨fd, table₁, hfirst⟩ : ∃ fd table₁, openFile limit first table = some (fd, table₁) :=
      openFile_of_pos first (by omega)
    have hcard := openFile_card hfirst
    obtain ⟨fd', table₂, hsecond⟩ : ∃ fd' table₂, openFile limit second table₁ = some (fd', table₂) :=
      openFile_of_pos second (by omega)
    simp [openPair, hfirst, hsecond] at hopen
  · intro hsmall
    cases hopen : openPair limit first second table with
    | none => rfl
    | some result =>
        have hcard := (openPair_eq_some hopen).2.2.2.2.2.2
        omega

end FileTable
