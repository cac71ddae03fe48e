import CageKeeper.DictLookup

/-! Deletion. `dict_del` and `dict_del2` walk along the chain of a key and unlink the first entry
that matches; they differ in what a match is. -/

namespace CageKeeper

variable {κ δ : Type}

/-- The walk of `dict_del` and `dict_del2`: the first match in the slot of a key is unlinked. -/
def dictRemove (h : Dict κ δ) (key : κ) (isMatch : Entry κ δ → Bool) : Dict κ δ × Bool :=
  if h.num = 0 then (h, false)
  else
    let hash := slotIndex (h.keyType.hash key) h.hashsize
    if (chain h.slots hash).any isMatch then
      ({ h with
          slots := h.slots.set hash ((chain h.slots hash).eraseP isMatch)
          num := h.num - 1 }, true)
    else (h, false)

/-- `dict_del`. -/
def dictDel (h : Dict κ δ) (key : κ) : Dict κ δ × Bool :=
  dictRemove h key fun e => h.keyType.equals e.key key

/-- `dict_del2`. -/
def dictDel2 [DecidableEq δ] (h : Dict κ δ) (key : κ) (data : δ) : Dict κ δ × Bool :=
  dictRemove h key fun e => h.keyType.equals e.key key && e.data = data

theorem flatten_set_erase_perm {slots : List (List (Entry κ δ))} {index : Nat}
    (hindex : index < slots.length) {slot : List (Entry κ δ)} {e : Entry κ δ}
    (h : (chain slots index).Perm (e :: slot)) :
    slots.flatten.Perm (e :: (slots.set index slot).flatten) := by
  induction slots generalizing index with
  | nil => cases hindex
  | cons first slots ih =>
      cases index with
      | zero =>
          have hfirst : first.Perm (e :: slot) := by simpa [chain] using h
          simpa using hfirst.append_right slots.flatten
      | succ index =>
          have hrest := ih (Nat.lt_of_succ_lt_succ hindex) (by simpa [chain] using h)
          rw [List.set_cons_succ, List.flatten_cons, List.flatten_cons]
          exact (hrest.append_left first).trans List.perm_middle

theorem exists_perm_eraseP {slot : List (Entry κ δ)} {isMatch : Entry κ δ → Bool}
    (hany : slot.any isMatch = true) :
    ∃ e ∈ slot, isMatch e ∧ slot.Perm (e :: slot.eraseP isMatch) := by
  obtain ⟨found, hfound, hmatch⟩ := List.any_eq_true.mp hany
  obtain ⟨e, before, after, -, he, hslot, herase⟩ := List.exists_of_eraseP hfound hmatch
  have hperm : slot.Perm (e :: slot.eraseP isMatch) := by
    rw [herase, hslot]
    exact List.perm_middle
  exact ⟨e, hperm.mem_iff.mpr (List.mem_cons_self ..), he, hperm⟩

namespace Dict

@[simp] theorem dictRemove_keyType (h : Dict κ δ) (key : κ) (isMatch : Entry κ δ → Bool) :
    (dictRemove h key isMatch).1.keyType = h.keyType := by
  simp only [dictRemove]
  split
  · rfl
  · split <;> rfl

@[simp] theorem dictRemove_hashsize (h : Dict κ δ) (key : κ) (isMatch : Entry κ δ → Bool) :
    (dictRemove h key isMatch).1.hashsize = h.hashsize := by
  simp only [dictRemove]
  split
  · rfl
  · split
    · exact List.length_set
    · rfl

theorem Sound.dictRemove_chain {h : Dict κ δ} (hsound : h.Sound) (key : κ)
    (isMatch : Entry κ δ → Bool) (index : Nat) :
    chain (dictRemove h key isMatch).1.slots index
      = if slotIndex (h.keyType.hash key) h.hashsize = index
        then (chain h.slots index).eraseP isMatch else chain h.slots index := by
  simp only [dictRemove]
  split
  · rename_i hnum
    rw [hsound.num_eq, List.length_eq_zero_iff] at hnum
    have hnil : chain h.slots index = [] := List.eq_nil_iff_forall_not_mem.mpr fun e hmem => by
      have hentry := mem_entries_of_chain hmem
      rw [hnum] at hentry
      cases hentry
    rw [hnil]
    split <;> rfl
  split
  · rename_i hany
    obtain ⟨found, hfound, -⟩ := List.any_eq_true.mp hany
    rw [chain_set (lt_length_of_mem_chain hfound)]
    split
    · rename_i hsame
      rw [hsame]
    · rfl
  · rename_i hany
    split
    · rename_i hsame
      rw [hsame] at hany
      exact (List.eraseP_of_forall_not fun e hmem hmatch =>
        hany (List.any_eq_true.mpr ⟨e, hmem, hmatch⟩)).symm
    · rfl

theorem dictRemove_perm (h : Dict κ δ) (key : κ) (isMatch : Entry κ δ → Bool) :
    ∃ gone, h.entries.Perm (gone ++ (dictRemove h key isMatch).1.entries) ∧
      (dictRemove h key isMatch).1.num = h.num - gone.length := by
  rw [dictRemove]
  by_cases hzero : h.num = 0
  · rw [if_pos hzero]
    exact ⟨[], .refl _, rfl⟩
  rw [if_neg hzero]
  dsimp only
  by_cases hany : (chain h.slots (slotIndex (h.keyType.hash key) h.hashsize)).any isMatch = true
  · rw [if_pos hany]
    obtain ⟨e, hmem, -, hperm⟩ := exists_perm_eraseP hany
    exact ⟨[e], flatten_set_erase_perm (lt_length_of_mem_chain hmem) hperm, rfl⟩
  · rw [if_neg hany]
    exact ⟨[], .refl _, rfl⟩

/-- What a deletion does to the table and what its answer says about the entries. -/
structure RemoveSpec (h : Dict κ δ) (isMatch : Entry κ δ → Bool) (result : Dict κ δ × Bool) :
    Prop where
  keyType_eq : result.1.keyType = h.keyType
  sound : result.1.Sound
  removed : result.2 = true → ∃ e, isMatch e ∧ h.entries.Perm (e :: result.1.entries)
  kept : result.2 = false → result.1 = h ∧ ∀ e ∈ h.entries, ¬isMatch e

theorem RemoveSpec.perm_append {h : Dict κ δ} {isMatch : Entry κ δ → Bool}
    {result : Dict κ δ × Bool} (hspec : RemoveSpec h isMatch result) :
    ∃ gone, h.entries.Perm (gone ++ result.1.entries) := by
  cases hdone : result.2 with
  | false =>
      refine ⟨[], ?_⟩
      rw [(hspec.kept hdone).1]
      exact .refl _
  | true =>
      obtain ⟨e, -, hperm⟩ := hspec.removed hdone
      exact ⟨[e], hperm⟩

/-- **Deletion.** On a sound table with a lawful key type one match is removed, if there is one. -/
theorem dictRemove_spec {h : Dict κ δ} (hsound : h.Sound) (hlawful : h.keyType.Lawful) (key : κ)
    {isMatch : Entry κ δ → Bool} (hmatch : ∀ e, isMatch e → h.keyType.equals e.key key) :
    RemoveSpec h isMatch (dictRemove h key isMatch) := by
  rw [dictRemove]
  split
  · rename_i hnum
    refine ⟨rfl, hsound, nofun, fun _ => ⟨rfl, fun e hmem => ?_⟩⟩
    rw [hsound.num_eq, List.length_eq_zero_iff] at hnum
    rw [hnum] at hmem
    cases hmem
  simp only
  split
  · rename_i hnum hany
    obtain ⟨e, hmem, he, hperm⟩ := exists_perm_eraseP hany
    have hindex := lt_length_of_mem_chain hmem
    have hentries := flatten_set_erase_perm hindex hperm
    refine ⟨rfl, ⟨fun entry hentry => ?_, fun index entry hentry => ?_, ?_⟩,
      fun _ => ⟨e, he, hentries⟩, nofun⟩
    · exact hsound.hash_eq entry (hentries.mem_iff.mpr (List.mem_cons_of_mem _ hentry))
    · rw [hashsize, List.length_set]
      apply hsound.slot index entry
      rw [chain_set hindex] at hentry
      split at hentry
      · rename_i heq
        rw [← heq]
        exact List.mem_of_mem_eraseP hentry
      · exact hentry
    · have hlength := hentries.length_eq
      rw [List.length_cons] at hlength
      have hcount : h.num = h.slots.flatten.length := hsound.num_eq
      simp only [entries]
      omega
  · rename_i hnum hany
    refine ⟨rfl, hsound, nofun, fun _ => ⟨rfl, fun e hmem hisMatch => ?_⟩⟩
    have hchain := hsound.mem_chain_of_equals hlawful hmem (hmatch e hisMatch)
    exact hany (List.any_eq_true.mpr ⟨e, hchain, hisMatch⟩)

theorem dictDel_spec {h : Dict κ δ} (hsound : h.Sound) (hlawful : h.keyType.Lawful) (key : κ) :
    RemoveSpec h (h.keyType.equals ·.key key) (dictDel h key) :=
  dictRemove_spec hsound hlawful key fun _ hmatch => hmatch

end Dict

end CageKeeper
