import CageKeeper.DictTable
import Mathlib.Data.List.GetD

/-! What a lookup finds. Growing the table and moving an entry to the front only rearrange the
entries, and a key can only be in the slot of its hash, so a lookup that fails has seen every entry
that could match. -/

namespace CageKeeper

variable {κ δ : Type}

/-! ### Chains -/

theorem chain_eq_nil_of_le {slots : List (List (Entry κ δ))} {index : Nat}
    (hindex : slots.length ≤ index) : chain slots index = [] := by
  rw [chain, List.getD_eq_default _ _ hindex]

theorem lt_length_of_mem_chain {slots : List (List (Entry κ δ))} {index : Nat} {e : Entry κ δ}
    (hmem : e ∈ chain slots index) : index < slots.length := by
  by_contra hout
  rw [chain_eq_nil_of_le (Nat.le_of_not_lt hout)] at hmem
  cases hmem

theorem chain_set {slots : List (List (Entry κ δ))} {index : Nat} (hindex : index < slots.length)
    (slot : List (Entry κ δ)) (other : Nat) :
    chain (slots.set index slot) other = if index = other then slot else chain slots other := by
  by_cases hother : other < slots.length
  · rw [chain, List.getD_eq_getElem _ _ (by rw [List.length_set]; exact hother), List.getElem_set,
      chain, List.getD_eq_getElem _ _ hother]
  · rw [chain_eq_nil_of_le (by rw [List.length_set]; omega),
      chain_eq_nil_of_le (Nat.le_of_not_lt hother), if_neg (by omega)]

theorem mem_flatten_iff_mem_chain {slots : List (List (Entry κ δ))} {e : Entry κ δ} :
    e ∈ slots.flatten ↔ ∃ index, e ∈ chain slots index := by
  rw [List.mem_flatten]
  constructor
  · rintro ⟨slot, hslot, hmem⟩
    obtain ⟨index, hindex, rfl⟩ := List.mem_iff_getElem.mp hslot
    exact ⟨index, by rwa [chain, List.getD_eq_getElem _ _ hindex]⟩
  · rintro ⟨index, hmem⟩
    by_cases hindex : index < slots.length
    · rw [chain, List.getD_eq_getElem _ _ hindex] at hmem
      exact ⟨slots[index], List.getElem_mem hindex, hmem⟩
    · rw [chain_eq_nil_of_le (Nat.not_lt.mp hindex)] at hmem
      cases hmem

theorem chain_replicate (newlen index : Nat) :
    chain (List.replicate newlen ([] : List (Entry κ δ))) index = [] := by
  refine List.eq_nil_iff_forall_not_mem.mpr fun e hmem => ?_
  have hnone := mem_flatten_iff_mem_chain.mpr ⟨index, hmem⟩
  rw [List.flatten_replicate_nil] at hnone
  cases hnone

@[simp] theorem pushFront_length (slots : List (List (Entry κ δ))) (index : Nat) (e : Entry κ δ) :
    (pushFront slots index e).length = slots.length := by
  simp [pushFront]

theorem pushFront_eq_set {slots : List (List (Entry κ δ))} {index : Nat} {e : Entry κ δ} :
    pushFront slots index e = slots.set index (e :: chain slots index) := by
  induction slots generalizing index with
  | nil => cases index <;> rfl
  | cons first slots ih =>
      cases index with
      | zero => rfl
      | succ index => exact congrArg (first :: ·) ih

theorem chain_pushFront {slots : List (List (Entry κ δ))} {index : Nat}
    (hindex : index < slots.length) (e : Entry κ δ) (other : Nat) :
    chain (pushFront slots index e) other
      = if index = other then e :: chain slots other else chain slots other := by
  rw [pushFront_eq_set, chain_set hindex]
  split
  · rename_i hsame
    rw [hsame]
  · rfl

theorem mem_chain_pushFront {slots : List (List (Entry κ δ))} {index other : Nat}
    {e entry : Entry κ δ} (hindex : index < slots.length)
    (h : entry ∈ chain (pushFront slots index e) other) :
    (entry = e ∧ other = index) ∨ entry ∈ chain slots other := by
  rw [chain_pushFront hindex] at h
  split at h
  · rename_i hsame
    exact (List.mem_cons.mp h).imp_left fun hfirst => ⟨hfirst, hsame.symm⟩
  · exact Or.inr h

theorem flatten_pushFront_perm {slots : List (List (Entry κ δ))} {index : Nat} (e : Entry κ δ)
    (hindex : index < slots.length) :
    (pushFront slots index e).flatten.Perm (e :: slots.flatten) := by
  induction slots generalizing index with
  | nil => simp at hindex
  | cons slot slots ih =>
      cases index with
      | zero => simp [pushFront]
      | succ index =>
          have hrest := ih (by simpa using hindex : index < slots.length)
          simp only [pushFront, List.modify_succ_cons, List.flatten_cons] at hrest ⊢
          exact (hrest.append_left slot).trans List.perm_middle

theorem flatten_set_perm {slots : List (List (Entry κ δ))} {index : Nat}
    {slot : List (Entry κ δ)} (h : slot.Perm (chain slots index)) :
    (slots.set index slot).flatten.Perm slots.flatten := by
  induction slots generalizing index with
  | nil => simp
  | cons first slots ih =>
      cases index with
      | zero => simpa [chain] using h.append_right slots.flatten
      | succ index => simpa using (ih (by simpa [chain] using h)).append_left first

theorem takeMatch_eq_some {equals : κ → Bool} {next rest : List (Entry κ δ)} {e : Entry κ δ}
    (h : takeMatch equals next = some (e, rest)) :
    equals e.key ∧ (e :: rest).Perm next := by
  induction next generalizing rest with
  | nil => simp [takeMatch] at h
  | cons first next ih =>
      rw [takeMatch] at h
      split at h
      · cases h
        exact ⟨‹_›, .refl _⟩
      · obtain ⟨⟨found, others⟩, hfound, heq⟩ := Option.map_eq_some_iff.mp h
        cases heq
        obtain ⟨hequals, hperm⟩ := ih hfound
        exact ⟨hequals, (List.Perm.swap first e others).trans (hperm.cons first)⟩

theorem takeMatch_eq_none {equals : κ → Bool} {next : List (Entry κ δ)}
    (h : takeMatch equals next = none) : ∀ e ∈ next, ¬equals e.key := by
  induction next with
  | nil => simp
  | cons first next ih =>
      rw [takeMatch] at h
      split at h
      · cases h
      · rw [Option.map_eq_none_iff] at h
        exact List.forall_mem_cons.mpr ⟨‹_›, ih h⟩

/-! ### The operations keep a table sound -/

namespace Dict

/-- The same entries under the same key type, in another order. -/
structure Rearranged (h h' : Dict κ δ) : Prop where
  keyType_eq : h'.keyType = h.keyType
  perm : h'.entries.Perm h.entries
  sound : h'.Sound

theorem dictNew_sound (t : HashType κ) : (dictNew t : Dict κ δ).Sound where
  hash_eq e hmem := by simp [entries, dictNew, dictInit2] at hmem
  slot index e hmem := by
    cases index <;> simp [chain, dictNew, dictInit2] at hmem
  num_eq := rfl

theorem Sound.rearranged {h : Dict κ δ} (hsound : h.Sound) : Rearranged h h :=
  ⟨rfl, .refl _, hsound⟩

theorem foldl_pushFront_length (newlen : Nat) (moved : List (Entry κ δ))
    (slots : List (List (Entry κ δ))) :
    (moved.foldl (fun newslots e => pushFront newslots (slotIndex e.hash newlen) e) slots).length
      = slots.length := by
  induction moved generalizing slots with
  | nil => rfl
  | cons e moved ih => exact (ih _).trans (pushFront_length ..)

@[simp] theorem dictExpand_hashsize (h : Dict κ δ) (newlen : Nat) :
    (dictExpand h newlen).hashsize = newlen :=
  (foldl_pushFront_length ..).trans List.length_replicate

/-- The slots after a part of the old entries has been moved over. -/
theorem foldl_pushFront {newlen : Nat} (hpos : 0 < newlen) (moved : List (Entry κ δ))
    (slots : List (List (Entry κ δ))) (hlength : slots.length = newlen)
    (hslot : ∀ index, ∀ e ∈ chain slots index, slotIndex e.hash newlen = index) :
    let newslots := moved.foldl (fun newslots e => pushFront newslots (slotIndex e.hash newlen) e)
      slots
    newslots.flatten.Perm (moved ++ slots.flatten) ∧
      ∀ index, ∀ e ∈ chain newslots index, slotIndex e.hash newlen = index := by
  induction moved generalizing slots with
  | nil => exact ⟨.refl _, hslot⟩
  | cons e moved ih =>
      have hindex : slotIndex e.hash newlen < slots.length := by
        rw [hlength]
        exact Nat.mod_lt _ hpos
      obtain ⟨hperm, hchain⟩ := ih (pushFront slots (slotIndex e.hash newlen) e)
        ((pushFront_length ..).trans hlength) (by
          intro index entry hmem
          rcases mem_chain_pushFront hindex hmem with ⟨rfl, hindex⟩ | hmem
          · exact hindex.symm
          · exact hslot index entry hmem)
      refine ⟨hperm.trans ?_, hchain⟩
      exact ((flatten_pushFront_perm e hindex).append_left moved).trans List.perm_middle

/-- The slots of a table that has grown. -/
theorem dictExpand_slots (h : Dict κ δ) {newlen : Nat} (hpos : 0 < newlen) :
    (dictExpand h newlen).entries.Perm h.entries ∧
      ∀ index, ∀ e ∈ chain (dictExpand h newlen).slots index, slotIndex e.hash newlen = index := by
  have hempty : ∀ index, ∀ e ∈ chain (List.replicate newlen ([] : List (Entry κ δ))) index,
      slotIndex e.hash newlen = index := by
    intro index e hmem
    rw [chain_replicate] at hmem
    cases hmem
  obtain ⟨hperm, hslot⟩ :=
    foldl_pushFront hpos h.slots.flatten _ List.length_replicate hempty
  rw [List.flatten_replicate_nil, List.append_nil] at hperm
  exact ⟨hperm, hslot⟩

theorem Sound.dictExpand {h : Dict κ δ} (hsound : h.Sound) {newlen : Nat} (hpos : 0 < newlen) :
    Rearranged h (dictExpand h newlen) := by
  obtain ⟨hperm, hslot⟩ := dictExpand_slots h hpos
  refine ⟨rfl, hperm, fun e hmem => hsound.hash_eq e (hperm.mem_iff.mp hmem), ?_, ?_⟩
  · rw [dictExpand_hashsize]
    exact hslot
  · exact hsound.num_eq.trans hperm.length_eq.symm

/-- A new entry is put in front of a chain of the table; a table without slots is given one. -/
theorem Sound.dictPut_eq {h : Dict κ δ} (hsound : h.Sound) (key : κ) (data : δ) :
    ∃ grown, Rearranged h grown ∧ 0 < grown.hashsize ∧ (grown = h ∨ h.entries = []) ∧
      dictPut h key data = ⟨h.keyType,
        pushFront grown.slots (slotIndex (h.keyType.hash key) grown.hashsize)
          ⟨h.keyType.dup key, h.keyType.hash key, data⟩, grown.num + 1⟩ := by
  by_cases hempty : h.hashsize = 0
  · have hnone : h.entries = [] := by
      rw [entries, List.length_eq_zero_iff.mp hempty, List.flatten_nil]
    refine ⟨CageKeeper.dictExpand h 1, hsound.dictExpand Nat.one_pos, ?_, Or.inr hnone, ?_⟩
    · rw [dictExpand_hashsize]
      exact Nat.one_pos
    · rw [CageKeeper.dictPut, if_pos hempty]
      rfl
  · refine ⟨h, hsound.rearranged, Nat.pos_of_ne_zero hempty, Or.inl rfl, ?_⟩
    rw [CageKeeper.dictPut, if_neg hempty]

/-- A new entry, whatever the keys are. -/
theorem dictPut_perm (h : Dict κ δ) (key : κ) (data : δ) :
    (dictPut h key data).entries.Perm
      (⟨h.keyType.dup key, h.keyType.hash key, data⟩ :: h.entries) := by
  rw [dictPut]
  by_cases hempty : h.hashsize = 0
  · rw [if_pos hempty]
    have hpos : 0 < (dictExpand h 1).hashsize := by
      rw [dictExpand_hashsize]
      exact Nat.one_pos
    exact (flatten_pushFront_perm _ (Nat.mod_lt _ hpos)).trans
      ((dictExpand_slots h Nat.one_pos).1.cons _)
  · rw [if_neg hempty]
    exact flatten_pushFront_perm _ (Nat.mod_lt _ (Nat.pos_of_ne_zero hempty))

theorem Sound.dictPut {h : Dict κ δ} (hsound : h.Sound) (hlawful : h.keyType.Lawful) (key : κ)
    (data : δ) :
    (dictPut h key data).Sound ∧ (CageKeeper.dictPut h key data).keyType = h.keyType ∧
      (CageKeeper.dictPut h key data).entries.Perm
        (⟨h.keyType.dup key, h.keyType.hash key, data⟩ :: h.entries) := by
  have hentries := dictPut_perm h key data
  obtain ⟨grown, ⟨-, hperm, hgrownSound⟩, hpos, -, hput⟩ := hsound.dictPut_eq key data
  have hindex : slotIndex (h.keyType.hash key) grown.hashsize < grown.slots.length :=
    Nat.mod_lt _ hpos
  refine ⟨⟨?_, ?_, ?_⟩, by rw [hput], hentries⟩
  · intro e hmem
    rw [hput]
    rcases List.mem_cons.mp (hentries.mem_iff.mp hmem) with rfl | hold
    · exact (hlawful.hash_eq (hlawful.dup_equals key)).symm
    · exact hsound.hash_eq e hold
  · intro index e hmem
    rw [hput] at hmem ⊢
    simp only [hashsize, pushFront_length] at hmem ⊢
    rcases mem_chain_pushFront hindex hmem with ⟨rfl, hindex⟩ | hmem
    · exact hindex.symm
    · exact hgrownSound.slot index e hmem
  · rw [hentries.length_eq, List.length_cons, ← hperm.length_eq, ← hgrownSound.num_eq, hput]

/-! ### Lookup -/

theorem newSizeLoop_large {num fuel newsize : Nat} (hfuel : num * 2 < fuel + newsize) :
    num * 3 < newSizeLoop num fuel newsize * 2 := by
  induction fuel generalizing newsize with
  | zero =>
      rw [newSizeLoop]
      omega
  | succ fuel ih =>
      rw [newSizeLoop]
      split
      · apply ih
        split <;> omega
      · omega

/-- The new size keeps the table less than two thirds full. -/
theorem newSize_large (num newsize : Nat) : num * 3 < newSize num newsize * 2 :=
  newSizeLoop_large (by omega)

/-- What a lookup does to the table and what its answer says about the entries. -/
structure LookupSpec (h : Dict κ δ) (key : κ) (result : Dict κ δ × Option (Entry κ δ)) : Prop where
  rearranged : Rearranged h result.1
  found : ∀ e, result.2 = some e → e ∈ h.entries ∧ h.keyType.equals e.key key
  absent : result.2 = none → ∀ e ∈ h.entries, ¬h.keyType.equals e.key key

theorem LookupSpec.of_rearranged {h h' : Dict κ δ} {key : κ}
    {result : Dict κ δ × Option (Entry κ δ)} (hbefore : Rearranged h h')
    (hresult : LookupSpec h' key result) : LookupSpec h key result := by
  obtain ⟨htype, hperm, -⟩ := hbefore
  refine ⟨⟨?_, ?_, hresult.rearranged.sound⟩, fun e he => ?_, fun hnone e hmem => ?_⟩
  · exact hresult.rearranged.keyType_eq.trans htype
  · exact hresult.rearranged.perm.trans hperm
  · have := hresult.found e he
    rwa [hperm.mem_iff, htype] at this
  · rw [← htype]
    exact hresult.absent hnone e (hperm.mem_iff.mpr hmem)

/-- An entry with a matching key is in the slot of the key's hash. -/
theorem Sound.mem_chain_of_equals {h : Dict κ δ} (hsound : h.Sound) (hlawful : h.keyType.Lawful)
    {key : κ} {e : Entry κ δ} (hmem : e ∈ h.entries) (hequals : h.keyType.equals e.key key) :
    e ∈ chain h.slots (slotIndex (h.keyType.hash key) h.hashsize) := by
  obtain ⟨index, hindex⟩ := mem_flatten_iff_mem_chain.mp hmem
  have hslot := hsound.slot index e hindex
  rw [hsound.hash_eq e hmem, hlawful.hash_eq hequals] at hslot
  rwa [hslot]

/-- A key that does not match in the slot of its hash matches nowhere. -/
theorem Sound.not_equals {h : Dict κ δ} (hsound : h.Sound) (hlawful : h.keyType.Lawful) {key : κ}
    (hchain : ∀ e ∈ chain h.slots (slotIndex (h.keyType.hash key) h.hashsize),
      ¬h.keyType.equals e.key key) : ∀ e ∈ h.entries, ¬h.keyType.equals e.key key :=
  fun e hmem hequals => hchain e (hsound.mem_chain_of_equals hlawful hmem hequals) hequals

theorem mem_entries_of_chain {h : Dict κ δ} {index : Nat} {e : Entry κ δ}
    (hmem : e ∈ chain h.slots index) : e ∈ h.entries :=
  mem_flatten_iff_mem_chain.mpr ⟨index, hmem⟩

theorem searchChain_spec {h : Dict κ δ} (hsound : h.Sound) (hlawful : h.keyType.Lawful) {key : κ}
    {first : Entry κ δ} {next : List (Entry κ δ)}
    (hchain : chain h.slots (slotIndex (h.keyType.hash key) h.hashsize) = first :: next)
    (hfirst : ¬h.keyType.equals first.key key) :
    LookupSpec h key
      (searchChain h (slotIndex (h.keyType.hash key) h.hashsize) key first next) := by
  rw [searchChain]
  cases hmatch : takeMatch (h.keyType.equals · key) next with
  | none =>
      refine ⟨hsound.rearranged, by simp, fun _ => hsound.not_equals hlawful ?_⟩
      rw [hchain]
      exact List.forall_mem_cons.mpr ⟨hfirst, takeMatch_eq_none hmatch⟩
  | some taken =>
      obtain ⟨e, rest⟩ := taken
      obtain ⟨hequals, hperm⟩ := takeMatch_eq_some hmatch
      have hslot : (e :: first :: rest).Perm
          (chain h.slots (slotIndex (h.keyType.hash key) h.hashsize)) := by
        rw [hchain]
        exact (List.Perm.swap first e rest).trans (hperm.cons first)
      have hentries := flatten_set_perm hslot
      have hfound := hslot.mem_iff.mp (List.mem_cons_self ..)
      refine ⟨⟨rfl, hentries, ?_⟩, ?_, by simp⟩
      · refine ⟨fun entry hentry => hsound.hash_eq entry (hentries.mem_iff.mp hentry), ?_,
          hsound.num_eq.trans hentries.length_eq.symm⟩
        intro index entry hentry
        rw [hashsize, List.length_set]
        apply hsound.slot index entry
        rw [chain_set (lt_length_of_mem_chain hfound)] at hentry
        split at hentry
        · rename_i heq
          rw [← heq]
          exact hslot.mem_iff.mp hentry
        · exact hentry
      · rintro entry heq
        cases heq
        exact ⟨mem_entries_of_chain hfound, hequals⟩

/-- The part of `dict_do_lookup` that looks at the slot, without growing the table. -/
theorem lookupSlot_spec {h : Dict κ δ} (hsound : h.Sound) (hlawful : h.keyType.Lawful) (key : κ) :
    LookupSpec h key
      (match chain h.slots (slotIndex (h.keyType.hash key) h.hashsize) with
        | [] => (h, none)
        | first :: next =>
            if h.keyType.equals first.key key then (h, some first)
            else searchChain h (slotIndex (h.keyType.hash key) h.hashsize) key first next) := by
  cases hchain : chain h.slots (slotIndex (h.keyType.hash key) h.hashsize) with
  | nil =>
      refine ⟨hsound.rearranged, by simp, fun _ => hsound.not_equals hlawful ?_⟩
      rw [hchain]
      simp
  | cons first next =>
      simp only
      split
      · refine ⟨hsound.rearranged, fun e heq => ?_, by simp⟩
        cases heq
        exact ⟨mem_entries_of_chain (by rw [hchain]; simp), ‹_›⟩
      · exact searchChain_spec hsound hlawful hchain ‹_›

/-- **Lookup.** On a sound table with a lawful key type a lookup only rearranges the entries; it
finds an entry with an equal key if there is one. -/
theorem dictDoLookup_spec {h : Dict κ δ} (hsound : h.Sound) (hlawful : h.keyType.Lawful)
    (key : κ) : LookupSpec h key (dictDoLookup h key) := by
  have hslot := lookupSlot_spec hsound hlawful key
  simp only [dictDoLookup]
  split
  · refine ⟨hsound.rearranged, by simp, fun _ e hmem => ?_⟩
    have hlength := hsound.num_eq
    rw [List.length_eq_zero_iff.mp (by omega : h.entries.length = 0)] at hmem
    cases hmem
  · cases hchain : chain h.slots (slotIndex (h.keyType.hash key) h.hashsize) with
    | nil => simpa only [hchain] using hslot
    | cons first next =>
        simp only [hchain] at hslot ⊢
        split
        · simpa only [if_pos ‹h.keyType.equals first.key key = true›] using hslot
        rename_i hfirst
        split
        · have hpos : 0 < newSize h.num h.hashsize := by
            have := newSize_large h.num h.hashsize
            omega
          have hexpand := hsound.dictExpand hpos
          have hgrown := lookupSlot_spec hexpand.sound (by rw [hexpand.keyType_eq]; exact hlawful)
            key
          rw [hexpand.keyType_eq] at hgrown
          exact .of_rearranged hexpand hgrown
        · simpa only [if_neg hfirst] using hslot

theorem searchChain_perm {h : Dict κ δ} {hash : Nat} {first : Entry κ δ} {next : List (Entry κ δ)}
    (hchain : chain h.slots hash = first :: next) (key : κ) :
    (searchChain h hash key first next).1.entries.Perm h.entries := by
  rw [searchChain]
  cases hmatch : takeMatch (h.keyType.equals · key) next with
  | none => exact .refl _
  | some taken =>
      obtain ⟨e, rest⟩ := taken
      apply flatten_set_perm
      rw [hchain]
      exact (List.Perm.swap first e rest).trans ((takeMatch_eq_some hmatch).2.cons first)

theorem searchChain_num (h : Dict κ δ) (hash : Nat) (key : κ) (first : Entry κ δ)
    (next : List (Entry κ δ)) : (searchChain h hash key first next).1.num = h.num := by
  rw [searchChain]
  split
  · rfl
  · rfl

/-- A lookup rearranges the entries, whatever the keys are. -/
theorem dictDoLookup_perm (h : Dict κ δ) (key : κ) :
    (dictDoLookup h key).1.entries.Perm h.entries ∧ (dictDoLookup h key).1.num = h.num := by
  rw [dictDoLookup]
  by_cases hzero : h.num = 0
  · rw [if_pos hzero]
    exact ⟨.refl _, rfl⟩
  rw [if_neg hzero]
  cases hchain : chain h.slots (slotIndex (h.keyType.hash key) h.hashsize) with
  | nil =>
      simp only [hchain]
      exact ⟨.refl _, trivial⟩
  | cons first next =>
      simp only [hchain]
      by_cases hfirst : h.keyType.equals first.key key = true
      · rw [if_pos hfirst]
        exact ⟨.refl _, rfl⟩
      rw [if_neg hfirst]
      by_cases hgrows : next ≠ [] ∧ h.num * 3 ≥ h.hashsize * 2
      · rw [if_pos hgrows]
        have hpos : 0 < newSize h.num h.hashsize := by
          have hlarge := newSize_large h.num h.hashsize
          omega
        have hgrown := (dictExpand_slots h hpos).1
        split
        · exact ⟨hgrown, rfl⟩
        · rename_i hnew
          split
          · exact ⟨hgrown, rfl⟩
          · exact ⟨(searchChain_perm hnew key).trans hgrown, searchChain_num ..⟩
      · rw [if_neg hgrows]
        exact ⟨searchChain_perm hchain key, searchChain_num ..⟩

end Dict

end CageKeeper
