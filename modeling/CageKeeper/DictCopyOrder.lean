import CageKeeper.DictOrder
import CageKeeper.DictCopies

/-! Which definition of a key a table and its copy find. A copy has every chain the other way round,
and so has a table that has grown, so a lookup finds the first or the last of the entries that match,
and the copy finds the one at the other end unless just one of the two lookups makes its table
grow. -/

namespace CageKeeper

variable {κ δ : Type}

namespace Dict

/-! ### Growing turns chains around -/

/-- Entries that are moved over end up in front of their new slot, the last one first. -/
theorem chain_foldl_pushFront {newlen : Nat} (hpos : 0 < newlen) (moved : List (Entry κ δ))
    {slots : List (List (Entry κ δ))} (hlength : slots.length = newlen) (index : Nat) :
    chain (moved.foldl (fun newslots e => pushFront newslots (slotIndex e.hash newlen) e) slots) index
      = (moved.filter fun e => slotIndex e.hash newlen = index).reverse ++ chain slots index := by
  induction moved generalizing slots with
  | nil => rfl
  | cons e moved ih =>
      have hindex : slotIndex e.hash newlen < slots.length := by
        rw [hlength]
        exact Nat.mod_lt _ hpos
      rw [List.foldl_cons, ih ((pushFront_length ..).trans hlength), chain_pushFront hindex]
      by_cases hslot : slotIndex e.hash newlen = index
      · rw [if_pos hslot, List.filter_cons_of_pos (by simpa using hslot), List.reverse_cons,
          List.append_assoc]
        rfl
      · rw [if_neg hslot, List.filter_cons_of_neg (by simpa using hslot)]

theorem chain_dictExpand (h : Dict κ δ) {newlen : Nat} (hpos : 0 < newlen) (index : Nat) :
    chain (dictExpand h newlen).slots index
      = (h.entries.filter fun e => slotIndex e.hash newlen = index).reverse := by
  apply (chain_foldl_pushFront hpos h.entries List.length_replicate index).trans
  rw [chain_replicate, List.append_nil]

theorem Sound.matching_dictExpand {h : Dict κ δ} (hsound : h.Sound) (hlawful : h.keyType.Lawful)
    {newlen : Nat} (hpos : 0 < newlen) (key : κ) :
    (CageKeeper.dictExpand h newlen).matching key = (h.matching key).reverse := by
  rw [(hsound.dictExpand hpos).sound.matching_eq hlawful, chain_dictExpand h hpos,
    dictExpand_hashsize, List.filter_reverse, List.filter_filter]
  apply congrArg List.reverse
  apply List.filter_congr
  intro e hmem
  by_cases hequals : h.keyType.equals e.key key = true
  · have hslot : slotIndex e.hash newlen = slotIndex (h.keyType.hash key) newlen := by
      rw [hsound.hash_eq e hmem, hlawful.hash_eq hequals]
    exact (Bool.and_eq_left_iff_imp).mpr fun _ => decide_eq_true hslot
  · rw [show (CageKeeper.dictExpand h newlen).keyType = h.keyType from rfl,
      Bool.eq_false_iff.mpr hequals, Bool.false_and]

/-! ### The entry a lookup finds -/

theorem Sound.lookupSlot_first {h : Dict κ δ} (hsound : h.Sound) (hlawful : h.keyType.Lawful)
    (key : κ) :
    (match chain h.slots (slotIndex (h.keyType.hash key) h.hashsize) with
      | [] => (h, none)
      | first :: next =>
          if h.keyType.equals first.key key then (h, some first)
          else searchChain h (slotIndex (h.keyType.hash key) h.hashsize) key first next).2
        = (h.matching key).head? := by
  cases hchain : chain h.slots (slotIndex (h.keyType.hash key) h.hashsize) with
  | nil =>
      rw [hsound.matching_eq hlawful, hchain]
      rfl
  | cons first next =>
      by_cases hfirst : h.keyType.equals first.key key = true
      · simp only [if_pos hfirst]
        rw [hsound.matching_eq hlawful, hchain, List.filter_cons, if_pos hfirst]
        rfl
      · simp only [if_neg hfirst]
        exact (searchChain_order hsound hlawful hchain hfirst).first

/-- **The entry a lookup finds.** It is the first of the entries that match, or the last one if the
table grows. -/
theorem Sound.dictDoLookup_end {h : Dict κ δ} (hsound : h.Sound) (hlawful : h.keyType.Lawful)
    (key : κ) :
    (dictDoLookup h key).2
      = if h.grows key then (h.matching key).getLast? else (h.matching key).head? := by
  by_cases hgrows : h.grows key = true
  · rw [if_pos hgrows]
    rw [grows, Bool.and_eq_true, decide_eq_true_eq] at hgrows
    obtain ⟨hnum, hchain⟩ := hgrows
    rw [dictDoLookup, if_neg hnum]
    split at hchain
    case h_2 => cases hchain
    rename_i first second rest hslot
    rw [Bool.and_eq_true, Bool.not_eq_true', decide_eq_true_eq] at hchain
    obtain ⟨hfirst, hfull⟩ := hchain
    have hpos : 0 < newSize h.num h.hashsize := by
      have := newSize_large h.num h.hashsize
      omega
    have hgrown := (hsound.dictExpand hpos).sound.lookupSlot_first hlawful key
    rw [hsound.matching_dictExpand hlawful hpos, List.head?_reverse] at hgrown
    simp only [hslot, hfirst, Bool.false_eq_true, if_false,
      if_pos (And.intro (List.cons_ne_nil second rest) hfull)]
    exact hgrown
  · rw [if_neg hgrows]
    exact (dictDoLookup_order hsound hlawful key fun h => absurd h hgrows).first

/-! ### The entries of a copy -/

theorem chain_dictClone (o : Dict κ δ) (index : Nat) :
    chain (dictClone o).slots index = ((chain o.slots index).map (copyEntry o.keyType)).reverse :=
  List.getD_map o.slots [] fun slot => (slot.map (copyEntry o.keyType)).reverse

theorem equals_dup {type : HashType κ} (hlawful : type.Lawful) (live key : κ) :
    type.equals (type.dup live) key = type.equals live key := by
  rw [Bool.eq_iff_iff]
  exact ⟨hlawful.trans (hlawful.symm (hlawful.dup_equals live)),
    hlawful.trans (hlawful.dup_equals live)⟩

theorem Sound.matching_dictClone {o : Dict κ δ} (hsound : o.Sound) (hlawful : o.keyType.Lawful)
    (key : κ) :
    (CageKeeper.dictClone o).matching key
      = ((o.matching key).map (copyEntry o.keyType)).reverse := by
  rw [(hsound.dictClone hlawful).matching_eq hlawful, hsound.matching_eq hlawful, chain_dictClone,
    dictClone_hashsize, List.filter_reverse, List.filter_map]
  apply congrArg fun entries => (List.map (copyEntry o.keyType) entries).reverse
  apply List.filter_congr
  intro e _
  exact equals_dup hlawful e.key key

def slotOf (h : Dict κ δ) (key : κ) : List (Entry κ δ) :=
  chain h.slots (slotIndex (h.keyType.hash key) h.hashsize)

/-- The table is so full that a lookup that goes on behind the first entry of a slot makes it
grow. -/
def Full (h : Dict κ δ) : Prop := h.num * 3 ≥ h.hashsize * 2

theorem grows_iff {h : Dict κ δ} {key : κ} :
    h.grows key ↔ h.num ≠ 0 ∧ 2 ≤ (h.slotOf key).length ∧ h.Full ∧
      ¬(h.slotOf key).head?.any fun e => h.keyType.equals e.key key := by
  rw [grows, slotOf, Full, Bool.and_eq_true, decide_eq_true_eq]
  cases chain h.slots (slotIndex (h.keyType.hash key) h.hashsize) with
  | nil => simp
  | cons first next =>
      cases next with
      | nil => simp
      | cons second rest =>
          simp only [List.length_cons, List.head?_cons, Option.any_some, Bool.and_eq_true,
            Bool.not_eq_true', decide_eq_true_eq, Bool.not_eq_true]
          constructor
          · rintro ⟨hnum, hfirst, hfull⟩
            exact ⟨hnum, by omega, hfull, hfirst⟩
          · rintro ⟨hnum, -, hfull, hfirst⟩
            exact ⟨hnum, hfirst, hfull⟩

/-- The copy grows when the last entry of the original's slot does not match. -/
theorem grows_dictClone_iff {o : Dict κ δ} (hlawful : o.keyType.Lawful) {key : κ} :
    (dictClone o).grows key ↔ o.num ≠ 0 ∧ 2 ≤ (o.slotOf key).length ∧ o.Full ∧
      ¬(o.slotOf key).getLast?.any fun e => o.keyType.equals e.key key := by
  have hslot : (dictClone o).slotOf key
      = ((o.slotOf key).map (copyEntry o.keyType)).reverse := by
    rw [slotOf, chain_dictClone, dictClone_hashsize]
    rfl
  have hequals : ((dictClone o).slotOf key).head?.any (fun e => o.keyType.equals e.key key)
      = (o.slotOf key).getLast?.any fun e => o.keyType.equals e.key key := by
    rw [hslot, List.head?_reverse, List.getLast?_map, Option.any_map]
    apply congrArg (Option.any · (o.slotOf key).getLast?)
    funext e
    exact equals_dup hlawful e.key key
  have hfull : (dictClone o).Full ↔ o.Full := by
    rw [Full, Full, dictClone_hashsize]
    rfl
  rw [grows_iff, hfull, hslot, List.length_reverse, List.length_map, ← hslot]
  exact and_congr_right fun _ => and_congr_right fun _ => and_congr_right fun _ =>
    not_congr (by rw [← hequals]; rfl)

/-- When a table and its copy find the same data: the outermost definitions of the key agree, or the
table is full and just one end of the slot is a definition of it. -/
def CopyAgrees (o : Dict κ δ) (key : κ) : Prop :=
  (o.matching key).head?.map Entry.data = (o.matching key).getLast?.map Entry.data ∨
    (o.Full ∧ ((o.slotOf key).head?.any fun e => o.keyType.equals e.key key)
      ≠ (o.slotOf key).getLast?.any fun e => o.keyType.equals e.key key)

instance [DecidableEq δ] (o : Dict κ δ) (key : κ) : Decidable (o.CopyAgrees key) :=
  inferInstanceAs (Decidable (_ ∨ (o.num * 3 ≥ o.hashsize * 2 ∧ _ ≠ _)))

theorem Sound.grows_ne_iff {o : Dict κ δ} (hsound : o.Sound) (hlawful : o.keyType.Lawful)
    (key : κ) :
    o.grows key ≠ (CageKeeper.dictClone o).grows key ↔
      o.Full ∧ ((o.slotOf key).head?.any fun e => o.keyType.equals e.key key)
        ≠ (o.slotOf key).getLast?.any fun e => o.keyType.equals e.key key := by
  rw [ne_eq, Bool.eq_iff_iff, grows_iff, grows_dictClone_iff hlawful]
  match hslot : o.slotOf key with
  | [] => simp
  | [e] => simp
  | first :: second :: rest =>
      have hnum : o.num ≠ 0 := by
        rw [hsound.num_eq, ne_eq, List.length_eq_zero_iff]
        apply List.ne_nil_of_mem
        exact mem_entries_of_chain (hslot ▸ List.mem_cons_self .. : first ∈ o.slotOf key)
      generalize (first :: second :: rest).head?.any (fun e => o.keyType.equals e.key key) = front
      generalize (first :: second :: rest).getLast?.any (fun e => o.keyType.equals e.key key) = back
      by_cases hfull : o.Full
      · cases front <;> cases back <;> simp [hnum, hfull]
      · simp [hfull]

/-- **Copies and order.** A copy finds the same data as the table exactly when the outermost
definitions of the key agree, or just one of the two lookups makes its table grow. -/
theorem Sound.dictLookup_dictClone {o : Dict κ δ} (hsound : o.Sound) (hlawful : o.keyType.Lawful)
    (key : κ) :
    (dictLookup (CageKeeper.dictClone o) key).2 = (dictLookup o key).2 ↔ o.CopyAgrees key := by
  have hcopy := (hsound.dictClone hlawful).dictDoLookup_end hlawful key
  rw [hsound.matching_dictClone hlawful, List.getLast?_reverse, List.head?_reverse,
    List.head?_map, List.getLast?_map] at hcopy
  rw [CopyAgrees, ← hsound.grows_ne_iff hlawful]
  simp only [dictLookup, hcopy, hsound.dictDoLookup_end hlawful key]
  have hdata : ∀ e : Option (Entry κ δ),
      (e.map (copyEntry o.keyType)).map Entry.data = e.map Entry.data := fun e => by
    cases e <;> rfl
  cases o.grows key <;> cases (CageKeeper.dictClone o).grows key <;>
    simp [hdata, eq_comm]

end Dict

end CageKeeper
