import CageKeeper.DictGrowth
import CageKeeper.DictMultimap
import CageKeeper.MoveToFront

/-! What `dict_do_lookup` gains by moving a match to the front. However the entries of the chains may be
ordered, lookups that find something compare at most twice as many keys as they would in that order, but for a
number that depends on the table only. -/

namespace CageKeeper
open LinkedCells MoveToFront

variable {κ δ : Type}

/-! ### One lookup -/

theorem getElem?_of_mem_chain {slots : List (List (Entry κ δ))} {index : Nat} {e : Entry κ δ}
    (hmem : e ∈ chain slots index) : slots[index]? = some (chain slots index) := by
  have hlt := lt_length_of_mem_chain hmem
  rw [List.getElem?_eq_getElem hlt, chain, List.getD_eq_getElem _ _ hlt]

theorem moved_perm {slots : List (List (Entry κ δ))} {index : Nat} {front rest : List (Entry κ δ)}
    {e : Entry κ δ} (hchain : chain slots index = front ++ e :: rest) :
    (e :: (front ++ rest)).Perm (chain slots index) := by
  rw [hchain]
  exact List.perm_middle.symm

theorem mem_chain_of_eq {slots : List (List (Entry κ δ))} {index : Nat} {front rest : List (Entry κ δ)}
    {e : Entry κ δ} (hchain : chain slots index = front ++ e :: rest) : e ∈ chain slots index :=
  (moved_perm hchain).mem_iff.mp (List.mem_cons_self ..)

theorem takeMatch_split {equals : κ → Bool} {next rest : List (Entry κ δ)} {e : Entry κ δ}
    (htake : takeMatch equals next = some (e, rest)) :
    ∃ before after, next = before ++ e :: after ∧ rest = before ++ after ∧ equals e.key = true ∧
      ∀ x ∈ before, ¬equals x.key := by
  induction next generalizing rest with
  | nil => cases htake
  | cons first next ih =>
      rw [takeMatch] at htake
      split at htake
      · rename_i hequals
        cases htake
        exact ⟨[], next, rfl, rfl, hequals, List.forall_mem_nil _⟩
      · rename_i hdiffers
        obtain ⟨⟨found, others⟩, hothers, hpair⟩ := Option.map_eq_some_iff.mp htake
        cases hpair
        obtain ⟨before, after, rfl, rfl, hequals, hbefore⟩ := ih hothers
        exact ⟨first :: before, after, rfl, rfl, hequals, List.forall_mem_cons.mpr ⟨hdiffers, hbefore⟩⟩

inductive Accesses (d : Dict κ δ) (key : κ) (index : Nat) : Dict κ δ × Option (Entry κ δ) → Prop where
  | found {front rest : List (Entry κ δ)} {e : Entry κ δ}
      (hchain : chain d.slots index = front ++ e :: rest)
      (hdiffers : ∀ x ∈ front, ¬d.keyType.equals x.key key)
      (hequals : d.keyType.equals e.key key = true) :
      Accesses d key index ({ d with slots := d.slots.set index (e :: (front ++ rest)) }, some e)
  | nothing : Accesses d key index (d, none)

theorem Accesses.first {d : Dict κ δ} {key : κ} {index : Nat} {first : Entry κ δ}
    {next : List (Entry κ δ)} (hchain : chain d.slots index = first :: next)
    (hequals : d.keyType.equals first.key key = true) : Accesses d key index (d, some first) := by
  have hsplit : chain d.slots index = [] ++ first :: next := hchain
  have hfound := getElem?_of_mem_chain (mem_chain_of_eq hsplit)
  have hsame : ({ d with slots := d.slots.set index (first :: ([] ++ next)) } : Dict κ δ) = d := by
    rw [List.nil_append, ← hchain, set_eq_self hfound]
  have hfront : Accesses d key index
      ({ d with slots := d.slots.set index (first :: ([] ++ next)) }, some first) :=
    .found hsplit (List.forall_mem_nil _) hequals
  rwa [hsame] at hfront

theorem Accesses.behind {d : Dict κ δ} {key : κ} {index : Nat} {first : Entry κ δ}
    {next : List (Entry κ δ)} (hchain : chain d.slots index = first :: next)
    (hdiffers : ¬d.keyType.equals first.key key) :
    Accesses d key index (searchChain d index key first next) := by
  rw [searchChain]
  cases htake : takeMatch (d.keyType.equals · key) next with
  | none => exact .nothing
  | some taken =>
      obtain ⟨e, rest⟩ := taken
      obtain ⟨before, after, rfl, rfl, hequals, hbefore⟩ := takeMatch_split htake
      have hsplit : chain d.slots index = (first :: before) ++ e :: after := hchain
      exact .found hsplit (List.forall_mem_cons.mpr ⟨hdiffers, hbefore⟩) hequals

theorem Accesses.counted {d : Dict κ δ} {key : κ} {index : Nat}
    {result : Dict κ δ × Option (Entry κ δ)} (haccess : Accesses d key index result)
    (hcounted : d.Counted) : result.1.Counted := by
  cases haccess with
  | nothing => exact hcounted
  | @found front rest e hchain hdiffers hequals =>
      rw [Dict.Counted, Dict.entries, (flatten_set_perm (moved_perm hchain)).length_eq]
      exact hcounted

theorem LooksThrough.length_eq {equals : κ → Bool} {front rest : List (Entry κ (Addr × δ))}
    {e : Entry κ (Addr × δ)} {found : Option Addr} {seen : List Addr}
    (hlooks : LooksThrough equals (front ++ e :: rest) found seen)
    (hdiffers : ∀ x ∈ front, ¬equals x.key) (hequals : equals e.key = true) :
    seen.length = front.length + 1 := by
  induction front generalizing seen with
  | nil =>
      cases hlooks with
      | found => rfl
      | next hnot => exact absurd hequals hnot
  | cons first front ih =>
      obtain ⟨hfirst, hothers⟩ := List.forall_mem_cons.mp hdiffers
      cases hlooks with
      | found hmatch => exact absurd hmatch hfirst
      | next hnot hrest => rw [List.length_cons, ih hrest hothers, List.length_cons]

/-! ### The search in memory -/

section Memory

variable {m : EntryMemory κ δ} {h : Table κ} {d : Dict κ (Addr × δ)} {key : κ}

theorem Lays.exists_accesses (hlays : Lays m h d) (hash : Nat) (key : κ) :
    ∃ result, Accesses d key hash result ∧ ∃ m' h', Table.searchSlot m h hash key
        = some (m', h', result.2.map fun e => (locate e).1) ∧ Lays m' h' result.1 := by
  have hsearch := hlays.searchSlot hash key
  cases hchain : chain d.slots hash with
  | nil =>
      rw [hchain] at hsearch
      obtain ⟨m', h', hrun, hlays', -⟩ := hsearch
      exact ⟨(d, none), .nothing, m', h', hrun, hlays'⟩
  | cons first next =>
      rw [hchain] at hsearch
      dsimp only at hsearch
      by_cases hequals : d.keyType.equals first.key key = true
      · rw [if_pos hequals] at hsearch
        obtain ⟨m', h', hrun, hlays', -⟩ := hsearch
        exact ⟨(d, some first), .first hchain hequals, m', h', hrun, hlays'⟩
      · rw [if_neg hequals] at hsearch
        obtain ⟨m', h', hrun, hlays', -⟩ := hsearch
        exact ⟨_, .behind hchain hequals, m', h', hrun, hlays'⟩

theorem Lays.searchSlot_accesses (hlays : Lays m h d) (hash : Nat) (key : κ) :
    ∃ m' h' result seen, Table.searchSlotSeen m h hash key
        = some ((m', h', result.2.map fun e => (locate e).1), seen) ∧
      Lays m' h' result.1 ∧ h'.num = h.num ∧ h'.hashsize = h.hashsize ∧
      Accesses d key hash result ∧ LooksThrough (d.keyType.equals · key) (chain d.slots hash)
        (result.2.map fun e => (locate e).1) seen := by
  obtain ⟨result, haccess, m', h', hsearch, hlays'⟩ := hlays.exists_accesses hash key
  obtain ⟨hnum, hsize⟩ := Table.searchSlot_keeps hsearch
  rw [← Table.searchSlotSeen_fst] at hsearch
  obtain ⟨⟨answer, seen⟩, hseen, hanswer⟩ := Option.map_eq_some_iff.mp hsearch
  dsimp only at hanswer
  subst hanswer
  have hlooks := searchSlotSeen_looks (hlays.segment hash) hseen
  rw [hlays.keyType_eq] at hlooks
  exact ⟨m', h', result, seen, hseen, hlays', hnum, hsize, haccess, hlooks⟩

end Memory

/-! ### `dict_do_lookup` -/

namespace Table

/-- `dict_do_lookup`, and the entries whose keys it compares. -/
def dictDoLookupSeen (m : EntryMemory κ δ) (h : Table κ) (key : κ) :
    Option ((EntryMemory κ δ × Table κ × Option Addr) × List Addr) :=
  if h.num = 0 then some ((m, h, none), [])
  else do
    let ohash := h.keyType.hash key
    let hash := slotIndex ohash h.hashsize
    match ← checkFirst m h hash key with
    | .found e => some ((m, h, some e), [e])
    | .rest none => some ((m, h, none), (h.slot hash).toList)
    | .rest (some e) =>
        let num3 ← int (h.num * 3)
        let hashsize2 ← int (h.hashsize * 2)
        let first := (h.slot hash).toList
        if num3 ≥ hashsize2 then
          let newsize ← newSizeLoop num3 (num3 + 1) h.hashsize
          let (m, h) ← dictExpand m h newsize
          let (result, seen) ← searchSlotSeen m h (slotIndex ohash h.hashsize) key
          some (result, first ++ seen)
        else
          let (result, seen) ← searchChainSeen hash key m.fresh m h (h.slot hash) (some e)
          some (result, first ++ seen)

variable {m : EntryMemory κ δ} {h : Table κ} {key : κ}

theorem dictDoLookupSeen_fst (m : EntryMemory κ δ) (h : Table κ) (key : κ) :
    (dictDoLookupSeen m h key).map Prod.fst = dictDoLookup m h key := by
  rw [dictDoLookupSeen, dictDoLookup]
  split
  · rfl
  · dsimp only
    cases checkFirst m h (slotIndex (h.keyType.hash key) h.hashsize) key with
    | none => rfl
    | some first =>
        cases first with
        | found e => rfl
        | rest e =>
            cases e with
            | none => rfl
            | some e =>
                simp only [Option.bind_eq_bind, Option.bind_some]
                cases int (h.num * 3) with
                | none => rfl
                | some num3 =>
                    cases int (h.hashsize * 2) with
                    | none => rfl
                    | some hashsize2 =>
                        simp only [Option.bind_some]
                        split
                        · simp only [← searchSlotSeen_fst, Option.map_eq_bind, Option.bind_assoc,
                            Option.bind_some, Function.comp_def]
                        · simp only [← searchChainSeen_fst, Option.map_eq_bind, Option.bind_assoc,
                            Option.bind_some, Function.comp_def]

theorem dictDoLookupSeen_room (hpos : h.num ≠ 0) (hnum : h.num < 2 ^ 28)
    (hsize : h.hashsize * 2 < 2 ^ 31) (hroom : h.num * 3 < h.hashsize * 2) :
    dictDoLookupSeen m h key
      = searchSlotSeen m h (slotIndex (h.keyType.hash key) h.hashsize) key := by
  rw [dictDoLookupSeen, searchSlotSeen, if_neg hpos]
  dsimp only
  cases checkFirst m h (slotIndex (h.keyType.hash key) h.hashsize) key with
  | none => rfl
  | some first =>
      cases first with
      | found e => rfl
      | rest e =>
          cases e with
          | none =>
              simp only [Option.bind_eq_bind, Option.bind_some, searchChainSeen, List.append_nil]
          | some e =>
              simp only [Option.bind_eq_bind, Option.bind_some, int_eq (by omega : h.num * 3 < 2 ^ 31),
                int_eq hsize, if_neg (Nat.not_le.mpr hroom)]

/-- Lookups one after another: what each one finds and how many keys it compares. -/
def lookups (m : EntryMemory κ δ) (h : Table κ) :
    List κ → Option (EntryMemory κ δ × Table κ × List (Option Addr × Nat))
  | [] => some (m, h, [])
  | key :: keys => do
      let ((m, h, found), seen) ← dictDoLookupSeen m h key
      let (m, h, others) ← lookups m h keys
      some (m, h, (found, seen.length) :: others)

end Table

/-! ### Runs of lookups -/

/-- How many keys are compared by the lookups that find something. -/
def comparedKeys : List (Option Addr × Nat) → Nat
  | [] => 0
  | (none, _) :: others => comparedKeys others
  | (some _, compared) :: others => compared + comparedKeys others

/-- How many keys they compare where every chain stands in a fixed order: an entry of rank `n` is behind `n`
others. -/
def orderedKeys (rank : Addr → Nat) : List (Option Addr × Nat) → Nat
  | [] => 0
  | (none, _) :: others => orderedKeys rank others
  | (some e, _) :: others => rank e + 1 + orderedKeys rank others

def Dict.chainAddrs (d : Dict κ (Addr × δ)) : List (List Addr) := d.slots.map (addresses locate)

/-- Numbers for the places in an order: no two entries of a chain have the same. -/
def Dict.Ranks (d : Dict κ (Addr × δ)) (rank : Addr → Nat) : Prop :=
  ∀ index, ((addresses locate (chain d.slots index)).map rank).Nodup

theorem Accesses.ranks_iff {d : Dict κ (Addr × δ)} {key : κ} {index : Nat}
    {result : Dict κ (Addr × δ) × Option (Entry κ (Addr × δ))} (haccess : Accesses d key index result)
    {rank : Addr → Nat} : result.1.Ranks rank ↔ d.Ranks rank := by
  cases haccess with
  | nothing => exact Iff.rfl
  | @found front rest e hchain hdiffers hequals =>
      refine forall_congr' fun other => ?_
      rw [chain_set (lt_length_of_mem_chain (mem_chain_of_eq hchain))]
      split
      · rename_i heq
        rw [← heq]
        exact ((addresses_perm (moved_perm hchain)).map rank).nodup_iff
      · exact Iff.rfl

theorem Accesses.totalDisorder_le {d : Dict κ (Addr × δ)} {key : κ} {index : Nat}
    {result : Dict κ (Addr × δ) × Option (Entry κ (Addr × δ))} (haccess : Accesses d key index result)
    {seen : List Addr} (hlooks : LooksThrough (d.keyType.equals · key) (chain d.slots index)
      (result.2.map fun e => (locate e).1) seen) {rank : Addr → Nat} (hranks : d.Ranks rank) :
    comparedKeys [(result.2.map fun e => (locate e).1, seen.length)] +
        totalDisorder rank result.1.chainAddrs
      ≤ 2 * orderedKeys rank [(result.2.map fun e => (locate e).1, seen.length)] +
        totalDisorder rank d.chainAddrs := by
  cases haccess with
  | nothing => simp [comparedKeys, orderedKeys]
  | @found front rest e hchain hdiffers hequals =>
      rw [hchain] at hlooks
      have hlength := hlooks.length_eq hdiffers hequals
      have hold : d.chainAddrs[index]? = some (addresses locate (front ++ e :: rest)) := by
        rw [Dict.chainAddrs, List.getElem?_map, getElem?_of_mem_chain (mem_chain_of_eq hchain),
          Option.map_some, hchain]
      have hranked := hranks index
      rw [hchain] at hranked
      have hmoved : ({ d with slots := d.slots.set index (e :: (front ++ rest)) } :
          Dict κ (Addr × δ)).chainAddrs
          = d.chainAddrs.set index (addresses locate (e :: (front ++ rest))) := List.map_set ..
      have hset : totalDisorder rank (d.chainAddrs.set index
            (addresses locate (e :: (front ++ rest)))) +
          disorder rank (addresses locate (front ++ e :: rest))
          = totalDisorder rank d.chainAddrs +
            disorder rank (addresses locate (e :: (front ++ rest))) := totalDisorder_set hold _
      rw [addresses_append, addresses_cons] at hranked hset
      rw [addresses_cons, addresses_append] at hset hmoved
      have hfront : (addresses locate front).length = front.length := List.length_map ..
      have hcost := access_le hranked
      rw [hmoved]
      simp only [Option.map_some, comparedKeys, orderedKeys, hlength]
      omega

section Runs

variable {m : EntryMemory κ δ} {h : Table κ} {d : Dict κ (Addr × δ)}

theorem comparedKeys_cons (found : Option Addr × Nat) (others : List (Option Addr × Nat)) :
    comparedKeys (found :: others) = comparedKeys [found] + comparedKeys others := by
  obtain ⟨_ | e, compared⟩ := found
  · simp only [comparedKeys, Nat.zero_add]
  · simp only [comparedKeys, Nat.add_zero]

theorem orderedKeys_cons (rank : Addr → Nat) (found : Option Addr × Nat)
    (others : List (Option Addr × Nat)) :
    orderedKeys rank (found :: others) = orderedKeys rank [found] + orderedKeys rank others := by
  obtain ⟨_ | e, compared⟩ := found
  · simp only [orderedKeys, Nat.zero_add]
  · simp only [orderedKeys, Nat.add_zero]

theorem Lays.lookups_room (hlays : Lays m h d) (hcounted : d.Counted) (hpos : h.num ≠ 0)
    (hnum : h.num < 2 ^ 28) (hsize : h.hashsize * 2 < 2 ^ 31) (hroom : h.num * 3 < h.hashsize * 2)
    (keys : List κ) :
    ∃ m' h' d' found, Table.lookups m h keys = some (m', h', found) ∧ Lays m' h' d' ∧
      ∀ rank, d'.Ranks rank → d.Ranks rank ∧ comparedKeys found
        ≤ 2 * orderedKeys rank found + totalDisorder rank d.chainAddrs := by
  induction keys generalizing m h d with
  | nil => exact ⟨m, h, d, [], rfl, hlays, fun rank hranks => ⟨hranks, Nat.zero_le _⟩⟩
  | cons key keys ih =>
      obtain ⟨m₁, h₁, result, seen, hseen, hlays₁, hnum₁, hsize₁, haccess, hlooks⟩ :=
        hlays.searchSlot_accesses (slotIndex (h.keyType.hash key) h.hashsize) key
      obtain ⟨m', h', d', found, hothers, hlays', hle⟩ := ih hlays₁ (haccess.counted hcounted)
        (hnum₁ ▸ hpos) (hnum₁ ▸ hnum) (hsize₁ ▸ hsize) (by rw [hnum₁, hsize₁]; exact hroom)
      refine ⟨m', h', d', (result.2.map fun e => (locate e).1, seen.length) :: found, ?_, hlays', ?_⟩
      · simp only [Table.lookups, Table.dictDoLookupSeen_room hpos hnum hsize hroom, hseen, hothers,
          Option.bind_eq_bind, Option.bind_some]
      · intro rank hranks'
        obtain ⟨hranks₁, hrest⟩ := hle rank hranks'
        have hranks := haccess.ranks_iff.mp hranks₁
        have hfirst := haccess.totalDisorder_le hlooks hranks
        refine ⟨hranks, ?_⟩
        rw [comparedKeys_cons, orderedKeys_cons]
        omega

theorem Lays.totalDisorder_le (hlays : Lays m h d) (hcounted : d.Counted) (rank : Addr → Nat) :
    totalDisorder rank d.chainAddrs ≤ h.num * h.num := by
  have hflatten : d.chainAddrs.flatten = addresses locate d.entries := List.map_flatten.symm
  have hentries : d.chainAddrs.flatten.length = h.num := by
    rw [hflatten, addresses, List.length_map, hlays.num_eq, hcounted]
  have hbound := MoveToFront.totalDisorder_le rank d.chainAddrs
  rwa [hentries] at hbound

theorem Lays.lookupSeen_grows (hlays : Lays m h d) (hcounted : d.Counted) (hpos : h.num ≠ 0)
    (hnum : h.num < 2 ^ 28) (htable : IsTableSize h.hashsize)
    (hfull : h.num * 3 ≥ h.hashsize * 2) {key : κ} {e : Addr}
    (hfirst : Table.checkFirst m h (slotIndex (h.keyType.hash key) h.hashsize) key
      = some (.rest (some e))) :
    ∃ m' h' d₁ hash result first seen, Table.dictDoLookupSeen m h key
        = some ((m', h', result.2.map fun e => (locate e).1), first ++ seen) ∧
      first.length ≤ 1 ∧ Lays m' h' result.1 ∧ d₁.Counted ∧ h'.num = h.num ∧
      IsTableSize h'.hashsize ∧ h'.num * 3 < h'.hashsize * 2 ∧ Accesses d₁ key hash result ∧
      LooksThrough (d₁.keyType.equals · key) (chain d₁.slots hash)
        (result.2.map fun e => (locate e).1) seen ∧
      ∀ rank, totalDisorder rank d₁.chainAddrs ≤ h.num * h.num := by
  obtain ⟨m', h', found, newsize, m₁, h₁, newChain, seen, -, hsame, hroom, hgrows⟩ :=
    hlays.lookup_grows hnum (Nat.pos_of_ne_zero hpos) htable.pos hfull hfirst
  have hlarger : d.hashsize < newsize := hlays.hashsize_eq ▸ hgrows.larger
  obtain ⟨m₂, h₂, hexpand, hlays₁, -⟩ := hlays.dictExpand hlarger
  cases hgrows.expand.symm.trans hexpand
  obtain ⟨-, hnum₁, -⟩ := Table.dictExpand_num hgrows.expand
  have hcounted₁ : (CageKeeper.dictExpand d newsize).Counted := by
    rw [Dict.Counted, (Dict.dictExpand_slots d (Nat.zero_lt_of_lt hlarger)).1.length_eq]
    exact hcounted
  obtain ⟨m₂, h₂, result, others, hsearch, hlays₂, -, hsize₂, haccess, hlooks⟩ :=
    hlays₁.searchSlot_accesses (slotIndex (h.keyType.hash key) h₁.hashsize) key
  cases hgrows.search.symm.trans hsearch
  have hloop := hgrows.loop _ (Nat.lt_succ_self _)
  have htable' : IsTableSize h'.hashsize := by
    rw [hsize₂, hgrows.hashsize_eq]
    exact htable.newSizeLoop hloop
  refine ⟨m', h', _, _, result, (h.slot (slotIndex (h.keyType.hash key) h.hashsize)).toList, seen,
    ?_, ?_, hlays₂, hcounted₁, hsame, htable', hroom, haccess, hlooks, fun rank => ?_⟩
  · rw [Table.dictDoLookupSeen, if_neg hpos]
    simp only [hfirst, int_eq (by omega : h.num * 3 < 2 ^ 31),
      int_eq (by omega : h.hashsize * 2 < 2 ^ 31), if_pos hfull, hloop, hgrows.expand, hsearch,
      Option.bind_eq_bind, Option.bind_some]
  · cases h.slot (slotIndex (h.keyType.hash key) h.hashsize) with
    | none => exact Nat.zero_le 1
    | some e => exact Nat.le_refl 1
  · have hbound := hlays₁.totalDisorder_le hcounted₁ rank
    rwa [hnum₁] at hbound

/-- The table has not enough room. Until it grows, the lookups find the first entry of a chain or nothing. The
induction is on the lookups to come. -/
theorem Lays.lookups_full (hlays : Lays m h d) (hcounted : d.Counted) (hpos : h.num ≠ 0)
    (hnum : h.num < 2 ^ 28) (htable : IsTableSize h.hashsize)
    (hfull : h.num * 3 ≥ h.hashsize * 2) (keys : List κ) :
    ∃ m' h' d' found, Table.lookups m h keys = some (m', h', found) ∧ Lays m' h' d' ∧
      ∀ rank, d'.Ranks rank → comparedKeys found
        ≤ 2 * orderedKeys rank found + (h.num * h.num + 1) := by
  induction keys with
  | nil => exact ⟨m, h, d, [], rfl, hlays, fun rank hranks => Nat.zero_le _⟩
  | cons key keys ih =>
      obtain ⟨first, hfirst⟩ : ∃ first, Table.checkFirst m h
          (slotIndex (h.keyType.hash key) h.hashsize) key = some first := ⟨_, hlays.checkFirst _ _⟩
      cases first with
      | found e =>
          obtain ⟨m', h', d', found, hothers, hlays', hle⟩ := ih
          refine ⟨m', h', d', (some e, 1) :: found, ?_, hlays', fun rank hranks => ?_⟩
          · simp only [Table.lookups, Table.dictDoLookupSeen, if_neg hpos, hfirst, hothers,
              Option.bind_eq_bind, Option.bind_some, List.length_singleton]
          · have hrest := hle rank hranks
            simp only [comparedKeys, orderedKeys]
            omega
      | rest e =>
          cases e with
          | none =>
              obtain ⟨m', h', d', found, hothers, hlays', hle⟩ := ih
              refine ⟨m', h', d', (none, (h.slot (slotIndex (h.keyType.hash key)
                h.hashsize)).toList.length) :: found, ?_, hlays', fun rank hranks => ?_⟩
              · simp only [Table.lookups, Table.dictDoLookupSeen, if_neg hpos, hfirst, hothers,
                  Option.bind_eq_bind, Option.bind_some]
              · exact hle rank hranks
          | some e =>
              obtain ⟨m₁, h₁, d₁, hash, result, front, seen, hseen, hfront, hlays₁, hcounted₁, hnum₁,
                htable₁, hroom₁, haccess, hlooks, hdisorder⟩ :=
                hlays.lookupSeen_grows hcounted hpos hnum htable hfull hfirst
              obtain ⟨m', h', d', found, hothers, hlays', hle⟩ := hlays₁.lookups_room
                (haccess.counted hcounted₁) (hnum₁ ▸ hpos) (hnum₁ ▸ hnum) htable₁.lt hroom₁ keys
              refine ⟨m', h', d', (result.2.map fun e => (locate e).1, (front ++ seen).length) :: found,
                ?_, hlays', fun rank hranks' => ?_⟩
              · simp only [Table.lookups, hseen, hothers, Option.bind_eq_bind, Option.bind_some]
              · obtain ⟨hranks₁, hrest⟩ := hle rank hranks'
                have hstep := haccess.totalDisorder_le hlooks (haccess.ranks_iff.mp hranks₁)
                have hbound := hdisorder rank
                rw [comparedKeys_cons, orderedKeys_cons]
                rw [List.length_append]
                cases hfound : result.2 with
                | none =>
                    simp only [hfound, Option.map_none, comparedKeys, orderedKeys] at hstep ⊢
                    omega
                | some e =>
                    simp only [hfound, Option.map_some, comparedKeys, orderedKeys] at hstep ⊢
                    omega

theorem Table.lookups_empty (hzero : h.num = 0) (keys : List κ) :
    ∃ found, Table.lookups m h keys = some (m, h, found) ∧ comparedKeys found = 0 := by
  induction keys with
  | nil => exact ⟨[], rfl, rfl⟩
  | cons key keys ih =>
      obtain ⟨found, hothers, hnone⟩ := ih
      refine ⟨(none, 0) :: found, ?_, hnone⟩
      simp only [Table.lookups, Table.dictDoLookupSeen, if_pos hzero, hothers, Option.bind_eq_bind,
        Option.bind_some, List.length_nil]

end Runs

/-- **Moving to the front.** Whatever is looked for and in whatever order, the lookups that find something
compare at most twice as many keys as they would if every chain stood in some fixed order, the best for these
lookups for instance, and on top of that one more than the square of the number of entries. The chains are
those of the table as it is then, for it may grow once. -/
theorem Tables.Reached.lookups_le [DecidableEq δ] {w : Tables κ δ} {cleared : List Nat}
    (hreached : w.Reached cleared) {table : Nat} {h : Table κ} (hw : w.tables[table]? = some h)
    (hnum : h.num < 2 ^ 28) (keys : List κ) :
    ∃ m' h' d' found, Table.lookups w.memory h keys = some (m', h', found) ∧ Lays m' h' d' ∧
      ∀ rank, d'.Ranks rank → comparedKeys found
        ≤ 2 * orderedKeys rank found + (h.num * h.num + 1) := by
  obtain ⟨views, hkept⟩ := hreached.kept
  obtain ⟨d, hd, hlays⟩ := hkept.laid.get hw
  have hcounted := hkept.counted d (List.mem_of_getElem? hd)
  by_cases hzero : h.num = 0
  · obtain ⟨found, hfound, hnone⟩ := Table.lookups_empty hzero keys
    exact ⟨_, _, d, found, hfound, hlays, fun rank _ => hnone ▸ Nat.zero_le _⟩
  · have htable : IsTableSize h.hashsize := by
      have hsize := hkept.size table h hw
      rwa [if_neg fun hcleared => hzero (hkept.num_eq_zero hw hcleared)] at hsize
    rcases Nat.lt_or_ge (h.num * 3) (h.hashsize * 2) with hroom | hfull
    · obtain ⟨m', h', d', found, hfound, hlays', hle⟩ :=
        hlays.lookups_room hcounted hzero hnum htable.lt hroom keys
      refine ⟨m', h', d', found, hfound, hlays', fun rank hranks' => ?_⟩
      obtain ⟨-, hcompared⟩ := hle rank hranks'
      have hbound := hlays.totalDisorder_le hcounted rank
      omega
    · exact hlays.lookups_full hcounted hzero hnum htable hfull keys

/-- The table grows at the first lookup. -/
theorem lookups_le_twiceDefined :
    ∃ (w : Tables (Option CString) Nat) (h : Table (Option CString)), w.Reached [] ∧
      w.tables[0]? = some h ∧ h.num = 3 ∧ h.hashsize = 1 ∧ ∃ m' h' found,
      Table.lookups w.memory h [some (.lit "f"), some (.lit "g"), some (.lit "f")]
        = some (m', h', found) ∧
      comparedKeys found ≤ 2 * orderedKeys (fun e => e) found + (3 * 3 + 1) := by
  have hused : ((Tables.start charptrType 1).use twiceDefinedOps).bind (fun w =>
      (w.tables[0]?).map fun h => (h.num, h.hashsize)) = some (3, 1) := by
    decide +kernel
  obtain ⟨w, huse, htable⟩ := Option.bind_eq_some_iff.mp hused
  obtain ⟨h, hw, hnumbers⟩ := Option.map_eq_some_iff.mp htable
  obtain ⟨hnum, hsize⟩ := Prod.mk.inj hnumbers
  have hreached := twiceDefined_reached huse
  obtain ⟨m', h', d', found, hfound, hlays, hle⟩ := hreached.lookups_le hw (by rw [hnum]; decide)
    [some (.lit "f"), some (.lit "g"), some (.lit "f")]
  refine ⟨w, h, hreached, hw, hnum, hsize, m', h', found, hfound, ?_⟩
  have hbound := hle (fun e => e) fun index => by
    rw [List.map_id']
    exact hlays.nodup_chain index
  rwa [hnum] at hbound

end CageKeeper
