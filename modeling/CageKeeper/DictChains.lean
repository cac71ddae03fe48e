import CageKeeper.DictMemory

/-! The table in memory does what the table of lists does. A list of entries that carry their
addresses describes what is found along a chain; each operation in memory takes a described table to
one described by the result of the operation on lists, and touches no other entry. -/

namespace CageKeeper
open LinkedCells

variable {κ δ σ : Type}

/-! ### Descriptions -/

/-- The address of a described entry and what is there. -/
def locate (e : Entry κ (Addr × δ)) : Addr × Entry κ δ := (e.data.1, ⟨e.key, e.hash, e.data.2⟩)

@[simp] theorem locate_key (e : Entry κ (Addr × δ)) : (locate e).2.key = e.key := rfl

@[simp] theorem locate_hash (e : Entry κ (Addr × δ)) : (locate e).2.hash = e.hash := rfl

@[simp] theorem locate_data (e : Entry κ (Addr × δ)) : (locate e).2.data = e.data.2 := rfl

namespace Dict

/-- The addresses of all described entries. -/
def addrs (d : Dict κ (Addr × δ)) : List Addr := addresses locate d.entries

theorem addrs_perm {d d' : Dict κ (Addr × δ)} (hperm : d'.entries.Perm d.entries) :
    d'.addrs.Perm d.addrs :=
  addresses_perm hperm

end Dict

/-- The entries of a table are where a description says, each at one place. -/
structure Lays (m : EntryMemory κ δ) (h : Table κ) (d : Dict κ (Addr × δ)) : Prop where
  keyType_eq : h.keyType = d.keyType
  num_eq : h.num = d.num
  chains : Chains locate m h.slots d.slots
  nodup : d.addrs.Nodup

namespace Lays

variable {m m' : EntryMemory κ δ} {h : Table κ} {d : Dict κ (Addr × δ)}

theorem hashsize_eq (hlays : Lays m h d) : h.hashsize = d.hashsize := hlays.chains.length_eq

theorem segment (hlays : Lays m h d) (hash : Nat) :
    Segment locate m (h.slot hash) (chain d.slots hash) none :=
  hlays.chains.getD hash

theorem nodup_chain (hlays : Lays m h d) (hash : Nat) :
    (addresses locate (chain d.slots hash)).Nodup :=
  LinkedCells.nodup_chain hlays.nodup hash

theorem length_chain_le (hlays : Lays m h d) (hash : Nat) :
    (chain d.slots hash).length ≤ m.fresh :=
  (hlays.segment hash).length_le (hlays.nodup_chain hash)

theorem addrs_lt (hlays : Lays m h d) {a : Addr} (ha : a ∈ d.addrs) : a < m.fresh :=
  hlays.chains.lt_fresh ha

theorem cell_eq (hlays : Lays m h d) {e : Entry κ (Addr × δ)} (hmem : e ∈ d.entries) :
    ∃ next, m.cell (locate e).1 = some ⟨(locate e).2, next⟩ := by
  obtain ⟨hash, hchain⟩ := mem_flatten_iff_mem_chain.mp hmem
  exact (hlays.segment hash).cell_eq hchain

theorem frame (hlays : Lays m h d) {addrs : List Addr} (hsame : Memory.SameOutside addrs m m')
    (hapart : ∀ a ∈ d.addrs, a ∉ addrs) : Lays m' h d :=
  ⟨hlays.keyType_eq, hlays.num_eq, hlays.chains.frame hsame hapart, hlays.nodup⟩

end Lays

/-- A loop along a chain has a turn for its first entry, and enough for the others. -/
theorem exists_turns {α : Type} {x : α} {xs : List α} {turns : Nat}
    (h : (x :: xs).length ≤ turns) : ∃ others, turns = others + 1 ∧ xs.length ≤ others := by
  rw [List.length_cons] at h
  exact ⟨turns - 1, by omega, by omega⟩

/-! ### Growing -/

section Expand

variable {newlen : Nat}

theorem chains_pushFront {m m' : EntryMemory κ δ} {slots : List (Option Addr)}
    {chains : List (List (Entry κ (Addr × δ)))} (hchains : Chains locate m slots chains)
    {index : Nat} {e : Entry κ (Addr × δ)} (hapart : (locate e).1 ∉ addresses locate chains.flatten)
    (hsame : Memory.SameOutside [(locate e).1] m m')
    (hcell : m'.cell (locate e).1 = some ⟨(locate e).2, slots.getD index none⟩) :
    Chains locate m' (slots.set index (some (locate e).1)) (pushFront chains index e) := by
  rw [pushFront_eq_set]
  refine hchains.set hsame (fun other _ a ha hmem => ?_) ?_
  · rw [List.mem_singleton.mp hmem] at ha
    exact hapart (addresses_subset_flatten chains other ha)
  · exact (hchains.getD index).push hsame hcell fun hmem =>
      hapart (addresses_subset_flatten chains index hmem)

theorem expandChain_lays (hpos : 0 < newlen) {m : EntryMemory κ δ} {e : Option Addr}
    {moved : List (Entry κ (Addr × δ))} (hsegment : Segment locate m e moved none)
    {newslots : List (Option Addr)} {chains : List (List (Entry κ (Addr × δ)))}
    (hchains : Chains locate m newslots chains) (hlength : chains.length = newlen)
    (hnodup : (addresses locate (moved ++ chains.flatten)).Nodup) {turns : Nat}
    (hturns : moved.length ≤ turns) :
    ∃ m' newslots', Table.expandChain newlen turns m newslots e = some (m', newslots') ∧
      Chains locate m' newslots' (moved.foldl
        (fun newslots e => pushFront newslots (slotIndex e.hash newlen) e) chains) ∧
      Memory.SameOutside (addresses locate moved) m m' := by
  induction moved generalizing m e newslots chains turns with
  | nil =>
      obtain rfl : e = none := hsegment
      exact ⟨m, newslots, by rw [Table.expandChain], hchains, .refl _ _⟩
  | cons entry moved ih =>
      obtain ⟨rfl, next, hcell, hrest⟩ := hsegment
      obtain ⟨turns, rfl, hothers⟩ := exists_turns hturns
      have hindex : slotIndex entry.hash newlen < chains.length := by
        rw [hlength]
        exact Nat.mod_lt _ hpos
      have hperm := (flatten_pushFront_perm entry hindex).append_left moved
      obtain ⟨m₁, hset, hwritten⟩ := Memory.setNext_eq hcell
        (newslots.getD (slotIndex entry.hash newlen) none)
      have hmoved : (addresses locate (moved ++ (pushFront chains (slotIndex entry.hash newlen)
          entry).flatten)).Nodup :=
        (addresses_perm (hperm.trans List.perm_middle)).nodup_iff.mpr hnodup
      rw [List.cons_append, addresses_cons, List.nodup_cons, addresses_append, List.mem_append,
        not_or] at hnodup
      have hfirst := hnodup.1
      obtain ⟨m', newslots', hloop, hchains', hsame⟩ := ih
        (hrest.written hwritten hfirst.1)
        (chains_pushFront hchains hfirst.2 (hwritten.sameOutside (List.mem_singleton_self _))
          hwritten.cell_self)
        ((pushFront_length ..).trans hlength) hmoved hothers
      refine ⟨m', newslots', ?_, hchains', ?_⟩
      · simp only [Table.expandChain, hcell, locate_hash, Option.bind_eq_bind, Option.bind_some,
          hset]
        exact hloop
      · exact (hwritten.sameOutside (List.mem_cons_self ..)).trans
          (hsame.mono fun a ha => List.mem_cons_of_mem _ ha)

theorem expandSlots_lays (hpos : 0 < newlen) {m : EntryMemory κ δ} {slots : List (Option Addr)}
    {moved : List (List (Entry κ (Addr × δ)))} (hmoved : Chains locate m slots moved)
    {newslots : List (Option Addr)} {chains : List (List (Entry κ (Addr × δ)))}
    (hchains : Chains locate m newslots chains) (hlength : chains.length = newlen)
    (hslot : ∀ index, ∀ e ∈ chain chains index, slotIndex e.hash newlen = index)
    (hnodup : (addresses locate (moved.flatten ++ chains.flatten)).Nodup) :
    ∃ m' newslots', Table.expandSlots newlen slots m newslots = some (m', newslots') ∧
      Chains locate m' newslots' (moved.flatten.foldl
        (fun newslots e => pushFront newslots (slotIndex e.hash newlen) e) chains) ∧
      Memory.SameOutside (addresses locate moved.flatten) m m' := by
  induction moved generalizing m slots newslots chains with
  | nil =>
      cases hmoved
      exact ⟨m, newslots, rfl, hchains, .refl _ _⟩
  | cons first moved ih =>
      cases hmoved with
      | @cons e _ slots _ hfirst hmoved =>
          rw [List.flatten_cons, List.append_assoc] at hnodup
          have hfirstNodup : (addresses locate (first ++ chains.flatten)).Nodup :=
            hnodup.sublist (((List.sublist_append_right _ _).append_left _).map _)
          obtain ⟨m₁, newslots₁, hloop, hchains₁, hsame₁⟩ :=
            expandChain_lays hpos hfirst hchains hlength hfirstNodup (hfirst.length_le
              (hfirstNodup.sublist ((List.sublist_append_left _ _).map _)))
          have hlength₁ := (Dict.foldl_pushFront_length newlen first chains).trans hlength
          obtain ⟨hperm, hslot₁⟩ := Dict.foldl_pushFront hpos first chains hlength hslot
          have hmoved₁ : Chains locate m₁ slots moved := by
            have hold : Chains locate m slots moved := hmoved
            refine hold.frame hsame₁ fun a ha hmem => ?_
            rw [addresses_append, addresses_append, List.nodup_append] at hnodup
            exact hnodup.2.2 a hmem a (List.mem_append_left _ ha) rfl
          have hperm₁ := (hperm.append_left moved.flatten).trans
            (List.perm_append_comm_assoc moved.flatten first chains.flatten)
          obtain ⟨m', newslots', hloops, hchains', hsame'⟩ := ih hmoved₁ hchains₁ hlength₁ hslot₁
            ((addresses_perm hperm₁).nodup_iff.mpr hnodup)
          refine ⟨m', newslots', ?_, ?_, ?_⟩
          · simp only [Table.expandSlots, hloop, Option.bind_eq_bind, Option.bind_some]
            exact hloops
          · rw [List.flatten_cons, List.foldl_append]
            exact hchains'
          · rw [List.flatten_cons, addresses_append]
            exact (hsame₁.mono fun a ha => List.mem_append_left _ ha).trans
              (hsame'.mono fun a ha => List.mem_append_right _ ha)

theorem chains_replicate (m : EntryMemory κ δ) (newlen : Nat) :
    Chains locate m (List.replicate newlen none) (List.replicate newlen []) := by
  induction newlen with
  | zero => exact .nil
  | succ newlen ih => exact .cons rfl ih

theorem lays_dictInit2 (m : EntryMemory κ δ) (type : HashType κ) (size : Nat) :
    Lays m (Table.dictInit2 type size) (dictInit2 type size) where
  keyType_eq := rfl
  num_eq := rfl
  chains := chains_replicate m size
  nodup := by
    rw [Dict.addrs, Dict.entries, dictInit2, List.flatten_replicate_nil]
    exact List.nodup_nil

theorem Lays.dictExpand {m : EntryMemory κ δ} {h : Table κ} {d : Dict κ (Addr × δ)}
    (hlays : Lays m h d) (hsize : d.hashsize < newlen) :
    ∃ m' h', Table.dictExpand m h newlen = some (m', h') ∧
      Lays m' h' (CageKeeper.dictExpand d newlen) ∧ Memory.SameOutside d.addrs m m' := by
  have hpos : 0 < newlen := Nat.zero_lt_of_lt hsize
  obtain ⟨m', newslots, hloop, hchains, hsame⟩ := expandSlots_lays hpos hlays.chains
    (chains_replicate m newlen) List.length_replicate
    (fun index e hmem => by
      rw [chain_replicate] at hmem
      cases hmem)
    (by
      rw [List.flatten_replicate_nil, List.append_nil]
      exact hlays.nodup)
  refine ⟨m', { h with slots := newslots }, ?_, ⟨hlays.keyType_eq, hlays.num_eq, hchains, ?_⟩,
    hsame⟩
  · rw [Table.dictExpand, if_pos (hlays.hashsize_eq ▸ hsize), hloop]
    rfl
  · exact (Dict.addrs_perm (Dict.dictExpand_slots d hpos).1).nodup_iff.mpr hlays.nodup

end Expand

/-! ### A new entry -/

theorem Lays.dictPut {m : EntryMemory κ δ} {h : Table κ} {d : Dict κ (Addr × δ)}
    (hlays : Lays m h d) (hcount : d.num + 1 < 2 ^ 31) (key : κ) (data : δ) :
    ∃ m' h' e, Table.dictPut m h key data = some (m', h', e) ∧
      Lays m' h' (CageKeeper.dictPut d key (e, data)) ∧ m.fresh ≤ e ∧
      Memory.SameOutside d.addrs m m' := by
  obtain ⟨m₁, h₁, d₁, hgrown, hgrownList, hlays₁, hsame₁, hkey, hnum, hpos⟩ :
      ∃ m₁ h₁ d₁, Table.expandEmpty m h = some (m₁, h₁) ∧
        (if d.hashsize = 0 then CageKeeper.dictExpand d 1 else d) = d₁ ∧ Lays m₁ h₁ d₁ ∧
        Memory.SameOutside d.addrs m m₁ ∧ d₁.keyType = d.keyType ∧ d₁.num = d.num ∧
        0 < d₁.hashsize := by
    rw [Table.expandEmpty, hlays.hashsize_eq]
    split
    · rename_i hempty
      obtain ⟨m₁, h₁, hexpand, hlays₁, hsame₁⟩ := hlays.dictExpand (hempty ▸ Nat.one_pos)
      exact ⟨m₁, h₁, _, hexpand, rfl, hlays₁, hsame₁, rfl, rfl, by rw [Dict.dictExpand_hashsize]; omega⟩
    · exact ⟨m, h, d, rfl, rfl, hlays, .refl _ _, rfl, rfl, by omega⟩
  have hslot : slotIndex (d.keyType.hash key) d₁.hashsize < d₁.slots.length := Nat.mod_lt _ hpos
  let e : Entry κ (Addr × δ) := ⟨d.keyType.dup key, d.keyType.hash key, (m₁.fresh, data)⟩
  let m' := (m₁.alloc ⟨(locate e).2,
    h₁.slot (slotIndex (d.keyType.hash key) d₁.hashsize)⟩).1
  have hfresh : (locate e).1 ∉ d₁.addrs := fun hmem => Nat.lt_irrefl _ (hlays₁.addrs_lt hmem)
  let slots := h₁.slots.set (slotIndex (d.keyType.hash key) d₁.hashsize) (some m₁.fresh)
  have hchains : Chains locate m' slots
      (pushFront d₁.slots (slotIndex (d.keyType.hash key) d₁.hashsize) e) :=
    chains_pushFront hlays₁.chains hfresh (Memory.alloc_sameOutside m₁ _ _)
      (Memory.alloc_cell m₁ _)
  have hput : CageKeeper.dictPut d key (m₁.fresh, data) = ⟨d.keyType,
      pushFront d₁.slots (slotIndex (d.keyType.hash key) d₁.hashsize) e, d.num + 1⟩ := by
    simp only [CageKeeper.dictPut, hgrownList, hkey, hnum, e]
  refine ⟨m', ⟨d.keyType, slots, d.num + 1⟩, m₁.fresh, ?_, ⟨?_, ?_, ?_, ?_⟩, hsame₁.fresh_le,
    hsame₁.trans (Memory.alloc_sameOutside m₁ _ _)⟩
  · have hnum₁ : int (h₁.num + 1) = some (d.num + 1) := by
      rw [hlays₁.num_eq, hnum]
      exact int_eq hcount
    simp only [Table.dictPut, hgrown, Option.bind_eq_bind, Option.bind_some, hnum₁,
      hlays₁.hashsize_eq, hlays.keyType_eq, hlays₁.keyType_eq, hkey]
    rfl
  · rw [hput]
  · rw [hput]
  · rw [hput]
    exact hchains
  · rw [hput]
    exact (addresses_perm (flatten_pushFront_perm e hslot)).nodup_iff.mpr
      (List.nodup_cons.mpr ⟨hfresh, hlays₁.nodup⟩)

/-! ### Lookup -/

/-- The pointer to the first entry of a list. -/
def headAddr (entries : List (Entry κ (Addr × δ))) : Option Addr :=
  entries.head?.map fun e => (locate e).1

namespace Lays

variable {m : EntryMemory κ δ} {h : Table κ} {d : Dict κ (Addr × δ)}

theorem slot_eq (hlays : Lays m h d) (hash : Nat) : h.slot hash = headAddr (chain d.slots hash) :=
  (hlays.segment hash).ptr_eq

theorem relink (hlays : Lays m h d) {m' : EntryMemory κ δ} {hash : Nat} {ptr : Option Addr}
    {slot : List (Entry κ (Addr × δ))}
    (hsame : Memory.SameOutside (addresses locate (chain d.slots hash)) m m')
    (hsegment : Segment locate m' ptr slot none) (num : Nat)
    (hnodup : (addresses locate (d.slots.set hash slot).flatten).Nodup) :
    Lays m' ⟨h.keyType, h.slots.set hash ptr, num⟩ ⟨d.keyType, d.slots.set hash slot, num⟩ :=
  ⟨hlays.keyType_eq, rfl, hlays.chains.update hlays.nodup hsame hsegment, hnodup⟩

theorem sameOutside_addrs {m' : EntryMemory κ δ} {hash : Nat}
    (hsame : Memory.SameOutside (addresses locate (chain d.slots hash)) m m') :
    Memory.SameOutside d.addrs m m' :=
  hsame.mono fun _ ha => addresses_subset_flatten d.slots hash ha

theorem searchChain (hlays : Lays m h d) (key : κ) {hash : Nat}
    {front rest : List (Entry κ (Addr × δ))} {last : Entry κ (Addr × δ)}
    (hchain : chain d.slots hash = front ++ [last] ++ rest) {turns : Nat}
    (hturns : rest.length ≤ turns) :
    let result : Dict κ (Addr × δ) × Option (Entry κ (Addr × δ)) :=
      match takeMatch (d.keyType.equals · key) rest with
      | none => (d, none)
      | some (e, others) =>
          ({ d with slots := d.slots.set hash (e :: (front ++ [last] ++ others)) }, some e)
    ∃ m' h', Table.searchChain hash key turns m h (some (locate last).1) (headAddr rest)
        = some (m', h', result.2.map fun e => (locate e).1) ∧
      Lays m' h' result.1 ∧ Memory.SameOutside d.addrs m m' := by
  induction rest generalizing front last turns with
  | nil => exact ⟨m, h, by rw [headAddr, List.head?_nil, Option.map_none, Table.searchChain]; rfl,
      hlays, .refl _ _⟩
  | cons e rest ih =>
      obtain ⟨turns, rfl, hothers⟩ := exists_turns hturns
      have hsegment := hlays.segment hash
      have hnodup := hlays.nodup_chain hash
      rw [hchain] at hsegment hnodup
      by_cases hequals : d.keyType.equals e.key key = true
      · obtain ⟨next, m₁, m', hcell, hset₁, hset₂, hsame, hmoved⟩ := hsegment.moveToFront hnodup
        have hperm : (e :: (front ++ [last] ++ rest)).Perm (chain d.slots hash) := by
          rw [hchain]
          exact List.perm_middle.symm
        have htake : takeMatch (d.keyType.equals · key) (e :: rest) = some (e, rest) := by
          rw [takeMatch, if_pos hequals]
        rw [htake]
        rw [← hchain] at hsame
        refine ⟨m', { h with slots := h.slots.set hash (some (locate e).1) }, ?_, ?_,
          sameOutside_addrs hsame⟩
        · simp only [Table.searchChain, headAddr, List.head?_cons, Option.map_some, hcell,
            locate_key, hlays.keyType_eq, hequals, if_true, Option.bind_eq_bind, Option.bind_some,
            hset₁, hset₂]
        · rw [hlays.num_eq]
          exact hlays.relink hsame hmoved d.num
            ((addresses_perm (flatten_set_perm hperm)).nodup_iff.mpr hlays.nodup)
      · have hsplit : chain d.slots hash = (front ++ [last]) ++ [e] ++ rest := by
          rw [hchain, List.append_assoc _ [e]]
          rfl
        obtain ⟨middle, -, -, next, hcell, hrest⟩ := segment_append.mp hsegment
        have hnext : next = headAddr rest := hrest.ptr_eq
        have hstep : Table.searchChain hash key (turns + 1) m h (some (locate last).1)
              (headAddr (e :: rest))
            = Table.searchChain hash key turns m h (some (locate e).1) (headAddr rest) := by
          simp only [Table.searchChain, headAddr, List.head?_cons, Option.map_some, hcell,
            locate_key, hlays.keyType_eq, hequals, Bool.false_eq_true, if_false,
            Option.bind_eq_bind, Option.bind_some, hnext]
        rw [hstep, takeMatch, if_neg hequals]
        have hsearch := ih hsplit hothers
        cases hfound : takeMatch (d.keyType.equals · key) rest with
        | none =>
            rw [hfound] at hsearch
            exact hsearch
        | some taken =>
            obtain ⟨found, others⟩ := taken
            have happend : front ++ [last] ++ [e] ++ others = front ++ [last] ++ e :: others := by
              rw [List.append_assoc _ [e]]
              rfl
            simp only [hfound, happend] at hsearch
            exact hsearch

theorem checkFirst (hlays : Lays m h d) (hash : Nat) (key : κ) :
    Table.checkFirst m h hash key = some (match chain d.slots hash with
      | [] => .rest none
      | first :: next =>
          if d.keyType.equals first.key key then .found (locate first).1
          else .rest (headAddr next)) := by
  have hsegment := hlays.segment hash
  rw [Table.checkFirst, hlays.slot_eq, hlays.keyType_eq]
  cases hchain : chain d.slots hash with
  | nil => rfl
  | cons first next =>
      rw [hchain] at hsegment
      obtain ⟨-, ptr, hcell, hrest⟩ := hsegment
      simp only [headAddr, List.head?_cons, Option.map_some, hcell, Option.bind_eq_bind,
        Option.bind_some, locate_key]
      rw [show ptr = headAddr next from hrest.ptr_eq]
      exact (apply_ite some _ _ _).symm

theorem searchSlot (hlays : Lays m h d) (hash : Nat) (key : κ) :
    let result := match chain d.slots hash with
      | [] => (d, none)
      | first :: next =>
          if d.keyType.equals first.key key then (d, some first)
          else CageKeeper.searchChain d hash key first next
    ∃ m' h', Table.searchSlot m h hash key = some (m', h', result.2.map fun e => (locate e).1) ∧
      Lays m' h' result.1 ∧ Memory.SameOutside d.addrs m m' := by
  have hslot := hlays.slot_eq hash
  have hlength := hlays.length_chain_le hash
  rw [Table.searchSlot, hlays.checkFirst]
  cases hchain : chain d.slots hash with
  | nil =>
      refine ⟨m, h, ?_, hlays, .refl _ _⟩
      simp only [Option.bind_eq_bind, Option.bind_some, Table.searchChain, Option.map_none]
  | cons first next =>
      rw [hchain] at hslot hlength
      by_cases hfirst : d.keyType.equals first.key key = true
      · simp only [if_pos hfirst]
        exact ⟨m, h, rfl, hlays, .refl _ _⟩
      · have hsplit : chain d.slots hash = [] ++ [first] ++ next := hchain
        have hsearch := hlays.searchChain key hsplit (Nat.le_of_succ_le hlength)
        simp only [if_neg hfirst, hslot, CageKeeper.searchChain, Option.bind_eq_bind,
          Option.bind_some]
        cases hfound : takeMatch (d.keyType.equals · key) next with
        | none =>
            rw [hfound] at hsearch
            exact hsearch
        | some taken =>
            rw [hfound] at hsearch
            exact hsearch

end Lays

theorem newSizeLoop_eq {num : Nat} (hnum : num < 2 ^ 28) {turns turns' newsize : Nat}
    (hsize : newsize ≤ 3 * 2 ^ 28 + 1) (hpos : 0 < turns) (hturns : num * 2 + 1 < turns + newsize)
    (hturns' : num * 2 < turns' + newsize) :
    Table.newSizeLoop (num * 3) turns newsize = some (newSizeLoop num turns' newsize) := by
  induction turns generalizing turns' newsize with
  | zero => cases hpos
  | succ turns ih =>
      have htwice : int (newsize * 2) = some (newsize * 2) := int_eq (by omega)
      simp only [Table.newSizeLoop, htwice, Option.bind_eq_bind, Option.bind_some]
      split
      · rename_i hfull
        have hnext : Table.nextSize newsize
            = some (if newsize < 15 then 15 else (newsize + 1) * 2 - 1) := by
          rw [Table.nextSize]
          split
          · rfl
          · rw [int_eq (by omega)]
            rfl
        obtain ⟨turns', rfl⟩ : ∃ others, turns' = others + 1 := ⟨turns' - 1, by omega⟩
        rw [newSizeLoop, if_pos hfull]
        simp only [hnext, Option.bind_some]
        exact ih (by split <;> omega) (by split at * <;> omega) (by split <;> omega)
          (by split <;> omega)
      · rename_i hfull
        cases turns' with
        | zero => rfl
        | succ turns' => rw [newSizeLoop, if_neg hfull]

theorem le_newSizeLoop (num turns newsize : Nat) (h : newsize ≤ 3 * 2 ^ 28 + 1)
    (hnum : num < 2 ^ 28) : newSizeLoop num turns newsize ≤ 3 * 2 ^ 28 + 1 := by
  induction turns generalizing newsize with
  | zero => exact h
  | succ turns ih =>
      rw [newSizeLoop]
      split
      · exact ih _ (by split <;> omega)
      · exact h

/-- Where the loop for the new size has a result, it is the size of the loop on lists. -/
theorem newSizeLoop_of_eq_some {num : Nat} {turns turns' newsize size : Nat}
    (hsize : Table.newSizeLoop (num * 3) turns newsize = some size)
    (hturns' : num * 2 < turns' + newsize) : size = newSizeLoop num turns' newsize := by
  induction turns generalizing turns' newsize with
  | zero => cases hsize
  | succ turns ih =>
      obtain ⟨newsize2, htwice, hrest⟩ := Option.bind_eq_some_iff.mp hsize
      obtain rfl : newsize * 2 = newsize2 := (int_eq_some htwice).2
      split at hrest
      · rename_i hfull
        obtain ⟨next, hnext, hloop⟩ := Option.bind_eq_some_iff.mp hrest
        have hvalue : next = if newsize < 15 then 15 else (newsize + 1) * 2 - 1 := by
          rw [Table.nextSize] at hnext
          by_cases hsmall : newsize < 15
          · rw [if_pos hsmall] at hnext ⊢
            exact (Option.some.inj hnext).symm
          · rw [if_neg hsmall] at hnext ⊢
            obtain ⟨value, hint, rfl⟩ := Option.map_eq_some_iff.mp hnext
            rw [(int_eq_some hint).2]
        obtain ⟨turns', rfl⟩ : ∃ others, turns' = others + 1 := ⟨turns' - 1, by omega⟩
        rw [newSizeLoop, if_pos hfull, ← hvalue]
        apply ih hloop
        rw [hvalue]
        split <;> omega
      · rename_i hfull
        cases hrest
        cases turns' with
        | zero => rfl
        | succ turns' => rw [newSizeLoop, if_neg hfull]

/-- A lookup that goes on behind the first entry of a slot leaves the range of an `int` nowhere. -/
def Dict.LookupFits (d : Dict κ δ) (key : κ) : Prop :=
  match chain d.slots (slotIndex (d.keyType.hash key) d.hashsize) with
  | first :: _ :: _ => d.num = 0 ∨ d.keyType.equals first.key key ∨
      (d.num * 3 < 2 ^ 31 ∧ d.hashsize * 2 < 2 ^ 31 ∧ (d.num * 3 ≥ d.hashsize * 2 →
        (Table.newSizeLoop (d.num * 3) (d.num * 3 + 1) d.hashsize).isSome))
  | _ => True

theorem Dict.lookupFits_of_lt {d : Dict κ δ} (hnum : d.num < 2 ^ 28)
    (hsize : d.hashsize ≤ 3 * 2 ^ 28 + 1) (key : κ) : d.LookupFits key := by
  rw [LookupFits]
  split
  · by_cases hzero : d.num = 0
    · exact Or.inl hzero
    refine Or.inr (Or.inr ⟨by omega, by omega, fun hfull => ?_⟩)
    have hloop : Table.newSizeLoop (d.num * 3) (d.num * 3 + 1) d.hashsize
        = some (newSize d.num d.hashsize) :=
      newSizeLoop_eq hnum hsize (Nat.succ_pos _) (by omega) (by omega)
    rw [hloop]
    rfl
  · trivial

section Lookup

variable {m : EntryMemory κ δ} {h : Table κ} {d : Dict κ (Addr × δ)}

theorem Lays.dictDoLookup_of_fits (hlays : Lays m h d) {key : κ} (hfits : d.LookupFits key) :
    ∃ m' h', Table.dictDoLookup m h key
        = some (m', h', (CageKeeper.dictDoLookup d key).2.map fun e => (locate e).1) ∧
      Lays m' h' (CageKeeper.dictDoLookup d key).1 ∧ Memory.SameOutside d.addrs m m' := by
  rw [Table.dictDoLookup, CageKeeper.dictDoLookup, hlays.num_eq, hlays.keyType_eq,
    hlays.hashsize_eq]
  by_cases hzero : d.num = 0
  · rw [if_pos hzero, if_pos hzero]
    exact ⟨m, h, rfl, hlays, .refl _ _⟩
  rw [if_neg hzero, if_neg hzero]
  have hslot := hlays.searchSlot (slotIndex (d.keyType.hash key) d.hashsize) key
  simp only [Table.searchSlot, hlays.checkFirst, Option.bind_eq_bind, Option.bind_some] at hslot ⊢
  rw [Dict.LookupFits] at hfits
  cases hchain : chain d.slots (slotIndex (d.keyType.hash key) d.hashsize) with
  | nil => exact ⟨m, h, rfl, hlays, .refl _ _⟩
  | cons first next =>
      simp only [hchain] at hslot hfits ⊢
      by_cases hfirst : d.keyType.equals first.key key = true
      · simp only [if_pos hfirst]
        exact ⟨m, h, rfl, hlays, .refl _ _⟩
      simp only [if_neg hfirst] at hslot ⊢
      cases next with
      | nil => exact ⟨m, h, rfl, hlays, .refl _ _⟩
      | cons second rest =>
          obtain ⟨hnum3, hsize2, hgrowth⟩ := (hfits.resolve_left hzero).resolve_left hfirst
          simp only [headAddr, List.head?_cons, Option.map_some, int_eq hnum3, int_eq hsize2,
            Option.bind_some] at hslot ⊢
          by_cases hfull : d.num * 3 ≥ d.hashsize * 2
          · obtain ⟨size, hsome⟩ := Option.isSome_iff_exists.mp (hgrowth hfull)
            have hvalue : size = newSize d.num d.hashsize :=
              newSizeLoop_of_eq_some hsome (by omega)
            have hsizeEq : Table.newSizeLoop (d.num * 3) (d.num * 3 + 1) d.hashsize
                = some (newSize d.num d.hashsize) := by
              rw [hsome, hvalue]
            have hlarge := Dict.newSize_large d.num d.hashsize
            obtain ⟨m₁, h₁, hexpand, hlays₁, hsame₁⟩ :=
              hlays.dictExpand (by omega : d.hashsize < newSize d.num d.hashsize)
            obtain ⟨m', h', hsearch, hlays', hsame'⟩ := hlays₁.searchSlot
              (slotIndex (d.keyType.hash key) (newSize d.num d.hashsize)) key
            have hperm := Dict.addrs_perm
              (Dict.dictExpand_slots d (by omega : 0 < newSize d.num d.hashsize)).1
            rw [if_pos hfull, if_pos ⟨List.cons_ne_nil _ _, hfull⟩]
            simp only [hsizeEq, Option.bind_some, hexpand, hlays₁.hashsize_eq,
              Dict.dictExpand_hashsize]
            rw [Table.searchSlot] at hsearch
            have hsameAll := hsame₁.trans (hsame'.mono fun a => hperm.mem_iff.mp)
            cases hnew : chain (CageKeeper.dictExpand d (newSize d.num d.hashsize)).slots
                (slotIndex (d.keyType.hash key) (newSize d.num d.hashsize)) with
            | nil =>
                simp only [hnew] at hsearch hlays'
                exact ⟨m', h', hsearch, hlays', hsameAll⟩
            | cons first next =>
                simp only [hnew] at hsearch hlays'
                exact ⟨m', h', hsearch, hlays', hsameAll⟩
          · rw [if_neg hfull, if_neg (fun hboth => hfull hboth.2)]
            exact hslot

theorem Lays.lookupFits (hlays : Lays m h d) {key : κ}
    (hresult : (Table.dictDoLookup m h key).isSome) : d.LookupFits key := by
  rw [Dict.LookupFits]
  split
  case h_2 => trivial
  rename_i first second rest hchain
  by_cases hzero : d.num = 0
  · exact Or.inl hzero
  by_cases hfirst : d.keyType.equals first.key key = true
  · exact Or.inr (Or.inl hfirst)
  rw [Table.dictDoLookup, if_neg (by rw [hlays.num_eq]; exact hzero)] at hresult
  simp only [hlays.checkFirst, hlays.keyType_eq, hlays.num_eq, hlays.hashsize_eq, hchain,
    if_neg hfirst, headAddr, List.head?_cons, Option.map_some, Option.bind_eq_bind,
    Option.bind_some] at hresult
  obtain ⟨result, hsome⟩ := Option.isSome_iff_exists.mp hresult
  obtain ⟨num3, hnum3, hsome⟩ := Option.bind_eq_some_iff.mp hsome
  obtain ⟨size2, hsize2, hsome⟩ := Option.bind_eq_some_iff.mp hsome
  obtain ⟨hlt3, rfl⟩ := int_eq_some hnum3
  obtain ⟨hlt2, rfl⟩ := int_eq_some hsize2
  refine Or.inr (Or.inr ⟨hlt3, hlt2, fun hfull => ?_⟩)
  rw [if_pos hfull] at hsome
  obtain ⟨size, hsize, -⟩ := Option.bind_eq_some_iff.mp hsome
  rw [hsize]
  rfl

theorem Lays.dictDoLookup (hlays : Lays m h d) (hnum : d.num < 2 ^ 28)
    (hsize : d.hashsize ≤ 3 * 2 ^ 28 + 1) (key : κ) :
    ∃ m' h', Table.dictDoLookup m h key
        = some (m', h', (CageKeeper.dictDoLookup d key).2.map fun e => (locate e).1) ∧
      Lays m' h' (CageKeeper.dictDoLookup d key).1 ∧ Memory.SameOutside d.addrs m m' :=
  hlays.dictDoLookup_of_fits (Dict.lookupFits_of_lt hnum hsize key)

end Lookup

/-! ### Deletion -/

section Remove

variable {m : EntryMemory κ δ} {h : Table κ} {d : Dict κ (Addr × δ)}

theorem nodup_erase (hnodup : d.addrs.Nodup) {hash : Nat} {e : Entry κ (Addr × δ)}
    {slot : List (Entry κ (Addr × δ))} (hperm : (chain d.slots hash).Perm (e :: slot)) :
    (addresses locate (d.slots.set hash slot).flatten).Nodup := by
  have hindex := lt_length_of_mem_chain (hperm.mem_iff.mpr (List.mem_cons_self ..))
  have hold := (addresses_perm (flatten_set_erase_perm hindex hperm)).nodup_iff.mp hnodup
  exact (List.nodup_cons.mp hold).2

theorem set_slot_self (h : Table κ) (hash : Nat) : h.slots.set hash (h.slot hash) = h.slots := by
  by_cases hhash : hash < h.slots.length
  · rw [Table.slot, List.getD_eq_getElem _ _ hhash, List.set_getElem_self]
  · exact List.set_eq_of_length_le (Nat.le_of_not_lt hhash)

theorem Lays.removeChain (hlays : Lays m h d) (isMatch : Entry κ δ → Bool) {hash : Nat}
    {front rest : List (Entry κ (Addr × δ))} (hchain : chain d.slots hash = front ++ rest)
    {turns : Nat} (hturns : rest.length ≤ turns) :
    ∃ m' h', Table.removeChain isMatch hash (h.slot hash) turns m h
        (front.getLast?.map fun e => (locate e).1) (headAddr rest)
          = some (m', h', rest.any fun e => isMatch (locate e).2) ∧
      Lays m' h' (if rest.any fun e => isMatch (locate e).2 then
        ⟨d.keyType, d.slots.set hash (front ++ rest.eraseP fun e => isMatch (locate e).2),
          d.num - 1⟩ else d) ∧
      Memory.SameOutside d.addrs m m' := by
  induction rest generalizing front turns with
  | nil =>
      refine ⟨m, h, ?_, hlays, .refl _ _⟩
      rw [headAddr, List.head?_nil, Option.map_none, Table.removeChain]
      rfl
  | cons e rest ih =>
      obtain ⟨turns, rfl, hothers⟩ := exists_turns hturns
      have hsegment := hlays.segment hash
      have hnodup := hlays.nodup_chain hash
      rw [hchain] at hsegment hnodup
      by_cases hmatch : isMatch (locate e).2 = true
      · have hperm : (chain d.slots hash).Perm (e :: (front ++ rest)) := by
          rw [hchain]
          exact List.perm_middle
        have hleft := nodup_erase hlays.nodup hperm
        rw [List.any_cons, hmatch, Bool.true_or, if_pos rfl, List.eraseP_cons, hmatch, cond_true]
        rcases List.eq_nil_or_concat' front with rfl | ⟨init, last, rfl⟩
        · obtain ⟨next, m', hcell, hfree, hsame, hrest⟩ := hsegment.unlinkFirst hnodup
          rw [List.nil_append] at hchain
          rw [← hchain] at hsame
          have hhead : h.slot hash = some (locate e).1 := by rw [hlays.slot_eq, hchain]; rfl
          refine ⟨m', _, ?_, hlays.relink hsame hrest _ hleft, sameOutside_addrs hsame⟩
          simp only [Table.removeChain, headAddr, List.head?_cons, Option.map_some, hcell, hmatch,
            if_true, hfree, Option.bind_eq_bind, Option.bind_some, hhead, hlays.num_eq]
        · obtain ⟨next, m₁, m', hcell, hfree, hset, hsame, hrest⟩ := hsegment.unlinkNext hnodup
          have hhead : some (locate e).1 ≠ h.slot hash := by
            rw [hlays.slot_eq, hchain, headAddr, List.head?_append]
            obtain ⟨first, hfirst⟩ :=
              Option.isSome_iff_exists.mp (List.isSome_head?.mpr (by simp : init ++ [last] ≠ []))
            rw [hfirst, Option.some_or, Option.map_some]
            rw [addresses_append, List.nodup_append] at hnodup
            exact fun heq => hnodup.2.2 _ (mem_addresses (List.mem_of_mem_head? hfirst)) _
              (List.mem_cons_self ..) (Option.some.inj heq).symm
          rw [← hchain] at hsame
          have hrelinked := hlays.relink hsame hrest (d.num - 1) hleft
          rw [set_slot_self] at hrelinked
          refine ⟨m', _, ?_, hrelinked, sameOutside_addrs hsame⟩
          simp only [Table.removeChain, headAddr, List.head?_cons, Option.map_some, hcell, hmatch,
            if_true, hfree, Option.bind_eq_bind, Option.bind_some, if_neg hhead,
            List.getLast?_append, List.getLast?_singleton, Option.some_or, hset, hlays.num_eq]
      · have hsplit : chain d.slots hash = (front ++ [e]) ++ rest := by
          rw [hchain, List.append_assoc]
          rfl
        obtain ⟨middle, -, -, next, hcell, hrest⟩ := segment_append.mp hsegment
        have hnext : next = headAddr rest := hrest.ptr_eq
        have hstep : Table.removeChain isMatch hash (h.slot hash) (turns + 1) m h
              (front.getLast?.map fun e => (locate e).1) (headAddr (e :: rest))
            = Table.removeChain isMatch hash (h.slot hash) turns m h
                ((front ++ [e]).getLast?.map fun e => (locate e).1) (headAddr rest) := by
          simp only [Table.removeChain, headAddr, List.head?_cons, Option.map_some, hcell, hmatch,
            Bool.false_eq_true, if_false, Option.bind_eq_bind, Option.bind_some, hnext,
            List.getLast?_append, List.getLast?_singleton, Option.some_or]
        rw [hstep, List.any_cons, List.eraseP_cons, Bool.eq_false_iff.mpr hmatch, Bool.false_or,
          cond_false]
        have hwalk := ih hsplit hothers
        rw [List.append_assoc] at hwalk
        exact hwalk

theorem Lays.dictRemove (hlays : Lays m h d) (key : κ) (isMatch : Entry κ δ → Bool) :
    ∃ m' h', Table.dictRemove m h key isMatch
        = some (m', h', (CageKeeper.dictRemove d key fun e => isMatch (locate e).2).2) ∧
      Lays m' h' (CageKeeper.dictRemove d key fun e => isMatch (locate e).2).1 ∧
      Memory.SameOutside d.addrs m m' := by
  rw [Table.dictRemove, CageKeeper.dictRemove, hlays.num_eq, hlays.keyType_eq, hlays.hashsize_eq]
  by_cases hzero : d.num = 0
  · rw [if_pos hzero, if_pos hzero]
    exact ⟨m, h, rfl, hlays, .refl _ _⟩
  rw [if_neg hzero, if_neg hzero]
  have hslot := hlays.slot_eq (slotIndex (d.keyType.hash key) d.hashsize)
  have hnone : chain d.slots (slotIndex (d.keyType.hash key) d.hashsize)
      = [] ++ chain d.slots (slotIndex (d.keyType.hash key) d.hashsize) := (List.nil_append _).symm
  obtain ⟨m', h', hwalk, hlays', hsame⟩ :=
    hlays.removeChain isMatch hnone (hlays.length_chain_le _)
  rw [← hslot] at hwalk
  refine ⟨m', h', ?_⟩
  by_cases hany : ((chain d.slots (slotIndex (d.keyType.hash key) d.hashsize)).any
      fun e => isMatch (locate e).2) = true
  · rw [hany] at hwalk
    simp only [if_pos hany] at hlays' ⊢
    exact ⟨hwalk, hlays', hsame⟩
  · rw [Bool.eq_false_iff.mpr hany] at hwalk
    simp only [if_neg hany] at hlays' ⊢
    exact ⟨hwalk, hlays', hsame⟩

end Remove

end CageKeeper
