import CageKeeper.DictChains

/-! Copies of a table, and the walk over all its entries. A copy is made of new entries, in chains
that are turned around; it is described without the addresses of the entries. -/

namespace CageKeeper
open LinkedCells

variable {κ δ σ : Type}

/-! ### Copies -/

def strip (e : Entry κ (Addr × δ)) : Entry κ δ := (locate e).2

/-- The copy that `dict_clone` makes of an entry. -/
def copyEntry (t : HashType κ) (e : Entry κ δ) : Entry κ δ := { e with key := t.dup e.key }

/-- `dict_clone` on lists; it turns every chain around. -/
def dictClone (o : Dict κ δ) : Dict κ δ :=
  { o with slots := o.slots.map fun slot => (slot.map (copyEntry o.keyType)).reverse }

/-- A described table without its addresses. -/
def Dict.strip (d : Dict κ (Addr × δ)) : Dict κ δ :=
  ⟨d.keyType, d.slots.map (List.map CageKeeper.strip), d.num⟩

/-- Entries that have been made between two states of the memory, each at one place. -/
structure Made (m m' : EntryMemory κ δ) (entries : List (Entry κ (Addr × δ))) : Prop where
  le : ∀ a ∈ addresses locate entries, m.fresh ≤ a
  lt : ∀ a ∈ addresses locate entries, a < m'.fresh
  nodup : (addresses locate entries).Nodup

theorem Made.append {m m' m'' : EntryMemory κ δ} {left right : List (Entry κ (Addr × δ))}
    (hleft : Made m m' left) (hright : Made m' m'' right) (hle : m.fresh ≤ m'.fresh)
    (hle' : m'.fresh ≤ m''.fresh) : Made m m'' (left ++ right) := by
  refine ⟨fun a ha => ?_, fun a ha => ?_, ?_⟩
  · rw [addresses_append, List.mem_append] at ha
    exact ha.elim (hleft.le a) fun ha => Nat.le_trans hle (hright.le a ha)
  · rw [addresses_append, List.mem_append] at ha
    exact ha.elim (fun ha => Nat.lt_of_lt_of_le (hleft.lt a ha) hle') (hright.lt a)
  · rw [addresses_append, List.nodup_append]
    refine ⟨hleft.nodup, hright.nodup, fun a ha b hb heq => ?_⟩
    exact Nat.lt_irrefl _ (Nat.lt_of_lt_of_le (hleft.lt a ha) (heq ▸ hright.le b hb))

theorem Made.of_perm {m m' : EntryMemory κ δ} {entries entries' : List (Entry κ (Addr × δ))}
    (hmade : Made m m' entries) (hperm : entries'.Perm entries) : Made m m' entries' := by
  have haddrs : (addresses locate entries').Perm (addresses locate entries) := addresses_perm hperm
  exact ⟨fun a ha => hmade.le a (haddrs.mem_iff.mp ha),
    fun a ha => hmade.lt a (haddrs.mem_iff.mp ha), haddrs.nodup_iff.mpr hmade.nodup⟩

theorem cloneChain_lays (t : HashType κ) {m : EntryMemory κ δ} {e slot : Option Addr}
    {entries copied : List (Entry κ (Addr × δ))} (hsegment : Segment locate m e entries none)
    (hcopied : Segment locate m slot copied none) {turns : Nat} (hturns : entries.length ≤ turns) :
    ∃ m' slot' copies, Table.cloneChain t turns m slot e = some (m', slot') ∧
      Segment locate m' slot' (copies ++ copied) none ∧
      copies.map strip = ((entries.map strip).map (copyEntry t)).reverse ∧
      Made m m' copies ∧ Memory.SameOutside [] m m' := by
  induction entries generalizing m e slot copied turns with
  | nil =>
      obtain rfl : e = none := hsegment
      exact ⟨m, slot, [], by rw [Table.cloneChain], hcopied, rfl, ⟨nofun, nofun, .nil⟩, .refl _ _⟩
  | cons entry entries ih =>
      obtain ⟨turns, rfl, hothers⟩ := exists_turns hturns
      obtain ⟨rfl, next, hcell, hrest⟩ := hsegment
      let n : Entry κ (Addr × δ) := ⟨t.dup entry.key, entry.hash, (m.fresh, entry.data.2)⟩
      let m₁ := (m.alloc ⟨(locate n).2, slot⟩).1
      have hsame₁ : Memory.SameOutside [] m m₁ := Memory.alloc_sameOutside m _ _
      have hcell₁ : m₁.cell (locate n).1 = some ⟨(locate n).2, slot⟩ := Memory.alloc_cell m _
      have hfresh : (locate n).1 ∉ addresses locate copied := fun hmem =>
        Nat.lt_irrefl _ (hcopied.lt_fresh hmem)
      have hcopied₁ : Segment locate m₁ (some (locate n).1) (n :: copied) none :=
        hcopied.push (hsame₁.mono nofun) hcell₁ hfresh
      obtain ⟨m', slot', copies, hloop, hsegment', hcopies, hmade, hsame'⟩ :=
        ih (hrest.frame hsame₁ nofun) hcopied₁ hothers
      have hmade₁ : Made m m₁ [n] := by
        refine ⟨fun a ha => ?_, fun a ha => ?_, List.nodup_singleton _⟩
        · rw [List.mem_singleton.mp ha]
          exact Nat.le_refl _
        · rw [List.mem_singleton.mp ha]
          exact Nat.lt_succ_self _
      refine ⟨m', slot', copies ++ [n], ?_, ?_, ?_, ?_, hsame₁.trans hsame'⟩
      · simp only [Table.cloneChain, hcell, Option.bind_eq_bind, Option.bind_some]
        exact hloop
      · rw [List.append_assoc]
        exact hsegment'
      · rw [List.map_append, hcopies]
        simp only [List.map_cons, List.reverse_cons]
        rfl
      · exact (hmade₁.append hmade hsame₁.fresh_le hsame'.fresh_le).of_perm
          (List.perm_append_singleton n copies)

theorem cloneSlots_lays (t : HashType κ) {m : EntryMemory κ δ} {slots : List (Option Addr)}
    {chains : List (List (Entry κ (Addr × δ)))} (hchains : Chains locate m slots chains)
    (hnodup : (addresses locate chains.flatten).Nodup) :
    ∃ m' slots' copies, Table.cloneSlots t slots m = some (m', slots') ∧
      Chains locate m' slots' copies ∧
      copies.map (List.map strip) = chains.map
        (fun slot => ((slot.map strip).map (copyEntry t)).reverse) ∧
      Made m m' copies.flatten ∧ Memory.SameOutside [] m m' := by
  induction chains generalizing m slots with
  | nil =>
      cases hchains
      exact ⟨m, [], [], rfl, .nil, rfl, ⟨nofun, nofun, .nil⟩, .refl _ _⟩
  | cons entries chains ih =>
      cases hchains with
      | @cons e _ slots _ hfirst hrest =>
          rw [List.flatten_cons, addresses_append, List.nodup_append] at hnodup
          have hnone : Segment locate m none ([] : List (Entry κ (Addr × δ))) none := rfl
          obtain ⟨m₁, slot, copies, hloop, hsegment, hcopies, hmade, hsame⟩ :=
            cloneChain_lays t hfirst hnone (hfirst.length_le hnodup.1)
          have hchains : Chains locate m slots chains := hrest
          obtain ⟨m', slots', others, hloops, hothers, hstrip, hmade', hsame'⟩ :=
            ih (hchains.frame hsame nofun) hnodup.2.1
          refine ⟨m', slot :: slots', copies :: others, ?_, ?_, ?_, ?_, hsame.trans hsame'⟩
          · simp only [Table.cloneSlots, hloop, hloops, Option.bind_eq_bind, Option.bind_some]
          · rw [List.append_nil] at hsegment
            exact .cons (hsegment.frame hsame' nofun) hothers
          · rw [List.map_cons, List.map_cons, hcopies, hstrip]
          · exact hmade.append hmade' hsame.fresh_le hsame'.fresh_le

theorem Lays.dictClone {m : EntryMemory κ δ} {o : Table κ} {d : Dict κ (Addr × δ)}
    (hlays : Lays m o d) :
    ∃ m' h' d', Table.dictClone m o = some (m', h') ∧ Lays m' h' d' ∧
      d'.strip = CageKeeper.dictClone d.strip ∧ Made m m' d'.entries ∧
      Memory.SameOutside [] m m' := by
  obtain ⟨m', slots, copies, hloop, hchains, hstrip, hmade, hsame⟩ :=
    cloneSlots_lays d.keyType hlays.chains hlays.nodup
  refine ⟨m', { o with slots := slots }, ⟨d.keyType, copies, d.num⟩, ?_,
    ⟨hlays.keyType_eq, hlays.num_eq, hchains, hmade.nodup⟩, ?_, hmade, hsame⟩
  · rw [Table.dictClone, hlays.keyType_eq, hloop]
    rfl
  · rw [Dict.strip, Dict.strip, CageKeeper.dictClone, hstrip]
    simp only [List.map_map, Function.comp_def]

/-! ### Copies of well-formed tables -/

namespace Dict

theorem strip_entries (d : Dict κ (Addr × δ)) : d.strip.entries = d.entries.map CageKeeper.strip :=
  List.map_flatten.symm

theorem strip_chain (d : Dict κ (Addr × δ)) (index : Nat) :
    chain d.strip.slots index = (chain d.slots index).map CageKeeper.strip :=
  List.getD_map d.slots [] (List.map CageKeeper.strip)

@[simp] theorem strip_hashsize (d : Dict κ (Addr × δ)) : d.strip.hashsize = d.hashsize :=
  List.length_map ..

theorem strip_sound {d : Dict κ (Addr × δ)} : d.strip.Sound ↔ d.Sound := by
  constructor
  · intro h
    refine ⟨fun e hmem => ?_, fun index e hmem => ?_, ?_⟩
    · exact h.hash_eq (CageKeeper.strip e) (by
        rw [strip_entries]
        exact List.mem_map_of_mem hmem)
    · have hslot := h.slot index (CageKeeper.strip e) (by
        rw [strip_chain]
        exact List.mem_map_of_mem hmem)
      rwa [strip_hashsize] at hslot
    · have hnum := h.num_eq
      rwa [strip_entries, List.length_map] at hnum
  · intro h
    refine ⟨fun e hmem => ?_, fun index e hmem => ?_, ?_⟩
    · rw [strip_entries] at hmem
      obtain ⟨e, hold, rfl⟩ := List.mem_map.mp hmem
      exact h.hash_eq e hold
    · rw [strip_chain] at hmem
      obtain ⟨e, hold, rfl⟩ := List.mem_map.mp hmem
      rw [strip_hashsize]
      exact h.slot index e hold
    · rw [strip_entries, List.length_map]
      exact h.num_eq

end Dict

@[simp] theorem dictClone_hashsize (o : Dict κ δ) : (dictClone o).hashsize = o.hashsize :=
  List.length_map ..

theorem dictClone_perm (o : Dict κ δ) :
    (dictClone o).entries.Perm (o.entries.map (copyEntry o.keyType)) := by
  have hslots : ∀ slots : List (List (Entry κ δ)),
      ((slots.map fun slot => (slot.map (copyEntry o.keyType)).reverse).flatten).Perm
        (slots.flatten.map (copyEntry o.keyType)) := by
    intro slots
    induction slots with
    | nil => exact .refl _
    | cons slot slots ih =>
        rw [List.map_cons, List.flatten_cons, List.flatten_cons, List.map_append]
        exact (List.reverse_perm _).append ih
  exact hslots o.slots

theorem Dict.Sound.dictClone {o : Dict κ δ} (hsound : o.Sound) (hlawful : o.keyType.Lawful) :
    (dictClone o).Sound := by
  have hchain : ∀ index, chain (CageKeeper.dictClone o).slots index
      = ((chain o.slots index).map (copyEntry o.keyType)).reverse := fun index =>
    List.getD_map o.slots [] fun slot => (slot.map (copyEntry o.keyType)).reverse
  refine ⟨fun e hmem => ?_, fun index e hmem => ?_, ?_⟩
  · obtain ⟨original, horiginal, rfl⟩ := List.mem_map.mp ((dictClone_perm o).mem_iff.mp hmem)
    rw [copyEntry]
    exact (hsound.hash_eq original horiginal).trans
      (hlawful.hash_eq (hlawful.symm (hlawful.dup_equals original.key)))
  · rw [hchain, List.mem_reverse] at hmem
    obtain ⟨original, horiginal, rfl⟩ := List.mem_map.mp hmem
    rw [dictClone_hashsize]
    exact hsound.slot index original horiginal
  · rw [(dictClone_perm o).length_eq, List.length_map]
    exact hsound.num_eq

/-! ### Walks -/

theorem foreachChain_eq (runFunction : σ → κ → δ → σ) {m : EntryMemory κ δ} {e : Option Addr}
    {entries : List (Entry κ (Addr × δ))} (hsegment : Segment locate m e entries none) {turns : Nat}
    (hturns : entries.length ≤ turns) (state : σ) :
    Table.foreachChain runFunction m turns state e
      = some (entries.foldl (fun state e => runFunction state e.key e.data.2) state) := by
  induction entries generalizing e turns state with
  | nil =>
      obtain rfl : e = none := hsegment
      rw [Table.foreachChain]
      rfl
  | cons entry entries ih =>
      obtain ⟨turns, rfl, hothers⟩ := exists_turns hturns
      obtain ⟨rfl, next, hcell, hrest⟩ := hsegment
      simp only [Table.foreachChain, hcell, Option.bind_eq_bind, Option.bind_some]
      exact ih hrest hothers _

theorem foreachSlots_eq (runFunction : σ → κ → δ → σ) {m : EntryMemory κ δ}
    {slots : List (Option Addr)} {chains : List (List (Entry κ (Addr × δ)))}
    (hchains : Chains locate m slots chains) (hnodup : (addresses locate chains.flatten).Nodup)
    (state : σ) :
    slots.foldlM (Table.foreachChain runFunction m m.fresh) state
      = some (chains.flatten.foldl (fun state e => runFunction state e.key e.data.2) state) := by
  induction hchains generalizing state with
  | nil => rfl
  | cons hfirst hrest ih =>
      rw [List.flatten_cons, addresses_append, List.nodup_append] at hnodup
      rw [List.foldlM_cons, foreachChain_eq runFunction hfirst (hfirst.length_le hnodup.1),
        List.flatten_cons, List.foldl_append]
      exact ih hnodup.2.1 _

theorem foldl_visited (visited : List (κ × δ)) (entries : List (Entry κ (Addr × δ))) :
    entries.foldl (fun visited e => visited ++ [(e.key, e.data.2)]) visited
      = visited ++ entries.map fun e => (e.key, e.data.2) := by
  rw [List.map_eq_flatMap, List.flatMap_def]
  exact List.foldl_append_eq_append

/-- `dict_foreach_keyvalue`, with a function that leaves the table alone, runs it once on every
entry. -/
theorem Lays.dictForeachKeyvalue {m : EntryMemory κ δ} {h : Table κ} {d : Dict κ (Addr × δ)}
    (hlays : Lays m h d) (runFunction : σ → κ → δ → σ) (state : σ) :
    Table.dictForeachKeyvalue runFunction m h state
      = some (d.entries.foldl (fun state e => runFunction state e.key e.data.2) state) :=
  foreachSlots_eq runFunction hlays.chains hlays.nodup state

end CageKeeper
