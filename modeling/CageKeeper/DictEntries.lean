import CageKeeper.DictGrowth

/-! The entries of the tables over whole runs. Only `dict_put` and `dict_clone` make entries, and only
`dict_del` and `dict_clear` give them back; what the tables count is what is in the memory. -/

namespace CageKeeper
open LinkedCells

variable {κ δ : Type}

/-! ### One function -/

namespace Table

variable {m m' : EntryMemory κ δ} {h h' : Table κ}

theorem expandChain_used {newlen turns : Nat} {e : Option Addr} {newslots newslots' : List (Option Addr)}
    (hexpand : expandChain newlen turns m newslots e = some (m', newslots')) : m'.used = m.used := by
  induction turns generalizing m e newslots with
  | zero =>
      cases e with
      | none =>
          cases hexpand
          rfl
      | some e => cases hexpand
  | succ turns ih =>
      cases e with
      | none =>
          cases hexpand
          rfl
      | some e =>
          obtain ⟨entry, -, hrest⟩ := Option.bind_eq_some_iff.mp hexpand
          obtain ⟨m₁, hset, hrest⟩ := Option.bind_eq_some_iff.mp hrest
          exact (ih hrest).trans (Memory.used_setNext hset)

theorem expandSlots_used {newlen : Nat} {slots newslots newslots' : List (Option Addr)}
    (hexpand : expandSlots newlen slots m newslots = some (m', newslots')) : m'.used = m.used := by
  induction slots generalizing m newslots with
  | nil =>
      cases hexpand
      rfl
  | cons e slots ih =>
      obtain ⟨⟨m₁, newslots₁⟩, hchain, hrest⟩ := Option.bind_eq_some_iff.mp hexpand
      exact (ih hrest).trans (expandChain_used hchain)

theorem dictExpand_used {newlen : Nat} (hexpand : dictExpand m h newlen = some (m', h')) :
    m'.used = m.used := by
  rw [dictExpand] at hexpand
  split at hexpand
  · obtain ⟨⟨m₁, newslots⟩, hslots, hrest⟩ := Option.bind_eq_some_iff.mp hexpand
    cases hrest
    exact expandSlots_used hslots
  · cases hexpand

theorem searchChain_used {hash : Nat} {key : κ} {turns : Nat} {last e found : Option Addr}
    (hsearch : searchChain hash key turns m h last e = some (m', h', found)) : m'.used = m.used := by
  induction turns generalizing last e with
  | zero =>
      cases e with
      | none =>
          cases hsearch
          rfl
      | some e => cases hsearch
  | succ turns ih =>
      cases e with
      | none =>
          cases hsearch
          rfl
      | some e =>
          obtain ⟨entry, -, hrest⟩ := Option.bind_eq_some_iff.mp hsearch
          split at hrest
          · obtain ⟨before, -, hrest⟩ := Option.bind_eq_some_iff.mp hrest
            obtain ⟨m₁, hunlink, hrest⟩ := Option.bind_eq_some_iff.mp hrest
            obtain ⟨m₂, hfront, hrest⟩ := Option.bind_eq_some_iff.mp hrest
            cases hrest
            exact (Memory.used_setNext hfront).trans (Memory.used_setNext hunlink)
          · exact ih hrest

theorem searchSlot_used {hash : Nat} {key : κ} {found : Option Addr}
    (hsearch : searchSlot m h hash key = some (m', h', found)) : m'.used = m.used := by
  obtain ⟨first, -, hrest⟩ := Option.bind_eq_some_iff.mp hsearch
  cases first with
  | found e =>
      cases hrest
      rfl
  | rest e => exact searchChain_used hrest

theorem dictDoLookup_used {key : κ} {found : Option Addr}
    (hlookup : dictDoLookup m h key = some (m', h', found)) : m'.used = m.used := by
  rw [dictDoLookup] at hlookup
  split at hlookup
  · cases hlookup
    rfl
  obtain ⟨first, -, hrest⟩ := Option.bind_eq_some_iff.mp hlookup
  cases first with
  | found e =>
      cases hrest
      rfl
  | rest e =>
      cases e with
      | none =>
          cases hrest
          rfl
      | some e =>
          obtain ⟨num3, -, hrest⟩ := Option.bind_eq_some_iff.mp hrest
          obtain ⟨hashsize2, -, hrest⟩ := Option.bind_eq_some_iff.mp hrest
          split at hrest
          · obtain ⟨newsize, -, hrest⟩ := Option.bind_eq_some_iff.mp hrest
            obtain ⟨⟨m₁, h₁⟩, hexpand, hsearch⟩ := Option.bind_eq_some_iff.mp hrest
            exact (searchSlot_used hsearch).trans (dictExpand_used hexpand)
          · exact searchChain_used hrest

theorem dictPut_card_used {key : κ} {data : δ} {e : Addr}
    (hput : dictPut m h key data = some (m', h', e)) :
    m'.used.card = m.used.card + 1 ∧ h'.num = h.num + 1 := by
  obtain ⟨⟨m₁, h₁⟩, hgrown, hrest⟩ := Option.bind_eq_some_iff.mp hput
  obtain ⟨num, hnum, hrest⟩ := Option.bind_eq_some_iff.mp hrest
  cases hrest
  have hsame : m₁.used = m.used ∧ h₁.num = h.num := by
    rw [expandEmpty] at hgrown
    split at hgrown
    · exact ⟨dictExpand_used hgrown, (dictExpand_num hgrown).2.1⟩
    · cases hgrown
      exact ⟨rfl, rfl⟩
  rw [← hsame.1, ← hsame.2]
  exact ⟨Memory.card_used_alloc _ _, (int_eq_some hnum).2.symm⟩

theorem removeChain_card_used {isMatch : Entry κ δ → Bool} {hash : Nat} {head prev e : Option Addr}
    {turns : Nat} {found : Bool}
    (hremove : removeChain isMatch hash head turns m h prev e = some (m', h', found)) :
    m'.used.card = m.used.card ∧ h'.num = h.num ∨
      m'.used.card + 1 = m.used.card ∧ h'.num = h.num - 1 := by
  induction turns generalizing prev e with
  | zero =>
      cases e with
      | none =>
          cases hremove
          exact Or.inl ⟨rfl, rfl⟩
      | some e => cases hremove
  | succ turns ih =>
      cases e with
      | none =>
          cases hremove
          exact Or.inl ⟨rfl, rfl⟩
      | some e =>
          obtain ⟨entry, -, hrest⟩ := Option.bind_eq_some_iff.mp hremove
          split at hrest
          · obtain ⟨m₁, hfree, hrest⟩ := Option.bind_eq_some_iff.mp hrest
            split at hrest
            · cases hrest
              exact Or.inr ⟨Memory.card_used_free hfree, rfl⟩
            · obtain ⟨before, -, hrest⟩ := Option.bind_eq_some_iff.mp hrest
              obtain ⟨m₂, hunlink, hrest⟩ := Option.bind_eq_some_iff.mp hrest
              cases hrest
              rw [Memory.used_setNext hunlink]
              exact Or.inr ⟨Memory.card_used_free hfree, rfl⟩
          · exact ih hrest

theorem dictRemove_card_used {key : κ} {isMatch : Entry κ δ → Bool} {done : Bool}
    (hremove : dictRemove m h key isMatch = some (m', h', done)) :
    m'.used.card + h.num = m.used.card + h'.num := by
  rw [dictRemove] at hremove
  by_cases hzero : h.num = 0
  · rw [if_pos hzero] at hremove
    cases hremove
    rfl
  · rw [if_neg hzero] at hremove
    rcases removeChain_card_used hremove with ⟨hused, hnum⟩ | ⟨hused, hnum⟩ <;> omega

end Table

theorem cloneChain_card_used (t : HashType κ) {m m' : EntryMemory κ δ} {e slot slot' : Option Addr}
    {entries : List (Entry κ (Addr × δ))} (hsegment : Segment locate m e entries none) {turns : Nat}
    (hclone : Table.cloneChain t turns m slot e = some (m', slot')) :
    m'.used.card = m.used.card + entries.length ∧ Memory.SameOutside [] m m' := by
  induction entries generalizing m e slot turns with
  | nil =>
      obtain rfl : e = none := hsegment
      cases turns <;> cases hclone <;> exact ⟨rfl, .refl _ _⟩
  | cons entry entries ih =>
      obtain ⟨rfl, next, hcell, hrest⟩ := hsegment
      cases turns with
      | zero => cases hclone
      | succ turns =>
          rw [Table.cloneChain, hcell] at hclone
          have hsame := Memory.alloc_sameOutside m
            ⟨{ (locate entry).2 with key := t.dup (locate entry).2.key }, slot⟩ []
          obtain ⟨hused, hsame'⟩ := ih (hrest.frame hsame fun _ _ => List.not_mem_nil) hclone
          refine ⟨?_, hsame.trans hsame'⟩
          rw [hused, Memory.card_used_alloc, List.length_cons, Nat.add_assoc, Nat.add_comm 1]

theorem cloneSlots_card_used (t : HashType κ) {m m' : EntryMemory κ δ} {slots slots' : List (Option Addr)}
    {chains : List (List (Entry κ (Addr × δ)))} (hchains : Chains locate m slots chains)
    (hclone : Table.cloneSlots t slots m = some (m', slots')) :
    m'.used.card = m.used.card + chains.flatten.length := by
  induction chains generalizing m slots slots' with
  | nil =>
      cases hchains
      cases hclone
      rfl
  | cons first chains ih =>
      cases hchains with
      | @cons e _ slots _ hfirst hrest =>
          obtain ⟨⟨m₁, slot⟩, hchain, hothers⟩ := Option.bind_eq_some_iff.mp hclone
          obtain ⟨⟨m₂, copied⟩, hslots, hresult⟩ := Option.bind_eq_some_iff.mp hothers
          cases hresult
          obtain ⟨hused, hsame⟩ := cloneChain_card_used t hfirst hchain
          have hchains : Chains locate m slots chains := hrest
          rw [ih (hchains.frame hsame fun _ _ => List.not_mem_nil) hslots, hused, List.flatten_cons,
            List.length_append, Nat.add_assoc]

theorem freeChain_card_used {m m' : EntryMemory κ δ} {e : Option Addr}
    {entries : List (Entry κ (Addr × δ))} (hsegment : Segment locate m e entries none)
    (hnodup : (addresses locate entries).Nodup) {turns : Nat}
    (hfree : Table.freeChain turns m e = some m') :
    m'.used.card + entries.length = m.used.card := by
  induction entries generalizing m e turns with
  | nil =>
      obtain rfl : e = none := hsegment
      cases turns <;> cases hfree <;> rfl
  | cons entry entries ih =>
      obtain rfl : e = some (locate entry).1 := hsegment.1
      cases turns with
      | zero => cases hfree
      | succ turns =>
          obtain ⟨next, m₁, hcell, hfirst, -, hrest⟩ := hsegment.unlinkFirst hnodup
          rw [Table.freeChain, hcell, Option.bind_eq_bind, Option.bind_some, hfirst] at hfree
          have hothers := ih hrest (List.nodup_cons.mp hnodup).2 hfree
          have hused := Memory.card_used_free hfirst
          rw [List.length_cons]
          omega

theorem freeSlots_card_used {m m' : EntryMemory κ δ} {slots : List (Option Addr)}
    {chains : List (List (Entry κ (Addr × δ)))} (hchains : Chains locate m slots chains)
    (hnodup : (addresses locate chains.flatten).Nodup)
    (hfree : slots.foldlM (fun m e => Table.freeChain m.fresh m e) m = some m') :
    m'.used.card + chains.flatten.length = m.used.card := by
  induction chains generalizing m slots with
  | nil =>
      cases hchains
      cases hfree
      rfl
  | cons first chains ih =>
      cases hchains with
      | @cons e _ slots _ hfirst hrest =>
          rw [List.flatten_cons, addresses_append] at hnodup
          obtain ⟨hfirstNodup, hrestNodup, hapart⟩ := List.nodup_append.mp hnodup
          obtain ⟨m₁, hloop, hsame⟩ :=
            freeChain_lays hfirst hfirstNodup (hfirst.length_le hfirstNodup)
          have hchains : Chains locate m slots chains := hrest
          rw [List.foldlM_cons, hloop] at hfree
          have hothers := ih (hchains.frame hsame fun a ha hmem => hapart a hmem a ha rfl) hrestNodup
            hfree
          have hused := freeChain_card_used hfirst hfirstNodup hloop
          rw [List.flatten_cons, List.length_append]
          omega

/-! ### All tables -/

def numEntries : List (Table κ) → Nat
  | [] => 0
  | h :: tables => h.num + numEntries tables

theorem numEntries_append (tables others : List (Table κ)) :
    numEntries (tables ++ others) = numEntries tables + numEntries others := by
  induction tables with
  | nil => exact (Nat.zero_add _).symm
  | cons h tables ih => rw [List.cons_append, numEntries, numEntries, ih, Nat.add_assoc]

theorem numEntries_set {tables : List (Table κ)} {table : Nat} {h : Table κ}
    (hh : tables[table]? = some h) (h' : Table κ) :
    numEntries (tables.set table h') + h.num = numEntries tables + h'.num := by
  induction tables generalizing table with
  | nil => cases hh
  | cons first tables ih =>
      cases table with
      | zero =>
          obtain rfl : first = h := Option.some.inj hh
          rw [List.set_cons_zero, numEntries, numEntries]
          omega
      | succ table =>
          have hrest : numEntries (tables.set table h') + h.num = numEntries tables + h'.num := ih hh
          rw [List.set_cons_succ, numEntries, numEntries]
          omega

theorem numEntries_eq_zero {tables : List (Table κ)}
    (hzero : ∀ (table : Nat) h, tables[table]? = some h → h.num = 0) : numEntries tables = 0 := by
  induction tables with
  | nil => rfl
  | cons h tables ih =>
      rw [numEntries, hzero 0 h rfl, ih fun table h hh => hzero (table + 1) h hh]

/-- The memory has the entries that the tables count. -/
def Tables.Balanced (w : Tables κ δ) : Prop := w.memory.used.card = numEntries w.tables

namespace Tables.Balanced

variable {w next : Tables κ δ} {table : Nat} {h h' : Table κ} {m' : EntryMemory κ δ}

theorem update (hbalanced : w.Balanced) (hw : w.tables[table]? = some h)
    (hused : m'.used.card + h.num = w.memory.used.card + h'.num) : (w.update table m' h').Balanced := by
  have htables := numEntries_set hw h'
  unfold Tables.Balanced at hbalanced ⊢
  rw [Tables.update]
  dsimp only
  omega

theorem append (hbalanced : w.Balanced) (hused : m'.used.card = w.memory.used.card + h'.num) :
    Tables.Balanced ⟨m', w.tables ++ [h']⟩ := by
  unfold Tables.Balanced at hbalanced ⊢
  rw [numEntries_append, numEntries, numEntries, hused, hbalanced, Nat.add_zero]

/-- **One operation.** It keeps the balance. -/
theorem step [DecidableEq δ] (hbalanced : w.Balanced) {cleared : List Nat}
    {views : List (Dict κ (Addr × δ))} (hkept : Kept w cleared views) {op : TableOp κ δ}
    {answer : TableAnswer κ δ} (hstep : w.step op = some (next, answer)) : next.Balanced := by
  obtain ⟨h, hw, hturn⟩ := Tables.step_turn hstep
  obtain ⟨d, hd, hlays⟩ := hkept.laid.get hw
  cases hturn with
  | put hput =>
      obtain ⟨hused, hnum⟩ := Table.dictPut_card_used hput
      exact hbalanced.update hw (by omega)
  | lookup hlookup | contains hlookup =>
      have hused := Table.dictDoLookup_used hlookup
      have hnum := (hlays.dictDoLookup_keeps hlookup).1
      exact hbalanced.update hw (by rw [hused, hnum])
  | del hremove | del2 hremove => exact hbalanced.update hw (Table.dictRemove_card_used hremove)
  | clone hclone =>
      obtain ⟨⟨m₁, slots⟩, hslots, hresult⟩ := Option.bind_eq_some_iff.mp hclone
      cases hresult
      have hused := cloneSlots_card_used h.keyType hlays.chains hslots
      have hnum : h.num = d.slots.flatten.length :=
        hlays.num_eq.trans (hkept.counted d (List.mem_of_getElem? hd))
      exact hbalanced.append (by rw [hused, hnum])
  | foreach => exact hbalanced

end Tables.Balanced

theorem Tables.Reached.balanced [DecidableEq δ] {w : Tables κ δ} {cleared : List Nat}
    (hreached : w.Reached cleared) : w.Balanced := by
  induction hreached with
  | start => rfl
  | dictNew hreached type ih => exact ih.append rfl
  | step hreached hkeyType hstep ih =>
      obtain ⟨views, hkept⟩ := hreached.kept
      exact ih.step hkept hstep
  | @dictClear w cleared table h h' m' hreached hw hclear ih =>
      obtain ⟨views, hkept⟩ := hreached.kept
      obtain ⟨d, hd, hlays⟩ := hkept.laid.get hw
      obtain ⟨m₁, hloops, hresult⟩ := Option.bind_eq_some_iff.mp hclear
      cases hresult
      have hused := freeSlots_card_used hlays.chains hlays.nodup hloops
      have hnum : h.num = d.slots.flatten.length :=
        hlays.num_eq.trans (hkept.counted d (List.mem_of_getElem? hd))
      exact ih.update hw (by rw [hnum, hused, Nat.add_zero])

/-! ### Where the entries are -/

theorem numEntries_eq_length {tables : List (Table κ)} {views : List (Dict κ (Addr × δ))}
    (hlength : tables.length = views.length)
    (hnum : ∀ (table : Nat) h d, tables[table]? = some h → views[table]? = some d →
      h.num = d.addrs.length) :
    numEntries tables = (views.flatMap Dict.addrs).length := by
  induction tables generalizing views with
  | nil =>
      cases views with
      | nil => rfl
      | cons d views => cases hlength
  | cons h tables ih =>
      cases views with
      | nil => cases hlength
      | cons d views =>
          rw [numEntries, List.flatMap_cons, List.length_append, hnum 0 h d rfl rfl,
            ih (Nat.succ.inj hlength) fun table h d hh hd => hnum (table + 1) h d hh hd]

namespace Laid

variable {w : Tables κ δ} {views : List (Dict κ (Addr × δ))}

theorem lays_mem (hlaid : Laid w views) {d : Dict κ (Addr × δ)} (hd : d ∈ views) :
    ∃ h, Lays w.memory h d := by
  obtain ⟨table, hlt, rfl⟩ := List.mem_iff_getElem.mp hd
  have hlt' : table < w.tables.length := hlaid.length_eq ▸ hlt
  exact ⟨_, hlaid.lays table _ _ (List.getElem?_eq_getElem hlt') (List.getElem?_eq_getElem hlt)⟩

theorem nodup_addrs (hlaid : Laid w views) : (views.flatMap Dict.addrs).Nodup := by
  rw [List.nodup_flatMap]
  constructor
  · intro d hd
    obtain ⟨h, hlays⟩ := hlaid.lays_mem hd
    exact hlays.nodup
  · rw [List.pairwise_iff_getElem]
    intro table other htable hother hlt a ha ha'
    exact hlaid.apart table other _ _ (List.getElem?_eq_getElem htable)
      (List.getElem?_eq_getElem hother) (Nat.ne_of_lt hlt) a ha ha'

end Laid

theorem Kept.mem_used_iff {w : Tables κ δ} {cleared : List Nat} {views : List (Dict κ (Addr × δ))}
    (hkept : Kept w cleared views) (hbalanced : w.Balanced) (a : Addr) :
    a ∈ w.memory.used ↔ ∃ d ∈ views, a ∈ d.addrs := by
  have hsubset : (views.flatMap Dict.addrs).toFinset ⊆ w.memory.used := by
    intro a ha
    rw [List.mem_toFinset, List.mem_flatMap] at ha
    obtain ⟨d, hd, hmem⟩ := ha
    obtain ⟨h, hlays⟩ := hkept.laid.lays_mem hd
    obtain ⟨e, he, rfl⟩ := List.mem_map.mp hmem
    obtain ⟨next, hcell⟩ := hlays.cell_eq he
    rw [Memory.mem_used, hcell]
    rfl
  have hnum : numEntries w.tables = (views.flatMap Dict.addrs).length := by
    refine numEntries_eq_length hkept.laid.length_eq fun table h d hh hd => ?_
    rw [(hkept.laid.lays table h d hh hd).num_eq, hkept.counted d (List.mem_of_getElem? hd), Dict.addrs,
      addresses, List.length_map]
  have hcard : w.memory.used.card ≤ (views.flatMap Dict.addrs).toFinset.card := by
    rw [List.toFinset_card_of_nodup hkept.laid.nodup_addrs, ← hnum]
    exact Nat.le_of_eq hbalanced
  rw [← Finset.eq_of_subset_of_card_le hsubset hcard, List.mem_toFinset, List.mem_flatMap]

/-- **No entry is lost.** In every state that is reached the memory has as many entries as the tables
count, and each of them is in one table; when all tables have been cleared, there are none. -/
theorem Tables.Reached.entries_accounted [DecidableEq δ] {w : Tables κ δ} {cleared : List Nat}
    (hreached : w.Reached cleared) :
    w.memory.used.card = numEntries w.tables ∧
    (∃ views, Laid w views ∧ ∀ a, a ∈ w.memory.used ↔ ∃ d ∈ views, a ∈ d.addrs) ∧
    ((∀ table < w.tables.length, table ∈ cleared) → w.memory.used = ∅) := by
  obtain ⟨views, hkept⟩ := hreached.kept
  have hbalanced := hreached.balanced
  refine ⟨hbalanced, ⟨views, hkept.laid, hkept.mem_used_iff hbalanced⟩, fun hcleared => ?_⟩
  have hzero : numEntries w.tables = 0 := numEntries_eq_zero fun table h hh =>
    hkept.num_eq_zero hh (hcleared table (List.getElem?_eq_some_iff.mp hh).1)
  exact Finset.card_eq_zero.mp (hbalanced.trans hzero)

/-- Two definitions of `f` and one of `g` make three entries, and none is left when the table has been
cleared. -/
theorem entries_accounted_twiceDefined :
    ∃ (w : Tables (Option CString) Nat) (h h' : Table (Option CString))
      (m' : EntryMemory (Option CString) Nat),
      (Tables.start charptrType 1).use twiceDefinedOps = some w ∧ w.memory.used.card = 3 ∧
        Table.dictFreeAll w.memory h = some (m', h') ∧ (w.update 0 m' h').memory.used = ∅ := by
  have hdefined : ((Tables.start charptrType 1).use twiceDefinedOps).bind (fun w =>
      (w.tables[0]?).map fun h => (numEntries w.tables, w.tables.length, h.num)) = some (3, 1, 3) := by
    decide +kernel
  obtain ⟨w, huse, htable⟩ := Option.bind_eq_some_iff.mp hdefined
  obtain ⟨h, hw, hnumbers⟩ := Option.map_eq_some_iff.mp htable
  obtain ⟨hentries, htables, -⟩ : numEntries w.tables = 3 ∧ w.tables.length = 1 ∧ h.num = 3 := by
    simpa using hnumbers
  have hreached := twiceDefined_reached huse
  obtain ⟨views, hkept⟩ := hreached.kept
  obtain ⟨d, hd, hlays⟩ := hkept.laid.get hw
  obtain ⟨m', hclear, -⟩ := hlays.dictFreeAll
  have hcleared := hreached.dictClear hw hclear
  refine ⟨w, h, _, m', huse, hreached.entries_accounted.1.trans hentries, hclear,
    hcleared.entries_accounted.2.2 fun table htable => ?_⟩
  rw [Tables.update, List.length_set, htables] at htable
  rw [Nat.lt_one_iff.mp htable]
  exact List.mem_cons_self ..

end CageKeeper
