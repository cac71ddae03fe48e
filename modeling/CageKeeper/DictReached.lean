import CageKeeper.DictCloneAnswers

/-! The tables that can be reached from `dict_new`, whatever their key types are. Every operation
keeps the entries of a table counted, and the size of a table is one of a few. `dict_clear` leaves a
table without slots. -/

namespace CageKeeper
open LinkedCells

variable {κ δ : Type}

/-! ### Clearing -/

namespace Table

/-- The loop of `dict_free_all` along a chain. -/
def freeChain : (turns : Nat) → EntryMemory κ δ → (e : Option Addr) → Option (EntryMemory κ δ)
  | _, m, none => some m
  | 0, _, some _ => none
  | turns + 1, m, some e => do
      let entry ← m.cell e
      let m ← m.free e
      freeChain turns m entry.next

/-- `dict_free_all`, and with it `dict_clear`. What is left of a table is zeros: its key type is gone,
too, so that nothing can be put into it. -/
def dictFreeAll (m : EntryMemory κ δ) (h : Table κ) : Option (EntryMemory κ δ × Table κ) := do
  let m ← h.slots.foldlM (fun m e => freeChain m.fresh m e) m
  some (m, { h with slots := [], num := 0 })

end Table

theorem freeChain_lays {m : EntryMemory κ δ} {e : Option Addr} {entries : List (Entry κ (Addr × δ))}
    (hsegment : Segment locate m e entries none) (hnodup : (addresses locate entries).Nodup)
    {turns : Nat} (hturns : entries.length ≤ turns) :
    ∃ m', Table.freeChain turns m e = some m' ∧
      Memory.SameOutside (addresses locate entries) m m' := by
  induction entries generalizing m e turns with
  | nil =>
      obtain rfl : e = none := hsegment
      exact ⟨m, by rw [Table.freeChain], .refl _ _⟩
  | cons entry entries ih =>
      obtain ⟨turns, rfl, hothers⟩ := exists_turns hturns
      obtain rfl : e = some (locate entry).1 := hsegment.1
      obtain ⟨next, m₁, hcell, hfree, hsame₁, hrest⟩ := hsegment.unlinkFirst hnodup
      obtain ⟨m', hloop, hsame⟩ := ih hrest (List.nodup_cons.mp hnodup).2 hothers
      refine ⟨m', ?_, hsame₁.trans (hsame.mono fun a ha => List.mem_cons_of_mem _ ha)⟩
      rw [Table.freeChain, hcell, Option.bind_eq_bind, Option.bind_some, hfree]
      exact hloop

theorem freeSlots_lays {m : EntryMemory κ δ} {slots : List (Option Addr)}
    {chains : List (List (Entry κ (Addr × δ)))} (hchains : Chains locate m slots chains)
    (hnodup : (addresses locate chains.flatten).Nodup) :
    ∃ m', slots.foldlM (fun m e => Table.freeChain m.fresh m e) m = some m' ∧
      Memory.SameOutside (addresses locate chains.flatten) m m' := by
  induction chains generalizing m slots with
  | nil =>
      cases hchains
      exact ⟨m, rfl, .refl _ _⟩
  | cons first chains ih =>
      cases hchains with
      | @cons e _ slots _ hfirst hrest =>
          rw [List.flatten_cons, addresses_append] at hnodup ⊢
          obtain ⟨hfirstNodup, hrestNodup, hapart⟩ := List.nodup_append.mp hnodup
          obtain ⟨m₁, hloop, hsame₁⟩ :=
            freeChain_lays hfirst hfirstNodup (hfirst.length_le hfirstNodup)
          have hchains : Chains locate m slots chains := hrest
          obtain ⟨m', hloops, hsame⟩ := ih
            (hchains.frame hsame₁ fun a ha hmem => hapart a hmem a ha rfl) hrestNodup
          refine ⟨m', ?_, (hsame₁.mono fun a ha => List.mem_append_left _ ha).trans
            (hsame.mono fun a ha => List.mem_append_right _ ha)⟩
          rw [List.foldlM_cons, hloop]
          exact hloops

theorem Lays.dictFreeAll {m : EntryMemory κ δ} {h : Table κ} {d : Dict κ (Addr × δ)}
    (hlays : Lays m h d) :
    ∃ m', Table.dictFreeAll m h = some (m', ⟨d.keyType, [], 0⟩) ∧
      Memory.SameOutside d.addrs m m' := by
  obtain ⟨m', hloops, hsame⟩ := freeSlots_lays hlays.chains hlays.nodup
  refine ⟨m', ?_, hsame⟩
  rw [Table.dictFreeAll, hloops, ← hlays.keyType_eq]
  rfl

/-! ### Entries are counted -/

namespace Dict

def Counted (h : Dict κ δ) : Prop := h.num = h.entries.length

end Dict

/-! ### Sizes -/

/-- The sizes that a table from `dict_new` goes through. -/
def IsTableSize (size : Nat) : Prop := size = 1 ∨ ∃ k, 4 ≤ k ∧ k ≤ 30 ∧ size = 2 ^ k - 1

namespace IsTableSize

variable {size next : Nat}

theorem pos (hsize : IsTableSize size) : 0 < size := by
  rcases hsize with rfl | ⟨k, hk, -, rfl⟩
  · exact Nat.one_pos
  · exact Nat.sub_pos_of_lt (Nat.one_lt_two_pow (by omega))

theorem lt (hsize : IsTableSize size) : size * 2 < 2 ^ 31 := by
  rcases hsize with rfl | ⟨k, -, hk, rfl⟩
  · decide
  · have hle : 2 ^ k ≤ 2 ^ 30 := Nat.pow_le_pow_right (by decide) hk
    omega

theorem nextSize (hsize : IsTableSize size) (hnext : Table.nextSize size = some next) :
    IsTableSize next := by
  rw [Table.nextSize] at hnext
  by_cases hsmall : size < 15
  · rw [if_pos hsmall] at hnext
    cases hnext
    exact Or.inr ⟨4, le_refl 4, by decide, rfl⟩
  · rw [if_neg hsmall] at hnext
    obtain ⟨twice, hint, rfl⟩ := Option.map_eq_some_iff.mp hnext
    obtain ⟨hlt, rfl⟩ := int_eq_some hint
    rcases hsize with rfl | ⟨k, hk, -, rfl⟩
    · exact absurd (by decide) hsmall
    · have hdouble : (2 ^ k - 1 + 1) * 2 = 2 ^ (k + 1) := by
        rw [Nat.sub_add_cancel Nat.one_le_two_pow, Nat.pow_succ]
      rw [hdouble] at hlt ⊢
      have hexponent := (Nat.pow_lt_pow_iff_right (by decide : 1 < 2)).mp hlt
      exact Or.inr ⟨k + 1, Nat.le_succ_of_le hk, by omega, rfl⟩

theorem newSizeLoop (hsize : IsTableSize size) {num3 turns : Nat}
    (hloop : Table.newSizeLoop num3 turns size = some next) : IsTableSize next := by
  induction turns generalizing size with
  | zero => cases hloop
  | succ turns ih =>
      obtain ⟨twice, -, hrest⟩ := Option.bind_eq_some_iff.mp hloop
      split at hrest
      · obtain ⟨larger, hlarger, hrest⟩ := Option.bind_eq_some_iff.mp hrest
        exact ih (hsize.nextSize hlarger) hrest
      · cases hrest
        exact hsize

end IsTableSize

namespace Table

variable {m m' : EntryMemory κ δ} {h h' : Table κ}

theorem searchChain_keeps {hash : Nat} {key : κ} {turns : Nat} {last e found : Option Addr}
    (hsearch : searchChain hash key turns m h last e = some (m', h', found)) :
    h'.num = h.num ∧ h'.hashsize = h.hashsize := by
  induction turns generalizing last e with
  | zero =>
      cases e with
      | none =>
          cases hsearch
          exact ⟨rfl, rfl⟩
      | some e => cases hsearch
  | succ turns ih =>
      cases e with
      | none =>
          cases hsearch
          exact ⟨rfl, rfl⟩
      | some e =>
          obtain ⟨entry, -, hrest⟩ := Option.bind_eq_some_iff.mp hsearch
          split at hrest
          · obtain ⟨before, -, hrest⟩ := Option.bind_eq_some_iff.mp hrest
            obtain ⟨m₁, -, hrest⟩ := Option.bind_eq_some_iff.mp hrest
            obtain ⟨m₂, -, hrest⟩ := Option.bind_eq_some_iff.mp hrest
            cases hrest
            exact ⟨rfl, List.length_set⟩
          · exact ih hrest

theorem searchSlot_keeps {hash : Nat} {key : κ} {found : Option Addr}
    (hsearch : searchSlot m h hash key = some (m', h', found)) :
    h'.num = h.num ∧ h'.hashsize = h.hashsize := by
  obtain ⟨first, -, hrest⟩ := Option.bind_eq_some_iff.mp hsearch
  cases first with
  | found e =>
      cases hrest
      exact ⟨rfl, rfl⟩
  | rest e => exact searchChain_keeps hrest

theorem dictExpand_num {newlen : Nat} (hexpand : dictExpand m h newlen = some (m', h')) :
    h.hashsize < newlen ∧ h'.num = h.num ∧ h'.keyType = h.keyType := by
  rw [dictExpand] at hexpand
  by_cases hsize : h.hashsize < newlen
  · rw [if_pos hsize] at hexpand
    obtain ⟨_, -, hrest⟩ := Option.bind_eq_some_iff.mp hexpand
    cases hrest
    exact ⟨hsize, rfl, rfl⟩
  · rw [if_neg hsize] at hexpand
    cases hexpand

end Table

theorem Lays.dictDoLookup_keeps {m m' : EntryMemory κ δ} {h h' : Table κ} {d : Dict κ (Addr × δ)}
    (hlays : Lays m h d) {key : κ} {found : Option Addr}
    (hlookup : Table.dictDoLookup m h key = some (m', h', found)) :
    h'.num = h.num ∧ (h'.hashsize = h.hashsize ∨ h.num ≠ 0 ∧
      ∃ turns, Table.newSizeLoop (h.num * 3) turns h.hashsize = some h'.hashsize) := by
  rw [Table.dictDoLookup] at hlookup
  by_cases hzero : h.num = 0
  · rw [if_pos hzero] at hlookup
    cases hlookup
    exact ⟨rfl, Or.inl rfl⟩
  rw [if_neg hzero] at hlookup
  obtain ⟨first, -, hrest⟩ := Option.bind_eq_some_iff.mp hlookup
  cases first with
  | found e =>
      cases hrest
      exact ⟨rfl, Or.inl rfl⟩
  | rest e =>
      cases e with
      | none =>
          cases hrest
          exact ⟨rfl, Or.inl rfl⟩
      | some e =>
          obtain ⟨num3, hnum3, hrest⟩ := Option.bind_eq_some_iff.mp hrest
          obtain ⟨hashsize2, -, hrest⟩ := Option.bind_eq_some_iff.mp hrest
          obtain rfl := (int_eq_some hnum3).2
          split at hrest
          · obtain ⟨newsize, hloop, hrest⟩ := Option.bind_eq_some_iff.mp hrest
            obtain ⟨⟨m₁, h₁⟩, hexpand, hsearch⟩ := Option.bind_eq_some_iff.mp hrest
            obtain ⟨hlarger, hnum, -⟩ := Table.dictExpand_num hexpand
            obtain ⟨hnum', hsize'⟩ := Table.searchSlot_keeps hsearch
            obtain ⟨m₂, h₂, hexpanded, hlays₂, -⟩ :=
              hlays.dictExpand (hlays.hashsize_eq ▸ hlarger)
            cases hexpand.symm.trans hexpanded
            rw [hlays₂.hashsize_eq, Dict.dictExpand_hashsize] at hsize'
            exact ⟨hnum'.trans hnum, Or.inr ⟨hzero, _, hsize' ▸ hloop⟩⟩
          · obtain ⟨hnum, hsize⟩ := Table.searchChain_keeps hrest
            exact ⟨hnum, Or.inl hsize⟩

/-! ### One operation on one table -/

/-- What an operation does to a table with slots. -/
structure TableStep (m : EntryMemory κ δ) (h : Table κ) (d : Dict κ (Addr × δ))
    (m' : EntryMemory κ δ) (h' : Table κ) (d' : Dict κ (Addr × δ)) : Prop where
  lays : Lays m' h' d'
  same : Memory.SameOutside d.addrs m m'
  addrs : ∀ a ∈ d'.addrs, a ∈ d.addrs ∨ m.fresh ≤ a
  counted : d.Counted → d'.Counted
  size : h'.hashsize = h.hashsize ∨ h.num ≠ 0 ∧
    ∃ turns, Table.newSizeLoop (h.num * 3) turns h.hashsize = some h'.hashsize

namespace Lays

variable {m m' : EntryMemory κ δ} {h h' : Table κ} {d : Dict κ (Addr × δ)} {key : κ}

theorem lookup_step (hlays : Lays m h d) {found : Option Addr}
    (hlookup : Table.dictDoLookup m h key = some (m', h', found)) :
    ∃ d', TableStep m h d m' h' d' := by
  obtain ⟨hlays', hsame, -⟩ := hlays.dictDoLookup_eq_some hlookup
  obtain ⟨hperm, hnum⟩ := d.dictDoLookup_perm key
  refine ⟨_, hlays', hsame, ?_, ?_, (hlays.dictDoLookup_keeps hlookup).2⟩
  · intro a ha
    exact Or.inl ((Dict.addrs_perm hperm).mem_iff.mp ha)
  · intro hcounted
    rw [Dict.Counted, hnum, hperm.length_eq]
    exact hcounted

theorem put_step (hlays : Lays m h d) (hpos : 0 < h.hashsize) {data : δ} {e : Addr}
    (hput : Table.dictPut m h key data = some (m', h', e)) :
    ∃ d', TableStep m h d m' h' d' := by
  obtain ⟨hlays', hfresh, hsame⟩ := hlays.dictPut_eq_some hput
  have hperm := d.dictPut_perm key (e, data)
  have hslots : d.hashsize ≠ 0 := (hlays.hashsize_eq ▸ hpos).ne'
  refine ⟨_, hlays', hsame, ?_, ?_, Or.inl ?_⟩
  · intro a ha
    rcases List.mem_cons.mp ((addresses_perm hperm).mem_iff.mp ha) with rfl | hold
    · exact Or.inr hfresh
    · exact Or.inl hold
  · intro hcounted
    rw [Dict.Counted, hperm.length_eq, List.length_cons, ← hcounted, CageKeeper.dictPut,
      if_neg hslots]
  · rw [hlays'.hashsize_eq, hlays.hashsize_eq, CageKeeper.dictPut, if_neg hslots]
    exact pushFront_length ..

theorem remove_step (hlays : Lays m h d) {isMatch : Entry κ δ → Bool} {done : Bool}
    (hremove : Table.dictRemove m h key isMatch = some (m', h', done)) :
    ∃ d', TableStep m h d m' h' d' := by
  obtain ⟨m₁, h₁, hremoved, hlays', hsame⟩ := hlays.dictRemove key isMatch
  cases hremove.symm.trans hremoved
  obtain ⟨gone, hperm, hnum⟩ := d.dictRemove_perm key fun e => isMatch (locate e).2
  refine ⟨_, hlays', hsame, ?_, ?_, Or.inl ?_⟩
  · intro a ha
    left
    apply (addresses_perm hperm).mem_iff.mpr
    rw [addresses_append]
    exact List.mem_append_right _ ha
  · intro hcounted
    have hlength := hperm.length_eq
    rw [List.length_append, ← hcounted] at hlength
    rw [Dict.Counted, hnum, hlength, Nat.add_sub_cancel_left]
  · rw [hlays'.hashsize_eq, hlays.hashsize_eq, Dict.dictRemove_hashsize]

theorem clone_counted (hlays : Lays m h d) (hcounted : d.Counted)
    (hclone : Table.dictClone m h = some (m', h')) :
    ∃ d', Lays m' h' d' ∧ d'.Counted ∧ h'.hashsize = h.hashsize ∧
      Memory.SameOutside [] m m' ∧ ∀ a ∈ d'.addrs, m.fresh ≤ a := by
  obtain ⟨m₁, h₁, d', hcloned, hlays', hstrip, hmade, hsame⟩ := hlays.dictClone
  cases hclone.symm.trans hcloned
  refine ⟨d', hlays', ?_, ?_, hsame, hmade.le⟩
  · have hnum : d'.strip.num = d.strip.num := by
      rw [hstrip]
      rfl
    have hlength : d'.strip.entries.length = d.strip.entries.length := by
      rw [hstrip, (dictClone_perm d.strip).length_eq, List.length_map]
    rw [Dict.strip_entries, Dict.strip_entries, List.length_map, List.length_map] at hlength
    rw [Dict.Counted, hlength, ← hcounted]
    exact hnum
  · have hsize := congrArg Dict.hashsize hstrip
    rw [dictClone_hashsize, Dict.strip_hashsize, Dict.strip_hashsize] at hsize
    rw [hlays'.hashsize_eq, hlays.hashsize_eq, hsize]

end Lays

/-! ### Reachable tables -/

/-- The tables that have been cleared, after an operation: a copy of a cleared table is cleared, too. -/
def TableOp.cleared (w : Tables κ δ) (cleared : List Nat) : TableOp κ δ → List Nat
  | .clone table => if table ∈ cleared then w.tables.length :: cleared else cleared
  | _ => cleared

/-- The tables that can be reached with `dict_new`, the operations and `dict_clear`, and the numbers
of those that have been cleared. -/
inductive Tables.Reached [DecidableEq δ] : Tables κ δ → (cleared : List Nat) → Prop where
  | start : Reached ⟨.empty, []⟩ []
  | dictNew {w : Tables κ δ} {cleared : List Nat} (hreached : Reached w cleared)
      (type : HashType κ) : Reached ⟨w.memory, w.tables ++ [Table.dictNew type]⟩ cleared
  | step {w next : Tables κ δ} {cleared : List Nat} {op : TableOp κ δ} {answer : TableAnswer κ δ}
      (hreached : Reached w cleared) (hkeyType : op.adds → op.table ∉ cleared)
      (hstep : w.step op = some (next, answer)) : Reached next (op.cleared w cleared)
  | dictClear {w : Tables κ δ} {cleared : List Nat} {table : Nat} {h h' : Table κ}
      {m' : EntryMemory κ δ} (hreached : Reached w cleared) (hw : w.tables[table]? = some h)
      (hclear : Table.dictFreeAll w.memory h = some (m', h')) :
      Reached (w.update table m' h') (table :: cleared)

/-- The entries of all tables are counted, and their sizes are those of tables. -/
structure Kept (w : Tables κ δ) (cleared : List Nat) (views : List (Dict κ (Addr × δ))) : Prop where
  laid : Laid w views
  counted : ∀ d ∈ views, d.Counted
  cleared_lt : ∀ table ∈ cleared, table < w.tables.length
  size : ∀ (table : Nat) h, w.tables[table]? = some h →
    if table ∈ cleared then h.hashsize = 0 else IsTableSize h.hashsize

namespace Kept

variable {w next : Tables κ δ} {cleared : List Nat} {views : List (Dict κ (Addr × δ))}
  {table : Nat} {h h' : Table κ} {d d' : Dict κ (Addr × δ)} {m' : EntryMemory κ δ}

theorem num_eq_zero (hkept : Kept w cleared views) (hw : w.tables[table]? = some h)
    (hcleared : table ∈ cleared) : h.num = 0 := by
  obtain ⟨d, hd, hlays⟩ := hkept.laid.get hw
  have hsize := hkept.size table h hw
  rw [if_pos hcleared, hlays.hashsize_eq] at hsize
  rw [hlays.num_eq, hkept.counted d (List.mem_of_getElem? hd), Dict.entries,
    List.length_eq_zero_iff.mp hsize]
  rfl

theorem update (hkept : Kept w cleared views) (hw : w.tables[table]? = some h)
    (hd : views[table]? = some d) (hstep : TableStep w.memory h d m' h' d') :
    Kept (w.update table m' h') cleared (views.set table d') where
  laid := hkept.laid.update hd hstep.lays hstep.same hstep.addrs
  counted e he := by
    rcases List.mem_or_eq_of_mem_set he with hold | rfl
    · exact hkept.counted e hold
    · exact hstep.counted (hkept.counted d (List.mem_of_getElem? hd))
  cleared_lt other hmem := by
    rw [Tables.update, List.length_set]
    exact hkept.cleared_lt other hmem
  size other g hg := by
    rcases getElem?_set_cases hg with ⟨rfl, rfl⟩ | ⟨-, hg⟩
    · have hold := hkept.size table h hw
      rcases hstep.size with hsize | ⟨hnum, turns, hloop⟩
      · rwa [hsize]
      · have hlive : table ∉ cleared := fun hcleared => hnum (hkept.num_eq_zero hw hcleared)
        rw [if_neg hlive] at hold ⊢
        exact hold.newSizeLoop hloop
    · exact hkept.size other g hg

theorem append (hkept : Kept w cleared views) (hlays : Lays m' h' d') (hcounted : d'.Counted)
    (hsame : Memory.SameOutside [] w.memory m') (haddrs : ∀ a ∈ d'.addrs, w.memory.fresh ≤ a)
    {cleared' : List Nat} (hcleared : cleared' = cleared ∧ IsTableSize h'.hashsize ∨
      cleared' = w.tables.length :: cleared ∧ h'.hashsize = 0) :
    Kept ⟨m', w.tables ++ [h']⟩ cleared' (views ++ [d']) := by
  have hsubset : ∀ other ∈ cleared', other = w.tables.length ∨ other ∈ cleared := by
    rcases hcleared with ⟨rfl, -⟩ | ⟨rfl, -⟩
    · exact fun other hmem => Or.inr hmem
    · exact fun other hmem => List.mem_cons.mp hmem
  refine ⟨hkept.laid.append hlays hsame haddrs, ?_, ?_, ?_⟩
  · intro e he
    rcases List.mem_append.mp he with hold | hnew
    · exact hkept.counted e hold
    · rwa [List.mem_singleton.mp hnew]
  · intro other hmem
    rw [List.length_append, List.length_singleton]
    rcases hsubset other hmem with rfl | hold
    · exact Nat.lt_succ_self _
    · exact Nat.lt_succ_of_lt (hkept.cleared_lt other hold)
  · intro other g hg
    rcases getElem?_append_cases hg with hg | ⟨rfl, rfl⟩
    · have hlt := (List.getElem?_eq_some_iff.mp hg).1
      have hsame : other ∈ cleared' ↔ other ∈ cleared := by
        rcases hcleared with ⟨rfl, -⟩ | ⟨rfl, -⟩
        · exact Iff.rfl
        · exact ⟨fun hmem => (List.mem_cons.mp hmem).resolve_left hlt.ne, List.mem_cons_of_mem _⟩
      rw [if_congr hsame rfl rfl]
      exact hkept.size other g hg
    · rcases hcleared with ⟨heq, hsize⟩ | ⟨heq, hsize⟩
      · have hlive : w.tables.length ∉ cleared := fun hmem =>
          Nat.lt_irrefl _ (hkept.cleared_lt _ hmem)
        rwa [heq, if_neg hlive]
      · rwa [heq, if_pos (List.mem_cons_self ..)]

theorem clear (hkept : Kept w cleared views) (hw : w.tables[table]? = some h)
    (hd : views[table]? = some d) (hclear : Table.dictFreeAll w.memory h = some (m', h')) :
    Kept (w.update table m' h') (table :: cleared) (views.set table ⟨d.keyType, [], 0⟩) := by
  have hlays := hkept.laid.lays table h d hw hd
  obtain ⟨m₁, hfreed, hsame⟩ := hlays.dictFreeAll
  cases hclear.symm.trans hfreed
  refine ⟨hkept.laid.update hd ⟨rfl, rfl, .nil, List.nodup_nil⟩ hsame nofun, ?_, ?_, ?_⟩
  · intro e he
    rcases List.mem_or_eq_of_mem_set he with hold | rfl
    · exact hkept.counted e hold
    · rfl
  · intro other hmem
    rw [Tables.update, List.length_set]
    rcases List.mem_cons.mp hmem with rfl | hold
    · exact (List.getElem?_eq_some_iff.mp hw).1
    · exact hkept.cleared_lt other hold
  · intro other g hg
    rcases getElem?_set_cases hg with ⟨rfl, rfl⟩ | ⟨hne, hg⟩
    · rw [if_pos (List.mem_cons_self ..)]
      rfl
    · have hsame : other ∈ table :: cleared ↔ other ∈ cleared :=
        ⟨fun hmem => (List.mem_cons.mp hmem).resolve_left (Ne.symm hne), List.mem_cons_of_mem _⟩
      rw [if_congr hsame rfl rfl]
      exact hkept.size other g hg

/-- **One operation.** Whatever it is, all tables are kept. -/
theorem step [DecidableEq δ] (hkept : Kept w cleared views) {op : TableOp κ δ}
    {answer : TableAnswer κ δ} (hkeyType : op.adds → op.table ∉ cleared)
    (hstep : w.step op = some (next, answer)) :
    ∃ views', Kept next (op.cleared w cleared) views' := by
  obtain ⟨h, hw, hturn⟩ := Tables.step_turn hstep
  obtain ⟨d, hd, hlays⟩ := hkept.laid.get hw
  have hsize := hkept.size _ h hw
  cases hturn with
  | put hput =>
      rw [if_neg (hkeyType rfl)] at hsize
      obtain ⟨d', htable⟩ := hlays.put_step hsize.pos hput
      exact ⟨_, hkept.update hw hd htable⟩
  | lookup hlookup =>
      obtain ⟨d', htable⟩ := hlays.lookup_step hlookup
      exact ⟨_, hkept.update hw hd htable⟩
  | contains hlookup =>
      obtain ⟨d', htable⟩ := hlays.lookup_step hlookup
      exact ⟨_, hkept.update hw hd htable⟩
  | del hremove =>
      obtain ⟨d', htable⟩ := hlays.remove_step hremove
      exact ⟨_, hkept.update hw hd htable⟩
  | del2 hremove =>
      obtain ⟨d', htable⟩ := hlays.remove_step hremove
      exact ⟨_, hkept.update hw hd htable⟩
  | @clone table m' h' hclone =>
      obtain ⟨d', hlays', hcounted, hequal, hsame, haddrs⟩ :=
        hlays.clone_counted (hkept.counted d (List.mem_of_getElem? hd)) hclone
      refine ⟨_, hkept.append hlays' hcounted hsame haddrs ?_⟩
      rw [TableOp.cleared, hequal]
      by_cases hcleared : table ∈ cleared
      · rw [if_pos hcleared]
        exact Or.inr ⟨rfl, (if_pos hcleared).mp hsize⟩
      · rw [if_neg hcleared]
        exact Or.inl ⟨rfl, (if_neg hcleared).mp hsize⟩
  | foreach => exact ⟨views, hkept⟩

end Kept

/-- **All runs.** The tables that can be reached are kept. -/
theorem Tables.Reached.kept [DecidableEq δ] {w : Tables κ δ} {cleared : List Nat}
    (hreached : w.Reached cleared) : ∃ views, Kept w cleared views := by
  induction hreached with
  | start => exact ⟨[], ⟨rfl, nofun, nofun⟩, nofun, nofun, nofun⟩
  | dictNew hreached type ih =>
      obtain ⟨views, hkept⟩ := ih
      exact ⟨_, hkept.append (lays_dictInit2 _ type 1) (Dict.dictNew_sound type).num_eq (.refl _ _)
        nofun (Or.inl ⟨rfl, Or.inl rfl⟩)⟩
  | step hreached hkeyType hstep ih =>
      obtain ⟨views, hkept⟩ := ih
      exact hkept.step hkeyType hstep
  | dictClear hreached hw hclear ih =>
      obtain ⟨views, hkept⟩ := ih
      obtain ⟨d, hd, -⟩ := hkept.laid.get hw
      exact ⟨_, hkept.clear hw hd hclear⟩

end CageKeeper
