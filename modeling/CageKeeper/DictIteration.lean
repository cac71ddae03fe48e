import CageKeeper.DictCopies
import Mathlib.Data.List.Pairwise

/-! The walk over a table with a function that changes it. `dict_foreach_keyvalue` reads the pointer
to the next entry of a chain twice: before it runs the function, and again behind it. The second one
is followed, and there is no entry any more where the function has deleted the one it runs on. -/

namespace CageKeeper
open LinkedCells

variable {κ δ σ : Type}

/-! ### The loops -/

/-- What a walk can change: the data of the function that it runs, the memory and the table. -/
structure WalkState (σ κ δ : Type) where
  state : σ
  memory : EntryMemory κ δ
  table : Table κ

/-- A function that a walk runs on the key and the data of an entry. -/
abbrev WalkFunction (σ κ δ : Type) := WalkState σ κ δ → κ → δ → Option (WalkState σ κ δ)

namespace Table

/-- The loop of `dict_foreach_keyvalue` along a chain. -/
def walkChain (runFunction : Option (WalkFunction σ κ δ)) : (turns : Nat) → WalkState σ κ δ →
    (e : Option Addr) → Option (WalkState σ κ δ)
  | _, w, none => some w
  | 0, _, some _ => none
  | turns + 1, w, some e => do
      -- `next` is `e->next` here, and it is not used
      let entry ← w.memory.cell e
      let w ← match runFunction with
        | none => some w
        | some runFunction => runFunction w entry.content.key entry.content.data
      -- `e = e->next`
      let entry ← w.memory.cell e
      walkChain runFunction turns w entry.next

/-- The loop of `dict_foreach_keyvalue` over the slots. -/
def walkSlots (runFunction : Option (WalkFunction σ κ δ)) (chainTurns : Nat) : (turns : Nat) →
    WalkState σ κ δ → (t : Nat) → Option (WalkState σ κ δ)
  | 0, _, _ => none
  | turns + 1, w, t =>
      if t < w.table.hashsize then do
        let w ← walkChain runFunction chainTurns w (w.table.slot t)
        walkSlots runFunction chainTurns turns w (t + 1)
      else some w

/-- `dict_foreach_keyvalue`. The function may change the table, so that the loops have as many turns as
one likes. -/
def foreachKeyvalue (runFunction : Option (WalkFunction σ κ δ)) (turns : Nat)
    (w : WalkState σ κ δ) : Option (WalkState σ κ δ) :=
  walkSlots runFunction turns turns w 0

end Table

/-- A function that writes down what it is called on and deletes some of the entries with `dict_del`,
each when it is called on it. -/
def deleteVisited (deletes : κ → δ → Bool) : WalkFunction (List (κ × δ)) κ δ := fun w key data =>
  let visited := w.state ++ [(key, data)]
  if deletes key data then do
    let (m, h, _) ← Table.dictDel w.memory w.table key
    some ⟨visited, m, h⟩
  else some ⟨visited, w.memory, w.table⟩

/-! ### Functions that leave the table alone -/

section Unchanged

variable {m : EntryMemory κ δ} {h : Table κ} {d : Dict κ (Addr × δ)}
  {runFunction : WalkFunction σ κ δ} {change : σ → κ → δ → σ}

/-- On an entry, the function changes nothing but its data. -/
def LeavesTable (runFunction : WalkFunction σ κ δ) (change : σ → κ → δ → σ) (m : EntryMemory κ δ)
    (h : Table κ) (e : Entry κ (Addr × δ)) : Prop :=
  ∀ state, runFunction ⟨state, m, h⟩ e.key e.data.2 = some ⟨change state e.key e.data.2, m, h⟩

/-- The data of the function after some entries. -/
def changes (change : σ → κ → δ → σ) (state : σ) (entries : List (Entry κ (Addr × δ))) : σ :=
  entries.foldl (fun state e => change state e.key e.data.2) state

theorem changes_append (state : σ) (front back : List (Entry κ (Addr × δ))) :
    changes change state (front ++ back) = changes change (changes change state front) back :=
  List.foldl_append

theorem walkChain_eq {e : Option Addr} {entries : List (Entry κ (Addr × δ))}
    (hsegment : Segment locate m e entries none)
    (hleaves : ∀ e ∈ entries, LeavesTable runFunction change m h e) (turns : Nat) (state : σ) :
    Table.walkChain (some runFunction) turns ⟨state, m, h⟩ e
      = if entries.length ≤ turns then some ⟨changes change state entries, m, h⟩ else none := by
  induction entries generalizing e turns state with
  | nil =>
      obtain rfl : e = none := hsegment
      rw [Table.walkChain, List.length_nil, if_pos (Nat.zero_le turns)]
      rfl
  | cons entry entries ih =>
      obtain ⟨rfl, next, hcell, hrest⟩ := hsegment
      obtain ⟨hentry, hentries⟩ := List.forall_mem_cons.mp hleaves
      cases turns with
      | zero => rfl
      | succ turns =>
          have hrun := hentry state
          simp only [Table.walkChain, hcell, locate_key, locate_data, Option.bind_eq_bind,
            Option.bind_some, hrun]
          rw [ih hrest hentries]
          exact if_congr (Nat.succ_le_succ_iff).symm rfl rfl

theorem drop_flatten {slots : List (List (Entry κ (Addr × δ)))} {t : Nat} (ht : t < slots.length) :
    (slots.drop t).flatten = chain slots t ++ (slots.drop (t + 1)).flatten := by
  rw [List.drop_eq_getElem_cons ht, List.flatten_cons, chain, List.getD_eq_getElem _ _ ht]

theorem walkSlots_eq (hlays : Lays m h d)
    (hleaves : ∀ e ∈ d.entries, LeavesTable runFunction change m h e) {chainTurns : Nat}
    (hchainTurns : m.fresh ≤ chainTurns) {turns t : Nat} (hturns : d.hashsize - t < turns)
    (state : σ) :
    Table.walkSlots (some runFunction) chainTurns turns ⟨state, m, h⟩ t
      = some ⟨changes change state (d.slots.drop t).flatten, m, h⟩ := by
  induction turns generalizing t state with
  | zero => exact absurd hturns (Nat.not_lt_zero _)
  | succ turns ih =>
      rw [Table.walkSlots]
      dsimp only
      rw [hlays.hashsize_eq]
      by_cases ht : t < d.hashsize
      · have hchain := walkChain_eq (hlays.segment t)
          (fun e hmem => hleaves e (Dict.mem_entries_of_chain hmem)) chainTurns state
        rw [if_pos ((hlays.length_chain_le t).trans hchainTurns)] at hchain
        rw [if_pos ht, hchain, drop_flatten ht, changes_append]
        exact ih (by omega) _
      · rw [if_neg ht, List.drop_of_length_le (Nat.le_of_not_lt ht)]
        rfl

theorem Lays.foreachKeyvalue (hlays : Lays m h d)
    (hleaves : ∀ e ∈ d.entries, LeavesTable runFunction change m h e) {turns : Nat}
    (hchains : m.fresh ≤ turns) (hslots : d.hashsize < turns) (state : σ) :
    Table.foreachKeyvalue (some runFunction) turns ⟨state, m, h⟩
      = (Table.dictForeachKeyvalue change m h state).map fun state => ⟨state, m, h⟩ := by
  rw [Table.foreachKeyvalue, walkSlots_eq hlays hleaves hchains hslots,
    hlays.dictForeachKeyvalue]
  rfl

end Unchanged

/-! ### Freed entries -/

section Freed

variable {m m' : EntryMemory κ δ} {h h' : Table κ} {d : Dict κ (Addr × δ)}

theorem removeChain_frees {isMatch : Entry κ δ → Bool} {hash : Nat} {head prev e : Option Addr}
    {entries : List (Entry κ (Addr × δ))} (hsegment : Segment locate m e entries none)
    (hmatch : ∃ x ∈ entries, isMatch (locate x).2) {turns : Nat} {found : Bool}
    (hresult : Table.removeChain isMatch hash head turns m h prev e = some (m', h', found)) :
    ∃ x ∈ entries, isMatch (locate x).2 ∧ m'.cell (locate x).1 = none := by
  induction entries generalizing e prev turns with
  | nil =>
      obtain ⟨x, hmem, -⟩ := hmatch
      cases hmem
  | cons entry entries ih =>
      obtain ⟨rfl, next, hcell, hrest⟩ := hsegment
      cases turns with
      | zero => cases hresult
      | succ turns =>
          simp only [Table.removeChain, hcell, Option.bind_eq_bind, Option.bind_some] at hresult
          by_cases hentry : isMatch (locate entry).2 = true
          · refine ⟨entry, List.mem_cons_self .., hentry, ?_⟩
            obtain ⟨m₁, hfree, hwritten⟩ := Memory.free_eq hcell
            rw [if_pos hentry, hfree, Option.bind_some] at hresult
            split at hresult
            · cases hresult
              exact hwritten.cell_self
            · obtain ⟨before, -, hresult⟩ := Option.bind_eq_some_iff.mp hresult
              obtain ⟨m₂, hset, hresult⟩ := Option.bind_eq_some_iff.mp hresult
              cases hresult
              exact Memory.setNext_of_none hset hwritten.cell_self
          · rw [if_neg hentry] at hresult
            obtain ⟨x, hmem, hx⟩ := hmatch
            have hlater : x ∈ entries := by
              rcases List.mem_cons.mp hmem with rfl | hmem
              · exact absurd hx hentry
              · exact hmem
            obtain ⟨y, hy, hfreed⟩ := ih hrest ⟨x, hlater, hx⟩ hresult
            exact ⟨y, List.mem_cons_of_mem _ hy, hfreed⟩

def Dict.KeysDistinct (d : Dict κ δ) : Prop :=
  d.entries.Pairwise fun left right => ¬d.keyType.equals left.key right.key

/-- With one entry for each key, `dict_del` frees the entry whose key it gets. -/
theorem Lays.dictDel_frees (hlays : Lays m h d) (hsound : d.Sound) (hlawful : d.keyType.Lawful)
    (hdistinct : d.KeysDistinct) {e : Entry κ (Addr × δ)} (hmem : e ∈ d.entries) {found : Bool}
    (hresult : Table.dictDel m h e.key = some (m', h', found)) : m'.cell (locate e).1 = none := by
  have hnum : d.num ≠ 0 := by
    rw [hsound.num_eq]
    exact (List.length_pos_of_mem hmem).ne'
  rw [Table.dictDel, Table.dictRemove, hlays.num_eq, hlays.keyType_eq, hlays.hashsize_eq,
    if_neg hnum] at hresult
  have hself := hsound.mem_chain_of_equals hlawful hmem (hlawful.refl e.key)
  obtain ⟨x, hx, hmatch, hfreed⟩ :=
    removeChain_frees (hlays.segment _) ⟨e, hself, hlawful.refl e.key⟩ hresult
  have hsymm : Std.Symm fun left right : Entry κ (Addr × δ) =>
      ¬d.keyType.equals left.key right.key = true :=
    ⟨fun _ _ hapart hequals => hapart (hlawful.symm hequals)⟩
  have heq : x = e := by
    by_contra hne
    exact hdistinct.forall (Dict.mem_entries_of_chain hx) hmem hne hmatch
  rwa [heq] at hfreed

theorem deleteVisited_keeps {deletes : κ → δ → Bool} {e : Entry κ (Addr × δ)}
    (hkeeps : ¬deletes e.key e.data.2) :
    LeavesTable (deleteVisited deletes) (fun visited key data => visited ++ [(key, data)]) m h e :=
  fun _ => if_neg hkeeps

theorem deleteVisited_frees {deletes : κ → δ → Bool} {visited : List (κ × δ)} {key : κ} {data : δ}
    {w : WalkState (List (κ × δ)) κ δ} (hdeletes : deletes key data)
    (hrun : deleteVisited deletes ⟨visited, m, h⟩ key data = some w) :
    ∃ h' found, Table.dictDel m h key = some (w.memory, h', found) := by
  unfold deleteVisited at hrun
  dsimp only at hrun
  rw [if_pos hdeletes] at hrun
  obtain ⟨⟨m', h', found⟩, hdel, hrun⟩ := Option.bind_eq_some_iff.mp hrun
  cases hrun
  exact ⟨h', found, hdel⟩

/-- **A deleted entry is read.** The walk along a chain has no result where the function deletes an
entry. -/
theorem walkChain_eq_none {deletes : κ → δ → Bool} {e : Option Addr}
    {entries : List (Entry κ (Addr × δ))} (hsegment : Segment locate m e entries none)
    (hfrees : ∀ e ∈ entries, ∀ {m' h' found}, Table.dictDel m h e.key = some (m', h', found) →
      m'.cell (locate e).1 = none)
    (hdeletes : ∃ e ∈ entries, deletes e.key e.data.2) (turns : Nat) (visited : List (κ × δ)) :
    Table.walkChain (some (deleteVisited deletes)) turns ⟨visited, m, h⟩ e = none := by
  induction entries generalizing e turns visited with
  | nil =>
      obtain ⟨x, hmem, -⟩ := hdeletes
      cases hmem
  | cons entry entries ih =>
      obtain ⟨rfl, next, hcell, hrest⟩ := hsegment
      obtain ⟨hfree, hothers⟩ := List.forall_mem_cons.mp hfrees
      cases turns with
      | zero => rfl
      | succ turns =>
          rw [Table.walkChain, hcell]
          show (deleteVisited deletes ⟨visited, m, h⟩ entry.key entry.data.2).bind (fun w =>
            (w.memory.cell (locate entry).1).bind fun entry =>
              Table.walkChain (some (deleteVisited deletes)) turns w entry.next) = none
          by_cases hentry : deletes entry.key entry.data.2 = true
          · rw [Option.bind_eq_none_iff]
            intro w hrun
            obtain ⟨h', found, hdel⟩ := deleteVisited_frees hentry hrun
            rw [hfree hdel, Option.bind_none]
          · rw [deleteVisited_keeps hentry visited, Option.bind_some, hcell, Option.bind_some]
            refine ih hrest (fun e hmem => hothers e hmem) ?_ turns _
            obtain ⟨x, hmem, hx⟩ := hdeletes
            rcases List.mem_cons.mp hmem with rfl | hmem
            · exact absurd hx hentry
            · exact ⟨x, hmem, hx⟩

/-- The slots before the one in which an entry is deleted leave the table alone. -/
theorem walkSlots_eq_none (hlays : Lays m h d) (hsound : d.Sound) (hlawful : d.keyType.Lawful)
    (hdistinct : d.KeysDistinct) {deletes : κ → δ → Bool} {t : Nat}
    (hdeletes : ∃ e ∈ (d.slots.drop t).flatten, deletes e.key e.data.2) (chainTurns turns : Nat)
    (visited : List (κ × δ)) :
    Table.walkSlots (some (deleteVisited deletes)) chainTurns turns ⟨visited, m, h⟩ t = none := by
  induction turns generalizing t visited with
  | zero => rfl
  | succ turns ih =>
      have ht : t < d.slots.length := by
        obtain ⟨e, hmem, -⟩ := hdeletes
        by_contra hlast
        rw [List.drop_of_length_le (Nat.le_of_not_lt hlast)] at hmem
        cases hmem
      have hindex : t < h.hashsize := hlays.hashsize_eq ▸ ht
      rw [Table.walkSlots]
      dsimp only
      rw [if_pos hindex]
      by_cases hchain : ∃ e ∈ chain d.slots t, deletes e.key e.data.2
      · rw [walkChain_eq_none (hlays.segment t) (fun e hmem => hlays.dictDel_frees hsound hlawful
          hdistinct (Dict.mem_entries_of_chain hmem)) hchain]
        rfl
      · have hleaves : ∀ e ∈ chain d.slots t, LeavesTable (deleteVisited deletes)
            (fun visited key data => visited ++ [(key, data)]) m h e := by
          intro e hmem
          apply deleteVisited_keeps
          exact fun he => hchain ⟨e, hmem, he⟩
        have hlater : ∃ e ∈ (d.slots.drop (t + 1)).flatten, deletes e.key e.data.2 := by
          obtain ⟨e, hmem, he⟩ := hdeletes
          rw [drop_flatten ht, List.mem_append] at hmem
          exact ⟨e, hmem.resolve_left fun hfirst => hchain ⟨e, hfirst, he⟩, he⟩
        rw [walkChain_eq (hlays.segment t) hleaves]
        by_cases hturns : (chain d.slots t).length ≤ chainTurns
        · rw [if_pos hturns]
          exact ih hlater _
        · rw [if_neg hturns]
          rfl

end Freed

/-! ### Deletion during a walk -/

/-- A walk with a function that deletes some of the entries calls it once for every entry and leaves
the others. -/
def ToleratesDeletion (m : EntryMemory κ δ) (h : Table κ) (d : Dict κ (Addr × δ))
    (deletes : κ → δ → Bool) : Prop :=
  ∃ turns visited m' h' d',
    Table.foreachKeyvalue (some (deleteVisited deletes)) turns ⟨[], m, h⟩ = some ⟨visited, m', h'⟩ ∧
    visited.Perm (d.entries.map fun e => (e.key, e.data.2)) ∧ Lays m' h' d' ∧
    d'.entries.Perm (d.entries.filter fun e => !deletes e.key e.data.2)

/-- **Deletion during a walk.** A table with one entry for each key can be walked over by a function
that deletes entries that it is called on just if it deletes none of them: behind the function, the
next entry is looked for in an entry that has been freed. -/
theorem toleratesDeletion_iff {m : EntryMemory κ δ} {h : Table κ} {d : Dict κ (Addr × δ)}
    (hlays : Lays m h d) (hsound : d.Sound) (hlawful : d.keyType.Lawful)
    (hdistinct : d.KeysDistinct) (deletes : κ → δ → Bool) :
    ToleratesDeletion m h d deletes ↔ ∀ e ∈ d.entries, deletes e.key e.data.2 = false := by
  constructor
  · rintro ⟨turns, visited, m', h', d', hwalk, -⟩ e hmem
    by_contra hdeletes
    rw [Bool.not_eq_false] at hdeletes
    have hnone := walkSlots_eq_none (t := 0) hlays hsound hlawful hdistinct
      ⟨e, hmem, hdeletes⟩ turns turns []
    rw [Table.foreachKeyvalue, hnone] at hwalk
    cases hwalk
  · intro hkeeps
    have hleaves : ∀ e ∈ d.entries, LeavesTable (deleteVisited deletes)
        (fun visited key data => visited ++ [(key, data)]) m h e := by
      intro e hmem
      apply deleteVisited_keeps
      rw [hkeeps e hmem]
      exact Bool.false_ne_true
    have hfilter : d.entries.filter (fun e => !deletes e.key e.data.2) = d.entries := by
      apply List.filter_eq_self.mpr
      intro e hmem
      rw [hkeeps e hmem, Bool.not_false]
    refine ⟨max m.fresh (d.hashsize + 1), d.entries.map fun e => (e.key, e.data.2), m, h, d, ?_,
      .refl _, hlays, by rw [hfilter]⟩
    rw [hlays.foreachKeyvalue hleaves (Nat.le_max_left ..) (Nat.le_max_right ..),
      hlays.dictForeachKeyvalue, foldl_visited]
    rfl

/-- The memory of a table with one slot and the keys `f` and `g`, one after the other. -/
def twoKeysMemory : EntryMemory (Option CString) Nat :=
  ((Memory.empty.alloc ⟨⟨some (.lit "f"), charptrType.hash (some (.lit "f")), 1⟩, none⟩).1.alloc
    ⟨⟨some (.lit "g"), charptrType.hash (some (.lit "g")), 2⟩, some 0⟩).1

def twoKeysTable : Table (Option CString) := ⟨charptrType, [some 1], 2⟩

def twoKeys : Dict (Option CString) (Addr × Nat) :=
  ⟨charptrType, [[⟨some (.lit "g"), charptrType.hash (some (.lit "g")), (1, 2)⟩,
    ⟨some (.lit "f"), charptrType.hash (some (.lit "f")), (0, 1)⟩]], 2⟩

theorem twoKeys_lays : Lays twoKeysMemory twoKeysTable twoKeys where
  keyType_eq := rfl
  num_eq := rfl
  chains := .cons ⟨rfl, some 0, rfl, rfl, none, rfl, rfl⟩ .nil
  nodup := by decide

theorem twoKeys_sound : twoKeys.Sound := by
  refine ⟨?_, ?_, rfl⟩
  · intro e hmem
    rcases List.mem_cons.mp hmem with rfl | hmem
    · rfl
    · rw [List.mem_singleton.mp hmem]
      rfl
  · intro index e hmem
    cases index with
    | zero => exact Nat.mod_one _
    | succ index => cases hmem

theorem twoKeys_distinct : twoKeys.KeysDistinct := by
  refine .cons ?_ (List.pairwise_singleton ..)
  intro e hmem
  rw [List.mem_singleton.mp hmem]
  show ¬charptrEquals (some (.lit "g")) (some (.lit "f")) = true
  decide +kernel

/-- The two keys have been put into a new table. -/
example : (Table.dictPut .empty (Table.dictNew charptrType) (some (.lit "f")) 1).bind
    (fun (m, h, _) => (Table.dictPut m h (some (.lit "g")) 2).map fun (m, h, _) => (m, h))
      = some (twoKeysMemory, twoKeysTable) :=
  rfl

/-- No deletion: both entries are visited. -/
theorem toleratesDeletion_iff_none :
    ToleratesDeletion twoKeysMemory twoKeysTable twoKeys fun _ _ => false :=
  (toleratesDeletion_iff twoKeys_lays twoKeys_sound charptrType_lawful twoKeys_distinct _).mpr
    fun _ _ => rfl

/-- The first of the two entries is deleted when the function is called on it. -/
theorem deletion_reads_freed :
    ¬∀ (m : EntryMemory (Option CString) Nat) (h : Table (Option CString))
      (d : Dict (Option CString) (Addr × Nat)) (deletes : Option CString → Nat → Bool),
      Lays m h d → d.Sound → d.keyType.Lawful → d.KeysDistinct →
        ToleratesDeletion m h d deletes := by
  intro hclaim
  obtain ⟨turns, visited, m', h', d', hwalk, -⟩ := hclaim _ _ _
    (fun _ data => data == 2) twoKeys_lays twoKeys_sound charptrType_lawful twoKeys_distinct
  have hnone : Table.walkSlots (some (deleteVisited fun _ data => data == 2)) turns turns
      ⟨[], twoKeysMemory, twoKeysTable⟩ 0 = none :=
    walkSlots_eq_none twoKeys_lays twoKeys_sound charptrType_lawful twoKeys_distinct
      ⟨_, List.mem_cons_self .., rfl⟩ turns turns []
  rw [Table.foreachKeyvalue, hnone] at hwalk
  cases hwalk

end CageKeeper
