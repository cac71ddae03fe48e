import CageKeeper.DictReached

/-! Lookups that make a table grow. Behind the first entry of a chain, a lookup finds a new size for a
table that is two thirds full, and starts again in the slot that the key has then. -/

namespace CageKeeper
open LinkedCells

variable {κ δ : Type}

/-! ### What a search looks at -/

namespace Table

/-- `searchChain`, and the entries whose keys it compares. -/
def searchChainSeen (hash : Nat) (key : κ) : (turns : Nat) → EntryMemory κ δ → Table κ →
    (last e : Option Addr) → Option ((EntryMemory κ δ × Table κ × Option Addr) × List Addr)
  | _, m, h, _, none => some ((m, h, none), [])
  | 0, _, _, _, some _ => none
  | turns + 1, m, h, last, some e => do
      let entry ← m.cell e
      if h.keyType.equals entry.content.key key then
        let last ← last
        let m ← m.setNext last entry.next
        let m ← m.setNext e (h.slot hash)
        some ((m, { h with slots := h.slots.set hash (some e) }, some e), [e])
      else do
        let (result, seen) ← searchChainSeen hash key turns m h (some e) entry.next
        some (result, e :: seen)

/-- `searchSlot`, and the entries whose keys it compares. -/
def searchSlotSeen (m : EntryMemory κ δ) (h : Table κ) (hash : Nat) (key : κ) :
    Option ((EntryMemory κ δ × Table κ × Option Addr) × List Addr) := do
  match ← checkFirst m h hash key with
  | .found e => some ((m, h, some e), [e])
  | .rest e => do
      let (result, seen) ← searchChainSeen hash key m.fresh m h (h.slot hash) e
      some (result, (h.slot hash).toList ++ seen)

theorem searchChainSeen_fst (hash : Nat) (key : κ) (turns : Nat) (m : EntryMemory κ δ) (h : Table κ)
    (last e : Option Addr) :
    (searchChainSeen hash key turns m h last e).map Prod.fst
      = searchChain hash key turns m h last e := by
  induction turns generalizing last e with
  | zero => cases e <;> rfl
  | succ turns ih =>
      cases e with
      | none => rfl
      | some e =>
          rw [searchChainSeen, searchChain]
          cases m.cell e with
          | none => rfl
          | some entry =>
              simp only [Option.bind_eq_bind, Option.bind_some]
              by_cases hequals : h.keyType.equals entry.content.key key = true
              · rw [if_pos hequals, if_pos hequals]
                simp only [Option.map_bind, Function.comp_def, Option.map_some]
              · rw [if_neg hequals, if_neg hequals, ← ih]
                simp only [Option.map_bind, Function.comp_def, Option.map_some]
                exact (Option.map_eq_bind ..).symm

theorem searchSlotSeen_fst (m : EntryMemory κ δ) (h : Table κ) (hash : Nat) (key : κ) :
    (searchSlotSeen m h hash key).map Prod.fst = searchSlot m h hash key := by
  rw [searchSlotSeen, searchSlot]
  cases checkFirst m h hash key with
  | none => rfl
  | some first =>
      cases first with
      | found e => rfl
      | rest e =>
          simp only [Option.bind_eq_bind, Option.bind_some]
          rw [← searchChainSeen_fst]
          simp only [Option.map_bind, Function.comp_def, Option.map_some]
          exact (Option.map_eq_bind ..).symm

end Table

/-- The entries of a chain are looked at one after the other, up to the first match. -/
inductive LooksThrough (equals : κ → Bool) : List (Entry κ (Addr × δ)) → (found : Option Addr) →
    (seen : List Addr) → Prop where
  | nothing : LooksThrough equals [] none []
  | found {e : Entry κ (Addr × δ)} {rest : List (Entry κ (Addr × δ))} (hequals : equals e.key) :
      LooksThrough equals (e :: rest) (some (locate e).1) [(locate e).1]
  | next {e : Entry κ (Addr × δ)} {rest : List (Entry κ (Addr × δ))} {found : Option Addr}
      {seen : List Addr} (hdiffers : ¬equals e.key) (hrest : LooksThrough equals rest found seen) :
      LooksThrough equals (e :: rest) found ((locate e).1 :: seen)

theorem LooksThrough.eq_addresses {equals : κ → Bool} {entries : List (Entry κ (Addr × δ))}
    {found : Option Addr} {seen : List Addr} (hlooks : LooksThrough equals entries found seen)
    (hnone : found = none) : seen = addresses locate entries := by
  induction hlooks with
  | nothing => rfl
  | found hequals => cases hnone
  | next hdiffers hrest ih => rw [ih hnone, addresses_cons]

section Seen

variable {m m' : EntryMemory κ δ} {h h' : Table κ} {hash : Nat} {key : κ} {found : Option Addr}
  {seen : List Addr} {entries : List (Entry κ (Addr × δ))}

theorem searchChainSeen_looks {e last : Option Addr} (hsegment : Segment locate m e entries none)
    {turns : Nat} (hsearch : Table.searchChainSeen hash key turns m h last e
      = some ((m', h', found), seen)) :
    LooksThrough (h.keyType.equals · key) entries found seen := by
  induction entries generalizing e last turns seen with
  | nil =>
      obtain rfl : e = none := hsegment
      rw [Table.searchChainSeen] at hsearch
      cases hsearch
      exact .nothing
  | cons entry entries ih =>
      obtain ⟨rfl, next, hcell, hrest⟩ := hsegment
      cases turns with
      | zero => cases hsearch
      | succ turns =>
          simp only [Table.searchChainSeen, hcell, Option.bind_eq_bind, Option.bind_some,
            locate_key] at hsearch
          by_cases hequals : h.keyType.equals entry.key key = true
          · rw [if_pos hequals] at hsearch
            obtain ⟨before, -, hsearch⟩ := Option.bind_eq_some_iff.mp hsearch
            obtain ⟨m₁, -, hsearch⟩ := Option.bind_eq_some_iff.mp hsearch
            obtain ⟨m₂, -, hsearch⟩ := Option.bind_eq_some_iff.mp hsearch
            cases hsearch
            exact .found hequals
          · rw [if_neg hequals] at hsearch
            obtain ⟨⟨result, others⟩, hothers, hsearch⟩ := Option.bind_eq_some_iff.mp hsearch
            cases hsearch
            exact .next hequals (ih hrest hothers)

/-- **The search in a slot.** It looks at the first entry and then at the others. -/
theorem searchSlotSeen_looks (hsegment : Segment locate m (h.slot hash) entries none)
    (hsearch : Table.searchSlotSeen m h hash key = some ((m', h', found), seen)) :
    LooksThrough (h.keyType.equals · key) entries found seen := by
  obtain ⟨first, hfirst, hrest⟩ := Option.bind_eq_some_iff.mp hsearch
  rw [Table.checkFirst] at hfirst
  cases entries with
  | nil =>
      have hslot : h.slot hash = none := hsegment
      rw [hslot] at hfirst hrest
      cases hfirst
      have hnone : Table.searchChainSeen hash key m.fresh m h none none = some ((m, h, none), []) :=
        by rw [Table.searchChainSeen]
      simp only [hnone, Option.bind_eq_bind, Option.bind_some] at hrest
      cases hrest
      exact .nothing
  | cons entry entries =>
      obtain ⟨hslot, next, hcell, hsegment⟩ := hsegment
      simp only [hslot, hcell, Option.bind_eq_bind, Option.bind_some] at hfirst hrest
      split at hfirst
      · rename_i hequals
        cases hfirst
        cases hrest
        exact .found hequals
      · rename_i hequals
        cases hfirst
        obtain ⟨⟨result, others⟩, hothers, hrest⟩ := Option.bind_eq_some_iff.mp hrest
        cases hrest
        exact .next hequals (searchChainSeen_looks hsegment hothers)

end Seen

/-! ### Growing during a lookup -/

/-- A table grows during a lookup: the loop for the new size `newsize` ends whatever its number of
turns may be, `dict_expand` makes the table `h₁` in the memory `m₁`, and the search goes through the
chain `newChain`, of which it compares `seen`. -/
structure Table.Grows (m : EntryMemory κ δ) (h : Table κ) (key : κ)
    (result : EntryMemory κ δ × Table κ × Option Addr) (newsize : Nat) (m₁ : EntryMemory κ δ)
    (h₁ : Table κ) (newChain : List (Entry κ (Addr × δ))) (seen : List Addr) : Prop where
  loop : ∀ turns, h.num * 3 < turns →
    Table.newSizeLoop (h.num * 3) turns h.hashsize = some newsize
  larger : h.hashsize < newsize
  expand : Table.dictExpand m h newsize = some (m₁, h₁)
  hashsize_eq : h₁.hashsize = newsize
  chain : Segment locate m₁ (h₁.slot (slotIndex (h.keyType.hash key) h₁.hashsize)) newChain none
  nodup : (addresses locate newChain).Nodup
  search : Table.searchSlotSeen m₁ h₁ (slotIndex (h.keyType.hash key) h₁.hashsize) key
    = some (result, seen)
  looks : LooksThrough (h.keyType.equals · key) newChain result.2.2 seen
  all : result.2.2 = none → seen = addresses locate newChain

section Growing

variable {m : EntryMemory κ δ} {h : Table κ} {d : Dict κ (Addr × δ)} {key : κ} {e : Addr}

/-- A chain with a second entry is that of a table with entries, and its first entry does not match. -/
theorem Lays.chain_of_checkFirst (hlays : Lays m h d) {hash : Nat}
    (hfirst : Table.checkFirst m h hash key = some (.rest (some e))) :
    ∃ first second rest, CageKeeper.chain d.slots hash = first :: second :: rest ∧
      ¬d.keyType.equals first.key key := by
  rw [hlays.checkFirst] at hfirst
  cases hchain : CageKeeper.chain d.slots hash with
  | nil =>
      rw [hchain] at hfirst
      cases hfirst
  | cons first next =>
      rw [hchain] at hfirst
      by_cases hequals : d.keyType.equals first.key key = true
      · simp only [if_pos hequals] at hfirst
        cases hfirst
      · simp only [if_neg hequals] at hfirst
        cases next with
        | nil => cases hfirst
        | cons second rest => exact ⟨first, second, rest, rfl, hequals⟩

theorem Lays.lookup_behind (hlays : Lays m h d) (hnum : h.num < 2 ^ 28)
    (hsize : h.hashsize * 2 < 2 ^ 31) (hroom : h.num * 3 < h.hashsize * 2) :
    ∃ m' h' found, Table.dictDoLookup m h key = some (m', h', found) ∧ h'.num = h.num ∧
      h'.hashsize = h.hashsize := by
  have hfits : d.LookupFits key := by
    rw [Dict.LookupFits, ← hlays.num_eq, ← hlays.hashsize_eq]
    split
    · exact Or.inr (Or.inr ⟨by omega, hsize, fun hfull => absurd hroom (Nat.not_lt.mpr hfull)⟩)
    · trivial
  obtain ⟨m', h', hlookup, -⟩ := hlays.dictDoLookup_of_fits hfits
  obtain ⟨hnum', hsize' | ⟨-, turns, hloop⟩⟩ := hlays.dictDoLookup_keeps hlookup
  · exact ⟨m', h', _, hlookup, hnum', hsize'⟩
  · refine ⟨m', h', _, hlookup, hnum', ?_⟩
    cases turns with
    | zero => cases hloop
    | succ turns =>
        rw [Table.newSizeLoop, int_eq hsize, Option.bind_eq_bind, Option.bind_some,
          if_neg (Nat.not_le.mpr hroom)] at hloop
        exact (Option.some.inj hloop).symm

/-- **Growing.** The table is too small: the lookup makes it grow and goes on in another chain. -/
theorem Lays.lookup_grows (hlays : Lays m h d) (hnum : h.num < 2 ^ 28) (hpos : 0 < h.num)
    (hsize : 0 < h.hashsize) (hfull : h.num * 3 ≥ h.hashsize * 2)
    (hfirst : Table.checkFirst m h (slotIndex (h.keyType.hash key) h.hashsize) key
      = some (.rest (some e))) :
    ∃ m' h' found newsize m₁ h₁ newChain seen,
      Table.dictDoLookup m h key = some (m', h', found) ∧ h'.num = h.num ∧
      h'.num * 3 < h'.hashsize * 2 ∧
      Table.Grows m h key (m', h', found) newsize m₁ h₁ newChain seen := by
  have hlarge := Dict.newSize_large h.num h.hashsize
  have hlarger : h.hashsize < newSize h.num h.hashsize := by omega
  have hloop : ∀ turns, h.num * 3 < turns →
      Table.newSizeLoop (h.num * 3) turns h.hashsize = some (newSize h.num h.hashsize) :=
    fun turns hturns => newSizeLoop_eq hnum (by omega) (by omega) (by omega) (by omega)
  have hgrows : d.hashsize < newSize h.num h.hashsize := by
    rw [← hlays.hashsize_eq]
    exact hlarger
  obtain ⟨m₁, h₁, hexpand, hlays₁, -⟩ := hlays.dictExpand hgrows
  obtain ⟨-, hnum₁, hkey₁⟩ := Table.dictExpand_num hexpand
  have hsize₁ : h₁.hashsize = newSize h.num h.hashsize := by
    rw [hlays₁.hashsize_eq, Dict.dictExpand_hashsize]
  obtain ⟨m', h', hsearch, -⟩ :=
    hlays₁.searchSlot (slotIndex (h.keyType.hash key) h₁.hashsize) key
  obtain ⟨hnum', hsize'⟩ := Table.searchSlot_keeps hsearch
  have hlookup : Table.dictDoLookup m h key
      = Table.searchSlot m₁ h₁ (slotIndex (h.keyType.hash key) h₁.hashsize) key := by
    rw [Table.dictDoLookup, if_neg hpos.ne']
    simp only [hfirst, int_eq (by omega : h.num * 3 < 2 ^ 31),
      int_eq (by omega : h.hashsize * 2 < 2 ^ 31), if_pos hfull, hloop _ (Nat.lt_succ_self _),
      hexpand, Option.bind_eq_bind, Option.bind_some]
  have hseen := hsearch
  rw [← Table.searchSlotSeen_fst] at hseen
  obtain ⟨⟨result, seen⟩, hseen, hresult⟩ := Option.map_eq_some_iff.mp hseen
  dsimp only at hresult
  subst hresult
  have hchain := hlays₁.segment (slotIndex (h.keyType.hash key) h₁.hashsize)
  have hlooks := searchSlotSeen_looks hchain hseen
  rw [hkey₁] at hlooks
  refine ⟨m', h', _, _, m₁, h₁, _, seen, hlookup.trans hsearch, hnum'.trans hnum₁, ?_,
    hloop, hlarger, hexpand, hsize₁, hchain, hlays₁.nodup_chain _, hseen, hlooks, hlooks.eq_addresses⟩
  calc
    h'.num * 3 = h.num * 3 := by rw [hnum', hnum₁]
    _ < newSize h.num h.hashsize * 2 := hlarge
    _ = h'.hashsize * 2 := by rw [hsize', hsize₁]

end Growing

/-- What a lookup behind the first entry of a chain says about a table that is kept. -/
theorem Kept.of_checkFirst {w : Tables κ δ} {cleared : List Nat} {views : List (Dict κ (Addr × δ))}
    (hkept : Kept w cleared views) {table : Nat} {h : Table κ} (hw : w.tables[table]? = some h)
    {hash : Nat} {key : κ} {e : Addr}
    (hfirst : Table.checkFirst w.memory h hash key = some (.rest (some e))) :
    0 < h.num ∧ IsTableSize h.hashsize := by
  obtain ⟨d, hd, hlays⟩ := hkept.laid.get hw
  obtain ⟨first, second, rest, hchain, -⟩ := hlays.chain_of_checkFirst hfirst
  have hpos : 0 < h.num := by
    rw [hlays.num_eq, hkept.counted d (List.mem_of_getElem? hd)]
    apply List.length_pos_of_mem (a := first)
    apply Dict.mem_entries_of_chain
    rw [hchain]
    exact List.mem_cons_self ..
  have hlive : table ∉ cleared := fun hcleared => hpos.ne' (hkept.num_eq_zero hw hcleared)
  exact ⟨hpos, (if_neg hlive).mp (hkept.size table h hw)⟩

/-- **Lookups behind the first entry.** In every state that can be reached from `dict_new`, a table
that has been cleared has no slots, and every other one has a single slot or a power of two of them
without one. With fewer than `2 ^ 28` entries, a lookup that goes past the first entry of a chain to
a second one has a result and leaves the table less than two thirds full. Where it was not, the loop
for the new size ends without an overflow, the table grows, and the search looks at the entries of
the new chain one after the other up to the first match, which is at all of them if there is none. -/
theorem reached_lookup [DecidableEq δ] {w : Tables κ δ} {cleared : List Nat}
    (hreached : w.Reached cleared) {table : Nat} {h : Table κ} (hw : w.tables[table]? = some h) :
    (table ∈ cleared → h.hashsize = 0) ∧ (table ∉ cleared → IsTableSize h.hashsize) ∧
    ∀ key e, h.num < 2 ^ 28 →
      Table.checkFirst w.memory h (slotIndex (h.keyType.hash key) h.hashsize) key
        = some (.rest (some e)) →
      ∃ m' h' found, Table.dictDoLookup w.memory h key = some (m', h', found) ∧
        h'.num = h.num ∧ h'.num * 3 < h'.hashsize * 2 ∧
        (h.num * 3 < h.hashsize * 2 → h'.hashsize = h.hashsize) ∧
        (h.num * 3 ≥ h.hashsize * 2 → ∃ newsize m₁ h₁ newChain seen,
          Table.Grows w.memory h key (m', h', found) newsize m₁ h₁ newChain seen) := by
  obtain ⟨views, hkept⟩ := hreached.kept
  obtain ⟨d, hd, hlays⟩ := hkept.laid.get hw
  have hsize := hkept.size table h hw
  refine ⟨fun hcleared => (if_pos hcleared).mp hsize, fun hlive => (if_neg hlive).mp hsize, ?_⟩
  intro key e hnum hfirst
  obtain ⟨hpos, htable⟩ := hkept.of_checkFirst hw hfirst
  rcases Nat.lt_or_ge (h.num * 3) (h.hashsize * 2) with hroom | hfull
  · obtain ⟨m', h', found, hlookup, hnum', hsize'⟩ := hlays.lookup_behind hnum htable.lt hroom
    refine ⟨m', h', found, hlookup, hnum', ?_, fun _ => hsize',
      fun hfull => absurd hroom (Nat.not_lt.mpr hfull)⟩
    rw [hnum', hsize']
    exact hroom
  · obtain ⟨m', h', found, newsize, m₁, h₁, newChain, seen, hlookup, hnum', hroom', hgrows⟩ :=
      hlays.lookup_grows hnum hpos htable.pos hfull hfirst
    exact ⟨m', h', found, hlookup, hnum', hroom', fun hroom => absurd hroom (Nat.not_lt.mpr hfull),
      fun _ => ⟨newsize, m₁, h₁, newChain, seen, hgrows⟩⟩

theorem Tables.Reached.of_use [DecidableEq δ] {w next : Tables κ δ} {ops : List (TableOp κ δ)}
    (hreached : w.Reached []) (huse : w.use ops = some next) : next.Reached [] := by
  induction ops generalizing w with
  | nil =>
      cases huse
      exact hreached
  | cons op ops ih =>
      obtain ⟨⟨middle, answer⟩, hstep, hrest⟩ := Option.bind_eq_some_iff.mp huse
      have hnext := hreached.step (fun _ => List.not_mem_nil) hstep
      have hcleared : op.cleared w [] = [] := by
        cases op <;> rfl
      rw [hcleared] at hnext
      exact ih hnext hrest

/-- How many entries of a chain are looked at when a table grows, and how many there are. -/
def Tables.lookedAt (w : Tables κ δ) (table : Nat) (key : κ) : Option (Nat × Nat) := do
  let h ← w.tables[table]?
  let newsize ← Table.newSizeLoop (h.num * 3) (h.num * 3 + 1) h.hashsize
  let (m₁, h₁) ← Table.dictExpand w.memory h newsize
  let hash := slotIndex (h.keyType.hash key) h₁.hashsize
  let (_, seen) ← Table.searchSlotSeen m₁ h₁ hash key
  let length ← Table.foreachChain (fun length _ _ => length + 1) m₁ m₁.fresh 0 (h₁.slot hash)
  some (seen.length, length)

theorem Table.Grows.lookedAt {w : Tables κ δ} {table : Nat} {h : Table κ} {key : κ}
    {result : EntryMemory κ δ × Table κ × Option Addr} {newsize : Nat} {m₁ : EntryMemory κ δ}
    {h₁ : Table κ} {newChain : List (Entry κ (Addr × δ))} {seen : List Addr}
    (hw : w.tables[table]? = some h)
    (hgrows : Table.Grows w.memory h key result newsize m₁ h₁ newChain seen) :
    w.lookedAt table key = some (seen.length, newChain.length) := by
  simp only [Tables.lookedAt, hw, hgrows.loop _ (Nat.lt_succ_self _), hgrows.expand, hgrows.search,
    foreachChain_eq _ hgrows.chain (hgrows.chain.length_le hgrows.nodup),
    List.foldl_add_const, Option.bind_eq_bind, Option.bind_some, Nat.zero_add, Nat.one_mul]

/-- `f` has been defined twice, and `g` after it. -/
def twiceDefinedOps : List (TableOp (Option CString) Nat) :=
  [.put 0 (some (.lit "f")) 1, .put 0 (some (.lit "f")) 2, .put 0 (some (.lit "g")) 3]

theorem twiceDefined_reached {w : Tables (Option CString) Nat}
    (huse : (Tables.start charptrType 1).use twiceDefinedOps = some w) : w.Reached [] :=
  (Tables.Reached.dictNew .start charptrType).of_use huse

/-- The entries and the slots of a table in which a lookup goes past the first entry of a chain. -/
def Tables.behindFirst (w : Tables κ δ) (key : κ) : Option (Nat × Nat) := do
  let h ← w.tables[0]?
  match ← Table.checkFirst w.memory h (slotIndex (h.keyType.hash key) h.hashsize) key with
  | .rest (some _) => some (h.num, h.hashsize)
  | _ => none

theorem Tables.behindFirst_eq {w : Tables κ δ} {key : κ} {num hashsize : Nat}
    (hbehind : w.behindFirst key = some (num, hashsize)) :
    ∃ h e, w.tables[0]? = some h ∧ h.num = num ∧ h.hashsize = hashsize ∧
      Table.checkFirst w.memory h (slotIndex (h.keyType.hash key) h.hashsize) key
        = some (.rest (some e)) := by
  obtain ⟨h, hw, hrest⟩ := Option.bind_eq_some_iff.mp hbehind
  obtain ⟨first, hfirst, hrest⟩ := Option.bind_eq_some_iff.mp hrest
  cases first with
  | found e => cases hrest
  | rest e =>
      cases e with
      | none => cases hrest
      | some e =>
          cases hrest
          exact ⟨h, e, hw, rfl, rfl, hfirst⟩

theorem twiceDefined_behindFirst :
    ((Tables.start charptrType 1).use twiceDefinedOps).bind
      (·.behindFirst (some (.lit "f"))) = some (3, 1) := by
  decide +kernel

/-- The table gets fifteen slots. -/
theorem reached_lookup_twiceDefined :
    ∃ (w : Tables (Option CString) Nat) (h : Table (Option CString)), w.Reached [] ∧
      w.tables[0]? = some h ∧ h.hashsize = 1 ∧
      ∃ m' h' found, Table.dictDoLookup w.memory h (some (.lit "f")) = some (m', h', found) ∧
        9 < h'.hashsize * 2 := by
  obtain ⟨w, huse, hbehind⟩ := Option.bind_eq_some_iff.mp twiceDefined_behindFirst
  obtain ⟨h, e, hw, hnum, hsize, hfirst⟩ := Tables.behindFirst_eq hbehind
  have hreached := twiceDefined_reached huse
  obtain ⟨-, -, hlookups⟩ := reached_lookup hreached hw
  obtain ⟨m', h', found, hlookup, hnum', hroom, -⟩ :=
    hlookups _ e (by rw [hnum]; decide) hfirst
  rw [hnum', hnum] at hroom
  exact ⟨w, h, hreached, hw, hsize, m', h', found, hlookup, hroom⟩

/-- A table that has been cleared has no slots, and a search ends at the first match. -/
theorem not_reached_lookup :
    (¬∀ (w : Tables (Option CString) Nat) (cleared : List Nat), w.Reached cleared →
      ∀ (table : Nat) h, w.tables[table]? = some h →
        h.hashsize = 1 ∨ ∃ k, 4 ≤ k ∧ h.hashsize = 2 ^ k - 1) ∧
    ¬∀ (w : Tables (Option CString) Nat) (cleared : List Nat), w.Reached cleared →
      ∀ (table : Nat) h key e, w.tables[table]? = some h → h.num < 2 ^ 28 →
        Table.checkFirst w.memory h (slotIndex (h.keyType.hash key) h.hashsize) key
          = some (.rest (some e)) →
        ∀ result newsize m₁ h₁ newChain seen, Table.dictDoLookup w.memory h key = some result →
          Table.Grows w.memory h key result newsize m₁ h₁ newChain seen →
          seen = addresses locate newChain := by
  constructor
  · intro hclaim
    have hcleared : Table.dictFreeAll (.empty : EntryMemory (Option CString) Nat)
        (Table.dictNew charptrType) = some (.empty, ⟨charptrType, [], 0⟩) := rfl
    have hw : (⟨.empty, [] ++ [Table.dictNew charptrType]⟩ : Tables (Option CString) Nat).tables[0]?
        = some (Table.dictNew charptrType) := rfl
    have hreached := (Tables.Reached.dictNew .start charptrType).dictClear hw hcleared
    have hsize := hclaim _ _ hreached 0 ⟨charptrType, [], 0⟩ rfl
    rcases hsize with hone | ⟨k, hk, hpower⟩
    · cases hone
    · have hlarge : 2 ^ 4 ≤ 2 ^ k := Nat.pow_le_pow_right (by decide) hk
      have hzero : (⟨charptrType, [], 0⟩ : Table (Option CString)).hashsize = 0 := rfl
      omega
  · intro hclaim
    obtain ⟨w, huse, hbehind⟩ := Option.bind_eq_some_iff.mp twiceDefined_behindFirst
    obtain ⟨h, e, hw, hnum, hsize, hfirst⟩ := Tables.behindFirst_eq hbehind
    have hlookedAt : ((Tables.start charptrType 1).use twiceDefinedOps).bind
        (·.lookedAt 0 (some (.lit "f"))) = some (1, 2) := by
      decide +kernel
    have hreached := twiceDefined_reached huse
    have hsmall : h.num < 2 ^ 28 := by
      rw [hnum]
      decide
    obtain ⟨views, hkept⟩ := hreached.kept
    obtain ⟨d, hd, hlays⟩ := hkept.laid.get hw
    obtain ⟨hpos, htable⟩ := hkept.of_checkFirst hw hfirst
    obtain ⟨m', h', found, newsize, m₁, h₁, newChain, seen, hlookup, -, -, hgrows⟩ :=
      hlays.lookup_grows hsmall hpos htable.pos (by rw [hnum, hsize]; decide) hfirst
    have hall := hclaim w [] hreached 0 h _ e hw hsmall hfirst _ _ _ _ _ _ hlookup hgrows
    rw [huse, Option.bind_some, hgrows.lookedAt hw, hall, addresses, List.length_map] at hlookedAt
    obtain ⟨hone, htwo⟩ := Prod.mk.inj (Option.some.inj hlookedAt)
    omega

end CageKeeper
