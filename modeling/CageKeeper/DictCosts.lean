import CageKeeper.DictMultimap
import CageKeeper.DictGrowth

/-! What it costs to keep the tables large enough. `dict_do_lookup` makes a table grow from time to time,
and then every entry is moved. Each size is more than twice the one before, so that over the life of a
table no more entries are moved than a few for each of those it had at the same time. -/

namespace CageKeeper
open LinkedCells

variable {κ δ : Type}

/-! ### What is counted -/

namespace Table

/-- `expandChain`, and how many entries it moves. -/
def expandChainMoved (newlen : Nat) : (turns : Nat) → EntryMemory κ δ →
    (newslots : List (Option Addr)) → (e : Option Addr) →
    Option ((EntryMemory κ δ × List (Option Addr)) × Nat)
  | _, m, newslots, none => some ((m, newslots), 0)
  | 0, _, _, some _ => none
  | turns + 1, m, newslots, some e => do
      let entry ← m.cell e
      let newhash := slotIndex entry.content.hash newlen
      let m ← m.setNext e (newslots.getD newhash none)
      let (result, moved) ←
        expandChainMoved newlen turns m (newslots.set newhash (some e)) entry.next
      some (result, moved + 1)

/-- `expandSlots`, and how many entries it moves. -/
def expandSlotsMoved (newlen : Nat) : (slots : List (Option Addr)) → EntryMemory κ δ →
    (newslots : List (Option Addr)) → Option ((EntryMemory κ δ × List (Option Addr)) × Nat)
  | [], m, newslots => some ((m, newslots), 0)
  | e :: slots, m, newslots => do
      let ((m, newslots), first) ← expandChainMoved newlen m.fresh m newslots e
      let (result, others) ← expandSlotsMoved newlen slots m newslots
      some (result, first + others)

/-- How many entries `dict_expand` moves. -/
def dictExpandMoved (m : EntryMemory κ δ) (h : Table κ) (newlen : Nat) : Option Nat :=
  (expandSlotsMoved newlen h.slots m (List.replicate newlen none)).map Prod.snd

end Table

/-- The entries of a table that have been moved, and the most that it has had. -/
structure Charge where
  moved : Nat
  peak : Nat
  deriving DecidableEq

/-- The charge of a table `h` that an operation makes `h'` of. Nothing is written before `dict_expand` is
called, and it is called once at most. -/
def Table.charge (m : EntryMemory κ δ) (h h' : Table κ) (c : Charge) : Charge :=
  ⟨c.moved + if h'.hashsize = h.hashsize then 0 else (h.dictExpandMoved m h'.hashsize).getD 0,
    max c.peak h'.num⟩

/-- The charges of all tables after an operation. A copy is as large as the table it is a copy of. -/
def TableOp.charge (w next : Tables κ δ) (charges : List Charge) : TableOp κ δ → List Charge
  | .clone table => charges ++ (charges[table]?.map fun c => ⟨0, c.peak⟩).toList
  | .put table _ _ | .lookup table _ | .contains table _ | .del table _ | .del2 table _ _
  | .foreach table =>
      match w.tables[table]?, next.tables[table]?, charges[table]? with
      | some h, some h', some c => charges.set table (h.charge w.memory h' c)
      | _, _, _ => charges

/-- The tables that can be reached, with their charges. -/
inductive Tables.Charged [DecidableEq δ] : Tables κ δ → (cleared : List Nat) → List Charge → Prop where
  | start : Charged ⟨.empty, []⟩ [] []
  | dictNew {w : Tables κ δ} {cleared : List Nat} {charges : List Charge}
      (hcharged : Charged w cleared charges) (type : HashType κ) :
      Charged ⟨w.memory, w.tables ++ [Table.dictNew type]⟩ cleared (charges ++ [⟨0, 0⟩])
  | step {w next : Tables κ δ} {cleared : List Nat} {charges : List Charge} {op : TableOp κ δ}
      {answer : TableAnswer κ δ} (hcharged : Charged w cleared charges)
      (hkeyType : op.adds → op.table ∉ cleared) (hstep : w.step op = some (next, answer)) :
      Charged next (op.cleared w cleared) (op.charge w next charges)
  | dictClear {w : Tables κ δ} {cleared : List Nat} {charges : List Charge} {table : Nat}
      {h h' : Table κ} {m' : EntryMemory κ δ} (hcharged : Charged w cleared charges)
      (hw : w.tables[table]? = some h) (hclear : Table.dictFreeAll w.memory h = some (m', h')) :
      Charged (w.update table m' h') (table :: cleared) charges

theorem Tables.Charged.reached [DecidableEq δ] {w : Tables κ δ} {cleared : List Nat}
    {charges : List Charge} (hcharged : w.Charged cleared charges) : w.Reached cleared := by
  induction hcharged with
  | start => exact .start
  | dictNew hcharged type ih => exact ih.dictNew type
  | step hcharged hkeyType hstep ih => exact ih.step hkeyType hstep
  | dictClear hcharged hw hclear ih => exact ih.dictClear hw hclear

/-- Uses tables one operation after another, and charges for it. -/
def Tables.useCharged [DecidableEq δ] (w : Tables κ δ) (charges : List Charge) :
    List (TableOp κ δ) → Option (Tables κ δ × List Charge)
  | [] => some (w, charges)
  | op :: ops => do
      let (next, _) ← w.step op
      next.useCharged (op.charge w next charges) ops

theorem Tables.Charged.of_use [DecidableEq δ] {w next : Tables κ δ} {charges charges' : List Charge}
    {ops : List (TableOp κ δ)} (hcharged : w.Charged [] charges)
    (huse : w.useCharged charges ops = some (next, charges')) : next.Charged [] charges' := by
  induction ops generalizing w charges with
  | nil =>
      cases huse
      exact hcharged
  | cons op ops ih =>
      obtain ⟨⟨middle, answer⟩, hstep, hrest⟩ := Option.bind_eq_some_iff.mp huse
      have hnext := hcharged.step (fun _ => List.not_mem_nil) hstep
      have hcleared : op.cleared w [] = [] := by
        cases op <;> rfl
      rw [hcleared] at hnext
      exact ih hnext hrest

/-! ### Growing -/

theorem expandChainMoved_eq (newlen : Nat) {m : EntryMemory κ δ} {e : Option Addr}
    {moved : List (Entry κ (Addr × δ))} (hsegment : Segment locate m e moved none)
    (hnodup : (addresses locate moved).Nodup) (newslots : List (Option Addr)) {turns : Nat}
    (hturns : moved.length ≤ turns) :
    ∃ m' newslots', Table.expandChainMoved newlen turns m newslots e
        = some ((m', newslots'), moved.length) ∧
      Table.expandChain newlen turns m newslots e = some (m', newslots') ∧
      Memory.SameOutside (addresses locate moved) m m' := by
  induction moved generalizing m e newslots turns with
  | nil =>
      obtain rfl : e = none := hsegment
      exact ⟨m, newslots, by rw [Table.expandChainMoved, List.length_nil], by rw [Table.expandChain],
        .refl _ _⟩
  | cons entry moved ih =>
      obtain ⟨rfl, next, hcell, hrest⟩ := hsegment
      obtain ⟨turns, rfl, hothers⟩ := exists_turns hturns
      obtain ⟨m₁, hset, hwritten⟩ := Memory.setNext_eq hcell
        (newslots.getD (slotIndex entry.hash newlen) none)
      rw [addresses_cons, List.nodup_cons] at hnodup
      obtain ⟨m', newslots', hcounted, hloop, hsame⟩ := ih (hrest.written hwritten hnodup.1) hnodup.2
        (newslots.set (slotIndex entry.hash newlen) (some (locate entry).1)) hothers
      refine ⟨m', newslots', ?_, ?_, ?_⟩
      · simp only [Table.expandChainMoved, hcell, locate_hash, Option.bind_eq_bind, Option.bind_some,
          hset, hcounted, List.length_cons]
      · simp only [Table.expandChain, hcell, locate_hash, Option.bind_eq_bind, Option.bind_some,
          hset]
        exact hloop
      · exact (hwritten.sameOutside (List.mem_cons_self ..)).trans
          (hsame.mono fun a ha => List.mem_cons_of_mem _ ha)

theorem expandSlotsMoved_eq {newlen : Nat} {m : EntryMemory κ δ} {slots : List (Option Addr)}
    {moved : List (List (Entry κ (Addr × δ)))} (hmoved : Chains locate m slots moved)
    (hnodup : (addresses locate moved.flatten).Nodup) (newslots : List (Option Addr)) :
    ∃ result, Table.expandSlotsMoved newlen slots m newslots
        = some (result, moved.flatten.length) ∧
      Table.expandSlots newlen slots m newslots = some result := by
  induction moved generalizing m slots newslots with
  | nil =>
      cases hmoved
      exact ⟨(m, newslots), rfl, rfl⟩
  | cons first moved ih =>
      cases hmoved with
      | @cons e _ slots _ hfirst hmoved =>
          rw [List.flatten_cons, addresses_append, List.nodup_append] at hnodup
          obtain ⟨hfirstNodup, hothers, hapart⟩ := hnodup
          obtain ⟨m₁, newslots₁, hcounted, hloop, hsame⟩ := expandChainMoved_eq newlen hfirst
            hfirstNodup newslots (hfirst.length_le hfirstNodup)
          have hmoved₁ : Chains locate m₁ slots moved := by
            have hold : Chains locate m slots moved := hmoved
            exact hold.frame hsame fun a ha hmem => hapart a hmem a ha rfl
          obtain ⟨result, hcountedRest, hrest⟩ := ih hmoved₁ hothers newslots₁
          refine ⟨result, ?_, ?_⟩
          · simp only [Table.expandSlotsMoved, hcounted, hcountedRest, Option.bind_eq_bind,
              Option.bind_some, List.flatten_cons, List.length_append]
          · simp only [Table.expandSlots, hloop, Option.bind_eq_bind, Option.bind_some]
            exact hrest

theorem Lays.dictExpandMoved_eq {m : EntryMemory κ δ} {h : Table κ} {d : Dict κ (Addr × δ)}
    (hlays : Lays m h d) (hcounted : d.Counted) (newlen : Nat) :
    h.dictExpandMoved m newlen = some h.num := by
  obtain ⟨result, hmoved, -⟩ := expandSlotsMoved_eq hlays.chains hlays.nodup
    (List.replicate newlen none)
  rw [Table.dictExpandMoved, hmoved, hlays.num_eq, hcounted]
  rfl

theorem IsTableSize.nextSize_eq {size next : Nat} (hsize : IsTableSize size)
    (hnext : Table.nextSize size = some next) :
    size * 2 + 1 ≤ next ∧ (next = 15 ∨ next = size * 2 + 1) := by
  rw [Table.nextSize] at hnext
  by_cases hsmall : size < 15
  · rw [if_pos hsmall] at hnext
    cases hnext
    rcases hsize with rfl | ⟨k, hk, -, rfl⟩
    · decide
    · have hle : 2 ^ 4 ≤ 2 ^ k := Nat.pow_le_pow_right (by decide) hk
      omega
  · rw [if_neg hsmall] at hnext
    obtain ⟨twice, hint, rfl⟩ := Option.map_eq_some_iff.mp hnext
    obtain rfl := (int_eq_some hint).2
    omega

/-- A size that is found is enough for the entries. If it is not the old one, it is more than twice as
large, but not too large. -/
theorem IsTableSize.newSizeLoop_le {size next num turns : Nat} (hsize : IsTableSize size)
    (hloop : Table.newSizeLoop (num * 3) turns size = some next) :
    num * 3 < next * 2 ∧ (next = size ∨ size * 2 + 1 ≤ next ∧ next ≤ max 15 (3 * num + 1)) := by
  induction turns generalizing size with
  | zero => cases hloop
  | succ turns ih =>
      obtain ⟨twice, htwice, hrest⟩ := Option.bind_eq_some_iff.mp hloop
      obtain rfl := (int_eq_some htwice).2
      split at hrest
      · rename_i hfull
        obtain ⟨larger, hlarger, hrest⟩ := Option.bind_eq_some_iff.mp hrest
        obtain ⟨hdouble, hlarge⟩ := hsize.nextSize_eq hlarger
        obtain ⟨henough, hnext⟩ := ih (hsize.nextSize hlarger) hrest
        refine ⟨henough, Or.inr ?_⟩
        rcases hnext with rfl | ⟨hmore, hle⟩
        · refine ⟨hdouble, ?_⟩
          rcases hlarge with rfl | rfl
          · exact Nat.le_max_left ..
          · exact Nat.le_trans (by omega) (Nat.le_max_right ..)
        · exact ⟨by omega, hle⟩
      · cases hrest
        exact ⟨by omega, Or.inl rfl⟩

/-! ### One table -/

/-- A table has as much room as its charge says, and has been paid for by its size, or had been before it
was cleared. -/
structure Charge.Covers (c : Charge) (h : Table κ) : Prop where
  num_le : h.num ≤ c.peak
  size : ∃ size, (h.hashsize = size ∨ h.hashsize = 0) ∧ c.moved * 3 ≤ size * 4 ∧
    size ≤ max 15 (3 * c.peak + 1)

namespace Charge.Covers

variable {c : Charge} {h h' : Table κ} {m : EntryMemory κ δ}

theorem charge (hcovers : c.Covers h) (htable : h.num ≠ 0 → IsTableSize h.hashsize)
    (hmoved : h.dictExpandMoved m h'.hashsize = some h.num)
    (hsize : h'.hashsize = h.hashsize ∨ h.num ≠ 0 ∧
      ∃ turns, Table.newSizeLoop (h.num * 3) turns h.hashsize = some h'.hashsize) :
    (h.charge m h' c).Covers h' := by
  obtain ⟨hnum, size, hroom, hpaid, hle⟩ := hcovers
  refine ⟨Nat.le_max_right .., ?_⟩
  by_cases hsame : h'.hashsize = h.hashsize
  · refine ⟨size, by rwa [hsame], ?_, ?_⟩
    · rw [Table.charge, if_pos hsame]
      exact hpaid
    · exact hle.trans (max_le_max (le_refl 15) (by simp only [Table.charge]; omega))
  · obtain ⟨hpos, turns, hloop⟩ := hsize.resolve_left hsame
    have hold := htable hpos
    have hlive : h.hashsize = size := hroom.resolve_right hold.pos.ne'
    obtain ⟨henough, hnext⟩ := hold.newSizeLoop_le hloop
    obtain ⟨hdouble, hnew⟩ := hnext.resolve_left hsame
    refine ⟨h'.hashsize, Or.inl rfl, ?_, ?_⟩
    · rw [Table.charge, if_neg hsame, hmoved]
      -- the old size has paid for what had been moved, and the new slots pay for what is moved now
      calc (c.moved + h.num) * 3 = c.moved * 3 + h.num * 3 := Nat.add_mul ..
        _ ≤ h.hashsize * 4 + h'.hashsize * 2 := Nat.add_le_add (hlive ▸ hpaid) henough.le
        _ ≤ h'.hashsize * 4 := by omega
    · exact hnew.trans (max_le_max (le_refl 15) (by simp only [Table.charge]; omega))

theorem clone (hcovers : c.Covers h) (hnum : h'.num = h.num) (hsize : h'.hashsize = h.hashsize) :
    Charge.Covers ⟨0, c.peak⟩ h' := by
  obtain ⟨hle, size, hroom, -, hsizeLe⟩ := hcovers
  exact ⟨hnum ▸ hle, size, hsize ▸ hroom, Nat.zero_le _, hsizeLe⟩

theorem clear (hcovers : c.Covers h) (hnum : h'.num = 0) (hsize : h'.hashsize = 0) : c.Covers h' := by
  obtain ⟨-, size, -, hmoved, hsizeLe⟩ := hcovers
  exact ⟨hnum ▸ Nat.zero_le _, size, Or.inr hsize, hmoved, hsizeLe⟩

theorem bounds (hcovers : c.Covers h) :
    h.num ≤ c.peak ∧ c.moved ≤ max 20 (4 * c.peak + 1) ∧ h.hashsize ≤ max 15 (3 * c.peak + 1) := by
  obtain ⟨hnum, size, hroom, hmoved, hle⟩ := hcovers
  exact ⟨hnum, by omega, by omega⟩

end Charge.Covers

/-! ### All tables -/

/-- Every table has a charge that covers it. -/
structure Paid (w : Tables κ δ) (charges : List Charge) : Prop where
  length_eq : charges.length = w.tables.length
  covers : ∀ (table : Nat) c h, charges[table]? = some c → w.tables[table]? = some h → c.Covers h

namespace Paid

variable {w next : Tables κ δ} {charges : List Charge} {table : Nat} {h h' : Table κ} {c : Charge}
  {d : Dict κ (Addr × δ)} {m' : EntryMemory κ δ}

theorem get (hpaid : Paid w charges) (hw : w.tables[table]? = some h) :
    ∃ c, charges[table]? = some c ∧ c.Covers h := by
  have hlt : table < charges.length := by
    rw [hpaid.length_eq]
    exact (List.getElem?_eq_some_iff.mp hw).1
  exact ⟨_, List.getElem?_eq_getElem hlt, hpaid.covers table _ h (List.getElem?_eq_getElem hlt) hw⟩

theorem set (hpaid : Paid w charges) (hcovers : c.Covers h') :
    Paid (w.update table m' h') (charges.set table c) where
  length_eq := by
    rw [Tables.update, List.length_set, List.length_set]
    exact hpaid.length_eq
  covers _ _ _ hc hg := forall_set hpaid.covers hcovers hc hg

theorem append (hpaid : Paid w charges) (hcovers : c.Covers h') :
    Paid ⟨m', w.tables ++ [h']⟩ (charges ++ [c]) where
  length_eq := by
    rw [List.length_append, List.length_append, hpaid.length_eq]
    rfl
  covers _ _ _ hc hg := forall_append hpaid.length_eq hpaid.covers hcovers hc hg

theorem update (hpaid : Paid w charges) (hw : w.tables[table]? = some h)
    (hlays : Lays w.memory h d) (hcounted : d.Counted)
    (htable : h.num ≠ 0 → IsTableSize h.hashsize)
    (hsize : h'.hashsize = h.hashsize ∨ h.num ≠ 0 ∧
      ∃ turns, Table.newSizeLoop (h.num * 3) turns h.hashsize = some h'.hashsize) :
    Paid (w.update table m' h')
      (match w.tables[table]?, (w.update table m' h').tables[table]?, charges[table]? with
        | some h, some h', some c => charges.set table (h.charge w.memory h' c)
        | _, _, _ => charges) := by
  obtain ⟨c, hc, hcovers⟩ := hpaid.get hw
  have hnext : (w.update table m' h').tables[table]? = some h' :=
    List.getElem?_set_self (List.getElem?_eq_some_iff.mp hw).1
  rw [hw, hnext, hc]
  exact hpaid.set (hcovers.charge htable (hlays.dictExpandMoved_eq hcounted _) hsize)

/-- **One operation.** It is paid for. -/
theorem step [DecidableEq δ] (hpaid : Paid w charges) {cleared : List Nat}
    {views : List (Dict κ (Addr × δ))} (hkept : Kept w cleared views) {op : TableOp κ δ}
    {answer : TableAnswer κ δ} (hkeyType : op.adds → op.table ∉ cleared)
    (hstep : w.step op = some (next, answer)) : Paid next (op.charge w next charges) := by
  obtain ⟨h, hw, hturn⟩ := Tables.step_turn hstep
  obtain ⟨d, hd, hlays⟩ := hkept.laid.get hw
  have hcounted := hkept.counted d (List.mem_of_getElem? hd)
  have hsize := hkept.size _ h hw
  have htable : h.num ≠ 0 → IsTableSize h.hashsize := by
    intro hnum
    rwa [if_neg fun hcleared => hnum (hkept.num_eq_zero hw hcleared)] at hsize
  cases hturn with
  | put hput =>
      rw [if_neg (hkeyType rfl)] at hsize
      obtain ⟨d', hstep⟩ := hlays.put_step hsize.pos hput
      exact hpaid.update hw hlays hcounted htable hstep.size
  | lookup hlookup =>
      obtain ⟨d', hstep⟩ := hlays.lookup_step hlookup
      exact hpaid.update hw hlays hcounted htable hstep.size
  | contains hlookup =>
      obtain ⟨d', hstep⟩ := hlays.lookup_step hlookup
      exact hpaid.update hw hlays hcounted htable hstep.size
  | del hremove =>
      obtain ⟨d', hstep⟩ := hlays.remove_step hremove
      exact hpaid.update hw hlays hcounted htable hstep.size
  | del2 hremove =>
      obtain ⟨d', hstep⟩ := hlays.remove_step hremove
      exact hpaid.update hw hlays hcounted htable hstep.size
  | @clone table m' h' hclone =>
      obtain ⟨c, hc, hcovers⟩ := hpaid.get hw
      have hfound : charges[table]? = some c := hc
      have hnum : h'.num = h.num := by
        obtain ⟨⟨m₁, slots⟩, hslots, hresult⟩ := Option.bind_eq_some_iff.mp hclone
        cases hresult
        rfl
      obtain ⟨d', -, -, hequal, -⟩ := hlays.clone_counted hcounted hclone
      rw [TableOp.charge, hfound]
      exact hpaid.append (hcovers.clone hnum hequal)
  | @foreach table =>
      have hfound : w.tables[table]? = some h := hw
      have hsame : w.update table w.memory h = w := by
        rw [Tables.update, set_eq_self hfound]
      have hupdate : Paid (w.update table w.memory h) _ :=
        hpaid.update hw hlays hcounted htable (Or.inl rfl)
      rw [hsame] at hupdate
      exact hupdate

end Paid

theorem Tables.Charged.paid [DecidableEq δ] {w : Tables κ δ} {cleared : List Nat}
    {charges : List Charge} (hcharged : w.Charged cleared charges) : Paid w charges := by
  induction hcharged with
  | start => exact ⟨rfl, fun table c h hc => by cases hc⟩
  | dictNew hcharged type ih =>
      refine ih.append ⟨Nat.zero_le _, 1, Or.inl rfl, ?_, ?_⟩ <;> decide
  | step hcharged hkeyType hstep ih =>
      obtain ⟨views, hkept⟩ := hcharged.reached.kept
      exact ih.step hkept hkeyType hstep
  | @dictClear w cleared charges table h h' m' hcharged hw hclear ih =>
      obtain ⟨c, hc, hcovers⟩ := ih.get hw
      have hempty : h'.num = 0 ∧ h'.hashsize = 0 := by
        obtain ⟨m₁, hslots, hresult⟩ := Option.bind_eq_some_iff.mp hclear
        cases hresult
        exact ⟨rfl, rfl⟩
      have hset : Paid (w.update table m' h') (charges.set table c) :=
        ih.set (hcovers.clear hempty.1 hempty.2)
      rwa [set_eq_self hc] at hset

/-- **The cost of growing.** Over the life of a table, no more entries are moved than about four for each
of those it had when it had most, and its slots are no more than about three for each. -/
theorem Tables.Charged.moved_le [DecidableEq δ] {w : Tables κ δ} {cleared : List Nat}
    {charges : List Charge} (hcharged : w.Charged cleared charges) {table : Nat} {h : Table κ}
    (hw : w.tables[table]? = some h) :
    ∃ c, charges[table]? = some c ∧ h.num ≤ c.peak ∧ c.moved ≤ max 20 (4 * c.peak + 1) ∧
      h.hashsize ≤ max 15 (3 * c.peak + 1) := by
  obtain ⟨c, hc, hcovers⟩ := hcharged.paid.get hw
  exact ⟨c, hc, hcovers.bounds⟩

/-- Three entries are moved when `f` is looked up behind `g`. -/
theorem moved_le_twiceDefined :
    ∃ (w : Tables (Option CString) Nat) (charges : List Charge) (h : Table (Option CString)),
      w.Charged [] charges ∧ w.tables[0]? = some h ∧ charges = [⟨3, 3⟩] ∧ h.hashsize = 15 ∧
      ∃ c, charges[0]? = some c ∧ h.num ≤ c.peak ∧ c.moved ≤ max 20 (4 * c.peak + 1) ∧
        h.hashsize ≤ max 15 (3 * c.peak + 1) := by
  have hused : ((Tables.start charptrType 1).useCharged [⟨0, 0⟩]
      (twiceDefinedOps ++ [.lookup 0 (some (.lit "f"))])).bind (fun used =>
        (used.1.tables[0]?).map fun h => (used.2, h.hashsize)) = some ([⟨3, 3⟩], 15) := by
    decide +kernel
  obtain ⟨⟨w, charges⟩, huse, htable⟩ := Option.bind_eq_some_iff.mp hused
  obtain ⟨h, hw, hnumbers⟩ := Option.map_eq_some_iff.mp htable
  obtain ⟨hcharges, hsize⟩ := Prod.mk.inj hnumbers
  have hcharged := (Tables.Charged.dictNew .start charptrType).of_use huse
  exact ⟨w, charges, h, hcharged, hw, hcharges, hsize, hcharged.moved_le hw⟩

end CageKeeper
