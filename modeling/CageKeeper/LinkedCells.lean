import Mathlib.Data.Finset.Card
import Mathlib.Data.Finset.Range
import Mathlib.Data.List.GetD
import Mathlib.Data.List.Nodup
import Mathlib.Logic.Function.Basic
import Mathlib.Tactic.Common

/-! Singly linked lists in a memory of cells. A segment of a list is a path from one pointer to
another; writing the pointer of its last cell sends it elsewhere and leaves every list that does not
share the cell as it was. A list of things that each know their address and their content is what a
path goes through. -/

namespace LinkedCells

variable {α β : Type}

/-! ### Memory -/

abbrev Addr := Nat

/-- What a cell holds, and its pointer to the next one; `none` is the null pointer. -/
structure Cell (α : Type) where
  content : α
  next : Option Addr

/-- A memory of cells. Addresses from `fresh` on have never been given out. -/
structure Memory (α : Type) where
  cell : Addr → Option (Cell α)
  fresh : Addr
  unused : ∀ a, fresh ≤ a → cell a = none

namespace Memory

def empty : Memory α := ⟨fun _ => none, 0, fun _ _ => rfl⟩

def alloc (m : Memory α) (c : Cell α) : Memory α × Addr :=
  (⟨Function.update m.cell m.fresh (some c), m.fresh + 1, fun a ha => by
    rw [Function.update_of_ne (Nat.ne_of_gt ha)]
    exact m.unused a (Nat.le_of_succ_le ha)⟩, m.fresh)

/-- Writing the pointer of a cell. It is undefined where there is no cell. -/
def setNext (m : Memory α) (a : Addr) (next : Option Addr) : Option (Memory α) :=
  if (m.cell a).isSome then
    some ⟨Function.update m.cell a ((m.cell a).map fun c => ⟨c.content, next⟩), m.fresh,
      fun b hb => by
        by_cases hab : b = a
        · rw [hab, Function.update_self, m.unused a (hab ▸ hb)]
          rfl
        · rw [Function.update_of_ne hab, m.unused b hb]⟩
  else none

/-- Giving a cell back. It is undefined where there is no cell. -/
def free (m : Memory α) (a : Addr) : Option (Memory α) :=
  if (m.cell a).isSome then
    some ⟨Function.update m.cell a none, m.fresh, fun b hb => by
      by_cases hab : b = a
      · rw [hab, Function.update_self]
      · rw [Function.update_of_ne hab, m.unused b hb]⟩
  else none

theorem lt_fresh {m : Memory α} {a : Addr} {c : Cell α} (h : m.cell a = some c) : a < m.fresh := by
  by_contra hout
  rw [m.unused a (Nat.le_of_not_lt hout)] at h
  cases h

/-- Nothing has changed but some addresses and what is new. -/
structure SameOutside (addrs : List Addr) (m m' : Memory α) : Prop where
  fresh_le : m.fresh ≤ m'.fresh
  cell_eq : ∀ a, a < m.fresh → a ∉ addrs → m'.cell a = m.cell a

namespace SameOutside

theorem refl (addrs : List Addr) (m : Memory α) : SameOutside addrs m m :=
  ⟨Nat.le_refl _, fun _ _ _ => rfl⟩

theorem trans {addrs : List Addr} {m m' m'' : Memory α} (h : SameOutside addrs m m')
    (h' : SameOutside addrs m' m'') : SameOutside addrs m m'' := by
  refine ⟨Nat.le_trans h.fresh_le h'.fresh_le, fun a ha hmem => ?_⟩
  rw [h'.cell_eq a (Nat.lt_of_lt_of_le ha h.fresh_le) hmem, h.cell_eq a ha hmem]

theorem mono {addrs addrs' : List Addr} {m m' : Memory α} (h : SameOutside addrs m m')
    (hsubset : ∀ a ∈ addrs, a ∈ addrs') : SameOutside addrs' m m' :=
  ⟨h.fresh_le, fun a ha hmem => h.cell_eq a ha fun hold => hmem (hsubset a hold)⟩

end SameOutside

/-- A memory in which one cell of another has been overwritten. -/
structure Written (m : Memory α) (a : Addr) (c : Option (Cell α)) (m' : Memory α) : Prop where
  fresh_eq : m'.fresh = m.fresh
  cell_eq : m'.cell = Function.update m.cell a c

theorem Written.cell_self {m m' : Memory α} {a : Addr} {c : Option (Cell α)}
    (h : m.Written a c m') : m'.cell a = c := by
  rw [h.cell_eq, Function.update_self]

theorem Written.sameOutside {m m' : Memory α} {a : Addr} {c : Option (Cell α)}
    (h : m.Written a c m') {addrs : List Addr} (hmem : a ∈ addrs) : SameOutside addrs m m' := by
  refine ⟨Nat.le_of_eq h.fresh_eq.symm, fun b _ hb => ?_⟩
  have hne : b ≠ a := fun heq => hb (heq ▸ hmem)
  rw [h.cell_eq, Function.update_of_ne hne]

theorem setNext_eq {m : Memory α} {a : Addr} {c : Cell α} (h : m.cell a = some c)
    (next : Option Addr) :
    ∃ m', m.setNext a next = some m' ∧ m.Written a (some ⟨c.content, next⟩) m' := by
  rw [setNext, if_pos (by rw [h]; rfl)]
  refine ⟨_, rfl, rfl, ?_⟩
  simp only [h, Option.map_some]

theorem free_eq {m : Memory α} {a : Addr} {c : Cell α} (h : m.cell a = some c) :
    ∃ m', m.free a = some m' ∧ m.Written a none m' := by
  rw [free, if_pos (by rw [h]; rfl)]
  exact ⟨_, rfl, rfl, rfl⟩

theorem setNext_of_none {m m' : Memory α} {a b : Addr} {next : Option Addr}
    (hset : m.setNext a next = some m') (hnone : m.cell b = none) : m'.cell b = none := by
  unfold setNext at hset
  split at hset
  · rename_i hsome
    cases hset
    have hne : b ≠ a := by
      rintro rfl
      rw [hnone] at hsome
      cases hsome
    exact (Function.update_of_ne hne _ _).trans hnone
  · cases hset

theorem alloc_sameOutside (m : Memory α) (c : Cell α) (addrs : List Addr) :
    SameOutside addrs m (m.alloc c).1 :=
  ⟨Nat.le_succ _, fun _ ha _ => Function.update_of_ne (Nat.ne_of_lt ha) _ _⟩

theorem alloc_cell (m : Memory α) (c : Cell α) : (m.alloc c).1.cell m.fresh = some c :=
  Function.update_self ..

/-! ### How many cells there are -/

def used (m : Memory α) : Finset Addr := (Finset.range m.fresh).filter fun a => (m.cell a).isSome

theorem mem_used {m : Memory α} {a : Addr} : a ∈ m.used ↔ (m.cell a).isSome := by
  rw [used, Finset.mem_filter, Finset.mem_range]
  refine and_iff_right_of_imp fun hsome => ?_
  obtain ⟨c, hc⟩ := Option.isSome_iff_exists.mp hsome
  exact lt_fresh hc

theorem used_alloc (m : Memory α) (c : Cell α) : (m.alloc c).1.used = insert m.fresh m.used := by
  ext a
  rw [Finset.mem_insert, mem_used, mem_used, alloc]
  by_cases ha : a = m.fresh
  · simp [ha]
  · simp [ha]

theorem card_used_alloc (m : Memory α) (c : Cell α) : (m.alloc c).1.used.card = m.used.card + 1 := by
  rw [used_alloc, Finset.card_insert_of_notMem]
  rw [mem_used, m.unused _ (Nat.le_refl _)]
  exact Bool.false_ne_true

theorem used_setNext {m m' : Memory α} {a : Addr} {next : Option Addr}
    (hset : m.setNext a next = some m') : m'.used = m.used := by
  unfold setNext at hset
  split at hset
  · rename_i hsome
    cases hset
    ext b
    rw [mem_used, mem_used]
    by_cases hb : b = a
    · simp [hb]
    · simp [hb]
  · cases hset

theorem card_used_free {m m' : Memory α} {a : Addr} (hfree : m.free a = some m') :
    m'.used.card + 1 = m.used.card := by
  unfold free at hfree
  split at hfree
  · rename_i hsome
    cases hfree
    have herase : ∀ (m' : Memory α), m'.cell = Function.update m.cell a none →
        m'.used = m.used.erase a := by
      intro m' hcell
      ext b
      rw [Finset.mem_erase, mem_used, mem_used, hcell]
      by_cases hb : b = a
      · simp [hb]
      · simp [hb]
    rw [herase _ rfl]
    exact Finset.card_erase_add_one (mem_used.mpr hsome)
  · cases hfree

end Memory

/-! ### Segments -/

section Segments

variable (locate : β → Addr × α)

def addresses (xs : List β) : List Addr := xs.map fun x => (locate x).1

/-- Following the pointers from `ptr`, one finds the things in order, and then the pointer `stop`. -/
def Segment (m : Memory α) : Option Addr → List β → Option Addr → Prop
  | ptr, [], stop => ptr = stop
  | ptr, x :: xs, stop => ptr = some (locate x).1 ∧
      ∃ next, m.cell (locate x).1 = some ⟨(locate x).2, next⟩ ∧ Segment m next xs stop

variable {locate} {m m' : Memory α} {ptr stop target : Option Addr} {x y : β} {xs ys : List β}

@[simp] theorem addresses_cons : addresses locate (x :: xs) = (locate x).1 :: addresses locate xs :=
  rfl

@[simp] theorem addresses_append :
    addresses locate (xs ++ ys) = addresses locate xs ++ addresses locate ys :=
  List.map_append ..

theorem addresses_perm (h : xs.Perm ys) :
    (addresses locate xs).Perm (addresses locate ys) :=
  h.map _

theorem mem_addresses (h : x ∈ xs) : (locate x).1 ∈ addresses locate xs :=
  List.mem_map.mpr ⟨x, h, rfl⟩

theorem segment_append : Segment locate m ptr (xs ++ ys) stop ↔
    ∃ middle, Segment locate m ptr xs middle ∧ Segment locate m middle ys stop := by
  induction xs generalizing ptr with
  | nil => exact ⟨fun h => ⟨ptr, rfl, h⟩, fun ⟨middle, hptr, h⟩ => hptr ▸ h⟩
  | cons x xs ih =>
      constructor
      · rintro ⟨hptr, next, hcell, hrest⟩
        obtain ⟨middle, hfront, hback⟩ := ih.mp hrest
        exact ⟨middle, ⟨hptr, next, hcell, hfront⟩, hback⟩
      · rintro ⟨middle, ⟨hptr, next, hcell, hfront⟩, hback⟩
        exact ⟨hptr, next, hcell, ih.mpr ⟨middle, hfront, hback⟩⟩

namespace Segment

theorem cell_eq (h : Segment locate m ptr xs stop) (hmem : x ∈ xs) :
    ∃ next, m.cell (locate x).1 = some ⟨(locate x).2, next⟩ := by
  induction xs generalizing ptr with
  | nil => cases hmem
  | cons y xs ih =>
      obtain ⟨-, next, hcell, hrest⟩ := h
      rcases List.mem_cons.mp hmem with rfl | hmem
      · exact ⟨next, hcell⟩
      · exact ih hrest hmem

theorem lt_fresh (h : Segment locate m ptr xs stop) {a : Addr} (ha : a ∈ addresses locate xs) :
    a < m.fresh := by
  obtain ⟨x, hmem, rfl⟩ := List.mem_map.mp ha
  obtain ⟨next, hcell⟩ := h.cell_eq hmem
  exact Memory.lt_fresh hcell

theorem length_le (h : Segment locate m ptr xs stop) (hnodup : (addresses locate xs).Nodup) :
    xs.length ≤ m.fresh := by
  have hsubset : addresses locate xs ⊆ List.range m.fresh := fun a ha =>
    List.mem_range.mpr (h.lt_fresh ha)
  have hlength := hnodup.length_le_of_subset hsubset
  rwa [addresses, List.length_map, List.length_range] at hlength

theorem frame (h : Segment locate m ptr xs stop) {addrs : List Addr}
    (hsame : Memory.SameOutside addrs m m') (hapart : ∀ a ∈ addresses locate xs, a ∉ addrs) :
    Segment locate m' ptr xs stop := by
  induction xs generalizing ptr with
  | nil => exact h
  | cons x xs ih =>
      obtain ⟨hptr, next, hcell, hrest⟩ := h
      refine ⟨hptr, next, ?_, ih hrest fun a ha => hapart a (List.mem_cons_of_mem _ ha)⟩
      rw [hsame.cell_eq _ (Memory.lt_fresh hcell) (hapart _ (List.mem_cons_self ..)), hcell]

theorem written (h : Segment locate m ptr xs stop) {a : Addr} {c : Option (Cell α)}
    (hwritten : m.Written a c m') (hapart : a ∉ addresses locate xs) :
    Segment locate m' ptr xs stop := by
  refine h.frame (hwritten.sameOutside (List.mem_singleton_self a)) fun b hb hmem => ?_
  rw [List.mem_singleton.mp hmem] at hb
  exact hapart hb

theorem push (h : Segment locate m ptr xs stop)
    (hsame : Memory.SameOutside [(locate x).1] m m')
    (hcell : m'.cell (locate x).1 = some ⟨(locate x).2, ptr⟩)
    (hapart : (locate x).1 ∉ addresses locate xs) :
    Segment locate m' (some (locate x).1) (x :: xs) stop := by
  refine ⟨rfl, ptr, hcell, h.frame hsame fun a ha hmem => ?_⟩
  rw [List.mem_singleton.mp hmem] at ha
  exact hapart ha

theorem redirect (h : Segment locate m ptr (xs ++ [x]) stop)
    (hnodup : (addresses locate (xs ++ [x])).Nodup) (target : Option Addr) :
    ∃ m', m.setNext (locate x).1 target = some m' ∧
      m.Written (locate x).1 (some ⟨(locate x).2, target⟩) m' ∧
      Segment locate m' ptr (xs ++ [x]) target := by
  obtain ⟨middle, hfront, hmiddle, next, hcell, -⟩ := segment_append.mp h
  obtain ⟨m', hset, hwritten⟩ := Memory.setNext_eq hcell target
  rw [addresses_append, List.nodup_append] at hnodup
  have hapart : (locate x).1 ∉ addresses locate xs := fun hmem =>
    hnodup.2.2 _ hmem _ (List.mem_singleton_self _) rfl
  refine ⟨m', hset, hwritten, segment_append.mpr ⟨middle, hfront.written hwritten hapart, ?_⟩⟩
  exact ⟨hmiddle, target, hwritten.cell_self, rfl⟩

theorem ptr_eq (h : Segment locate m ptr xs none) :
    ptr = xs.head?.map fun x => (locate x).1 := by
  cases xs with
  | nil => exact h
  | cons x xs => exact h.1

/-- A cell behind another is taken out of its place and put in front. -/
theorem moveToFront (h : Segment locate m ptr (xs ++ [x] ++ y :: ys) stop)
    (hnodup : (addresses locate (xs ++ [x] ++ y :: ys)).Nodup) :
    ∃ next m₁ m₂, m.cell (locate y).1 = some ⟨(locate y).2, next⟩ ∧
      m.setNext (locate x).1 next = some m₁ ∧ m₁.setNext (locate y).1 ptr = some m₂ ∧
      Memory.SameOutside (addresses locate (xs ++ [x] ++ y :: ys)) m m₂ ∧
      Segment locate m₂ (some (locate y).1) (y :: (xs ++ [x] ++ ys)) stop := by
  obtain ⟨middle, hfront, rfl, next, hcell, hback⟩ := segment_append.mp h
  rw [addresses_append, addresses_cons, List.nodup_append, List.nodup_cons] at hnodup
  obtain ⟨hfrontNodup, ⟨hyBack, -⟩, hdisjoint⟩ := hnodup
  have hxFront : (locate x).1 ∈ addresses locate (xs ++ [x]) := mem_addresses (by simp)
  obtain ⟨m₁, hset₁, hwritten₁, hfront₁⟩ := hfront.redirect hfrontNodup next
  have hxy : (locate y).1 ≠ (locate x).1 := fun heq =>
    hdisjoint _ hxFront _ (List.mem_cons_self ..) heq.symm
  have hback₁ : Segment locate m₁ next ys stop := hback.written hwritten₁ fun hmem =>
    hdisjoint _ hxFront _ (List.mem_cons_of_mem _ hmem) rfl
  have hcell₁ : m₁.cell (locate y).1 = some ⟨(locate y).2, next⟩ := by
    rw [hwritten₁.cell_eq, Function.update_of_ne hxy, hcell]
  obtain ⟨m₂, hset₂, hwritten₂⟩ := Memory.setNext_eq hcell₁ ptr
  refine ⟨next, m₁, m₂, hcell, hset₁, hset₂, ?_, ?_⟩
  · exact (hwritten₁.sameOutside (mem_addresses (by simp))).trans
      (hwritten₂.sameOutside (mem_addresses (by simp)))
  · refine (segment_append.mpr ⟨next, hfront₁, hback₁⟩).push
      (hwritten₂.sameOutside (List.mem_singleton_self _)) hwritten₂.cell_self fun hmem => ?_
    rw [addresses_append, List.mem_append] at hmem
    exact hmem.elim (fun hmem => hdisjoint _ hmem _ (List.mem_cons_self ..) rfl) hyBack

theorem unlinkFirst (h : Segment locate m ptr (y :: ys) stop)
    (hnodup : (addresses locate (y :: ys)).Nodup) :
    ∃ next m₁, m.cell (locate y).1 = some ⟨(locate y).2, next⟩ ∧
      m.free (locate y).1 = some m₁ ∧ Memory.SameOutside (addresses locate (y :: ys)) m m₁ ∧
      Segment locate m₁ next ys stop := by
  obtain ⟨rfl, next, hcell, hback⟩ := h
  obtain ⟨m₁, hfree, hwritten⟩ := Memory.free_eq hcell
  exact ⟨next, m₁, hcell, hfree, hwritten.sameOutside (List.mem_cons_self ..),
    hback.written hwritten (List.nodup_cons.mp hnodup).1⟩

/-- A cell behind another is given back, and the other one points past it. -/
theorem unlinkNext (h : Segment locate m ptr (xs ++ [x] ++ y :: ys) stop)
    (hnodup : (addresses locate (xs ++ [x] ++ y :: ys)).Nodup) :
    ∃ next m₁ m₂, m.cell (locate y).1 = some ⟨(locate y).2, next⟩ ∧
      m.free (locate y).1 = some m₁ ∧ m₁.setNext (locate x).1 next = some m₂ ∧
      Memory.SameOutside (addresses locate (xs ++ [x] ++ y :: ys)) m m₂ ∧
      Segment locate m₂ ptr (xs ++ [x] ++ ys) stop := by
  obtain ⟨middle, hfront, hback⟩ := segment_append.mp h
  rw [addresses_append, List.nodup_append] at hnodup
  obtain ⟨hfrontNodup, hbackNodup, hdisjoint⟩ := hnodup
  obtain ⟨next, m₁, hcell, hfree, hsame₁, hback₁⟩ := hback.unlinkFirst hbackNodup
  have hfront₁ := hfront.frame hsame₁ fun a ha hmem => hdisjoint a ha a hmem rfl
  obtain ⟨m₂, hset, hwritten, hfront₂⟩ := hfront₁.redirect hfrontNodup next
  refine ⟨next, m₁, m₂, hcell, hfree, hset, ?_, segment_append.mpr ⟨next, hfront₂, ?_⟩⟩
  · rw [addresses_append]
    exact (hsame₁.mono fun a ha => List.mem_append_right _ ha).trans
      (hwritten.sameOutside (List.mem_append_left _ (mem_addresses (by simp))))
  · exact hback₁.written hwritten fun hmem =>
      hdisjoint _ (mem_addresses (by simp)) _ (List.mem_cons_of_mem _ hmem) rfl

end Segment

/-! ### Arrays of lists -/

variable (locate) in
/-- Each pointer of an array is the start of a list of its own, which ends with the null pointer. -/
def Chains (m : Memory α) (slots : List (Option Addr)) (chains : List (List β)) : Prop :=
  List.Forall₂ (fun ptr xs => Segment locate m ptr xs none) slots chains

section Chains

variable {slots : List (Option Addr)} {chains : List (List β)} {index : Nat}

theorem addresses_subset_flatten (chains : List (List β)) (index : Nat) {a : Addr}
    (ha : a ∈ addresses locate (chains.getD index [])) : a ∈ addresses locate chains.flatten := by
  induction chains generalizing index with
  | nil => cases ha
  | cons first chains ih =>
      rw [List.flatten_cons, addresses_append, List.mem_append]
      cases index with
      | zero => exact Or.inl ha
      | succ index => exact Or.inr (ih index ha)

theorem chains_apart (hnodup : (addresses locate chains.flatten).Nodup) {other : Nat}
    (hother : other ≠ index) {a : Addr} (ha : a ∈ addresses locate (chains.getD other [])) :
    a ∉ addresses locate (chains.getD index []) := by
  induction chains generalizing index other with
  | nil => cases ha
  | cons first chains ih =>
      rw [List.flatten_cons, addresses_append, List.nodup_append] at hnodup
      obtain ⟨-, hrest, hdisjoint⟩ := hnodup
      intro hmem
      cases other with
      | zero =>
          cases index with
          | zero => exact hother rfl
          | succ index => exact hdisjoint a ha a (addresses_subset_flatten chains index hmem) rfl
      | succ other =>
          cases index with
          | zero => exact hdisjoint a hmem a (addresses_subset_flatten chains other ha) rfl
          | succ index => exact ih hrest (fun heq => hother (congrArg _ heq)) ha hmem

theorem nodup_chain (hnodup : (addresses locate chains.flatten).Nodup) (index : Nat) :
    (addresses locate (chains.getD index [])).Nodup := by
  induction chains generalizing index with
  | nil => exact List.nodup_nil
  | cons first chains ih =>
      rw [List.flatten_cons, addresses_append, List.nodup_append] at hnodup
      cases index with
      | zero => exact hnodup.1
      | succ index => exact ih hnodup.2.1 index

namespace Chains

theorem getD (h : Chains locate m slots chains) (index : Nat) :
    Segment locate m (slots.getD index none) (chains.getD index []) none := by
  induction h generalizing index with
  | nil => rfl
  | cons hfirst hrest ih =>
      cases index with
      | zero => exact hfirst
      | succ index => exact ih index

theorem lt_fresh (h : Chains locate m slots chains) {a : Addr}
    (ha : a ∈ addresses locate chains.flatten) : a < m.fresh := by
  induction h with
  | nil => cases ha
  | cons hfirst hrest ih =>
      rw [List.flatten_cons, addresses_append, List.mem_append] at ha
      exact ha.elim hfirst.lt_fresh ih

theorem frame (h : Chains locate m slots chains) {addrs : List Addr}
    (hsame : Memory.SameOutside addrs m m')
    (hapart : ∀ a ∈ addresses locate chains.flatten, a ∉ addrs) : Chains locate m' slots chains := by
  induction h with
  | nil => exact .nil
  | cons hfirst hrest ih =>
      rw [List.flatten_cons, addresses_append] at hapart
      exact .cons (hfirst.frame hsame fun a ha => hapart a (List.mem_append_left _ ha))
        (ih fun a ha => hapart a (List.mem_append_right _ ha))

theorem set (h : Chains locate m slots chains) {addrs : List Addr}
    (hsame : Memory.SameOutside addrs m m')
    (hapart : ∀ other, other ≠ index → ∀ a ∈ addresses locate (chains.getD other []), a ∉ addrs)
    (hsegment : Segment locate m' ptr xs none) :
    Chains locate m' (slots.set index ptr) (chains.set index xs) := by
  induction h generalizing index with
  | nil => exact .nil
  | cons hfirst hrest ih =>
      cases index with
      | zero =>
          refine .cons hsegment (frame hrest hsame fun a ha => ?_)
          obtain ⟨x, hmem, rfl⟩ := List.mem_map.mp ha
          obtain ⟨chain, hchain, hx⟩ := List.mem_flatten.mp hmem
          obtain ⟨other, hlt, rfl⟩ := List.mem_iff_getElem.mp hchain
          refine hapart (other + 1) (Nat.succ_ne_zero other) _ (mem_addresses ?_)
          rwa [List.getD_cons_succ, List.getD_eq_getElem _ _ hlt]
      | succ index =>
          refine .cons (hfirst.frame hsame (hapart 0 (Nat.succ_ne_zero index).symm)) (ih ?_)
          exact fun other hother => hapart (other + 1) fun heq => hother (Nat.succ.inj heq)

theorem update (h : Chains locate m slots chains)
    (hnodup : (addresses locate chains.flatten).Nodup)
    (hsame : Memory.SameOutside (addresses locate (chains.getD index [])) m m')
    (hsegment : Segment locate m' ptr xs none) :
    Chains locate m' (slots.set index ptr) (chains.set index xs) :=
  h.set hsame (fun _ hother _ ha => chains_apart hnodup hother ha) hsegment

end Chains

end Chains

end Segments

end LinkedCells
