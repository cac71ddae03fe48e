import Mathlib.Data.List.Perm.Subperm
import Mathlib.Data.List.Count
import Mathlib.Data.List.Nodup

/-! Lists in which the entry that is looked for is moved to the front, against lists in some fixed order.
How far a list is from the order is the number of pairs that stand the wrong way round; an access that goes
far brings its entry before all it has passed, and most of these pairs are then the right way round. -/

namespace MoveToFront

variable {α : Type} (rank : α → Nat)

/-- How many pairs stand the wrong way round. -/
def disorder : List α → Nat
  | [] => 0
  | a :: list => list.countP (rank · < rank a) + disorder list

variable {rank}

theorem disorder_moveToFront (rank : α → Nat) (front : List α) (a : α) (rest : List α) :
    disorder rank (a :: (front ++ rest)) + front.countP (rank a < rank ·)
      = disorder rank (front ++ a :: rest) + front.countP (rank · < rank a) := by
  induction front with
  | nil => rfl
  | cons b front ih =>
      simp only [List.cons_append, disorder, List.countP_cons, List.countP_append,
        decide_eq_true_eq] at ih ⊢
      omega

/-- In front of an entry there are no more of lower rank than its rank says. -/
theorem countP_lt_le {front : List α} (hnodup : (front.map rank).Nodup) (a : α) :
    front.countP (rank · < rank a) ≤ rank a := by
  have hbelow : ((front.filter (rank · < rank a)).map rank) ⊆ List.range (rank a) := by
    intro r hr
    obtain ⟨b, hb, rfl⟩ := List.mem_map.mp hr
    exact List.mem_range.mpr (by simpa using (List.mem_filter.mp hb).2)
  have hdistinct : ((front.filter (rank · < rank a)).map rank).Nodup :=
    hnodup.sublist (List.filter_sublist.map rank)
  calc front.countP (rank · < rank a)
      = ((front.filter (rank · < rank a)).map rank).length := by
        rw [List.countP_eq_length_filter, List.length_map]
    _ ≤ (List.range (rank a)).length := (hdistinct.subperm hbelow).length_le
    _ = rank a := List.length_range

theorem countP_add_countP {front : List α} {a : α} (hne : ∀ b ∈ front, rank b ≠ rank a) :
    front.countP (rank · < rank a) + front.countP (rank a < rank ·) = front.length := by
  induction front with
  | nil => rfl
  | cons b front ih =>
      have hothers := ih fun c hc => hne c (List.mem_cons_of_mem _ hc)
      have hfirst := hne b (List.mem_cons_self ..)
      simp only [List.countP_cons, List.length_cons, decide_eq_true_eq]
      split <;> split <;> omega

/-- **One access.** With what the list comes nearer to the order, it costs no more than twice what it costs
in the order. -/
theorem access_le {front rest : List α} {a : α} (hnodup : ((front ++ a :: rest).map rank).Nodup) :
    disorder rank (a :: (front ++ rest)) + (front.length + 1)
      ≤ disorder rank (front ++ a :: rest) + (2 * rank a + 1) := by
  rw [List.map_append, List.map_cons, List.nodup_append] at hnodup
  obtain ⟨hfront, -, hapart⟩ := hnodup
  have hne : ∀ b ∈ front, rank b ≠ rank a := fun b hb =>
    hapart _ (List.mem_map_of_mem hb) _ (List.mem_cons_self ..)
  have hmoved := disorder_moveToFront rank front a rest
  have hpassed := countP_add_countP hne
  have hlower := countP_lt_le hfront a
  omega

theorem disorder_le (rank : α → Nat) (list : List α) : disorder rank list ≤ list.length * list.length := by
  induction list with
  | nil => exact Nat.le_refl _
  | cons a list ih =>
      have hcount : list.countP (rank · < rank a) ≤ list.length := List.countP_le_length
      rw [disorder, List.length_cons, Nat.succ_mul, Nat.mul_succ]
      omega

/-! ### Several lists -/

/-- How many pairs stand the wrong way round in some list. -/
def totalDisorder (rank : α → Nat) : List (List α) → Nat
  | [] => 0
  | list :: lists => disorder rank list + totalDisorder rank lists

theorem totalDisorder_set {lists : List (List α)} {index : Nat} {old : List α}
    (hold : lists[index]? = some old) (new : List α) :
    totalDisorder rank (lists.set index new) + disorder rank old
      = totalDisorder rank lists + disorder rank new := by
  induction lists generalizing index with
  | nil => cases hold
  | cons list lists ih =>
      cases index with
      | zero =>
          cases hold
          rw [List.set_cons_zero, totalDisorder, totalDisorder]
          omega
      | succ index =>
          rw [List.getElem?_cons_succ] at hold
          have hothers := ih hold
          rw [List.set_cons_succ, totalDisorder, totalDisorder]
          omega

theorem totalDisorder_le (rank : α → Nat) (lists : List (List α)) :
    totalDisorder rank lists ≤ lists.flatten.length * lists.flatten.length := by
  induction lists with
  | nil => exact Nat.le_refl _
  | cons list lists ih =>
      have hfirst := disorder_le rank list
      rw [totalDisorder, List.flatten_cons, List.length_append, Nat.add_mul, Nat.mul_add, Nat.mul_add]
      omega

end MoveToFront
