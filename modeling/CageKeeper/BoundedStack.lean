import Mathlib.Algebra.Order.Sub.Basic
import Mathlib.Tactic.Common

/-! A stack with a limit, as an interpreter gives it to the code that calls it: pushing beyond the limit
has no result. What a piece of code needs of the stack is a condition on the number of slots that are
left, and it is exact: the code has its result if they are enough, and none if they are not. -/

namespace BoundedStack

variable {α β γ ι : Type}

/-- The cells from the bottom up, and how many there may be. -/
structure Stack (α : Type) where
  cells : List α
  limit : Nat

/-- Code that uses the stack; `none` where its behaviour is undefined. -/
abbrev StackM (α β : Type) := StateT (Stack α) Option β

namespace Stack

variable (s : Stack α) {cells others : List α}

def Valid : Prop := s.cells.length ≤ s.limit

def free : Nat := s.limit - s.cells.length

def append (cells : List α) : Stack α := ⟨s.cells ++ cells, s.limit⟩

/-- More cells, for which the limit is raised where it is too low. -/
def grow (cells : List α) : Stack α :=
  ⟨s.cells ++ cells, max s.limit (s.cells.length + cells.length)⟩

@[simp] theorem append_nil : s.append [] = s := by
  rw [append, List.append_nil]

theorem append_append : (s.append cells).append others = s.append (cells ++ others) := by
  rw [append, append, append, List.append_assoc]

def fromTop (depth : Nat) : Option α := s.cells.reverse[depth]?

@[simp] theorem fromTop_append_zero (a : α) : (s.append [a]).fromTop 0 = some a := by
  simp [fromTop, append]

@[simp] theorem fromTop_append_succ (a : α) (depth : Nat) :
    (s.append [a]).fromTop (depth + 1) = s.fromTop depth := by
  simp [fromTop, append]

@[simp] theorem append_length : (s.append cells).cells.length = s.cells.length + cells.length :=
  List.length_append

@[simp] theorem append_limit : (s.append cells).limit = s.limit := rfl

variable {s}

theorem valid_append (hvalid : s.Valid) (hroom : cells.length ≤ s.free) : (s.append cells).Valid := by
  unfold Valid at hvalid ⊢
  unfold free at hroom
  rw [append_length, append_limit]
  omega

theorem free_append : (s.append cells).free = s.free - cells.length := by
  rw [free, append_length, append_limit, Nat.sub_add_eq, free]

theorem grow_eq (hvalid : s.Valid) (hroom : cells.length ≤ s.free) : s.grow cells = s.append cells := by
  unfold Valid at hvalid
  unfold free at hroom
  rw [grow, append, max_eq_left (by omega)]

end Stack

/-! ### Operations -/

def push (a : α) : StackM α Unit := fun s =>
  if s.cells.length < s.limit then some ((), s.append [a]) else none

def pop (n : Nat) : StackM α Unit := fun s =>
  if n ≤ s.cells.length then some ((), ⟨s.cells.take (s.cells.length - n), s.limit⟩) else none

def top : StackM α α := fun s => s.cells.getLast?.map fun a => (a, s)

theorem top_append (a : α) (s : Stack α) : top (s.append [a]) = some (a, s.append [a]) := by
  rw [top, Stack.append, List.getLast?_concat]
  rfl

def cellAt (depth : Nat) : StackM α α := fun s => (s.fromTop depth).map fun a => (a, s)

def gettop : StackM α Nat := fun s => some (s.cells.length, s)

theorem pop_append (popped : List α) (s : Stack α) :
    pop popped.length (s.append popped) = some ((), s) := by
  have hle : popped.length ≤ (s.append popped).cells.length := by
    rw [Stack.append_length]
    exact Nat.le_add_left _ _
  rw [pop, if_pos hle, Stack.append_length, Nat.add_sub_cancel, Stack.append, List.take_left]

def require (result : Option β) : StackM α β := fun s => result.map fun value => (value, s)

def replaceTop (a : α) : StackM α Unit := do
  pop 1
  push a

theorem push_append (a : α) {s : Stack α} (hroom : 1 ≤ s.free) : push a s = some ((), s.append [a]) := by
  rw [push, if_pos (by unfold Stack.free at hroom; omega)]

theorem replaceTop_append (old new : α) {s : Stack α} (hroom : 1 ≤ s.free) :
    replaceTop new (s.append [old]) = some ((), s.append [new]) := by
  have hpop : pop 1 (s.append [old]) = some ((), s) := pop_append [old] s
  show (pop 1 (s.append [old])).bind _ = _
  rw [hpop]
  exact push_append new hroom

/-! ### What code needs -/

/-- Above what is on the stack already, the code finds some cells and leaves others. It has a result if
the slots from there on are enough, and none otherwise. -/
structure Exact (code : StackM α β) (before : List α) (enough : Nat → Prop) (result : β → Prop)
    (after : List α) : Prop where
  height : ∀ room, before.length ≤ room → enough room → after.length ≤ room
  run : ∀ s : Stack α, s.Valid → before.length ≤ s.free → enough s.free →
    ∃ value, result value ∧ code (s.append before) = some (value, s.append after)
  stuck : ∀ s : Stack α, s.Valid → before.length ≤ s.free → ¬ enough s.free →
    code (s.append before) = none

namespace Exact

variable {code : StackM α β} {next : β → StackM α γ} {before middle after : List α}
  {enough enough' : Nat → Prop} {between result : β → Prop} {answer : γ → Prop}

theorem pure (value : β) (cells : List α) :
    Exact (Pure.pure value : StackM α β) cells (fun _ => True) (· = value) cells where
  height _ hroom _ := hroom
  run _ _ _ _ := ⟨value, rfl, rfl⟩
  stuck _ _ _ hnot := absurd trivial hnot

theorem bind (hcode : Exact code before enough between middle)
    (hnext : ∀ value, between value → Exact (next value) middle enough' answer after) :
    Exact (code >>= next) before (fun room => enough room ∧ enough' room) answer after where
  height room hroom henough := by
    obtain ⟨value, hvalue, -⟩ := hcode.run ⟨[], room⟩ (Nat.zero_le _) hroom henough.1
    exact (hnext value hvalue).height room (hcode.height room hroom henough.1) henough.2
  run s hvalid hroom henough := by
    obtain ⟨value, hvalue, hrun⟩ := hcode.run s hvalid hroom henough.1
    obtain ⟨last, hlast, hrest⟩ := (hnext value hvalue).run s hvalid
      (hcode.height s.free hroom henough.1) henough.2
    refine ⟨last, hlast, ?_⟩
    show (code (s.append before)).bind _ = _
    rw [hrun]
    exact hrest
  stuck s hvalid hroom hnot := by
    show (code (s.append before)).bind _ = _
    by_cases hfirst : enough s.free
    · obtain ⟨value, hvalue, hrun⟩ := hcode.run s hvalid hroom hfirst
      rw [hrun]
      exact (hnext value hvalue).stuck s hvalid (hcode.height s.free hroom hfirst)
        fun hsecond => hnot ⟨hfirst, hsecond⟩
    · rw [hcode.stuck s hvalid hroom hfirst]
      rfl

theorem congr {result' : β → Prop} (hcode : Exact code before enough result after)
    (henough : ∀ room, before.length ≤ room → (enough room ↔ enough' room))
    (hresult : ∀ value, result value → result' value) : Exact code before enough' result' after where
  height room hroom h := hcode.height room hroom ((henough room hroom).mpr h)
  run s hvalid hroom h := by
    obtain ⟨value, hvalue, hrun⟩ := hcode.run s hvalid hroom ((henough s.free hroom).mpr h)
    exact ⟨value, hresult value hvalue, hrun⟩
  stuck s hvalid hroom hnot := hcode.stuck s hvalid hroom (mt (henough s.free hroom).mp hnot)

theorem bind_right (hcode : Exact code before (fun _ => True) between middle)
    (hnext : ∀ value, between value → Exact (next value) middle enough' answer after) :
    Exact (code >>= next) before enough' answer after :=
  (hcode.bind hnext).congr (fun _ _ => ⟨And.right, fun h => ⟨trivial, h⟩⟩) fun _ h => h

theorem frame (base : List α) (hcode : Exact code before enough result after) :
    Exact code (base ++ before) (fun room => enough (room - base.length)) result (base ++ after) where
  height room hroom h := by
    rw [List.length_append] at hroom ⊢
    have := hcode.height (room - base.length) (by omega) h
    omega
  run s hvalid hroom h := by
    rw [List.length_append] at hroom
    have hbase : (s.append base).Valid := Stack.valid_append hvalid (by omega)
    obtain ⟨value, hvalue, hrun⟩ := hcode.run (s.append base) hbase
      (by rw [Stack.free_append]; omega) (by rwa [Stack.free_append])
    rw [Stack.append_append, Stack.append_append] at hrun
    exact ⟨value, hvalue, hrun⟩
  stuck s hvalid hroom hnot := by
    rw [List.length_append] at hroom
    have hbase : (s.append base).Valid := Stack.valid_append hvalid (by omega)
    have hrun := hcode.stuck (s.append base) hbase
      (by rw [Stack.free_append]; omega) (by rwa [Stack.free_append])
    rwa [Stack.append_append] at hrun

theorem push (a : α) (before : List α) :
    Exact (BoundedStack.push a) before (fun room => before.length + 1 ≤ room) (· = ())
      (before ++ [a]) where
  height room _ h := by rwa [List.length_append, List.length_singleton]
  run s hvalid hroom h := by
    have hlimit : (s.append before).cells.length < (s.append before).limit := by
      rw [Stack.append_length, Stack.append_limit]
      unfold Stack.free at h
      omega
    refine ⟨(), rfl, ?_⟩
    rw [BoundedStack.push, if_pos hlimit, Stack.append_append]
  stuck s hvalid hroom hnot := by
    have hlimit : ¬ (s.append before).cells.length < (s.append before).limit := by
      rw [Stack.append_length, Stack.append_limit]
      unfold Stack.free at hnot hroom
      omega
    rw [BoundedStack.push, if_neg hlimit]

theorem pop (popped before : List α) :
    Exact (BoundedStack.pop popped.length) (before ++ popped) (fun _ => True) (· = ()) before where
  height room hroom _ := by
    rw [List.length_append] at hroom
    omega
  run s _ _ _ := by
    refine ⟨(), rfl, ?_⟩
    rw [← Stack.append_append, pop_append]
  stuck _ _ _ hnot := absurd trivial hnot

theorem top (a : α) (before : List α) :
    Exact BoundedStack.top (before ++ [a]) (fun _ => True) (· = a) (before ++ [a]) where
  height _ hroom _ := hroom
  run s _ _ _ := by
    refine ⟨a, rfl, ?_⟩
    rw [← Stack.append_append, top_append]
  stuck _ _ _ hnot := absurd trivial hnot

theorem replaceTop (old new : α) (before : List α) :
    Exact (BoundedStack.replaceTop new) (before ++ [old]) (fun _ => True) (· = ()) (before ++ [new]) := by
  have hpop := Exact.pop [old] before
  have hpush := Exact.push new before
  refine (hpop.bind_right fun _ _ => hpush).congr (fun room hroom => ?_) fun _ _ => rfl
  rw [List.length_append, List.length_singleton] at hroom
  exact iff_of_true hroom trivial

theorem require (needed : Option β) (cells : List α) :
    Exact (BoundedStack.require needed : StackM α β) cells (fun _ => needed.isSome)
      (needed = some ·) cells where
  height _ hroom _ := hroom
  run s _ _ h := by
    obtain ⟨value, hvalue⟩ := Option.isSome_iff_exists.mp h
    refine ⟨value, hvalue, ?_⟩
    rw [BoundedStack.require, hvalue, Option.map_some]
  stuck s _ _ hnot := by
    rw [BoundedStack.require, Option.not_isSome_iff_eq_none.mp hnot, Option.map_none]

end Exact

/-! ### Runs -/

def runAll (code : ι → StackM α β) : List ι → StackM α (List β)
  | [] => pure []
  | i :: rest => do
      let value ← code i
      let others ← runAll code rest
      pure (value :: others)

section Runs

variable {code : ι → StackM α β} {enough : ι → Nat → Prop} {result : ι → β → Prop} {kept : ι → List α}

end Runs

end BoundedStack
