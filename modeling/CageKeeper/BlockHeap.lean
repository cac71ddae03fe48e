import Mathlib.Data.List.Nodup
import Mathlib.Data.List.Perm.Subperm
import Mathlib.Logic.Function.Basic
import Mathlib.Tactic.Common

/-! A heap of blocks, as `malloc` and `free` leave it. Freeing a block twice, or using one that has
been freed, has no result. What a piece of code does to the heap is said by the blocks that it adds:
one heap is another with some new blocks and nothing else changed. -/

namespace BlockHeap

variable {β α γ : Type}

abbrev Addr := Nat

/-- The blocks in use. Addresses from `fresh` on have never been given out. -/
structure Heap (β : Type) where
  block : Addr → Option β
  fresh : Addr
  unused : ∀ a, fresh ≤ a → block a = none

/-- A piece of code that uses the heap; `none` where its behaviour is undefined. -/
abbrev HeapM (β : Type) := StateT (Heap β) Option

namespace Heap

def empty : Heap β := ⟨fun _ => none, 0, fun _ _ => rfl⟩

def update (h : Heap β) (a : Addr) (b : Option β) (ha : a < h.fresh) : Heap β :=
  ⟨Function.update h.block a b, h.fresh, fun c hc => by
    rw [Function.update_of_ne (Nat.ne_of_gt (Nat.lt_of_lt_of_le ha hc))]
    exact h.unused c hc⟩

theorem lt_fresh {h : Heap β} {a : Addr} (hsome : h.block a ≠ none) : a < h.fresh :=
  Nat.lt_of_not_le fun hle => hsome (h.unused a hle)

end Heap

namespace HeapM

/-- `malloc`. -/
def alloc (b : β) : HeapM β Addr := fun h =>
  some (h.fresh, ⟨Function.update h.block h.fresh (some b), h.fresh + 1, fun a ha => by
    rw [Function.update_of_ne (Nat.ne_of_gt ha)]
    exact h.unused a (Nat.le_of_succ_le ha)⟩)

def load (a : Addr) : HeapM β β := fun h => (h.block a).map fun b => (b, h)

def store (a : Addr) (b : β) : HeapM β Unit := fun h =>
  if hsome : h.block a ≠ none then some ((), h.update a (some b) (Heap.lt_fresh hsome)) else none

/-- `free`, of a pointer that is not `NULL`. -/
def free (a : Addr) : HeapM β Unit := fun h =>
  if hsome : h.block a ≠ none then some ((), h.update a none (Heap.lt_fresh hsome)) else none

/-- `free`. -/
def freePtr : Option Addr → HeapM β Unit
  | none => pure ()
  | some a => free a

/-- A pointer that must not be `NULL`, or a result that must be there. -/
def require (result : Option α) : HeapM β α := fun h => result.map fun value => (value, h)

@[simp] theorem pure_apply (value : α) (h : Heap β) : (pure value : HeapM β α) h = some (value, h) :=
  rfl

theorem bind_eq {code : HeapM β α} {next : α → HeapM β γ} {h h' : Heap β} {value : α}
    (hcode : code h = some (value, h')) : (code >>= next) h = next value h' := by
  show (code h).bind _ = _
  rw [hcode, Option.bind_some]

@[simp] theorem require_some (value : α) (h : Heap β) :
    (require (some value) : HeapM β α) h = some (value, h) := rfl

theorem load_eq {a : Addr} {b : β} {h : Heap β} (hblock : h.block a = some b) :
    load a h = some (b, h) := by
  rw [load, hblock, Option.map_some]

end HeapM

/-! ### What has been added -/

/-- A heap is another one with new blocks, and nothing else has changed. -/
structure Adds (h h' : Heap β) (blocks : List (Addr × β)) : Prop where
  fresh_le : h.fresh ≤ h'.fresh
  new : ∀ x ∈ blocks, h.fresh ≤ x.1
  nodup : (blocks.map Prod.fst).Nodup
  block_mem : ∀ x ∈ blocks, h'.block x.1 = some x.2
  block_other : ∀ a, a ∉ blocks.map Prod.fst → h'.block a = h.block a

namespace Adds

variable {h h' h'' : Heap β} {blocks others : List (Addr × β)} {a : Addr} {b : β}

theorem refl (h : Heap β) : Adds h h [] :=
  ⟨Nat.le_refl _, by simp, by simp, by simp, fun _ _ => rfl⟩

theorem perm (hadds : Adds h h' blocks) (hperm : blocks.Perm others) : Adds h h' others where
  fresh_le := hadds.fresh_le
  new x hx := hadds.new x (hperm.mem_iff.mpr hx)
  nodup := (hperm.map Prod.fst).nodup_iff.mp hadds.nodup
  block_mem x hx := hadds.block_mem x (hperm.mem_iff.mpr hx)
  block_other a ha := hadds.block_other a fun hmem => ha ((hperm.map Prod.fst).mem_iff.mp hmem)

theorem frame (hadds : Adds h h' blocks) (hblock : h.block a = some b) : h'.block a = some b := by
  rw [hadds.block_other a, hblock]
  intro hmem
  obtain ⟨x, hx, rfl⟩ := List.mem_map.mp hmem
  rw [h.unused _ (hadds.new x hx)] at hblock
  cases hblock

theorem lt_fresh (hadds : Adds h h' blocks) {x : Addr × β} (hx : x ∈ blocks) : x.1 < h'.fresh :=
  Heap.lt_fresh (by rw [hadds.block_mem x hx]; exact Option.some_ne_none _)

theorem trans (hadds : Adds h h' blocks) (hadds' : Adds h' h'' others) :
    Adds h h'' (others ++ blocks) := by
  have hapart : ∀ x ∈ others, x.1 ∉ blocks.map Prod.fst := by
    intro x hx hmem
    obtain ⟨y, hy, heq⟩ := List.mem_map.mp hmem
    exact absurd (hadds'.new x hx) (Nat.not_le.mpr (heq ▸ hadds.lt_fresh hy))
  refine ⟨Nat.le_trans hadds.fresh_le hadds'.fresh_le, ?_, ?_, ?_, ?_⟩
  · exact List.forall_mem_append.mpr
      ⟨fun x hx => Nat.le_trans hadds.fresh_le (hadds'.new x hx), hadds.new⟩
  · rw [List.map_append, List.nodup_append]
    refine ⟨hadds'.nodup, hadds.nodup, fun x hx y hy heq => ?_⟩
    obtain ⟨z, hz, rfl⟩ := List.mem_map.mp hx
    exact hapart z hz (heq ▸ hy)
  · exact List.forall_mem_append.mpr
      ⟨hadds'.block_mem, fun x hx => hadds'.frame (hadds.block_mem x hx)⟩
  · intro a ha
    rw [List.map_append, List.mem_append, not_or] at ha
    rw [hadds'.block_other a ha.1, hadds.block_other a ha.2]

theorem alloc (hadds : Adds h h' blocks) (b : β) :
    ∃ a h'', HeapM.alloc b h' = some (a, h'') ∧ Adds h h'' ((a, b) :: blocks) := by
  refine ⟨_, _, rfl, hadds.trans (show Adds h' _ [(h'.fresh, b)] from ⟨Nat.le_succ _, ?_, ?_, ?_, ?_⟩)⟩
  · simp
  · simp
  · simp
  · intro a ha
    exact Function.update_of_ne (fun heq => ha (by simp [heq])) _ _

section Uses

variable (before : List (Addr × β)) {after : List (Addr × β)}

theorem load (hadds : Adds h h' (before ++ (a, b) :: after)) : HeapM.load a h' = some (b, h') :=
  HeapM.load_eq (hadds.block_mem (a, b) (List.mem_append_right _ (List.mem_cons_self ..)))

theorem store (hadds : Adds h h' (before ++ (a, b) :: after)) (c : β) :
    ∃ h'', HeapM.store a c h' = some ((), h'') ∧ Adds h h'' (before ++ (a, c) :: after) := by
  have hfront := hadds.perm List.perm_middle
  have hblock : h'.block a ≠ none := by
    rw [hfront.block_mem (a, b) (List.mem_cons_self ..)]
    exact Option.some_ne_none _
  have hnodup := List.nodup_cons.mp hfront.nodup
  refine ⟨h'.update a (some c) (Heap.lt_fresh hblock), dif_pos hblock, perm ?_
    (List.perm_middle (a := (a, c))).symm⟩
  refine ⟨hfront.fresh_le, ?_, hfront.nodup, ?_, ?_⟩
  · exact List.forall_mem_cons.mpr (List.forall_mem_cons.mp hfront.new)
  · refine List.forall_mem_cons.mpr ⟨Function.update_self .., fun x hx => ?_⟩
    have hne : x.1 ≠ a := fun heq => hnodup.1 (List.mem_map.mpr ⟨x, hx, heq⟩)
    exact (Function.update_of_ne hne ..).trans (hfront.block_mem x (List.mem_cons_of_mem _ hx))
  · intro c hc
    have hne : c ≠ a := fun heq => hc (by simp [heq])
    exact (Function.update_of_ne hne ..).trans (hfront.block_other c hc)

theorem free (hadds : Adds h h' (before ++ (a, b) :: after)) :
    ∃ h'', HeapM.free a h' = some ((), h'') ∧ Adds h h'' (before ++ after) := by
  have hfront := hadds.perm List.perm_middle
  have hblock : h'.block a ≠ none := by
    rw [hfront.block_mem (a, b) (List.mem_cons_self ..)]
    exact Option.some_ne_none _
  have hnodup := List.nodup_cons.mp hfront.nodup
  have hnew := List.forall_mem_cons.mp hfront.new
  refine ⟨h'.update a none (Heap.lt_fresh hblock), dif_pos hblock, hfront.fresh_le, hnew.2,
    hnodup.2, ?_, ?_⟩
  · intro x hx
    have hne : x.1 ≠ a := fun heq => hnodup.1 (List.mem_map.mpr ⟨x, hx, heq⟩)
    exact (Function.update_of_ne hne ..).trans (hfront.block_mem x (List.mem_cons_of_mem _ hx))
  · intro c hc
    by_cases heq : c = a
    · rw [heq, h.unused a hnew.1]
      exact Function.update_self ..
    · refine (Function.update_of_ne heq ..).trans (hfront.block_other c ?_)
      rw [List.map_cons, List.mem_cons, not_or]
      exact ⟨heq, hc⟩

end Uses

theorem length_le_fresh (hadds : Adds h h' blocks) : blocks.length ≤ h'.fresh := by
  have hbelow : blocks.map Prod.fst ⊆ List.range h'.fresh := by
    intro a hmem
    obtain ⟨x, hx, rfl⟩ := List.mem_map.mp hmem
    exact List.mem_range.mpr (hadds.lt_fresh hx)
  calc blocks.length = (blocks.map Prod.fst).length := by rw [List.length_map]
    _ ≤ (List.range h'.fresh).length := (hadds.nodup.subperm hbelow).length_le
    _ = h'.fresh := List.length_range

theorem block_eq (hadds : Adds h h' []) : h'.block = h.block :=
  funext fun a => hadds.block_other a List.not_mem_nil

end Adds

end BlockHeap
