import CageKeeper.LinkedCells
import CageKeeper.CheckedInt
import CageKeeper.DictDelete
import Mathlib.Algebra.Order.Ring.Int

/-! The hash table of `dict.c` as it is in memory: slots that point to the first entry of their
chain, and entries that point to the next one. What dereferences a null pointer or an entry that has
been freed, leaves the range of an `int`, fails an assertion or does not end has no result. -/

namespace CageKeeper
open LinkedCells

variable {κ δ σ : Type}

/-- The entries in memory. The content of a cell is a `dictentry_t` without its pointer. -/
abbrev EntryMemory (κ δ : Type) := Memory (Entry κ δ)

/-- `dict_t`. -/
structure Table (κ : Type) where
  keyType : HashType κ
  slots : List (Option Addr)
  num : Nat

namespace Table

/-- `h->hashsize`. -/
def hashsize (h : Table κ) : Nat := h.slots.length

/-- `h->slots[hash]`. -/
def slot (h : Table κ) (hash : Nat) : Option Addr := h.slots.getD hash none

/-- `dict_init2`. -/
def dictInit2 (t : HashType κ) (size : Nat) : Table κ := ⟨t, List.replicate size none, 0⟩

/-- `dict_new`. -/
def dictNew (t : HashType κ) : Table κ := dictInit2 t 1

/-! ### Growing -/

/-- The loop of `dict_expand` along a chain. As many turns are enough as there are entries. -/
def expandChain (newlen : Nat) : (turns : Nat) → EntryMemory κ δ → (newslots : List (Option Addr)) →
    (e : Option Addr) → Option (EntryMemory κ δ × List (Option Addr))
  | _, m, newslots, none => some (m, newslots)
  | 0, _, _, some _ => none
  | turns + 1, m, newslots, some e => do
      let entry ← m.cell e
      let newhash := slotIndex entry.content.hash newlen
      let m ← m.setNext e (newslots.getD newhash none)
      expandChain newlen turns m (newslots.set newhash (some e)) entry.next

/-- The loop of `dict_expand` over the slots. -/
def expandSlots (newlen : Nat) : (slots : List (Option Addr)) → EntryMemory κ δ →
    (newslots : List (Option Addr)) → Option (EntryMemory κ δ × List (Option Addr))
  | [], m, newslots => some (m, newslots)
  | e :: slots, m, newslots => do
      let (m, newslots) ← expandChain newlen m.fresh m newslots e
      expandSlots newlen slots m newslots

/-- `dict_expand`. -/
def dictExpand (m : EntryMemory κ δ) (h : Table κ) (newlen : Nat) :
    Option (EntryMemory κ δ × Table κ) :=
  -- assert(h->hashsize < newlen)
  if h.hashsize < newlen then do
    let (m, newslots) ← expandSlots newlen h.slots m (List.replicate newlen none)
    some (m, { h with slots := newslots })
  else none

/-- `dict_put` makes a table without slots grow. -/
def expandEmpty (m : EntryMemory κ δ) (h : Table κ) : Option (EntryMemory κ δ × Table κ) :=
  if h.hashsize = 0 then dictExpand m h 1 else some (m, h)

/-- `dict_put`. The new entry is written when its fields are known. -/
def dictPut (m : EntryMemory κ δ) (h : Table κ) (key : κ) (data : δ) :
    Option (EntryMemory κ δ × Table κ × Addr) := do
  let hash := h.keyType.hash key
  let (m, h) ← expandEmpty m h
  let hash2 := slotIndex hash h.hashsize
  let (m, e) := m.alloc ⟨⟨h.keyType.dup key, hash, data⟩, h.slot hash2⟩
  let num ← int (h.num + 1)
  some (m, { h with slots := h.slots.set hash2 (some e), num := num }, e)

/-! ### Lookup -/

/-- The body of the loop of `dict_do_lookup` that finds the new size. -/
def nextSize (newsize : Nat) : Option Nat :=
  if newsize < 15 then some 15 else (int ((newsize + 1) * 2)).map (· - 1)

/-- The loop of `dict_do_lookup` that finds the new size. -/
def newSizeLoop (num3 : Nat) : (turns newsize : Nat) → Option Nat
  | 0, _ => none
  | turns + 1, newsize => do
      let newsize2 ← int (newsize * 2)
      if num3 ≥ newsize2 then
        let newsize ← nextSize newsize
        newSizeLoop num3 turns newsize
      else some newsize

/-- What the test of the first entry of a slot comes to. -/
inductive FirstEntry where
  | found (e : Addr)
  /-- The search goes on with this entry. -/
  | rest (e : Option Addr)

/-- The test of the first entry of a slot. -/
def checkFirst (m : EntryMemory κ δ) (h : Table κ) (hash : Nat) (key : κ) : Option FirstEntry :=
  match h.slot hash with
  | none => some (.rest none)
  | some e => do
      let entry ← m.cell e
      if h.keyType.equals entry.content.key key then some (.found e) else some (.rest entry.next)

/-- The loop of `dict_do_lookup` along a chain; a match is moved to the front. -/
def searchChain (hash : Nat) (key : κ) : (turns : Nat) → EntryMemory κ δ → Table κ →
    (last e : Option Addr) → Option (EntryMemory κ δ × Table κ × Option Addr)
  | _, m, h, _, none => some (m, h, none)
  | 0, _, _, _, some _ => none
  | turns + 1, m, h, last, some e => do
      let entry ← m.cell e
      if h.keyType.equals entry.content.key key then
        let last ← last
        let m ← m.setNext last entry.next
        let m ← m.setNext e (h.slot hash)
        some (m, { h with slots := h.slots.set hash (some e) }, some e)
      else searchChain hash key turns m h (some e) entry.next

/-- The search in a slot once the table is large enough. -/
def searchSlot (m : EntryMemory κ δ) (h : Table κ) (hash : Nat) (key : κ) :
    Option (EntryMemory κ δ × Table κ × Option Addr) := do
  match ← checkFirst m h hash key with
  | .found e => some (m, h, some e)
  | .rest e => searchChain hash key m.fresh m h (h.slot hash) e

/-- `dict_do_lookup`. -/
def dictDoLookup (m : EntryMemory κ δ) (h : Table κ) (key : κ) :
    Option (EntryMemory κ δ × Table κ × Option Addr) :=
  if h.num = 0 then some (m, h, none)
  else do
    let ohash := h.keyType.hash key
    let hash := slotIndex ohash h.hashsize
    match ← checkFirst m h hash key with
    | .found e => some (m, h, some e)
    | .rest none => some (m, h, none)
    | .rest (some e) =>
        let num3 ← int (h.num * 3)
        let hashsize2 ← int (h.hashsize * 2)
        if num3 ≥ hashsize2 then
          let newsize ← newSizeLoop num3 (num3 + 1) h.hashsize
          let (m, h) ← dictExpand m h newsize
          searchSlot m h (slotIndex ohash h.hashsize) key
        else searchChain hash key m.fresh m h (h.slot hash) (some e)

/-- `dict_lookup`. -/
def dictLookup (m : EntryMemory κ δ) (h : Table κ) (key : κ) :
    Option (EntryMemory κ δ × Table κ × Option δ) := do
  let (m, h, e) ← dictDoLookup m h key
  match e with
  | none => some (m, h, none)
  | some e => do
      let entry ← m.cell e
      some (m, h, some entry.content.data)

/-- `dict_contains`. -/
def dictContains (m : EntryMemory κ δ) (h : Table κ) (key : κ) :
    Option (EntryMemory κ δ × Table κ × Bool) := do
  let (m, h, e) ← dictDoLookup m h key
  some (m, h, e.isSome)

/-! ### Deletion -/

/-- The loop of `dict_del` and `dict_del2`; a match is freed and unlinked. -/
def removeChain (isMatch : Entry κ δ → Bool) (hash : Nat) (head : Option Addr) : (turns : Nat) →
    EntryMemory κ δ → Table κ → (prev e : Option Addr) → Option (EntryMemory κ δ × Table κ × Bool)
  | _, m, h, _, none => some (m, h, false)
  | 0, _, _, _, some _ => none
  | turns + 1, m, h, prev, some e => do
      let entry ← m.cell e
      if isMatch entry.content then
        let m ← m.free e
        if some e = head then
          some (m, { h with slots := h.slots.set hash entry.next, num := h.num - 1 }, true)
        else do
          -- assert(prev)
          let prev ← prev
          let m ← m.setNext prev entry.next
          some (m, { h with num := h.num - 1 }, true)
      else removeChain isMatch hash head turns m h (some e) entry.next

/-- The walk of `dict_del` and `dict_del2`. -/
def dictRemove (m : EntryMemory κ δ) (h : Table κ) (key : κ) (isMatch : Entry κ δ → Bool) :
    Option (EntryMemory κ δ × Table κ × Bool) :=
  if h.num = 0 then some (m, h, false)
  else
    let hash := slotIndex (h.keyType.hash key) h.hashsize
    removeChain isMatch hash (h.slot hash) m.fresh m h none (h.slot hash)

/-- `dict_del`. -/
def dictDel (m : EntryMemory κ δ) (h : Table κ) (key : κ) :
    Option (EntryMemory κ δ × Table κ × Bool) :=
  dictRemove m h key fun e => h.keyType.equals e.key key

/-- `dict_del2`. -/
def dictDel2 [DecidableEq δ] (m : EntryMemory κ δ) (h : Table κ) (key : κ) (data : δ) :
    Option (EntryMemory κ δ × Table κ × Bool) :=
  dictRemove m h key fun e => h.keyType.equals e.key key && e.data = data

/-! ### Copies and walks -/

/-- The loop of `dict_clone` along a chain. -/
def cloneChain (t : HashType κ) : (turns : Nat) → EntryMemory κ δ → (slot e : Option Addr) →
    Option (EntryMemory κ δ × Option Addr)
  | _, m, slot, none => some (m, slot)
  | 0, _, _, some _ => none
  | turns + 1, m, slot, some e => do
      let entry ← m.cell e
      let (m, n) := m.alloc ⟨{ entry.content with key := t.dup entry.content.key }, slot⟩
      cloneChain t turns m (some n) entry.next

/-- The loop of `dict_clone` over the slots. -/
def cloneSlots (t : HashType κ) : (slots : List (Option Addr)) → EntryMemory κ δ →
    Option (EntryMemory κ δ × List (Option Addr))
  | [], m => some (m, [])
  | e :: slots, m => do
      let (m, slot) ← cloneChain t m.fresh m none e
      let (m, slots) ← cloneSlots t slots m
      some (m, slot :: slots)

/-- `dict_clone`. -/
def dictClone (m : EntryMemory κ δ) (o : Table κ) : Option (EntryMemory κ δ × Table κ) := do
  let (m, slots) ← cloneSlots o.keyType o.slots m
  some (m, { o with slots := slots })

/-- The loop of `dict_foreach_keyvalue` along a chain, for a function that leaves the table alone. -/
def foreachChain (runFunction : σ → κ → δ → σ) (m : EntryMemory κ δ) : (turns : Nat) → σ →
    (e : Option Addr) → Option σ
  | _, state, none => some state
  | 0, _, some _ => none
  | turns + 1, state, some e => do
      let entry ← m.cell e
      foreachChain runFunction m turns (runFunction state entry.content.key entry.content.data)
        entry.next

/-- `dict_foreach_keyvalue`, for a function that leaves the table alone. -/
def dictForeachKeyvalue (runFunction : σ → κ → δ → σ) (m : EntryMemory κ δ) (h : Table κ)
    (state : σ) : Option σ :=
  h.slots.foldlM (foreachChain runFunction m m.fresh) state

end Table

end CageKeeper
