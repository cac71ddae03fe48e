import CageKeeper.Value

/-! The hash table of `dict.c`: chains of entries in an array of slots, a CRC of the key as hash,
and a lookup that moves what it finds to the front of its chain and grows the table when it has to
walk along a chain. -/

namespace CageKeeper
open ByteStream

/-! ### Hashing -/

/-- One of the eight steps of `crc32_init` on a table cell. -/
def crc32Step (c : UInt32) : UInt32 := (0xedb88320 : UInt32) * (c &&& (1 : UInt32)) ^^^ (c >>> 1)

/-- The cell `crc32[t]` as `crc32_init` fills it. -/
def crc32 (t : UInt32) : UInt32 := (List.range 8).foldl (fun c _ => crc32Step c) t

/-- `crc32_add_byte`. -/
def crc32AddByte (checksum : UInt32) (b : UInt8) : UInt32 :=
  (checksum >>> 8) ^^^ crc32 ((b.toUInt32 ^^^ checksum) &&& 0xff)

/-- `hash_block`. -/
def hashBlock (data : Bytes) : UInt32 := data.foldl crc32AddByte 0

/-- `hashtype_t`. -/
structure HashType (κ : Type) where
  equals : κ → κ → Bool
  hash : κ → UInt32
  dup : κ → κ

/-- `charptr_equals`. -/
def charptrEquals : Option CString → Option CString → Bool
  | some s1, some s2 => s1.bytes == s2.bytes
  | none, none => true
  | _, _ => false

/-- `charptr_hash`. -/
def charptrHash : Option CString → UInt32
  | none => 0
  | some s => hashBlock s.bytes

/-- `charptr_type`, the key type for C strings. -/
def charptrType : HashType (Option CString) where
  equals := charptrEquals
  hash := charptrHash
  dup := id

/-- The key types on which the table behaves as a map. -/
structure HashType.Lawful {κ : Type} (type : HashType κ) : Prop where
  refl : ∀ key, type.equals key key
  symm : ∀ {left right}, type.equals left right → type.equals right left
  trans : ∀ {left middle right}, type.equals left middle → type.equals middle right →
    type.equals left right
  hash_eq : ∀ {left right}, type.equals left right → type.hash left = type.hash right
  dup_equals : ∀ key, type.equals (type.dup key) key

theorem charptrEquals_iff {left right : Option CString} :
    charptrEquals left right ↔ left = right := by
  cases left <;> cases right <;> simp [charptrEquals, CString.ext_iff]

theorem charptrType_lawful : charptrType.Lawful where
  refl _ := charptrEquals_iff.mpr rfl
  symm h := charptrEquals_iff.mpr (charptrEquals_iff.mp h).symm
  trans h h' := charptrEquals_iff.mpr ((charptrEquals_iff.mp h).trans (charptrEquals_iff.mp h'))
  hash_eq h := congrArg charptrHash (charptrEquals_iff.mp h)
  dup_equals _ := charptrEquals_iff.mpr rfl

/-! ### The table -/

/-- `dictentry_t`; the pointer to the next entry is the position in its chain. -/
structure Entry (κ δ : Type) where
  key : κ
  hash : UInt32
  data : δ

/-- `dict_t`. -/
structure Dict (κ δ : Type) where
  keyType : HashType κ
  slots : List (List (Entry κ δ))
  num : Nat

variable {κ δ : Type}

/-- `h->hashsize`. -/
def Dict.hashsize (h : Dict κ δ) : Nat := h.slots.length

/-- The slot an entry with this hash belongs into. -/
def slotIndex (hash : UInt32) (hashsize : Nat) : Nat := hash.toNat % hashsize

def chain (slots : List (List (Entry κ δ))) (index : Nat) : List (Entry κ δ) := slots.getD index []

/-- `e->next = slots[index]; slots[index] = e`. -/
def pushFront (slots : List (List (Entry κ δ))) (index : Nat) (e : Entry κ δ) :
    List (List (Entry κ δ)) :=
  slots.modify index (e :: ·)

/-- `dict_init2`. -/
def dictInit2 (t : HashType κ) (size : Nat) : Dict κ δ := ⟨t, List.replicate size [], 0⟩

/-- `dict_new`. -/
def dictNew (t : HashType κ) : Dict κ δ := dictInit2 t 1

/-- `dict_expand`. -/
def dictExpand (h : Dict κ δ) (newlen : Nat) : Dict κ δ :=
  { h with
    slots := h.slots.flatten.foldl (fun newslots e => pushFront newslots (slotIndex e.hash newlen) e)
      (List.replicate newlen []) }

/-- `dict_put`. -/
def dictPut (h : Dict κ δ) (key : κ) (data : δ) : Dict κ δ :=
  let hash := h.keyType.hash key
  let h := if h.hashsize = 0 then dictExpand h 1 else h
  { h with
    slots := pushFront h.slots (slotIndex hash h.hashsize) ⟨h.keyType.dup key, hash, data⟩
    num := h.num + 1 }

/-- The loop of `dict_do_lookup` that finds the new size of the table. -/
def newSizeLoop (num : Nat) : (fuel newsize : Nat) → Nat
  | 0, newsize => newsize
  | fuel + 1, newsize =>
      if num * 3 ≥ newsize * 2 then
        newSizeLoop num fuel (if newsize < 15 then 15 else (newsize + 1) * 2 - 1)
      else newsize

/-- The new size of a table with `num` entries. Every turn of the loop makes the size grow. -/
def newSize (num newsize : Nat) : Nat := newSizeLoop num (num * 2 + 1) newsize

/-- The first entry of a chain that matches, and the chain without it. -/
def takeMatch (equals : κ → Bool) : List (Entry κ δ) → Option (Entry κ δ × List (Entry κ δ))
  | [] => none
  | e :: next =>
      if equals e.key then some (e, next)
      else (takeMatch equals next).map fun (found, rest) => (found, e :: rest)

/-- The second half of `dict_do_lookup`: the entries after the first one of a chain are checked,
and a match is moved to the front. -/
def searchChain (h : Dict κ δ) (hash : Nat) (key : κ) (first : Entry κ δ)
    (next : List (Entry κ δ)) : Dict κ δ × Option (Entry κ δ) :=
  match takeMatch (h.keyType.equals · key) next with
  | none => (h, none)
  | some (e, rest) => ({ h with slots := h.slots.set hash (e :: first :: rest) }, some e)

/-- `dict_do_lookup`. -/
def dictDoLookup (h : Dict κ δ) (key : κ) : Dict κ δ × Option (Entry κ δ) :=
  if h.num = 0 then (h, none)
  else
    let ohash := h.keyType.hash key
    let hash := slotIndex ohash h.hashsize
    match chain h.slots hash with
    | [] => (h, none)
    | first :: next =>
        if h.keyType.equals first.key key then (h, some first)
        else if next ≠ [] ∧ h.num * 3 ≥ h.hashsize * 2 then
          let h := dictExpand h (newSize h.num h.hashsize)
          let hash := slotIndex ohash h.hashsize
          match chain h.slots hash with
          | [] => (h, none)
          | first :: next =>
              if h.keyType.equals first.key key then (h, some first)
              else searchChain h hash key first next
        else searchChain h hash key first next

/-- `dict_lookup`. -/
def dictLookup (h : Dict κ δ) (key : κ) : Dict κ δ × Option δ :=
  let (h, e) := dictDoLookup h key
  (h, e.map Entry.data)

/-- `dict_contains`. -/
def dictContains (h : Dict κ δ) (key : κ) : Dict κ δ × Bool :=
  let (h, e) := dictDoLookup h key
  (h, e.isSome)

/-! ### Well-formed tables -/

namespace Dict

def entries (h : Dict κ δ) : List (Entry κ δ) := h.slots.flatten

/-- Every entry carries its key's hash and is in the slot of that hash, and the entries are
counted. -/
structure Sound (h : Dict κ δ) : Prop where
  hash_eq : ∀ e ∈ h.entries, e.hash = h.keyType.hash e.key
  slot : ∀ index, ∀ e ∈ chain h.slots index, slotIndex e.hash h.hashsize = index
  num_eq : h.num = h.entries.length

end Dict

end CageKeeper
