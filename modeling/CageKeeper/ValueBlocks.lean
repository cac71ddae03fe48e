import CageKeeper.ArrayBlocks
import CageKeeper.BlockHeap

/-! Values as they are in memory: the blocks that the constructors of `function.c` allocate, and what
`array_append` and `value_destroy` do with them. -/

namespace CageKeeper
open ByteStream BlockHeap

/-! ### Blocks -/

/-- A value that is in its `value_t`. -/
inductive Scalar where
  | void
  | float32 (f32 : BitVec 32)
  | int32 (i32 : BitVec 32)
  | boolean (b : Bool)

namespace Scalar

def value : Scalar → Value
  | .void => .void
  | .float32 f32 => .float32 f32
  | .int32 i32 => .int32 i32
  | .boolean b => .boolean b

end Scalar

/-- A `value_t`: its type and the fields that the type says are in use. -/
inductive ValueHeader where
  | scalar (s : Scalar)
  | string (str : Addr)
  | array (internal : Addr) (length : Nat) (data : Option Addr)

inductive Block where
  | value (v : ValueHeader)
  /-- A buffer of characters, and the string in it if one has been stored. -/
  | text (str : Option CString)
  /-- An `array_internal_t`. -/
  | internal (size : Nat)
  /-- What `data` of an array points to; `none` is `NULL` or nothing yet. -/
  | slots (pointers : List (Option Addr))
  /-- The `value_t` of a function in the sandbox. -/
  | function (internal : Addr) (numParams : UInt8)
  /-- A `proxy_function_t`. -/
  | proxyFunction (name : Option Addr)

abbrev ValueM := HeapM Block

def loadValue (v : Addr) : ValueM ValueHeader := do
  match ← HeapM.load v with
  | .value header => pure header
  | _ => HeapM.require none

def loadText (s : Addr) : ValueM CString := do
  match ← HeapM.load s with
  | .text str => HeapM.require str
  | _ => HeapM.require none

def loadSize (internal : Addr) : ValueM Nat := do
  match ← HeapM.load internal with
  | .internal size => pure size
  | _ => HeapM.require none

def loadSlots (data : Addr) : ValueM (List (Option Addr)) := do
  match ← HeapM.load data with
  | .slots pointers => pure pointers
  | _ => HeapM.require none

/-! ### Constructors -/

/-- `value_new_void`, `value_new_float32`, `value_new_int32` and `value_new_boolean`. -/
def valueNewScalar (s : Scalar) : ValueM Addr := HeapM.alloc (.value (.scalar s))

/-- `value_new_string`. -/
def valueNewString (s : Addr) : ValueM Addr := do
  let v ← HeapM.alloc (.value (.scalar .void))
  -- strdup
  let str ← loadText s
  let copy ← HeapM.alloc (.text (some str))
  HeapM.store v (.value (.string copy))
  pure v

/-- `value_new_array`, which `array_new` calls. -/
def valueNewArray : ValueM Addr := do
  let v ← HeapM.alloc (.value (.scalar .void))
  let internal ← HeapM.alloc (.internal 0)
  HeapM.store v (.value (.array internal 0 none))
  pure v

/-! ### `array_append` -/

/-- `malloc`, or `realloc` where there is a block already; `realloc` may move the block, and here it
always does. -/
def reallocSlots (size : Nat) : Option Addr → ValueM Addr
  | none => HeapM.alloc (.slots (List.replicate size none))
  | some data => do
      let pointers ← loadSlots data
      HeapM.free data
      HeapM.alloc (.slots (pointers.take size ++ List.replicate (size - pointers.length) none))

/-- The first half of `array_append`: there is a slot for another element. -/
def makeRoom (array internal : Addr) (length : Nat) (data : Option Addr) : ValueM Addr := do
  let size ← loadSize internal
  if size ≤ length then do
    let size ← HeapM.require (ArrayBlock.grow size)
    HeapM.store internal (.internal size)
    let data ← reallocSlots size data
    HeapM.store array (.value (.array internal length (some data)))
    pure data
  else HeapM.require data

/-- `array_append`. -/
def arrayAppend (array : Addr) (value : Option Addr) : ValueM Unit := do
  match ← loadValue array with
  | .array internal length data => do
      let data ← makeRoom array internal length data
      let pointers ← loadSlots data
      -- array->data[array->length++] = value
      if length < pointers.length then do
        HeapM.store data (.slots (pointers.set length value))
        HeapM.store array (.value (.array internal (length + 1) (some data)))
      else HeapM.require none
  | _ => HeapM.require none

/-! ### `value_destroy` -/

/-- The loop of `value_destroy_array`. -/
def destroyEntries (destroy : Addr → ValueM Unit) (data : Option Addr) :
    (remaining i : Nat) → ValueM Unit
  | 0, _ => pure ()
  | remaining + 1, i => do
      let block ← HeapM.require data
      let pointers ← loadSlots block
      let entry ← HeapM.require pointers[i]?.join
      destroy entry
      let pointers ← loadSlots block
      HeapM.store block (.slots (pointers.set i none))
      destroyEntries destroy data remaining (i + 1)

/-- `value_destroy`, with the destructors of the types and the stack frames that it may use. -/
def valueDestroyFrames : (frames : Nat) → Addr → ValueM Unit
  | 0, _ => HeapM.require none
  | frames + 1, v => do
      match ← loadValue v with
      | .scalar _ => HeapM.free v
      | .string str => do
          HeapM.free str
          HeapM.free v
      | .array internal length data => do
          destroyEntries (valueDestroyFrames frames) data length 0
          HeapM.freePtr data
          HeapM.free internal
          HeapM.free v

/-- `value_destroy`, with more stack frames than there can be blocks. -/
def valueDestroy (v : Addr) : ValueM Unit := fun h => valueDestroyFrames (h.fresh + 1) v h

/-! ### `write_value` -/

/-- The loop of `write_value` over the elements of an array. -/
def writeSlots (write : Addr → ValueM Bytes) (data : Option Addr) : (remaining i : Nat) → ValueM Bytes
  | 0, _ => pure []
  | remaining + 1, i => do
      let block ← HeapM.require data
      let pointers ← loadSlots block
      let entry ← HeapM.require pointers[i]?.join
      let first ← write entry
      let others ← writeSlots write data remaining (i + 1)
      pure (first ++ others)

/-- The bytes that `write_value` writes, with the stack frames that it may use. -/
def writeValueFrames : (frames : Nat) → Addr → ValueM Bytes
  | 0, _ => HeapM.require none
  | frames + 1, v => do
      match ← loadValue v with
      | .scalar s => pure (writeValue s.value)
      | .string str => do
          let content ← loadText str
          pure (writeValue (.string content))
      | .array _ length data => do
          let entries ← writeSlots (writeValueFrames frames) data length 0
          pure (writeByte ValueType.array.code ++ wordBytes (BitVec.ofNat 32 length) ++ entries)

/-- `write_value`, with more stack frames than there can be blocks. -/
def writeValueHeap (v : Addr) : ValueM Bytes := fun h => writeValueFrames (h.fresh + 1) v h

/-! ### Trees of blocks -/

inductive HeapValue where
  | scalar (a : Addr) (s : Scalar)
  | string (a str : Addr) (content : CString)
  | emptyArray (a internal : Addr)
  | array (a internal data : Addr) (size : Nat) (entries : List HeapValue)

namespace HeapValue

@[elab_as_elim] theorem induction {motive : HeapValue → Prop}
    (scalar : ∀ a s, motive (.scalar a s))
    (string : ∀ a str content, motive (.string a str content))
    (emptyArray : ∀ a internal, motive (.emptyArray a internal))
    (array : ∀ a internal data size entries, (∀ entry ∈ entries, motive entry) →
      motive (.array a internal data size entries)) (tree : HeapValue) : motive tree := by
  refine @HeapValue.rec motive (fun entries => ∀ entry ∈ entries, motive entry)
    scalar string emptyArray array ?_ ?_ tree
  · exact List.forall_mem_nil _
  · intro head tail hhead htail
    exact List.forall_mem_cons.mpr ⟨hhead, htail⟩

def root : HeapValue → Addr
  | .scalar a _ => a
  | .string a _ _ => a
  | .emptyArray a _ => a
  | .array a _ _ _ _ => a

mutual

def value : HeapValue → Value
  | .scalar _ s => s.value
  | .string _ _ content => .string content
  | .emptyArray _ _ => .array []
  | .array _ _ _ _ entries => .array (values entries)

def values : List HeapValue → List Value
  | [] => []
  | entry :: entries => value entry :: values entries

end

/-- The block of pointers of an array, some of them in use. -/
def slotsOf (size : Nat) (entries : List HeapValue) : List (Option Addr) :=
  entries.map (some ∘ root) ++ List.replicate (size - entries.length) none

mutual

def blocks : HeapValue → List (Addr × Block)
  | .scalar a s => [(a, .value (.scalar s))]
  | .string a str content => [(a, .value (.string str)), (str, .text (some content))]
  | .emptyArray a internal => [(a, .value (.array internal 0 none)), (internal, .internal 0)]
  | .array a internal data size entries =>
      (a, .value (.array internal entries.length (some data))) :: (internal, .internal size) ::
        (data, .slots (slotsOf size entries)) :: blocksOf entries

def blocksOf : List HeapValue → List (Addr × Block)
  | [] => []
  | entry :: entries => blocks entry ++ blocksOf entries

end

mutual

/-- The stack frames that `value_destroy` needs. -/
def frames : HeapValue → Nat
  | .array _ _ _ _ entries => framesOf entries + 1
  | _ => 1

def framesOf : List HeapValue → Nat
  | [] => 0
  | entry :: entries => max (frames entry) (framesOf entries)

end

theorem values_eq_map (entries : List HeapValue) : values entries = entries.map value := by
  induction entries with
  | nil => rfl
  | cons entry entries ih => rw [values, ih, List.map_cons]

theorem blocksOf_append (entries others : List HeapValue) :
    blocksOf (entries ++ others) = blocksOf entries ++ blocksOf others := by
  induction entries with
  | nil => rfl
  | cons entry entries ih => rw [List.cons_append, blocksOf, ih, blocksOf, List.append_assoc]

theorem framesOf_le {entries : List HeapValue} {bound : Nat} :
    framesOf entries ≤ bound ↔ ∀ entry ∈ entries, entry.frames ≤ bound := by
  induction entries with
  | nil => simp [framesOf]
  | cons entry entries ih => simp only [framesOf, Nat.max_le, ih, List.forall_mem_cons]

theorem frames_ne_zero {tree : HeapValue} {bound : Nat} (h : tree.frames ≤ bound) : bound ≠ 0 := by
  rintro rfl
  cases tree <;> exact absurd h (by simp [frames])

theorem frames_le_length (tree : HeapValue) : tree.frames ≤ tree.blocks.length := by
  induction tree using induction with
  | scalar => exact Nat.le_refl 1
  | string => exact Nat.le_succ 1
  | emptyArray => exact Nat.le_succ 1
  | array a internal data size entries ih =>
      have hentries : framesOf entries ≤ (blocksOf entries).length := by
        refine framesOf_le.mpr fun entry hmem => Nat.le_trans (ih entry hmem) ?_
        obtain ⟨before, after, rfl⟩ := List.append_of_mem hmem
        rw [blocksOf_append, blocksOf, List.length_append, List.length_append]
        omega
      simp only [frames, blocks, List.length_cons]
      omega

theorem slotsOf_length {size : Nat} {entries : List HeapValue} (hfits : entries.length ≤ size) :
    (slotsOf size entries).length = size := by
  rw [slotsOf, List.length_append, List.length_map, List.length_replicate]
  omega

theorem slotsOf_set {size : Nat} {entries : List HeapValue} (hroom : entries.length < size)
    (entry : HeapValue) :
    (slotsOf size entries).set entries.length (some entry.root) =
      slotsOf size (entries ++ [entry]) := by
  have hspare : size - entries.length = size - (entries.length + 1) + 1 := by omega
  have hset := List.set_append_right (s := entries.map (some ∘ root))
    (t := List.replicate (size - entries.length) none) entries.length (some entry.root)
    (by rw [List.length_map])
  rw [slotsOf, hset, List.length_map, Nat.sub_self, hspare, List.replicate_succ, List.set_cons_zero,
    slotsOf, List.map_append, List.length_append, List.length_singleton, List.append_assoc]
  rfl

theorem slotsOf_realloc {size size' : Nat} {entries : List HeapValue}
    (hfits : entries.length ≤ size) (hgrows : size ≤ size') :
    (slotsOf size entries).take size' ++
        List.replicate (size' - (slotsOf size entries).length) none = slotsOf size' entries := by
  rw [slotsOf_length hfits, List.take_of_length_le (by rw [slotsOf_length hfits]; exact hgrows),
    slotsOf, List.append_assoc, List.replicate_append_replicate, slotsOf]
  congr 2
  omega

/-- An array that the constructors have made. -/
inductive IsArray : HeapValue → List HeapValue → Prop where
  | empty (a internal : Addr) : IsArray (.emptyArray a internal) []
  | filled (a internal data : Addr) {size : Nat} {entries : List HeapValue} (hne : entries ≠ [])
      (hcapacity : IsCapacity entries.length size) :
      IsArray (.array a internal data size entries) entries

theorem IsArray.value_eq {tree : HeapValue} {entries : List HeapValue} (h : tree.IsArray entries) :
    tree.value = .array (entries.map HeapValue.value) := by
  cases h with
  | empty => rw [value, List.map_nil]
  | filled => rw [value, values_eq_map]

end HeapValue

/-! ### What the constructors add -/

section Adds

variable {h h' : Heap Block} {blocks before after : List (Addr × Block)} {a : Addr}

theorem loadValue_of_block {header : ValueHeader} (hblock : h.block a = some (.value header)) :
    loadValue a h = some (header, h) :=
  HeapM.bind_eq (HeapM.load_eq hblock)

theorem loadText_of_block {str : CString} (hblock : h.block a = some (.text (some str))) :
    loadText a h = some (str, h) :=
  HeapM.bind_eq (HeapM.load_eq hblock)

theorem loadSlots_of_block {pointers : List (Option Addr)}
    (hblock : h.block a = some (.slots pointers)) : loadSlots a h = some (pointers, h) :=
  HeapM.bind_eq (HeapM.load_eq hblock)

theorem loadValue_eq (before : List (Addr × Block)) {header : ValueHeader}
    (hadds : Adds h h' (before ++ (a, .value header) :: after)) :
    loadValue a h' = some (header, h') :=
  HeapM.bind_eq (hadds.load before)

theorem loadText_eq (before : List (Addr × Block)) {str : CString}
    (hadds : Adds h h' (before ++ (a, .text (some str)) :: after)) :
    loadText a h' = some (str, h') :=
  HeapM.bind_eq (hadds.load before)

theorem loadSize_eq (before : List (Addr × Block)) {size : Nat}
    (hadds : Adds h h' (before ++ (a, .internal size) :: after)) :
    loadSize a h' = some (size, h') :=
  HeapM.bind_eq (hadds.load before)

theorem loadSlots_eq (before : List (Addr × Block)) {pointers : List (Option Addr)}
    (hadds : Adds h h' (before ++ (a, .slots pointers) :: after)) :
    loadSlots a h' = some (pointers, h') :=
  HeapM.bind_eq (hadds.load before)

theorem valueNewScalar_adds (hadds : Adds h h' blocks) (s : Scalar) :
    ∃ a h'', valueNewScalar s h' = some (a, h'') ∧
      Adds h h'' ((HeapValue.scalar a s).blocks ++ blocks) :=
  hadds.alloc _

theorem valueNewString_adds {content : CString}
    (hadds : Adds h h' (before ++ (a, .text (some content)) :: after)) :
    ∃ v str h'', valueNewString a h' = some (v, h'') ∧ Adds h h''
      ((HeapValue.string v str content).blocks ++ (before ++ (a, .text (some content)) :: after)) := by
  obtain ⟨v, h₁, halloc, hadds₁⟩ := hadds.alloc (.value (.scalar .void))
  have hload := loadText_eq ((v, .value (.scalar .void)) :: before) hadds₁
  obtain ⟨copy, h₂, hcopy, hadds₂⟩ := hadds₁.alloc (.text (some content))
  obtain ⟨h₃, hstore, hadds₃⟩ := hadds₂.store [(copy, Block.text (some content))]
    (Block.value (.string copy))
  refine ⟨v, copy, h₃, ?_, hadds₃.perm (List.Perm.swap ..)⟩
  rw [valueNewString, HeapM.bind_eq halloc, HeapM.bind_eq hload, HeapM.bind_eq hcopy,
    HeapM.bind_eq hstore, HeapM.pure_apply]

theorem valueNewArray_adds (hadds : Adds h h' blocks) :
    ∃ v internal h'', valueNewArray h' = some (v, h'') ∧
      Adds h h'' ((HeapValue.emptyArray v internal).blocks ++ blocks) := by
  obtain ⟨v, h₁, halloc, hadds₁⟩ := hadds.alloc (.value (.scalar .void))
  obtain ⟨internal, h₂, hinternal, hadds₂⟩ := hadds₁.alloc (.internal 0)
  obtain ⟨h₃, hstore, hadds₃⟩ :=
    hadds₂.store [(internal, Block.internal 0)] (Block.value (.array internal 0 none))
  refine ⟨v, internal, h₃, ?_, hadds₃.perm (List.Perm.swap ..)⟩
  rw [valueNewArray, HeapM.bind_eq halloc, HeapM.bind_eq hinternal, HeapM.bind_eq hstore,
    HeapM.pure_apply]

theorem makeRoom_full {array internal : Addr} {length size : Nat} {data : Option Addr}
    {h₁ h₂ h₃ : Heap Block} {data' : Addr} (hfull : size ≤ length)
    (hsize : loadSize internal h' = some (size, h')) (hgrow : growSize size < 2 ^ 31)
    (hinternal : HeapM.store internal (.internal (growSize size)) h' = some ((), h₁))
    (hdata : reallocSlots (growSize size) data h₁ = some (data', h₂))
    (hheader : HeapM.store array (.value (.array internal length (some data'))) h₂ =
      some ((), h₃)) : makeRoom array internal length data h' = some (data', h₃) := by
  have hgrown : (HeapM.require (ArrayBlock.grow size) : ValueM Nat) h' =
      some (growSize size, h') := by
    rw [ArrayBlock.grow_eq hgrow, HeapM.require_some]
  rw [makeRoom, HeapM.bind_eq hsize, if_pos hfull, HeapM.bind_eq hgrown, HeapM.bind_eq hinternal,
    HeapM.bind_eq hdata, HeapM.bind_eq hheader, HeapM.pure_apply]

theorem makeRoom_adds {tree : HeapValue} {entries : List HeapValue} (harray : tree.IsArray entries)
    (hlength : entries.length + 1 < 2 ^ 30) (hadds : Adds h h' (tree.blocks ++ blocks)) :
    ∃ internal data data' size h'', loadValue tree.root h' =
        some (.array internal entries.length data, h') ∧
      makeRoom tree.root internal entries.length data h' = some (data', h'') ∧
      entries.length < size ∧ IsCapacity (entries.length + 1) size ∧
      Adds h h'' ((HeapValue.array tree.root internal data' size entries).blocks ++ blocks) := by
  cases harray with
  | empty a internal =>
      have hcapacity : IsCapacity 1 (growSize 0) := IsCapacity.zero.succ_of_le (Nat.le_refl 0)
      have hsize := loadSize_eq [(a, Block.value (.array internal 0 none))] hadds
      obtain ⟨h₁, hinternal, hadds₁⟩ := hadds.store [(a, Block.value (.array internal 0 none))]
        (Block.internal (growSize 0))
      obtain ⟨data, h₂, hdata, hadds₂⟩ :=
        hadds₁.alloc (Block.slots (List.replicate (growSize 0) none))
      obtain ⟨h₃, hheader, hadds₃⟩ := hadds₂.store [(data, Block.slots (List.replicate _ none))]
        (Block.value (.array internal 0 (some data)))
      refine ⟨internal, none, data, growSize 0, h₃, loadValue_eq [] hadds,
        makeRoom_full (Nat.le_refl 0) hsize (by decide) hinternal hdata hheader, by decide,
        hcapacity, hadds₃.perm ?_⟩
      exact (List.Perm.swap ..).trans ((List.Perm.swap ..).cons _)
  | @filled a internal data size entries hne hcapacity =>
      have hsize := loadSize_eq [(a, Block.value (.array internal entries.length (some data)))] hadds
      by_cases hfull : size ≤ entries.length
      · have hnext := hcapacity.succ_of_le hfull
        have hfits : entries.length ≤ size := (hcapacity.least (List.length_pos_iff.mpr hne).ne').1.2
        have hroom : entries.length < growSize size :=
          (hnext.least (Nat.succ_ne_zero _)).1.2
        obtain ⟨h₁, hinternal, hadds₁⟩ := hadds.store
          [(a, Block.value (.array internal entries.length (some data)))]
          (Block.internal (growSize size))
        have hslots := loadSlots_eq [(a, Block.value (.array internal entries.length (some data))),
          (internal, Block.internal (growSize size))] hadds₁
        obtain ⟨h₂, hfree, hadds₂⟩ := hadds₁.free
          [(a, Block.value (.array internal entries.length (some data))),
            (internal, Block.internal (growSize size))]
        obtain ⟨data', h₃, halloc, hadds₃⟩ :=
          hadds₂.alloc (Block.slots (HeapValue.slotsOf (growSize size) entries))
        obtain ⟨h₄, hheader, hadds₄⟩ := hadds₃.store
          [(data', Block.slots (HeapValue.slotsOf (growSize size) entries))]
          (Block.value (.array internal entries.length (some data')))
        have hdata : reallocSlots (growSize size) (some data) h₁ = some (data', h₃) := by
          rw [reallocSlots, HeapM.bind_eq hslots, HeapM.bind_eq hfree,
            HeapValue.slotsOf_realloc hfits (Nat.le_of_lt (lt_growSize size)), halloc]
        refine ⟨internal, some data, data', growSize size, h₄, loadValue_eq [] hadds,
          makeRoom_full hfull hsize (Nat.lt_trans (hnext.lt hlength) (by decide)) hinternal hdata
            hheader, hroom, hnext, hadds₄.perm ?_⟩
        exact (List.Perm.swap ..).trans ((List.Perm.swap ..).cons _)
      · have hroom := Nat.lt_of_not_le hfull
        refine ⟨internal, some data, data, size, h', loadValue_eq [] hadds, ?_, hroom,
          hcapacity.succ_of_lt hroom, hadds⟩
        rw [makeRoom, HeapM.bind_eq hsize, if_neg hfull, HeapM.require_some]

theorem arrayAppend_adds {tree entry : HeapValue} {entries : List HeapValue}
    (harray : tree.IsArray entries) (hlength : entries.length + 1 < 2 ^ 30)
    (hadds : Adds h h' (tree.blocks ++ (entry.blocks ++ blocks))) :
    ∃ (tree' : HeapValue) (h'' : Heap Block),
      arrayAppend tree.root (some entry.root) h' = some ((), h'') ∧
      tree'.IsArray (entries ++ [entry]) ∧ tree'.root = tree.root ∧
      Adds h h'' (tree'.blocks ++ blocks) := by
  obtain ⟨internal, data, data', size, h₁, hload, hmake, hroom, hcapacity, hadds₁⟩ :=
    makeRoom_adds harray hlength hadds
  have hslots := loadSlots_eq
    [(tree.root, Block.value (.array internal entries.length (some data'))),
      (internal, Block.internal size)] hadds₁
  obtain ⟨h₂, hstore, hadds₂⟩ := hadds₁.store
    [(tree.root, Block.value (.array internal entries.length (some data'))),
      (internal, Block.internal size)] (Block.slots (HeapValue.slotsOf size (entries ++ [entry])))
  obtain ⟨h₃, hheader, hadds₃⟩ := hadds₂.store []
    (Block.value (.array internal (entries.length + 1) (some data')))
  refine ⟨.array tree.root internal data' size (entries ++ [entry]), h₃, ?_,
    .filled _ _ _ (by simp) (by rwa [List.length_append, List.length_singleton]), rfl, ?_⟩
  · have hlt : entries.length < (HeapValue.slotsOf size entries).length := by
      rwa [HeapValue.slotsOf_length (Nat.le_of_lt hroom)]
    rw [arrayAppend, HeapM.bind_eq hload]
    simp only
    rw [HeapM.bind_eq hmake, HeapM.bind_eq hslots, if_pos hlt, HeapValue.slotsOf_set hroom,
      HeapM.bind_eq hstore, hheader]
  · simpa [HeapValue.blocks, HeapValue.blocksOf_append, HeapValue.blocksOf] using hadds₃

/-- The loop of `value_destroy_array` frees the elements. The slots before the next one are `NULL`
already. -/
theorem destroyEntries_adds {destroy : Addr → ValueM Unit} {data : Addr}
    {entries : List HeapValue} (done : List (Option Addr)) {spare : List (Option Addr)}
    (hentries : ∀ entry ∈ entries, ∀ {h' : Heap Block} {blocks : List (Addr × Block)},
      Adds h h' (entry.blocks ++ blocks) →
        ∃ h'', destroy entry.root h' = some ((), h'') ∧ Adds h h'' blocks)
    (hadds : Adds h h' ((data, .slots (done ++ entries.map (some ∘ HeapValue.root) ++ spare)) ::
      (HeapValue.blocksOf entries ++ blocks))) :
    ∃ pointers h'', destroyEntries destroy (some data) entries.length done.length h' =
      some ((), h'') ∧ Adds h h'' ((data, .slots pointers) :: blocks) := by
  induction entries generalizing h' done with
  | nil => exact ⟨_, h', rfl, hadds⟩
  | cons entry entries ih =>
      have hslots := loadSlots_eq [] hadds
      have hentry : (done ++ (entry :: entries).map (some ∘ HeapValue.root) ++ spare)[done.length]?
          = some (some entry.root) := by
        rw [List.append_assoc, List.getElem?_append_right (Nat.le_refl _), Nat.sub_self]
        rfl
      have hfront : Adds h h' (entry.blocks ++ ((data, Block.slots (done ++
          (entry :: entries).map (some ∘ HeapValue.root) ++ spare)) ::
            (HeapValue.blocksOf entries ++ blocks))) := by
        refine hadds.perm ?_
        rw [HeapValue.blocksOf, List.append_assoc (HeapValue.blocks entry)]
        exact List.perm_middle.symm
      obtain ⟨h₁, hdestroy, hadds₁⟩ := hentries entry (List.mem_cons_self ..) hfront
      have hslots₁ := loadSlots_eq [] hadds₁
      obtain ⟨h₂, hstore, hadds₂⟩ := hadds₁.store [] (Block.slots
        ((done ++ [none]) ++ entries.map (some ∘ HeapValue.root) ++ spare))
      obtain ⟨pointers, h₃, hloop, hadds₃⟩ :=
        ih (done ++ [none]) (fun entry hmem => hentries entry (List.mem_cons_of_mem _ hmem)) hadds₂
      have hset : (done ++ (entry :: entries).map (some ∘ HeapValue.root) ++ spare).set done.length
          none = (done ++ [none]) ++ entries.map (some ∘ HeapValue.root) ++ spare := by
        rw [List.append_assoc, List.set_append_right _ _ (Nat.le_refl _), Nat.sub_self]
        simp
      have hrequire : (HeapM.require (done ++ (entry :: entries).map (some ∘ HeapValue.root) ++
          spare)[done.length]?.join : ValueM Addr) h' = some (entry.root, h') := by
        rw [hentry]
        rfl
      refine ⟨pointers, h₃, ?_, hadds₃⟩
      rw [List.length_cons, destroyEntries, HeapM.bind_eq (HeapM.require_some data h'),
        HeapM.bind_eq hslots, HeapM.bind_eq hrequire, HeapM.bind_eq hdestroy,
        HeapM.bind_eq hslots₁, hset, HeapM.bind_eq hstore]
      rwa [List.length_append, List.length_singleton] at hloop

/-- With frames enough `value_destroy` frees exactly the blocks of the value. -/
theorem valueDestroyFrames_adds (tree : HeapValue) {frames : Nat} (hframes : tree.frames ≤ frames)
    (hadds : Adds h h' (tree.blocks ++ blocks)) :
    ∃ h'', valueDestroyFrames frames tree.root h' = some ((), h'') ∧ Adds h h'' blocks := by
  induction tree using HeapValue.induction generalizing frames h' blocks with
  | scalar a s =>
      obtain ⟨frames, rfl⟩ := Nat.exists_eq_succ_of_ne_zero (HeapValue.frames_ne_zero hframes)
      obtain ⟨h₁, hfree, hadds₁⟩ := hadds.free []
      refine ⟨h₁, ?_, hadds₁⟩
      exact (HeapM.bind_eq (loadValue_eq [] hadds)).trans hfree
  | string a str content =>
      obtain ⟨frames, rfl⟩ := Nat.exists_eq_succ_of_ne_zero (HeapValue.frames_ne_zero hframes)
      obtain ⟨h₁, hfree, hadds₁⟩ := hadds.free [(a, Block.value (.string str))]
      obtain ⟨h₂, hfree₂, hadds₂⟩ := hadds₁.free []
      refine ⟨h₂, ?_, hadds₂⟩
      exact (HeapM.bind_eq (loadValue_eq [] hadds)).trans ((HeapM.bind_eq hfree).trans hfree₂)
  | emptyArray a internal =>
      obtain ⟨frames, rfl⟩ := Nat.exists_eq_succ_of_ne_zero (HeapValue.frames_ne_zero hframes)
      have hloop : destroyEntries (valueDestroyFrames frames) none 0 0 h' = some ((), h') := rfl
      have hdata : (HeapM.freePtr none : ValueM Unit) h' = some ((), h') := rfl
      obtain ⟨h₁, hinternal, hadds₁⟩ := hadds.free [(a, Block.value (.array internal 0 none))]
      obtain ⟨h₂, hroot, hadds₂⟩ := hadds₁.free []
      refine ⟨h₂, ?_, hadds₂⟩
      exact (HeapM.bind_eq (loadValue_eq [] hadds)).trans ((HeapM.bind_eq hloop).trans
        ((HeapM.bind_eq hdata).trans ((HeapM.bind_eq hinternal).trans hroot)))
  | array a internal data size entries ih =>
      obtain ⟨frames, rfl⟩ := Nat.exists_eq_succ_of_ne_zero (HeapValue.frames_ne_zero hframes)
      have hbelow := HeapValue.framesOf_le.mp (Nat.le_of_succ_le_succ hframes)
      have hfront : Adds h h' ((data, .slots (HeapValue.slotsOf size entries)) ::
          (HeapValue.blocksOf entries ++ ((a, .value (.array internal entries.length (some data))) ::
            (internal, .internal size) :: blocks))) := by
        refine hadds.perm (.trans ?_ ((List.perm_append_comm_assoc [_, _] _ _).cons _))
        exact @List.perm_middle _ _ [(a, Block.value _), (internal, _)] _
      obtain ⟨pointers, h₁, hloop, hadds₁⟩ := destroyEntries_adds []
        (fun entry hmem {_ _} => ih entry hmem (hbelow entry hmem)) hfront
      obtain ⟨h₂, hdata, hadds₂⟩ := hadds₁.free []
      obtain ⟨h₃, hinternal, hadds₃⟩ :=
        hadds₂.free [(a, Block.value (.array internal entries.length (some data)))]
      obtain ⟨h₄, hroot, hadds₄⟩ := hadds₃.free []
      refine ⟨h₄, ?_, hadds₄⟩
      exact (HeapM.bind_eq (loadValue_eq [] hadds)).trans ((HeapM.bind_eq hloop).trans
        ((HeapM.bind_eq hdata).trans ((HeapM.bind_eq hinternal).trans hroot)))

theorem frames_le_fresh {tree : HeapValue} (hadds : Adds h h' (tree.blocks ++ blocks)) :
    tree.frames ≤ h'.fresh := by
  have hlength := hadds.length_le_fresh
  rw [List.length_append] at hlength
  exact Nat.le_trans tree.frames_le_length (Nat.le_trans (Nat.le_add_right ..) hlength)

/-- **`value_destroy`.** It frees exactly the blocks of the value. -/
theorem valueDestroy_adds {tree : HeapValue} (hadds : Adds h h' (tree.blocks ++ blocks)) :
    ∃ h'', valueDestroy tree.root h' = some ((), h'') ∧ Adds h h'' blocks :=
  valueDestroyFrames_adds tree (Nat.le_succ_of_le (frames_le_fresh hadds)) hadds

end Adds

end CageKeeper
