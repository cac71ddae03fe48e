import CageKeeper.StatefulReader
import CageKeeper.ValueBlocks
import CageKeeper.WireGrammar

/-! `read_string` and `_read_value` with the memory they use. They read what the readers of the
protocol read. A value that has been read consists of new blocks and nothing else is left of the run;
a run that fails frees all it has allocated, but for the buffer of a string of which the end does not
arrive. -/

namespace CageKeeper
open ByteStream BlockHeap

section Reading

variable {χ : Type} [Channel χ]

/-- `read_string`. The buffer it returns is the caller's to free. -/
def readStringHeap (maxSize : Int) : Stateful (Heap Block) χ Addr := do
  let word ← Stateful.lift readWord
  let l := word.toInt
  if l < 0 ∨ (maxSize ≠ 0 ∧ l ≥ maxSize) then
    Stateful.reject
  else if wrap (l + 1) < 0 then
    -- malloc(l+1) of a negative size returns NULL
    Stateful.reject
  else do
    let s ← Stateful.act (HeapM.alloc (.text none))
    let block ← Stateful.lift (Channel.read l.toNat)
    Stateful.act (HeapM.store s (.text (some (CString.ofBytes block))))
    pure s

/-- The loop of `_read_value` over the elements of an array. -/
def readEntriesHeap (readEntry : Int → Stateful (Heap Block) χ (Addr × Int)) (array : Addr) :
    Nat → Int → Stateful (Heap Block) χ Int
  | 0, count => pure count
  | remaining + 1, count => do
      match ← (readEntry count).attempt with
      | none => do
          Stateful.act (valueDestroy array)
          Stateful.reject
      | some (entry, count) => do
          Stateful.act (arrayAppend array (some entry))
          readEntriesHeap readEntry array remaining count

/-- `_read_value`, with the stack frames its recursion may use. -/
def readValueCountedHeap (maxStringSize maxArraySize : Int) :
    (frames : Nat) → (count : Int) → Stateful (Heap Block) χ (Addr × Int)
  | 0, _ => Stateful.exhausted
  | frames + 1, count => do
      let b ← Stateful.lift readByte
      match ValueType.ofCode b with
      | some .void => do
          let v ← Stateful.act (valueNewScalar .void)
          pure (v, count)
      | some .float32 => do
          let f32 ← Stateful.lift readWord
          let v ← Stateful.act (valueNewScalar (.float32 f32))
          pure (v, count)
      | some .int32 => do
          let i32 ← Stateful.lift readWord
          let v ← Stateful.act (valueNewScalar (.int32 i32))
          pure (v, count)
      | some .boolean => do
          let b ← Stateful.lift readByte
          let v ← Stateful.act (valueNewScalar (.boolean (b ≠ 0)))
          pure (v, count)
      | some .string => do
          let s ← readStringHeap maxStringSize
          let v ← Stateful.act (valueNewString s)
          Stateful.act (HeapM.free s)
          pure (v, count)
      | some .array => do
          let word ← Stateful.lift readWord
          let length := word.toInt
          if maxArraySize ≠ 0 ∧ length ≥ maxArraySize then
            Stateful.reject
          else if length ≥ wrap (intMax - count) then
            Stateful.reject
          else if maxArraySize ≠ 0 ∧ wrap (length + count) ≥ maxArraySize then
            Stateful.reject
          else do
            let array ← Stateful.act valueNewArray
            let count ←
              readEntriesHeap (readValueCountedHeap maxStringSize maxArraySize frames) array
                length.toNat count
            pure (array, wrap (count + length))
      | _ => Stateful.reject

/-- `read_value`. -/
def readValueHeap : Stateful (Heap Block) χ Addr := do
  let (v, _) ← Stateful.withFrames fun frames =>
    readValueCountedHeap maxStringSize maxArraySize frames 0
  pure v

/-- What a run that has failed leaves behind: at most the buffer of a string. -/
def LeftOver (h : Heap Block) (blocks : List (Addr × Block)) (h' : Heap Block) : Prop :=
  ∃ leaked : List (Addr × Block), leaked.length ≤ 1 ∧ (∀ x ∈ leaked, x.2 = .text none) ∧
    Adds h h' (leaked ++ blocks)

variable {h h' : Heap Block} {blocks : List (Addr × Block)}

theorem LeftOver.of_adds (hadds : Adds h h' blocks) : LeftOver h blocks h' :=
  ⟨[], Nat.zero_le 1, List.forall_mem_nil _, hadds⟩

theorem LeftOver.destroy {tree : HeapValue} (hleft : LeftOver h (tree.blocks ++ blocks) h') :
    ∃ h'', valueDestroy tree.root h' = some ((), h'') ∧ LeftOver h blocks h'' := by
  obtain ⟨leaked, hlength, htext, hadds⟩ := hleft
  obtain ⟨h'', hdestroy, hrest⟩ := valueDestroy_adds
    (hadds.perm (List.perm_append_comm_assoc leaked tree.blocks blocks))
  exact ⟨h'', hdestroy, leaked, hlength, htext, hrest⟩

theorem readStringHeap_agrees (maxSize : Int) (channel : χ) (hadds : Adds h h' blocks) :
    Stateful.Agrees (fun s a str => Adds h s ((a, .text (some str)) :: blocks)) (LeftOver h blocks)
      (readStringHeap maxSize channel h') (readString maxSize channel) := by
  refine .lift_bind (.of_adds hadds) fun word rest => ?_
  by_cases hlimit : word.toInt < 0 ∨ (maxSize ≠ 0 ∧ word.toInt ≥ maxSize)
  · simp only [if_pos hlimit]
    exact .reject (.of_adds hadds)
  · by_cases hnull : wrap (word.toInt + 1) < 0
    · simp only [if_neg hlimit, if_pos hnull]
      exact .reject (.of_adds hadds)
    · simp only [if_neg hlimit, if_neg hnull]
      obtain ⟨a, h₁, halloc, hadds₁⟩ := hadds.alloc (.text none)
      refine .act_bind halloc (.lift_bind ?_ fun block rest => ?_)
      · exact ⟨[(a, .text none)], Nat.le_refl 1, List.forall_mem_singleton.mpr rfl, hadds₁⟩
      · obtain ⟨h₂, hstore, hadds₂⟩ := hadds₁.store [] (.text (some (CString.ofBytes block)))
        exact .act_bind hstore (.ok hadds₂)

/-- The value at an address, with its blocks beside others. -/
structure ReadsValue (h : Heap Block) (blocks : List (Addr × Block)) (h' : Heap Block) (a : Addr)
    (value : Value) (tree : HeapValue) : Prop where
  root_eq : tree.root = a
  value_eq : tree.value = value
  adds : Adds h h' (tree.blocks ++ blocks)

/-- A reader of values that says where it has put the value. -/
def ReadsEntries (h : Heap Block) (readEntryHeap : Int → Stateful (Heap Block) χ (Addr × Int))
    (readEntry : Int → Reader χ (Value × Int)) : Prop :=
  ∀ {h' : Heap Block} {blocks : List (Addr × Block)} (count : Int) (channel : χ),
    Adds h h' blocks → Stateful.Agrees
      (fun s found result => found.2 = result.2 ∧
        ∃ tree, ReadsValue h blocks s found.1 result.1 tree)
      (LeftOver h blocks) (readEntryHeap count channel h') (readEntry count channel)

/-- An array with some more elements, in the place of another one. -/
structure Extends (h : Heap Block) (blocks : List (Addr × Block)) (tree : HeapValue)
    (entries : List HeapValue) (h' : Heap Block) (data : List Value) (tree' : HeapValue)
    (entries' : List HeapValue) : Prop where
  isArray : tree'.IsArray entries'
  values_eq : entries'.map HeapValue.value = entries.map HeapValue.value ++ data
  root_eq : tree'.root = tree.root
  adds : Adds h h' (tree'.blocks ++ blocks)

omit [Channel χ] in
theorem readEntriesHeap_agrees {readEntryHeap : Int → Stateful (Heap Block) χ (Addr × Int)}
    {readEntry : Int → Reader χ (Value × Int)} (hentry : ReadsEntries h readEntryHeap readEntry)
    {remaining : Nat} {tree : HeapValue} {entries : List HeapValue} (harray : tree.IsArray entries)
    (hlength : entries.length + remaining < 2 ^ 30) (count : Int) (channel : χ)
    (hadds : Adds h h' (tree.blocks ++ blocks)) :
    Stateful.Agrees
      (fun s found result => found = result.2 ∧
        ∃ tree' entries', Extends h blocks tree entries s result.1 tree' entries')
      (LeftOver h blocks)
      (readEntriesHeap readEntryHeap tree.root remaining count channel h')
      (readEntries readEntry remaining count channel) := by
  induction remaining generalizing tree entries count channel h' with
  | zero => exact .ok ⟨rfl, tree, entries, harray, (List.append_nil _).symm, rfl, hadds⟩
  | succ remaining ih =>
      refine (hentry count channel hadds).attempt_bind ?_ ?_
      · rintro ⟨a, count⟩ ⟨value, count'⟩ rest s ⟨rfl, entry, hread⟩
        obtain ⟨tree', s', happend, harray', hroot, hadds'⟩ := arrayAppend_adds harray (by omega)
          (hread.adds.perm (List.perm_append_comm_assoc ..))
        rw [hread.root_eq] at happend
        refine .act_bind happend ?_
        have hloop := ih harray' (by rw [List.length_append, List.length_singleton]; omega) count
          rest hadds'
        rw [hroot] at hloop
        refine hloop.bind_right ?_
        rintro count' ⟨data, count''⟩ rest s ⟨rfl, tree'', entries', hextends⟩
        refine .ok ⟨rfl, tree'', entries', hextends.isArray, ?_, hextends.root_eq.trans hroot,
          hextends.adds⟩
        rw [hextends.values_eq, List.map_append, List.append_assoc, List.map_singleton,
          hread.value_eq]
        rfl
      · intro rest s hleft
        obtain ⟨s', hdestroy, hleft'⟩ := hleft.destroy
        exact ⟨s', Stateful.act_reject hdestroy rest, hleft'⟩

/-- **`_read_value` and its memory.** It reads what the reader of the protocol reads, whatever the
channel holds. -/
theorem readValueCountedHeap_agrees (maxStringSize : Int) {maxArraySize : Int} (hlimit : maxArraySize ≠ 0)
    (hsmall : maxArraySize ≤ 2 ^ 30) (frames : Nat) :
    ReadsEntries (χ := χ) h (readValueCountedHeap maxStringSize maxArraySize frames)
      (readValueCounted maxStringSize maxArraySize frames) := by
  induction frames with
  | zero => exact fun _ _ _ => .exhausted
  | succ frames ih =>
      intro h' blocks count channel hadds
      have hscalar : ∀ (s : Scalar) (count : Int) (rest : χ), Stateful.Agrees
          (fun s found result => found.2 = result.2 ∧
            ∃ tree, ReadsValue h blocks s found.1 result.1 tree) (LeftOver h blocks)
          ((do
            let v ← Stateful.act (valueNewScalar s)
            pure (v, count) : Stateful (Heap Block) χ (Addr × Int)) rest h')
          (.ok (s.value, count) rest) := by
        intro s count rest
        obtain ⟨a, h'', halloc, hadds'⟩ := valueNewScalar_adds hadds s
        exact .act_bind halloc (.ok ⟨rfl, .scalar a s, rfl, rfl, hadds'⟩)
      refine .lift_bind (.of_adds hadds) fun b rest => ?_
      cases ValueType.ofCode b with
      | none => exact .reject (.of_adds hadds)
      | some type =>
          cases type with
          | void => exact hscalar .void count rest
          | float32 =>
              exact .lift_bind (.of_adds hadds) fun f32 rest => hscalar (.float32 f32) count rest
          | int32 =>
              exact .lift_bind (.of_adds hadds) fun i32 rest => hscalar (.int32 i32) count rest
          | boolean =>
              exact .lift_bind (.of_adds hadds) fun b rest => hscalar (.boolean (b ≠ 0)) count rest
          | string =>
              refine (readStringHeap_agrees maxStringSize rest hadds).bind ?_
              intro s str rest h₁ hadds₁
              obtain ⟨v, copy, h₂, hnew, hadds₂⟩ := valueNewString_adds
                (show Adds h h₁ ([] ++ (s, .text (some str)) :: blocks) from hadds₁)
              obtain ⟨h₃, hfree, hadds₃⟩ := hadds₂.free (HeapValue.string v copy str).blocks
              exact .act_bind hnew
                (.act_bind hfree (.ok ⟨rfl, .string v copy str, rfl, rfl, hadds₃⟩))
          | array =>
              refine .lift_bind (.of_adds hadds) fun word rest => ?_
              by_cases hlarge : maxArraySize ≠ 0 ∧ word.toInt ≥ maxArraySize
              · simp only [if_pos hlarge]
                exact .reject (.of_adds hadds)
              · by_cases hint : word.toInt ≥ wrap (intMax - count)
                · simp only [if_neg hlarge, if_pos hint]
                  exact .reject (.of_adds hadds)
                · by_cases htotal : maxArraySize ≠ 0 ∧ wrap (word.toInt + count) ≥ maxArraySize
                  · simp only [if_neg hlarge, if_neg hint, if_pos htotal]
                    exact .reject (.of_adds hadds)
                  · simp only [if_neg hlarge, if_neg hint, if_neg htotal]
                    have hlength : word.toInt.toNat < 2 ^ 30 := by
                      have hbelow : word.toInt < maxArraySize :=
                        Int.not_le.mp fun hle => hlarge ⟨hlimit, hle⟩
                      omega
                    obtain ⟨v, internal, h₁, hnew, hadds₁⟩ := valueNewArray_adds hadds
                    refine .act_bind hnew (.bind (readEntriesHeap_agrees ih (.empty v internal)
                      (by rwa [List.length_nil, Nat.zero_add]) count rest hadds₁) ?_)
                    rintro count ⟨data, count'⟩ rest s ⟨rfl, tree, entries, hextends⟩
                    refine .ok ⟨rfl, tree, hextends.root_eq, ?_, hextends.adds⟩
                    rw [hextends.isArray.value_eq, hextends.values_eq]
                    rfl
          | function => exact .reject (.of_adds hadds)

theorem readValueHeap_reads (channel : χ) (hadds : Adds h h' blocks) :
    Stateful.Agrees (fun s v value => ∃ tree, ReadsValue h blocks s v value tree)
      (LeftOver h blocks) (readValueHeap channel h') (readValue channel) := by
  have hread := readValueCountedHeap_agrees maxStringSize (show maxArraySize ≠ 0 by decide)
    (by decide) (Channel.left channel + 1) 0 channel hadds
  exact .bind hread fun ⟨_, htree⟩ => .ok htree

/-- **Values read from the child and their memory.** Whatever arrives, `read_value` uses no memory
that is not its own, and it returns what the reader of the protocol returns. The value consists of
new blocks, which `value_destroy` frees, and with them all that has been allocated; after a failure at
most one buffer of `read_string` is left. -/
theorem readValueHeap_agrees (channel : χ) (h : Heap Block) :
    Stateful.Agrees
      (fun s v value => ∃ tree, ReadsValue h [] s v value tree ∧
        ∃ s', valueDestroy v s = some ((), s') ∧ s'.block = h.block)
      (LeftOver h []) (readValueHeap channel h) (readValue channel) := by
  refine (readValueHeap_reads channel (Adds.refl h)).mono ?_ id
  rintro s v value ⟨tree, hread⟩
  obtain ⟨s', hdestroy, hadds⟩ := valueDestroy_adds hread.adds
  rw [hread.root_eq] at hdestroy
  exact ⟨tree, hread, s', hdestroy, hadds.block_eq⟩

end Reading

/-! ### Writing -/

section Writing

variable {h : Heap Block}

theorem writeSlots_eq {write : Addr → ValueM Bytes} {data : Addr} {entries : List HeapValue}
    (done : List (Option Addr)) {spare : List (Option Addr)}
    (hdata : h.block data =
      some (.slots (done ++ entries.map (some ∘ HeapValue.root) ++ spare)))
    (hwrite : ∀ entry ∈ entries, write entry.root h = some (writeValue entry.value, h)) :
    writeSlots write (some data) entries.length done.length h =
      some (writeEntries (HeapValue.values entries), h) := by
  induction entries generalizing done with
  | nil => rfl
  | cons entry entries ih =>
      have hslots := loadSlots_of_block hdata
      have hentry : (HeapM.require (done ++ (entry :: entries).map (some ∘ HeapValue.root) ++
          spare)[done.length]?.join : ValueM Addr) h = some (entry.root, h) := by
        rw [List.append_assoc, List.getElem?_append_right (Nat.le_refl _), Nat.sub_self]
        rfl
      have hfirst := hwrite entry (List.mem_cons_self ..)
      have hothers := ih (done ++ [some entry.root]) (by simpa using hdata)
        fun entry hmem => hwrite entry (List.mem_cons_of_mem _ hmem)
      rw [List.length_append, List.length_singleton] at hothers
      rw [List.length_cons, writeSlots, HeapM.bind_eq (HeapM.require_some data h),
        HeapM.bind_eq hslots, HeapM.bind_eq hentry, HeapM.bind_eq hfirst, HeapM.bind_eq hothers,
        HeapM.pure_apply, HeapValue.values, writeEntries]

theorem writeValueFrames_eq (tree : HeapValue) {frames : Nat} (hframes : tree.frames ≤ frames)
    (hblocks : ∀ x ∈ tree.blocks, h.block x.1 = some x.2) :
    writeValueFrames frames tree.root h = some (writeValue tree.value, h) := by
  induction tree using HeapValue.induction generalizing frames with
  | scalar a s =>
      obtain ⟨frames, rfl⟩ := Nat.exists_eq_succ_of_ne_zero (HeapValue.frames_ne_zero hframes)
      have hload := loadValue_of_block (hblocks _ (List.mem_cons_self ..))
      exact HeapM.bind_eq hload
  | string a str content =>
      obtain ⟨frames, rfl⟩ := Nat.exists_eq_succ_of_ne_zero (HeapValue.frames_ne_zero hframes)
      have hload := loadValue_of_block (hblocks _ (List.mem_cons_self ..))
      have htext := loadText_of_block
        (hblocks _ (List.mem_cons_of_mem _ (List.mem_cons_self ..)))
      exact (HeapM.bind_eq hload).trans (HeapM.bind_eq htext)
  | emptyArray a internal =>
      obtain ⟨frames, rfl⟩ := Nat.exists_eq_succ_of_ne_zero (HeapValue.frames_ne_zero hframes)
      have hload := loadValue_of_block (hblocks _ (List.mem_cons_self ..))
      have hloop : writeSlots (writeValueFrames frames) none 0 0 h = some ([], h) := rfl
      exact (HeapM.bind_eq hload).trans (HeapM.bind_eq hloop)
  | array a internal data size entries ih =>
      obtain ⟨frames, rfl⟩ := Nat.exists_eq_succ_of_ne_zero (HeapValue.frames_ne_zero hframes)
      have hbelow := HeapValue.framesOf_le.mp (Nat.le_of_succ_le_succ hframes)
      have hload := loadValue_of_block (hblocks _ (List.mem_cons_self ..))
      have hdata := hblocks _ (List.mem_cons_of_mem _ (List.mem_cons_of_mem _
        (List.mem_cons_self ..)))
      have hloop := writeSlots_eq [] hdata fun entry hmem => ih entry hmem (hbelow entry hmem) ?_
      · refine (HeapM.bind_eq hload).trans ((HeapM.bind_eq hloop).trans ?_)
        rw [HeapM.pure_apply, HeapValue.value, writeValue, HeapValue.values_eq_map, List.length_map]
      · intro x hx
        refine hblocks x (List.mem_cons_of_mem _ (List.mem_cons_of_mem _ (List.mem_cons_of_mem _ ?_)))
        obtain ⟨before, after, rfl⟩ := List.append_of_mem hmem
        rw [HeapValue.blocksOf_append, HeapValue.blocksOf]
        exact List.mem_append_right _ (List.mem_append_left _ hx)

theorem writeValueHeap_eq {h h' : Heap Block} {tree : HeapValue} {blocks : List (Addr × Block)}
    (hadds : Adds h h' (tree.blocks ++ blocks)) :
    writeValueHeap tree.root h' = some (writeValue tree.value, h') :=
  writeValueFrames_eq tree (Nat.le_succ_of_le (frames_le_fresh hadds)) fun x hx =>
    hadds.block_mem x (List.mem_append_left _ hx)

end Writing

end CageKeeper
