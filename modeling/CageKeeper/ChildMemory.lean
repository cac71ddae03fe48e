import CageKeeper.SessionCallbacks
import CageKeeper.ValueReading

/-! The memory of the sandbox. `child_loop` frees what it has read for a command, but not the names and
values of definitions: an interpreter may keep pointers to them. While a command is carried out the
interpreter may call functions of the host; what these return is the interpreter's to free. -/

namespace CageKeeper
open ByteStream BlockHeap

/-! ### Values from the parent -/

section Reading

variable {h h' : Heap Block} {blocks : List (Addr × Block)}

theorem liftReadWord (word : BitVec 32) (s : Heap Block) :
    Stateful.Reads (.lift readWord) (wordBytes word) s word s :=
  .lift (fun _ _ => readWord_eq_ok.mpr ⟨rfl, rfl⟩) s

theorem liftReadByte (b : UInt8) (s : Heap Block) :
    Stateful.Reads (.lift readByte) (writeByte b) s b s :=
  .lift (fun rest ending => readByte_cons b rest ending) s

theorem readStringHeap_writeString {name : CString} (hname : StringFits 0 name.length)
    (hadds : Adds h h' blocks) :
    ∃ a h'', Stateful.Reads (readStringHeap 0) (writeString name) h' a h'' ∧
      Adds h h'' ((a, .text (some name)) :: blocks) := by
  have hlength : (BitVec.ofNat 32 name.length).toInt = name.length :=
    toInt_ofNat_of_lt (by have := hname.1; simp only [intMax] at this ⊢; omega)
  have hsum : wrap ((name.length : Int) + 1) = name.length + 1 :=
    wrap_of_range (by omega) (by have := hname.1; simp only [intMax] at this ⊢; omega)
  obtain ⟨a, h₁, halloc, hadds₁⟩ := hadds.alloc (.text none)
  obtain ⟨h₂, hstore, hadds₂⟩ := hadds₁.store [] (.text (some name))
  refine ⟨a, h₂, (liftReadWord (BitVec.ofNat 32 name.length) h').bind ?_, hadds₂⟩
  simp only [hlength, hsum]
  rw [if_neg (by omega), if_neg (by omega)]
  have hread : ∀ rest ending, (Channel.read (Int.toNat name.length) : Reader Pipe Bytes)
      ⟨name.bytes ++ rest, ending⟩ = .ok name.bytes ⟨rest, ending⟩ := by
    intro rest ending
    exact Pipe.read_eq_ok.mpr ⟨rfl, rfl, rfl⟩
  refine .act_bind halloc ((Stateful.Reads.lift hread h₁).last ?_)
  rw [name.ofBytes_bytes]
  exact .act_bind hstore (.pure a h₂)

/-- A value that the parent has written, with all its elements. -/
def ReadsWritten (value : Value) : Prop :=
  ∀ (h h' : Heap Block) (blocks : List (Addr × Block)) (count : Int), 0 ≤ count →
    count + value.elements < 2 ^ 30 → Adds h h' blocks → ∃ a h'' tree,
      ReadsValue h blocks h'' a value tree ∧ ∀ frames, value.depth ≤ frames →
        Stateful.Reads (readValueCountedHeap 0 0 frames count) (writeValue value) h'
          (a, count + value.elements) h''

theorem readEntriesHeap_writeEntries {data : List Value} (hentries : ∀ entry ∈ data, ReadsWritten entry)
    {tree : HeapValue} {entries : List HeapValue} (harray : tree.IsArray entries)
    (hlength : entries.length + data.length < 2 ^ 30) (count : Int) (hcount : 0 ≤ count)
    (hbelow : count + Value.elementsOfList data < 2 ^ 30) (hadds : Adds h h' (tree.blocks ++ blocks)) :
    ∃ h'' tree' entries', Extends h blocks tree entries h'' data tree' entries' ∧
      ∀ frames, Value.depthOfList data ≤ frames →
        Stateful.Reads (readEntriesHeap (readValueCountedHeap 0 0 frames) tree.root data.length count)
          (writeEntries data) h' (count + Value.elementsOfList data) h'' := by
  induction data generalizing tree entries count h' with
  | nil =>
      refine ⟨h', tree, entries, ⟨harray, (List.append_nil _).symm, rfl, hadds⟩, fun frames _ => ?_⟩
      rw [Value.elementsOfList, Int.natCast_zero, Int.add_zero]
      exact .pure count h'
  | cons entry data ih =>
      obtain ⟨hentry, hentries⟩ := List.forall_mem_cons.mp hentries
      rw [Value.elementsOfList, Int.natCast_add] at hbelow
      rw [List.length_cons] at hlength
      obtain ⟨a, h₁, entryTree, hreads, hread⟩ := hentry h h' _ count hcount (by omega) hadds
      obtain ⟨tree', h₂, happend, harray', hroot, hadds'⟩ := arrayAppend_adds harray (by omega)
        (hreads.adds.perm (List.perm_append_comm_assoc ..))
      rw [hreads.root_eq] at happend
      obtain ⟨h₃, tree'', entries', hextends, hloop⟩ := ih hentries harray'
        (by rw [List.length_append, List.length_singleton]; omega) (count + entry.elements)
        (by omega) (by omega) hadds'
      refine ⟨h₃, tree'', entries',
        ⟨hextends.isArray, ?_, hextends.root_eq.trans hroot, hextends.adds⟩, fun frames hframes => ?_⟩
      · rw [hextends.values_eq, List.map_append, List.append_assoc, List.map_singleton,
          hreads.value_eq]
        rfl
      · obtain ⟨hfirst, hothers⟩ := Nat.max_le.mp hframes
        have hrest := hloop frames hothers
        rw [hroot, Int.add_assoc, ← Int.natCast_add] at hrest
        exact (hread frames hfirst).attempt.bind (.act_bind happend hrest)

namespace ReadsWritten

theorem exists_frames {value : Value} {frames : Nat} (hframes : value.depth ≤ frames) :
    ∃ n, frames = n + 1 :=
  ⟨frames - 1, by have := value.depth_pos; omega⟩

/-- A value of one block. -/
theorem scalar (s : Scalar) (hreads : ∀ (frames : Nat) (count : Int) (h' h'' : Heap Block) (a : Addr),
    valueNewScalar s h' = some (a, h'') →
      Stateful.Reads (readValueCountedHeap 0 0 (frames + 1) count) (writeValue s.value) h' (a, count) h'') :
    ReadsWritten s.value := by
  intro h h' blocks count _ _ hadds
  obtain ⟨a, h'', halloc, hadds'⟩ := valueNewScalar_adds hadds s
  have helements : count + (s.value.elements : Int) = count := by
    cases s <;> exact Int.add_zero count
  refine ⟨a, h'', .scalar a s, ⟨rfl, rfl, hadds'⟩, fun frames hframes => ?_⟩
  obtain ⟨frames, rfl⟩ := exists_frames hframes
  rw [helements]
  exact hreads frames count h' h'' a halloc

theorem string {str : CString} (hstr : StringFits 0 str.length) : ReadsWritten (.string str) := by
  intro h h' blocks count _ _ hadds
  obtain ⟨s, h₁, hread, hadds₁⟩ := readStringHeap_writeString hstr hadds
  obtain ⟨v, copy, h₂, hnew, hadds₂⟩ := valueNewString_adds
    (show Adds h h₁ ([] ++ (s, .text (some str)) :: blocks) from hadds₁)
  obtain ⟨h₃, hfree, hadds₃⟩ := hadds₂.free (HeapValue.string v copy str).blocks
  have helements : count + ((Value.string str).elements : Int) = count := Int.add_zero count
  refine ⟨v, h₃, .string v copy str, ⟨rfl, rfl, hadds₃⟩, fun frames hframes => ?_⟩
  obtain ⟨frames, rfl⟩ := exists_frames hframes
  rw [helements]
  exact (liftReadByte _ h').bind (hread.last (.act_bind hnew (.act_bind hfree (.pure _ _))))

theorem array {data : List Value} (hentries : ∀ entry ∈ data, ReadsWritten entry) :
    ReadsWritten (.array data) := by
  intro h h' blocks count hcount hbelow hadds
  rw [Value.elements, Int.natCast_add] at hbelow
  have hlength : (BitVec.ofNat 32 data.length).toInt = data.length :=
    toInt_ofNat_of_lt (by simp only [intMax]; omega)
  have hwrap : wrap (intMax - count) = intMax - count :=
    wrap_of_range (by simp only [intMax]; omega) (by simp only [intMax]; omega)
  have hsum : wrap (count + Value.elementsOfList data + data.length) =
      count + Value.elementsOfList data + data.length :=
    wrap_of_range (by omega) (by simp only [intMax]; omega)
  obtain ⟨v, internal, h₁, hnew, hadds₁⟩ := valueNewArray_adds hadds
  obtain ⟨h₂, tree, entries, hextends, hloop⟩ := readEntriesHeap_writeEntries hentries
    (.empty v internal) (by rw [List.length_nil]; omega) count hcount (by omega) hadds₁
  refine ⟨v, h₂, tree, ⟨hextends.root_eq, ?_, hextends.adds⟩, fun frames hframes => ?_⟩
  · rw [hextends.isArray.value_eq, hextends.values_eq]
    rfl
  · obtain ⟨frames, rfl⟩ := exists_frames hframes
    rw [Value.depth] at hframes
    rw [writeValue, List.append_assoc]
    refine (liftReadByte _ h').bind ((liftReadWord _ h').bind ?_)
    simp only [hlength, hwrap, ne_eq, not_true_eq_false, false_and, if_false]
    rw [if_neg (by simp only [intMax]; omega), Int.toNat_natCast]
    refine .act_bind hnew ((hloop frames (Nat.le_of_succ_le_succ hframes)).last ?_)
    rw [hsum, Value.elements, Int.natCast_add, Int.add_assoc,
      Int.add_comm (Value.elementsOfList data : Int)]
    exact .pure _ _

end ReadsWritten

/-- A value that the parent has written, with frames enough. -/
theorem readValueCountedHeap_writeValue (value : Value)
    (hstrings : ∀ str ∈ value.strings, StringFits 0 str.length) : ReadsWritten value := by
  induction value using Value.induction with
  | void =>
      refine .scalar .void fun frames count h' h'' a halloc => ?_
      exact (liftReadByte _ h').last (.act_bind halloc (.pure _ _))
  | float32 bits =>
      refine .scalar (.float32 bits) fun frames count h' h'' a halloc => ?_
      exact (liftReadByte _ h').bind ((liftReadWord bits h').last (.act_bind halloc (.pure _ _)))
  | int32 bits =>
      refine .scalar (.int32 bits) fun frames count h' h'' a halloc => ?_
      exact (liftReadByte _ h').bind ((liftReadWord bits h').last (.act_bind halloc (.pure _ _)))
  | boolean b =>
      refine .scalar (.boolean b) fun frames count h' h'' a halloc => ?_
      refine (liftReadByte _ h').bind ((liftReadByte (boolByte b) h').last ?_)
      cases b <;> exact .act_bind halloc (.pure _ _)
  | string str => exact .string (hstrings str (List.mem_singleton_self str))
  | array data ih =>
      refine .array fun entry hmem => ih entry hmem fun str hstr => hstrings str ?_
      exact Value.mem_stringsOfList.mpr ⟨entry, hmem, hstr⟩

/-- `read_value_nolimit`. -/
def readValueNolimitHeap {χ : Type} [Channel χ] : Stateful (Heap Block) χ Addr := do
  let (v, _) ← Stateful.withFrames fun frames => readValueCountedHeap 0 0 frames 0
  pure v

theorem Value.depth_le_length (value : Value) : value.depth ≤ (writeValue value).length := by
  induction value using Value.induction with
  | array data ih =>
      have hdata : Value.depthOfList data ≤ (writeEntries data).length := by
        refine Value.depthOfList_le.mpr fun entry hmem => Nat.le_trans (ih entry hmem) ?_
        obtain ⟨before, after, rfl⟩ := List.append_of_mem hmem
        have happend : ∀ data, writeEntries (data ++ entry :: after) =
            writeEntries data ++ (writeValue entry ++ writeEntries after) := by
          intro data
          induction data with
          | nil => rfl
          | cons first data ih => rw [List.cons_append, writeEntries, ih, writeEntries, List.append_assoc]
        rw [happend, List.length_append, List.length_append]
        omega
      rw [Value.depth, writeValue, writeByte, List.append_assoc, List.singleton_append,
        List.length_cons, List.length_append]
      omega
  | _ => simp [Value.depth, writeValue, writeByte, writeString]

/-- A value that `array_append` can put together: no counter of an array overflows. -/
def Value.Buildable (value : Value) : Prop :=
  (∀ str ∈ value.strings, StringFits 0 str.length) ∧ value.elements < 2 ^ 30

instance (value : Value) : Decidable value.Buildable := inferInstanceAs (Decidable (_ ∧ _))

theorem readValueNolimitHeap_writeValue {value : Value} (hvalue : value.Buildable) (hadds : Adds h h' blocks) :
    ∃ (tree : HeapValue) (h'' : Heap Block),
      Stateful.Reads readValueNolimitHeap (writeValue value) h' tree.root h'' ∧
      tree.value = value ∧ Adds h h'' (tree.blocks ++ blocks) := by
  have hcount : (0 : Int) + value.elements < 2 ^ 30 := by have := hvalue.2; omega
  obtain ⟨a, h'', tree, hreads, hread⟩ :=
    readValueCountedHeap_writeValue value hvalue.1 h h' blocks 0 (Int.le_refl 0) hcount hadds
  have hframes : Stateful.Reads (.withFrames fun frames => readValueCountedHeap 0 0 frames 0)
      (writeValue value) h' (a, 0 + (value.elements : Int)) h'' := by
    intro rest ending
    refine hread _ (Nat.le_trans value.depth_le_length ?_) rest ending
    show (writeValue value).length ≤ (writeValue value ++ rest).length + 1
    rw [List.length_append]
    omega
  refine ⟨tree, h'', hframes.last ?_, hreads.value_eq, hreads.adds⟩
  rw [hreads.root_eq]
  exact .pure a h''

end Reading

/-! ### Functions of the host -/

/-- Some blocks are where they are said to be. -/
def HoldsBlocks (h : Heap Block) (blocks : List (Addr × Block)) : Prop := ∀ x ∈ blocks, h.block x.1 = some x.2

/-- The value that `child_loop` makes for `define_function`. -/
structure FunctionValue where
  v : Addr
  numParams : UInt8
  internal : Addr
  name : Addr
  text : CString

def FunctionValue.blocks (f : FunctionValue) : List (Addr × Block) :=
  [(f.v, .function f.internal f.numParams), (f.internal, .proxyFunction (some f.name)),
    (f.name, .text (some f.text))]

/-- `v->internal` and what it points to. -/
def loadFunctionValue (v : Addr) : ValueM FunctionValue := do
  match ← HeapM.load v with
  | .function internal numParams => do
      match ← HeapM.load internal with
      | .proxyFunction name => do
          let name ← HeapM.require name
          let text ← loadText name
          pure ⟨v, numParams, internal, name, text⟩
      | _ => HeapM.require none
  | _ => HeapM.require none

theorem loadFunctionValue_eq {f : FunctionValue} {h : Heap Block} (hblocks : HoldsBlocks h f.blocks) :
    loadFunctionValue f.v h = some (f, h) := by
  have hv : h.block f.v = some (.function f.internal f.numParams) := hblocks _ (List.mem_cons_self ..)
  have hinternal : h.block f.internal = some (.proxyFunction (some f.name)) :=
    hblocks _ (List.mem_cons_of_mem _ (List.mem_cons_self ..))
  have hname : h.block f.name = some (.text (some f.text)) :=
    hblocks _ (List.mem_cons_of_mem _ (List.mem_cons_of_mem _ (List.mem_cons_self ..)))
  refine (HeapM.bind_eq (HeapM.load_eq hv)).trans ((HeapM.bind_eq (HeapM.load_eq hinternal)).trans ?_)
  exact (HeapM.bind_eq (HeapM.require_some ..)).trans (HeapM.bind_eq (loadText_of_block hname))

/-- What `proxy_function_call` writes. -/
def proxyFunctionCallHeap (v args : Addr) : ValueM Bytes := do
  let f ← loadFunctionValue v
  let written ← writeValueHeap args
  pure (writeByte Resp.callback.code ++ writeString f.text ++ written)

/-! ### The interpreter -/

/-- A run of the interpreter: it works on the memory that it shares with `child_loop`, logs lines and calls
functions of the host, which return a value or `NULL`. -/
inductive HeapRun (α : Type) where
  | done (result : α)
  | work {β : Type} (code : ValueM β) (next : β → HeapRun α)
  /-- `language_error(old, "%s", text)`. -/
  | log (text : CString) (next : HeapRun α)
  | call (v args : Addr) (resume : Option Addr → HeapRun α)

/-- What the child writes while the interpreter runs. -/
inductive ChildMessage where
  | log (text : CString)
  | callback (name : CString) (args : Value)

def ChildMessage.bytes : ChildMessage → Bytes
  | .log text => unmark (sandboxLog (logLine text))
  | .callback name args => writeByte Resp.callback.code ++ writeString name ++ writeValue args

/-- What the parent writes while the interpreter runs: a value for each callback. `answer` is the host, which
has been told all messages so far. -/
def answers (answer : List ChildMessage → Value) : (before messages : List ChildMessage) → Bytes
  | _, [] => []
  | before, .log text :: messages => answers answer (before ++ [.log text]) messages
  | before, .callback name args :: messages =>
      writeValue (answer (before ++ [.callback name args])) ++
        answers answer (before ++ [.callback name args]) messages

namespace HeapRun

/-- A run, with the bytes that are written. -/
def run {χ α : Type} [Channel χ] : HeapRun α → Stateful (Heap Block) χ (Bytes × α)
  | .done result => pure ([], result)
  | .work code next => do
      let value ← Stateful.act code
      (next value).run
  | .log text next => do
      let (written, result) ← next.run
      pure (unmark (sandboxLog (logLine text)) ++ written, result)
  | .call v args resume => do
      -- proxy_function_call
      let callback ← Stateful.act (proxyFunctionCallHeap v args)
      let ret ← readValueNolimitHeap.attempt
      let (written, result) ← (resume ret).run
      pure (callback ++ written, result)

/-- A run that has blocks of its own beside those that are `there`, and leaves these alone. It calls
functions that are there, and what they return is then its own. At its end `post` holds of its result and
of its own blocks. -/
def Minds {α : Type} (base : Heap Block) (there : List (Addr × Block))
    (post : α → List (Addr × Block) → Prop) : HeapRun α → Heap Block → List (Addr × Block) → Prop
  | .done result, _, own => post result own
  | .work code next, h, _ => ∃ value h' own', code h = some (value, h') ∧
      Adds base h' (own' ++ there) ∧ (next value).Minds base there post h' own'
  | .log _ next, h, own => next.Minds base there post h own
  | .call v args resume, _, own =>
      (∃ f : FunctionValue, f.v = v ∧ f.blocks ⊆ there) ∧
      (∃ (tree : HeapValue) (others : List (Addr × Block)), tree.root = args ∧
        (own ++ there).Perm (tree.blocks ++ others)) ∧
      ∀ (reply : HeapValue) (h' : Heap Block), Adds base h' (reply.blocks ++ own ++ there) →
        (resume (some reply.root)).Minds base there post h' (reply.blocks ++ own)

end HeapRun

/-- The interpreter in the sandbox, with what it does to the memory it shares with `child_loop`; `σ` is
memory of its own. A name or a value that could not be read is `NULL`. -/
structure HeapGuest (σ : Type) where
  defineConstant : Option Addr → Option Addr → σ → HeapRun σ
  defineFunction : Option Addr → Addr → σ → HeapRun σ
  compileScript : Option Addr → σ → HeapRun (Bool × σ)
  isFunction : Option Addr → σ → HeapRun (Bool × σ)
  callFunction : Option Addr → Option Addr → σ → HeapRun (Option Addr × σ)

section Owned

variable {σ α : Type} (keeps own : σ → List (Addr × Block))

/-- A run that is `given` some blocks, in any memory in which these are there, with its own blocks and all
that it keeps pointers to. -/
def HeapRun.Owned (state : σ) (given : List (Addr × Block)) (run : HeapRun α)
    (post : α → List (Addr × Block) → Prop) : Prop :=
  ∀ (base h : Heap Block) (there : List (Addr × Block)), keeps state ⊆ there →
    Adds base h (own state ++ (given ++ there)) → run.Minds base (given ++ there) post h (own state)

/-- A run leaves its result, if there is one, beside other blocks. -/
def LeavesResult (left others : List (Addr × Block)) : Option Addr → Prop
  | none => left.Perm others
  | some v => ∃ tree : HeapValue, tree.root = v ∧ left.Perm (tree.blocks ++ others)

/-- An interpreter has blocks of its own, `own`, and keeps pointers to definitions, `keeps`; it keeps no
pointer to anything else that it is given. A result is its caller's to free. -/
structure HeapGuest.Owned (guest : HeapGuest σ) : Prop where
  defineConstant : ∀ (state : σ) (name : Addr) (text : CString) (tree : HeapValue),
    (guest.defineConstant (some name) (some tree.root) state).Owned keeps own state
      (tree.blocks ++ [(name, .text (some text))]) fun state' left => left.Perm (own state') ∧
        keeps state' ⊆ tree.blocks ++ [(name, .text (some text))] ++ keeps state
  defineFunction : ∀ (state : σ) (f : FunctionValue),
    (guest.defineFunction (some f.name) f.v state).Owned keeps own state f.blocks fun state' left =>
      left.Perm (own state') ∧ keeps state' ⊆ f.blocks ++ keeps state
  compileScript : ∀ (state : σ) (script : Addr) (text : CString),
    (guest.compileScript (some script) state).Owned keeps own state [(script, .text (some text))]
      fun (_, state') left => left.Perm (own state') ∧ keeps state' ⊆ keeps state
  isFunction : ∀ (state : σ) (name : Addr) (text : CString),
    (guest.isFunction (some name) state).Owned keeps own state [(name, .text (some text))]
      fun (_, state') left => left.Perm (own state') ∧ keeps state' ⊆ keeps state
  callFunction : ∀ (state : σ) (name : Addr) (text : CString) (args : HeapValue),
    (guest.callFunction (some name) (some args.root) state).Owned keeps own state
      (args.blocks ++ [(name, .text (some text))]) fun (ret, state') left =>
        keeps state' ⊆ keeps state ∧ LeavesResult left (own state') ret

end Owned

/-! ### The loop -/

section Loop

variable {σ χ : Type} [Channel χ] (guest : HeapGuest σ)

/-- What `child_loop` does with the result of `call_function`. -/
def sendResult : Option Addr → ValueM Bytes
  | some ret => do
      let written ← writeValueHeap ret
      valueDestroy ret
      pure (writeByte Resp.return.code ++ written)
  | none => pure (writeByte Resp.error.code)

/-- A turn of `child_loop` after the command byte: what is written to the parent, and the interpreter's
own memory. -/
def childCommandHeap (state : σ) : Option Command → Stateful (Heap Block) χ (Bytes × σ)
  | some .defineConstant => do
      let s ← (readStringHeap 0).attempt
      let v ← readValueNolimitHeap.attempt
      (guest.defineConstant s v state).run
  | some .defineFunction => do
      let name ← (readStringHeap 0).attempt
      let numParams ← (Stateful.lift readByte).attempt
      let pf ← Stateful.act (HeapM.alloc (.proxyFunction name))
      let value ← Stateful.act (HeapM.alloc (.function pf (numParams.getD 0)))
      (guest.defineFunction name value state).run
  | some .compileScript => do
      let script ← (readStringHeap 0).attempt
      let (written, ret, state) ← (guest.compileScript script state).run
      Stateful.act (HeapM.freePtr script)
      pure (written ++ (writeByte Resp.return.code ++ writeByte (boolByte ret)), state)
  | some .isFunction => do
      let functionName ← (readStringHeap 0).attempt
      let (written, ret, state) ← (guest.isFunction functionName state).run
      Stateful.act (HeapM.freePtr functionName)
      pure (written ++ writeByte (boolByte ret), state)
  | some .callFunction => do
      let functionName ← (readStringHeap 0).attempt
      let args ← readValueNolimitHeap.attempt
      let (written, ret, state) ← (guest.callFunction functionName args state).run
      let reply ← Stateful.act (sendResult ret)
      Stateful.act (HeapM.freePtr functionName)
      Stateful.act (HeapM.require args >>= valueDestroy)
      pure (written ++ reply, state)
  | none => pure ([], state)

/-- A turn of `child_loop`. -/
def childTurnHeap (state : σ) : Stateful (Heap Block) χ (Bytes × σ) := do
  let command ← Stateful.lift readByte
  childCommandHeap guest state (Command.ofCode command)

/-- Some turns of `child_loop`. -/
def childTurnsHeap : Nat → σ → Stateful (Heap Block) χ (Bytes × σ)
  | 0, state => pure ([], state)
  | turns + 1, state => do
      let (written, state) ← childTurnHeap guest state
      let (more, state) ← childTurnsHeap turns state
      pure (written ++ more, state)

end Loop

/-! ### Commands of the parent -/

section Commands

variable {F W σ : Type} (natives : Natives F W) (answer : List ChildMessage → Value)

/-- What is left of a command once it has been carried out: a definition stays. -/
inductive Op.Stays : Op F → List (Addr × Block) → Prop where
  | defineConstant (text : CString) (name : Addr) (tree : HeapValue) :
      Stays (.defineConstant text tree.value) (tree.blocks ++ [(name, .text (some text))])
  | defineFunction (f : F) (value : FunctionValue)
      (hparams : value.numParams = UInt8.ofNat (natives.numParams f)) :
      Stays (.defineFunction value.text f) value.blocks
  | compileScript (script : CString) : Stays (.compileScript script) []
  | isFunction (name : CString) : Stays (.isFunction name) []
  | callFunction (name : CString) (args : Value) : Stays (.callFunction name args) []

/-- Names and values that fit the memory of the child. -/
def Op.Fits : Op F → Prop
  | .defineConstant name value => StringFits 0 name.length ∧ value.Buildable
  | .defineFunction name _ => StringFits 0 name.length
  | .compileScript script => StringFits 0 script.length
  | .isFunction name => StringFits 0 name.length
  | .callFunction name args => StringFits 0 name.length ∧ args.Buildable

instance : (operation : Op F) → Decidable operation.Fits
  | .defineConstant _ _ | .callFunction _ _ => inferInstanceAs (Decidable (_ ∧ _))
  | .defineFunction _ _ | .compileScript _ | .isFunction _ => inferInstanceAs (Decidable (StringFits ..))

/-- A command and how it was carried out: the messages of the interpreter, the answer of `child_loop` and
the blocks that stay. -/
structure ChildTurn (F : Type) where
  operation : Op F
  messages : List ChildMessage
  reply : Bytes
  stays : List (Addr × Block)

def ChildTurn.written (turn : ChildTurn F) : Bytes :=
  turn.messages.flatMap ChildMessage.bytes ++ turn.reply

/-- What the parent writes: the commands, and after each the answers to the callbacks. -/
def exchange : List ChildMessage → List (ChildTurn F) → Bytes
  | _, [] => []
  | before, turn :: turns => turn.operation.command natives ++
      (answers answer before turn.messages ++ exchange (before ++ turn.messages) turns)

variable {natives answer} {guest : HeapGuest σ} {keeps own : σ → List (Addr × Block)}
  {base h : Heap Block} {blocks there mine : List (Addr × Block)} {state : σ}

theorem holds_of_subset (hadds : Adds base h blocks) {others : List (Addr × Block)}
    (hsubset : others ⊆ blocks) : HoldsBlocks h others :=
  fun x hx => hadds.block_mem x (hsubset hx)

theorem subset_stays {stays kept others : List (Addr × Block)} (h : others ⊆ stays ++ kept)
    (hkept : kept ⊆ blocks) : others ⊆ stays ++ blocks :=
  List.Subset.trans h (List.append_subset.mpr
    ⟨List.subset_append_left _ _, List.Subset.trans hkept (List.subset_append_right _ _)⟩)

theorem proxyFunctionCallHeap_eq (hadds : Adds base h (mine ++ there)) {f : FunctionValue}
    (hf : f.blocks ⊆ there) {tree : HeapValue} {others : List (Addr × Block)}
    (hargs : (mine ++ there).Perm (tree.blocks ++ others)) :
    proxyFunctionCallHeap f.v tree.root h =
      some ((ChildMessage.callback f.text tree.value).bytes, h) := by
  have hload := loadFunctionValue_eq
    (holds_of_subset hadds (List.Subset.trans hf (List.subset_append_right _ _)))
  have hwrite := writeValueHeap_eq (hadds.perm hargs)
  rw [proxyFunctionCallHeap, HeapM.bind_eq hload, HeapM.bind_eq hwrite, HeapM.pure_apply,
    ChildMessage.bytes]

theorem HeapRun.run_reads {α : Type} {run : HeapRun α} {post : α → List (Addr × Block) → Prop}
    (hminds : run.Minds base there post h mine) (hanswer : ∀ messages, (answer messages).Buildable)
    (before : List ChildMessage) (hadds : Adds base h (mine ++ there)) :
    ∃ messages result h' left, Stateful.Reads run.run (answers answer before messages) h
        (messages.flatMap ChildMessage.bytes, result) h' ∧
      Adds base h' (left ++ there) ∧ post result left := by
  induction run generalizing h mine before with
  | done result => exact ⟨[], result, h, mine, .pure _ _, hadds, hminds⟩
  | work code next ih =>
      obtain ⟨value, h₁, mine₁, hcode, hadds₁, hnext⟩ := hminds
      obtain ⟨messages, result, h₂, left, hrun, hleft⟩ := ih value hnext before hadds₁
      exact ⟨messages, result, h₂, left, .act_bind hcode hrun, hleft⟩
  | log text next ih =>
      obtain ⟨messages, result, h₁, left, hrun, hleft⟩ := ih hminds (before ++ [.log text]) hadds
      exact ⟨.log text :: messages, result, h₁, left, hrun.last (.pure _ _), hleft⟩
  | call v args resume ih =>
      obtain ⟨⟨f, rfl, hf⟩, ⟨tree, others, rfl, hargs⟩, hresume⟩ := hminds
      have hcall := proxyFunctionCallHeap_eq hadds hf hargs
      obtain ⟨reply, h₁, hread, -, hadds₁⟩ := readValueNolimitHeap_writeValue
        (hanswer (before ++ [.callback f.text tree.value])) hadds
      rw [← List.append_assoc] at hadds₁
      obtain ⟨messages, result, h₂, left, hrun, hleft⟩ := ih (some reply.root)
        (hresume reply h₁ hadds₁) (before ++ [.callback f.text tree.value]) hadds₁
      exact ⟨.callback f.text tree.value :: messages, result, h₂, left,
        .act_bind hcall (hread.attempt.bind (hrun.last (.pure _ _))), hleft⟩

theorem HeapRun.Owned.run_reads {α : Type} {run : HeapRun α} {given : List (Addr × Block)}
    {post : α → List (Addr × Block) → Prop} (howned : run.Owned keeps own state given post)
    (hanswer : ∀ messages, (answer messages).Buildable) (before : List ChildMessage)
    (hkeeps : keeps state ⊆ blocks) (hadds : Adds base h (given ++ (own state ++ blocks))) :
    ∃ messages result h' left, Stateful.Reads run.run (answers answer before messages) h
        (messages.flatMap ChildMessage.bytes, result) h' ∧
      Adds base h' (left ++ (given ++ blocks)) ∧ post result left :=
  have hgiven := hadds.perm (List.perm_append_comm_assoc given (own state) blocks)
  HeapRun.run_reads (howned base h blocks hkeeps hgiven) hanswer before hgiven

theorem childTurnHeap_reads {command : Command} {bytes : Bytes} {result : Bytes × σ} {h' : Heap Block}
    (hcommand : Stateful.Reads (childCommandHeap guest state (some command)) bytes h result h') :
    Stateful.Reads (childTurnHeap guest state) (writeByte command.code ++ bytes) h result h' := by
  refine (liftReadByte command.code h).bind ?_
  rw [Command.ofCode_code]
  exact hcommand

/-- What becomes of the result of `call_function`, and of the name and the arguments. -/
theorem sendResult_adds {ret : Option Addr} {args : HeapValue} {name : Addr} {text : CString}
    {left others : List (Addr × Block)}
    (hadds : Adds base h (left ++ (args.blocks ++ [(name, .text (some text))] ++ blocks)))
    (hret : LeavesResult left others ret) :
    ∃ reply h₁ h₂ h₃, sendResult ret h = some (reply, h₁) ∧
      HeapM.freePtr (some name) h₁ = some ((), h₂) ∧
      (HeapM.require (some args.root) >>= valueDestroy) h₂ = some ((), h₃) ∧
      Adds base h₃ (others ++ blocks) := by
  have hsent : ∃ reply h₁, sendResult ret h = some (reply, h₁) ∧
      Adds base h₁ (others ++ (args.blocks ++ [(name, .text (some text))] ++ blocks)) := by
    cases ret with
    | none => exact ⟨_, h, rfl, hadds.perm (hret.append_right _)⟩
    | some v =>
        obtain ⟨tree, rfl, hperm⟩ := hret
        have htree := hadds.perm (hperm.append_right _)
        rw [List.append_assoc] at htree
        have hwrite := writeValueHeap_eq htree
        obtain ⟨h₁, hdestroy, hadds₁⟩ := valueDestroy_adds htree
        refine ⟨writeByte Resp.return.code ++ writeValue tree.value, h₁, ?_, hadds₁⟩
        rw [sendResult, HeapM.bind_eq hwrite, HeapM.bind_eq hdestroy, HeapM.pure_apply]
  obtain ⟨reply, h₁, hsend, hadds₁⟩ := hsent
  rw [List.append_assoc, List.singleton_append, ← List.append_assoc] at hadds₁
  obtain ⟨h₂, hfree, hadds₂⟩ := hadds₁.free (others ++ args.blocks)
  rw [List.append_assoc] at hadds₂
  obtain ⟨h₃, hdestroy, hadds₃⟩ :=
    valueDestroy_adds (hadds₂.perm (List.perm_append_comm_assoc others args.blocks blocks))
  exact ⟨reply, h₁, h₂, h₃, hsend, hfree, hdestroy, hadds₃⟩

variable (natives) in
/-- Step: the memory after a command. -/
theorem childTurnHeap_adds (howned : guest.Owned keeps own)
    (hanswer : ∀ messages, (answer messages).Buildable) (before : List ChildMessage)
    {operation : Op F} (hfits : operation.Fits) (hadds : Adds base h (own state ++ blocks))
    (hkeeps : keeps state ⊆ blocks) :
    ∃ (turn : ChildTurn F) (state' : σ) (h' : Heap Block), turn.operation = operation ∧
      Stateful.Reads (childTurnHeap guest state)
        (operation.command natives ++ answers answer before turn.messages) h (turn.written, state') h' ∧
      operation.Stays natives turn.stays ∧ Adds base h' (own state' ++ (turn.stays ++ blocks)) ∧
      keeps state' ⊆ turn.stays ++ blocks := by
  cases operation with
  | defineConstant text value =>
      obtain ⟨name, h₁, hname, hadds₁⟩ := readStringHeap_writeString hfits.1 hadds
      obtain ⟨tree, h₂, hvalue, rfl, hadds₂⟩ := readValueNolimitHeap_writeValue hfits.2 hadds₁
      rw [← List.singleton_append, ← List.append_assoc] at hadds₂
      obtain ⟨messages, state', h₃, left, hrun, hadds₃, hleft, hkept⟩ :=
        (howned.defineConstant state name text tree).run_reads hanswer before hkeeps hadds₂
      refine ⟨⟨.defineConstant text tree.value, messages, [], _⟩, state', h₃, rfl, ?_,
        .defineConstant text name tree, hadds₃.perm (hleft.append_right _), subset_stays hkept hkeeps⟩
      rw [Op.command, List.append_assoc, List.append_assoc, ChildTurn.written, List.append_nil]
      exact childTurnHeap_reads (hname.attempt.bind (hvalue.attempt.bind hrun))
  | defineFunction text f =>
      obtain ⟨name, h₁, hname, hadds₁⟩ := readStringHeap_writeString hfits hadds
      obtain ⟨pf, h₂, hpf, hadds₂⟩ := hadds₁.alloc (.proxyFunction (some name))
      obtain ⟨v, h₃, hv, hadds₃⟩ :=
        hadds₂.alloc (.function pf (UInt8.ofNat (natives.numParams f)))
      let value : FunctionValue := ⟨v, UInt8.ofNat (natives.numParams f), pf, name, text⟩
      obtain ⟨messages, state', h₄, left, hrun, hadds₄, hleft, hkept⟩ :=
        (howned.defineFunction state value).run_reads hanswer before hkeeps hadds₃
      refine ⟨⟨.defineFunction text f, messages, [], _⟩, state', h₄, rfl, ?_,
        .defineFunction f value rfl, hadds₄.perm (hleft.append_right _), subset_stays hkept hkeeps⟩
      rw [Op.command, List.append_assoc, List.append_assoc, ChildTurn.written, List.append_nil]
      exact childTurnHeap_reads (hname.attempt.bind ((liftReadByte _ h₁).attempt.bind
        (.act_bind hpf (.act_bind hv hrun))))
  | compileScript script =>
      obtain ⟨s, h₁, hread, hadds₁⟩ := readStringHeap_writeString hfits hadds
      obtain ⟨messages, ⟨ret, state'⟩, h₂, left, hrun, hadds₂, hleft, hkept⟩ :=
        (howned.compileScript state s script).run_reads hanswer before hkeeps hadds₁
      obtain ⟨h₃, hfree, hadds₃⟩ := (hadds₂.perm (hleft.append_right _)).free (own state')
      refine ⟨⟨.compileScript script, messages, writeByte Resp.return.code ++ writeByte (boolByte ret),
        []⟩, state', h₃, rfl, ?_, .compileScript script, hadds₃, List.Subset.trans hkept hkeeps⟩
      rw [Op.command, List.append_assoc]
      exact childTurnHeap_reads (hread.attempt.bind (hrun.last (.act_bind hfree (.pure _ _))))
  | isFunction text =>
      obtain ⟨name, h₁, hread, hadds₁⟩ := readStringHeap_writeString hfits hadds
      obtain ⟨messages, ⟨ret, state'⟩, h₂, left, hrun, hadds₂, hleft, hkept⟩ :=
        (howned.isFunction state name text).run_reads hanswer before hkeeps hadds₁
      obtain ⟨h₃, hfree, hadds₃⟩ := (hadds₂.perm (hleft.append_right _)).free (own state')
      refine ⟨⟨.isFunction text, messages, writeByte (boolByte ret), []⟩, state', h₃, rfl, ?_,
        .isFunction text, hadds₃, List.Subset.trans hkept hkeeps⟩
      rw [Op.command, List.append_assoc]
      exact childTurnHeap_reads (hread.attempt.bind (hrun.last (.act_bind hfree (.pure _ _))))
  | callFunction text args =>
      obtain ⟨name, h₁, hname, hadds₁⟩ := readStringHeap_writeString hfits.1 hadds
      obtain ⟨tree, h₂, hargs, rfl, hadds₂⟩ := readValueNolimitHeap_writeValue hfits.2 hadds₁
      rw [← List.singleton_append, ← List.append_assoc] at hadds₂
      obtain ⟨messages, ⟨ret, state'⟩, h₃, left, hrun, hadds₃, hkept, hret⟩ :=
        (howned.callFunction state name text tree).run_reads hanswer before hkeeps hadds₂
      obtain ⟨reply, h₄, h₅, h₆, hsend, hfree, hdestroy, hadds₆⟩ := sendResult_adds hadds₃ hret
      refine ⟨⟨.callFunction text tree.value, messages, reply, []⟩, state', h₆, rfl, ?_,
        .callFunction text tree.value, hadds₆, List.Subset.trans hkept hkeeps⟩
      rw [Op.command, List.append_assoc, List.append_assoc]
      exact childTurnHeap_reads (hname.attempt.bind (hargs.attempt.bind
        (hrun.last (.act_bind hsend (.act_bind hfree (.act_bind hdestroy (.pure _ _)))))))

variable (natives) in
/-- Run: the memory after some commands. -/
theorem childTurnsHeap_adds (howned : guest.Owned keeps own)
    (hanswer : ∀ messages, (answer messages).Buildable) (before : List ChildMessage)
    {operations : List (Op F)} (hfits : ∀ operation ∈ operations, operation.Fits)
    (hadds : Adds base h (own state ++ blocks)) (hkeeps : keeps state ⊆ blocks) :
    ∃ (turns : List (ChildTurn F)) (state' : σ) (h' : Heap Block),
      turns.map ChildTurn.operation = operations ∧
      Stateful.Reads (childTurnsHeap guest operations.length state)
        (exchange natives answer before turns) h (turns.flatMap ChildTurn.written, state') h' ∧
      (∀ turn ∈ turns, turn.operation.Stays natives turn.stays) ∧
      Adds base h' (own state' ++ (turns.reverse.flatMap ChildTurn.stays ++ blocks)) ∧
      keeps state' ⊆ turns.reverse.flatMap ChildTurn.stays ++ blocks := by
  induction operations generalizing state h blocks before with
  | nil => exact ⟨[], state, h, rfl, .pure _ _, List.forall_mem_nil _, hadds, hkeeps⟩
  | cons operation operations ih =>
      obtain ⟨hfirst, hothers⟩ := List.forall_mem_cons.mp hfits
      obtain ⟨turn, state₁, h₁, rfl, hturn, hleft, hadds₁, hkeeps₁⟩ :=
        childTurnHeap_adds natives howned hanswer before hfirst hadds hkeeps
      obtain ⟨turns, state₂, h₂, rfl, hturns, hstays, hadds₂, hkeeps₂⟩ :=
        ih (before ++ turn.messages) hothers hadds₁ hkeeps₁
      have hflat : (turn :: turns).reverse.flatMap ChildTurn.stays ++ blocks =
          turns.reverse.flatMap ChildTurn.stays ++ (turn.stays ++ blocks) := by
        rw [List.reverse_cons, List.flatMap_append, List.flatMap_singleton, List.append_assoc]
      refine ⟨turn :: turns, state₂, h₂, rfl, ?_, List.forall_mem_cons.mpr ⟨hleft, hstays⟩,
        hflat ▸ hadds₂, hflat ▸ hkeeps₂⟩
      rw [exchange, ← List.append_assoc]
      exact hturn.bind (hturns.last (.pure _ _))

/-- **The memory of the sandbox.** Whatever commands the parent sends, and whatever the functions of the
host return that are called meanwhile, the loop frees nothing twice and uses nothing that is freed. After the
commands there are the names and values of the definitions, as they were read, and the blocks of the
interpreter, and nothing else. So all that the interpreter keeps pointers to is there. -/
theorem childTurnsHeap_stays (howned : guest.Owned keeps own)
    (hanswer : ∀ messages, (answer messages).Buildable) {operations : List (Op F)}
    (hfits : ∀ operation ∈ operations, operation.Fits) (hstart : keeps state = [])
    (hadds : Adds base h (own state)) :
    ∃ (turns : List (ChildTurn F)) (state' : σ) (h' : Heap Block),
      turns.map ChildTurn.operation = operations ∧
      Stateful.Reads (childTurnsHeap guest operations.length state) (exchange natives answer [] turns) h
        (turns.flatMap ChildTurn.written, state') h' ∧
      (∀ turn ∈ turns, turn.operation.Stays natives turn.stays) ∧
      Adds base h' (own state' ++ turns.reverse.flatMap ChildTurn.stays) ∧
      HoldsBlocks h' (keeps state') := by
  have hblocks : Adds base h (own state ++ []) := by rwa [List.append_nil]
  have hkeeps : keeps state ⊆ [] := by rw [hstart]; exact List.Subset.refl _
  obtain ⟨turns, state', h', hturns, hreads, hstays, hafter, hkept⟩ :=
    childTurnsHeap_adds natives howned hanswer [] hfits hblocks hkeeps
  rw [List.append_nil] at hafter hkept
  exact ⟨turns, state', h', hturns, hreads, hstays, hafter,
    holds_of_subset hafter (List.Subset.trans hkept (List.subset_append_right _ _))⟩

/-- An interpreter that keeps the functions it is given, calls the latest one without arguments whenever it
is called itself, and returns what that returns. -/
def callingGuest : HeapGuest (List FunctionValue) where
  defineConstant _ _ kept := .done kept
  defineFunction _ v kept := .work (loadFunctionValue v) fun f => .done (f :: kept)
  compileScript _ kept := .log (CString.lit "compiled") (.done (true, kept))
  isFunction _ kept := .done (!kept.isEmpty, kept)
  callFunction _ _ kept :=
    match kept with
    | [] => .done (none, kept)
    | f :: _ => .work valueNewArray fun args => .call f.v args fun ret =>
        .work (valueDestroy args) fun _ => .done (ret, kept)

theorem callingGuest_owned :
    callingGuest.Owned (fun kept => kept.flatMap FunctionValue.blocks) fun _ => [] where
  defineConstant kept _ _ _ _ _ _ _ _ := ⟨.refl _, List.subset_append_right _ _⟩
  defineFunction kept f base h there _ hadds := by
    have hload := loadFunctionValue_eq (holds_of_subset hadds (List.subset_append_left f.blocks there))
    exact ⟨f, h, [], hload, hadds, .refl _, List.Subset.refl _⟩
  compileScript _ _ _ _ _ _ _ _ := ⟨.refl _, List.Subset.refl _⟩
  isFunction _ _ _ _ _ _ _ _ := ⟨.refl _, List.Subset.refl _⟩
  callFunction kept name text args base h there hkeeps hadds := by
    cases kept with
    | nil => exact ⟨List.Subset.refl _, .refl _⟩
    | cons f kept =>
        obtain ⟨v, internal, h₁, hnew, hadds₁⟩ := valueNewArray_adds hadds
        have hf : f.blocks ⊆ args.blocks ++ [(name, .text (some text))] ++ there :=
          List.Subset.trans (List.subset_append_left _ _)
            (List.Subset.trans hkeeps (List.subset_append_right _ _))
        refine ⟨v, h₁, _, hnew, hadds₁, ⟨f, rfl, hf⟩, ⟨.emptyArray v internal, _, rfl, .refl _⟩, ?_⟩
        intro reply h₂ hadds₂
        -- the arguments go, the reply stays
        rw [List.append_assoc] at hadds₂
        obtain ⟨h₃, hdestroy, hadds₃⟩ :=
          valueDestroy_adds (hadds₂.perm (List.perm_append_comm_assoc ..))
        exact ⟨(), h₃, reply.blocks, hdestroy, hadds₃, List.Subset.refl _, reply, rfl,
          .of_eq (List.append_nil _).symm⟩

/-- A constant and a function are defined, a script is compiled, and the function is called twice. -/
def callingOperations : List (Op Unit) :=
  [.defineConstant (CString.lit "k") (.array [.int32 7]), .defineFunction (CString.lit "f") (),
    .compileScript (CString.lit "s"), .callFunction (CString.lit "g") (.array []),
    .callFunction (CString.lit "g") (.array [.string (CString.lit "x")])]

theorem callingOperations_fit : ∀ operation ∈ callingOperations, operation.Fits := by
  decide +kernel

theorem childTurnsHeap_stays_calling :
    ∃ (turns : List (ChildTurn Unit)) (kept : List FunctionValue) (h' : Heap Block),
      turns.map ChildTurn.operation = callingOperations ∧
      Stateful.Reads (childTurnsHeap callingGuest callingOperations.length [])
        (exchange echoNatives (fun messages => .array [.int32 messages.length]) [] turns) .empty
        (turns.flatMap ChildTurn.written, kept) h' ∧
      (∀ turn ∈ turns, turn.operation.Stays echoNatives turn.stays) ∧
      Adds .empty h' ([] ++ turns.reverse.flatMap ChildTurn.stays) ∧
      HoldsBlocks h' (kept.flatMap FunctionValue.blocks) :=
  childTurnsHeap_stays callingGuest_owned
    (fun _ => ⟨List.forall_mem_nil _, by simp [Value.elements, Value.elementsOfList]⟩)
    callingOperations_fit rfl (.refl .empty)

end Commands

end CageKeeper
