import CageKeeper.BoundedStack
import CageKeeper.LuaRoundTrip
import CageKeeper.LuaStack

/-! `push_value` and `lua_to_value` on the stack of a Lua state, which has room for a number of objects.
Nothing checks that there is some left: a push too many is undefined. -/

namespace CageKeeper
open ByteStream BoundedStack RecursiveCalls BinaryFloat

/-! ### Objects on the stack -/

/-- The objects of the guest that a conversion finds. What is in a table is what `lua_gettable` gives, by an
entry or by a metamethod. Where it gives nothing there is no answer: a metamethod raises an error, which
leaves the conversion, it never ends, or it has an element for every key. -/
structure LuaHeap (ι : Type) where
  object : ι → LuaObject ι
  answers : ι → Bool
  nil_answers : ∀ x, (object x).isNil = true → answers x = true

/-- A slot of the stack: an object of the guest, a new one, an integer, or a function. -/
inductive LuaCell (ι : Type) where
  | ref (x : ι)
  | new (tree : LuaTree)
  | integer (i : Int)
  | function

/-- `LUA_MINSTACK`: the room that a new state has. -/
def luaMinStack : Nat := 20

/-- The numbers that Lua reads in strings, and the string it makes of a number. -/
structure LuaNumbers where
  reads : Bytes → Option (BitVec 64)
  text : BitVec 64 → Bytes

/-- The same object over other references. -/
def LuaObject.map {ι κ : Type} (f : ι → κ) : LuaObject ι → LuaObject κ
  | .nil => .nil
  | .boolean b => .boolean b
  | .number double => .number double
  | .string data reads => .string data reads
  | .table entries => .table (entries.map fun entry => (entry.1, f entry.2))
  | .other => .other

variable {ι : Type}

def LuaCell.view (heap : LuaHeap ι) : LuaCell ι → LuaObject (LuaCell ι)
  | .ref x => (heap.object x).map .ref
  | .new tree => tree.object.map .new
  | .integer i => .number (doubleOfInt i)
  | .function => .other

def LuaCell.answers (heap : LuaHeap ι) : LuaCell ι → Bool
  | .ref x => heap.answers x
  | _ => true

/-- `lua_isfunction`. -/
def LuaCell.isFunction : LuaCell ι → Bool
  | .function => true
  | _ => false

def LuaNumbers.string (numbers : LuaNumbers) (data : Bytes) : LuaCell ι :=
  .new (.new (.string data (numbers.reads data)))

/-- `lua_settable(l, -3)` on a table that `push_value` has made. -/
def luaSetTableOp : StackM (LuaCell ι) Unit := fun s =>
  match s.cells.reverse with
  | .new value :: .integer key :: .new (.new (.table entries)) :: below =>
      some ((), ⟨below.reverse ++ [.new (.new (.table (luaSetTable LuaTree.isNil entries key value)))],
        s.limit⟩)
  | .integer value :: .integer key :: .new (.new (.table entries)) :: below =>
      some ((), ⟨below.reverse ++ [.new (.new (.table (luaSetTable LuaTree.isNil entries key
        (.new (.number (doubleOfInt value))))))], s.limit⟩)
  | _ => none

/-- What `lua_gettable` finds at a key of a table, if that is answered. -/
def LuaHeap.getTable (heap : LuaHeap ι) (table : LuaCell ι) (key : Int) : Option (LuaCell ι) :=
  let entry := ((table.view heap).entries.lookup key).getD (.new (.new .nil))
  if entry.answers heap then some entry else none

/-- `lua_gettable`, for a table so many slots below the top: the entry takes the place of the key. -/
def luaGetTableOp (heap : LuaHeap ι) (depth : Nat) : StackM (LuaCell ι) Unit := do
  let key ← top
  let table ← cellAt depth
  match key with
  | .integer i => do
      let entry ← require (heap.getTable table i)
      replaceTop entry
  | _ => failure

/-! ### `push_value` -/

section Push

variable (numbers : LuaNumbers)

mutual

/-- `push_value`. -/
def pushValueOp : Value → StackM (LuaCell ι) Unit
  | .void => push (.new (.new .nil))
  | .float32 bits => push (.new (.new (.number (ieeeDoubles.widen bits))))
  | .int32 bits => push (.integer bits.toInt)
  | .boolean b => push (.new (.new (.boolean b)))
  | .string str => push (numbers.string str.bytes)
  | .array data => do
      push (.new (.new (.table [])))
      pushEntriesOp data 0

/-- The loop of `push_value` over the elements of an array. -/
def pushEntriesOp : List Value → (i : Int) → StackM (LuaCell ι) Unit
  | [], _ => pure ()
  | value :: data, i => do
      push (.integer i)
      pushValueOp value
      luaSetTableOp
      pushEntriesOp data (i + 1)

end

/-- The slot that `push_value` fills. -/
def valueCell : Value → LuaCell ι
  | .int32 bits => .integer bits.toInt
  | value => .new (pushValue numbers.reads value)

/-- The slots that `push_value` needs: two for each array on the way down, its table and a key, and one
for the object inside. -/
def pushRoom (value : Value) : Nat := 2 * value.depth - 1

variable {numbers}

theorem luaSetTableOp_exact (entries : List (Int × LuaTree)) (key : Int) (value : Value) :
    Exact luaSetTableOp
      ([.new (.new (.table entries)), .integer key] ++ [(valueCell numbers value : LuaCell ι)])
      (fun _ => True) (· = ())
      [.new (.new (.table (luaSetTable LuaTree.isNil entries key (pushValue numbers.reads value))))] where
  height room hroom _ := Nat.le_trans (Nat.le_add_left 1 2) hroom
  run s _ _ _ := by
    refine ⟨(), rfl, ?_⟩
    cases value <;> simp [luaSetTableOp, Stack.append, valueCell, pushValue]
  stuck _ _ _ hnot := absurd trivial hnot

theorem pushEntriesOp_exact {data : List Value}
    (hdata : ∀ value ∈ data, Exact (pushValueOp numbers value) [] (pushRoom value ≤ ·) (· = ())
      [(valueCell numbers value : LuaCell ι)]) (i : Int) (entries : List (Int × LuaTree)) :
    Exact (pushEntriesOp numbers data i) [(.new (.new (.table entries)) : LuaCell ι)]
      (2 * Value.depthOfList data + 1 ≤ ·) (· = ())
      [.new (.new (.table (pushEntries numbers.reads data i entries)))] := by
  induction data generalizing i entries with
  | nil => exact (Exact.pure () _).congr (fun room hroom => iff_of_true trivial hroom) fun _ _ => rfl
  | cons value data ih =>
      obtain ⟨hvalue, hrest⟩ := List.forall_mem_cons.mp hdata
      have hkey := Exact.push (.integer i) [(.new (.new (.table entries)) : LuaCell ι)]
      have hpush := hvalue.frame [.new (.new (.table entries)), .integer i]
      have hset := @luaSetTableOp_exact ι numbers entries i value
      have hloop := ih hrest (i + 1) (luaSetTable LuaTree.isNil entries i (pushValue numbers.reads value))
      have hbody := hkey.bind fun _ _ => hpush.bind fun _ _ => hset.bind fun _ _ => hloop
      refine hbody.congr (fun room _ => ?_) fun _ h => h
      have hpos := value.depth_pos
      simp only [pushRoom, Value.depthOfList, List.length_cons, List.length_nil]
      constructor
      · rintro ⟨-, hvalue, -, hdata⟩
        omega
      · intro hroom
        refine ⟨?_, ?_, trivial, hroom.trans' ?_⟩ <;> omega

/-- `push_value` pushes one object, and it needs as many slots as `pushRoom` says. -/
theorem pushValueOp_exact (value : Value) :
    Exact (pushValueOp numbers value) [] (pushRoom value ≤ ·) (· = ())
      [(valueCell numbers value : LuaCell ι)] := by
  induction value using Value.induction with
  | array data ih =>
      have hnew := Exact.push (.new (.new (.table [])) : LuaCell ι) []
      have hbody := hnew.bind fun _ _ => pushEntriesOp_exact ih 0 []
      refine hbody.congr (fun room _ => ?_) fun _ h => h
      simp only [pushRoom, Value.depth, List.length_nil]
      omega
  | _ => exact .push _ []

end Push

/-! ### `lua_to_value` -/

/-- So many slots are enough to go through an object: each table on the way down needs one. -/
def fitsSlots {κ : Type} (heap : κ → LuaObject κ) : (room : Nat) → κ → Bool
  | 0, x => !(heap x).isTable
  | room + 1, x => (luaItems heap x).all (fitsSlots heap room)

section ToValue

variable (doubles : Doubles) (heap : LuaHeap ι)

/-- The loop of `lua_to_value` over the keys of a table from `i` on, for no more than some rounds. -/
def luaTableLoopOp (call : StackM (LuaCell ι) Converted) (depth : Nat) :
    (rounds : Nat) → (i : Int) → ArrayLoop → StackM (LuaCell ι) Converted
  | 0, _, array => pure array.finish
  | rounds + 1, i, array => do
      push (.integer i)
      luaGetTableOp heap (depth + 1)
      let entry ← top
      if (entry.view heap).isNil then do
        pop 1
        pure array.finish
      else do
        let result ← call
        pop 1
        luaTableLoopOp call depth rounds (i + 1) (array.append result)

/-- `lua_to_value(li, idx)`, for the negative index of a slot so many below the top, with some frames for
its recursion. -/
def luaToValueOp : (frames depth : Nat) → StackM (LuaCell ι) Converted
  | 0, depth => do
      let cell ← cellAt depth
      if (cell.view heap).isTable then failure
      else require ((luaToValue doubles (LuaCell.view heap) (cell.view heap)).eval fun _ => none)
  | frames + 1, depth => do
      let cell ← cellAt depth
      if (cell.view heap).isTable then
        luaTableLoopOp heap (luaToValueOp frames 0) depth ((cell.view heap).entries.length + 1) 0 .start
      else require ((luaToValue doubles (LuaCell.view heap) (cell.view heap)).eval fun _ => none)

/-- `lua_to_value(li, idx)`. A call inside a table has pushed an element before, so that there cannot be
more calls inside each other than slots. -/
def luaToValueSlot (depth : Nat) : StackM (LuaCell ι) Converted := fun s =>
  luaToValueOp doubles heap s.free depth s

/-- So many slots are enough, and all elements are answered. -/
def LuaHeap.reads : (room : Nat) → LuaCell ι → Bool
  | 0, cell => !(cell.view heap).isTable
  | room + 1, cell => (luaItems (LuaCell.view heap) cell).all fun entry =>
      entry.answers heap && LuaHeap.reads room entry

variable {doubles heap}

theorem LuaCell.answers_of_isNil {cell : LuaCell ι} (hnil : (cell.view heap).isNil = true) :
    cell.answers heap = true := by
  cases cell with
  | ref x =>
      apply heap.nil_answers
      rw [view] at hnil
      cases hx : heap.object x with
      | nil => rfl
      | _ =>
          rw [hx] at hnil
          cases hnil
  | _ => rfl

theorem luaGetTableOp_run {s : Stack (LuaCell ι)} (hroom : 1 ≤ s.free) {depth : Nat} {cell : LuaCell ι}
    (hcell : s.fromTop depth = some cell) (i : Int) :
    luaGetTableOp heap (depth + 1) (s.append [.integer i])
      = (heap.getTable cell i).map fun entry => ((), s.append [entry]) := by
  show (top (s.append [.integer i])).bind _ = _
  rw [top_append]
  show (cellAt (depth + 1) (s.append [.integer i])).bind _ = _
  rw [cellAt, Stack.fromTop_append_succ, hcell]
  show (require (heap.getTable cell i) (s.append [.integer i])).bind _ = _
  rw [require]
  cases heap.getTable cell i with
  | none => rfl
  | some entry => exact replaceTop_append _ entry hroom

theorem luaItems_leaf {κ : Type} {heap : κ → LuaObject κ} {x : κ} (hleaf : (heap x).isTable = false) :
    luaItems heap x = [] := by
  unfold luaItems
  cases hx : heap x with
  | table entries =>
      rw [hx] at hleaf
      cases hleaf
  | _ => rfl

theorem luaToValue_leaf {κ : Type} (doubles : Doubles) {heap : κ → LuaObject κ} {x : κ}
    (hleaf : (heap x).isTable = false) : ∃ converted, luaToValue doubles heap (heap x) = .done converted := by
  cases hx : heap x with
  | table entries =>
      rw [hx] at hleaf
      cases hleaf
  | string data reads => cases reads <;> exact ⟨_, rfl⟩
  | _ => exact ⟨_, rfl⟩

/-- What a call on a slot comes to: the value of the object in it where that can be read, with the stack as
it was, and nothing where it cannot. -/
def CallRuns (doubles : Doubles) (heap : LuaHeap ι) (call : StackM (LuaCell ι) Converted) (reads : Bool)
    (cell : LuaCell ι) (s : Stack (LuaCell ι)) : Prop :=
  (reads = true → ∃ converted, Returns (luaBody doubles (LuaCell.view heap)) cell converted ∧
    call s = some (converted, s)) ∧
  (reads = false → call s = none)

/-- One round of the loop over a table: the entry at the next key is on top. -/
theorem luaTableLoopOp_entry {s : Stack (LuaCell ι)} (hroom : 1 ≤ s.free) {depth : Nat} {cell : LuaCell ι}
    (hcell : s.fromTop depth = some cell) (heap : LuaHeap ι) (call : StackM (LuaCell ι) Converted)
    (rounds : Nat) (i : Int) (array : ArrayLoop) :
    luaTableLoopOp heap call depth (rounds + 1) i array s =
      (heap.getTable cell i).bind fun entry =>
        if (entry.view heap).isNil then some (array.finish, s)
        else (call (s.append [entry])).bind fun result =>
          (pop 1 result.2).bind fun popped =>
            luaTableLoopOp heap call depth rounds (i + 1) (array.append result.1) popped.2 := by
  show (push (.integer i) s).bind _ = _
  rw [push_append _ hroom]
  show (luaGetTableOp heap (depth + 1) (s.append [.integer i])).bind _ = _
  rw [luaGetTableOp_run hroom hcell]
  cases heap.getTable cell i with
  | none => rfl
  | some entry =>
      show (top (s.append [entry])).bind _ = _
      rw [top_append]
      show (if (entry.view heap).isNil then _ else _ : StackM (LuaCell ι) Converted) _ = _
      by_cases hnil : (entry.view heap).isNil = true
      · simp only [if_pos hnil, Option.bind_some]
        show (pop 1 (s.append [entry])).bind _ = _
        have hpop : pop 1 (s.append [entry]) = some ((), s) := pop_append [entry] s
        rw [hpop]
        rfl
      · simp only [if_neg hnil, Option.bind_some]
        rfl

/-- The loop over a table, with a slot left for the key, if the calls on the elements come to what they
should. -/
theorem luaTableLoopOp_run {call : StackM (LuaCell ι) Converted} {reads : LuaCell ι → Bool}
    {s : Stack (LuaCell ι)} (hroom : 1 ≤ s.free) {depth : Nat} {cell : LuaCell ι}
    (hcell : s.fromTop depth = some cell)
    (hcall : ∀ entry, CallRuns doubles heap call (reads entry) entry (s.append [entry])) (rounds : Nat)
    (i : Int) (array : ArrayLoop) :
    let elements := luaElements (fun entry => (LuaCell.view heap entry).isNil) (cell.view heap).entries
      rounds i
    let good := elements.all fun entry => entry.answers heap && reads entry
    (good = true → ∃ results,
      List.Forall₂ (Returns (luaBody doubles (LuaCell.view heap))) elements results ∧
      luaTableLoopOp heap call depth rounds i array s
        = some ((results.foldl ArrayLoop.append array).finish, s)) ∧
    (good = false → luaTableLoopOp heap call depth rounds i array s = none) := by
  induction rounds generalizing i array with
  | zero => exact ⟨fun _ => ⟨[], .nil, rfl⟩, fun h => by cases h⟩
  | succ rounds ih =>
      have hround := luaTableLoopOp_entry hroom hcell heap call rounds i array
      rw [LuaHeap.getTable] at hround
      simp only [luaElements, hround]
      cases hlookup : (cell.view heap).entries.lookup i with
      | none => exact ⟨fun _ => ⟨[], .nil, rfl⟩, fun h => by cases h⟩
      | some entry =>
          rw [Option.getD_some]
          by_cases hnil : (entry.view heap).isNil = true
          · simp only [hnil, LuaCell.answers_of_isNil hnil, if_true, Option.bind_some]
            exact ⟨fun _ => ⟨[], .nil, rfl⟩, fun h => by cases h⟩
          simp only [hnil, Bool.false_eq_true, if_false, List.all_cons]
          cases hanswers : entry.answers heap with
          | false => simp
          | true =>
              simp only [if_true, Option.bind_some, Bool.true_and, if_neg hnil]
              obtain ⟨hreads, hnot⟩ := hcall entry
              have hpop : pop 1 (s.append [entry]) = some ((), s) := pop_append [entry] s
              constructor
              · intro hall
                obtain ⟨hentry, hrest⟩ := Bool.and_eq_true_iff.mp hall
                obtain ⟨converted, hreturns, hrun⟩ := hreads hentry
                obtain ⟨results, hresults, hloop⟩ := (ih (i + 1) (array.append converted)).1 hrest
                refine ⟨converted :: results, .cons hreturns hresults, ?_⟩
                rw [hrun, Option.bind_some, hpop]
                exact hloop
              · intro hall
                cases hentry : reads entry with
                | false =>
                    rw [hnot hentry]
                    rfl
                | true =>
                    rw [hentry, Bool.true_and] at hall
                    obtain ⟨converted, -, hrun⟩ := hreads hentry
                    rw [hrun, Option.bind_some, hpop]
                    exact (ih (i + 1) (array.append converted)).2 hall

theorem luaToValueOp_leaf {cell : LuaCell ι} (hleaf : (cell.view heap).isTable = false) (frames : Nat)
    {s : Stack (LuaCell ι)} {depth : Nat} (hcell : s.fromTop depth = some cell) :
    ∃ converted, Returns (luaBody doubles (LuaCell.view heap)) cell converted ∧
      luaToValueOp doubles heap frames depth s = some (converted, s) := by
  obtain ⟨converted, hout⟩ := luaToValue_leaf doubles hleaf
  have hreturns : Returns (luaBody doubles (LuaCell.view heap)) cell converted := by
    have hbody : luaBody doubles (LuaCell.view heap) cell = .done converted := hout
    rw [returns_iff, hbody]
    exact .done converted
  refine ⟨converted, hreturns, ?_⟩
  cases frames with
  | zero | succ frames =>
      show (cellAt depth s).bind _ = _
      rw [cellAt, hcell]
      show (if (cell.view heap).isTable then _ else _ : StackM (LuaCell ι) Converted) _ = _
      rw [if_neg (by rw [hleaf]; decide), hout]
      rfl

/-- **`lua_to_value` with some slots.** It comes to the value of the object in a slot if the slots that are
left are enough and all elements are answered, and to nothing otherwise. -/
theorem luaToValueOp_run (doubles : Doubles) (heap : LuaHeap ι) (room : Nat) (cell : LuaCell ι)
    {s : Stack (LuaCell ι)} (hvalid : s.Valid) (hroom : s.free = room) {depth : Nat} (hcell : s.fromTop depth = some cell) :
    CallRuns doubles heap (luaToValueOp doubles heap room depth) (heap.reads room cell) cell s := by
  induction room generalizing cell s depth with
  | zero =>
      cases htable : (cell.view heap).isTable with
      | false => exact ⟨fun _ => luaToValueOp_leaf htable 0 hcell, by simp [LuaHeap.reads, htable]⟩
      | true =>
          refine ⟨by simp [LuaHeap.reads, htable], fun _ => ?_⟩
          show (cellAt depth s).bind _ = _
          rw [cellAt, hcell]
          show (if (cell.view heap).isTable then _ else _ : StackM (LuaCell ι) Converted) _ = _
          rw [if_pos htable]
          rfl
  | succ room ih =>
      cases htable : (cell.view heap).isTable with
      | false =>
          refine ⟨fun _ => luaToValueOp_leaf htable (room + 1) hcell, fun hnot => ?_⟩
          rw [LuaHeap.reads, luaItems_leaf htable] at hnot
          cases hnot
      | true =>
          obtain ⟨entries, hentries⟩ := LuaObject.exists_entries htable
          have hpushed : ∀ entry : LuaCell ι, (s.append [entry]).Valid := fun entry =>
            Stack.valid_append hvalid (by rw [hroom, List.length_singleton]; omega)
          have hcall : ∀ entry, CallRuns doubles heap (luaToValueOp doubles heap room 0)
              (heap.reads room entry) entry (s.append [entry]) := fun entry =>
            ih entry (hpushed entry) (by rw [Stack.free_append, hroom]; rfl) (Stack.fromTop_append_zero s entry)
          have hloop := luaTableLoopOp_run (by omega) hcell hcall ((cell.view heap).entries.length + 1) 0 .start
          have hbody : luaBody doubles (LuaCell.view heap) cell
              = convertAll (luaItems (LuaCell.view heap) cell) := by
            unfold luaBody luaItems
            rw [hentries]
            rfl
          have hrun : luaToValueOp doubles heap (room + 1) depth s
              = luaTableLoopOp heap (luaToValueOp doubles heap room 0) depth
                  ((cell.view heap).entries.length + 1) 0 .start s := by
            show (cellAt depth s).bind _ = _
            rw [cellAt, hcell]
            show (if (cell.view heap).isTable then _ else _ : StackM (LuaCell ι) Converted) _ = _
            rw [if_pos htable]
          rw [CallRuns, hrun]
          refine ⟨fun hreads => ?_, hloop.2⟩
          obtain ⟨results, hresults, heq⟩ := hloop.1 hreads
          refine ⟨_, ?_, heq⟩
          rw [returns_iff, hbody, ends_convertAll_iff]
          exact ⟨results, hresults, ArrayLoop.finish_start results⟩

theorem luaToValueSlot_exact (cell : LuaCell ι) :
    Exact (luaToValueSlot doubles heap 0) [cell] (fun room => heap.reads (room - 1) cell)
      (Returns (luaBody doubles (LuaCell.view heap)) cell) [cell] where
  height _ hroom _ := hroom
  run s hvalid hroom hreads := by
    have hpushed : (s.append [cell]).Valid := Stack.valid_append hvalid hroom
    have hrun := luaToValueOp_run doubles heap _ cell hpushed Stack.free_append
      (Stack.fromTop_append_zero s cell)
    rw [luaToValueSlot, Stack.free_append]
    exact hrun.1 hreads
  stuck s hvalid hroom hnot := by
    have hpushed : (s.append [cell]).Valid := Stack.valid_append hvalid hroom
    have hrun := luaToValueOp_run doubles heap _ cell hpushed Stack.free_append
      (Stack.fromTop_append_zero s cell)
    rw [luaToValueSlot, Stack.free_append]
    exact hrun.2 (Bool.not_eq_true _ ▸ hnot)

end ToValue

/-! ### The same objects under other references -/

section Map

variable {κ : Type} {f : ι → κ} {heap : ι → LuaObject ι} {other : κ → LuaObject κ}

@[simp] theorem LuaObject.isNil_map (f : ι → κ) (o : LuaObject ι) : (o.map f).isNil = o.isNil := by
  cases o <;> rfl

@[simp] theorem LuaObject.isTable_map (f : ι → κ) (o : LuaObject ι) : (o.map f).isTable = o.isTable := by
  cases o <;> rfl

@[simp] theorem LuaObject.entries_map (f : ι → κ) (o : LuaObject ι) :
    (o.map f).entries = o.entries.map fun entry => (entry.1, f entry.2) := by
  cases o <;> rfl

theorem luaElements_map {isNil : ι → Bool} {isNil' : κ → Bool} (hnil : ∀ x, isNil' (f x) = isNil x)
    (entries : List (Int × ι)) (keys : Nat) (i : Int) :
    luaElements isNil' (entries.map fun entry => (entry.1, f entry.2)) keys i
      = (luaElements isNil entries keys i).map f := by
  have hlookup : ∀ i, (entries.map fun entry => (entry.1, f entry.2)).lookup i
      = (entries.lookup i).map f := by
    intro i
    induction entries with
    | nil => rfl
    | cons entry entries ih =>
        obtain ⟨key, x⟩ := entry
        rw [List.map_cons, lookup_cons_ite, lookup_cons_ite, ih]
        split <;> rfl
  induction keys generalizing i with
  | zero => rfl
  | succ keys ih =>
      rw [luaElements, luaElements, hlookup]
      cases entries.lookup i with
      | none => rfl
      | some entry =>
          simp only [Option.map_some, hnil, ih]
          split <;> rfl

variable (hother : ∀ x, other (f x) = (heap x).map f)

include hother

theorem luaItems_map (x : ι) : luaItems other (f x) = (luaItems heap x).map f := by
  unfold luaItems LuaObject.items
  rw [hother, LuaObject.entries_map, List.length_map]
  exact luaElements_map (fun y => by rw [hother, LuaObject.isNil_map]) _ _ _

theorem returns_luaBody_map (doubles : Doubles) {x : ι} {r : Converted} :
    Returns (luaBody doubles other) (f x) r ↔ Returns (luaBody doubles heap) x r := by
  apply returns_map_iff
  intro x
  have hitems : (other (f x)).items other = ((heap x).items heap).map f := luaItems_map hother x
  unfold luaBody
  rw [hother] at hitems ⊢
  cases hx : heap x with
  | table entries =>
      rw [hx] at hitems
      show convertAll (((LuaObject.table entries).map f).items other) = (convertAll _).map f
      rw [hitems, convertAll, convertAll, forEach_map]
  | string data reads => cases reads <;> rfl
  | _ => rfl

end Map

/-! ### What can be read -/

section Reads

variable {heap : LuaHeap ι}

theorem view_new (tree : LuaTree) : LuaCell.view heap (.new tree) = tree.object.map .new := rfl

theorem reads_new (room : Nat) (tree : LuaTree) :
    heap.reads room (.new tree) = fitsSlots LuaTree.object room tree := by
  induction room generalizing tree with
  | zero => rw [LuaHeap.reads, fitsSlots, view_new, LuaObject.isTable_map]
  | succ room ih =>
      rw [LuaHeap.reads, fitsSlots, luaItems_map view_new, List.all_map]
      refine congrArg (luaItems LuaTree.object tree).all (funext fun entry => ?_)
      exact ih entry

end Reads

/-! ### Out and back -/

/-- The slots that a value needs to go out and come back: those it is pushed with, which leave enough to
read it unless it is an array without elements. -/
def tripRoom : Value → Nat
  | .array [] => 2
  | value => pushRoom value

section Trip

variable {numbers : LuaNumbers} {heap : LuaHeap ι}

theorem fitsSlots_pushValue {readsNumber : Bytes → Option (BitVec 64)} {room : Nat} {value : Value}
    (hdepth : value.depth ≤ room) : fitsSlots LuaTree.object room (pushValue readsNumber value) = true := by
  induction value using Value.induction generalizing room with
  | array data ih =>
      rw [Value.depth] at hdepth
      obtain ⟨room, rfl⟩ : ∃ k, room = k + 1 := ⟨room - 1, by omega⟩
      rw [fitsSlots, items_pushValue, List.all_map, List.all_eq_true]
      intro entry hentry
      have hmem := List.takeWhile_subset _ hentry
      exact ih entry hmem (Value.depthOfList_le.mp (Nat.le_of_succ_le_succ hdepth) entry hmem)
  | _ => cases room <;> rfl

theorem tripRoom_le_iff {readsNumber : Bytes → Option (BitVec 64)} {room : Nat} (value : Value) :
    tripRoom value ≤ room ↔ pushRoom value ≤ room ∧
      fitsSlots LuaTree.object (room - 1) (pushValue readsNumber value) = true := by
  rcases value with _ | _ | _ | _ | _ | data
  case array =>
    cases data with
    | nil =>
        rcases room with _ | _ | room
        · simp [tripRoom, pushRoom, Value.depth, Value.depthOfList]
        · simp [tripRoom, fitsSlots, pushValue, LuaTree.object, LuaObject.isTable]
        · refine iff_of_true (by simp [tripRoom]) ⟨?_, fitsSlots_pushValue ?_⟩
          · simp [pushRoom, Value.depth, Value.depthOfList]
          · simp [Value.depth, Value.depthOfList]
    | cons entry data =>
        have hdepth : 2 ≤ (Value.array (entry :: data)).depth := by
          have hpos := entry.depth_pos
          rw [Value.depth, Value.depthOfList]
          omega
        rw [tripRoom, iff_self_and]
        · intro hroom
          rw [pushRoom] at hroom
          exact fitsSlots_pushValue (by omega)
        · simp
  all_goals
    rw [tripRoom, iff_self_and]
    · intro _
      generalize room - 1 = left
      cases left <;> rfl
    · simp

theorem returns_valueCell_iff (value : Value) {r : Converted} :
    Returns (luaBody ieeeDoubles (LuaCell.view heap)) (valueCell numbers value) r ↔
      Returns (luaBody ieeeDoubles LuaTree.object) (pushValue numbers.reads value) r := by
  cases value with
  | int32 bits =>
      rw [returns_iff, returns_iff]
      have hbody : luaBody ieeeDoubles (LuaCell.view heap) (.integer bits.toInt)
          = .done (.value (.ofValue (.float32 (ieeeDoubles.narrow (doubleOfInt bits.toInt))))) := rfl
      show Ends _ (luaBody ieeeDoubles (LuaCell.view heap) (.integer bits.toInt)) r ↔ _
      rw [hbody]
      constructor
      · intro h
        cases h
        exact .done _
      · intro h
        cases h
        exact .done _
  | _ => exact returns_luaBody_map view_new ieeeDoubles

/-- `push_value` and then `lua_to_value(li, -1)`. -/
def luaTripOp (numbers : LuaNumbers) (heap : LuaHeap ι) (value : Value) : StackM (LuaCell ι) Converted := do
  pushValueOp numbers value
  luaToValueSlot ieeeDoubles heap 0

theorem luaTripOp_exact (value : Value) :
    Exact (luaTripOp numbers heap value) [] (tripRoom value ≤ ·)
      (Returns (luaBody ieeeDoubles LuaTree.object) (pushValue numbers.reads value))
      [(valueCell numbers value : LuaCell ι)] := by
  have hpush := @pushValueOp_exact ι numbers value
  have hread := @luaToValueSlot_exact ι ieeeDoubles heap (valueCell numbers value)
  refine (hpush.bind fun _ _ => hread).congr (fun room _ => ?_) fun r => (returns_valueCell_iff value).mp
  have hreads : heap.reads (room - 1) (valueCell numbers value)
      = fitsSlots LuaTree.object (room - 1) (pushValue numbers.reads value) := by
    cases value with
    | int32 bits => cases room - 1 <;> rfl
    | _ => exact reads_new _ _
  rw [hreads, tripRoom_le_iff]

/-- A value goes out to Lua and comes back as a tree of the same shape, with the same strings and booleans
and with equal numbers. -/
def LuaTripsBack (numbers : LuaNumbers) (heap : LuaHeap ι) (s : Stack (LuaCell ι)) (value : Value) : Prop :=
  ∃ r back after, luaTripOp numbers heap value s = some (r, after) ∧ r.ref = .ofValue back ∧
    value.Alike Value.SameNumber back

end Trip

/-- **Values through Lua.** On any stack of a Lua state a value comes back if and only if there are slots
enough for it, it is `void` or has no `void` in it, Lua reads no string in it as a number, and no integer
in it has more digits than a `float`. -/
theorem luaTripsBack_iff (numbers : LuaNumbers) (heap : LuaHeap ι) {s : Stack (LuaCell ι)}
    (hvalid : s.Valid) (value : Value) :
    LuaTripsBack numbers heap s value ↔ tripRoom value ≤ s.free ∧
      (value = .void ∨ ValueType.void ∉ value.types) ∧
      (∀ str ∈ value.strings, numbers.reads str.bytes = none) ∧
      ∀ bits ∈ value.integers, FitsDigits .binary32 bits.toInt := by
  have htrip := @luaTripOp_exact ι numbers heap value
  rw [← treeTripsBack_iff numbers.reads value]
  by_cases hroom : tripRoom value ≤ s.free
  · obtain ⟨r, hr, hrun⟩ := htrip.run s hvalid (Nat.zero_le _) hroom
    rw [Stack.append_nil] at hrun
    constructor
    · rintro ⟨other, back, after, hother, hback⟩
      obtain ⟨rfl, rfl⟩ := Prod.mk.inj (Option.some.inj (hrun.symm.trans hother))
      exact ⟨hroom, r, back, hr, hback⟩
    · rintro ⟨-, other, back, hother, hback⟩
      obtain rfl := hother.unique hr
      exact ⟨_, back, _, hrun, hback⟩
  · have hstuck := htrip.stuck s hvalid (Nat.zero_le _) hroom
    rw [Stack.append_nil] at hstuck
    constructor
    · rintro ⟨r, back, after, hrun, -⟩
      rw [hstuck] at hrun
      cases hrun
    · exact fun h => absurd h.1 hroom

/-- A Lua state without objects of the guest, in which no string is read as a number. -/
def emptyLuaHeap : LuaHeap Empty where
  object x := x.elim
  answers _ := true
  nil_answers _ _ := rfl

def noNumbers : LuaNumbers := ⟨fun _ => none, fun _ => []⟩

/-- An array in an array, in a new state. -/
theorem luaTripsBack_new_state :
    LuaTripsBack noNumbers emptyLuaHeap ⟨[], luaMinStack⟩
      (.array [.array [.boolean true], .string (CString.lit "a")]) :=
  (luaTripsBack_iff noNumbers emptyLuaHeap (Nat.zero_le _) _).mpr
    ⟨by decide, Or.inr (by decide), fun _ _ => rfl, fun _ hbits => (List.not_mem_nil hbits).elim⟩

/-- An array with a `void` in it comes back shorter, whatever room there is. -/
theorem void_not_luaTripsBack :
    ¬ ∀ (s : Stack (LuaCell Empty)) (value : Value), s.Valid → tripRoom value ≤ s.free →
      LuaTripsBack noNumbers emptyLuaHeap s value := by
  intro h
  have hvoid := (luaTripsBack_iff noNumbers emptyLuaHeap (s := ⟨[], luaMinStack⟩) (Nat.zero_le _)
    (.array [.void])).mp (h _ _ (Nat.zero_le _) (by decide))
  exact absurd hvoid.2.1 (by decide)

end CageKeeper
