import CageKeeper.ValueNumbers

/-! `lua_to_value` on the stack of a Lua state. It finds its object at an index that counts from the
bottom or from the top, moves the top while it goes through a table, and calls itself on the top. Every
call leaves the stack as it was, and makes of the object in a slot what `luaToValue` makes of it. -/

namespace CageKeeper
open ByteStream RecursiveCalls

theorem LuaObject.exists_entries {ι : Type} {o : LuaObject ι} (h : o.isTable = true) :
    ∃ entries, o = .table entries := by
  cases o with
  | table entries => exact ⟨entries, rfl⟩
  | _ => cases h

/-- A slot of the stack: an object that was pushed, or a reference. -/
inductive LuaSlot (ι : Type) where
  | nil
  | integer (i : Int)
  | ref (x : ι)

def LuaSlot.object {ι : Type} (heap : ι → LuaObject ι) : LuaSlot ι → LuaObject ι
  | .nil => .nil
  | .integer i => .number (doubleOfInt i)
  | .ref x => heap x

/-- The stack of a Lua state, from the bottom up. -/
abbrev LuaStack (ι : Type) := List (LuaSlot ι)

namespace LuaStack

variable {ι : Type}

/-- `lua_gettop`. -/
def gettop (stack : LuaStack ι) : Int := stack.length

/-- The slot at an index, which counts from the bottom if it is positive and from the top if it is
negative. -/
def slotAt (stack : LuaStack ι) (idx : Int) : Option (LuaSlot ι) :=
  if 0 < idx then stack[(idx - 1).toNat]?
  else if idx < 0 ∧ 0 ≤ gettop stack + idx then stack[(gettop stack + idx).toNat]?
  else none

/-- `lua_pushinteger`. -/
def pushInteger (stack : LuaStack ι) (i : Int) : LuaStack ι := stack ++ [.integer i]

/-- `lua_pop`. -/
def pop (stack : LuaStack ι) (n : Nat) : LuaStack ι := stack.take (stack.length - n)

variable (heap : ι → LuaObject ι)

def objectAt (stack : LuaStack ι) (idx : Int) : Option (LuaObject ι) :=
  (slotAt stack idx).map (LuaSlot.object heap)

/-- `lua_gettable` without metatables: the entry of the table at an index takes the place of its key
on top. -/
def gettable (stack : LuaStack ι) (idx : Int) : LuaStack ι :=
  let entry := match slotAt stack (-1), objectAt heap stack idx with
    | some (.integer i), some o => (o.entries.lookup i).elim .nil .ref
    | _, _ => .nil
  pop stack 1 ++ [entry]

/-- `lua_isnil`. -/
def isnil (stack : LuaStack ι) (idx : Int) : Bool := (objectAt heap stack idx).any LuaObject.isNil

variable {heap}

theorem pop_append (stack : LuaStack ι) (slot : LuaSlot ι) : pop (stack ++ [slot]) 1 = stack := by
  unfold pop
  rw [List.length_append, List.length_singleton, Nat.add_sub_cancel, List.take_left]

theorem gettop_push (stack : LuaStack ι) (slot : LuaSlot ι) :
    gettop (stack ++ [slot]) = gettop stack + 1 := by
  unfold gettop
  rw [List.length_append, List.length_singleton, Int.natCast_add]
  rfl

theorem slotAt_top (stack : LuaStack ι) (slot : LuaSlot ι) :
    slotAt (stack ++ [slot]) (-1) = some slot := by
  have hgettop : gettop (stack ++ [slot]) = stack.length + 1 := gettop_push stack slot
  have htop : (gettop (stack ++ [slot]) + -1).toNat = stack.length := by omega
  unfold slotAt
  rw [if_neg (by decide), if_pos ⟨by decide, by omega⟩, htop, List.getElem?_concat_length]

theorem slotAt_push {stack : LuaStack ι} {idx : Int} {slot : LuaSlot ι}
    (h : slotAt stack idx = some slot) (top : LuaSlot ι) :
    slotAt (stack ++ [top]) (if idx < 0 then idx - 1 else idx) = some slot := by
  have hgettop := gettop_push stack top
  unfold slotAt at h
  by_cases hpos : 0 < idx
  · rw [if_pos hpos] at h
    rw [if_neg (by omega)]
    unfold slotAt
    rw [if_pos hpos, List.getElem?_append_left (List.getElem?_eq_some_iff.mp h).1, h]
  rw [if_neg hpos] at h
  by_cases hbelow : idx < 0 ∧ 0 ≤ gettop stack + idx
  · have hplace : (gettop (stack ++ [top]) + (idx - 1)).toNat = (gettop stack + idx).toNat := by
      omega
    rw [if_pos hbelow] at h
    rw [if_pos hbelow.1]
    unfold slotAt
    rw [if_neg (by omega), if_pos (by omega), hplace,
      List.getElem?_append_left (List.getElem?_eq_some_iff.mp h).1, h]
  · rw [if_neg hbelow] at h
    cases h

theorem not_overflow {stack : LuaStack ι} {idx : Int} {slot : LuaSlot ι}
    (h : slotAt stack idx = some slot) : ¬ gettop stack + idx < 0 := by
  have hgettop : 0 ≤ gettop stack := Int.natCast_nonneg _
  unfold slotAt at h
  split at h
  · omega
  · split at h
    · omega
    · cases h

theorem gettable_pushInteger {stack : LuaStack ι} {idx : Int} {slot : LuaSlot ι}
    (h : slotAt stack idx = some slot) (i : Int) :
    (stack.pushInteger i).gettable heap (if idx < 0 then idx - 1 else idx)
      = stack ++ [((slot.object heap).entries.lookup i).elim .nil .ref] := by
  unfold gettable pushInteger objectAt
  rw [slotAt_top, slotAt_push h, pop_append]
  rfl

theorem isnil_top (stack : LuaStack ι) (slot : LuaSlot ι) :
    isnil heap (stack ++ [slot]) (-1) = (slot.object heap).isNil := by
  unfold isnil objectAt
  rw [slotAt_top]
  rfl

end LuaStack

/-- A call of `lua_to_value`, with the stack it finds. -/
structure LuaCall (ι : Type) where
  stack : LuaStack ι
  idx : Int

/-- The return from a call of `lua_to_value`, with the stack it leaves. -/
structure LuaReturn (ι : Type) where
  stack : LuaStack ι
  converted : Converted

section Stack

variable {ι : Type} (doubles : Doubles) (heap : ι → LuaObject ι)

/-- The loop of `lua_to_value` over the keys of the table at `idx` from `i` on, for no more than some
rounds. -/
def luaTableLoop (idx : Int) :
    (rounds : Nat) → (i : Int) → ArrayLoop → LuaStack ι → Body (LuaCall ι) (LuaReturn ι)
  | 0, _, array, stack => .done ⟨stack, array.finish⟩
  | rounds + 1, i, array, stack =>
      let key := stack.pushInteger i
      let entry := key.gettable heap (if idx < 0 then idx - 1 else idx)
      if entry.isnil heap (-1) then .done ⟨entry.pop 1, array.finish⟩
      else .call ⟨entry, -1⟩ fun result =>
        luaTableLoop idx rounds (i + 1) (array.append result.converted) (result.stack.pop 1)

/-- `lua_to_value`. The rounds of its loop are as many as there can be before a `nil`. -/
def luaToValueAt (call : LuaCall ι) : Body (LuaCall ι) (LuaReturn ι) :=
  let stack := call.stack
  let idx := call.idx
  let o := stack.objectAt heap idx
  if stack.gettop + idx < 0 then
    .done ⟨stack, .failed (languageErrorWith
      (CString.lit "[lua] Stack overflow: idx=%d, top=%d\n") [.int idx, .int stack.gettop])⟩
  else if o.all LuaObject.isNil then .done ⟨stack, .value .void⟩
  else if o.any LuaObject.isBoolean then
    .done ⟨stack, .value (.boolean (o.any LuaObject.toBoolean))⟩
  else if o.any LuaObject.isNumber then
    .done ⟨stack, .value (.float32 (doubles.narrow (o.elim 0 LuaObject.toNumber)))⟩
  else if o.any LuaObject.isNumber then
    .done ⟨stack, .value (.int32 (doubles.toInteger (o.elim 0 LuaObject.toNumber)))⟩
  else if o.any LuaObject.isString then
    .done ⟨stack, .value (.string (CString.ofBytes (o.elim [] LuaObject.toLuaString)))⟩
  else if o.any LuaObject.isTable then
    luaTableLoop heap idx ((o.elim [] LuaObject.entries).length + 1) 0 .start stack
  -- the format has a %d and no argument for it
  else .done ⟨stack, .failed (languageErrorWith
    (CString.lit "Don't know how to process lua type: %d\n") [])⟩

/-! ### One call -/

theorem luaToValueAt_of_none {stack : LuaStack ι} {idx : Int} (h : stack.slotAt idx = none) :
    ∃ converted, luaToValueAt doubles heap ⟨stack, idx⟩ = .done ⟨stack, converted⟩ := by
  have hobject : stack.objectAt heap idx = none := by
    rw [LuaStack.objectAt, h]
    rfl
  simp only [luaToValueAt, hobject]
  split
  · exact ⟨_, rfl⟩
  · exact ⟨_, rfl⟩

theorem luaToValueAt_leaf {stack : LuaStack ι} {idx : Int} {slot : LuaSlot ι}
    (hslot : stack.slotAt idx = some slot) (hleaf : (slot.object heap).isTable = false) :
    ∃ converted, luaToValue doubles heap (slot.object heap) = .done converted ∧
      luaToValueAt doubles heap ⟨stack, idx⟩ = .done ⟨stack, converted⟩ := by
  have hobject : stack.objectAt heap idx = some (slot.object heap) := by
    rw [LuaStack.objectAt, hslot]
    rfl
  simp only [luaToValueAt, hobject, if_neg (LuaStack.not_overflow hslot)]
  generalize slot.object heap = o at hleaf ⊢
  cases o with
  | table entries => cases hleaf
  | string data number => cases number <;> exact ⟨_, rfl, rfl⟩
  | _ => exact ⟨_, rfl, rfl⟩

variable {doubles heap}

theorem luaToValueAt_table {stack : LuaStack ι} {idx : Int} {slot : LuaSlot ι}
    (hslot : stack.slotAt idx = some slot) {entries : List (Int × ι)}
    (htable : slot.object heap = .table entries) :
    luaToValueAt doubles heap ⟨stack, idx⟩
      = luaTableLoop heap idx (entries.length + 1) 0 .start stack := by
  have hobject : stack.objectAt heap idx = some (.table entries) := by
    rw [LuaStack.objectAt, hslot, Option.map_some, htable]
  simp only [luaToValueAt, hobject, if_neg (LuaStack.not_overflow hslot)]
  rfl

/-- One round of the loop: it ends where the elements end, or calls `lua_to_value` on an element that
is pushed. -/
theorem luaTableLoop_cases {stack : LuaStack ι} {idx : Int} {slot : LuaSlot ι}
    (hslot : stack.slotAt idx = some slot) {entries : List (Int × ι)}
    (htable : slot.object heap = .table entries) (rounds : Nat) (i : Int) (array : ArrayLoop) :
    (luaElements (fun entry => (heap entry).isNil) entries (rounds + 1) i = [] ∧
        luaTableLoop heap idx (rounds + 1) i array stack = .done ⟨stack, array.finish⟩) ∨
      ∃ entry, luaElements (fun entry => (heap entry).isNil) entries (rounds + 1) i
          = entry :: luaElements (fun entry => (heap entry).isNil) entries rounds (i + 1) ∧
        luaTableLoop heap idx (rounds + 1) i array stack
          = .call ⟨stack ++ [.ref entry], -1⟩ fun result =>
              luaTableLoop heap idx rounds (i + 1) (array.append result.converted)
                (result.stack.pop 1) := by
  have hentries : (slot.object heap).entries.lookup i = entries.lookup i := by
    rw [htable]
    rfl
  simp only [luaTableLoop, LuaStack.gettable_pushInteger hslot, hentries, LuaStack.isnil_top,
    luaElements]
  cases entries.lookup i with
  | none =>
      left
      simp [LuaSlot.object, LuaObject.isNil, LuaStack.pop_append]
  | some entry =>
      by_cases hnil : (heap entry).isNil = true
      · left
        simp [LuaSlot.object, hnil, LuaStack.pop_append]
      · right
        exact ⟨entry, by simp [hnil], by simp [LuaSlot.object, hnil]⟩

/-! ### All calls -/

/-- What a call leaves: the stack it found, and of the object in the slot what `luaToValue` makes
of it. -/
def CallKeeps (doubles : Doubles) (heap : ι → LuaObject ι) (call : LuaCall ι)
    (result : LuaReturn ι) : Prop :=
  result.stack = call.stack ∧ ∀ slot, call.stack.slotAt call.idx = some slot →
    Ends (luaBody doubles heap) (luaToValue doubles heap (slot.object heap)) result.converted

/-- The loop keeps the stack and converts the elements, if the calls it makes do. -/
theorem luaTableLoop_keeps {answer : LuaCall ι → Option (LuaReturn ι)}
    (hanswer : ∀ call result, answer call = some result → CallKeeps doubles heap call result)
    {stack : LuaStack ι} {idx : Int} {slot : LuaSlot ι} (hslot : stack.slotAt idx = some slot)
    {entries : List (Int × ι)} (htable : slot.object heap = .table entries) {rounds : Nat} {i : Int}
    {array : ArrayLoop} {result : LuaReturn ι}
    (h : (luaTableLoop heap idx rounds i array stack).eval answer = some result) :
    result.stack = stack ∧ Ends (luaBody doubles heap)
      (forEach ArrayLoop.append ArrayLoop.finish
        (luaElements (fun entry => (heap entry).isNil) entries rounds i) array)
      result.converted := by
  induction rounds generalizing i array with
  | zero =>
      cases h
      exact ⟨rfl, .done _⟩
  | succ rounds ih =>
      rcases luaTableLoop_cases hslot htable rounds i array with
        ⟨helements, hloop⟩ | ⟨entry, helements, hloop⟩
      · rw [hloop] at h
        cases h
        rw [helements]
        exact ⟨rfl, .done _⟩
      · rw [hloop] at h
        obtain ⟨entered, hcall, hloop⟩ := Body.eval_call_eq_some.mp h
        obtain ⟨hkept, hconverted⟩ := hanswer _ _ hcall
        rw [hkept, LuaStack.pop_append] at hloop
        obtain ⟨hstack, hrest⟩ := ih hloop
        have hentry : Returns (luaBody doubles heap) entry entered.converted :=
          returns_iff.mpr (hconverted _ (LuaStack.slotAt_top stack _))
        rw [helements]
        exact ⟨hstack, .call hentry hrest⟩

theorem callKeeps {call : LuaCall ι} {result : LuaReturn ι}
    (h : Returns (luaToValueAt doubles heap) call result) : CallKeeps doubles heap call result := by
  refine Returns.rule (fun answer hanswer call result heval => ?_) h
  obtain ⟨stack, idx⟩ := call
  cases hslot : stack.slotAt idx with
  | none =>
      obtain ⟨converted, hbody⟩ := luaToValueAt_of_none doubles heap hslot
      rw [hbody] at heval
      cases heval
      exact ⟨rfl, fun slot hsome => by rw [hslot] at hsome; cases hsome⟩
  | some slot =>
      have hend : result.stack = stack ∧ Ends (luaBody doubles heap)
          (luaToValue doubles heap (slot.object heap)) result.converted := by
        cases htable : (slot.object heap).isTable with
        | true =>
            obtain ⟨entries, hentries⟩ := LuaObject.exists_entries htable
            rw [luaToValueAt_table hslot hentries] at heval
            rw [hentries]
            exact luaTableLoop_keeps hanswer hslot hentries heval
        | false =>
            obtain ⟨converted, hout, hbody⟩ := luaToValueAt_leaf doubles heap hslot htable
            rw [hbody] at heval
            cases heval
            rw [hout]
            exact ⟨rfl, .done _⟩
      refine ⟨hend.1, fun other hother => ?_⟩
      cases hslot.symm.trans hother
      exact hend.2

/-- A call on a slot, however high the stack is, returns what the object in it becomes. -/
def CallReturns (doubles : Doubles) (heap : ι → LuaObject ι) (slot : LuaSlot ι)
    (converted : Converted) : Prop :=
  ∀ stack idx, LuaStack.slotAt stack idx = some slot →
    Returns (luaToValueAt doubles heap) ⟨stack, idx⟩ ⟨stack, converted⟩

theorem luaTableLoop_ends {answer : ι → Option Converted}
    (hanswer : ∀ entry converted, answer entry = some converted →
      CallReturns doubles heap (.ref entry) converted)
    {stack : LuaStack ι} {idx : Int} {slot : LuaSlot ι} (hslot : stack.slotAt idx = some slot)
    {entries : List (Int × ι)} (htable : slot.object heap = .table entries) {rounds : Nat} {i : Int}
    {array : ArrayLoop} {converted : Converted}
    (h : (forEach ArrayLoop.append ArrayLoop.finish
      (luaElements (fun entry => (heap entry).isNil) entries rounds i) array).eval answer
        = some converted) :
    Ends (luaToValueAt doubles heap) (luaTableLoop heap idx rounds i array stack)
      ⟨stack, converted⟩ := by
  induction rounds generalizing i array with
  | zero =>
      cases h
      exact .done _
  | succ rounds ih =>
      rcases luaTableLoop_cases hslot htable rounds i array with
        ⟨helements, hloop⟩ | ⟨entry, helements, hloop⟩
      · rw [helements] at h
        cases h
        rw [hloop]
        exact .done _
      · rw [helements, forEach] at h
        obtain ⟨found, hcall, hrest⟩ := Body.eval_call_eq_some.mp h
        rw [hloop]
        apply Ends.call
        · exact hanswer entry found hcall _ (-1) (LuaStack.slotAt_top stack _)
        · rw [LuaStack.pop_append]
          exact ih hrest

theorem callReturns_of_eval {answer : ι → Option Converted}
    (hanswer : ∀ entry converted, answer entry = some converted →
      CallReturns doubles heap (.ref entry) converted)
    {slot : LuaSlot ι} {converted : Converted}
    (h : (luaToValue doubles heap (slot.object heap)).eval answer = some converted) :
    CallReturns doubles heap slot converted := by
  intro stack idx hslot
  rw [returns_iff]
  cases htable : (slot.object heap).isTable with
  | true =>
      obtain ⟨entries, hentries⟩ := LuaObject.exists_entries htable
      rw [hentries] at h
      rw [luaToValueAt_table hslot hentries]
      exact luaTableLoop_ends hanswer hslot hentries h
  | false =>
      obtain ⟨out, hout, hbody⟩ := luaToValueAt_leaf doubles heap hslot htable
      rw [hout] at h
      cases h
      rw [hbody]
      exact .done _

theorem callReturns {slot : LuaSlot ι} {converted : Converted}
    (h : Ends (luaBody doubles heap) (luaToValue doubles heap (slot.object heap)) converted) :
    CallReturns doubles heap slot converted := by
  obtain ⟨frames, heval⟩ := h.eval
  refine callReturns_of_eval (fun entry found hfound => ?_) heval
  exact Returns.rule (fun answer hanswer _ _ => callReturns_of_eval hanswer) ⟨frames, hfound⟩

/-- **`lua_to_value` on the stack.** A call on a slot leaves the stack as it was, and returns exactly
where and what `luaToValue` does for the object in the slot. -/
theorem returns_luaToValueAt_iff {stack : LuaStack ι} {idx : Int} {slot : LuaSlot ι}
    (hslot : stack.slotAt idx = some slot) {result : LuaReturn ι} :
    Returns (luaToValueAt doubles heap) ⟨stack, idx⟩ result ↔
      result.stack = stack ∧
        Ends (luaBody doubles heap) (luaToValue doubles heap (slot.object heap))
          result.converted := by
  constructor
  · intro h
    obtain ⟨hstack, hconverted⟩ := callKeeps h
    exact ⟨hstack, hconverted slot hslot⟩
  · obtain ⟨kept, converted⟩ := result
    rintro ⟨rfl, hends⟩
    exact callReturns hends _ idx hslot

end Stack

end CageKeeper
