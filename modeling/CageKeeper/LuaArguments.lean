import CageKeeper.LuaRoundTrip
import CageKeeper.LuaStack

/-! The arguments of a call from Lua. `lua_function_proxy` takes them from the top of a stack, and the
stack it takes them from is the one of the interpreter's own state: a coroutine that calls has another
one. -/

namespace CageKeeper
open ByteStream RecursiveCalls

section Reading

variable {ι : Type} (doubles : Doubles) (heap : ι → LuaObject ι)

/-! ### What objects are read as -/

mutual

/-- An object is read as a value: a table as the list of its entries at 0, 1 and so on. -/
def LuaReads : Value → LuaObject ι → Prop
  | .void, o => o = .nil
  | .float32 bits, o => ∃ double, bits = doubles.narrow double ∧
      (o = .number double ∨ ∃ data, o = .string data (some double))
  | .int32 _, _ => False
  | .boolean b, o => o = .boolean b
  | .string str, o => ∃ data, o = .string data none ∧ str = CString.ofBytes data
  | .array data, o => ∃ entries, o = .table entries ∧ LuaLists data entries 0

/-- The entries of a table from `i` up to the first `nil` are read as values. -/
def LuaLists : List Value → List (Int × ι) → (i : Int) → Prop
  | [], entries, i => ∀ entry, entries.lookup i = some entry → heap entry = .nil
  | value :: data, entries, i => ∃ entry, entries.lookup i = some entry ∧ heap entry ≠ .nil ∧
      LuaReads value (heap entry) ∧ LuaLists data entries (i + 1)

end

variable {doubles heap}

theorem LuaObject.isNil_iff {o : LuaObject ι} : o.isNil = true ↔ o = .nil := by
  cases o <;> simp [isNil]

theorem luaLists_iff {data : List Value} {entries : List (Int × ι)} {keys : Nat} {i : Int}
    (hkeys : (luaElements (fun entry => (heap entry).isNil) entries keys i).length < keys) :
    LuaLists doubles heap data entries i ↔
      List.Forall₂ (fun value entry => LuaReads doubles heap value (heap entry)) data
        (luaElements (fun entry => (heap entry).isNil) entries keys i) := by
  induction data generalizing keys i with
  | nil =>
      obtain ⟨keys, rfl⟩ : ∃ k, keys = k + 1 := ⟨keys - 1, by omega⟩
      rw [LuaLists, List.forall₂_nil_left_iff, luaElements]
      cases entries.lookup i with
      | none => simp
      | some entry => simp [← LuaObject.isNil_iff]
  | cons value data ih =>
      obtain ⟨keys, rfl⟩ : ∃ k, keys = k + 1 := ⟨keys - 1, by omega⟩
      rw [LuaLists]
      rw [luaElements] at hkeys ⊢
      cases hlookup : entries.lookup i with
      | none => simp
      | some entry =>
          by_cases hnil : (heap entry).isNil = true
          · have hobject := LuaObject.isNil_iff.mp hnil
            simp only [hnil, if_true]
            simp [hobject]
          · have hobject : heap entry ≠ .nil := fun h => hnil (LuaObject.isNil_iff.mpr h)
            simp only [hlookup, if_neg hnil, List.length_cons] at hkeys ⊢
            rw [List.forall₂_cons, ← ih (Nat.lt_of_succ_lt_succ hkeys)]
            simp [hobject]

theorem forall₂_converts_iff {α : Type} {converts : α → Converted → Prop}
    {reads : Value → α → Prop} {data : List Value} {items : List α}
    (hdata : ∀ value ∈ data, ∀ item, reads value item ↔
      ∃ converted, converts item converted ∧ converted.ref = .ofValue value) :
    List.Forall₂ reads data items ↔
      ∃ results, List.Forall₂ converts items results ∧
        results.map Converted.ref = ValueRef.ofValues data := by
  induction data generalizing items with
  | nil =>
      rw [List.forall₂_nil_left_iff]
      constructor
      · rintro rfl
        exact ⟨[], .nil, rfl⟩
      · rintro ⟨results, hresults, hrefs⟩
        rw [List.map_eq_nil_iff.mp hrefs] at hresults
        exact List.forall₂_nil_right_iff.mp hresults
  | cons value data ih =>
      have hvalue := hdata value (List.mem_cons_self ..)
      have hrest := fun other hmem => hdata other (List.mem_cons_of_mem value hmem)
      constructor
      · intro h
        cases h with
        | cons hfirst hothers =>
            obtain ⟨converted, hconverts, href⟩ := (hvalue _).mp hfirst
            obtain ⟨results, hresults, hrefs⟩ := (ih hrest).mp hothers
            refine ⟨converted :: results, .cons hconverts hresults, ?_⟩
            rw [List.map_cons, href, hrefs, ValueRef.ofValues]
      · rintro ⟨results, hresults, hrefs⟩
        cases hresults with
        | nil => cases hrefs
        | cons hconverts hothers =>
            rw [List.map_cons, ValueRef.ofValues, List.cons.injEq] at hrefs
            exact .cons ((hvalue _).mpr ⟨_, hconverts, hrefs.1⟩)
              ((ih hrest).mpr ⟨_, hothers, hrefs.2⟩)

theorem luaReads_leaf_iff {value : Value} {o : LuaObject ι} (hleaf : o.isTable = false) :
    LuaReads doubles heap value o ↔
      ∃ converted, Ends (luaBody doubles heap) (luaToValue doubles heap o) converted ∧
        converted.ref = .ofValue value := by
  have hdone : ∃ converted, luaToValue doubles heap o = .done converted ∧
      (LuaReads doubles heap value o ↔ converted.ref = .ofValue value) := by
    cases o with
    | table entries => cases hleaf
    | string data number =>
        cases number <;> refine ⟨_, rfl, ?_⟩ <;>
          cases value <;> simp [LuaReads, Converted.value, ValueRef.ofValue, LuaObject.toNumber,
            LuaObject.toLuaString, eq_comm]
    | _ =>
        refine ⟨_, rfl, ?_⟩
        cases value <;> simp [LuaReads, Converted.value, Converted.failed, ValueRef.ofValue,
          LuaObject.toNumber, LuaObject.toBoolean, eq_comm]
  obtain ⟨converted, hbody, hiff⟩ := hdone
  rw [hiff, hbody]
  constructor
  · exact fun href => ⟨converted, .done _, href⟩
  · rintro ⟨other, hother, href⟩
    rwa [eq_of_ends_done hother] at href

theorem luaReads_table_iff {value : Value} {entries : List (Int × ι)}
    (hvalue : ∀ data, value = .array data → ∀ entry ∈ data, ∀ o, LuaReads doubles heap entry o ↔
      ∃ converted, Ends (luaBody doubles heap) (luaToValue doubles heap o) converted ∧
        converted.ref = .ofValue entry) :
    LuaReads doubles heap value (.table entries) ↔
      ∃ converted, Ends (luaBody doubles heap) (luaToValue doubles heap (.table entries))
        converted ∧ converted.ref = .ofValue value := by
  have hloop : luaToValue doubles heap (.table entries)
      = convertAll ((LuaObject.table entries).items heap) := rfl
  have hends : (∃ converted, Ends (luaBody doubles heap) (luaToValue doubles heap (.table entries))
        converted ∧ converted.ref = .ofValue value) ↔
      ∃ results, List.Forall₂ (Returns (luaBody doubles heap))
        ((LuaObject.table entries).items heap) results ∧
        .array (results.map Converted.ref) = ValueRef.ofValue value := by
    simp only [hloop, ends_convertAll_iff]
    constructor
    · rintro ⟨_, ⟨results, hresults, rfl⟩, href⟩
      exact ⟨results, hresults, href⟩
    · rintro ⟨results, hresults, href⟩
      exact ⟨_, ⟨results, hresults, rfl⟩, href⟩
  rw [hends]
  cases value with
  | array data =>
      have hlisted : LuaReads doubles heap (.array data) (.table entries) ↔
          LuaLists doubles heap data entries 0 := by simp [LuaReads]
      have hkeys : (luaElements (fun entry => (heap entry).isNil) entries (entries.length + 1)
          0).length < entries.length + 1 :=
        Nat.lt_succ_of_le (luaElements_length_le _ _ _ _)
      have hentry : ∀ entry ∈ data, ∀ item, LuaReads doubles heap entry (heap item) ↔
          ∃ converted, Returns (luaBody doubles heap) item converted ∧
            converted.ref = .ofValue entry := by
        intro entry hmem item
        rw [hvalue data rfl entry hmem (heap item)]
        simp only [returns_iff]
        rfl
      rw [hlisted, luaLists_iff hkeys, forall₂_converts_iff hentry]
      simp only [ValueRef.ofValue, ValueRef.array.injEq]
      rfl
  | _ => simp [LuaReads, ValueRef.ofValue]

/-- `lua_to_value` makes a value of an object if and only if the object is read as that value. -/
theorem luaReads_iff {value : Value} {o : LuaObject ι} :
    LuaReads doubles heap value o ↔
      ∃ converted, Ends (luaBody doubles heap) (luaToValue doubles heap o) converted ∧
        converted.ref = .ofValue value := by
  induction value using Value.induction generalizing o with
  | array data ih =>
      cases htable : o.isTable with
      | false => exact luaReads_leaf_iff htable
      | true =>
          obtain ⟨entries, rfl⟩ := LuaObject.exists_entries htable
          refine luaReads_table_iff fun data' hdata entry hmem o => ?_
          cases hdata
          exact ih entry hmem
  | _ =>
      cases htable : o.isTable with
      | false => exact luaReads_leaf_iff htable
      | true =>
          obtain ⟨entries, rfl⟩ := LuaObject.exists_entries htable
          exact luaReads_table_iff nofun

/-- What is convertible on the stack: a reference to what converts well, or what was pushed. -/
def Convertible (heap : ι → LuaObject ι) : LuaSlot ι → Prop
  | .ref x => ConvertsWell (luaItems heap) (LuaUnsupported heap) x
  | _ => True

theorem Convertible.luaReads (doubles : Doubles) {slot : LuaSlot ι} (h : Convertible heap slot) :
    ∃ value, LuaReads doubles heap value (slot.object heap) := by
  cases slot with
  | nil => exact ⟨.void, rfl⟩
  | integer i => exact ⟨.float32 (doubles.narrow (doubleOfInt i)), _, rfl, Or.inl rfl⟩
  | ref x =>
      obtain ⟨value, errors, hreturns⟩ := (lua_arrayConverter doubles heap).exists_value h
      exact ⟨value, luaReads_iff.mpr ⟨_, returns_iff.mp hreturns, rfl⟩⟩

end Reading

/-! ### The loop over the parameters -/

/-- The state that a call comes from, and the interpreter's own. They are the same, unless the call
comes from a coroutine: then `l` is the state of the coroutine. -/
structure LuaStates (ι : Type) where
  state : LuaStack ι
  coroutine : Option (LuaStack ι)

/-- The stack that `lua_function_proxy` is called with. -/
def LuaStates.l {ι : Type} (states : LuaStates ι) : LuaStack ι :=
  states.coroutine.getD states.state

/-- How the loop over the parameters ends: with the arguments, and the stack that is left, or with
`luaL_argerror`. -/
inductive LuaArguments (ι : Type) where
  | passed (args : ArrayLoop) (stack : LuaStack ι)
  | argerror (narg : Nat) (extramsg : CString) (errors : List (Option CString))

section Arguments

variable {ι : Type} (doubles : Doubles) (heap : ι → LuaObject ι)

/-- The loop of `lua_function_proxy` from the parameter `i` on, with the stack of the interpreter's
state and frames for the recursion of `lua_to_value`. -/
def functionProxyLoop (frames : Nat) :
    (params : Nat) → (i : Nat) → (j : Int) → ArrayLoop → LuaStack ι → Option (LuaArguments ι)
  | 0, _, _, args, stack => some (.passed args stack)
  | params + 1, i, j, args, stack =>
      match run (luaToValueAt doubles heap) frames ⟨stack, j⟩ with
      | none => none
      | some ⟨_, ⟨.null, errors⟩⟩ =>
          some (.argerror (i + 1) (CString.lit "invalid or missing value") (args.errors ++ errors))
      | some ⟨stack, a⟩ => functionProxyLoop frames params (i + 1) (j + 1) (args.append a) stack

/-- The arguments that `lua_function_proxy` passes on. -/
def functionProxyArguments (frames : Nat) (params : Nat) (states : LuaStates ι) :
    Option (LuaArguments ι) :=
  functionProxyLoop doubles heap frames params 0 (-params) .start states.state

def lastSlots (n : Nat) (stack : LuaStack ι) : LuaStack ι := stack.drop (stack.length - n)

def LuaReadsAll (data : List Value) (slots : LuaStack ι) : Prop :=
  List.Forall₂ (fun value (slot : LuaSlot ι) => LuaReads doubles heap value (slot.object heap))
    data slots

/-- A call from Lua passes the last values of the stack it comes with, and every call of
`lua_to_value` leaves the stack as it was. -/
structure PicksUpArguments (params : Nat) (states : LuaStates ι) : Prop where
  passes : ∃ frames args data,
    functionProxyArguments doubles heap frames params states
      = some (.passed args states.state) ∧
    args.finish.ref = .ofValue (.array data) ∧
    LuaReadsAll doubles heap data (lastSlots params states.l)
  balanced : ∀ call result, Returns (luaToValueAt doubles heap) call result →
    result.stack = call.stack

/-- The stack of the interpreter's own state has as many slots as there are parameters, and the last of
them are read as the same values as those of the stack that the call comes with. -/
def SameArguments (params : Nat) (states : LuaStates ι) : Prop :=
  params ≤ states.state.length ∧
    ∃ data, LuaReadsAll doubles heap data (lastSlots params states.l) ∧
      LuaReadsAll doubles heap data (lastSlots params states.state)

variable {doubles heap}

theorem lastSlots_succ {params : Nat} {stack : LuaStack ι} (hheight : params < stack.length) :
    ∃ slot, stack.slotAt (-(params + 1)) = some slot ∧
      lastSlots (params + 1) stack = slot :: lastSlots params stack := by
  have hplace : stack.length - (params + 1) < stack.length := by omega
  refine ⟨stack[stack.length - (params + 1)], ?_, ?_⟩
  · have hindex : (stack.gettop + -((params : Int) + 1)).toNat = stack.length - (params + 1) := by
      rw [LuaStack.gettop]
      omega
    rw [LuaStack.slotAt, if_neg (by omega), if_pos ⟨by omega, by rw [LuaStack.gettop]; omega⟩,
      hindex, List.getElem?_eq_getElem hplace]
  · have hnext : stack.length - params = stack.length - (params + 1) + 1 := by omega
    rw [lastSlots, lastSlots, hnext, List.drop_eq_getElem_cons hplace]

theorem overflow_null {stack : LuaStack ι} {idx : Int} (hbelow : stack.gettop + idx < 0)
    {frames : Nat} {result : LuaReturn ι}
    (h : run (luaToValueAt doubles heap) frames ⟨stack, idx⟩ = some result) :
    result.converted.ref = .null := by
  cases frames with
  | zero => cases h
  | succ frames =>
      rw [run, luaToValueAt, if_pos hbelow] at h
      cases h
      rfl

theorem functionProxyLoop_null {frames params i : Nat} {j : Int} {args : ArrayLoop}
    {stack : LuaStack ι} {result : LuaReturn ι}
    (hrun : run (luaToValueAt doubles heap) frames ⟨stack, j⟩ = some result)
    (hnull : result.converted.ref = .null) :
    functionProxyLoop doubles heap frames (params + 1) i j args stack
      = some (.argerror (i + 1) (CString.lit "invalid or missing value")
        (args.errors ++ result.converted.errors)) := by
  obtain ⟨left, ref, errors⟩ := result
  cases hnull
  rw [functionProxyLoop, hrun]

theorem functionProxyLoop_value {frames params i : Nat} {j : Int} {args : ArrayLoop}
    {stack : LuaStack ι} {result : LuaReturn ι}
    (hrun : run (luaToValueAt doubles heap) frames ⟨stack, j⟩ = some result)
    (hvalue : result.converted.ref ≠ .null) :
    functionProxyLoop doubles heap frames (params + 1) i j args stack
      = functionProxyLoop doubles heap frames params (i + 1) (j + 1)
        (args.append result.converted) result.stack := by
  obtain ⟨left, ref, errors⟩ := result
  rw [functionProxyLoop, hrun]
  cases ref with
  | null => exact absurd rfl hvalue
  | _ => rfl

theorem neg_succ_add_one (params : Nat) : -((params + 1 : Nat) : Int) + 1 = -(params : Int) := by
  omega

theorem functionProxyLoop_passed {frames params i : Nat} {args passed : ArrayLoop}
    {stack left : LuaStack ι}
    (h : functionProxyLoop doubles heap frames params i (-params) args stack
      = some (.passed passed left)) :
    params ≤ stack.length ∧
      ∃ results, List.Forall₂ (fun (slot : LuaSlot ι) converted =>
          Ends (luaBody doubles heap) (luaToValue doubles heap (slot.object heap)) converted)
        (lastSlots params stack) results ∧
        passed.array.data = args.array.data ++ results.map Converted.ref := by
  induction params generalizing i args with
  | zero =>
      cases h
      refine ⟨Nat.zero_le _, [], ?_, (List.append_nil _).symm⟩
      rw [lastSlots, Nat.sub_zero, List.drop_length]
      exact .nil
  | succ params ih =>
      cases hrun : run (luaToValueAt doubles heap) frames ⟨stack, -((params + 1 : Nat) : Int)⟩ with
      | none =>
          rw [functionProxyLoop, hrun] at h
          cases h
      | some result =>
          by_cases hnull : result.converted.ref = .null
          · rw [functionProxyLoop_null hrun hnull] at h
            cases h
          by_cases hheight : params < stack.length
          · obtain ⟨slot, hslot, hslots⟩ := lastSlots_succ hheight
            obtain ⟨hstack, hends⟩ := (returns_luaToValueAt_iff hslot).mp ⟨frames, hrun⟩
            rw [functionProxyLoop_value hrun hnull, hstack, neg_succ_add_one] at h
            obtain ⟨-, results, hresults, hpassed⟩ := ih h
            refine ⟨hheight, result.converted :: results, ?_, ?_⟩
            · rw [hslots]
              exact .cons hends hresults
            · rw [hpassed, ArrayLoop.append, ArrayValue.arrayAppend_data, List.append_assoc]
              rfl
          · refine absurd (overflow_null ?_ hrun) hnull
            rw [LuaStack.gettop]
            omega

theorem exists_functionProxyLoop {params : Nat} {stack : LuaStack ι}
    (hheight : params ≤ stack.length) {data : List Value}
    (hdata : LuaReadsAll doubles heap data (lastSlots params stack)) (i : Nat) (args : ArrayLoop) :
    ∃ least passed, passed.array.data = args.array.data ++ ValueRef.ofValues data ∧
      ∀ frames, least ≤ frames →
        functionProxyLoop doubles heap frames params i (-params) args stack
          = some (.passed passed stack) := by
  induction params generalizing data i args with
  | zero =>
      rw [lastSlots, Nat.sub_zero, List.drop_length] at hdata
      cases hdata
      exact ⟨0, args, (List.append_nil _).symm, fun _ _ => rfl⟩
  | succ params ih =>
      obtain ⟨slot, hslot, hslots⟩ := lastSlots_succ hheight
      rw [hslots] at hdata
      cases hdata with
      | @cons value _ data _ hvalue hdata =>
          obtain ⟨converted, hends, href⟩ := luaReads_iff.mp hvalue
          have hreturns : Returns (luaToValueAt doubles heap) ⟨stack, -((params + 1 : Nat) : Int)⟩
              ⟨stack, converted⟩ := (returns_luaToValueAt_iff hslot).mpr ⟨rfl, hends⟩
          obtain ⟨first, hfirst⟩ := hreturns
          obtain ⟨others, passed, hpassed, hothers⟩ :=
            ih (Nat.le_of_succ_le hheight) hdata (i + 1) (args.append converted)
          have hnull : converted.ref ≠ .null := by
            rw [href]
            exact ValueRef.ofValue_ne_null value
          refine ⟨max first others, passed, ?_, fun frames hframes => ?_⟩
          · rw [hpassed, ArrayLoop.append, ArrayValue.arrayAppend_data, List.append_assoc, href]
            rfl
          · have hrun := run_mono (Nat.le_trans (Nat.le_max_left ..) hframes) hfirst
            rw [functionProxyLoop_value hrun hnull, neg_succ_add_one]
            exact hothers frames (Nat.le_trans (Nat.le_max_right ..) hframes)

/-- The arguments that are passed on are what the last slots of the interpreter's state are read
as. -/
theorem passes_iff {params : Nat} {states : LuaStates ι} {data : List Value} :
    (∃ frames args, functionProxyArguments doubles heap frames params states
        = some (.passed args states.state) ∧ args.finish.ref = .ofValue (.array data)) ↔
      params ≤ states.state.length ∧
        LuaReadsAll doubles heap data (lastSlots params states.state) := by
  constructor
  · rintro ⟨frames, args, hargs, href⟩
    obtain ⟨hheight, results, hresults, hpassed⟩ := functionProxyLoop_passed hargs
    refine ⟨hheight, ?_⟩
    have hrefs : results.map Converted.ref = ValueRef.ofValues data := by
      have hdata : args.array.data = ValueRef.ofValues data := ValueRef.array.inj href
      rw [← hdata, hpassed]
      rfl
    have hreads : ∀ value ∈ data, ∀ slot : LuaSlot ι,
        LuaReads doubles heap value (slot.object heap) ↔ ∃ converted,
          Ends (luaBody doubles heap) (luaToValue doubles heap (slot.object heap)) converted ∧
            converted.ref = .ofValue value := fun _ _ _ => luaReads_iff
    exact (forall₂_converts_iff hreads).mpr ⟨results, hresults, hrefs⟩
  · rintro ⟨hheight, hdata⟩
    obtain ⟨least, passed, hpassed, hall⟩ := exists_functionProxyLoop hheight hdata 0 .start
    exact ⟨least, passed, hall least (Nat.le_refl _), congrArg ValueRef.array hpassed⟩

theorem exists_luaReadsAll (doubles : Doubles) {slots : LuaStack ι}
    (h : ∀ slot ∈ slots, Convertible heap slot) : ∃ data, LuaReadsAll doubles heap data slots := by
  induction slots with
  | nil => exact ⟨[], .nil⟩
  | cons slot slots ih =>
      rw [List.forall_mem_cons] at h
      obtain ⟨value, hvalue⟩ := h.1.luaReads doubles
      obtain ⟨data, hdata⟩ := ih h.2
      exact ⟨value :: data, .cons hvalue hdata⟩

theorem picksUpArguments_of_same {params : Nat} {states : LuaStates ι}
    (h : SameArguments doubles heap params states) :
    PicksUpArguments doubles heap params states := by
  obtain ⟨hheight, data, hl, hstate⟩ := h
  obtain ⟨frames, args, hargs, href⟩ := passes_iff.mpr ⟨hheight, hstate⟩
  exact ⟨⟨frames, args, data, hargs, href, hl⟩, fun _ _ hcall => (callKeeps hcall).1⟩

end Arguments

/-- **Arguments from Lua.** A call from Lua passes the last values of the stack it comes with if and
only if the interpreter's own stack ends with the same: always when the call does not come from a
coroutine. -/
theorem picksUpArguments_iff {ι : Type} (doubles : Doubles) (heap : ι → LuaObject ι) (params : Nat)
    (states : LuaStates ι) :
    (PicksUpArguments doubles heap params states ↔ SameArguments doubles heap params states) ∧
      (states.coroutine = none → params ≤ states.l.length →
        (∀ slot ∈ lastSlots params states.l, Convertible heap slot) →
        PicksUpArguments doubles heap params states) := by
  refine ⟨⟨fun h => ?_, picksUpArguments_of_same⟩, fun hmain hheight hconvertible => ?_⟩
  · obtain ⟨frames, args, data, hargs, href, hl⟩ := h.passes
    obtain ⟨hheight, hstate⟩ := passes_iff.mp ⟨frames, args, hargs, href⟩
    exact ⟨hheight, data, hl, hstate⟩
  · have hl : states.l = states.state := by rw [LuaStates.l, hmain, Option.getD_none]
    rw [hl] at hheight hconvertible
    obtain ⟨data, hdata⟩ := exists_luaReadsAll doubles hconvertible
    refine picksUpArguments_of_same ⟨hheight, data, ?_, hdata⟩
    rw [hl]
    exact hdata

/-- A coroutine of `coroutine.wrap` calls with two integers; there is nothing on the other stack. -/
def wrappedCall : LuaStates Empty := ⟨[], some [.integer 1, .integer 2]⟩

/-- The integers of that call are not passed on. -/
theorem not_picksUpArguments_wrapped :
    ¬ ∀ (doubles : Doubles) (heap : Empty → LuaObject Empty) (params : Nat)
      (states : LuaStates Empty), params ≤ states.l.length →
      (∀ slot ∈ lastSlots params states.l, Convertible heap slot) →
      PicksUpArguments doubles heap params states := by
  intro h
  have hconvertible : ∀ slot ∈ lastSlots 2 wrappedCall.l, Convertible Empty.elim slot := by
    intro slot hslot
    cases slot with
    | ref x => exact x.elim
    | _ => trivial
  obtain ⟨frames, args, data, hargs, href, -⟩ :=
    (h ieeeDoubles Empty.elim 2 wrappedCall (Nat.le_refl 2) hconvertible).passes
  have hheight := (passes_iff.mp ⟨frames, args, hargs, href⟩).1
  cases hheight

end CageKeeper
