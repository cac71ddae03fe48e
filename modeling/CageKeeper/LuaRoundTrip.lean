import CageKeeper.ValueNumbers

/-! Values that go to Lua and come back: `push_value` makes new tables, in which a `nil` is no element,
and `lua_to_value` takes every number, and every string that Lua reads as a number, for a `float`. -/

namespace CageKeeper
open ByteStream RecursiveCalls BinaryFloat

/-! ### Tables -/

section Tables

variable {ι : Type}

/-- `lua_settable`: a `nil` removes the entry. -/
def luaSetTable (isNil : ι → Bool) (entries : List (Int × ι)) (key : Int) (entry : ι) :
    List (Int × ι) :=
  let others := entries.filter fun old => old.1 ≠ key
  if isNil entry then others else (key, entry) :: others

theorem lookup_cons_ite (first k : Int) (entry : ι) (entries : List (Int × ι)) :
    ((first, entry) :: entries).lookup k = if k = first then some entry else entries.lookup k := by
  rw [List.lookup_cons]
  by_cases hk : k = first
  · rw [if_pos hk, beq_iff_eq.mpr hk]
  · rw [if_neg hk, beq_eq_false_iff_ne.mpr hk]

theorem lookup_filter_ne (entries : List (Int × ι)) (key k : Int) :
    (entries.filter fun old => old.1 ≠ key).lookup k
      = if k = key then none else entries.lookup k := by
  induction entries with
  | nil => simp
  | cons entry entries ih =>
      obtain ⟨first, value⟩ := entry
      rw [lookup_cons_ite]
      by_cases hfirst : first = key
      · rw [List.filter_cons_of_neg (by simpa using hfirst), ih, hfirst]
        split <;> rfl
      · rw [List.filter_cons_of_pos (by simpa using hfirst), lookup_cons_ite, ih]
        by_cases hk : k = key
        · rw [if_pos hk, if_pos hk, if_neg (by rw [hk]; exact Ne.symm hfirst)]
        · rw [if_neg hk, if_neg hk]

theorem lookup_luaSetTable (isNil : ι → Bool) (entries : List (Int × ι)) (key : Int) (entry : ι)
    (k : Int) :
    (luaSetTable isNil entries key entry).lookup k
      = if k = key then (if isNil entry then none else some entry) else entries.lookup k := by
  rw [luaSetTable]
  by_cases hnil : isNil entry = true
  · rw [if_pos hnil, if_pos hnil]
    exact lookup_filter_ne entries key k
  · rw [if_neg hnil, if_neg hnil, lookup_cons_ite, lookup_filter_ne]
    split <;> rfl

theorem luaElements_of_le {isNil : ι → Bool} {entries : List (Int × ι)} {keys more : Nat} {i : Int}
    (hend : (luaElements isNil entries keys i).length < keys) (hle : keys ≤ more) :
    luaElements isNil entries more i = luaElements isNil entries keys i := by
  induction keys generalizing more i with
  | zero => exact absurd hend (Nat.not_lt_zero _)
  | succ keys ih =>
      obtain ⟨more, rfl⟩ : ∃ k, more = k + 1 := ⟨more - 1, by omega⟩
      rw [luaElements] at hend ⊢
      rw [luaElements]
      cases hlookup : entries.lookup i with
      | none => rfl
      | some entry =>
          rw [hlookup] at hend
          by_cases hnil : isNil entry = true
          · simp only [hnil, if_true]
          · simp only [if_neg hnil, List.length_cons] at hend ⊢
            rw [ih (Nat.lt_of_succ_lt_succ hend) (Nat.le_of_succ_le_succ hle)]

theorem items_table (heap : ι → LuaObject ι) (entries : List (Int × ι)) {keys : Nat}
    (hkeys : entries.length < keys) :
    (LuaObject.table entries).items heap
      = luaElements (fun entry => (heap entry).isNil) entries keys 0 := by
  have hend := luaElements_length_le (fun entry => (heap entry).isNil) entries
    (entries.length + 1) 0
  exact (luaElements_of_le (Nat.lt_succ_of_le hend) hkeys).symm

end Tables

/-! ### What goes out -/

/-- A new object with all objects it holds. -/
inductive LuaTree where
  | new (object : LuaObject LuaTree)

def LuaTree.object : LuaTree → LuaObject LuaTree
  | .new object => object

/-- A new object is `nil`. -/
def LuaTree.isNil (tree : LuaTree) : Bool := tree.object.isNil

section Trip

-- the number that a string can be read as
variable (readsNumber : Bytes → Option (BitVec 64))

mutual

/-- `push_value`: the object that it pushes. -/
def pushValue : Value → LuaTree
  | .void => .new .nil
  | .float32 bits => .new (.number (ieeeDoubles.widen bits))
  | .int32 bits => .new (.number (doubleOfInt bits.toInt))
  | .boolean b => .new (.boolean b)
  | .string str => .new (.string str.bytes (readsNumber str.bytes))
  | .array data => .new (.table (pushEntries data 0 []))

/-- The loop of `push_value` over the elements of an array. -/
def pushEntries : List Value → (i : Int) → List (Int × LuaTree) → List (Int × LuaTree)
  | [], _, entries => entries
  | value :: data, i, entries =>
      pushEntries data (i + 1) (luaSetTable LuaTree.isNil entries i (pushValue value))

end

/-- The object that is pushed for a value becomes a tree of the same shape, with the same strings and
booleans and with equal numbers. -/
def TreeTripsBack (value : Value) : Prop :=
  ∃ r back, Returns (luaBody ieeeDoubles LuaTree.object) (pushValue readsNumber value) r ∧
    r.ref = .ofValue back ∧ value.Alike Value.SameNumber back

theorem pushValue_isNil (value : Value) :
    (pushValue readsNumber value).isNil = decide (value = .void) := by
  cases value <;> simp [pushValue, LuaTree.isNil, LuaTree.object, LuaObject.isNil]

variable {readsNumber}

theorem lookup_pushEntries_of_lt {data : List Value} {i k : Int} (hlt : k < i)
    (entries : List (Int × LuaTree)) :
    (pushEntries readsNumber data i entries).lookup k = entries.lookup k := by
  induction data generalizing i entries with
  | nil => rfl
  | cons value data ih =>
      rw [pushEntries, ih (by omega), lookup_luaSetTable, if_neg (by omega)]

/-- What comes back of an array starts with what stands before the first `void`. -/
theorem luaElements_pushEntries (data : List Value) (i : Int) {entries : List (Int × LuaTree)}
    (hentries : ∀ k, i ≤ k → entries.lookup k = none) {keys : Nat} (hkeys : data.length < keys) :
    luaElements LuaTree.isNil (pushEntries readsNumber data i entries) keys i
      = (data.takeWhile fun value => value ≠ .void).map (pushValue readsNumber) := by
  induction data generalizing i entries keys with
  | nil =>
      obtain ⟨keys, rfl⟩ : ∃ k, keys = k + 1 := ⟨keys - 1, by simp at hkeys; omega⟩
      rw [pushEntries, luaElements, hentries i (Int.le_refl i)]
      rfl
  | cons value data ih =>
      obtain ⟨keys, rfl⟩ : ∃ k, keys = k + 1 := ⟨keys - 1, by simp at hkeys; omega⟩
      rw [pushEntries, luaElements, lookup_pushEntries_of_lt (by omega), lookup_luaSetTable,
        if_pos rfl]
      have hnext : ∀ k, i + 1 ≤ k →
          (luaSetTable LuaTree.isNil entries i (pushValue readsNumber value)).lookup k = none := by
        intro k hk
        rw [lookup_luaSetTable, if_neg (by omega), hentries k (by omega)]
      by_cases hvoid : value = .void
      · subst hvoid
        rfl
      · have hnil := pushValue_isNil readsNumber value
        rw [decide_eq_false hvoid] at hnil
        simp only [hnil, Bool.false_eq_true, if_false]
        rw [ih (i + 1) hnext (Nat.lt_of_succ_lt_succ hkeys)]
        simp [hvoid]

theorem items_pushValue (data : List Value) :
    luaItems LuaTree.object (pushValue readsNumber (.array data))
      = (data.takeWhile fun value => value ≠ .void).map (pushValue readsNumber) := by
  have hitems := items_table LuaTree.object (pushEntries readsNumber data 0 [])
    (Nat.lt_succ_of_le (Nat.le_max_left _ data.length))
  apply hitems.trans
  apply luaElements_pushEntries data 0 (fun _ _ => rfl)
  exact Nat.lt_succ_of_le (Nat.le_max_right _ _)

/-- A value that becomes one object without elements comes back as what that object is. -/
theorem treeTripsBack_leaf_iff {value back : Value} {object : LuaObject LuaTree}
    (hout : pushValue readsNumber value = .new object)
    (hback : luaToValue ieeeDoubles LuaTree.object object = .done (.value (.ofValue back))) :
    TreeTripsBack readsNumber value ↔ value.Alike Value.SameNumber back := by
  have hreturns : Returns (luaBody ieeeDoubles LuaTree.object) (pushValue readsNumber value)
      (.value (.ofValue back)) := by
    rw [returns_iff, hout]
    change Ends _ (luaToValue ieeeDoubles LuaTree.object object) _
    rw [hback]
    exact .done _
  constructor
  · rintro ⟨r, other, hr, href, halike⟩
    rw [hr.unique hreturns] at href
    rwa [ValueRef.ofValue_injective href]
  · exact fun halike => ⟨_, back, hreturns, rfl, halike⟩

theorem treeTripsBack_number_iff {value : Value} {double : BitVec 64} {number : Number}
    (hout : pushValue readsNumber value = .new (.number double))
    (hnumber : value.number? = some number) :
    TreeTripsBack readsNumber value ↔
      (Value.float32 (ieeeDoubles.narrow double)).number? = some number := by
  have hback : luaToValue ieeeDoubles LuaTree.object (.number double)
      = .done (.value (.ofValue (.float32 (ieeeDoubles.narrow double)))) := rfl
  rw [treeTripsBack_leaf_iff hout hback]
  have hsame : value.Alike Value.SameNumber (.float32 (ieeeDoubles.narrow double)) ↔
      ∃ found, value.number? = some found ∧
        (Value.float32 (ieeeDoubles.narrow double)).number? = some found := by
    cases value <;> rfl
  rw [hsame, hnumber]
  constructor
  · rintro ⟨found, hfound, h⟩
    rw [h, hfound]
  · exact fun h => ⟨number, rfl, h⟩

theorem treeTripsBack_float32 (bits : BitVec 32) :
    TreeTripsBack readsNumber (.float32 bits) := by
  rw [treeTripsBack_number_iff rfl rfl, ieeeDoubles.narrow_widen]
  rfl

/-- An integer comes back if and only if it has no more digits than a `float`. -/
theorem treeTripsBack_int32_iff (bits : BitVec 32) :
    TreeTripsBack readsNumber (.int32 bits) ↔ FitsDigits .binary32 bits.toInt := by
  rw [treeTripsBack_number_iff rfl rfl, Value.number?, Option.some.injEq]
  have hlow := BitVec.le_toInt bits
  have hhigh := BitVec.toInt_lt (x := bits)
  have habs : bits.toInt.natAbs < 2 ^ 32 := by omega
  have hlog : bits.toInt.natAbs.log2 ≤ 31 := by
    by_cases hzero : bits.toInt.natAbs = 0
    · rw [hzero]
      decide
    · exact Nat.le_of_lt_succ ((Nat.log2_lt hzero).mpr habs)
  apply number_convertBits_ofInt_iff
  · decide
  · decide
  · exact ⟨bits.toInt.natAbs, 0, (Nat.mul_one _).symm, Nat.lt_trans habs (by decide)⟩
  · exact Nat.le_trans hlog (by decide)
  · exact Nat.le_trans hlog (by decide)

theorem treeTripsBack_string_iff (str : CString) :
    TreeTripsBack readsNumber (.string str) ↔ readsNumber str.bytes = none := by
  cases hreads : readsNumber str.bytes with
  | none =>
      have hout : pushValue readsNumber (.string str) = .new (.string str.bytes none) := by
        rw [pushValue, hreads]
      have hback : luaToValue ieeeDoubles LuaTree.object (.string str.bytes none)
          = .done (.value (.ofValue (.string (CString.ofBytes str.bytes)))) := rfl
      rw [treeTripsBack_leaf_iff hout hback, CString.ofBytes_bytes]
      exact iff_of_true rfl rfl
  | some double =>
      have hout : pushValue readsNumber (.string str) = .new (.string str.bytes (some double)) := by
        rw [pushValue, hreads]
      have hback : luaToValue ieeeDoubles LuaTree.object (.string str.bytes (some double))
          = .done (.value (.ofValue (.float32 (ieeeDoubles.narrow double)))) := rfl
      rw [treeTripsBack_leaf_iff hout hback]
      refine iff_of_false ?_ nofun
      rintro ⟨number, hnumber, -⟩
      cases hnumber

/-! ### Arrays -/

def TreesTripBack (readsNumber : Bytes → Option (BitVec 64)) (data : List Value) : Prop :=
  ∃ results backs, List.Forall₂ (Returns (luaBody ieeeDoubles LuaTree.object))
      (data.map (pushValue readsNumber)) results ∧
    results.map Converted.ref = ValueRef.ofValues backs ∧
    List.Forall₂ (Value.Alike Value.SameNumber) data backs

theorem treesTripBack_iff (data : List Value) :
    TreesTripBack readsNumber data ↔ ∀ entry ∈ data, TreeTripsBack readsNumber entry := by
  induction data with
  | nil => exact ⟨fun _ _ h => absurd h List.not_mem_nil, fun _ => ⟨[], [], .nil, rfl, .nil⟩⟩
  | cons value data ih =>
      rw [List.forall_mem_cons, ← ih]
      constructor
      · rintro ⟨results, backs, hresults, hrefs, halike⟩
        cases halike with
        | cons hvalue hdata =>
            rw [List.map_cons] at hresults
            cases hresults with
            | cons hfirst hrest =>
                rw [List.map_cons, ValueRef.ofValues, List.cons.injEq] at hrefs
                exact ⟨⟨_, _, hfirst, hrefs.1, hvalue⟩, _, _, hrest, hrefs.2, hdata⟩
      · rintro ⟨⟨r, back, hfirst, href, hvalue⟩, results, backs, hrest, hrefs, hdata⟩
        refine ⟨r :: results, back :: backs, .cons hfirst hrest, ?_, .cons hvalue hdata⟩
        rw [List.map_cons, href, hrefs, ValueRef.ofValues]

theorem returns_pushValue_array_iff (data : List Value) {r : Converted} :
    Returns (luaBody ieeeDoubles LuaTree.object) (pushValue readsNumber (.array data)) r ↔
      ∃ results, List.Forall₂ (Returns (luaBody ieeeDoubles LuaTree.object))
          ((data.takeWhile fun value => value ≠ .void).map (pushValue readsNumber)) results ∧
        r = ⟨.array (results.map Converted.ref), results.flatMap Converted.errors⟩ := by
  have hbody : luaBody ieeeDoubles LuaTree.object (pushValue readsNumber (.array data))
      = convertAll (luaItems LuaTree.object (pushValue readsNumber (.array data))) := rfl
  rw [returns_iff, hbody, items_pushValue, ends_convertAll_iff]

theorem treeTripsBack_array_iff (data : List Value) :
    TreeTripsBack readsNumber (.array data) ↔
      ∀ entry ∈ data, entry ≠ .void ∧ TreeTripsBack readsNumber entry := by
  constructor
  · rintro ⟨r, back, hr, href, halike⟩
    obtain ⟨results, hresults, rfl⟩ := (returns_pushValue_array_iff data).mp hr
    cases back with
    | array backs =>
        rw [Value.Alike, Value.alikeList_iff] at halike
        have hrefs : results.map Converted.ref = ValueRef.ofValues backs := ValueRef.array.inj href
        -- nothing is missing, so that there is no void
        have hlength : (data.takeWhile fun value => value ≠ .void).length = data.length := by
          have hback := congrArg List.length hrefs
          rw [ValueRef.ofValues_eq_map, List.length_map, List.length_map] at hback
          have hfound := hresults.length_eq
          rw [List.length_map] at hfound
          rw [hfound, hback, halike.length_eq]
        have hall := (List.takeWhile_prefix _).eq_of_length hlength
        rw [hall] at hresults
        intro entry hentry
        refine ⟨?_, (treesTripBack_iff data).mp ⟨results, backs, hresults, hrefs, halike⟩
          entry hentry⟩
        simpa using List.takeWhile_eq_self_iff.mp hall entry hentry
    | _ => cases href
  · intro h
    have hall : (data.takeWhile fun value => value ≠ .void) = data := by
      apply List.takeWhile_eq_self_iff.mpr
      intro entry hentry
      simpa using (h entry hentry).1
    obtain ⟨results, backs, hresults, hrefs, halike⟩ :=
      (treesTripBack_iff data).mpr fun entry hentry => (h entry hentry).2
    refine ⟨_, .array backs, (returns_pushValue_array_iff data).mpr ⟨results, ?_, rfl⟩,
      congrArg ValueRef.array hrefs, Value.alikeList_iff.mpr halike⟩
    rw [hall]
    exact hresults

/-- The object for a value becomes that value again if and only if the value is `void` or has no `void` in
it, Lua reads no string in it as a number, and no integer in it has more digits than a `float`. -/
theorem treeTripsBack_iff (readsNumber : Bytes → Option (BitVec 64)) (value : Value) :
    TreeTripsBack readsNumber value ↔
      (value = .void ∨ ValueType.void ∉ value.types) ∧
      (∀ str ∈ value.strings, readsNumber str.bytes = none) ∧
      ∀ bits ∈ value.integers, FitsDigits .binary32 bits.toInt := by
  induction value using Value.induction with
  | void =>
      have hback : luaToValue ieeeDoubles LuaTree.object .nil
          = .done (.value (.ofValue .void)) := rfl
      rw [treeTripsBack_leaf_iff rfl hback]
      simp [Value.Alike, Value.SameNumber, Value.strings, Value.integers]
  | float32 bits =>
      simp [treeTripsBack_float32, Value.types, Value.type, Value.strings, Value.integers]
  | int32 bits =>
      rw [treeTripsBack_int32_iff]
      simp [Value.types, Value.type, Value.strings, Value.integers]
  | boolean b =>
      have hback : luaToValue ieeeDoubles LuaTree.object (.boolean b)
          = .done (.value (.ofValue (.boolean b))) := rfl
      rw [treeTripsBack_leaf_iff rfl hback]
      simp [Value.Alike, Value.SameNumber, Value.types, Value.type, Value.strings, Value.integers]
  | string str =>
      rw [treeTripsBack_string_iff]
      simp [Value.types, Value.type, Value.strings, Value.integers]
  | array data ih =>
      rw [treeTripsBack_array_iff, Value.types, Value.strings, Value.integers]
      simp only [reduceCtorEq, false_or, List.mem_cons, Value.mem_typesOfList,
        Value.mem_stringsOfList, Value.mem_integersOfList]
      constructor
      · intro h
        refine ⟨?_, ?_, ?_⟩
        · rintro ⟨entry, hentry, hmem⟩
          rcases ((ih entry hentry).mp (h entry hentry).2).1 with hvoid | hnone
          · exact (h entry hentry).1 hvoid
          · exact hnone hmem
        · rintro str ⟨entry, hentry, hmem⟩
          exact ((ih entry hentry).mp (h entry hentry).2).2.1 str hmem
        · rintro bits ⟨entry, hentry, hmem⟩
          exact ((ih entry hentry).mp (h entry hentry).2).2.2 bits hmem
      · rintro ⟨hvoids, hstrings, hintegers⟩ entry hentry
        have hnone : ValueType.void ∉ entry.types := fun hmem => hvoids ⟨entry, hentry, hmem⟩
        refine ⟨?_, (ih entry hentry).mpr ⟨Or.inr hnone, fun str hmem => ?_, fun bits hmem => ?_⟩⟩
        · rintro rfl
          exact hnone (List.mem_singleton.mpr rfl)
        · exact hstrings str ⟨entry, hentry, hmem⟩
        · exact hintegers bits ⟨entry, hentry, hmem⟩

end Trip

end CageKeeper
