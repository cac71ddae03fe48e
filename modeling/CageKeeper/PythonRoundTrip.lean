import CageKeeper.GuestResults
import CageKeeper.PythonUnicode

/-! Values that go to Python and come back: `value_to_pyobject` makes new objects, and
`pyobject_to_value` tells their types apart by a sequence of tests. -/

namespace CageKeeper
open ByteStream RecursiveCalls

/-- A new object with all objects it holds. -/
inductive PyTree where
  | new (object : PyObject PyTree)

def PyTree.object : PyTree → PyObject PyTree
  | .new object => object

section Trip

variable (wide : Bool) (doubles : Doubles)

mutual

/-- `value_to_pyobject`, for code units of two or four bytes; `none` is `NULL`. -/
def valueToPyobject : Value → (arraysAsTuples : Bool) → Option PyTree
  | .void, _ => some (.new .none)
  | .float32 bits, _ => some (.new (.float (doubles.widen bits)))
  | .int32 bits, _ => some (.new (.int bits.toInt))
  | .boolean b, _ => some (.new (.bool b))
  | .string str, _ =>
      (utf8Decode str.bytes).map fun characters => .new (.unicode (unicodeData wide characters))
  | .array data, arraysAsTuples =>
      (entriesToPyobjects data).map fun entries =>
        .new (if arraysAsTuples then .tuple entries else .list entries)

/-- The loops of `value_to_pyobject` over the elements of an array. -/
def entriesToPyobjects : List Value → Option (List PyTree)
  | [] => some []
  | value :: data =>
      match valueToPyobject value false with
      | none => none
      | some entry => (entriesToPyobjects data).map (entry :: ·)

end

/-- A value comes back from Python as it was. -/
def TripsBack (arraysAsTuples : Bool) (value : Value) : Prop :=
  ∃ tree r, valueToPyobject wide doubles value arraysAsTuples = some tree ∧
    Returns (pyBody doubles PyTree.object) tree r ∧ r.ref = .ofValue value

variable {wide doubles}

theorem pyBody_new (object : PyObject PyTree) :
    pyBody doubles PyTree.object (.new object) = pyobjectToValue doubles object := rfl

/-- A value that becomes one object without elements comes back as what that object is. -/
theorem tripsBack_leaf_iff {arraysAsTuples : Bool} {value : Value} {object : PyObject PyTree}
    {r : Converted} (hout : valueToPyobject wide doubles value arraysAsTuples = some (.new object))
    (hback : pyobjectToValue doubles object = .done r) :
    TripsBack wide doubles arraysAsTuples value ↔ r.ref = .ofValue value := by
  have hreturns : Returns (pyBody doubles PyTree.object) (.new object) r := by
    rw [returns_iff, pyBody_new, hback]
    exact .done r
  constructor
  · rintro ⟨tree, r', htree, hr', href⟩
    rw [hout, Option.some.injEq] at htree
    subst htree
    rwa [hr'.unique hreturns] at href
  · exact fun href => ⟨_, r, hout, hreturns, href⟩

theorem int32Of_toInt (bits : BitVec 32) : int32Of bits.toInt = bits := BitVec.ofInt_toInt

theorem tripsBack_string_iff (arraysAsTuples : Bool) (str : CString) :
    TripsBack wide doubles arraysAsTuples (.string str) ↔ str.IsAsciiChar := by
  rw [← unicode_roundTrip_iff wide]
  cases hdecode : utf8Decode str.bytes with
  | none =>
      constructor
      · rintro ⟨tree, r, htree, -⟩
        rw [valueToPyobject, hdecode] at htree
        cases htree
      · rintro ⟨characters, hcharacters, -⟩
        cases hcharacters
  | some characters =>
      have hout : valueToPyobject wide doubles (.string str) arraysAsTuples
          = some (.new (.unicode (unicodeData wide characters))) := by
        rw [valueToPyobject, hdecode]
        rfl
      rw [tripsBack_leaf_iff hout rfl]
      constructor
      · exact fun href => ⟨characters, rfl, ValueRef.string.inj href⟩
      · rintro ⟨found, hfound, hstr⟩
        cases hfound
        exact congrArg ValueRef.string hstr

def EntriesTripBack (wide : Bool) (doubles : Doubles) (data : List Value) : Prop :=
  ∃ entries results, entriesToPyobjects wide doubles data = some entries ∧
    List.Forall₂ (Returns (pyBody doubles PyTree.object)) entries results ∧
    results.map Converted.ref = ValueRef.ofValues data

theorem entriesTripBack_iff (data : List Value) :
    EntriesTripBack wide doubles data ↔
      ∀ entry ∈ data, TripsBack wide doubles false entry := by
  induction data with
  | nil => exact ⟨fun _ _ h => absurd h List.not_mem_nil, fun _ => ⟨[], [], rfl, .nil, rfl⟩⟩
  | cons value data ih =>
      rw [List.forall_mem_cons, ← ih]
      constructor
      · rintro ⟨entries, results, hentries, hresults, hrefs⟩
        rw [entriesToPyobjects] at hentries
        cases hout : valueToPyobject wide doubles value false with
        | none =>
            rw [hout] at hentries
            cases hentries
        | some entry =>
            rw [hout] at hentries
            obtain ⟨others, hothers, rfl⟩ := Option.map_eq_some_iff.mp hentries
            cases hresults with
            | cons hfirst hrest =>
                rw [List.map_cons, ValueRef.ofValues, List.cons.injEq] at hrefs
                exact ⟨⟨entry, _, hout, hfirst, hrefs.1⟩, others, _, hothers, hrest, hrefs.2⟩
      · rintro ⟨⟨entry, r, hout, hfirst, href⟩, others, results, hothers, hrest, hrefs⟩
        refine ⟨entry :: others, r :: results, ?_, .cons hfirst hrest, ?_⟩
        · rw [entriesToPyobjects, hout, hothers]
          rfl
        · rw [List.map_cons, href, hrefs, ValueRef.ofValues]

theorem tripsBack_array_iff (arraysAsTuples : Bool) (data : List Value) :
    TripsBack wide doubles arraysAsTuples (.array data) ↔
      ∀ entry ∈ data, TripsBack wide doubles false entry := by
  rw [← entriesTripBack_iff]
  have hback : ∀ entries : List PyTree,
      pyBody doubles PyTree.object (.new (if arraysAsTuples then .tuple entries else .list entries))
        = convertAll entries := by
    intro entries
    cases arraysAsTuples <;> rfl
  constructor
  · rintro ⟨tree, r, htree, hr, href⟩
    obtain ⟨entries, hentries, rfl⟩ := Option.map_eq_some_iff.mp htree
    rw [returns_iff, hback, ends_convertAll_iff] at hr
    obtain ⟨results, hresults, rfl⟩ := hr
    exact ⟨entries, results, hentries, hresults, ValueRef.array.inj href⟩
  · rintro ⟨entries, results, hentries, hresults, hrefs⟩
    refine ⟨_, ⟨.array (results.map Converted.ref), results.flatMap Converted.errors⟩,
      Option.map_eq_some_iff.mpr ⟨entries, hentries, rfl⟩, ?_, congrArg ValueRef.array hrefs⟩
    rw [returns_iff, hback, ends_convertAll_iff]
    exact ⟨results, hresults, rfl⟩

/-- **Values through Python.** A value comes back as it was if and only if there is no boolean in it
and every string in it is empty or a single ASCII character. -/
theorem tripsBack_iff (wide : Bool) (doubles : Doubles) (arraysAsTuples : Bool) (value : Value) :
    TripsBack wide doubles arraysAsTuples value ↔
      ValueType.boolean ∉ value.types ∧ ∀ str ∈ value.strings, str.IsAsciiChar := by
  induction value using Value.induction generalizing arraysAsTuples with
  | void =>
      rw [tripsBack_leaf_iff rfl rfl]
      simp [Converted.value, ValueRef.ofValue, Value.types, Value.type, Value.strings]
  | float32 bits =>
      rw [tripsBack_leaf_iff rfl rfl]
      simp [Converted.value, ValueRef.ofValue, Value.types, Value.type, Value.strings,
        PyObject.asDouble, doubles.narrow_widen]
  | int32 bits =>
      rw [tripsBack_leaf_iff rfl rfl]
      simp [Converted.value, ValueRef.ofValue, Value.types, Value.type, Value.strings,
        PyObject.asLong, int32Of_toInt]
  | boolean b =>
      rw [tripsBack_leaf_iff rfl rfl]
      simp [Converted.value, ValueRef.ofValue, Value.types, Value.type]
  | string str =>
      rw [tripsBack_string_iff]
      simp [Value.types, Value.type, Value.strings]
  | array data ih =>
      rw [tripsBack_array_iff, Value.types, Value.strings]
      simp only [List.mem_cons, reduceCtorEq, false_or, Value.mem_typesOfList,
        Value.mem_stringsOfList]
      constructor
      · intro h
        constructor
        · rintro ⟨entry, hentry, hmem⟩
          exact ((ih entry hentry false).mp (h entry hentry)).1 hmem
        · rintro str ⟨entry, hentry, hmem⟩
          exact ((ih entry hentry false).mp (h entry hentry)).2 str hmem
      · intro h entry hentry
        refine (ih entry hentry false).mpr ⟨fun hmem => ?_, fun str hmem => ?_⟩
        · exact h.1 ⟨entry, hentry, hmem⟩
        · exact h.2 str ⟨entry, hentry, hmem⟩

end Trip

/-- A boolean comes back as an integer. -/
theorem boolean_not_tripsBack :
    ¬ ∀ (value : Value) (arraysAsTuples : Bool),
      TripsBack false noDoubles arraysAsTuples value := by
  intro h
  have href := (tripsBack_leaf_iff rfl rfl).mp (h (.boolean true) false)
  cases href

end CageKeeper
