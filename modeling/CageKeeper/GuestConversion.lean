import CageKeeper.GuestObjects
import Mathlib.Data.List.Perm.Subperm

/-! What the converters of Python, Lua and JavaScript have in common: an object fails, is a leaf, or
becomes an array of what its elements become, and every element it has is converted. -/

namespace CageKeeper
open ByteStream RecursiveCalls

/-! ### Converters of containers -/

section Converter

variable {ι : Type}

/-- A converter that makes an array of the elements of a container, and returns `NULL` for some
objects. -/
structure ArrayConverter (body : ι → Body ι Converted) (elements : ι → List ι)
    (fails : ι → Prop) : Prop where
  follows : ∀ {x y}, Follows body x y → y ∈ elements x
  visits : ∀ {x r}, Returns body x r → ∀ y ∈ elements x, Follows body x y
  failed : ∀ {x r}, fails x → Returns body x r → r.ref = .null
  kept : ∀ {x r}, ¬ fails x → Returns body x r →
    (elements x = [] ∧ r.ref.noNull = true) ∨
      ∃ results, List.Forall₂ (Returns body) (elements x) results ∧
        r.ref = .array (results.map Converted.ref)

def Holds (elements : ι → List ι) (x y : ι) : Prop := y ∈ elements x

/-- An object is found inside another, or is that object. -/
def Inside (elements : ι → List ι) (x y : ι) : Prop := Relation.ReflTransGen (Holds elements) x y

/-- All paths into an object end, so that it is finite and does not contain itself. -/
def FiniteAcyclic (elements : ι → List ι) (x : ι) : Prop :=
  Acc (fun y x => Holds elements x y) x

/-- An object that is finite, does not contain itself, and has nothing in it that fails. -/
def ConvertsWell (elements : ι → List ι) (fails : ι → Prop) (x : ι) : Prop :=
  FiniteAcyclic elements x ∧ ∀ y, Inside elements x y → ¬ fails y

variable {body : ι → Body ι Converted} {elements : ι → List ι} {fails : ι → Prop}

namespace ArrayConverter

theorem exists_returns_iff (h : ArrayConverter body elements fails) (x : ι) :
    (∃ r, Returns body x r) ↔ FiniteAcyclic elements x := by
  rw [exists_returns_iff_acc]
  constructor
  · intro hacc
    induction hacc with
    | intro x hnext ih =>
        have hx : ∃ r, Returns body x r := (exists_returns_iff_acc x).mpr (.intro x hnext)
        obtain ⟨r, hr⟩ := hx
        exact .intro x fun y hy => ih y (h.visits hr y hy)
  · intro hacc
    induction hacc with
    | intro x _ ih => exact .intro x fun y hy => ih y (h.follows hy)

theorem inside_iff {x y : ι} :
    Inside elements x y ↔ y = x ∨ ∃ z ∈ elements x, Inside elements z y := by
  rw [Inside, Relation.ReflTransGen.cases_head_iff]
  exact or_congr_left eq_comm

/-- An array of results is without `NULL` if and only if every one of them is. -/
theorem noNull_array_iff {items : List ι} {results : List Converted}
    (hresults : List.Forall₂ (Returns body) items results) {P : ι → Prop}
    (hitems : ∀ z ∈ items, ∀ r, Returns body z r → (r.ref.noNull = true ↔ P z)) :
    (ValueRef.array (results.map Converted.ref)).noNull = true ↔ ∀ z ∈ items, P z := by
  induction hresults with
  | nil => exact ⟨fun _ _ hz => (List.not_mem_nil hz).elim, fun _ => rfl⟩
  | cons hfirst _ ih =>
      have hrest := ih fun z hz => hitems z (List.mem_cons_of_mem _ hz)
      rw [ValueRef.noNull] at hrest
      rw [ValueRef.noNull, List.map_cons, ValueRef.noNulls, Bool.and_eq_true, hrest,
        List.forall_mem_cons, hitems _ (List.mem_cons_self ..) _ hfirst]

/-- A result is without `NULL` if and only if nothing inside the object fails. -/
theorem noNull_iff (h : ArrayConverter body elements fails) {x : ι}
    (hacyclic : FiniteAcyclic elements x) {r : Converted} (hr : Returns body x r) :
    r.ref.noNull = true ↔ ∀ y, Inside elements x y → ¬ fails y := by
  induction hacyclic generalizing r with
  | intro x _ ih =>
      by_cases hfails : fails x
      · rw [h.failed hfails hr]
        exact ⟨fun hnull => (Bool.false_ne_true hnull).elim,
          fun hall => absurd hfails (hall x .refl)⟩
      have hinside : (∀ y, Inside elements x y → ¬ fails y) ↔
          ∀ z ∈ elements x, ∀ y, Inside elements z y → ¬ fails y := by
        constructor
        · exact fun hall z hz y hy => hall y (inside_iff.mpr (Or.inr ⟨z, hz, hy⟩))
        · intro hall y hy
          rcases inside_iff.mp hy with rfl | ⟨z, hz, hzy⟩
          · exact hfails
          · exact hall z hz y hzy
      rw [hinside]
      rcases h.kept hfails hr with ⟨hnil, hleaf⟩ | ⟨results, hresults, harray⟩
      · rw [hnil]
        exact ⟨fun _ _ hz => (List.not_mem_nil hz).elim, fun _ => hleaf⟩
      · rw [harray]
        exact noNull_array_iff hresults fun z hz _ hz' => ih z hz hz'

theorem exists_value (h : ArrayConverter body elements fails) {x : ι}
    (hx : ConvertsWell elements fails x) :
    ∃ value errors, Returns body x ⟨.ofValue value, errors⟩ := by
  obtain ⟨⟨ref, errors⟩, hreturns⟩ := (h.exists_returns_iff x).mpr hx.1
  obtain ⟨value, rfl⟩ := ValueRef.noNull_iff.mp ((h.noNull_iff hx.1 hreturns).mpr hx.2)
  exact ⟨value, errors, hreturns⟩

end ArrayConverter

/-! ### The loop over a container -/

theorem ends_convertAll_iff {items : List ι} {r : Converted} :
    Ends body (convertAll items) r ↔
      ∃ results, List.Forall₂ (Returns body) items results ∧
        r = ⟨.array (results.map Converted.ref), results.flatMap Converted.errors⟩ := by
  rw [convertAll, ends_forEach_iff]
  simp only [ArrayLoop.finish_start]

theorem calls_convertAll {items : List ι} {r : Converted} (h : Ends body (convertAll items) r)
    {y : ι} (hy : y ∈ items) : Calls body (convertAll items) y :=
  calls_forEach h hy

theorem mem_of_calls_convertAll {items : List ι} {y : ι}
    (h : Calls body (convertAll items) y) : y ∈ items :=
  mem_of_calls_forEach h

theorem not_calls_done {r : Converted} {y : ι} : ¬ Calls body (.done r) y := nofun

theorem eq_of_ends_done {left right : Converted} (h : Ends body (.done left) right) :
    right = left := by
  cases h
  rfl

/-- What a converter does with an object: it fails, it is done, or it goes through the elements. -/
inductive ObjectCase (body : ι → Body ι Converted) (elements : ι → List ι) (fails : ι → Prop)
    (x : ι) : Prop where
  | failed (r : Converted) (fail : fails x) (empty : elements x = []) (done : body x = .done r)
      (null : r.ref = .null)
  | leaf (r : Converted) (support : ¬ fails x) (empty : elements x = []) (done : body x = .done r)
      (noNull : r.ref.noNull = true)
  | container (support : ¬ fails x) (loop : body x = convertAll (elements x))

theorem ArrayConverter.of_cases (h : ∀ x, ObjectCase body elements fails x) :
    ArrayConverter body elements fails where
  follows := by
    intro x y hfollows
    rw [Follows] at hfollows
    cases h x with
    | failed r _ _ done =>
        rw [done] at hfollows
        exact absurd hfollows not_calls_done
    | leaf r _ _ done =>
        rw [done] at hfollows
        exact absurd hfollows not_calls_done
    | container _ loop =>
        rw [loop] at hfollows
        exact mem_of_calls_convertAll hfollows
  visits := by
    intro x r hr y hy
    rw [returns_iff] at hr
    cases h x with
    | failed _ _ empty => exact absurd (empty ▸ hy) List.not_mem_nil
    | leaf _ _ empty => exact absurd (empty ▸ hy) List.not_mem_nil
    | container _ loop =>
        rw [loop] at hr
        rw [Follows, loop]
        exact calls_convertAll hr hy
  failed := by
    intro x r hfails hr
    rw [returns_iff] at hr
    cases h x with
    | failed _ _ _ done null =>
        rw [done] at hr
        rw [eq_of_ends_done hr, null]
    | leaf _ support => exact absurd hfails support
    | container support => exact absurd hfails support
  kept := by
    intro x r hfails hr
    rw [returns_iff] at hr
    cases h x with
    | failed _ fail => exact absurd fail hfails
    | leaf _ _ empty done noNull =>
        rw [done] at hr
        rw [eq_of_ends_done hr]
        exact Or.inl ⟨empty, noNull⟩
    | container _ loop =>
        rw [loop] at hr
        obtain ⟨results, hresults, rfl⟩ := ends_convertAll_iff.mp hr
        exact Or.inr ⟨results, hresults, rfl⟩

end Converter

/-! ### Python -/

section Python

variable {ι : Type} (doubles : Doubles) (heap : ι → PyObject ι)

/-- `pyobject_to_value` on a heap. -/
def pyBody (x : ι) : Body ι Converted := pyobjectToValue doubles (heap x)

def pyElements (x : ι) : List ι := (heap x).items

/-- An object of a type that is not supported. -/
def PyUnsupported (x : ι) : Prop := ∃ typeName, heap x = .other typeName

theorem py_arrayConverter :
    ArrayConverter (pyBody doubles heap) (pyElements heap) (PyUnsupported heap) := by
  refine .of_cases fun x => ?_
  have hbody : pyBody doubles heap x = pyobjectToValue doubles (heap x) := rfl
  have hitems : pyElements heap x = (heap x).items := rfl
  cases hx : heap x with
  | other typeName =>
      rw [hx] at hbody hitems
      exact .failed _ ⟨typeName, hx⟩ hitems hbody rfl
  | list items | tuple items =>
      have hsupport : ¬ PyUnsupported heap x := fun ⟨typeName, h⟩ => by simp [hx] at h
      rw [hx] at hbody hitems
      apply ObjectCase.container hsupport
      rw [hbody, hitems]
      rfl
  | _ =>
      have hsupport : ¬ PyUnsupported heap x := fun ⟨typeName, h⟩ => by simp [hx] at h
      rw [hx] at hbody hitems
      exact .leaf _ hsupport hitems hbody rfl

end Python

/-! ### Lua -/

section Lua

variable {ι : Type} (doubles : Doubles) (heap : ι → LuaObject ι)

/-- `lua_to_value` on a heap. -/
def luaBody (x : ι) : Body ι Converted := luaToValue doubles heap (heap x)

/-- The elements of a table, from the key 0 up to the first that is missing. -/
def luaItems (x : ι) : List ι := (heap x).items heap

/-- An object of a type that is not supported. -/
def LuaUnsupported (x : ι) : Prop := heap x = .other

theorem lookup_luaElements {isNil : ι → Bool} {entries : List (Int × ι)} {keys : Nat} {i : Int}
    {k : Nat} (hk : k < (luaElements isNil entries keys i).length) :
    ∃ entry, entries.lookup (i + k) = some entry := by
  induction keys generalizing i k with
  | zero => cases hk
  | succ keys ih =>
      rw [luaElements] at hk
      cases hlookup : entries.lookup i with
      | none =>
          rw [hlookup] at hk
          cases hk
      | some entry =>
          rw [hlookup] at hk
          simp only at hk
          split at hk
          · cases hk
          · cases k with
            | zero => exact ⟨entry, by rw [Int.natCast_zero, Int.add_zero, hlookup]⟩
            | succ k =>
                obtain ⟨found, hfound⟩ := ih (Nat.lt_of_succ_lt_succ hk)
                refine ⟨found, ?_⟩
                rw [← hfound, Int.natCast_succ]
                congr 1
                omega

theorem mem_keys_of_lookup {entries : List (Int × ι)} {i : Int} {entry : ι}
    (h : entries.lookup i = some entry) : i ∈ entries.map Prod.fst := by
  obtain ⟨front, back, rfl, -⟩ := List.lookup_eq_some_iff.mp h
  simp

/-- The loop over a table ends: it gets past no more keys than the table has. -/
theorem luaElements_length_le (isNil : ι → Bool) (entries : List (Int × ι)) (keys : Nat)
    (i : Int) : (luaElements isNil entries keys i).length ≤ entries.length := by
  have hnodup : ((List.range (luaElements isNil entries keys i).length).map
      fun k : Nat => i + k).Nodup := by
    refine List.Nodup.map (fun a b hab => ?_) List.nodup_range
    simpa using hab
  have hsubset : ((List.range (luaElements isNil entries keys i).length).map
      fun k : Nat => i + k) ⊆ entries.map Prod.fst := by
    intro key hkey
    obtain ⟨k, hk, rfl⟩ := List.mem_map.mp hkey
    obtain ⟨entry, hentry⟩ := lookup_luaElements (List.mem_range.mp hk)
    exact mem_keys_of_lookup hentry
  have hle := (List.subperm_of_subset hnodup hsubset).length_le
  simpa using hle

/-- Where the loop of `lua_to_value` ends there is no element: it is not the bound on the keys that
ends it. -/
theorem luaItems_end (x : ι) :
    ∀ entry, (heap x).entries.lookup ((luaItems heap x).length : Int) = some entry →
      (heap entry).isNil = true := by
  have hstop : ∀ (keys : Nat) (i : Int),
      (luaElements (fun entry => (heap entry).isNil) (heap x).entries keys i).length < keys →
      ∀ entry, (heap x).entries.lookup
          (i + (luaElements (fun entry => (heap entry).isNil) (heap x).entries keys i).length)
        = some entry → (heap entry).isNil = true := by
    intro keys
    induction keys with
    | zero => exact fun _ hlt => absurd hlt (Nat.not_lt_zero _)
    | succ keys ih =>
        intro i hlt entry hentry
        rw [luaElements] at hlt hentry
        cases hlookup : (heap x).entries.lookup i with
        | none =>
            rw [hlookup] at hentry
            simp [hlookup] at hentry
        | some found =>
            rw [hlookup] at hlt hentry
            simp only at hlt hentry
            by_cases hnil : (heap found).isNil = true
            · rw [if_pos hnil] at hentry
              simp only [List.length_nil, Int.natCast_zero, Int.add_zero, hlookup,
                Option.some.injEq] at hentry
              rw [← hentry, hnil]
            · rw [if_neg hnil] at hlt hentry
              rw [List.length_cons] at hlt hentry
              apply ih (i + 1) (Nat.lt_of_succ_lt_succ hlt) entry
              rw [← hentry, Int.natCast_succ]
              congr 1
              omega
  intro entry hentry
  refine hstop ((heap x).entries.length + 1) 0 ?_ entry ?_
  · exact Nat.lt_succ_of_le (luaElements_length_le _ _ _ _)
  · rw [Int.zero_add]
    exact hentry

theorem lua_arrayConverter :
    ArrayConverter (luaBody doubles heap) (luaItems heap) (LuaUnsupported heap) := by
  refine .of_cases fun x => ?_
  have hbody : luaBody doubles heap x = luaToValue doubles heap (heap x) := rfl
  have hitems : luaItems heap x = (heap x).items heap := rfl
  cases hx : heap x with
  | other =>
      rw [hx] at hbody hitems
      exact .failed _ hx hitems hbody rfl
  | table entries =>
      have hsupport : ¬ LuaUnsupported heap x := fun h => by simp [LuaUnsupported, hx] at h
      rw [hx] at hbody hitems
      apply ObjectCase.container hsupport
      rw [hbody, hitems]
      rfl
  | string data number =>
      have hsupport : ¬ LuaUnsupported heap x := fun h => by simp [LuaUnsupported, hx] at h
      rw [hx] at hbody hitems
      cases number with
      | none => exact .leaf _ hsupport hitems hbody rfl
      | some number => exact .leaf _ hsupport hitems hbody rfl
  | _ =>
      have hsupport : ¬ LuaUnsupported heap x := fun h => by simp [LuaUnsupported, hx] at h
      rw [hx] at hbody hitems
      exact .leaf _ hsupport hitems hbody rfl

end Lua

/-! ### JavaScript -/

section JavaScript

variable {ι : Type} (doubles : Doubles) (heap : ι → JsValue ι)

/-- `jsval_to_value` on a heap. -/
def jsBody (x : ι) : Body ι Converted := jsvalToValue doubles (heap x)

/-- The elements before the first that cannot be read. -/
def readable : List (Option ι) → List ι
  | some entry :: rest => entry :: readable rest
  | _ => []

/-- The elements of an object that are read. -/
def jsItems (x : ι) : List ι := readable ((heap x).elements.getD [])

/-- A value of another type, an object without a length, or one with an element that cannot be
read. -/
def JsUnsupported (x : ι) : Prop :=
  heap x = .other ∨ heap x = .object none ∨ ∃ elements, heap x = .object (some elements) ∧
    none ∈ elements

variable {body : ι → Body ι Converted}

theorem mem_of_calls_jsElements {elements : List (Option ι)} {loop : ArrayLoop} {y : ι}
    (h : Calls body (jsElements elements loop) y) : y ∈ readable elements := by
  induction elements generalizing loop with
  | nil => cases h
  | cons element rest ih =>
      cases element with
      | none => cases h
      | some entry =>
          cases h with
          | here => exact List.mem_cons_self ..
          | later returns others => exact List.mem_cons_of_mem _ (ih others)

theorem calls_jsElements {elements : List (Option ι)} {loop : ArrayLoop} {r : Converted}
    (h : Ends body (jsElements elements loop) r) {y : ι} (hy : y ∈ readable elements) :
    Calls body (jsElements elements loop) y := by
  induction elements generalizing loop with
  | nil => cases hy
  | cons element rest ih =>
      cases element with
      | none => cases hy
      | some entry =>
          cases h with
          | call returns others =>
              rcases List.mem_cons.mp hy with rfl | hy
              · exact .here _ _
              · exact .later returns (ih others hy)

/-- The loop of `jsval_to_value` returns the array, or `NULL` where an element cannot be read. -/
theorem ends_jsElements {elements : List (Option ι)} {loop : ArrayLoop} {r : Converted}
    (h : Ends body (jsElements elements loop) r) :
    (none ∈ elements ∧ r.ref = .null) ∨
      (none ∉ elements ∧ ∃ results, List.Forall₂ (Returns body) (readable elements) results ∧
        r = (results.foldl ArrayLoop.append loop).finish) := by
  induction elements generalizing loop with
  | nil =>
      cases h
      exact Or.inr ⟨List.not_mem_nil, [], .nil, rfl⟩
  | cons element rest ih =>
      cases element with
      | none =>
          cases h
          exact Or.inl ⟨List.mem_cons_self .., rfl⟩
      | some entry =>
          cases h with
          | call returns others =>
              rcases ih others with ⟨hmem, hnull⟩ | ⟨hmem, results, hresults, rfl⟩
              · exact Or.inl ⟨List.mem_cons_of_mem _ hmem, hnull⟩
              · refine Or.inr ⟨?_, _ :: results, .cons returns hresults, rfl⟩
                simpa using hmem

theorem js_arrayConverter :
    ArrayConverter (jsBody doubles heap) (jsItems heap) (JsUnsupported heap) where
  follows := by
    intro x y hfollows
    rw [Follows, jsBody] at hfollows
    rw [jsItems]
    cases hx : heap x with
    | object elements =>
        rw [hx] at hfollows
        cases elements with
        | none => exact absurd hfollows not_calls_done
        | some elements => exact mem_of_calls_jsElements hfollows
    | _ =>
        rw [hx] at hfollows
        exact absurd hfollows not_calls_done
  visits := by
    intro x r hr y hy
    rw [returns_iff, jsBody] at hr
    rw [jsItems] at hy
    rw [Follows, jsBody]
    cases hx : heap x with
    | object elements =>
        rw [hx] at hr hy
        cases elements with
        | none => exact absurd hy List.not_mem_nil
        | some elements => exact calls_jsElements hr hy
    | _ =>
        rw [hx] at hy
        exact absurd hy List.not_mem_nil
  failed := by
    intro x r hfails hr
    rw [returns_iff, jsBody] at hr
    rcases hfails with hx | hx | ⟨elements, hx, hmem⟩
    · rw [hx] at hr
      rw [eq_of_ends_done hr]
      rfl
    · rw [hx] at hr
      rw [eq_of_ends_done hr]
      rfl
    · rw [hx] at hr
      rcases ends_jsElements hr with ⟨-, hnull⟩ | ⟨hnot, -⟩
      · exact hnull
      · exact absurd hmem hnot
  kept := by
    intro x r hfails hr
    rw [returns_iff, jsBody] at hr
    rw [jsItems]
    cases hx : heap x with
    | object elements =>
        rw [hx] at hr
        cases elements with
        | none => exact absurd (Or.inr (Or.inl hx)) hfails
        | some elements =>
            rcases ends_jsElements hr with ⟨hmem, -⟩ | ⟨-, results, hresults, rfl⟩
            · exact absurd (Or.inr (Or.inr ⟨elements, hx, hmem⟩)) hfails
            · exact Or.inr ⟨results, hresults, by rw [ArrayLoop.finish_start]⟩
    | other => exact absurd (Or.inl hx) hfails
    | _ =>
        rw [hx] at hr
        refine Or.inl ⟨rfl, ?_⟩
        rw [eq_of_ends_done hr]
        rfl

end JavaScript

end CageKeeper
