import CageKeeper.ValueNumbers

/-! Values that go to JavaScript and come back. The tag of a `jsval` tells integers from doubles, and
`null` from objects, so that `jsval_to_value` undoes `value_to_jsval`. -/

namespace CageKeeper
open ByteStream RecursiveCalls BinaryFloat
open Float.Model.UnpackedFloat

/-! ### Arrays of new objects -/

/-- A `jsval` with all values it holds. -/
inductive JsTree where
  | new (value : JsValue JsTree)

def JsTree.value : JsTree → JsValue JsTree
  | .new value => value

/-- `JS_SetElement` on an array: its length becomes one more than the last index that is set, and an
element that is not set reads as undefined. -/
def jsSetElement (elements : List (Option JsTree)) (i : Nat) (entry : JsTree) :
    List (Option JsTree) :=
  if i < elements.length then elements.set i (some entry)
  else elements ++ List.replicate (i - elements.length) (some (.new .void)) ++ [some entry]

theorem jsSetElement_length (elements : List (Option JsTree)) (entry : JsTree) :
    jsSetElement elements elements.length entry = elements ++ [some entry] := by
  rw [jsSetElement, if_neg (Nat.lt_irrefl _), Nat.sub_self, List.replicate_zero, List.append_nil]

/-- `DOUBLE_TO_JSVAL`, which replaces a double that is not a number by one such double. -/
def doubleToJsval (double : BitVec 64) : BitVec 64 :=
  if @isNaNBits .binary64 double then packedNaN .binary64 else double

mutual

/-- `value_to_jsval`. -/
def valueToJsval : Value → JsTree
  | .void => .new .null
  | .float32 bits => .new (.double (doubleToJsval (ieeeDoubles.widen bits)))
  | .int32 bits => .new (.int bits)
  | .boolean b => .new (.boolean b)
  | .string str => .new (.string str.bytes)
  | .array data => .new (.object (some (entriesToJsvals data 0 [])))

/-- The loop of `value_to_jsval` over the elements of an array. -/
def entriesToJsvals : List Value → (i : Nat) → List (Option JsTree) → List (Option JsTree)
  | [], _, elements => elements
  | value :: data, i, elements =>
      entriesToJsvals data (i + 1) (jsSetElement elements i (valueToJsval value))

end

theorem entriesToJsvals_eq (data : List Value) (elements : List (Option JsTree)) :
    entriesToJsvals data elements.length elements
      = elements ++ (data.map valueToJsval).map some := by
  induction data generalizing elements with
  | nil => rw [entriesToJsvals, List.map_nil, List.map_nil, List.append_nil]
  | cons value data ih =>
      have hnext := ih (elements ++ [some (valueToJsval value)])
      rw [List.length_append, List.length_singleton] at hnext
      rw [entriesToJsvals, jsSetElement_length, hnext, List.append_assoc]
      rfl

/-! ### Floats in a tree -/

namespace Value

mutual

def floats : Value → List (BitVec 32)
  | .float32 bits => [bits]
  | .array data => floatsOfList data
  | _ => []

def floatsOfList : List Value → List (BitVec 32)
  | [] => []
  | entry :: data => floats entry ++ floatsOfList data

end

theorem eq_of_alike {value back : Value} (halike : value.Alike SameLeaf back)
    (hfloats : ∀ bits ∈ value.floats, unpack .binary32 bits ≠ .notANumber) : back = value := by
  induction value using Value.induction generalizing back with
  | void => cases back <;> first | rfl | cases halike
  | float32 bits =>
      cases back with
      | float32 bits' =>
          rcases halike with rfl | ⟨hnan, -⟩
          · rfl
          · exact absurd hnan (hfloats bits (List.mem_singleton.mpr rfl))
      | _ => cases halike
  | int32 bits | boolean b | string str =>
      cases back <;> first | exact congrArg _ (Eq.symm halike) | cases halike
  | array data ih =>
      cases back with
      | array backs =>
          rw [Alike, alikeList_iff] at halike
          congr 1
          induction halike with
          | nil => rfl
          | cons hentry _ ihdata =>
              rw [floats, floatsOfList] at hfloats
              rw [ih _ (List.mem_cons_self ..) hentry fun bits hmem =>
                  hfloats bits (List.mem_append_left _ hmem),
                ihdata (fun other hmem => ih other (List.mem_cons_of_mem _ hmem)) fun bits hmem =>
                  hfloats bits (List.mem_append_right _ hmem)]
      | _ => cases halike

end Value

/-! ### What comes back -/

/-- `jsval_to_value` makes a value, without a report, of what `value_to_jsval` makes of another. -/
def JsComesBackAs (value back : Value) : Prop :=
  Returns (jsBody ieeeDoubles JsTree.value) (valueToJsval value) (.value (.ofValue back))

/-- A value comes back from JavaScript as a tree of the same shape with the same leaves, and as itself
if every `float` in it is a number. -/
def JsTripsBack (value : Value) : Prop :=
  ∃ back, JsComesBackAs value back ∧ value.Alike Value.SameLeaf back ∧
    ((∀ bits ∈ value.floats, unpack .binary32 bits ≠ .notANumber) → back = value)

theorem jsComesBackAs_leaf {value back : Value} {jsval : JsValue JsTree}
    (hout : valueToJsval value = .new jsval)
    (hback : jsvalToValue ieeeDoubles jsval = .done (.value (.ofValue back))) :
    JsComesBackAs value back := by
  unfold JsComesBackAs
  rw [returns_iff, hout]
  change Ends _ (jsvalToValue ieeeDoubles jsval) _
  rw [hback]
  exact .done _

theorem sameLeaf_float32 (bits : BitVec 32) :
    Value.SameLeaf (.float32 bits)
      (.float32 (ieeeDoubles.narrow (doubleToJsval (ieeeDoubles.widen bits)))) := by
  have hback := ieeeDoubles.narrow_widen bits
  unfold doubleToJsval
  split
  · rename_i hwide
    have hbits : @isNaNBits .binary32 (ieeeDoubles.narrow (ieeeDoubles.widen bits)) = true :=
      convertBits_of_isNaN hwide
    rw [hback] at hbits
    exact Or.inr ⟨(isNaNBits_iff _).mp hbits,
      (isNaNBits_iff _).mp (convertBits_of_isNaN isNaNBits_packedNaN)⟩
  · exact Or.inl hback.symm

theorem jsElements_map_some {ι : Type} (items : List ι) (loop : ArrayLoop) :
    jsElements (items.map some) loop
      = forEach ArrayLoop.append ArrayLoop.finish items loop := by
  induction items generalizing loop with
  | nil => rfl
  | cons item items ih =>
      rw [List.map_cons, jsElements, forEach]
      congr 1
      funext result
      exact ih _

theorem jsComesBackAs_array {data backs : List Value}
    (hdata : List.Forall₂ JsComesBackAs data backs) :
    JsComesBackAs (.array data) (.array backs) := by
  have helements : entriesToJsvals data 0 [] = (data.map valueToJsval).map some :=
    entriesToJsvals_eq data []
  have hbody : jsBody ieeeDoubles JsTree.value (valueToJsval (.array data))
      = convertAll (data.map valueToJsval) := by
    calc
      jsBody ieeeDoubles JsTree.value (valueToJsval (.array data))
          = jsElements (entriesToJsvals data 0 []) .start := rfl
      _ = jsElements ((data.map valueToJsval).map some) .start := by rw [helements]
      _ = convertAll (data.map valueToJsval) := jsElements_map_some _ _
  unfold JsComesBackAs
  rw [returns_iff, hbody, ends_convertAll_iff]
  refine ⟨backs.map fun back => .value (.ofValue back), ?_, ?_⟩
  · rw [List.forall₂_map_left_iff, List.forall₂_map_right_iff]
    exact hdata
  · rw [Converted.value, ValueRef.ofValue, ValueRef.ofValues_eq_map, List.map_map]
    congr 1
    apply Eq.symm
    rw [List.flatMap_map, List.flatMap_eq_nil_iff]
    exact fun _ _ => rfl

theorem exists_jsComesBackAs (value : Value) :
    ∃ back, JsComesBackAs value back ∧ value.Alike Value.SameLeaf back := by
  induction value using Value.induction with
  | void => exact ⟨.void, jsComesBackAs_leaf rfl rfl, trivial⟩
  | float32 bits => exact ⟨.float32 _, jsComesBackAs_leaf rfl rfl, sameLeaf_float32 bits⟩
  | int32 bits => exact ⟨.int32 bits, jsComesBackAs_leaf rfl rfl, rfl⟩
  | boolean b => exact ⟨.boolean b, jsComesBackAs_leaf rfl rfl, rfl⟩
  | string str =>
      have hback : jsvalToValue ieeeDoubles (JsValue.string str.bytes : JsValue JsTree)
          = .done (.value (.ofValue (.string (CString.ofBytes str.bytes)))) := rfl
      rw [CString.ofBytes_bytes] at hback
      exact ⟨.string str, jsComesBackAs_leaf rfl hback, rfl⟩
  | array data ih =>
      choose! back hback halike using ih
      refine ⟨.array (data.map back), jsComesBackAs_array ?_, Value.alikeList_iff.mpr ?_⟩
      · exact List.forall₂_map_right_iff.mpr (List.forall₂_same.mpr hback)
      · exact List.forall₂_map_right_iff.mpr (List.forall₂_same.mpr halike)

/-- **Values through JavaScript.** Every value comes back. -/
theorem jsTripsBack (value : Value) : JsTripsBack value := by
  obtain ⟨back, hback, halike⟩ := exists_jsComesBackAs value
  exact ⟨back, hback, halike, Value.eq_of_alike halike⟩

end CageKeeper
