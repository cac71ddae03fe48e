import CageKeeper.JsRoundTrip
import CageKeeper.LuaArguments
import CageKeeper.NativeDelivery
import CageKeeper.PythonRoundTrip
import CageKeeper.WireLaws

/-! Callbacks from the guest. The four proxies pass the arguments of the guest to a registered function,
and what the function returns back to the guest. A function that fails returns `NULL`, which only the
proxy of JavaScript looks for. -/

namespace CageKeeper
open ByteStream RecursiveCalls

/-! ### Pointers that are read through -/

namespace ValueRef

mutual

/-- The value that a function finds behind a pointer, unless it comes to a `NULL`. -/
def read : ValueRef → Option Value
  | .null => none
  | .void => some .void
  | .float32 bits => some (.float32 bits)
  | .int32 bits => some (.int32 bits)
  | .boolean b => some (.boolean b)
  | .string str => some (.string str)
  | .array data => (readAll data).map .array

def readAll : List ValueRef → Option (List Value)
  | [] => some []
  | entry :: data => do
      let first ← read entry
      let others ← readAll data
      pure (first :: others)

end

theorem read_ofValue (value : Value) : read (ofValue value) = some value := by
  induction value using Value.induction with
  | array data ih =>
      have hall : readAll (ofValues data) = some data := by
        induction data with
        | nil => rfl
        | cons entry data ihdata =>
            rw [List.forall_mem_cons] at ih
            rw [ofValues, readAll, ih.1, ihdata ih.2]
            rfl
      rw [ofValue, read, hall]
      rfl
  | _ => rfl

end ValueRef

/-! ### The guest's arguments -/

section Arguments

variable {ι : Type} (doubles : Doubles)

theorem exists_pyArguments {heap : ι → PyObject ι} {x : ι}
    (hx : ConvertsWell (pyElements heap) (PyUnsupported heap) x) :
    ∃ args errors, Returns (pyBody doubles heap) x ⟨.ofValue args, errors⟩ :=
  (py_arrayConverter doubles heap).exists_value hx

theorem exists_luaArguments {heap : ι → LuaObject ι} {params : Nat} {states : LuaStates ι}
    (hheight : params ≤ states.state.length)
    (hslots : ∀ slot ∈ lastSlots params states.state, Convertible heap slot) :
    ∃ args frames passed, functionProxyArguments doubles heap frames params states
        = some (.passed passed states.state) ∧ passed.finish.ref = .ofValue args := by
  obtain ⟨data, hdata⟩ := exists_luaReadsAll doubles hslots
  obtain ⟨frames, passed, hpassed, href⟩ := passes_iff.mpr ⟨hheight, hdata⟩
  exact ⟨.array data, frames, passed, hpassed, href⟩

theorem exists_jsArguments {heap : ι → JsValue ι} {argv : List ι}
    (hargv : ∀ x ∈ argv, ConvertsWell (jsItems heap) (JsUnsupported heap) x) :
    ∃ args errors, Ends (jsBody doubles heap) (jsArgvToArgs argv) ⟨.ofValue args, errors⟩ := by
  have hconverts : ∀ x ∈ argv, ∃ converted : Value × List (Option CString),
      Returns (jsBody doubles heap) x ⟨.ofValue converted.1, converted.2⟩ := by
    intro x hx
    obtain ⟨value, errors, h⟩ := (js_arrayConverter doubles heap).exists_value (hargv x hx)
    exact ⟨(value, errors), h⟩
  have : Nonempty (Value × List (Option CString)) := ⟨(.void, [])⟩
  choose! converted hvalue using hconverts
  refine ⟨.array (argv.map fun x => (converted x).1), argv.flatMap fun x => (converted x).2,
    ends_convertAll_iff.mpr
      ⟨argv.map fun x => ⟨.ofValue (converted x).1, (converted x).2⟩, ?_, ?_⟩⟩
  · exact List.forall₂_map_right_iff.mpr (List.forall₂_same.mpr hvalue)
  · rw [ValueRef.ofValue, ValueRef.ofValues_eq_map, List.map_map, List.map_map, List.flatMap_map]
    rfl

/-- An object of another type, or an integer for which `NUM2INT` raises an exception. -/
def RubyUnsupported (heap : ι → RubyObject ι) (x : ι) : Prop :=
  heap x = .other ∨ ∃ value, (heap x = .bignum value ∨ heap x = .fixnum value) ∧
    num2int value = .rangeError

theorem ends_rubyElements {body : ι → Body ι RubyResult} {items : List ι} {value : ι → Value}
    (hitems : ∀ x ∈ items, Returns body x (.value (.ofValue (value x)))) (array : ArrayValue) :
    Ends body (rubyElements items array)
      (.value (.array (array.data ++ ValueRef.ofValues (items.map value)))) := by
  induction items generalizing array with
  | nil =>
      rw [List.map_nil, ValueRef.ofValues, List.append_nil]
      exact .done _
  | cons item items ih =>
      rw [List.forall_mem_cons] at hitems
      refine .call hitems.1 ?_
      have hrest := ih hitems.2 (array.arrayAppend (.ofValue (value item)))
      rw [ArrayValue.arrayAppend_data, List.append_assoc] at hrest
      exact hrest

theorem returns_rubyLeaf {heap : ι → RubyObject ι} {x : ι} {object : RubyObject ι} {value : Value}
    (hx : heap x = object) (hdone : rubyToValue doubles object = .done (.value (.ofValue value))) :
    Returns (rubyBody doubles heap) x (.value (.ofValue value)) := by
  rw [returns_iff, rubyBody, hx, hdone]
  exact .done _

theorem exists_rubyArguments {heap : ι → RubyObject ι} {x : ι}
    (hx : ConvertsWell (rubyItems heap) (RubyUnsupported heap) x) :
    ∃ args, Returns (rubyBody doubles heap) x (.value (.ofValue args)) := by
  obtain ⟨hacyclic, hsupported⟩ := hx
  induction hacyclic with
  | intro x _ ih =>
      have hself : ¬ RubyUnsupported heap x := hsupported x .refl
      cases hx : heap x with
      | array items =>
          have hitems : ∀ y ∈ items, ∃ value,
              Returns (rubyBody doubles heap) y (.value (.ofValue value)) := by
            intro y hy
            have hholds : Holds (rubyItems heap) x y := by
              rw [Holds, rubyItems, hx]
              exact hy
            exact ih y hholds fun z hz => hsupported z (.head hholds hz)
          have : Nonempty Value := ⟨.void⟩
          choose! value hvalue using hitems
          refine ⟨.array (items.map value), returns_iff.mpr ?_⟩
          have hbody : rubyBody doubles heap x = rubyElements items .arrayNew := by
            rw [rubyBody, hx, rubyToValue]
          rw [hbody]
          exact ends_rubyElements hvalue .arrayNew
      | other => exact absurd (Or.inl hx) hself
      | bignum value | fixnum value =>
          have hrange : num2int value ≠ .rangeError := by
            intro hraised
            apply hself
            right
            exact ⟨value, by simp [hx], hraised⟩
          rw [num2int] at hrange
          have hdone : rubyBody doubles heap x = .done (num2int value) := by
            rw [rubyBody, hx, rubyToValue]
          refine ⟨.int32 (int32Of value), returns_iff.mpr ?_⟩
          rw [hdone, num2int, if_pos (by by_contra hout; exact hrange (if_neg hout))]
          exact .done _
      | nil => exact ⟨.void, returns_rubyLeaf doubles hx rfl⟩
      | true => exact ⟨.boolean true, returns_rubyLeaf doubles hx rfl⟩
      | false => exact ⟨.boolean false, returns_rubyLeaf doubles hx rfl⟩
      | float double => exact ⟨.float32 (doubles.narrow double), returns_rubyLeaf doubles hx rfl⟩
      | symbol data | string data =>
          exact ⟨.string (CString.ofBytes data), returns_rubyLeaf doubles hx rfl⟩

end Arguments

/-! ### Registered functions -/

/-- A registered function at the time of a call: a native one, with the answer of `ffi_prep_cif` and
what the function leaves in `ret_raw`, or one of the parent, with the pipe to read its reply from. -/
inductive Callback (χ : Type) where
  | native (prepared : Bool) (f : CFunction χ) (raw : RetRaw)
  | proxied (pipe : Pipe)

/-- `f->call(f, args)`: `cfunction_call` or `proxy_function_call`. No result is a call that does not
return. -/
def Callback.call {χ : Type} (floats : FloatOps) : Callback χ → Value → Option ValueRef
  | .native prepared f raw, args =>
      (cfunctionCall floats prepared f (fun _ => raw) args).map CallOutcome.value
  | .proxied pipe, _ =>
      match readValueNolimit.attempt pipe with
      | .ok reply _ => some (reply.elim .null .ofValue)
      | _ => none

inductive ProxyEnd (τ : Type) where
  | waits
  /-- A `NULL` is passed to `value_destroy` or to the conversion to the guest. -/
  | crashed
  | returned (result : τ)
  /-- The guest gets an error, and a line with this format is reported. -/
  | failed (format : CString)

section Proxies

variable {χ : Type} (wide : Bool) (readsNumber : Bytes → Option (BitVec 64)) (floats : FloatOps)

/-- The conversion of a result to the guest and the end of the result, unless they come to a `NULL`. -/
def giveBack {τ : Type} (convert : Value → τ) (ret : ValueRef) : Option (ProxyEnd τ) := do
  let value ← ret.read
  ret.destroy
  pure (.returned (convert value))

/-- What the proxies have in common once the guest's arguments are converted: the call, the end of the
arguments, and the result. -/
def functionProxy {τ : Type} (convert : Value → τ) (f : Callback χ) (args : Value) : ProxyEnd τ :=
  match f.call floats args with
  | none => .waits
  | some ret =>
      ((ValueRef.ofValue args).destroy.bind fun _ => giveBack convert ret).getD .crashed

/-- `python_method_proxy`. `value_to_pyobject` may return its own `NULL` before it comes to one in an
array; then it is `value_destroy` that comes to it. -/
def pythonMethodProxy (f : Callback χ) (args : Value) : ProxyEnd (Option PyTree) :=
  functionProxy floats (valueToPyobject wide ieeeDoubles · false) f args

/-- `lua_function_proxy`. -/
def luaFunctionProxy (f : Callback χ) (args : Value) : ProxyEnd LuaTree :=
  functionProxy floats (pushValue readsNumber) f args

/-- A new Ruby object with all objects it holds. -/
inductive RubyTree where
  | new (object : RubyObject RubyTree)

mutual

/-- `value_to_ruby`. -/
def valueToRuby : Value → RubyTree
  | .void => .new .nil
  | .float32 bits => .new (.float (ieeeDoubles.widen bits))
  | .int32 bits => .new (.fixnum bits.toInt)
  | .boolean b => .new (if b then .true else .false)
  | .string str => .new (.string str.bytes)
  | .array data => .new (.array (entriesToRuby data))

/-- The loop of `value_to_ruby` over the elements of an array. -/
def entriesToRuby : List Value → List RubyTree
  | [] => []
  | value :: data => valueToRuby value :: entriesToRuby data

end

/-- `ruby_function_proxy`, for a function. -/
def rubyFunctionProxy (f : Callback χ) (args : Value) : ProxyEnd RubyTree :=
  functionProxy floats valueToRuby f args

/-- `js_function_proxy`, for a function that it knows. -/
def jsFunctionProxy (f : Callback χ) (args : Value) : ProxyEnd JsTree :=
  match f.call floats args with
  | none => .waits
  | some ret =>
      ((ValueRef.ofValue args).destroy.bind fun _ =>
        match ret with
        | .null => some (.failed (CString.lit "Failed calling function %p"))
        | ret => giveBack valueToJsval ret).getD .crashed

inductive Backend where
  | python
  | lua
  | js
  | ruby

/-- No `NULL` is passed to `value_destroy` or to the conversion of the result. -/
def PassesNoNull (f : Callback χ) (args : Value) : Backend → Prop
  | .python => pythonMethodProxy wide floats f args ≠ .crashed
  | .lua => luaFunctionProxy readsNumber floats f args ≠ .crashed
  | .js => jsFunctionProxy floats f args ≠ .crashed
  | .ruby => rubyFunctionProxy floats f args ≠ .crashed

/-! ### When a function fails -/

/-- A native function gets arguments that fit, and an array it returns is one without `NULL`; a reply
of the parent can be read, or does not come. -/
def Callback.Gives : Callback χ → Value → Prop
  | .native prepared f raw, args => prepared = true ∧ WellTyped f args ∧
      (parseType (f.ret.bytes.headD 0) = .array → raw.ptr.noNull = true)
  | .proxied pipe, _ => ∀ rest, (readValueNolimit pipe : Outcome Pipe Value) ≠ .reject rest

/-- A native function is not called, or returns `NULL` for an array; the reply of the parent is
not read. -/
def Callback.Refuses : Callback χ → Value → Prop
  | .native prepared f raw, args => prepared = true → WellTyped f args →
      parseType (f.ret.bytes.headD 0) = .array ∧ raw.ptr = .null
  | .proxied pipe, _ => ∃ rest, (readValueNolimit pipe : Outcome Pipe Value) = .reject rest

theorem call_native_value (f : CFunction χ) (raw : RetRaw) {args : Value}
    (hargs : WellTyped f args) :
    ∃ value, returnValue (parseType (f.ret.bytes.headD 0)) raw = some value ∧
      (Callback.native true f raw).call floats args = some value := by
  obtain ⟨data, rfl, hdata⟩ := hargs
  have htyped := (wellTyped_array_iff f data).mp ⟨data, rfl, hdata⟩
  have hlength := htyped.length_eq
  obtain ⟨stores, hstores⟩ :=
    (marshal_isOk_iff floats (void_not_mem_paramTypes f) data 0 hlength).mpr htyped
  obtain ⟨value, hvalue⟩ := returnValue_isSome (f.ret.bytes.headD 0) raw
  refine ⟨value, hvalue, ?_⟩
  rw [Callback.call, cfunctionCall_array, if_neg (fun h => h hlength), hstores]
  simp only [hvalue, Option.bind_some, Option.map_some]

theorem call_native_null {prepared : Bool} (f : CFunction χ) (raw : RetRaw) {args : Value}
    (hargs : ¬ (prepared = true ∧ WellTyped f args)) :
    (Callback.native prepared f raw).call floats args = some .null := by
  rw [Callback.call]
  cases prepared with
  | false =>
      simp only [cfunctionCall, functionGetSignature, functionFfiArgsPlusOne_eq,
        typeToFfiType_parseType]
      rfl
  | true =>
      obtain ⟨outcome, houtcome, hchecked⟩ :=
        cfunctionCall_checked floats f (fun _ => raw) args
      have hnull := (hchecked.refused fun h => hargs ⟨rfl, h⟩).1
      rw [houtcome, Option.map_some, hnull]

variable {floats}

theorem returnValue_noNull_iff {t : ValueType} {raw : RetRaw} {value : ValueRef}
    (h : returnValue t raw = some value) :
    value.noNull = true ↔ (t = .array → raw.ptr.noNull = true) := by
  cases t <;> cases h <;> simp [ValueRef.noNull]

theorem returnValue_null_iff {t : ValueType} {raw : RetRaw} {value : ValueRef}
    (h : returnValue t raw = some value) : value = .null ↔ t = .array ∧ raw.ptr = .null := by
  cases t <;> cases h <;> simp

theorem call_proxied_iff {pipe : Pipe} {args : Value} {ret : ValueRef} :
    (Callback.proxied pipe : Callback χ).call floats args = some ret ↔
      (∃ value rest, readValueNolimit pipe = .ok value rest ∧ ret = .ofValue value) ∨
        ∃ rest, (readValueNolimit pipe : Outcome Pipe Value) = .reject rest ∧ ret = .null := by
  rw [Callback.call, Reader.attempt_apply]
  cases readValueNolimit pipe <;> simp [eq_comm]

variable (floats) in
theorem gives_iff (f : Callback χ) (args : Value) :
    f.Gives args ↔ ∀ ret, f.call floats args = some ret → ret.noNull = true := by
  cases f with
  | native prepared f raw =>
      by_cases hcalled : prepared = true ∧ WellTyped f args
      · obtain ⟨rfl, hargs⟩ := hcalled
        obtain ⟨value, hvalue, hcall⟩ := call_native_value floats f raw hargs
        rw [Callback.Gives, ← returnValue_noNull_iff hvalue, hcall]
        simp [hargs]
      · rw [call_native_null floats f raw hcalled]
        refine iff_of_false (fun h => hcalled ⟨h.1, h.2.1⟩) fun h => ?_
        cases h .null rfl
  | proxied pipe =>
      rw [Callback.Gives]
      constructor
      · intro hnot ret hret
        rcases call_proxied_iff.mp hret with ⟨value, -, -, rfl⟩ | ⟨rest, hreject, -⟩
        · exact ValueRef.noNull_ofValue value
        · exact absurd hreject (hnot rest)
      · intro h rest hreject
        cases h .null (call_proxied_iff.mpr (Or.inr ⟨rest, hreject, rfl⟩))

variable (floats) in
theorem refuses_iff (f : Callback χ) (args : Value) :
    f.Refuses args ↔ f.call floats args = some .null := by
  cases f with
  | native prepared f raw =>
      by_cases hcalled : prepared = true ∧ WellTyped f args
      · obtain ⟨rfl, hargs⟩ := hcalled
        obtain ⟨value, hvalue, hcall⟩ := call_native_value floats f raw hargs
        rw [Callback.Refuses, hcall, Option.some.injEq, returnValue_null_iff hvalue]
        simp [hargs]
      · exact iff_of_true (fun hprepared hargs => absurd ⟨hprepared, hargs⟩ hcalled)
          (call_native_null floats f raw hcalled)
  | proxied pipe =>
      rw [Callback.Refuses, call_proxied_iff]
      constructor
      · exact fun ⟨rest, hreject⟩ => Or.inr ⟨rest, hreject, rfl⟩
      · rintro (⟨value, -, -, hnull⟩ | ⟨rest, hreject, -⟩)
        · exact absurd hnull.symm (ValueRef.ofValue_ne_null value)
        · exact ⟨rest, hreject⟩

/-! ### What the proxies do with the result -/

theorem giveBack_ne_crashed_iff {τ : Type} (convert : Value → τ) (ret : ValueRef) :
    (giveBack convert ret).getD .crashed ≠ .crashed ↔ ret.noNull = true := by
  constructor
  · intro h
    by_contra hnull
    have hdestroy : ret.destroy = none := by
      rw [← ValueRef.destroy_eq_some_iff] at hnull
      exact Option.eq_none_iff_forall_not_mem.mpr fun _ => hnull
    apply h
    rw [giveBack, hdestroy]
    cases ret.read <;> rfl
  · intro h
    obtain ⟨value, rfl⟩ := ValueRef.noNull_iff.mp h
    rw [giveBack, ValueRef.read_ofValue, ValueRef.destroy_eq_some_iff.mpr h]
    exact nofun

theorem destroy_ofValue (value : Value) : (ValueRef.ofValue value).destroy = some () :=
  ValueRef.destroy_eq_some_iff.mpr (ValueRef.noNull_ofValue value)

theorem functionProxy_ne_crashed_iff {τ : Type} (convert : Value → τ) (f : Callback χ)
    (args : Value) :
    functionProxy floats convert f args ≠ .crashed ↔
      ∀ ret, f.call floats args = some ret → ret.noNull = true := by
  rw [functionProxy]
  cases f.call floats args with
  | none => simp
  | some ret =>
      simp only [destroy_ofValue, Option.bind_some, Option.some.injEq, forall_eq']
      exact giveBack_ne_crashed_iff convert ret

theorem jsFunctionProxy_ne_crashed_iff (f : Callback χ) (args : Value) :
    jsFunctionProxy floats f args ≠ .crashed ↔
      ∀ ret, f.call floats args = some ret → ret = .null ∨ ret.noNull = true := by
  rw [jsFunctionProxy]
  cases f.call floats args with
  | none => simp
  | some ret =>
      simp only [destroy_ofValue, Option.bind_some, Option.some.injEq, forall_eq']
      by_cases hnull : ret = .null
      · rw [hnull]
        simp
      · rw [or_iff_right hnull, ← giveBack_ne_crashed_iff valueToJsval ret]
        cases ret with
        | null => exact absurd rfl hnull
        | _ => rfl

end Proxies

/-- **Failing callbacks.** No `NULL` is passed on if and only if the function does not come to return
one; to the proxy of JavaScript it may return `NULL` itself. -/
theorem passesNoNull_iff {χ : Type} (wide : Bool) (readsNumber : Bytes → Option (BitVec 64))
    (floats : FloatOps) (f : Callback χ) (args : Value) (backend : Backend) :
    PassesNoNull wide readsNumber floats f args backend ↔
      f.Gives args ∨ backend = .js ∧ f.Refuses args := by
  rw [gives_iff floats, refuses_iff floats]
  cases backend with
  | js =>
      rw [PassesNoNull, jsFunctionProxy_ne_crashed_iff]
      cases f.call floats args with
      | none => simp
      | some ret => simp [or_comm]
  | _ => simp [PassesNoNull, pythonMethodProxy, luaFunctionProxy, rubyFunctionProxy,
      functionProxy_ne_crashed_iff]

/-- A Python script calls a function for an integer with a string. -/
theorem not_passesNoNull_string :
    ¬ ∀ (f : Callback Unit) (args : List Value) (backend : Backend),
      PassesNoNull false (fun _ => none) zeroFloats f (.array args) backend := by
  intro h
  have hpython := h (.native true (quietFunction "i") (quietReturn ⟨(), [], []⟩))
    [.string (CString.lit "")] .python
  have hargs : ¬ WellTyped (quietFunction "i") (.array [.string (CString.lit "")]) := by
    rw [wellTyped_array_iff]
    intro htyped
    cases htyped with
    | cons hconvertible => cases hconvertible
  have hcall : (Callback.native true (quietFunction "i") (quietReturn ⟨(), [], []⟩)).call zeroFloats
      (.array [.string (CString.lit "")]) = some .null :=
    call_native_null zeroFloats _ _ fun hcalled => hargs hcalled.2
  cases (functionProxy_ne_crashed_iff _ _ _).mp hpython .null hcall

end CageKeeper
