import CageKeeper.LuaConversion

/-! When a conversion returns, and what it returns then. The converters recurse along the elements of
containers and remember nothing, so they return on objects that do not contain themselves, if the guest
answers when it is asked for an element and, in Lua, the stack has room; the result for an object inside
a container is stored without a look at it, `NULL` included. -/

namespace CageKeeper
open ByteStream BoundedStack RecursiveCalls

/-! ### All or nothing -/

/-- `js_argv_to_args` always returns an array, and it has no `NULL` in it if and only if nothing
inside any of the arguments fails. -/
theorem jsArgvToArgs_noNull_iff {ι : Type} (doubles : Doubles) (heap : ι → JsValue ι)
    {argv : List ι} (hacyclic : ∀ x ∈ argv, FiniteAcyclic (jsItems heap) x) {r : Converted}
    (h : Ends (jsBody doubles heap) (jsArgvToArgs argv) r) :
    r.ref ≠ .null ∧ (r.ref.noNull = true ↔
      ∀ x ∈ argv, ∀ y, Inside (jsItems heap) x y → ¬ JsUnsupported heap y) := by
  obtain ⟨results, hresults, rfl⟩ := ends_convertAll_iff.mp h
  refine ⟨nofun, ArrayConverter.noNull_array_iff hresults fun x hx _ hreturns => ?_⟩
  exact (js_arrayConverter doubles heap).noNull_iff (hacyclic x hx) hreturns

/-- Conversions for objects without floats. -/
def noDoubles : Doubles where
  narrow double := double.truncate 32
  widen bits := bits.zeroExtend 64
  toInteger _ := 0
  narrow_widen bits := by simp

/-- `ruby_to_value` on a heap. -/
def rubyBody {ι : Type} (doubles : Doubles) (heap : ι → RubyObject ι) (x : ι) :
    Body ι RubyResult := rubyToValue doubles (heap x)

/-- The elements of a Ruby array on a heap. -/
def rubyItems {ι : Type} (heap : ι → RubyObject ι) (x : ι) : List ι := (heap x).items

end CageKeeper
