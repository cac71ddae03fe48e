import CageKeeper.PythonReferences

/-! The references that the Python backend owns over runs of requests. What a script or a function comes to
is never given up, nor is what a definition makes; what is raised is given up by `handle_exception`, the
traceback and the text of it even where they are `NULL`. -/

namespace CageKeeper
open ByteStream BlockHeap

/-! ### `compile_script_py` and `call_function_py` -/

/-- How `PyRun_String` and `PyObject_CallObject` end: with an object, or with what `PyErr_Fetch` gets and with
what `PyObject_Str` does then, which may call the guest. The traceback and the string may be `NULL`. -/
inductive PyReturn where
  | value (ret : Addr)
  | raised (exception v : Addr) (traceback : Option Addr) (str : PyM (Option Addr))

structure PyCallee where
  callable : Bool
  /-- `function->ob_type->tp_call` is not `NULL`. -/
  hasCall : Bool
  call : (args : Addr) → PyM PyReturn

/-- What `call_function_py` returns. -/
inductive PyCalled where
  /-- `NULL`, after a line of its own. -/
  | refused (error : Option CString)
  | null
  /-- What `pyobject_to_value` makes of this object, to which the reference is kept. -/
  | value (ret : Addr)

/-- The references that `handle_exception` gives up. Of the lines that it logs nothing is said here. -/
def handleException (exception v : Addr) (traceback : Option Addr) (str : PyM (Option Addr)) :
    PyM Unit := do
  let message ← str
  -- neither PyString_AsString nor Py_DECREF tests for NULL
  let message ← HeapM.require message
  pyDecref message
  pyDecref exception
  pyDecref v
  let tb ← HeapM.require traceback
  pyDecref tb

/-- `compile_script_py`, which makes a string first to test the allocation. Nobody gives up what the script
comes to. -/
def compileScriptPy (script : PyM PyReturn) : PyM Bool := do
  let tmp ← HeapM.alloc ⟨1, .string (CString.lit "test").bytes⟩
  pyDecref tmp
  match ← script with
  | .value _ => pure true
  | .raised exception v traceback str => do
      handleException exception v traceback str
      pure false

/-- `call_function_py`. -/
def callFunctionPy (wide : Bool) (doubles : Doubles) (function : Option PyCallee) (name : CString)
    (args : Value) : PyM PyCalled :=
  match function with
  | none => pure (.refused (languageErrorWith (CString.lit "Couldn't find function %s") [.text name]))
  | some f =>
      if !f.callable then
        pure (.refused (languageErrorWith (CString.lit "Object %s is not callable") [.text name]))
      else if !f.hasCall then
        pure (.refused (languageErrorWith (CString.lit "Object %s is not callable") [.text name]))
      else do
        match ← valueToPyobjectHeap wide doubles args true with
        | none => pure .null
        | some args => do
            let kwargs ← HeapM.alloc ⟨1, .other (CString.lit "dict")⟩
            let ret ← f.call args
            pyDecref kwargs
            pyDecref args
            match ret with
            | .value ret => pure (.value ret)
            | .raised exception v traceback str => do
                handleException exception v traceback str
                pure .null

/-- `define_constant_py`, with what `PyDict_SetItem` does. The key and the value are never given up. -/
def defineConstantPy (wide : Bool) (doubles : Doubles) (setItem : (key value : Addr) → PyM Unit)
    (name : CString) (value : Value) : PyM Unit := do
  let key ← HeapM.alloc ⟨1, .string name.bytes⟩
  let value ← valueToPyobjectHeap wide doubles value false
  -- PyDict_SetItem does not test for NULL
  let value ← HeapM.require value
  setItem key value

/-- `define_function_py`, with what `PyDict_SetItemString` does. `PyCFunction_New` takes a reference of its
own; those of the host are never given up. -/
def defineFunctionPy (setItem : (cfunction : Addr) → PyM Unit) : PyM Unit := do
  let self ← HeapM.alloc ⟨1, .other (CString.lit "FunctionProxy")⟩
  let cfunction ← HeapM.alloc ⟨1, .other (CString.lit "builtin_function_or_method")⟩
  HeapM.store self ⟨2, .other (CString.lit "FunctionProxy")⟩
  setItem cfunction

/-! ### What a call leaves -/

/-- How a call ends, with the objects that come of it. -/
inductive PyEnd where
  | value (ret : OwnedObject)
  | raised (exception v : OwnedObject) (traceback : Option OwnedObject) (str : PyM (Option Addr))

namespace PyEnd

def result : PyEnd → PyReturn
  | .value ret => .value ret.root
  | .raised exception v traceback str =>
      .raised exception.root v.root (traceback.map OwnedObject.root) str

def blocks : PyEnd → List (Addr × PyBlock)
  | .value ret => ret.blocks
  | .raised exception v traceback _ =>
      exception.blocks ++ (v.blocks ++ (traceback.map OwnedObject.blocks).getD [])

end PyEnd

/-- How many objects a call leaves, the one it returns with all it holds among them. Of an exception it says
whether there is a traceback, and how many objects `PyObject_Str` leaves, if it does not fail. -/
inductive PyOutcome where
  | returns (left : Nat)
  | raises (left : Nat) (traceback : Bool) (str : Option Nat)

/-- `PyObject_Str` fails, or it gives a new string, and the guest keeps some objects. -/
def StrBehaves (str : PyM (Option Addr)) (v : List (Addr × PyBlock)) : Option Nat → Prop
  | none => ∀ {h h' : Heap PyBlock} {blocks : List (Addr × PyBlock)}, Adds h h' (v ++ blocks) →
      ∃ h'', str h' = some (none, h'')
  | some left => ∀ {h h' : Heap PyBlock} {blocks : List (Addr × PyBlock)}, Adds h h' (v ++ blocks) →
      ∃ message text kept h'', str h' = some (some message, h'') ∧
        Adds h h'' ((OwnedObject.leaf message (.string text)).blocks ++ (kept ++ (v ++ blocks))) ∧
        kept.length = left

namespace PyOutcome

def left : PyOutcome → Nat
  | .returns left => left
  | .raises left _ str => str.getD 0 + left

/-- `handle_exception` gets a `NULL`. -/
def Crashes : PyOutcome → Prop
  | .returns _ => False
  | .raises _ traceback str => traceback = false ∨ str = none

/-- An end of the call, after which the guest keeps some objects. -/
def Allows : PyOutcome → PyEnd → (kept : Nat) → Prop
  | .returns left, .value ret, kept => left = ret.blocks.length + kept
  | .raises left traceback str, .raised _ v tb code, kept =>
      left = kept ∧ traceback = tb.isSome ∧ StrBehaves code v.blocks str
  | _, _, _ => False

end PyOutcome

/-- A piece of code of the guest that may use some objects of the host. It takes no references from them,
and gives up none that are not its own. -/
def GuestBehaves (code : PyM PyReturn) (args : List (Addr × PyBlock)) (outcome : PyOutcome) : Prop :=
  ∀ {h h' : Heap PyBlock} {blocks : List (Addr × PyBlock)}, Adds h h' (args ++ blocks) →
    ∃ ending kept h'', code h' = some (ending.result, h'') ∧
      Adds h h'' (ending.blocks ++ (kept ++ (args ++ blocks))) ∧ outcome.Allows ending kept.length

/-- What the dictionary of the globals does with new objects: it keeps references of its own. -/
def StoreBehaves (code : PyM Unit) (args : List (Addr × PyBlock)) (outcome : PyOutcome) : Prop :=
  ∀ {h h' : Heap PyBlock} {blocks : List (Addr × PyBlock)}, Adds h h' (args ++ blocks) →
    ∃ kept h'', code h' = some ((), h'') ∧ Adds h h'' (kept ++ (args ++ blocks)) ∧
      outcome = .returns kept.length

/-- What the host asks the backend for. Only `is_function_py` is left out, which owns no reference. -/
inductive PyRequest where
  | compileScript (script : PyM PyReturn)
  | callFunction (function : Option PyCallee) (name : CString) (args : Value)
  | defineConstant (setItem : (key value : Addr) → PyM Unit) (name : CString) (value : Value)
  | defineFunction (setItem : (cfunction : Addr) → PyM Unit)

namespace PyRequest

def Behaves : PyRequest → PyOutcome → Prop
  | .compileScript script, outcome => GuestBehaves script [] outcome
  | .callFunction function _ _, outcome => ∀ f, function = some f → ∀ args : OwnedObject,
      GuestBehaves (f.call args.root) args.blocks outcome
  | .defineConstant setItem _ _, outcome => ∀ key value : OwnedObject,
      StoreBehaves (setItem key.root value.root) (value.blocks ++ key.blocks) outcome
  | .defineFunction setItem, outcome => ∀ self cfunction : Addr, StoreBehaves (setItem cfunction)
      [(cfunction, ⟨1, .other (CString.lit "builtin_function_or_method")⟩),
        (self, ⟨2, .other (CString.lit "FunctionProxy")⟩)] outcome

section Runs

variable (wide : Bool) (doubles : Doubles)

def run : PyRequest → PyM Unit
  | .compileScript script => do
      let _ ← compileScriptPy script
      pure ()
  | .callFunction function name args => do
      let _ ← callFunctionPy wide doubles function name args
      pure ()
  | .defineConstant setItem name value => defineConstantPy wide doubles setItem name value
  | .defineFunction setItem => defineFunctionPy setItem

def left : PyRequest → PyOutcome → Nat
  | .compileScript _, outcome => outcome.left
  | .callFunction none _ _, _ => 0
  | .callFunction (some f) _ args, outcome =>
      if f.callable && f.hasCall then
        if (valueToPyobject wide doubles args true).isSome then outcome.left
        else pyMade wide doubles args
      else 0
  | .defineConstant _ _ value, outcome => outcome.left + (pyMade wide doubles value + 1)
  | .defineFunction _, outcome => outcome.left + 2

end Runs

end PyRequest

/-- A request, and what the guest makes of it. -/
structure PyUse where
  request : PyRequest
  outcome : PyOutcome
  behaves : request.Behaves outcome

namespace PyUse

variable (wide : Bool) (doubles : Doubles)

def runAll : List PyUse → PyM Unit
  | [] => pure ()
  | use :: uses => do
      use.request.run wide doubles
      runAll uses

end PyUse

section Leaves

open OwnedObject

variable {wide : Bool} {doubles : Doubles} {h h' : Heap PyBlock} {blocks : List (Addr × PyBlock)}

/-- Code that ends the process, or adds so many objects to those that have been added. -/
def Leaves {α : Type} (code : PyM α) (h h' : Heap PyBlock) (blocks : List (Addr × PyBlock))
    (dies : Prop) (length : Nat) : Prop :=
  (¬dies ∧ ∃ result left h'', code h' = some (result, h'') ∧ Adds h h'' (left ++ blocks) ∧
    left.length = length) ∨ dies ∧ code h' = none

namespace Leaves

variable {α γ : Type} {code : PyM α} {dies dies' : Prop} {length length' : Nat}

theorem bind (hcode : Leaves code h h' blocks dies length) {next : α → PyM γ}
    (hnext : ∀ result left h'', Adds h h'' (left ++ blocks) →
      Leaves (next result) h h'' (left ++ blocks) dies' length') :
    Leaves (code >>= next) h h' blocks (dies ∨ dies') (length' + length) := by
  rcases hcode with ⟨hlives, result, left, h₁, hrun, hadds, hleft⟩ | ⟨hdies, hrun⟩
  · rcases hnext result left h₁ hadds with
      ⟨hothers, last, more, h₂, hrest, hadds', hmore⟩ | ⟨hother, hrest⟩
    · refine Or.inl ⟨not_or.mpr ⟨hlives, hothers⟩, last, more ++ left, h₂,
        (HeapM.bind_eq hrun).trans hrest, ?_, ?_⟩
      · rwa [List.append_assoc]
      · rw [List.length_append, hmore, hleft]
    · exact Or.inr ⟨Or.inr hother, (HeapM.bind_eq hrun).trans hrest⟩
  · refine Or.inr ⟨Or.inl hdies, ?_⟩
    show (code h').bind _ = none
    rw [hrun, Option.bind_none]

theorem pure (hadds : Adds h h' blocks) (result : γ) :
    Leaves (Pure.pure result : PyM γ) h h' blocks False 0 :=
  Or.inl ⟨not_false, result, [], h', rfl, hadds, rfl⟩

theorem drop (hcode : Leaves code h h' blocks dies length) :
    Leaves (do let _ ← code; Pure.pure () : PyM Unit) h h' blocks dies length := by
  have hunit := hcode.bind fun _ _ _ hadds => Leaves.pure hadds ()
  rwa [or_false, Nat.zero_add] at hunit

end Leaves

namespace PyUse

end PyUse

end Leaves

end CageKeeper
