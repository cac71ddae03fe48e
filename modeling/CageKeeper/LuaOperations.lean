import CageKeeper.LanguageFormat
import CageKeeper.LuaConversion

/-! The operations of `language_lua.c` on the stack of the Lua state. A state has room for a number of
objects, and nothing checks that there is some left. What a script returns and what a failed call leaves
stays on the stack, so that there is less room for what comes after it. A function that the host has
defined has a stack of its own for each call. What the guest's program does, and when it fails, is up
to it. -/

namespace CageKeeper
open ByteStream BoundedStack RecursiveCalls

variable {ι : Type}

/-! ### Errors of a conversion -/

section Errors

variable {doubles : Doubles} {heap : ι → LuaObject ι}

end Errors

/-! ### The operations -/

/-- A call of the Lua library that has failed: its status, and the object that it pushes. -/
structure LuaFailure (ι : Type) where
  status : Int
  message : LuaCell ι

/-- A call of a function that the host has defined: the heap and the parameters at that moment, how many it
asks for, and what it returns, unless that is `NULL`. It does not use the interpreter. No metamethod of the
parameters raises an error, which Lua would catch here; one without an answer goes on. -/
structure LuaCallback (ι : Type) where
  heap : LuaHeap ι
  params : List (LuaCell ι)
  numParams : Nat
  call : List ValueRef → Option Value

/-- A use of the interpreter, with what its calls of the Lua library come to and the functions of the host
that are called on the way. Where it converts an object, the heap is the one at that moment. -/
inductive LuaAction (ι : Type) where
  | compileScript (callbacks : List (LuaCallback ι)) (heap : LuaHeap ι)
      (results : Except (LuaFailure ι) (List (LuaCell ι)))
  | defineConstant (value : Value)
  | defineFunction
  | isFunction (found : LuaCell ι)
  | callFunction (name : CString) (args : List Value) (found : LuaCell ι)
      (callbacks : List (LuaCallback ι)) (heap : LuaHeap ι) (result : Except (LuaFailure ι) (LuaCell ι))

/-- What the host gets, with the lines that are reported. -/
inductive LuaReply where
  | compiled (ok : Bool) (errors : List CString)
  | defined
  | isFunction (b : Bool)
  | called (ref : ValueRef) (errors : List CString)

section Operations

variable (numbers : LuaNumbers) (doubles : Doubles)

/-- `lua_tolstring`: of a number it makes a string. Of other objects it has none. -/
def luaTolstring (heap : LuaHeap ι) (cell : LuaCell ι) : Option Bytes :=
  match cell.view heap with
  | .string data _ => some data
  | .number double => some (numbers.text double)
  | _ => none

/-- The stack of a call from Lua: the parameters, and room for as many objects as a new state has. -/
def LuaCallback.frame (callback : LuaCallback ι) : Stack (LuaCell ι) :=
  ⟨callback.params, callback.params.length + luaMinStack⟩

/-- A call from Lua is defined: there are not enough parameters, or each is supported, can be read with the
slots there are, and what the function returns for them can be pushed with these. -/
def LuaCallback.Works (callback : LuaCallback ι) : Prop :=
  callback.params.length < callback.numParams ∨ ∃ refs ret,
    List.Forall₂ (fun cell ref => callback.heap.reads luaMinStack cell = true ∧
        Returns (luaBody doubles (LuaCell.view callback.heap)) cell ⟨ref, []⟩)
      (callback.params.drop (callback.params.length - callback.numParams)) refs ∧
    callback.call refs = some ret ∧ pushRoom ret ≤ luaMinStack

namespace LuaAction

/-- The message of a failure is a string or a number, and as a format it asks for no argument. -/
def Shows (heap : LuaHeap ι) (failure : LuaFailure ι) : Prop :=
  ∃ s, luaTolstring numbers heap failure.message = some s ∧
    (languageError (CString.ofBytes s) []).isSome

/-- The slots that the arguments need, with those of the arguments before them. -/
def argsRoom : List Value → Nat
  | [] => 0
  | value :: args => max (pushRoom value) (argsRoom args + 1)

/-- So many slots are enough, and every line that is reported is defined. -/
def Enough : LuaAction ι → (room : Nat) → Prop
  | compileScript callbacks heap results, room => 1 ≤ room ∧
      (∀ callback ∈ callbacks, callback.Works doubles) ∧
      match results with
      | .error failure => Shows numbers heap failure
      | .ok _ => True
  | defineConstant value, room => pushRoom value ≤ room
  | defineFunction, room => 1 ≤ room
  | isFunction _, room => 1 ≤ room
  | callFunction _ args found callbacks heap result, room => 1 ≤ room ∧
      (found.isFunction → argsRoom args + 1 ≤ room ∧
        (∀ callback ∈ callbacks, callback.Works doubles) ∧
        match result with
        | .error failure => Shows numbers heap failure
        | .ok result => heap.reads (room - 1) result = true ∧
            ∀ cell, Inside (luaItems (LuaCell.view heap)) result cell →
              ¬ LuaUnsupported (LuaCell.view heap) cell)

/-- What stays on the stack: the results of a script, the message of a failure, and what was called
without being a function. -/
def kept : LuaAction ι → List (LuaCell ι)
  | compileScript _ heap (.error failure) =>
      [numbers.string ((luaTolstring numbers heap failure.message).getD [])]
  | compileScript _ _ (.ok results) => results
  | callFunction _ _ found _ heap result =>
      if found.isFunction then
        match result with
        | .error failure => [numbers.string ((luaTolstring numbers heap failure.message).getD [])]
        | .ok _ => []
      else [found]
  | _ => []

/-- The lines that a failure reports: its message, and one that is always there. -/
def Reports (heap : LuaHeap ι) (failure : LuaFailure ι) (errors : List CString) : Prop :=
  ∃ shown line : CString, errors = [shown, line] ∧
    languageError (CString.ofBytes ((luaTolstring numbers heap failure.message).getD [])) [] = some shown

def Answers : LuaAction ι → LuaReply → Prop
  | compileScript _ heap (.error failure), reply =>
      ∃ errors, reply = .compiled false errors ∧ Reports numbers heap failure errors
  | compileScript _ _ (.ok _), reply => reply = .compiled true []
  | isFunction found, reply => reply = .isFunction found.isFunction
  | callFunction _ _ found _ heap result, reply =>
      if found.isFunction then
        match result with
        | .error failure => ∃ errors, reply = .called .null errors ∧ Reports numbers heap failure errors
        | .ok result => ∃ value, reply = .called (.ofValue value) [] ∧
            Returns (luaBody doubles (LuaCell.view heap)) result ⟨.ofValue value, []⟩
      else ∃ line : CString, reply = .called .null [line]
  | _, reply => reply = .defined

end LuaAction

variable {numbers doubles}

/-! ### Lines that are reported -/

theorem LuaAction.Enough.pos {action : LuaAction ι} {room : Nat}
    (h : action.Enough numbers doubles room) : 0 < room := by
  cases action with
  | defineConstant value =>
      have hpos := value.depth_pos
      simp only [LuaAction.Enough, pushRoom] at h
      omega
  | compileScript callbacks heap results => exact h.1
  | callFunction name args found callbacks heap result => exact h.1
  | _ => exact h

end Operations

end CageKeeper
