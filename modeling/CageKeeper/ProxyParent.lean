import CageKeeper.WireLaws
import CageKeeper.ValueRef
import CageKeeper.CallbackTable
import CageKeeper.LanguageLog

/-! The host's side of `language_proxy.c`. The five operations of a proxy and the loop that serves
the child's messages are cut at their blocking reads into the steps of one process. The functions
the host registers are programs of their own: they may use the proxy they are called from. -/

namespace CageKeeper
open ByteStream

/-! ### Codes on the wire -/

inductive Command where
  | defineConstant
  | defineFunction
  | compileScript
  | isFunction
  | callFunction
  deriving DecidableEq

inductive Resp where
  | callback
  | return
  | error
  | log
  deriving DecidableEq

namespace Command

def code : Command → UInt8
  | .defineConstant => 1
  | .defineFunction => 2
  | .compileScript => 3
  | .isFunction => 4
  | .callFunction => 5

def ofCode (b : UInt8) : Option Command :=
  [defineConstant, defineFunction, compileScript, isFunction, callFunction].find? (·.code = b)

@[simp] theorem ofCode_code (command : Command) : ofCode command.code = some command := by
  cases command <;> rfl

end Command

namespace Resp

def code : Resp → UInt8
  | .callback => 10
  | .return => 11
  | .error => 12
  | .log => 13

def ofCode (b : UInt8) : Option Resp := [callback, «return», error, log].find? (·.code = b)

@[simp] theorem ofCode_code (resp : Resp) : ofCode resp.code = some resp := by
  cases resp <;> rfl

theorem eq_code_of_ofCode {b : UInt8} {resp : Resp} (h : ofCode b = some resp) : b = resp.code := by
  have hfound := List.find?_some h
  simpa using (of_decide_eq_true hfound).symm

end Resp

/-! ### Messages of the child -/

/-- One message as `process_callbacks` reads it. -/
inductive Message where
  /-- A read failed and `process_callbacks` gives up. -/
  | failed
  | callback (name : CString) (args : Value)
  /-- The text may be missing: `read_string` is not checked here. -/
  | log (message : Option CString)
  | error
  | return
  /-- A byte that is no tag; the loop goes on. -/
  | other

section Reading

variable {χ : Type} [Channel χ]

/-- The reads of one turn of the loop in `process_callbacks` after the tag. -/
def readContent : Option Resp → Reader χ Message
  | some .callback => do
      match ← (readString maxStringSize).attempt with
      | none => pure .failed
      | some name => do
          match ← readValue.attempt with
          | none => pure .failed
          | some args => pure (.callback name args)
  | some .log => do
      let message ← (readString maxStringSize).attempt
      pure (.log message)
  | some .error => pure .error
  | some .return => pure .return
  | none => pure .other

/-- The reads of one turn of the loop in `process_callbacks`. -/
def readMessage : Reader χ Message := do
  match ← readByte.attempt with
  | none => pure .failed
  | some resp => readContent (Resp.ofCode resp)

end Reading

/-! ### Operations and native functions -/

/-- A call of one of the five operations of a `language_t`. -/
inductive Op (F : Type) where
  | defineConstant (name : CString) (value : Value)
  | defineFunction (name : CString) (f : F)
  | compileScript (script : CString)
  | isFunction (name : CString)
  | callFunction (name : CString) (args : Value)

inductive Result where
  | unit
  | bool (b : Bool)
  | value (v : Option Value)
  deriving DecidableEq

/-- The execution of a native function: it uses operations of the proxy and returns a value, `NULL`,
or an array with a `NULL` in it, as `value_clone` can make one. The world is the part of the host's
memory that native functions share. -/
inductive Body (F W : Type) where
  | ret (value : Option Value) (world : W)
  | holed (array : HoledArray) (world : W)
  | op (operation : Op F) (world : W) (resume : Result → W → Body F W)

/-- The functions of the host: `num_params` and `call` of a `function_t`. -/
structure Natives (F W : Type) where
  numParams : F → Nat
  call : F → Value → W → Body F W

/-! ### The process -/

/-- What `compile_script_proxy` says from inside a callback. -/
def compileRefusal : CString := CString.lit
  "You called (or compiled) the guest program, and the guest program called back. You can't invoke the guest again from your callback function."

/-- What `call_function_proxy` says from inside a callback. -/
def callRefusal : CString := CString.lit
  "You called the guest program, and the guest program called back. You can't invoke the guest again from your callback function."

/-- The operation that `process_callbacks` runs for. -/
inductive Caller where
  | compileScript
  | callFunction (name : CString)

/-- A native function that waits for an operation of its own. -/
structure Frame (F W : Type) where
  caller : Caller
  resume : Result → W → Body F W

inductive Point (F W : Type) where
  /-- Outside all operations. -/
  | host
  /-- In `process_callbacks`, before it reads a message. -/
  | callbacks (caller : Caller)
  /-- In `function->call`. -/
  | native (caller : Caller) (body : Body F W)
  /-- Back from `process_callbacks`, which returned `ret`; `expired` if the time budget is zero. -/
  | callbacksDone (caller : Caller) (ret expired : Bool)
  /-- Before `compile_script_proxy` reads its result. -/
  | compileReply
  /-- Before `call_function_proxy` reads its result. -/
  | callReply (name : CString)
  /-- Before `is_function_proxy` reads its result. -/
  | isFunctionReply (name : CString)
  /-- The process has died of undefined behaviour. -/
  | crashed

inductive Origin where
  | child
  | proxy
  deriving DecidableEq

/-- The host's process: the fields of `proxy_internal_t` and `language_t` that the operations use,
its control state, and a record of what it has done. -/
structure Parent (F W : Type) where
  point : Point F W
  frames : List (Frame F W)
  inCall : Bool
  callbackFunctions : CallbackTable F
  timeout : Bool
  world : W
  /-- The operations still to be called from outside callbacks. -/
  program : List (Op F)
  /-- What the operations called from outside callbacks have returned. -/
  results : List Result
  /-- The native functions called, with their arguments. -/
  calls : List (F × Value)
  /-- The values written as replies to callbacks. -/
  replies : List Value
  /-- The lines the log hook has received. -/
  lines : List (Origin × CString)
  /-- What `is_function_proxy` was asked and has returned. -/
  answers : List (CString × Bool)

namespace Parent

variable {F W : Type}

/-- A process that has called no operation yet. -/
def start (world : W) (program : List (Op F)) : Parent F W where
  point := .host
  frames := []
  inCall := false
  callbackFunctions := .new
  timeout := false
  world := world
  program := program
  results := []
  calls := []
  replies := []
  lines := []
  answers := []

/-- `language_error` and what follows it; a message that cannot be formatted ends the process. -/
def report (p : Parent F W) (origin : Origin) (line : Option CString)
    (next : Parent F W → Parent F W) : Parent F W :=
  match line with
  | none => { p with point := .crashed }
  | some line => next { p with lines := p.lines ++ [(origin, line)] }

/-- An operation returns, to the native function or to the program that called it. -/
def finish (p : Parent F W) (result : Result) : Parent F W :=
  match p.frames with
  | [] => { p with point := .host, results := p.results ++ [result] }
  | frame :: frames =>
      { p with point := .native frame.caller (frame.resume result p.world), frames := frames }

/-- `define_constant_proxy`. -/
def defineConstantProxy (p : Parent F W) (name : CString) (value : Value) :
    Parent F W × Bytes :=
  (p.finish .unit, writeByte Command.defineConstant.code ++ writeString name ++ writeValue value)

/-- `define_function_proxy`. -/
def defineFunctionProxy (natives : Natives F W) (p : Parent F W) (name : CString) (f : F) :
    Parent F W × Bytes :=
  let written := writeByte Command.defineFunction.code ++ writeString name ++
    writeByte (UInt8.ofNat (natives.numParams f))
  let table := p.callbackFunctions.visit name
  if hfind : (p.callbackFunctions.contains name).2 then
    (report { p with callbackFunctions := table } .proxy
      (languageError (CString.lit "function %s already defined") [name]) (finish · .unit), written)
  else
    (finish { p with callbackFunctions := table.put name f (by
      rw [CallbackTable.contains_eq] at hfind
      rw [← CallbackTable.find_eq_none, CallbackTable.find_visit]
      simpa using hfind) } .unit, written)

/-- `compile_script_proxy`, up to `process_callbacks`. -/
def compileScriptProxy (p : Parent F W) (script : CString) : Parent F W × Bytes :=
  let written := writeByte Command.compileScript.code ++ writeString script
  if p.inCall then
    (p.report .proxy (languageError compileRefusal []) (finish · (.bool false)), written)
  else
    ({ p with inCall := true, point := .callbacks .compileScript }, written)

/-- `is_function_proxy`, up to the read of the answer. -/
def isFunctionProxy (p : Parent F W) (name : CString) : Parent F W × Bytes :=
  ({ p with point := .isFunctionReply name },
    writeByte Command.isFunction.code ++ writeString name)

/-- `call_function_proxy`, up to `process_callbacks`. -/
def callFunctionProxy (p : Parent F W) (name : CString) (args : Value) : Parent F W × Bytes :=
  let written := writeByte Command.callFunction.code ++ writeString name ++ writeValue args
  if p.inCall then
    (p.report .proxy (languageError callRefusal []) (finish · (.value none)), written)
  else
    ({ p with inCall := true, point := .callbacks (.callFunction name) }, written)

def invoke (natives : Natives F W) (p : Parent F W) : Op F → Parent F W × Bytes
  | .defineConstant name value => p.defineConstantProxy name value
  | .defineFunction name f => p.defineFunctionProxy natives name f
  | .compileScript script => p.compileScriptProxy script
  | .isFunction name => p.isFunctionProxy name
  | .callFunction name args => p.callFunctionProxy name args

/-- One turn of the loop in `process_callbacks` after its reads. -/
def processCallbacks (natives : Natives F W) (p : Parent F W) (caller : Caller)
    (message : Message) (expired : Bool) : Parent F W :=
  match message with
  | .failed => { p with point := .callbacksDone caller false expired }
  | .callback name args =>
      let (table, function) := p.callbackFunctions.lookup name
      let p := { p with callbackFunctions := table }
      match function with
      | none =>
          p.report .proxy (languageError (CString.lit "Calling unknown callback function\n") [])
            fun p => { p with point := .callbacksDone caller false expired }
      | some f =>
          { p with
            point := .native caller (natives.call f args p.world)
            calls := p.calls ++ [(f, args)] }
  | .log none =>
      -- language_log(li, NULL)
      { p with point := .crashed }
  | .log (some message) => p.report .child (languageLog message []) id
  | .error => { p with point := .callbacksDone caller false expired }
  | .return => { p with point := .callbacksDone caller true expired }
  | .other => p

/-- The rest of the operation once `process_callbacks` has returned. -/
def afterCallbacks (p : Parent F W) (caller : Caller) (ret expired : Bool) : Parent F W :=
  match caller with
  | .compileScript =>
      if ret then { p with inCall := false, point := .compileReply }
      else if expired then
        report { p with timeout := true } .proxy
          (languageError (CString.lit "Timeout while compiling\n") []) (finish · (.bool false))
      else p.finish (.bool false)
  | .callFunction name =>
      if ret then { p with inCall := false, point := .callReply name }
      else if expired then
        report { p with timeout := true } .proxy
          (languageError (CString.lit "Timeout while calling function %s\n") [name])
          (finish · (.value none))
      else p.finish (.value none)

/-- `compile_script_proxy` after it has read its result. -/
def compileScriptReturn (p : Parent F W) (reply : Option UInt8) (expired : Bool) : Parent F W :=
  match reply with
  | some b => p.finish (.bool (b ≠ 0))
  | none =>
      if expired then
        report { p with timeout := true } .proxy
          (languageError (CString.lit "Timeout while compiling.\n") []) (finish · (.bool false))
      else p.finish (.bool false)

/-- `call_function_proxy` after it has read its result. -/
def callFunctionReturn (p : Parent F W) (name : CString) (reply : Option Value) (expired : Bool) :
    Parent F W :=
  match reply with
  | some value => p.finish (.value (some value))
  | none =>
      if expired then
        report { p with timeout := true } .proxy
          (languageError (CString.lit "Timeout while calling function %s.\n") [name])
          (finish · (.value none))
      else p.finish (.value none)

/-- `is_function_proxy` after it has read its result. -/
def isFunctionReturn (p : Parent F W) (name : CString) (reply : Option UInt8) : Parent F W :=
  let ret := reply.any (· ≠ 0)
  finish { p with answers := p.answers ++ [(name, ret)] } (.bool ret)

/-- A step that starts with a read; the process waits where the bytes have not arrived. -/
def afterRead {α : Type} (reader : Reader Pipe α) (pipe : Pipe) (next : α → Bool → Parent F W) :
    Option (Parent F W × Pipe × Bytes) :=
  match reader pipe with
  | .ok value rest => some (next value (rest.ending = .expired), rest, [])
  | _ => none

/-- The next step of the process: its new state, what it leaves unread and what it writes. -/
def step (natives : Natives F W) (p : Parent F W) (pipe : Pipe) :
    Option (Parent F W × Pipe × Bytes) :=
  match p.point with
  | .host =>
      match p.program with
      | [] => none
      | operation :: program =>
          let (p, written) := invoke natives { p with program := program } operation
          some (p, pipe, written)
  | .callbacks caller =>
      afterRead readMessage pipe fun message expired =>
        p.processCallbacks natives caller message expired
  | .native caller (.ret (some value) world) =>
      some ({ p with
        point := .callbacks caller
        world := world
        replies := p.replies ++ [value] }, pipe, writeValue value)
  | .native caller (.ret none world) =>
      some ({ p with
        point := .callbacksDone caller false (pipe.ending = .expired)
        world := world }, pipe, [])
  | .native _ (.holed array world) =>
      -- write_value reads the type of a NULL
      some ({ p with point := .crashed, world := world }, pipe, array.ref.writeBefore)
  | .native caller (.op operation world resume) =>
      let (p, written) := invoke natives
        { p with world := world, frames := ⟨caller, resume⟩ :: p.frames } operation
      some (p, pipe, written)
  | .callbacksDone caller ret expired => some (p.afterCallbacks caller ret expired, pipe, [])
  | .compileReply =>
      afterRead readByte.attempt pipe fun reply expired => p.compileScriptReturn reply expired
  | .callReply name =>
      afterRead readValue.attempt pipe fun reply expired => p.callFunctionReturn name reply expired
  | .isFunctionReply name =>
      afterRead readByte.attempt pipe fun reply _ => p.isFunctionReturn name reply
  | .crashed => none

end Parent

end CageKeeper
