import CageKeeper.ProxyParent

/-! The sandboxed side of `language_proxy.c`: the command loop of the child and the callbacks and
log lines that go back to the parent while the interpreter runs. The interpreter is any program
that computes, logs and calls back. What the child writes carries the role it is written in. -/

namespace CageKeeper
open ByteStream

/-! ### The guest's interpreter -/

/-- A run of the interpreter. A callback is a call of a function value that `define_function` has
given to it; the answer may be missing. -/
inductive Guest (α : Type) where
  | done (result : α)
  /-- `language_error(old, "%s", text)`. -/
  | log (text : CString) (next : Guest α)
  | call (name : CString) (args : Value) (resume : Option Value → Guest α)

namespace Guest

def map {α β : Type} (f : α → β) : Guest α → Guest β
  | .done result => .done (f result)
  | .log text next => .log text (next.map f)
  | .call name args resume => .call name args fun reply => (resume reply).map f

end Guest

/-- The five operations of the language that runs in the sandbox, `proxy->old`, as programs that
take its memory to its new memory. A name or a value that the child could not read is `NULL`. -/
structure Interp (G : Type) where
  defineConstant : Option CString → Option Value → G → Guest G
  defineFunction : Option CString → Nat → G → Guest G
  compileScript : Option CString → G → Guest (Bool × G)
  isFunction : Option CString → G → Guest (Bool × G)
  callFunction : Option CString → Option Value → G → Guest (Option Value × G)

/-! ### Commands -/

/-- A command as `child_loop` reads it. -/
inductive Request where
  | defineConstant (name : Option CString) (value : Option Value)
  | defineFunction (name : Option CString) (numParams : UInt8)
  | compileScript (script : Option CString)
  | isFunction (name : Option CString)
  | callFunction (name : Option CString) (args : Option Value)
  | invalid

section Reading

variable {χ : Type} [Channel χ]

/-- The reads of one turn of `child_loop` after the command byte. -/
def readOperands : Option Command → Reader χ Request
  | some .defineConstant => do
      let s ← (readString 0).attempt
      let v ← readValueNolimit.attempt
      pure (.defineConstant s v)
  | some .defineFunction => do
      let name ← (readString 0).attempt
      let numParams ← readByte.attempt
      pure (.defineFunction name (numParams.getD 0))
  | some .compileScript => do
      let script ← (readString 0).attempt
      pure (.compileScript script)
  | some .isFunction => do
      let functionName ← (readString 0).attempt
      pure (.isFunction functionName)
  | some .callFunction => do
      let functionName ← (readString 0).attempt
      let args ← readValueNolimit.attempt
      pure (.callFunction functionName args)
  | none => pure .invalid

/-- The reads of one turn of `child_loop`. It fails at the end of the stream only. -/
def readRequest : Reader χ Request := do
  let command ← readByte
  readOperands (Command.ofCode command)

end Reading

/-! ### What the child writes -/

/-- The role in which the child writes a byte. -/
inductive Role where
  /-- The tag of a message. -/
  | tag
  /-- The answer to `compile_script` or `is_function`. -/
  | reply
  /-- Names, values and texts. -/
  | payload
  deriving DecidableEq

abbrev Mark := UInt8 × Role

def mark (role : Role) (bytes : Bytes) : List Mark := bytes.map (·, role)

def unmark (marks : List Mark) : Bytes := marks.map Prod.fst

/-- The line `language_error` makes of a text. -/
def logLine (text : CString) : CString :=
  stripNewlines (CString.ofBytes (text.bytes.take 1022))

/-- `sandbox_log`. -/
def sandboxLog (str : CString) : List Mark :=
  mark .tag (writeByte Resp.log.code) ++ mark .payload (writeString str)

/-- What `proxy_function_call` writes. -/
def proxyFunctionCall (name : CString) (args : Value) : List Mark :=
  mark .tag (writeByte Resp.callback.code) ++ mark .payload (writeString name ++ writeValue args)

/-- The byte of a C `bool`. -/
def boolByte (b : Bool) : UInt8 := if b then 1 else 0

/-! ### The process -/

/-- What `child_loop` does when the interpreter is done with a command. -/
structure Finished (G : Type) where
  state : G
  written : List Mark
  /-- False if the process dies, in `value_destroy(NULL)`. -/
  alive : Bool
  /-- The answer of `is_function`, with the name that was asked for. -/
  answer : Option (Option CString × Bool)
  /-- The value `call_function` returned. -/
  value : Option (Option Value)

/-- One turn of `child_loop` after its reads. -/
def childLoop {G : Type} (interp : Interp G) (request : Request) (state : G) :
    Guest (Finished G) :=
  match request with
  | .defineConstant s v =>
      (interp.defineConstant s v state).map fun state => ⟨state, [], true, none, none⟩
  | .defineFunction name numParams =>
      (interp.defineFunction name numParams.toNat state).map fun state =>
        ⟨state, [], true, none, none⟩
  | .compileScript script =>
      (interp.compileScript script state).map fun (ret, state) =>
        ⟨state, mark .tag (writeByte Resp.return.code) ++ mark .reply (writeByte (boolByte ret)),
          true, none, none⟩
  | .isFunction functionName =>
      (interp.isFunction functionName state).map fun (ret, state) =>
        ⟨state, mark .reply (writeByte (boolByte ret)), true, some (functionName, ret), none⟩
  | .callFunction functionName args =>
      (interp.callFunction functionName args state).map fun (ret, state) =>
        let written := match ret with
          | some value => mark .tag (writeByte Resp.return.code) ++ mark .payload (writeValue value)
          | none => mark .tag (writeByte Resp.error.code)
        ⟨state, written, args.isSome, none, some ret⟩
  | .invalid => .done ⟨state, [], true, none, none⟩

inductive ChildPoint (G : Type) where
  /-- In `child_loop`, before it reads a command. -/
  | loop (state : G)
  /-- In `proxy_function_call`, before it reads the answer. -/
  | await (resume : Option Value → Guest (Finished G))
  | dead

/-- The child's process and a record of what it has done. -/
structure Child (G : Type) where
  point : ChildPoint G
  /-- The lines handed to `sandbox_log`. -/
  logged : List CString
  /-- The callbacks sent to the parent. -/
  sent : List (CString × Value)
  /-- The answers that `proxy_function_call` has read. -/
  received : List (Option Value)
  /-- The answers of `is_function`. -/
  answers : List (Option CString × Bool)
  /-- The values that `call_function` has returned. -/
  values : List (Option Value)

namespace Child

variable {G : Type}

def start (state : G) : Child G := ⟨.loop state, [], [], [], [], []⟩

/-- The interpreter runs up to its next callback or to the end of the command. -/
def advance (c : Child G) : Guest (Finished G) → Child G × List Mark
  | .done finished =>
      ({ c with
        point := if finished.alive then .loop finished.state else .dead
        answers := c.answers ++ finished.answer.toList
        values := c.values ++ finished.value.toList }, finished.written)
  | .log text next =>
      let (c, written) := advance { c with logged := c.logged ++ [logLine text] } next
      (c, sandboxLog (logLine text) ++ written)
  | .call name args resume =>
      ({ c with point := .await resume, sent := c.sent ++ [(name, args)] },
        proxyFunctionCall name args)

/-- The next step of the process: it reads a command or an answer and runs the interpreter. -/
def step (interp : Interp G) (c : Child G) (pipe : Pipe) : Option (Child G × Pipe × List Mark) :=
  match c.point with
  | .loop state =>
      match readRequest pipe with
      | .ok request rest =>
          let (c, written) := c.advance (childLoop interp request state)
          some (c, rest, written)
      | .reject rest => some ({ c with point := .dead }, rest, [])
      | _ => none
  | .await resume =>
      match readValueNolimit.attempt pipe with
      | .ok reply rest =>
          let (c, written) := advance { c with received := c.received ++ [reply] } (resume reply)
          some (c, rest, written)
      | _ => none
  | .dead => none

end Child

theorem languageError_text (text : CString) :
    languageError (CString.lit "%s") [text] = some (logLine text) := by
  have hformat : (CString.lit "%s").bytes = [percent, 115] := by decide
  have htext : formatText [percent, 115] [text] = some text.bytes := by
    simp [formatText, percent]
  rw [languageError, vsnprintf, hformat, htext, Option.map_some, Option.map_some]
  rfl

theorem logLine_isLogLine (text : CString) : IsLogLine (logLine text) :=
  languageError_isLogLine (languageError_text text)

end CageKeeper
