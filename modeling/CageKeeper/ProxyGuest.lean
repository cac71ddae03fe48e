import CageKeeper.ProxyChild

/-! Runs of the interpreter between the points where the child waits: the lines logged on the way
and what stops the run. With what a run can end is a property of the program that holds whatever
its callbacks are answered. -/

namespace CageKeeper
open ByteStream

namespace Guest

variable {α β : Type}

inductive Stop (α : Type) where
  | done (result : α)
  | call (name : CString) (args : Value) (resume : Option Value → Guest α)

def lines : Guest α → List CString
  | .done _ => []
  | .log text next => logLine text :: next.lines
  | .call _ _ _ => []

def stop : Guest α → Stop α
  | .done result => .done result
  | .log _ next => next.stop
  | .call name args resume => .call name args resume

/-- All results a run can end with have a property. -/
def Ends (P : α → Prop) : Guest α → Prop
  | .done result => P result
  | .log _ next => next.Ends P
  | .call _ _ resume => ∀ reply, (resume reply).Ends P

theorem ends_map {P : β → Prop} (f : α → β) (hresult : ∀ result, P (f result)) (guest : Guest α) :
    (guest.map f).Ends P := by
  induction guest with
  | done result => exact hresult result
  | log text next ih => exact ih
  | call name args resume ih => exact ih

theorem Ends.of_done {P : α → Prop} {guest : Guest α} (hends : guest.Ends P) {result : α}
    (hstop : guest.stop = .done result) : P result := by
  induction guest with
  | done result' =>
      cases hstop
      exact hends
  | log text next ih => exact ih hends hstop
  | call name args resume ih => cases hstop

theorem Ends.of_call {P : α → Prop} {guest : Guest α} (hends : guest.Ends P) {name : CString}
    {args : Value} {resume : Option Value → Guest α} (hstop : guest.stop = .call name args resume)
    (reply : Option Value) : (resume reply).Ends P := by
  induction guest with
  | done result => cases hstop
  | log text next ih => exact ih hends hstop
  | call name' args' resume' ih =>
      cases hstop
      exact hends reply

theorem lines_isLogLine (guest : Guest α) : ∀ line ∈ guest.lines, IsLogLine line := by
  induction guest with
  | done result => simp [lines]
  | log text next ih => exact List.forall_mem_cons.mpr ⟨logLine_isLogLine text, ih⟩
  | call name args resume ih => simp [lines]

end Guest

/-! ### Where the child stops -/

namespace Child

variable {G : Type}

/-- The child at the next stop of the interpreter. -/
def halt (c : Child G) : Guest.Stop (Finished G) → Child G × List Mark
  | .done finished =>
      ({ c with
        point := if finished.alive then .loop finished.state else .dead
        answers := c.answers ++ finished.answer.toList
        values := c.values ++ finished.value.toList }, finished.written)
  | .call name args resume =>
      ({ c with point := .await resume, sent := c.sent ++ [(name, args)] },
        proxyFunctionCall name args)

theorem advance_eq (c : Child G) (guest : Guest (Finished G)) :
    c.advance guest =
      let stopped := ({ c with logged := c.logged ++ guest.lines } : Child G).halt guest.stop
      (stopped.1, guest.lines.flatMap sandboxLog ++ stopped.2) := by
  induction guest generalizing c with
  | done finished => simp [advance, Guest.lines, Guest.stop, halt]
  | log text next ih => simp [advance, Guest.lines, Guest.stop, ih]
  | call name args resume ih => simp [advance, Guest.lines, Guest.stop, halt]

end Child

/-! ### The end of a command -/

/-- The end of a command that the parent waits for in `process_callbacks`. -/
inductive Reply where
  | compiled (ret : Bool)
  | called (ret : Option Value)

namespace Reply

def tag : Reply → Resp
  | .compiled _ => .return
  | .called (some _) => .return
  | .called none => .error

def content : Reply → List Mark
  | .compiled ret => mark .reply (writeByte (boolByte ret))
  | .called (some value) => mark .payload (writeValue value)
  | .called none => []

def written (reply : Reply) : List Mark := mark .tag (writeByte reply.tag.code) ++ reply.content

def value : Reply → Option (Option Value)
  | .compiled _ => none
  | .called ret => some ret

/-- The operation that waits for the reply. -/
def For : Caller → Reply → Prop
  | .compileScript, .compiled _ => True
  | .callFunction _, .called _ => True
  | _, _ => False

end Reply

namespace Finished

variable {G : Type}

/-- The end of `define_constant` and `define_function`. -/
def Silent (finished : Finished G) : Prop := ∃ state, finished = ⟨state, [], true, none, none⟩

/-- The end of `is_function`. -/
def Tells (name : CString) (finished : Finished G) : Prop :=
  ∃ state ret, finished =
    ⟨state, mark .reply (writeByte (boolByte ret)), true, some (some name, ret), none⟩

/-- The end of `compile_script` and `call_function`. -/
def Replies (caller : Caller) (finished : Finished G) : Prop :=
  ∃ state reply, Reply.For caller reply ∧
    finished = ⟨state, reply.written, true, none, reply.value⟩

end Finished

section ChildLoop

variable {G : Type} (interp : Interp G) (state : G)

theorem defineConstant_ends (name : Option CString) (value : Option Value) :
    (childLoop interp (.defineConstant name value) state).Ends Finished.Silent :=
  Guest.ends_map _ (fun state => ⟨state, rfl⟩) _

theorem defineFunction_ends (name : Option CString) (numParams : UInt8) :
    (childLoop interp (.defineFunction name numParams) state).Ends Finished.Silent :=
  Guest.ends_map _ (fun state => ⟨state, rfl⟩) _

theorem isFunction_ends (name : CString) :
    (childLoop interp (.isFunction (some name)) state).Ends (Finished.Tells name) :=
  Guest.ends_map _ (fun result => ⟨result.2, result.1, rfl⟩) _

theorem compileScript_ends (script : Option CString) :
    (childLoop interp (.compileScript script) state).Ends (Finished.Replies .compileScript) :=
  Guest.ends_map _ (fun result => ⟨result.2, .compiled result.1, trivial, rfl⟩) _

theorem childLoop_callFunction (function : Option CString) (args : Value) :
    childLoop interp (.callFunction function (some args)) state =
      (interp.callFunction function (some args) state).map fun result =>
        ⟨result.2, (Reply.called result.1).written, true, none, some result.1⟩ := by
  rw [childLoop]
  congr 1
  funext ⟨ret, state⟩
  cases ret <;> simp [Reply.written, Reply.tag, Reply.content, mark]

theorem callFunction_ends (name : CString) (function : Option CString) (args : Value) :
    (childLoop interp (.callFunction function (some args)) state).Ends
      (Finished.Replies (.callFunction name)) := by
  rw [childLoop_callFunction]
  exact Guest.ends_map _ (fun result => ⟨result.2, .called result.1, trivial, rfl⟩) _

end ChildLoop

end CageKeeper
