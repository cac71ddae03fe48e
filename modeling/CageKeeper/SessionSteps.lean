import CageKeeper.SessionSystem

/-! The steps of a session in which each side finds what the other side has written for it: a
command at the child's end, a log line, a callback, its answer or a reply at the parent's end.
Where nothing has arrived, a process that reads waits. -/

namespace CageKeeper
open ByteStream

variable {F W G : Type}

/-! ### The parent -/

section ParentSteps

variable (natives : Natives F W) {p : Parent F W}

theorem parentMachine_step {next : Parent F W} {taken rest : List Mark} {written : Bytes}
    (hstep : p.step natives ⟨unmark taken ++ unmark rest, .more⟩ =
      some (next, ⟨unmark rest, .more⟩, written)) :
    (parentMachine natives).step p (taken ++ rest) = some (next, rest, written) := by
  simp only [parentMachine, unmark_append, hstep, Option.map_some, List.length_append,
    unmark_length]
  rw [Nat.add_sub_cancel, List.drop_left]

theorem parentMachine_passes {next : Parent F W} {marks : List Mark} {written : Bytes}
    (hstep : p.step natives ⟨unmark marks, .more⟩ =
      some (next, ⟨unmark marks, .more⟩, written)) :
    (parentMachine natives).step p marks = some (next, marks, written) :=
  @parentMachine_step F W natives p next [] marks written hstep

theorem parentMachine_afterRead {α : Type} (value : α) {reader : Reader Pipe α}
    {next : α → Bool → Parent F W}
    (hread : ∀ pipe, p.step natives pipe = Parent.afterRead reader pipe next)
    {taken rest : List Mark}
    (hvalue : reader ⟨unmark taken ++ unmark rest, .more⟩ = .ok value ⟨unmark rest, .more⟩) :
    (parentMachine natives).step p (taken ++ rest) = some (next value false, rest, []) :=
  parentMachine_step natives
    ((hread _).trans (Parent.afterRead_eq_some.mpr ⟨value, hvalue, rfl, rfl⟩))

theorem parentMachine_waits {α : Type} {reader : Reader Pipe α} {next : α → Bool → Parent F W}
    (hread : ∀ pipe, p.step natives pipe = Parent.afterRead reader pipe next)
    (hshort : reader ⟨[], .more⟩ = .short) : (parentMachine natives).step p [] = none := by
  simp only [parentMachine, unmark, List.map_nil, hread, Parent.afterRead, hshort, Option.map_none]

theorem parent_invokes {operation : Op F} {program : List (Op F)} (hpoint : p.point = .host)
    (hprogram : p.program = operation :: program) (marks : List Mark) :
    (parentMachine natives).step p marks =
      some ((Parent.invoke natives { p with program := program } operation).1, marks,
        operation.command natives) := by
  rw [← Op.invoke_written natives { p with program := program } operation]
  exact parentMachine_passes natives (Parent.step_host hpoint hprogram)

theorem parent_hears {caller : Caller} (hpoint : p.point = .callbacks caller) {line heard : CString}
    (hline : IsLogLine line) (hheard : languageLog line [] = some heard) (marks : List Mark) :
    (parentMachine natives).step p (sandboxLog line ++ marks) =
      some ({ p with lines := p.lines ++ [(.child, heard)] }, marks, []) := by
  rw [parentMachine_afterRead natives (.log (some line)) (fun _ => Parent.step_callbacks hpoint)]
  · simp [Parent.processCallbacks, Parent.report, hheard]
  · simpa [sandboxLog, writeByte] using readMessage_writeLog hline.fits (unmark marks) .more

theorem parent_calls {caller : Caller} (hpoint : p.point = .callbacks caller) {name : CString}
    {args : Value} (hname : StringFits maxStringSize name.length)
    (hargs : args.Fits maxStringSize maxArraySize) {f : F}
    (hfind : p.callbackFunctions.find name = some f) (marks : List Mark) :
    (parentMachine natives).step p (proxyFunctionCall name args ++ marks) =
      some ({ p with
        callbackFunctions := p.callbackFunctions.visit name
        point := .native caller (natives.call f args p.world)
        calls := p.calls ++ [(f, args)] }, marks, []) := by
  rw [parentMachine_afterRead natives (.callback name args) (fun _ => Parent.step_callbacks hpoint)]
  · simp [Parent.processCallbacks, hfind]
  · simpa [proxyFunctionCall, writeByte] using
      readMessage_writeCallback hname hargs (unmark marks) .more

/-- A native function returns a value, which is written to the child. -/
theorem parent_answers {caller : Caller} {value : Value} {world : W}
    (hpoint : p.point = .native caller (.ret (some value) world)) (marks : List Mark) :
    (parentMachine natives).step p marks =
      some ({ p with
        point := .callbacks caller
        world := world
        replies := p.replies ++ [value] }, marks, writeValue value) :=
  parentMachine_passes natives (Parent.step_native_value hpoint)

/-- What `process_callbacks` returns on a reply. -/
def Reply.returned (reply : Reply) : Bool := reply.tag = .return

theorem parent_returns {caller : Caller} (hpoint : p.point = .callbacks caller) (reply : Reply)
    (marks : List Mark) :
    (parentMachine natives).step p (reply.written ++ marks) =
      some ({ p with point := .callbacksDone caller reply.returned false },
        reply.content ++ marks, []) := by
  rw [Reply.written, List.append_assoc]
  cases htag : reply.tag with
  | «return» =>
      rw [parentMachine_afterRead natives .return (fun _ => Parent.step_callbacks hpoint)]
      · simp [Parent.processCallbacks, Reply.returned, htag]
      · simpa [writeByte] using readMessage_returnTag (unmark (reply.content ++ marks)) .more
  | error =>
      rw [parentMachine_afterRead natives .error (fun _ => Parent.step_callbacks hpoint)]
      · simp [Parent.processCallbacks, Reply.returned, htag]
      · simpa [writeByte] using readMessage_errorTag (unmark (reply.content ++ marks)) .more
  | callback =>
      cases reply with
      | compiled ret => cases htag
      | called ret => cases ret <;> cases htag
  | log =>
      cases reply with
      | compiled ret => cases htag
      | called ret => cases ret <;> cases htag

theorem parent_leaves {caller : Caller} {ret expired : Bool}
    (hpoint : p.point = .callbacksDone caller ret expired) (marks : List Mark) :
    (parentMachine natives).step p marks = some (p.afterCallbacks caller ret expired, marks, []) :=
  parentMachine_passes natives (Parent.step_callbacksDone hpoint)

@[simp] theorem boolByte_ne_zero (ret : Bool) : (decide (boolByte ret ≠ 0)) = ret := by
  cases ret <;> rfl

theorem parent_compiled (hpoint : p.point = .compileReply) (ret : Bool) (marks : List Mark) :
    (parentMachine natives).step p ((Reply.compiled ret).content ++ marks) =
      some (p.finish (.bool ret), marks, []) := by
  rw [parentMachine_afterRead natives (some (boolByte ret))
    (fun _ => Parent.step_compileReply hpoint)]
  · simp only [Parent.compileScriptReturn, boolByte_ne_zero]
  · simp [Reply.content, writeByte, readByte_cons]

theorem parent_called {name : CString} (hpoint : p.point = .callReply name) {value : Value}
    (hvalue : value.Fits maxStringSize maxArraySize) (marks : List Mark) :
    (parentMachine natives).step p ((Reply.called (some value)).content ++ marks) =
      some (p.finish (.value (some value)), marks, []) := by
  rw [parentMachine_afterRead natives (some value) (fun _ => Parent.step_callReply hpoint)]
  · rfl
  · simp [Reply.content, readValue_writeValue hvalue]

theorem parent_told {name : CString} (hpoint : p.point = .isFunctionReply name) (ret : Bool)
    (marks : List Mark) :
    (parentMachine natives).step p (mark .reply (writeByte (boolByte ret)) ++ marks) =
      some (Parent.finish { p with answers := p.answers ++ [(name, ret)] } (.bool ret),
        marks, []) := by
  rw [parentMachine_afterRead natives (some (boolByte ret))
    (fun _ => Parent.step_isFunctionReply hpoint)]
  · simp only [Parent.isFunctionReturn, Option.any_some, boolByte_ne_zero]
  · simp [writeByte, readByte_cons]

end ParentSteps

/-! ### The child -/

section ChildSteps

variable (interp : Interp G) {c : Child G}

theorem child_obeys {state : G} (hpoint : c.point = .loop state) (natives : Natives F W)
    {operation : Op F} (hreadable : operation.Readable) (bytes : Bytes) :
    (childMachine interp).step c (operation.command natives ++ bytes) =
      let stopped := c.advance (childLoop interp (operation.request natives) state)
      some (stopped.1, bytes, stopped.2) := by
  simp only [childMachine, Child.step, hpoint, operation.readRequest_command natives hreadable,
    Option.map_some]

theorem child_resumes {resume : Option Value → Guest (Finished G)} (hpoint : c.point = .await resume)
    {value : Value} (hvalue : value.Fits 0 0) (bytes : Bytes) :
    (childMachine interp).step c (writeValue value ++ bytes) =
      let stopped := Child.advance { c with received := c.received ++ [some value] }
        (resume (some value))
      some (stopped.1, bytes, stopped.2) := by
  simp only [childMachine, Child.step, hpoint, Reader.attempt_apply,
    readValueNolimit_writeValue hvalue, Outcome.attempt_ok, Option.map_some]

theorem child_loop_waits {state : G} (hpoint : c.point = .loop state) :
    (childMachine interp).step c [] = none := by
  simp only [childMachine, Child.step, hpoint, readRequest_nil, Option.map_none]

theorem child_await_waits {resume : Option Value → Guest (Finished G)}
    (hpoint : c.point = .await resume) : (childMachine interp).step c [] = none := by
  simp only [childMachine, Child.step, hpoint]
  rfl

end ChildSteps

end CageKeeper
