import CageKeeper.ProxyParent

/-! What one step of the host's process does, in the places the later arguments come through:
operations that return, operations that a native function uses, and turns of the message loop. -/

namespace CageKeeper
open ByteStream

/-! ### The program's own messages can be formatted -/

theorem formatText_append {front : Bytes} (hfront : percent ∉ front) (back : Bytes)
    (args : List CString) :
    formatText (front ++ back) args = (formatText back args).map (front ++ ·) := by
  induction front with
  | nil => simp
  | cons b front ih =>
      obtain ⟨hb, hrest⟩ := not_or.mp (fun h => hfront (List.mem_cons.mpr h))
      rw [List.cons_append, formatText.eq_def]
      simp only [if_neg (Ne.symm hb), ih hrest, Option.map_map]
      rfl

/-- A message without `%`. -/
theorem languageError_isSome {error : CString} (herror : percent ∉ error.bytes)
    (args : List CString) : (languageError error args).isSome := by
  rw [languageError, vsnprintf, formatText_of_not_mem herror]
  rfl

/-- A message with one `%s`. -/
theorem languageError_isSome_of_split {error : CString} (front back : Bytes)
    (hsplit : error.bytes = front ++ percent :: 115 :: back) (hfront : percent ∉ front)
    (hback : percent ∉ back) (arg : CString) : (languageError error [arg]).isSome := by
  have htext : formatText error.bytes [arg] = some (front ++ (arg.bytes ++ back)) := by
    rw [hsplit, formatText_append hfront, formatText.eq_def]
    simp [percent, formatText_of_not_mem hback]
  rw [languageError, vsnprintf, htext]
  rfl

set_option maxRecDepth 4000 in
theorem compileRefusal_isSome : (languageError compileRefusal []).isSome :=
  languageError_isSome (by decide) []

set_option maxRecDepth 4000 in
theorem callRefusal_isSome : (languageError callRefusal []).isSome :=
  languageError_isSome (by decide) []

theorem alreadyDefined_isSome (name : CString) :
    (languageError (CString.lit "function %s already defined") [name]).isSome :=
  languageError_isSome_of_split (CString.lit "function ").bytes
    (CString.lit " already defined").bytes (by decide) (by decide) (by decide) name

theorem unknownCallback_isSome :
    (languageError (CString.lit "Calling unknown callback function\n") []).isSome :=
  languageError_isSome (by decide) []

theorem compileTimeout_isSome :
    (languageError (CString.lit "Timeout while compiling\n") []).isSome :=
  languageError_isSome (by decide) []

theorem compileReplyTimeout_isSome :
    (languageError (CString.lit "Timeout while compiling.\n") []).isSome :=
  languageError_isSome (by decide) []

theorem callTimeout_isSome (name : CString) :
    (languageError (CString.lit "Timeout while calling function %s\n") [name]).isSome :=
  languageError_isSome_of_split (CString.lit "Timeout while calling function ").bytes
    (CString.lit "\n").bytes (by decide) (by decide) (by decide) name

theorem callReplyTimeout_isSome (name : CString) :
    (languageError (CString.lit "Timeout while calling function %s.\n") [name]).isSome :=
  languageError_isSome_of_split (CString.lit "Timeout while calling function ").bytes
    (CString.lit ".\n").bytes (by decide) (by decide) (by decide) name

/-! ### The readers of messages -/

theorem readValue_ne_exhausted (pipe : Pipe) : readValue pipe ≠ .exhausted := by
  simp only [readValue, Reader.bind_apply, ne_eq, Outcome.bind_eq_exhausted, not_or, not_exists,
    not_and]
  exact ⟨readValueCounted_ne_exhausted 0 (Nat.lt_succ_self _), by simp⟩

theorem readByte_attempt_answers : (readByte : Reader Pipe UInt8).attempt.Answers :=
  .attempt readByte_ne_exhausted

theorem readString_attempt_answers (maxSize : Int) :
    (readString maxSize : Reader Pipe CString).attempt.Answers :=
  .attempt (readString_ne_exhausted maxSize)

theorem readValue_attempt_answers : (readValue : Reader Pipe Value).attempt.Answers :=
  .attempt readValue_ne_exhausted

theorem readContent_answers (resp : Option Resp) :
    (readContent resp : Reader Pipe Message).Answers := by
  match resp with
  | some .callback =>
      refine .bind (readString_attempt_answers _) fun name => ?_
      cases name with
      | none => exact .pure _
      | some name =>
          refine .bind readValue_attempt_answers fun args => ?_
          cases args <;> exact .pure _
  | some .log => exact .bind (readString_attempt_answers _) fun _ => .pure _
  | some .error => exact .pure _
  | some .return => exact .pure _
  | none => exact .pure _

theorem readContent_lawful (resp : Option Resp) :
    (readContent resp : Reader Pipe Message).Lawful := by
  match resp with
  | some .callback =>
      refine .bind (readString_lawful _).attempt fun name => ?_
      cases name with
      | none => exact .pure _
      | some name =>
          refine .bind readValue_lawful.attempt fun args => ?_
          cases args <;> exact .pure _
  | some .log => exact .bind (readString_lawful _).attempt fun _ => .pure _
  | some .error => exact .pure _
  | some .return => exact .pure _
  | none => exact .pure _

theorem readMessage_answers : (readMessage : Reader Pipe Message).Answers := by
  refine .bind readByte_attempt_answers fun resp => ?_
  cases resp with
  | none => exact .pure _
  | some resp => exact readContent_answers _

theorem readMessage_lawful : (readMessage : Reader Pipe Message).Lawful := by
  refine .bind readByte_lawful.attempt fun resp => ?_
  cases resp with
  | none => exact .pure _
  | some resp => exact readContent_lawful _

theorem readMessage_eq_ok {pipe rest : Pipe} {message : Message} :
    readMessage pipe = .ok message rest ↔
      (message = .failed ∧ readByte pipe = .reject rest) ∨
        ∃ b bytes, pipe.bytes = b :: bytes ∧
          readContent (Resp.ofCode b) ⟨bytes, pipe.ending⟩ = .ok message rest := by
  simp only [readMessage, Reader.bind_apply, Reader.attempt_apply, Outcome.bind_eq_ok,
    Outcome.attempt_eq_ok]
  constructor
  · rintro ⟨resp, middle, ⟨b, rfl, hb⟩ | ⟨rfl, hb⟩, h⟩
    · obtain ⟨hbytes, hending⟩ := readByte_eq_ok.mp hb
      obtain ⟨bytes, ending⟩ := middle
      dsimp only at hbytes hending
      subst hending
      exact Or.inr ⟨b, bytes, hbytes, h⟩
    · cases h
      exact Or.inl ⟨rfl, hb⟩
  · rintro (⟨rfl, hb⟩ | ⟨b, bytes, hbytes, h⟩)
    · exact ⟨none, rest, Or.inr ⟨rfl, hb⟩, rfl⟩
    · exact ⟨some b, ⟨bytes, pipe.ending⟩, Or.inl ⟨b, rfl, readByte_eq_ok.mpr ⟨hbytes, rfl⟩⟩, h⟩

/-- A turn that does not give up has read at least a tag. -/
theorem readMessage_length {pipe rest : Pipe} {message : Message} (hmessage : message ≠ .failed)
    (hread : readMessage pipe = .ok message rest) : rest.bytes.length < pipe.bytes.length := by
  rcases readMessage_eq_ok.mp hread with ⟨hfailed, -⟩ | ⟨b, bytes, hbytes, hcontent⟩
  · exact absurd hfailed hmessage
  · obtain ⟨taken, htaken⟩ := (readContent_lawful _).ok_taken hcontent
    dsimp only at htaken
    rw [hbytes, htaken, List.length_cons, List.length_append]
    omega

theorem writeValue_ne_nil (value : Value) : writeValue value ≠ [] := by
  cases value <;> simp [writeValue, writeByte]

namespace Parent

variable {F W : Type} {natives : Natives F W}

theorem finish_nil {p : Parent F W} (hframes : p.frames = []) (result : Result) :
    p.finish result = { p with point := .host, results := p.results ++ [result] } := by
  simp only [finish, hframes]

/-! ### One step, by where the process stands -/

section Step

variable {p : Parent F W} {pipe : Pipe}

theorem afterRead_eq_some {α : Type} {reader : Reader Pipe α} {next : α → Bool → Parent F W}
    {p' : Parent F W} {rest : Pipe} {written : Bytes} :
    afterRead reader pipe next = some (p', rest, written) ↔
      ∃ value, reader pipe = .ok value rest ∧ next value (rest.ending = .expired) = p' ∧
        written = [] := by
  unfold afterRead
  constructor
  · intro h
    split at h
    · rename_i value _ hread
      cases h
      exact ⟨value, hread, rfl, rfl⟩
    · cases h
  · rintro ⟨value, hread, rfl, rfl⟩
    rw [hread]

theorem step_callbacks {caller : Caller} (hpoint : p.point = .callbacks caller) :
    p.step natives pipe = afterRead readMessage pipe fun message expired =>
      p.processCallbacks natives caller message expired := by
  simp only [step, hpoint]

theorem step_native_value {caller : Caller} {value : Value} {world : W}
    (hpoint : p.point = .native caller (.ret (some value) world)) :
    p.step natives pipe = some ({ p with
      point := .callbacks caller
      world := world
      replies := p.replies ++ [value] }, pipe, writeValue value) := by
  simp only [step, hpoint]

theorem step_native_null {caller : Caller} {world : W}
    (hpoint : p.point = .native caller (.ret none world)) :
    p.step natives pipe = some ({ p with
      point := .callbacksDone caller false (pipe.ending = .expired)
      world := world }, pipe, []) := by
  simp only [step, hpoint]

theorem step_native_holed {caller : Caller} {array : HoledArray} {world : W}
    (hpoint : p.point = .native caller (.holed array world)) :
    p.step natives pipe = some ({ p with
      point := .crashed
      world := world }, pipe, array.ref.writeBefore) := by
  simp only [step, hpoint]

theorem step_native_op {caller : Caller} {operation : Op F} {world : W}
    {resume : Result → W → Body F W}
    (hpoint : p.point = .native caller (.op operation world resume)) :
    p.step natives pipe =
      let called := invoke natives
        { p with world := world, frames := ⟨caller, resume⟩ :: p.frames } operation
      some (called.1, pipe, called.2) := by
  simp only [step, hpoint]

theorem step_callbacksDone {caller : Caller} {ret expired : Bool}
    (hpoint : p.point = .callbacksDone caller ret expired) :
    p.step natives pipe = some (p.afterCallbacks caller ret expired, pipe, []) := by
  simp only [step, hpoint]

theorem step_compileReply (hpoint : p.point = .compileReply) :
    p.step natives pipe = afterRead readByte.attempt pipe fun reply expired =>
      p.compileScriptReturn reply expired := by
  simp only [step, hpoint]

theorem step_callReply {name : CString} (hpoint : p.point = .callReply name) :
    p.step natives pipe = afterRead readValue.attempt pipe fun reply expired =>
      p.callFunctionReturn name reply expired := by
  simp only [step, hpoint]

theorem step_isFunctionReply {name : CString} (hpoint : p.point = .isFunctionReply name) :
    p.step natives pipe = afterRead readByte.attempt pipe fun reply _ =>
      p.isFunctionReturn name reply := by
  simp only [step, hpoint]

theorem step_host {operation : Op F} {program : List (Op F)} (hpoint : p.point = .host)
    (hprogram : p.program = operation :: program) :
    p.step natives pipe =
      let called := invoke natives { p with program := program } operation
      some (called.1, pipe, called.2) := by
  simp only [step, hpoint, hprogram]

theorem step_host_nil (hpoint : p.point = .host) (hprogram : p.program = []) :
    p.step natives pipe = none := by
  simp only [step, hpoint, hprogram]

theorem step_crashed (hpoint : p.point = .crashed) : p.step natives pipe = none := by
  simp only [step, hpoint]

end Step

/-- Every operation starts with a command. -/
theorem invoke_written_ne_nil (natives : Natives F W) (p : Parent F W) (operation : Op F) :
    (invoke natives p operation).2 ≠ [] := by
  cases operation with
  | defineConstant name value =>
      simp [invoke, defineConstantProxy, writeByte]
  | defineFunction name f =>
      simp only [invoke, defineFunctionProxy]
      split <;> simp [writeByte]
  | compileScript script =>
      simp only [invoke, compileScriptProxy]
      split <;> simp [writeByte]
  | isFunction name => simp [invoke, isFunctionProxy, writeByte]
  | callFunction name args =>
      simp only [invoke, callFunctionProxy]
      split <;> simp [writeByte]

/-! ### The program of the host -/

theorem finish_program (p : Parent F W) (result : Result) :
    (p.finish result).program = p.program := by
  unfold finish
  split <;> rfl

theorem report_program (p : Parent F W) (origin : Origin) (line : Option CString)
    {next : Parent F W → Parent F W} (hnext : ∀ q, (next q).program = q.program) :
    (p.report origin line next).program = p.program := by
  unfold report
  split
  · rfl
  · exact hnext _

theorem invoke_program (p : Parent F W) (operation : Op F) :
    (invoke natives p operation).1.program = p.program := by
  cases operation with
  | defineConstant name value => exact p.finish_program .unit
  | defineFunction name f =>
      simp only [invoke, defineFunctionProxy]
      split
      · exact report_program _ _ _ fun q => q.finish_program .unit
      · exact finish_program _ .unit
  | compileScript script =>
      by_cases hset : p.inCall = true
      · simp only [invoke, compileScriptProxy, hset, if_true]
        exact p.report_program .proxy (languageError compileRefusal []) fun q => q.finish_program _
      · simp only [invoke, compileScriptProxy, hset, if_false, Bool.false_eq_true]
  | isFunction name => rfl
  | callFunction name args =>
      by_cases hset : p.inCall = true
      · simp only [invoke, callFunctionProxy, hset, if_true]
        exact p.report_program .proxy (languageError callRefusal []) fun q => q.finish_program _
      · simp only [invoke, callFunctionProxy, hset, if_false, Bool.false_eq_true]

theorem processCallbacks_program (p : Parent F W) (caller : Caller) (message : Message)
    (expired : Bool) : (p.processCallbacks natives caller message expired).program = p.program := by
  cases message with
  | callback name args =>
      simp only [processCallbacks]
      split
      · exact report_program _ _ _ fun q => rfl
      · rfl
  | log message =>
      cases message with
      | none => rfl
      | some message => exact p.report_program .child _ fun q => rfl
  | _ => rfl

theorem afterCallbacks_program (p : Parent F W) (caller : Caller) (ret expired : Bool) :
    (p.afterCallbacks caller ret expired).program = p.program := by
  cases caller with
  | compileScript =>
      unfold afterCallbacks
      split_ifs
      · rfl
      · exact report_program _ _ _ fun q => q.finish_program _
      · exact p.finish_program _
  | callFunction name =>
      unfold afterCallbacks
      split_ifs
      · rfl
      · exact report_program _ _ _ fun q => q.finish_program _
      · exact p.finish_program _

/-- A step in the middle of an operation leaves the program as it is. -/
theorem step_program {p next : Parent F W} {pipe rest : Pipe} {written : Bytes}
    (hpoint : p.point ≠ .host) (hstep : p.step natives pipe = some (next, rest, written)) :
    next.program = p.program := by
  have hread : ∀ {α : Type} {reader : Reader Pipe α} {goOn : α → Bool → Parent F W},
      (∀ value expired, (goOn value expired).program = p.program) →
        afterRead reader pipe goOn = some (next, rest, written) → next.program = p.program := by
    intro α reader goOn hgoOn hafter
    obtain ⟨value, -, rfl, -⟩ := afterRead_eq_some.mp hafter
    exact hgoOn _ _
  cases hp : p.point with
  | host => exact absurd hp hpoint
  | callbacks caller =>
      rw [step_callbacks hp] at hstep
      exact hread (fun message expired => p.processCallbacks_program caller message expired) hstep
  | native caller body =>
      cases body with
      | ret value world =>
          cases value with
          | none =>
              rw [step_native_null hp] at hstep
              cases hstep
              rfl
          | some value =>
              rw [step_native_value hp] at hstep
              cases hstep
              rfl
      | holed array world =>
          rw [step_native_holed hp] at hstep
          cases hstep
          rfl
      | op operation world resume =>
          rw [step_native_op hp] at hstep
          cases hstep
          exact invoke_program _ operation
  | callbacksDone caller ret expired =>
      rw [step_callbacksDone hp] at hstep
      cases hstep
      exact p.afterCallbacks_program caller ret expired
  | compileReply =>
      rw [step_compileReply hp] at hstep
      refine hread (fun reply expired => ?_) hstep
      cases reply with
      | some b => exact p.finish_program _
      | none =>
          unfold compileScriptReturn
          split_ifs
          · exact report_program _ _ _ fun q => q.finish_program _
          · exact p.finish_program _
  | callReply name =>
      rw [step_callReply hp] at hstep
      refine hread (fun reply expired => ?_) hstep
      cases reply with
      | some value => exact p.finish_program _
      | none =>
          unfold callFunctionReturn
          split_ifs
          · exact report_program _ _ _ fun q => q.finish_program _
          · exact p.finish_program _
  | isFunctionReply name =>
      rw [step_isFunctionReply hp] at hstep
      refine hread (fun reply expired => ?_) hstep
      exact finish_program _ _
  | crashed =>
      rw [step_crashed hp] at hstep
      cases hstep

end Parent

end CageKeeper
