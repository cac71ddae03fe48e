import CageKeeper.ProcessSignals
import CageKeeper.LanguageLog

/-! `with_timeout` of `language.c`: a time limit for compiling a script and calling a function. The
alarm clock raises `SIGALRM` and the handler is installed for `SIGPROF`. -/

namespace CageKeeper
open ByteStream Signals

/-- The signal handlers of the process: the one of `language.c`, and those of the host and of the guest,
which return. -/
inductive Handler where
  | sigalarm
  | host (address : Nat)
  deriving DecidableEq

/-- `sigalarm` calls `longjmp`. -/
def Handler.jumps (handler : Handler) : Bool := handler = .sigalarm

/-- A `language_t`, whose operations work on what is internal to it. They may use signals, the alarm clock
and `with_timeout` themselves. -/
structure Language (ι : Type) where
  compileScript : CString → ι → Operation Handler (Bool × ι)
  isFunction : CString → ι → Operation Handler (Bool × ι)
  callFunction : CString → Option Value → ι → Operation Handler (Option Value × ι)

/-- What `with_timeout` writes: `*timeout`, unless that pointer is `NULL`, and the log. -/
structure TimeoutMemory where
  timeout : Option Bool
  log : List CString
  deriving DecidableEq

abbrev TimeoutProc := Proc Handler TimeoutMemory

def setTimeout (value : Bool) : TimeoutProc Unit :=
  modifyMemory fun memory => { memory with timeout := memory.timeout.map fun _ => value }

def reportError (error : CString) (args : List CString) : TimeoutProc Unit :=
  modifyMemory fun memory => { memory with log := memory.log ++ (languageError error args).toList }

section Function

variable {ι : Type} (l : Language ι)

/-- `with_timeout` from the call of the function on. -/
def callAndRestore (internal : ι) (script function : Option CString) (args : Option Value)
    (oldSignal : Disposition Handler) : TimeoutProc (Option Value) := do
  let ret ← match function with
    | none => pure none
    | some function => do
        let (found, internal) ← (l.isFunction function internal).run Handler.jumps
        if found then do
          let (ret, _) ← (l.callFunction function args internal).run Handler.jumps
          pure ret
        else do
          if script = none then do
            alarm 0
            reportError (CString.lit "No such function: %s\n") [function]
          pure (some .void)
  alarm 0
  let _ ← signal sigProf oldSignal
  pure ret

/-- `with_timeout` after `setjmp` has returned 0. -/
def limited (internal : ι) (script function : Option CString) (args : Option Value) :
    TimeoutProc (Option Value) := do
  let oldSignal ← signal sigProf (.handler .sigalarm)
  match script with
  | none => callAndRestore l internal none function args oldSignal
  | some script => do
      let (compiled, internal) ← (l.compileScript script internal).run Handler.jumps
      if compiled then callAndRestore l internal (some script) function args oldSignal
      else do
        alarm 0
        reportError (CString.lit "Couldn't compile") []
        pure none

/-- `with_timeout` after `longjmp`, which leaves `oldSignal` in the local variable `old_signal`. -/
def timedOut (oldSignal : Disposition Handler) : TimeoutProc (Option Value) := do
  alarm 0
  setTimeout true
  reportError (CString.lit "TIMEOUT") []
  let _ ← signal sigProf oldSignal
  pure none

/-- `with_timeout`. The variable `old_signal` is not volatile and is assigned to after `setjmp`, so
that its value after `longjmp` is indeterminate: it is `leftOver`. -/
def withTimeout (internal : ι) (script function : Option CString) (args : Option Value)
    (maxSeconds : BitVec 32) (leftOver : Disposition Handler) : TimeoutProc (Option Value) := do
  setTimeout false
  alarm maxSeconds.toNat
  let ret ← setjmp (timedOut leftOver) (limited l internal script function args)
  leaveFrame
  pure ret

/-! ### The operations alone -/

/-- What the operations come to when nothing interrupts them. -/
inductive CallEnd where
  /-- The script does not compile. -/
  | notCompiled
  /-- There is no such function. -/
  | missing (function : CString)
  /-- The function has been called, or there was none to call. -/
  | called (value : Option Value)
  deriving DecidableEq

def callCourse (internal : ι) (function : Option CString) (args : Option Value) :
    Operation Handler CallEnd :=
  match function with
  | none => ⟨[], some (.called none)⟩
  | some function =>
      (l.isFunction function internal).bind fun answer =>
        if answer.1 then
          (l.callFunction function args answer.2).bind fun result => ⟨[], some (.called result.1)⟩
        else ⟨[], some (.missing function)⟩

/-- The operations `with_timeout` makes, one after the other. -/
def course (internal : ι) (script function : Option CString) (args : Option Value) :
    Operation Handler CallEnd :=
  match script with
  | none => callCourse l internal function args
  | some script =>
      (l.compileScript script internal).bind fun answer =>
        if answer.1 then callCourse l answer.2 function args
        else ⟨[], some .notCompiled⟩

/-- The value `with_timeout` returns when it is not interrupted. -/
def CallEnd.value : CallEnd → Option Value
  | .notCompiled => none
  | .missing _ => some .void
  | .called value => value

/-- The end of `with_timeout` when it is not interrupted. -/
def finish (script : Option CString) (oldSignal : Disposition Handler) (callEnd : CallEnd) :
    TimeoutProc (Option Value) :=
  match callEnd with
  | .notCompiled => do
      alarm 0
      reportError (CString.lit "Couldn't compile") []
      pure callEnd.value
  | .missing function => do
      if script = none then do
        alarm 0
        reportError (CString.lit "No such function: %s\n") [function]
      alarm 0
      let _ ← signal sigProf oldSignal
      pure callEnd.value
  | .called _ => do
      alarm 0
      let _ ← signal sigProf oldSignal
      pure callEnd.value

theorem callAndRestore_eq (internal : ι) (script function : Option CString) (args : Option Value)
    (oldSignal : Disposition Handler) :
    callAndRestore l internal script function args oldSignal
      = (callCourse l internal function args).run Handler.jumps >>= finish script oldSignal := by
  cases function with
  | none => rfl
  | some function =>
      rw [callAndRestore, callCourse, Operation.run_bind]
      simp only [bind_assoc]
      apply bind_congr
      rintro ⟨found, internal⟩
      cases found with
      | true =>
          simp only [if_true, Operation.run_bind, bind_assoc]
          apply bind_congr
          intro result
          rfl
      | false =>
          simp only [Bool.false_eq_true, if_false, Operation.run_value, pure_bind, finish]
          cases script <;> rfl

theorem limited_eq (internal : ι) (script function : Option CString) (args : Option Value) :
    limited l internal script function args
      = signal sigProf (.handler .sigalarm) >>= fun oldSignal =>
          (course l internal script function args).run Handler.jumps >>=
            finish script oldSignal := by
  unfold limited
  apply bind_congr
  intro oldSignal
  cases script with
  | none => exact callAndRestore_eq l internal none function args oldSignal
  | some script =>
      rw [course, Operation.run_bind, bind_assoc]
      apply bind_congr
      rintro ⟨compiled, internal⟩
      cases compiled with
      | true => exact callAndRestore_eq l internal (some script) function args oldSignal
      | false => rfl

/-! ### Runs of `with_timeout` -/

/-- What the operations of `with_timeout` find in a process it is called in. -/
def callState (entry : Process Handler TimeoutMemory) (maxSeconds : BitVec 32) : SignalState Handler :=
  { entry.signals.setAlarm maxSeconds.toNat with frame := .this }.setDisposition sigProf
    (.handler .sigalarm)

def callFate (entry : Process Handler TimeoutMemory) (maxSeconds : BitVec 32)
    (events : List (Event Handler)) : Fate Handler :=
  fate Handler.jumps (callState entry maxSeconds) events

/-- The process after a return of `with_timeout`. -/
def after (entry : Process Handler TimeoutMemory) (state : SignalState Handler) (timeout : Bool)
    (line : Option CString) : Process Handler TimeoutMemory where
  signals := { state with alarm := none, frame := .over }
  memory :=
    { timeout := entry.memory.timeout.map fun _ => timeout
      log := entry.memory.log ++ line.toList }

/-- What `with_timeout` makes of the dispositions at its end when it is not interrupted. -/
def CallEnd.restored (oldSignal : Disposition Handler) (state : SignalState Handler) :
    CallEnd → SignalState Handler
  | .notCompiled => state
  | _ => state.setDisposition sigProf oldSignal

def CallEnd.line (script : Option CString) : CallEnd → Option CString
  | .notCompiled => languageError (CString.lit "Couldn't compile") []
  | .missing function =>
      if script = none then languageError (CString.lit "No such function: %s\n") [function] else none
  | .called _ => none

theorem timedOut_apply (oldSignal : Disposition Handler)
    (process : Process Handler TimeoutMemory) :
    timedOut oldSignal process = .returned none
      { signals := { process.signals.setDisposition sigProf oldSignal with alarm := none }
        memory :=
          { timeout := process.memory.timeout.map fun _ => true
            log := process.memory.log ++ (languageError (CString.lit "TIMEOUT") []).toList } } := rfl

theorem finish_apply (script : Option CString) (oldSignal : Disposition Handler) (callEnd : CallEnd)
    (process : Process Handler TimeoutMemory) :
    finish script oldSignal callEnd process = .returned callEnd.value
      { signals := { callEnd.restored oldSignal process.signals with alarm := none }
        memory := { process.memory with
          log := process.memory.log ++ (callEnd.line script).toList } } := by
  cases callEnd with
  | notCompiled => rfl
  | missing function =>
      cases script with
      | none => rfl
      | some script =>
          rw [CallEnd.line, if_neg (Option.some_ne_none script), Option.toList, List.append_nil]
          rfl
  | called value =>
      rw [CallEnd.line, Option.toList, List.append_nil]
      rfl

/-- **A run of `with_timeout`.** -/
theorem withTimeout_apply (internal : ι) (script function : Option CString) (args : Option Value)
    (maxSeconds : BitVec 32) (leftOver : Disposition Handler)
    (entry : Process Handler TimeoutMemory) :
    withTimeout l internal script function args maxSeconds leftOver entry
      = match callFate entry maxSeconds (course l internal script function args).events with
        | .passes state =>
            match (course l internal script function args).result with
            | some callEnd =>
                .returned callEnd.value
                  (after entry (callEnd.restored (entry.signals.disposition sigProf) state) false
                    (callEnd.line script))
            | none => .hangs
        | .jumps state =>
            .returned none (after entry (state.setDisposition sigProf leftOver) true
              (languageError (CString.lit "TIMEOUT") []))
        | .dies => .killed
        | .undefined => .undefined := by
  unfold withTimeout
  rw [limited_eq]
  simp only [bind_apply, setTimeout, modifyMemory, alarm, modifySignals, setjmp, signal,
    Operation.run, callFate, callState]
  generalize fate Handler.jumps _ (course l internal script function args).events = outcome
  cases outcome with
  | dies | undefined => rfl
  | jumps state =>
      simp only [timedOut_apply, leaveFrame, modifySignals, after, Option.map_map, pure_apply]
      rfl
  | passes state =>
      cases (course l internal script function args).result with
      | none => rfl
      | some callEnd =>
          simp only [finish_apply, leaveFrame, modifySignals, after, pure_apply]
          rfl

/-! ### What is restored -/

/-- There is no jump into a call that is over, and on every return of a call no alarm is pending and all
dispositions are those of the process the call was made in. -/
def RestoresSignals (entry : Process Handler TimeoutMemory)
    (outcome : Outcome Handler TimeoutMemory (Option Value)) : Prop :=
  outcome ≠ .undefined ∧ ∀ ret final, outcome = .returned ret final →
    final.signals.alarm = none ∧ final.signals.disposition = entry.signals.disposition

/-- All signals but `SIGPROF` are handled as in the process the call was made in. -/
def SameButProf (entry : Process Handler TimeoutMemory) (state : SignalState Handler) : Prop :=
  ∀ number, number ≠ sigProf → state.disposition number = entry.signals.disposition number

/-- When the signals can be restored: the operations leave the other signals as they were; where `sigalarm`
interrupts them, `longjmp` does not destroy the value of `old_signal`; and where the script does not
compile, `SIGPROF` is handled as it was before the call. -/
def RestoreCondition (entry : Process Handler TimeoutMemory) (leftOver : Disposition Handler)
    (operations : Operation Handler CallEnd) : Fate Handler → Prop
  | .passes state => ∀ callEnd, operations.result = some callEnd → SameButProf entry state ∧
      (callEnd = .notCompiled → state.disposition sigProf = entry.signals.disposition sigProf)
  | .jumps state => SameButProf entry state ∧ leftOver = entry.signals.disposition sigProf
  | .dies => True
  | .undefined => False

theorem setDisposition_eq_iff {entry : Process Handler TimeoutMemory} {state : SignalState Handler}
    {disposition : Disposition Handler} :
    (state.setDisposition sigProf disposition).disposition = entry.signals.disposition ↔
      SameButProf entry state ∧ disposition = entry.signals.disposition sigProf := by
  rw [SignalState.setDisposition, Function.update_eq_iff, and_comm, SameButProf]

theorem restoresSignals_returned {entry : Process Handler TimeoutMemory} {ret : Option Value}
    {state : SignalState Handler} {timeout : Bool} {line : Option CString} :
    RestoresSignals entry (.returned ret (after entry state timeout line)) ↔
      state.disposition = entry.signals.disposition := by
  constructor
  · exact fun h => (h.2 _ _ rfl).2
  · refine fun h => ⟨nofun, fun ret final hreturned => ?_⟩
    cases hreturned
    exact ⟨rfl, h⟩

/-- **When the signals are restored.** -/
theorem restoresSignals_iff (internal : ι) (script function : Option CString) (args : Option Value)
    (maxSeconds : BitVec 32) (leftOver : Disposition Handler)
    (entry : Process Handler TimeoutMemory) :
    RestoresSignals entry
        (withTimeout l internal script function args maxSeconds leftOver entry) ↔
      RestoreCondition entry leftOver (course l internal script function args)
        (callFate entry maxSeconds (course l internal script function args).events) := by
  rw [withTimeout_apply]
  cases callFate entry maxSeconds (course l internal script function args).events with
  | dies => simp [RestoresSignals, RestoreCondition]
  | undefined => simp [RestoresSignals, RestoreCondition]
  | jumps state =>
      rw [restoresSignals_returned, setDisposition_eq_iff]
      rfl
  | passes state =>
      rw [RestoreCondition]
      cases (course l internal script function args).result with
      | none => simp [RestoresSignals]
      | some callEnd =>
          rw [restoresSignals_returned]
          cases callEnd with
          | notCompiled =>
              simp only [CallEnd.restored, Option.some.injEq, forall_eq', true_implies]
              constructor
              · exact fun h => ⟨fun number _ => congrFun h number, congrFun h sigProf⟩
              · rintro ⟨hothers, hprof⟩
                funext number
                by_cases hnumber : number = sigProf
                · rw [hnumber, hprof]
                · exact hothers number hnumber
          | missing function => simp [CallEnd.restored, setDisposition_eq_iff]
          | called value => simp [CallEnd.restored, setDisposition_eq_iff]

/-! ### What a limit does -/

/-- An event that leaves the alarm of the call as it is. -/
def KeepsAlarm : Event Handler → Prop
  | .expiry | .alarm _ => False
  | _ => True

/-- The alarm of a call expires while its operations run: it is set, and the operations come to its expiry
without another alarm. -/
def Expires (entry : Process Handler TimeoutMemory) (maxSeconds : BitVec 32)
    (events : List (Event Handler)) : Prop :=
  maxSeconds.toNat ≠ 0 ∧ ∃ before rest state, events = before ++ .expiry :: rest ∧
    (∀ event ∈ before, KeepsAlarm event) ∧ callFate entry maxSeconds before = .passes state

/-- A call whose alarm expires returns `NULL` with `*timeout` set, and one whose alarm does not
expire returns with `*timeout` cleared and makes no jump into a call that is over. -/
def LimitAborts (maxSeconds : BitVec 32) (events : List (Event Handler))
    (entry : Process Handler TimeoutMemory)
    (outcome : Outcome Handler TimeoutMemory (Option Value)) : Prop :=
  (Expires entry maxSeconds events → ∃ final, outcome = .returned none final ∧
    final.memory.timeout = entry.memory.timeout.map fun _ => true) ∧
  (¬Expires entry maxSeconds events → outcome ≠ .undefined ∧
    ∀ ret final, outcome = .returned ret final →
      final.memory.timeout = entry.memory.timeout.map fun _ => false)

/-- When the operations meet what is asked of an expired alarm: a signal that `sigalarm` handles at that
moment interrupts them before one ends the process or makes it jump into a call that is over, or there is
no `*timeout` and they end in `NULL`. -/
def AbortsOnExpiry (entry : Process Handler TimeoutMemory) (result : Option CallEnd) :
    Fate Handler → Prop
  | .passes _ => entry.memory.timeout = none ∧ ∃ callEnd, result = some callEnd ∧ callEnd.value = none
  | .jumps _ => True
  | .dies | .undefined => False

/-- When they meet what is asked without it: `sigalarm` does not interrupt them, unless there is no
`*timeout`, and it never jumps into a call that is over. -/
def GoesOnOtherwise (entry : Process Handler TimeoutMemory) : Fate Handler → Prop
  | .passes _ | .dies => True
  | .jumps _ => entry.memory.timeout = none
  | .undefined => False

/-- The two results a call must have when its alarm expires and when it does not. -/
theorem exists_returned_iff {entry : Process Handler TimeoutMemory} {ret : Option Value}
    {state : SignalState Handler} {timeout : Bool} {line : Option CString} :
    (∃ final, Outcome.returned ret (after entry state timeout line) = .returned none final ∧
      final.memory.timeout = entry.memory.timeout.map fun _ => true) ↔
      ret = none ∧ (timeout = true ∨ entry.memory.timeout = none) := by
  simp only [Outcome.returned.injEq, and_assoc, exists_and_left, exists_eq_left', after]
  cases entry.memory.timeout <;> simp

theorem forall_returned_iff {entry : Process Handler TimeoutMemory} {ret : Option Value}
    {state : SignalState Handler} {timeout : Bool} {line : Option CString} :
    (∀ value final, Outcome.returned ret (after entry state timeout line)
        = .returned value final →
      final.memory.timeout = entry.memory.timeout.map fun _ => false) ↔
      timeout = false ∨ entry.memory.timeout = none := by
  simp only [Outcome.returned.injEq, and_imp, forall_eq', forall_apply_eq_imp_iff, after]
  cases entry.memory.timeout <;> simp

/-- **When a limit aborts a call.** -/
theorem limitAborts_iff (internal : ι) (script function : Option CString) (args : Option Value)
    (maxSeconds : BitVec 32) (leftOver : Disposition Handler)
    (entry : Process Handler TimeoutMemory) :
    LimitAborts maxSeconds (course l internal script function args).events entry
        (withTimeout l internal script function args maxSeconds leftOver entry) ↔
      (Expires entry maxSeconds (course l internal script function args).events →
        AbortsOnExpiry entry (course l internal script function args).result
          (callFate entry maxSeconds (course l internal script function args).events)) ∧
      (¬Expires entry maxSeconds (course l internal script function args).events →
        GoesOnOtherwise entry
          (callFate entry maxSeconds (course l internal script function args).events)) := by
  rw [withTimeout_apply, LimitAborts]
  generalize course l internal script function args = operations
  generalize languageError (CString.lit "TIMEOUT") [] = line
  refine and_congr (imp_congr_right fun _ => ?_) (imp_congr_right fun _ => ?_)
  · cases callFate entry maxSeconds operations.events with
    | dies | undefined => simp [AbortsOnExpiry]
    | jumps state => simp only [exists_returned_iff, AbortsOnExpiry, true_or, and_self]
    | passes state =>
        cases operations.result with
        | none => simp [AbortsOnExpiry]
        | some callEnd =>
            simp only [exists_returned_iff, AbortsOnExpiry]
            simp [and_comm]
  · cases callFate entry maxSeconds operations.events with
    | dies | undefined => simp [GoesOnOtherwise]
    | jumps state =>
        simp only [forall_returned_iff, GoesOnOtherwise]
        simp
    | passes state =>
        cases operations.result with
        | none => simp [GoesOnOtherwise]
        | some callEnd =>
            simp only [forall_returned_iff, GoesOnOtherwise]
            simp

end Function

/-! ### Two calls that fail -/

/-- A language in which no script compiles, and whose functions run until the alarm expires. -/
def stuckLanguage : Language Unit where
  compileScript _ internal := ⟨[], some (false, internal)⟩
  isFunction _ internal := ⟨[], some (true, internal)⟩
  callFunction _ _ _ := ⟨[.expiry], none⟩

/-- A process that has not changed any disposition. -/
def freshProcess : Process Handler TimeoutMemory where
  signals := ⟨fun _ => .default, none, .over⟩
  memory := { timeout := some false, log := [] }

/-- After a script that does not compile `SIGPROF` still jumps into the finished call. -/
theorem not_restoresSignals_compile :
    ¬RestoresSignals freshProcess
      (withTimeout stuckLanguage () (some (CString.lit "(")) none none 10 .default freshProcess) := by
  rw [withTimeout_apply]
  intro h
  have hprof := congrFun (h.2 none _ rfl).2 sigProf
  exact absurd hprof (by decide)

/-- A function that takes too long takes the process with it. -/
theorem not_limitAborts_call :
    ¬LimitAborts 10 (course stuckLanguage () none (some (CString.lit "f")) none).events freshProcess
      (withTimeout stuckLanguage () none (some (CString.lit "f")) none 10 .default
        freshProcess) := by
  rw [withTimeout_apply]
  intro h
  have hexpires : Expires freshProcess 10
      (course stuckLanguage () none (some (CString.lit "f")) none).events :=
    ⟨by decide, [], [], _, rfl, nofun, rfl⟩
  obtain ⟨final, hreturned, -⟩ := h.1 hexpires
  cases hreturned

end CageKeeper
