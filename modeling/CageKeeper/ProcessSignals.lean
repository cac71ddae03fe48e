import Mathlib.Logic.Function.Basic
import Mathlib.Tactic.Common

/-! Signals of a process with one thread: dispositions, the alarm clock, and handlers that leave the
code they interrupt by `longjmp`. Code that runs for a while is given by the events that happen to it
on the way and by its result: what is delivered, and what it does itself to dispositions, to the alarm
clock and to the jump buffer. -/

namespace Signals

abbrev Signal := Nat

/-- `SIGALRM`. -/
def sigAlrm : Signal := 14

/-- `SIGPROF`. -/
def sigProf : Signal := 27

inductive Disposition (η : Type) where
  /-- `SIG_DFL`. -/
  | default
  /-- `SIG_IGN`. -/
  | ignore
  | handler (function : η)
  deriving DecidableEq

/-- The call that has filled the jump buffer: the one that is looked at, one inside it, or one that has
returned. -/
inductive JumpFrame where
  | this
  | inner
  | over
  deriving DecidableEq

structure SignalState (η : Type) where
  disposition : Signal → Disposition η
  /-- The seconds the alarm clock was set to, while an alarm is pending. -/
  alarm : Option Nat
  frame : JumpFrame

/-- A process, with the part of its memory that matters. -/
structure Process (η σ : Type) where
  signals : SignalState η
  memory : σ

inductive Outcome (η σ α : Type) where
  | returned (value : α) (process : Process η σ)
  /-- A handler has called `longjmp` for this call. -/
  | jumped (process : Process η σ)
  /-- A signal has ended the process. -/
  | killed
  /-- The code never returns. -/
  | hangs
  /-- A handler has called `longjmp` for a call that has returned. -/
  | undefined

def Proc (η σ α : Type) := Process η σ → Outcome η σ α

section Code

variable {η σ α β : Type}

instance : Monad (Proc η σ) where
  pure value := fun process => .returned value process
  bind first next := fun process =>
    match first process with
    | .returned value process => next value process
    | .jumped process => .jumped process
    | .killed => .killed
    | .hangs => .hangs
    | .undefined => .undefined

@[simp] theorem pure_apply (value : α) (process : Process η σ) :
    (pure value : Proc η σ α) process = .returned value process := rfl

theorem bind_apply (first : Proc η σ α) (next : α → Proc η σ β) (process : Process η σ) :
    (first >>= next) process = match first process with
      | .returned value process => next value process
      | .jumped process => .jumped process
      | .killed => .killed
      | .hangs => .hangs
      | .undefined => .undefined := rfl

instance : LawfulMonad (Proc η σ) := by
  refine LawfulMonad.mk' (Proc η σ) (fun first => ?_) (fun _ _ => rfl) (fun first next last => ?_)
  · funext process
    change (first >>= fun value => pure value) process = first process
    rw [bind_apply]
    cases first process <;> rfl
  · funext process
    simp only [bind_apply]
    cases first process <;> rfl

def SignalState.setAlarm (state : SignalState η) (seconds : Nat) : SignalState η :=
  { state with alarm := if seconds = 0 then none else some seconds }

def SignalState.setDisposition (state : SignalState η) (number : Signal)
    (disposition : Disposition η) : SignalState η :=
  { state with disposition := Function.update state.disposition number disposition }

def modifySignals (change : SignalState η → SignalState η) : Proc η σ Unit := fun process =>
  .returned () { process with signals := change process.signals }

/-- `alarm`. -/
def alarm (seconds : Nat) : Proc η σ Unit := modifySignals fun state => state.setAlarm seconds

/-- `signal`; it returns the disposition it replaces. -/
def signal (number : Signal) (disposition : Disposition η) : Proc η σ (Disposition η) :=
  fun process => .returned (process.signals.disposition number)
    { process with signals := process.signals.setDisposition number disposition }

def modifyMemory (change : σ → σ) : Proc η σ Unit := fun process =>
  .returned () { process with memory := change process.memory }

/-- `if(setjmp(..)) later else first`, where `first` is the only code that is left by `longjmp`. -/
def setjmp (later first : Proc η σ α) : Proc η σ α := fun process =>
  match first { process with signals := { process.signals with frame := .this } } with
  | .jumped process => later process
  | outcome => outcome

/-- The return of the function that has called `setjmp`. -/
def leaveFrame : Proc η σ Unit := modifySignals fun state => { state with frame := .over }

end Code

/-! ### Events -/

/-- What happens to a process while it runs some code, or what this code does. -/
inductive Event (η : Type) where
  /-- The time the alarm clock is set to is over. -/
  | expiry
  /-- A signal is delivered whose default action ends the process. -/
  | delivery (number : Signal)
  | signal (number : Signal) (disposition : Disposition η)
  | alarm (seconds : Nat)
  /-- A call inside fills the jump buffer. -/
  | enter
  /-- A call inside that has filled the jump buffer returns. -/
  | leave
  deriving DecidableEq

/-- What becomes of code that something happens to. -/
inductive Fate (η : Type) where
  /-- It goes on. -/
  | passes (state : SignalState η)
  /-- It is left by `longjmp`. -/
  | jumps (state : SignalState η)
  | dies
  /-- There is a `longjmp` for a call that has returned. -/
  | undefined

section Events

variable {η σ α : Type} (jumps : η → Bool)

/-- What the delivery of a signal does whose default action ends the process. The handlers in `jumps`
call `longjmp`, which goes to the call that has filled the jump buffer. -/
def SignalState.deliver (state : SignalState η) (number : Signal) : Fate η :=
  match state.disposition number with
  | .default => .dies
  | .ignore => .passes state
  | .handler function =>
      if jumps function then
        match state.frame with
        | .this => .jumps state
        | .inner => .passes state
        | .over => .undefined
      else .passes state

def Event.fate (state : SignalState η) : Event η → Fate η
  | .expiry =>
      match state.alarm with
      | none => .passes state
      | some _ => { state with alarm := none }.deliver jumps sigAlrm
  | .delivery number => state.deliver jumps number
  | .signal number disposition => .passes (state.setDisposition number disposition)
  | .alarm seconds => .passes (state.setAlarm seconds)
  | .enter => .passes { state with frame := .inner }
  | .leave => .passes { state with frame := if state.frame = .this then .this else .over }

/-- What becomes of code that several things happen to. -/
def fate : SignalState η → List (Event η) → Fate η
  | state, [] => .passes state
  | state, event :: events =>
      match event.fate jumps state with
      | .passes state => fate state events
      | .jumps state => .jumps state
      | .dies => .dies
      | .undefined => .undefined

/-- Code that is given by what happens to it and by what it returns, if it does. -/
structure Operation (η α : Type) where
  events : List (Event η)
  result : Option α

def Operation.run (operation : Operation η α) : Proc η σ α := fun process =>
  match fate jumps process.signals operation.events with
  | .passes state =>
      match operation.result with
      | some value => .returned value { process with signals := state }
      | none => .hangs
  | .jumps state => .jumped { process with signals := state }
  | .dies => .killed
  | .undefined => .undefined

def Operation.bind {β : Type} (first : Operation η α) (next : α → Operation η β) : Operation η β :=
  match first.result with
  | some value => ⟨first.events ++ (next value).events, (next value).result⟩
  | none => ⟨first.events, none⟩

theorem fate_append (state : SignalState η) (events events' : List (Event η)) :
    fate jumps state (events ++ events')
      = match fate jumps state events with
        | .passes state => fate jumps state events'
        | .jumps state => .jumps state
        | .dies => .dies
        | .undefined => .undefined := by
  induction events generalizing state with
  | nil => rfl
  | cons event events ih =>
      rw [List.cons_append, fate, fate]
      cases event.fate jumps state with
      | passes state => exact ih _
      | _ => rfl

@[simp] theorem Operation.run_value (value : α) :
    (⟨[], some value⟩ : Operation η α).run jumps = (pure value : Proc η σ α) := rfl

theorem Operation.run_bind {β : Type} (first : Operation η α) (next : α → Operation η β) :
    (first.bind next).run jumps = (first.run jumps >>= fun value => (next value).run jumps :
      Proc η σ β) := by
  funext process
  simp only [bind_apply, run, Operation.bind]
  cases first.result with
  | none =>
      simp only
      cases fate jumps process.signals first.events <;> rfl
  | some value =>
      simp only [fate_append]
      cases fate jumps process.signals first.events <;> rfl

end Events

end Signals
