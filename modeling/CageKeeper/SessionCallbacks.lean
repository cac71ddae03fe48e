import CageKeeper.SessionInvariant
import CageKeeper.ProxySurvival

/-! Callbacks and their answers. Whenever the parent of a session in order is outside
`process_callbacks`, each callback the child has sent has been answered once and the answer has
been read, and the child is back at its commands. The early returns of `process_callbacks` leave
the child waiting for an answer instead. -/

namespace CageKeeper
open ByteStream

variable {F W G : Type} {natives : Natives F W} {interp : Interp G}

/-- The places outside `process_callbacks`. -/
def Point.outside : Point F W → Bool
  | .host => true
  | .callbacksDone _ _ _ => true
  | .compileReply => true
  | .callReply _ => true
  | .isFunctionReply _ => true
  | _ => false

/-- The child reads a stream as these commands, one after the other. -/
inductive ReadAs : Bytes → List Request → Prop where
  | nil : ReadAs [] []
  | cons {bytes rest : Bytes} {request : Request} {requests : List Request}
      (hread : readRequest (⟨bytes, .more⟩ : Pipe) = .ok request ⟨rest, .more⟩)
      (hrest : ReadAs rest requests) : ReadAs bytes (request :: requests)

theorem readAs_commands (natives : Natives F W) {operations : List (Op F)}
    (hreadable : ∀ operation ∈ operations, operation.Readable) :
    ReadAs (operations.flatMap (Op.command natives)) (operations.map (Op.request natives)) := by
  induction operations with
  | nil => exact .nil
  | cons operation operations ih =>
      obtain ⟨hfirst, hrest⟩ := List.forall_mem_cons.mp hreadable
      rw [List.flatMap_cons]
      exact .cons (operation.readRequest_command natives hfirst _ _) (ih hrest)

/-- Every callback has been answered, and the child is ready for the next command. -/
structure CallbacksAnswered (natives : Natives F W) (s : Session F W G) : Prop where
  /-- Every callback sent has been received, with its arguments. -/
  called : s.right.sent.map Prod.snd = s.left.calls.map Prod.snd
  /-- Every callback received has been answered once. -/
  answered : s.left.calls.length = s.left.replies.length
  /-- The child has read every answer. -/
  received : s.right.received = s.left.replies.map some
  /-- The child is not in `proxy_function_call`. -/
  loops : ∃ state, s.right.point = .loop state
  /-- What the parent writes next is read as a command. -/
  commands : ∃ requests, ∀ operation : Op F, operation.Readable →
    ReadAs (s.toRight ++ operation.command natives) (requests ++ [operation.request natives])

/-- Outside `process_callbacks` only definitions and a question can be on their way. -/
theorem Talk.of_outside {s : Session F W G} {flight : Flight} (h : Talk natives s flight)
    (houtside : s.left.point.outside) :
    flight.callbacks = [] ∧ flight.running = 0 ∧ flight.replies = [] ∧
      (∃ state, s.right.point = .loop state) ∧
      ∃ pending : List (Op F), (∀ operation ∈ pending, operation.Readable) ∧
        s.toRight = pending.flatMap (Op.command natives) := by
  cases h with
  | outside hpoint hframes hchild hpending =>
      exact ⟨rfl, rfl, rfl, ⟨_, hchild⟩, _, fun op hop => (hpending op hop).2, rfl⟩
  | @asking p c state pending name hpoint hframes hchild hpending hreadable =>
      refine ⟨rfl, rfl, rfl, ⟨_, hchild⟩, _, ?_, rfl⟩
      exact List.forall_mem_append.mpr
        ⟨fun op hop => (hpending op hop).2, List.forall_mem_singleton.mpr hreadable⟩
  | told hpoint hframes hchild => exact ⟨rfl, rfl, rfl, ⟨_, hchild⟩, [], by simp, rfl⟩
  | serving hpoint => exact absurd houtside (by simp [hpoint, Point.outside])
  | native hpoint => exact absurd houtside (by simp [hpoint, Point.outside])
  | returned hpoint hframes hchild =>
      exact ⟨rfl, rfl, rfl, ⟨_, hchild⟩, [], by simp, rfl⟩
  | compiled hpoint hframes hchild =>
      exact ⟨rfl, rfl, rfl, ⟨_, hchild⟩, [], by simp, rfl⟩
  | called hpoint hframes hchild =>
      exact ⟨rfl, rfl, rfl, ⟨_, hchild⟩, [], by simp, rfl⟩

/-- **Every callback is answered.** In a session in order, whenever the parent is outside
`process_callbacks`, each callback has had its answer and the child reads commands. -/
theorem callbacksAnswered_of_orderly {world : W} {program : List (Op F)} {state : G}
    {s : Session F W G} (h : Session.Orderly natives interp world program state s)
    (houtside : s.left.point.outside) : CallbacksAnswered natives s := by
  obtain ⟨flight, htalk, hbooks⟩ := h.invariant
  obtain ⟨hcallbacks, hrunning, hreplies, hloop, pending, hreadable, hbytes⟩ :=
    htalk.of_outside houtside
  constructor
  · simpa [ledger, hcallbacks] using hbooks.callbacks
  · simpa [ledger, hrunning] using hbooks.running
  · simpa [ledger, hreplies] using hbooks.replies.symm
  · exact hloop
  · refine ⟨pending.map (Op.request natives), fun operation hoperation => ?_⟩
    have hall : ∀ op ∈ pending ++ [operation], op.Readable :=
      List.forall_mem_append.mpr ⟨hreadable, List.forall_mem_singleton.mpr hoperation⟩
    simpa [hbytes] using readAs_commands natives hall

/-- A guest whose functions log a line, call the host's `g` and return what it returns. -/
def echoInterp : Interp Unit where
  defineConstant _ _ _ := .done ()
  defineFunction _ _ _ := .done ()
  compileScript _ _ := .done (true, ())
  isFunction _ _ := .done (true, ())
  callFunction _ args _ :=
    .log (CString.lit "hi") (.call (CString.lit "g") (args.getD .void) fun reply =>
      .done (reply, ()))

/-- The host defines `g`, asks for `f` and calls it. -/
def echoProgram : List (Op Unit) :=
  [.defineFunction (CString.lit "g") (), .isFunction (CString.lit "f"),
    .callFunction (CString.lit "f") (.int32 7#32)]

/-- The turns of a run of this program to its end. -/
def echoTurns : List Session.Party :=
  [.parent, .parent, .child, .child, .parent, .parent, .child, .parent, .parent, .parent, .child,
    .parent, .parent, .parent]

theorem callbacksAnswered_echo :
    ∃ s, Session.Orderly echoNatives echoInterp () echoProgram () s ∧ s.left.point.outside ∧
      s.right.sent.length = 1 ∧ CallbacksAnswered echoNatives s := by
  obtain ⟨s, horderly, houtside, hsent⟩ := Session.exists_orderly echoNatives echoInterp ()
    echoProgram () echoTurns (fun s => s.left.point.outside ∧ s.right.sent.length = 1)
    (by decide +kernel)
  exact ⟨s, horderly, houtside, hsent, callbacksAnswered_of_orderly horderly houtside⟩

/-- A callback of a function that is not defined: `process_callbacks` returns, and the child waits
for the answer. -/
theorem not_callbacksAnswered_unknown :
    ¬∀ s, Relation.ReflTransGen (Session.Step echoNatives echoInterp)
        (.start () [.callFunction (CString.lit "f") .void] ()) s →
      s.left.point.outside → CallbacksAnswered echoNatives s := by
  intro h
  obtain ⟨s, hs, houtside, hsent, hcalls⟩ := Session.exists_of_play echoNatives echoInterp
    (.start () [.callFunction (CString.lit "f") .void] ()) [.parent, .child, .parent, .parent]
    (fun s => s.left.point.outside ∧ s.right.sent.length = 1 ∧ s.left.calls.length = 0)
    (by decide +kernel)
  have hanswered := h s (Session.steps_of_run hs) houtside
  have hlength := congrArg List.length hanswered.called
  rw [List.length_map, List.length_map, hsent, hcalls] at hlength
  cases hlength

end CageKeeper
