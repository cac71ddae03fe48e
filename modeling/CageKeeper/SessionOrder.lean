import CageKeeper.SessionSteps

/-! Sessions in order. The conditions say of the next step of a process what it must not do for
the protocol to keep its framing: no operation while an earlier one has left `in_call` set, no
operation of a native function on its own proxy, no callback outside `compile_script` and
`call_function`, no text or value beyond the limits of the parent's reader, and nothing on the
pipe where `is_function` expects its answer. No read of a session in order times out. -/

namespace CageKeeper
open ByteStream

variable {F W G : Type}

/-- A reader that succeeds returns a value with a property. -/
def Answers {χ α : Type} (P : α → Prop) : Outcome χ α → Prop
  | .ok value _ => P value
  | _ => True

instance {χ α : Type} (P : α → Prop) [DecidablePred P] : DecidablePred (Answers (χ := χ) P)
  | .ok value _ => inferInstanceAs (Decidable (P value))
  | .reject _ => .isTrue trivial
  | .short => .isTrue trivial
  | .exhausted => .isTrue trivial

/-! ### The parent's side -/

instance : DecidablePred (Op.Readable (F := F))
  | .defineConstant name _ => inferInstanceAs (Decidable (StringFits 0 name.length ∧ _))
  | .defineFunction name _ => inferInstanceAs (Decidable (StringFits 0 name.length))
  | .compileScript script => inferInstanceAs (Decidable (StringFits 0 script.length))
  | .isFunction name => inferInstanceAs (Decidable (StringFits 0 name.length))
  | .callFunction name _ => inferInstanceAs (Decidable (StringFits 0 name.length ∧ _))

/-- The operation would run the guest's program, or ask it, at a bad time. -/
def Op.early (s : Session F W G) : Op F → Bool
  | .compileScript _ => s.left.inCall
  | .callFunction _ _ => s.left.inCall
  | .isFunction _ => !s.toLeft.isEmpty
  | _ => false

/-- A callback is of a registered function. -/
def Message.known (p : Parent F W) : Message → Bool
  | .callback name _ => (p.callbackFunctions.find name).isSome
  | _ => true

/-- A native function is done, without an operation of the proxy, and returns a value. -/
def Body.plain : Body F W → Bool
  | .ret (some value) _ => value.Fits 0 0
  | _ => false

theorem Body.plain_iff {body : Body F W} :
    body.plain = true ↔ ∃ value world, body = .ret (some value) world ∧ value.Fits 0 0 := by
  cases body with
  | ret value world => cases value <;> simp [plain]
  | holed array world => simp [plain]
  | op operation world resume => simp [plain]

/-- What the parent does next keeps the session in order. -/
def Session.ParentInOrder (s : Session F W G) : Prop :=
  match s.left.point with
  | .host => ∀ operation ∈ s.left.program.head?, operation.Readable ∧ operation.early s = false
  | .callbacks _ =>
      Answers (Message.known s.left · = true) (readMessage (⟨unmark s.toLeft, .more⟩ : Pipe))
  | .native _ body => body.plain = true
  | _ => True

instance (s : Session F W G) : Decidable s.ParentInOrder := by
  unfold Session.ParentInOrder
  split <;> infer_instance

/-! ### The child's side -/

/-- The commands during which the interpreter may call back. -/
def Request.entersGuest : Request → Bool
  | .compileScript _ => true
  | .callFunction _ _ => true
  | _ => false

/-- The parent waits for the answer of `is_function`. -/
def Point.asks : Point F W → Bool
  | .isFunctionReply _ => true
  | _ => false

/-- What is sent at the end of a run is within the limits of the parent's reader. -/
def Guest.Stop.Fits : Guest.Stop (Finished G) → Prop
  | .done finished => ∀ value ∈ finished.value.join, value.Fits maxStringSize maxArraySize
  | .call name args _ => StringFits maxStringSize name.length ∧ args.Fits maxStringSize maxArraySize

instance : DecidablePred (Guest.Stop.Fits (G := G))
  | .done finished => inferInstanceAs (Decidable (∀ value ∈ finished.value.join, _))
  | .call name _ _ => inferInstanceAs (Decidable (StringFits _ name.length ∧ _))

def Guest.Stop.calls : Guest.Stop (Finished G) → Bool
  | .done _ => false
  | .call _ _ _ => true

/-- A run of the interpreter, up to its next stop, that the parent can follow. -/
structure Guest.InOrder (p : Parent F W) (guest : Guest (Finished G)) : Prop where
  lines : ∀ line ∈ guest.lines, (languageLog line []).isSome
  quiet : p.point.asks → guest.lines = []
  fits : guest.stop.Fits

instance (p : Parent F W) : DecidablePred (Guest.InOrder (G := G) p) := fun guest =>
  decidable_of_iff ((∀ line ∈ guest.lines, (languageLog line []).isSome) ∧
      (p.point.asks → guest.lines = []) ∧ guest.stop.Fits)
    ⟨fun h => ⟨h.1, h.2.1, h.2.2⟩, fun h => ⟨h.lines, h.quiet, h.fits⟩⟩

/-- What the child does next keeps the session in order. -/
def Session.ChildInOrder (interp : Interp G) (s : Session F W G) : Prop :=
  match s.right.point with
  | .loop state =>
      Answers (fun request => (childLoop interp request state).InOrder s.left ∧
          ((childLoop interp request state).stop.calls → request.entersGuest))
        (readRequest (⟨s.toRight, .more⟩ : Pipe))
  | .await resume =>
      Answers (fun reply => (resume reply).InOrder s.left)
        (readValueNolimit.attempt (⟨s.toRight, .more⟩ : Pipe))
  | .dead => True

instance (interp : Interp G) (s : Session F W G) : Decidable (s.ChildInOrder interp) := by
  unfold Session.ChildInOrder
  split <;> infer_instance

/-! ### Runs in order -/

namespace Session

/-- A step that keeps the session in order. -/
inductive OrderlyStep (natives : Natives F W) (interp : Interp G) :
    Session F W G → Session F W G → Prop where
  | parent {s : Session F W G} {next : Parent F W} {rest : List Mark} {written : Bytes}
      (horder : s.ParentInOrder)
      (hstep : (parentMachine natives).step s.left s.toLeft = some (next, rest, written)) :
      OrderlyStep natives interp s ⟨next, s.right, s.toRight ++ written, rest⟩
  | child {s : Session F W G} {next : Child G} {rest : Bytes} {written : List Mark}
      (horder : s.ChildInOrder interp)
      (hstep : (childMachine interp).step s.right s.toRight = some (next, rest, written)) :
      OrderlyStep natives interp s ⟨s.left, next, rest, s.toLeft ++ written⟩

theorem OrderlyStep.run {natives : Natives F W} {interp : Interp G} {s t : Session F W G}
    (h : OrderlyStep natives interp s t) : Run natives interp s t := by
  cases h with
  | parent _ hstep => exact .left hstep
  | child _ hstep => exact .right hstep

/-- The sessions that every step so far has kept in order. -/
def Orderly (natives : Natives F W) (interp : Interp G) (world : W) (program : List (Op F))
    (state : G) (s : Session F W G) : Prop :=
  Relation.ReflTransGen (OrderlyStep natives interp) (start world program state) s

theorem Orderly.reaches {natives : Natives F W} {interp : Interp G} {world : W}
    {program : List (Op F)} {state : G} {s : Session F W G}
    (h : Orderly natives interp world program state s) :
    Relation.ReflTransGen (Run natives interp) (start world program state) s :=
  h.lift id fun _ _ hstep => hstep.run

/-- The session after the turns of a schedule, where they can be taken and keep it in order. -/
def playOrderly (natives : Natives F W) (interp : Interp G) (s : Session F W G)
    (turns : List Party) : Option (Session F W G) :=
  turns.foldlM (fun s party =>
    match party with
    | .parent => if s.ParentInOrder then s.turn natives interp .parent else none
    | .child => if s.ChildInOrder interp then s.turn natives interp .child else none) s

theorem reaches_of_playOrderly {natives : Natives F W} {interp : Interp G} {turns : List Party}
    {s t : Session F W G} (hplay : s.playOrderly natives interp turns = some t) :
    Relation.ReflTransGen (OrderlyStep natives interp) s t := by
  induction turns generalizing s with
  | nil =>
      cases hplay
      exact .refl
  | cons party turns ih =>
      rw [playOrderly, List.foldlM_cons] at hplay
      obtain ⟨middle, hturn, hrest⟩ := Option.bind_eq_some_iff.mp hplay
      refine .head ?_ (ih hrest)
      cases party with
      | parent =>
          obtain ⟨horder, hturn⟩ := Option.ite_none_right_eq_some.mp hturn
          obtain ⟨⟨next, rest, written⟩, hstep, rfl⟩ := Option.map_eq_some_iff.mp hturn
          exact .parent horder hstep
      | child =>
          obtain ⟨horder, hturn⟩ := Option.ite_none_right_eq_some.mp hturn
          obtain ⟨⟨next, rest, written⟩, hstep, rfl⟩ := Option.map_eq_some_iff.mp hturn
          exact .child horder hstep

theorem exists_orderly (natives : Natives F W) (interp : Interp G) (world : W)
    (program : List (Op F)) (state : G) (turns : List Party) (P : Session F W G → Prop)
    [DecidablePred P]
    (hplay : ((start world program state).playOrderly natives interp turns).any (fun t => P t)) :
    ∃ t, Orderly natives interp world program state t ∧ P t := by
  obtain ⟨t, ht, hfacts⟩ := (Option.any_eq_true _ _).mp hplay
  exact ⟨t, reaches_of_playOrderly ht, of_decide_eq_true hfacts⟩

end Session

end CageKeeper
