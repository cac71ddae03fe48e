import CageKeeper.StreamNet
import CageKeeper.SessionWire
import CageKeeper.ProxyGuest

/-! The parent and the child with the two pipes between them. The bytes on their way to the parent
keep the role the child wrote them in; the parent sees the bytes only. Every interleaving of the
two processes is a run of the session, and a read of the parent can time out anywhere in it. -/

namespace CageKeeper
open ByteStream

variable {F W G : Type}

/-! ### The processes as machines -/

/-- The parent, reading from a pipe whose writer is alive. -/
def parentMachine (natives : Natives F W) : Machine (Parent F W) Mark UInt8 where
  step p marks :=
    (p.step natives ⟨unmark marks, .more⟩).map fun (next, rest, written) =>
      (next, marks.drop (marks.length - rest.bytes.length), written)

/-- The child, reading from a pipe whose writer is alive. -/
def childMachine (interp : Interp G) : Machine (Child G) UInt8 Mark where
  step c bytes :=
    (c.step interp ⟨bytes, .more⟩).map fun (next, rest, written) => (next, rest.bytes, written)

/-- The two processes and what is in the pipes between them. -/
abbrev Session (F W G : Type) := Net (Parent F W) (Child G) Mark UInt8

namespace Session

/-- Neither process has done anything yet. -/
def start (world : W) (program : List (Op F)) (state : G) : Session F W G :=
  ⟨.start world program, .start state, [], []⟩

abbrev Run (natives : Natives F W) (interp : Interp G) : Session F W G → Session F W G → Prop :=
  Net.Step (parentMachine natives) (childMachine interp)

inductive Step (natives : Natives F W) (interp : Interp G) :
    Session F W G → Session F W G → Prop where
  | run {s t : Session F W G} (hrun : Run natives interp s t) : Step natives interp s t
  /-- The time budget of an operation runs out after some of the bytes the parent waits for. -/
  | timeout {s : Session F W G} {count : Nat} {next : Parent F W} {written : Bytes}
      (hstep : s.left.step natives ⟨(unmark s.toLeft).take count, .timeout⟩ =
        some (next, ⟨[], .expired⟩, written)) :
      Step natives interp s ⟨next, s.right, s.toRight ++ written, s.toLeft.drop count⟩
  /-- The child has died, and the parent reads to the end of the pipe. -/
  | hangup {s : Session F W G} {next : Parent F W} {rest : Pipe} {written : Bytes}
      (hdead : s.right.point = .dead)
      (hstep : s.left.step natives ⟨unmark s.toLeft, .eof⟩ = some (next, rest, written)) :
      Step natives interp s ⟨next, s.right, s.toRight ++ written,
        s.toLeft.drop (s.toLeft.length - rest.bytes.length)⟩
  /-- The child has died, and the parent writes to the pipe: `SIGPIPE`, which is nowhere ignored, ends
  it. -/
  | brokenPipe {s : Session F W G} {next : Parent F W} {rest : Pipe} {written : Bytes}
      (hdead : s.right.point = .dead) (hwritten : written ≠ [])
      (hstep : s.left.step natives ⟨unmark s.toLeft, .eof⟩ = some (next, rest, written)) :
      Step natives interp s ⟨{ next with point := .crashed }, s.right, s.toRight,
        s.toLeft.drop (s.toLeft.length - rest.bytes.length)⟩

inductive Party where
  | parent
  | child

/-- The session after the next step of a process. -/
def turn (natives : Natives F W) (interp : Interp G) (s : Session F W G) :
    Party → Option (Session F W G)
  | .parent => ((parentMachine natives).step s.left s.toLeft).map fun (next, rest, written) =>
      ⟨next, s.right, s.toRight ++ written, rest⟩
  | .child => ((childMachine interp).step s.right s.toRight).map fun (next, rest, written) =>
      ⟨s.left, next, rest, s.toLeft ++ written⟩

theorem run_of_turn {natives : Natives F W} {interp : Interp G} {s t : Session F W G}
    {party : Party} (hturn : s.turn natives interp party = some t) : Run natives interp s t := by
  cases party with
  | parent =>
      obtain ⟨⟨next, rest, written⟩, hstep, rfl⟩ := Option.map_eq_some_iff.mp hturn
      exact .left hstep
  | child =>
      obtain ⟨⟨next, rest, written⟩, hstep, rfl⟩ := Option.map_eq_some_iff.mp hturn
      exact .right hstep

theorem terminal_of_turn {natives : Natives F W} {interp : Interp G} {s : Session F W G}
    (hturn : ∀ party, s.turn natives interp party = none) : Terminal (Run natives interp) s := by
  intro t hrun
  cases hrun with
  | left hstep =>
      have hparent := hturn .parent
      rw [turn, hstep] at hparent
      cases hparent
  | right hstep =>
      have hchild := hturn .child
      rw [turn, hstep] at hchild
      cases hchild

/-- The session after the turns of a schedule, where they can be taken. -/
def play (natives : Natives F W) (interp : Interp G) (s : Session F W G) (turns : List Party) :
    Option (Session F W G) :=
  turns.foldlM (turn natives interp) s

theorem reaches_of_play {natives : Natives F W} {interp : Interp G} {turns : List Party}
    {s t : Session F W G} (hplay : s.play natives interp turns = some t) :
    Relation.ReflTransGen (Run natives interp) s t := by
  induction turns generalizing s with
  | nil =>
      cases hplay
      exact .refl
  | cons party turns ih =>
      rw [play, List.foldlM_cons] at hplay
      obtain ⟨middle, hturn, hrest⟩ := Option.bind_eq_some_iff.mp hplay
      exact .head (run_of_turn hturn) (ih hrest)

theorem exists_of_play (natives : Natives F W) (interp : Interp G) (s : Session F W G)
    (turns : List Party) (P : Session F W G → Prop) [DecidablePred P]
    (hplay : (s.play natives interp turns).any (fun t => P t)) :
    ∃ t, Relation.ReflTransGen (Run natives interp) s t ∧ P t := by
  obtain ⟨t, ht, hfacts⟩ := (Option.any_eq_true _ _).mp hplay
  exact ⟨t, reaches_of_play ht, of_decide_eq_true hfacts⟩

theorem steps_of_run {natives : Natives F W} {interp : Interp G} {s t : Session F W G}
    (h : Relation.ReflTransGen (Run natives interp) s t) :
    Relation.ReflTransGen (Step natives interp) s t :=
  h.lift id fun _ _ hrun => .run hrun

end Session

/-! ### What arrives later changes no step -/

section Monotone

theorem afterRead_extend {α : Type} {reader : Reader Pipe α} (hreader : reader.Lawful)
    {next : α → Bool → Parent F W} {bytes : Bytes} {p : Parent F W} {rest : Pipe} {written : Bytes}
    (hread : Parent.afterRead reader ⟨bytes, .more⟩ next = some (p, rest, written))
    (later : Bytes) :
    Parent.afterRead reader ⟨bytes ++ later, .more⟩ next =
      some (p, ⟨rest.bytes ++ later, .more⟩, written) := by
  obtain ⟨value, hvalue, rfl, rfl⟩ := Parent.afterRead_eq_some.mp hread
  have hending : rest.ending = .more := (hreader.ok_ending hvalue).mpr rfl
  rw [hending]
  exact Parent.afterRead_eq_some.mpr ⟨value, hreader.ok_extend hvalue later .more, rfl, rfl⟩

theorem Parent.step_extend {natives : Natives F W} {p next : Parent F W} {bytes written : Bytes}
    {rest : Pipe} (hstep : p.step natives ⟨bytes, .more⟩ = some (next, rest, written))
    (later : Bytes) :
    p.step natives ⟨bytes ++ later, .more⟩ =
      some (next, ⟨rest.bytes ++ later, .more⟩, written) := by
  cases hpoint : p.point with
  | host =>
      cases hprogram : p.program with
      | nil =>
          rw [step_host_nil hpoint hprogram] at hstep
          cases hstep
      | cons operation program =>
          rw [step_host hpoint hprogram] at hstep ⊢
          cases hstep
          rfl
  | callbacks caller =>
      rw [step_callbacks hpoint] at hstep ⊢
      exact afterRead_extend readMessage_lawful hstep later
  | native caller body =>
      cases body with
      | ret value world =>
          cases value with
          | none =>
              rw [step_native_null hpoint] at hstep ⊢
              cases hstep
              rfl
          | some value =>
              rw [step_native_value hpoint] at hstep ⊢
              cases hstep
              rfl
      | holed array world =>
          rw [step_native_holed hpoint] at hstep ⊢
          cases hstep
          rfl
      | op operation world resume =>
          rw [step_native_op hpoint] at hstep ⊢
          cases hstep
          rfl
  | callbacksDone caller ret expired =>
      rw [step_callbacksDone hpoint] at hstep ⊢
      cases hstep
      rfl
  | compileReply =>
      rw [step_compileReply hpoint] at hstep ⊢
      exact afterRead_extend readByte_lawful.attempt hstep later
  | callReply name =>
      rw [step_callReply hpoint] at hstep ⊢
      exact afterRead_extend readValue_lawful.attempt hstep later
  | isFunctionReply name =>
      rw [step_isFunctionReply hpoint] at hstep ⊢
      exact afterRead_extend readByte_lawful.attempt hstep later
  | crashed =>
      rw [step_crashed hpoint] at hstep
      cases hstep

theorem parentMachine_monotone (natives : Natives F W) : (parentMachine natives).Monotone := by
  intro p marks next rest written hstep later
  obtain ⟨⟨next, pipe, written⟩, hpipe, heq⟩ := Option.map_eq_some_iff.mp hstep
  cases heq
  have hextend := Parent.step_extend hpipe (unmark later)
  simp only [parentMachine, unmark_append, hextend, Option.map_some, List.length_append,
    unmark_length]
  rw [Nat.add_sub_add_right, List.drop_append_of_le_length (Nat.sub_le _ _)]

theorem readOperands_lawful (command : Option Command) :
    (readOperands command : Reader Pipe Request).Lawful := by
  match command with
  | some .defineConstant =>
      exact .bind (readString_lawful 0).attempt fun _ =>
        .bind readValueNolimit_lawful.attempt fun _ => .pure _
  | some .defineFunction =>
      exact .bind (readString_lawful 0).attempt fun _ =>
        .bind readByte_lawful.attempt fun _ => .pure _
  | some .compileScript => exact .bind (readString_lawful 0).attempt fun _ => .pure _
  | some .isFunction => exact .bind (readString_lawful 0).attempt fun _ => .pure _
  | some .callFunction =>
      exact .bind (readString_lawful 0).attempt fun _ =>
        .bind readValueNolimit_lawful.attempt fun _ => .pure _
  | none => exact .pure _

theorem readRequest_lawful : (readRequest : Reader Pipe Request).Lawful :=
  .bind readByte_lawful fun _ => readOperands_lawful _

theorem Child.step_extend {interp : Interp G} {c next : Child G} {bytes : Bytes} {rest : Pipe}
    {written : List Mark} (hstep : c.step interp ⟨bytes, .more⟩ = some (next, rest, written))
    (later : Bytes) :
    c.step interp ⟨bytes ++ later, .more⟩ =
      some (next, ⟨rest.bytes ++ later, .more⟩, written) := by
  cases hpoint : c.point with
  | loop state =>
      simp only [step, hpoint] at hstep ⊢
      cases hread : readRequest (⟨bytes, .more⟩ : Pipe) with
      | ok request pipe =>
          rw [hread] at hstep
          cases hstep
          rw [readRequest_lawful.ok_extend hread later .more]
      | reject pipe =>
          rw [hread] at hstep
          cases hstep
          rw [readRequest_lawful.reject_extend hread later .more]
      | short => simp only [hread, reduceCtorEq] at hstep
      | exhausted => simp only [hread, reduceCtorEq] at hstep
  | await resume =>
      simp only [step, hpoint] at hstep ⊢
      cases hread : readValueNolimit.attempt (⟨bytes, .more⟩ : Pipe) with
      | ok reply pipe =>
          rw [hread] at hstep
          cases hstep
          rw [readValueNolimit_lawful.attempt.ok_extend hread later .more]
      | reject pipe => simp only [hread, reduceCtorEq] at hstep
      | short => simp only [hread, reduceCtorEq] at hstep
      | exhausted => simp only [hread, reduceCtorEq] at hstep
  | dead => simp only [step, hpoint, reduceCtorEq] at hstep

theorem childMachine_monotone (interp : Interp G) : (childMachine interp).Monotone := by
  intro c bytes next rest written hstep later
  obtain ⟨⟨next, pipe, written⟩, hpipe, heq⟩ := Option.map_eq_some_iff.mp hstep
  cases heq
  simp only [childMachine, Child.step_extend hpipe later, Option.map_some]

/-- Two steps of a session that nothing disturbs can be taken in either order. -/
theorem Session.run_diamond (natives : Natives F W) (interp : Interp G) :
    Diamond (Session.Run natives interp) :=
  Net.step_diamond (parentMachine_monotone natives) (childMachine_monotone interp)

end Monotone

end CageKeeper
