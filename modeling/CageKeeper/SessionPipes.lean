import CageKeeper.SessionAgreement

/-! A session over pipes that hold a bounded number of bytes. A write to a full pipe blocks, and it
has no time limit. A program within the limits of the proxy gets to the end of its direct run over
pipes of any size: the two processes take turns. -/

namespace CageKeeper
open ByteStream

variable {F W G : Type} {natives : Natives F W} {interp : Interp G}

/-! ### The processes -/

theorem parentMachine_reads (natives : Natives F W) : (parentMachine natives).Reads := by
  intro p marks next rest written hstep
  obtain ⟨⟨next, pipe, written⟩, -, heq⟩ := Option.map_eq_some_iff.mp hstep
  cases heq
  exact List.drop_suffix _ marks

theorem childMachine_reads (interp : Interp G) : (childMachine interp).Reads := by
  intro c bytes next rest written hstep
  obtain ⟨⟨next, pipe, written⟩, hpipe, heq⟩ := Option.map_eq_some_iff.mp hstep
  cases heq
  cases hpoint : c.point with
  | loop state =>
      simp only [Child.step, hpoint] at hpipe
      cases hread : readRequest (⟨bytes, .more⟩ : Pipe) with
      | ok request rest =>
          rw [hread] at hpipe
          cases hpipe
          obtain ⟨taken, htaken⟩ := readRequest_lawful.ok_taken hread
          exact ⟨taken, htaken.symm⟩
      | reject rest =>
          rw [hread] at hpipe
          cases hpipe
          obtain ⟨taken, htaken⟩ := readRequest_lawful.reject_taken hread
          exact ⟨taken, htaken.symm⟩
      | short => simp only [hread, reduceCtorEq] at hpipe
      | exhausted => simp only [hread, reduceCtorEq] at hpipe
  | await resume =>
      simp only [Child.step, hpoint] at hpipe
      cases hread : readValueNolimit.attempt (⟨bytes, .more⟩ : Pipe) with
      | ok reply rest =>
          rw [hread] at hpipe
          cases hpipe
          obtain ⟨taken, htaken⟩ := readValueNolimit_lawful.attempt.ok_taken hread
          exact ⟨taken, htaken.symm⟩
      | reject rest => simp only [hread, reduceCtorEq] at hpipe
      | short => simp only [hread, reduceCtorEq] at hpipe
      | exhausted => simp only [hread, reduceCtorEq] at hpipe
  | dead => simp only [Child.step, hpoint, reduceCtorEq] at hpipe

/-- The two processes, what they have still to write and what is in the pipes. -/
abbrev PipedSession (F W G : Type) := BoundedNet (Parent F W) (Child G) Mark UInt8

namespace PipedSession

/-- Neither process has done anything yet. -/
def start (world : W) (program : List (Op F)) (memory : G) : PipedSession F W G :=
  BoundedNet.start (Session.start world program memory)

/-- A step of one of the processes, over pipes of a capacity. -/
abbrev Step (natives : Natives F W) (interp : Interp G) (capacity : Nat) :
    PipedSession F W G → PipedSession F W G → Prop :=
  BoundedNet.Step (parentMachine natives) (childMachine interp) capacity

end PipedSession

/-! ### Programs within the limits of the proxy -/

section Programs

variable {d after : Direct F W G} {s t u : Session F W G} {program rest : List (Op F)}

/-- The processes take turns in a whole program of which no call is refused. -/
theorem program_calmlySimulated {results : List Result} (hmatches : Matches d s)
    (hprogram : s.left.program = program ++ rest)
    (hadmissible : d.Admissible natives interp program)
    (hallowed : d.Allowed natives interp s.left.inCall program)
    (hrun : d.run natives interp program = some (results, after)) :
    CalmlySimulated natives interp s rest results after := by
  induction program generalizing d s results with
  | nil =>
      cases hrun
      exact ⟨s, .refl, hmatches, hprogram, (List.append_nil _).symm, by simp⟩
  | cons operation program ih =>
      obtain ⟨⟨result, middle⟩, hcall, hrest⟩ := Option.bind_eq_some_iff.mp hrun
      obtain ⟨⟨results, after⟩, hrest, heq⟩ := Option.map_eq_some_iff.mp hrest
      cases heq
      obtain ⟨t, hfirst, hmiddle, hfollows⟩ :=
        op_calmlySimulated hmatches hprogram hadmissible.1 hallowed.first hcall
      obtain ⟨u, hlater, hafter, hfollows'⟩ := ih hmiddle hfollows.program
        (hadmissible.2 result middle hcall) (hallowed.tail hcall hfollows.inCall) hrest
      exact ⟨u, hfirst.trans hlater, hafter, hfollows.trans hfollows'⟩

/-- Whatever the sizes of the pipes and the order of the steps are, a run of a program over pipes
ends, and at its end the session stands where the direct run does, with the same results. -/
def CompletesOverPipes (natives : Natives F W) (interp : Interp G) (world : W) (memory : G)
    (program : List (Op F)) : Prop :=
  ∃ results after,
    (Direct.start world memory).run natives interp program = some (results, after) ∧
    ∀ capacity, 0 < capacity →
      Acc (flip (PipedSession.Step natives interp capacity)) (.start world program memory) ∧
      ∀ b, Relation.ReflTransGen (PipedSession.Step natives interp capacity)
          (.start world program memory) b →
        Terminal (PipedSession.Step natives interp capacity) b →
        Matches after b.net ∧ b.net.left.program = [] ∧ b.net.left.results = results

/-- **The sandboxed run over pipes.** A program within the limits of the proxy, no call of which comes
after one that has returned `NULL`, runs to the end of its direct run over pipes of any size. -/
theorem completesOverPipes {world : W} {memory : G} {program : List (Op F)}
    (hadmissible : (Direct.start world memory).Admissible natives interp program)
    (hallowed : (Direct.start world memory).Allowed natives interp false program) :
    CompletesOverPipes natives interp world memory program := by
  obtain ⟨results, after, hrun⟩ := hadmissible.run
  obtain ⟨t, hcalm, hmatches, hfollows⟩ := program_calmlySimulated
    (matches_start world program memory) (List.append_nil program).symm hadmissible hallowed hrun
  refine ⟨results, after, hrun, fun capacity hcapacity => ?_⟩
  have hcalm' : Relation.ReflTransGen (Session.Calm natives interp)
      (PipedSession.start world program memory).net t := by
    rwa [PipedSession.start, BoundedNet.net_start]
  obtain ⟨hacc, hends⟩ := BoundedNet.ends_of_calm (parentMachine_monotone natives)
    (childMachine_monotone interp) (parentMachine_reads natives) (childMachine_reads interp)
    hcapacity (hmatches.terminal hfollows.program) hmatches.toRight hmatches.toLeft hcalm'
  refine ⟨hacc, fun b hreach hterminal => ?_⟩
  rw [hends b hreach hterminal]
  exact ⟨hmatches, hfollows.program, hfollows.results⟩

/-- The program of `sandboxProgram`, over pipes of any size. -/
theorem completesOverPipes_echo :
    CompletesOverPipes echoNatives echoInterp () () sandboxProgram := by
  have hadmissible : (Direct.start () ()).Admissible echoNatives echoInterp sandboxProgram := by
    decide +kernel
  obtain ⟨results, after, hrun⟩ := hadmissible.run
  have hresults : ((Direct.start () ()).run echoNatives echoInterp sandboxProgram).map Prod.fst =
      some [.unit, .unit, .bool true, .bool true, .value (some (.int32 7#32)),
        .value (some (.array [.boolean true, .void]))] := by
    decide +kernel
  rw [hrun] at hresults
  refine completesOverPipes hadmissible (Direct.allowed_of_run hrun ?_)
  cases hresults
  decide

end Programs

/-! ### Sessions in order -/

section Orderly

variable {s t : Session F W G}

theorem Session.Invariant.child_steps (interp : Interp G) (h : s.Invariant natives)
    (htoRight : s.toRight ≠ []) : ∃ result, (childMachine interp).step s.right s.toRight = some result := by
  have hobeys : ∀ {c : Child G} {state : G} (_ : c.point = .loop state) {operations : List (Op F)}
      (_ : ∀ operation ∈ operations, operation.Readable)
      (_ : operations.flatMap (Op.command natives) ≠ []),
      ∃ result, (childMachine interp).step c (operations.flatMap (Op.command natives)) =
        some result := by
    intro c state hchild operations hreadable hsome
    cases operations with
    | nil => exact absurd rfl hsome
    | cons operation operations =>
        rw [List.flatMap_cons, child_obeys interp hchild natives
          (hreadable operation (List.mem_cons_self ..))]
        exact ⟨_, rfl⟩
  obtain ⟨flight, htalk, -⟩ := h
  cases htalk with
  | outside _ _ hchild hpending =>
      exact hobeys hchild (fun operation hmem => (hpending operation hmem).2) htoRight
  | asking _ _ hchild hpending hreadable =>
      refine hobeys hchild ?_ htoRight
      exact List.forall_mem_append.mpr ⟨fun operation hmem => (hpending operation hmem).2,
        List.forall_mem_singleton.mpr hreadable⟩
  | serving _ _ hpartner =>
      cases hpartner with
      | entering hchild hpending _ hreadable =>
          refine hobeys hchild ?_ htoRight
          exact List.forall_mem_append.mpr ⟨fun operation hmem => (hpending operation hmem).2,
            List.forall_mem_singleton.mpr hreadable⟩
      | answered hchild _ hvalue =>
          have hresumes := child_resumes interp hchild hvalue []
          rw [List.append_nil] at hresumes
          exact ⟨_, hresumes⟩
      | _ => exact absurd rfl htoRight
  | _ => exact absurd rfl htoRight

/-- The parent takes what is on its way to it, unless it is outside all operations. -/
theorem Session.Invariant.parent_steps (h : s.Invariant natives) (htoLeft : s.toLeft ≠ [])
    (hinside : s.left.point ≠ .host) :
    ∃ result, (parentMachine natives).step s.left s.toLeft = some result := by
  obtain ⟨flight, htalk, hbooks⟩ := h
  cases htalk with
  | outside hpoint => exact absurd hpoint hinside
  | asking => exact absurd rfl htoLeft
  | @told p c state name ret hpoint =>
      have htold := parent_told natives hpoint ret []
      rw [List.append_nil] at htold
      exact ⟨_, htold⟩
  | @serving p c caller toRight tail flight lines hpoint hframes hpartner =>
      cases lines with
      | cons line lines =>
          obtain ⟨delivered, hlogged, -⟩ := hbooks.lines
          have hline : IsLogLine line := hbooks.logLines line
            (by rw [hlogged]; exact List.mem_append_right _ (List.mem_cons_self ..))
          obtain ⟨heard, hheard⟩ :=
            Option.isSome_iff_exists.mp (hbooks.deliverable line (List.mem_cons_self ..))
          rw [List.flatMap_cons, List.append_assoc]
          exact ⟨_, parent_hears natives hpoint hline hheard _⟩
      | nil =>
          rw [List.flatMap_nil, List.nil_append] at htoLeft ⊢
          cases hpartner with
          | @calling name args resume hchild hends hname hargs =>
              rw [← List.append_nil (proxyFunctionCall name args),
                parentMachine_afterRead natives (.callback name args)
                  (fun _ => Parent.step_callbacks hpoint)]
              · exact ⟨_, rfl⟩
              · simpa [proxyFunctionCall, writeByte] using
                  readMessage_writeCallback hname hargs (unmark []) .more
          | @finished state reply =>
              have hreturns := parent_returns natives hpoint reply []
              rw [List.append_nil] at hreturns
              exact ⟨_, hreturns⟩
          | _ => exact absurd rfl htoLeft
  | native => exact absurd rfl htoLeft
  | returned hpoint => exact ⟨_, parent_leaves natives hpoint _⟩
  | @compiled p c state ret hpoint =>
      have hcompiled := parent_compiled natives hpoint ret []
      rw [List.append_nil] at hcompiled
      exact ⟨_, hcompiled⟩
  | @called p c state name value hpoint hframes hchild hfits =>
      have hcalled := parent_called natives hpoint hfits []
      rw [List.append_nil] at hcalled
      exact ⟨_, hcalled⟩

/-- While the child waits for the answer to a callback, at most one pipe holds bytes. -/
def Session.AwaitsOneWay (s : Session F W G) : Prop :=
  ∀ resume, s.right.point = .await resume → s.OneWay

theorem Session.Invariant.parent_oneWay {next : Parent F W} {rest : List Mark} {written : Bytes}
    (h : s.Invariant natives) (hone : s.AwaitsOneWay)
    (hstep : (parentMachine natives).step s.left s.toLeft = some (next, rest, written)) :
    Session.AwaitsOneWay ⟨next, s.right, s.toRight ++ written, rest⟩ := by
  intro resume hawait
  have hempties : s.toLeft = [] → rest = [] := fun hempty =>
    List.suffix_nil.mp (hempty ▸ parentMachine_reads natives hstep)
  rcases hone resume hawait with htoRight | htoLeft
  · obtain ⟨flight, htalk, -⟩ := h
    cases htalk with
    | serving hpoint =>
        obtain ⟨⟨next, pipe, written⟩, hpipe, heq⟩ := Option.map_eq_some_iff.mp hstep
        cases heq
        rw [Parent.step_callbacks hpoint, Parent.afterRead_eq_some] at hpipe
        obtain ⟨message, -, -, rfl⟩ := hpipe
        exact Or.inl (by simpa using htoRight)
    | native => exact Or.inr (hempties rfl)
    | outside _ _ hchild => exact absurd (hchild.symm.trans hawait) (by simp)
    | asking _ _ hchild => exact absurd (hchild.symm.trans hawait) (by simp)
    | told _ _ hchild => exact absurd (hchild.symm.trans hawait) (by simp)
    | returned _ _ hchild => exact absurd (hchild.symm.trans hawait) (by simp)
    | compiled _ _ hchild => exact absurd (hchild.symm.trans hawait) (by simp)
    | called _ _ hchild => exact absurd (hchild.symm.trans hawait) (by simp)
  · exact Or.inr (hempties htoLeft)

/-- A child that calls back has read everything: the command is the last one on its way, since the
parent waits for its reply. -/
theorem Session.Invariant.child_oneWay {next : Child G} {rest : Bytes} {written : List Mark}
    (h : s.Invariant natives) (horder : s.ChildInOrder interp)
    (hstep : (childMachine interp).step s.right s.toRight = some (next, rest, written)) :
    Session.AwaitsOneWay ⟨s.left, next, rest, s.toLeft ++ written⟩ := by
  intro resume hawait
  refine Or.inl ?_
  have hobeys : ∀ {p : Parent F W} {c : Child G} {state : G} {marks : List Mark}
      {definitions : List (Op F)} {operation : Op F}
      (_ : ∀ definition ∈ definitions, definition.Defines ∧ definition.Readable)
      (_ : operation.Readable) (_ : c.point = .loop state)
      (_ : Session.ChildInOrder interp
        ⟨p, c, (definitions ++ [operation]).flatMap (Op.command natives), marks⟩)
      (_ : (childMachine interp).step c
        ((definitions ++ [operation]).flatMap (Op.command natives)) = some (next, rest, written)),
      rest = [] := by
    intro p c state marks definitions operation hpending hreadable hchild horder hstep
    cases definitions with
    | nil =>
        have hbytes : ([] ++ [operation]).flatMap (Op.command natives) =
            operation.command natives ++ [] := by simp
        rw [hbytes, child_obeys interp hchild natives hreadable] at hstep
        cases hstep
        rfl
    | cons definition definitions =>
        obtain ⟨hdefines, hdefinition⟩ := hpending definition (List.mem_cons_self ..)
        obtain ⟨guest, state', -, rfl, -, -⟩ :=
          horder.defines hchild List.flatMap_cons hdefines hdefinition hstep
        cases hawait
  obtain ⟨flight, htalk, -⟩ := h
  cases htalk with
  | @outside p c state pending lines hpoint _ hchild hpending =>
      cases pending with
      | nil => rw [List.flatMap_nil, child_loop_waits interp hchild] at hstep; cases hstep
      | cons definition pending =>
          obtain ⟨hdefines, hdefinition⟩ := hpending definition (List.mem_cons_self ..)
          obtain ⟨guest, state', -, rfl, -, -⟩ :=
            horder.defines hchild List.flatMap_cons hdefines hdefinition hstep
          cases hawait
  | asking _ _ hchild hpending hreadable => exact hobeys hpending hreadable hchild horder hstep
  | serving _ _ hpartner =>
      cases hpartner with
      | entering hchild hpending _ hreadable =>
          exact hobeys hpending hreadable hchild horder hstep
      | answered hchild _ hvalue =>
          rw [← List.append_nil (writeValue _), child_resumes interp hchild hvalue] at hstep
          cases hstep
          rfl
      | _ => exact List.suffix_nil.mp (childMachine_reads interp hstep)
  | _ => exact List.suffix_nil.mp (childMachine_reads interp hstep)

theorem Session.Orderly.awaitsOneWay {world : W} {program : List (Op F)} {memory : G}
    (h : Session.Orderly natives interp world program memory s) : s.AwaitsOneWay := by
  induction h with
  | refl => exact fun resume hawait => absurd hawait (by simp [Session.start, Child.start])
  | tail hrun hstep ih =>
      have hinvariant := Session.Orderly.invariant hrun
      cases hstep with
      | parent horder hstep => exact hinvariant.parent_oneWay ih hstep
      | child horder hstep => exact hinvariant.child_oneWay horder hstep

theorem Op.command_ne_nil (natives : Natives F W) (operation : Op F) :
    operation.command natives ≠ [] := by
  cases operation <;> simp [Op.command, writeByte]

theorem Op.commands_ne_nil (natives : Natives F W) (definitions : List (Op F)) (operation : Op F) :
    (definitions ++ [operation]).flatMap (Op.command natives) ≠ [] := by
  simp [Op.command_ne_nil]

/-- A parent inside an operation takes a step, or something is on its way to one of the two. -/
theorem Session.Invariant.parent_or_pending (h : s.Invariant natives)
    (hinside : s.left.point ≠ .host) (htoRight : s.toRight = []) (htoLeft : s.toLeft = []) :
    ∃ result, (parentMachine natives).step s.left s.toLeft = some result := by
  obtain ⟨flight, htalk, -⟩ := h
  cases htalk with
  | outside hpoint => exact absurd hpoint hinside
  | asking => exact absurd htoRight (Op.commands_ne_nil natives _ _)
  | told => exact absurd htoLeft (by simp [mark, writeByte])
  | serving _ _ hpartner =>
      have htail := (List.append_eq_nil_iff.mp htoLeft).2
      cases hpartner with
      | entering => exact absurd htoRight (Op.commands_ne_nil natives _ _)
      | calling => exact absurd htail (by simp [proxyFunctionCall, mark, writeByte])
      | answered => exact absurd htoRight (writeValue_ne_nil _)
      | finished => exact absurd htail (Reply.written_ne_nil _)
  | @native p c caller body resume hpoint =>
      cases body with
      | ret value world =>
          cases value with
          | none =>
              exact ⟨_, @parentMachine_passes F W natives p _ [] _ (Parent.step_native_null hpoint)⟩
          | some value => exact ⟨_, parent_answers natives hpoint []⟩
      | holed array world =>
          exact ⟨_, @parentMachine_passes F W natives p _ [] _ (Parent.step_native_holed hpoint)⟩
      | op operation world resume =>
          exact ⟨_, @parentMachine_passes F W natives p _ [] _ (Parent.step_native_op hpoint)⟩
  | returned hpoint => exact ⟨_, parent_leaves natives hpoint _⟩
  | compiled => exact absurd htoLeft (by simp [Reply.content, mark, writeByte])
  | called => exact absurd htoLeft (by simp [Reply.content, mark, writeValue_ne_nil])

/-- A parent outside all operations that takes no further step is at the end of its program. -/
theorem Session.program_nil_of_step (hhost : s.left.point = .host)
    (hnone : (parentMachine natives).step s.left s.toLeft = none) : s.left.program = [] := by
  cases hprogram : s.left.program with
  | nil => rfl
  | cons operation program =>
      rw [parent_invokes natives hhost hprogram] at hnone
      cases hnone

/-- Where a session in order ends, the operations have returned and the child has read everything. -/
theorem Session.Invariant.finished (h : s.Invariant natives)
    (hend : Terminal (Session.Run natives interp) s) :
    s.left.point = .host ∧ s.left.program = [] ∧ s.toRight = [] := by
  have hparent : (parentMachine natives).step s.left s.toLeft = none :=
    Option.eq_none_iff_forall_ne_some.mpr fun result hstep => hend _ (.left hstep)
  have hchild : (childMachine interp).step s.right s.toRight = none :=
    Option.eq_none_iff_forall_ne_some.mpr fun result hstep => hend _ (.right hstep)
  have htoRight : s.toRight = [] := by
    by_contra hsome
    obtain ⟨result, hstep⟩ := h.child_steps interp hsome
    rw [hchild] at hstep
    cases hstep
  have hhost : s.left.point = .host := by
    by_contra hinside
    obtain ⟨result, hstep⟩ : ∃ result, (parentMachine natives).step s.left s.toLeft =
        some result := by
      by_cases htoLeft : s.toLeft = []
      · exact h.parent_or_pending hinside htoRight htoLeft
      · exact h.parent_steps htoLeft hinside
    rw [hparent] at hstep
    cases hstep
  exact ⟨hhost, Session.program_nil_of_step hhost hparent, htoRight⟩

/-- Both pipes hold bytes only where a child at its commands has written log lines. -/
theorem Session.Invariant.logLines (h : s.Invariant natives) (hone : s.AwaitsOneWay)
    (htoLeft : s.toLeft ≠ []) (hother : s.toRight ≠ [] ∨ s.left.point = .host) :
    ∃ delivered lines, s.right.logged = delivered ++ lines ∧
      s.toLeft = lines.flatMap sandboxLog ∧ ∃ state, s.right.point = .loop state := by
  obtain ⟨flight, htalk, hbooks⟩ := h
  obtain ⟨delivered, hlogged, -⟩ := hbooks.lines
  cases htalk with
  | outside _ _ hchild => exact ⟨delivered, _, hlogged, rfl, _, hchild⟩
  | asking => exact absurd rfl htoLeft
  | serving hpoint _ hpartner =>
      have htoRight := hother.resolve_right fun hhost => by cases hhost.symm.trans hpoint
      cases hpartner with
      | entering hchild => exact ⟨delivered, _, hlogged, List.append_nil _, _, hchild⟩
      | answered hchild =>
          rcases hone _ hchild with hempty | hempty
          · exact absurd hempty htoRight
          · exact absurd hempty htoLeft
      | calling => exact absurd rfl htoRight
      | finished => exact absurd rfl htoRight
  | told hpoint => exact absurd hother (by simp [hpoint])
  | native hpoint => exact absurd hother (by simp [hpoint])
  | returned hpoint => exact absurd hother (by simp [hpoint])
  | compiled hpoint => exact absurd hother (by simp [hpoint])
  | called hpoint => exact absurd hother (by simp [hpoint])

end Orderly

/-! ### Where sessions in order stop -/

namespace PipedSession
open BoundedNet

variable {capacity : Nat} {world : W} {program : List (Op F)} {memory : G}
  {b b' : PipedSession F W G}

/-- A step that moves a byte or keeps the session in order. -/
def OrderlyStep (natives : Natives F W) (interp : Interp G) (capacity : Nat)
    (b b' : PipedSession F W G) : Prop :=
  Step natives interp capacity b b' ∧
    (b'.net = b.net ∨ Session.OrderlyStep natives interp b.net b'.net)

/-- The states over pipes that steps in order lead to. -/
def Orderly (natives : Natives F W) (interp : Interp G) (capacity : Nat) (world : W)
    (program : List (Op F)) (memory : G) (b : PipedSession F W G) : Prop :=
  Relation.ReflTransGen (OrderlyStep natives interp capacity) (start world program memory) b

theorem Orderly.net (h : Orderly natives interp capacity world program memory b) :
    Session.Orderly natives interp world program memory b.net := by
  induction h with
  | refl =>
      rw [start, BoundedNet.net_start]
      exact .refl
  | tail _ hstep ih =>
      rcases hstep.2 with heq | horder
      · rwa [heq]
      · exact ih.tail horder

/-- All operations have returned, and the child has read everything. -/
structure Done (b : PipedSession F W G) : Prop where
  host : b.left.state.point = .host
  program : b.left.state.program = []
  toRight : b.net.toRight = []

/-- The child waits for room for log lines, which nobody reads: the operations have all returned, or
the parent waits for room for a command. -/
structure StuckOnLog (capacity : Nat) (b : PipedSession F W G) : Prop where
  child : ∃ state, b.right.state.point = .loop state
  lines : ∃ delivered lines, b.right.state.logged = delivered ++ lines ∧
    b.net.toLeft = lines.flatMap sandboxLog
  full : b.BlockedRight capacity
  parent : b.left.state.point = .host ∧ b.left.state.program = [] ∨ b.BlockedLeft capacity

theorem StuckOnLog.overflow (h : b.StuckOnLog capacity) :
    capacity < (b.right.state.logged.flatMap sandboxLog).length := by
  obtain ⟨delivered, lines, hlogged, hlines⟩ := h.lines
  have hfull := h.full.2
  have hunsent := List.length_pos_iff.mpr h.full.1
  have hlength : b.net.toLeft.length =
      b.left.taken.length + b.toLeft.length + b.right.unsent.length := by
    rw [BoundedNet.net, List.length_append, List.length_append]
  rw [hlogged, List.flatMap_append, List.length_append, ← hlines, hlength]
  omega

/-- **Where sessions in order stop.** Over pipes of any size a session in order comes to its end, or
it stops where the child cannot write its log lines; it then has written more of them than a pipe
holds. -/
theorem Orderly.stops (hcapacity : 0 < capacity)
    (horder : Orderly natives interp capacity world program memory b)
    (hend : Terminal (Step natives interp capacity) b) :
    b.Done ∨ (b.StuckOnLog capacity ∧
      capacity < (b.right.state.logged.flatMap sandboxLog).length) := by
  have hinvariant := Session.Orderly.invariant horder.net
  have hone := horder.net.awaitsOneWay
  rcases terminal_cases hcapacity hend with hterminal | hstalled
  · obtain ⟨hhost, hprogram, htoRight⟩ := hinvariant.finished hterminal
    exact Or.inl ⟨hhost, hprogram, htoRight⟩
  · have hstuck : b.StuckOnLog capacity := by
      cases hstalled with
      | both hleft hright =>
          obtain ⟨delivered, lines, hlogged, hlines, hchild⟩ :=
            hinvariant.logLines hone hright.toLeft_ne_nil (Or.inl hleft.toRight_ne_nil)
          exact ⟨hchild, ⟨delivered, lines, hlogged, hlines⟩, hright, Or.inr hleft⟩
      | left hleft hhalted =>
          obtain ⟨result, hstep⟩ := hinvariant.child_steps interp hleft.toRight_ne_nil
          have hhalted' := (hhalted.append b.toRight).append b.left.unsent
          rw [show (childMachine interp).step b.net.right b.net.toRight = none from
            hhalted'.step_eq] at hstep
          cases hstep
      | right hright hhalted =>
          have hnone : (parentMachine natives).step b.net.left b.net.toLeft = none :=
            ((hhalted.append b.toLeft).append b.right.unsent).step_eq
          have hhost : b.net.left.point = .host := by
            by_contra hinside
            obtain ⟨result, hstep⟩ := hinvariant.parent_steps hright.toLeft_ne_nil hinside
            rw [hnone] at hstep
            cases hstep
          obtain ⟨delivered, lines, hlogged, hlines, hchild⟩ :=
            hinvariant.logLines hone hright.toLeft_ne_nil (Or.inr hhost)
          exact ⟨hchild, ⟨delivered, lines, hlogged, hlines⟩, hright,
            Or.inl ⟨hhost, Session.program_nil_of_step hhost hnone⟩⟩
    exact Or.inr ⟨hstuck, hstuck.overflow⟩

/-! ### No size is enough -/

theorem OrderlyStep.of_left {p next : Parent F W} {taken rest : List Mark} {written : Bytes}
    {right : Side (Child G) UInt8 Mark} {toRight : Bytes} {toLeft : List Mark}
    (horder : Session.ParentInOrder (BoundedNet.net ⟨⟨p, taken, []⟩, right, toRight, toLeft⟩))
    (hstep : (parentMachine natives).step p taken = some (next, rest, written)) :
    OrderlyStep natives interp capacity ⟨⟨p, taken, []⟩, right, toRight, toLeft⟩
      ⟨⟨next, rest, written⟩, right, toRight, toLeft⟩ := by
  have hnet := parentMachine_monotone natives hstep (toLeft ++ right.unsent)
  rw [← List.append_assoc] at hnet
  have horderly : Session.OrderlyStep natives interp _ _ := .parent horder hnet
  refine ⟨.left (.compute hstep), Or.inr ?_⟩
  simpa [BoundedNet.net] using horderly

theorem OrderlyStep.of_right {c next : Child G} {taken rest : Bytes} {written : List Mark}
    {left : Side (Parent F W) Mark UInt8} {toRight : Bytes} {toLeft : List Mark}
    (horder : Session.ChildInOrder interp (BoundedNet.net ⟨left, ⟨c, taken, []⟩, toRight, toLeft⟩))
    (hstep : (childMachine interp).step c taken = some (next, rest, written)) :
    OrderlyStep natives interp capacity ⟨left, ⟨c, taken, []⟩, toRight, toLeft⟩
      ⟨left, ⟨next, rest, written⟩, toRight, toLeft⟩ := by
  have hnet := childMachine_monotone interp hstep (toRight ++ left.unsent)
  rw [← List.append_assoc] at hnet
  have horderly : Session.OrderlyStep natives interp _ _ := .child horder hnet
  refine ⟨.right (.compute hstep), Or.inr ?_⟩
  simpa [BoundedNet.net] using horderly

theorem orderly_of_moves
    (h : Relation.ReflTransGen (Move (parentMachine natives) (childMachine interp) capacity) b b') :
    Relation.ReflTransGen (OrderlyStep natives interp capacity) b b' :=
  h.lift id fun _ _ hmove => ⟨hmove.1, Or.inl hmove.2⟩

/-- The definition of a constant with an empty name. -/
def constant : Op Unit := .defineConstant (CString.lit "") .void

theorem invokes_constant (interp : Interp G) (capacity : Nat) {p : Parent Unit Unit}
    {program : List (Op Unit)} (hhost : p.point = .host) (hframes : p.frames = [])
    (hprogram : p.program = constant :: program) (taken : List Mark)
    (right : Side (Child G) UInt8 Mark) (toRight : Bytes) (toLeft : List Mark) :
    ∃ next : Parent Unit Unit, next.point = .host ∧ next.frames = [] ∧ next.program = program ∧
      OrderlyStep echoNatives interp capacity ⟨⟨p, taken, []⟩, right, toRight, toLeft⟩
        ⟨⟨next, taken, constant.command echoNatives⟩, right, toRight, toLeft⟩ := by
  have horder : Session.ParentInOrder
      (BoundedNet.net ⟨⟨p, taken, []⟩, right, toRight, toLeft⟩) := by
    simp only [Session.ParentInOrder, BoundedNet.net, hhost, hprogram]
    intro operation hmem
    cases hmem
    exact ⟨by decide, rfl⟩
  refine ⟨_, ?_, ?_, ?_,
    OrderlyStep.of_left horder (parent_invokes echoNatives hhost hprogram taken)⟩
  all_goals simp [Parent.invoke, constant, Parent.defineConstantProxy, Parent.finish_nil, hframes]

/-- A parent that defines constants writes until its pipe is full, if the child does not read. The
induction is on the number of definitions. -/
theorem fills (interp : Interp G) {n : Nat} {p : Parent Unit Unit} (taken : List Mark)
    (right : Side (Child G) UInt8 Mark) (toRight : Bytes) {toLeft : List Mark}
    (hhost : p.point = .host) (hframes : p.frames = [])
    (hprogram : p.program = List.replicate n constant) (hroom : toRight.length ≤ capacity)
    (hmore : capacity < toRight.length + n) (hfull : right.unsent ≠ [] ∧ capacity ≤ toLeft.length) :
    ∃ b, Relation.ReflTransGen (OrderlyStep echoNatives interp capacity)
        ⟨⟨p, taken, []⟩, right, toRight, toLeft⟩ b ∧
      b.BlockedLeft capacity ∧ b.BlockedRight capacity := by
  induction n generalizing p toRight with
  | zero => omega
  | succ n ih =>
      obtain ⟨next, hhost', hframes', hprogram', hinvokes⟩ :=
        invokes_constant interp capacity hhost hframes hprogram taken right toRight toLeft
      have hlength : (constant.command echoNatives).length = 6 := by decide
      have htake : ((constant.command echoNatives).take (capacity - toRight.length)).length =
          min (capacity - toRight.length) 6 := by
        rw [List.length_take, hlength]
      have hsends : Relation.ReflTransGen (OrderlyStep echoNatives interp capacity)
          ⟨⟨next, taken, constant.command echoNatives⟩, right, toRight, toLeft⟩ _ :=
        orderly_of_moves (sends_left (capacity - toRight.length) (by omega))
      by_cases hfits : toRight.length + 6 ≤ capacity
      · have hdrop : (constant.command echoNatives).drop (capacity - toRight.length) = [] :=
          List.drop_eq_nil_of_le (by omega)
        rw [hdrop] at hsends
        have hlater : (toRight ++ (constant.command echoNatives).take
            (capacity - toRight.length)).length = toRight.length + 6 := by
          rw [List.length_append]
          omega
        obtain ⟨b, hrun, hblocked⟩ := ih _ hhost' hframes' hprogram' (hlater ▸ hfits) (by omega)
        exact ⟨b, (hsends.head hinvokes).trans hrun, hblocked⟩
      · refine ⟨_, hsends.head hinvokes, ⟨?_, ?_⟩, hfull⟩
        · exact List.ne_nil_of_length_pos (by rw [List.length_drop]; omega)
        · show capacity ≤ (toRight ++ _).length
          rw [List.length_append]
          omega

/-- A program that writes empty log lines before it goes on. -/
def floodGuest {α : Type} : Nat → Guest α → Guest α
  | 0, guest => guest
  | n + 1, guest => .log (CString.lit "") (floodGuest n guest)

/-- A language that logs while it defines a constant. -/
def floodInterp (n : Nat) : Interp Unit :=
  { echoInterp with defineConstant := fun _ _ _ => floodGuest n (.done ()) }

theorem map_floodGuest {α β : Type} (f : α → β) (n : Nat) (guest : Guest α) :
    (floodGuest n guest).map f = floodGuest n (guest.map f) := by
  induction n with
  | zero => rfl
  | succ n ih => rw [floodGuest, Guest.map, ih, floodGuest]

theorem lines_floodGuest {α : Type} (n : Nat) (result : α) :
    (floodGuest n (.done result)).lines = List.replicate n (logLine (CString.lit "")) := by
  induction n with
  | zero => rfl
  | succ n ih => rw [floodGuest, Guest.lines, ih, List.replicate_succ]

theorem stop_floodGuest {α : Type} (n : Nat) (result : α) :
    (floodGuest n (.done result)).stop = .done result := by
  induction n with
  | zero => rfl
  | succ n ih => rw [floodGuest, Guest.stop, ih]

theorem childLoop_constant (n : Nat) :
    childLoop (floodInterp n) (constant.request echoNatives) () =
      floodGuest n (.done ⟨(), [], true, none, none⟩) :=
  map_floodGuest _ n _

/-- The child reads the definition of a constant and has log lines to write. -/
theorem child_floods (capacity n : Nat) (left : Side (Parent Unit Unit) Mark UInt8)
    (hhost : left.state.point = .host) (hsent : left.unsent = []) (toLeft : List Mark) :
    ∃ (c : Child Unit) (written : List Mark), n ≤ written.length ∧
      (childMachine (floodInterp n)).step (.start ()) (constant.command echoNatives) =
        some (c, [], written) ∧
      OrderlyStep echoNatives (floodInterp n) capacity
        ⟨left, ⟨.start (), constant.command echoNatives, []⟩, [], toLeft⟩
        ⟨left, ⟨c, [], written⟩, [], toLeft⟩ := by
  have hreadable : constant.Readable := by decide
  have hline : (languageLog (logLine (CString.lit "")) []).isSome := by decide
  have hstep := child_obeys (floodInterp n) (c := .start ()) rfl echoNatives hreadable []
  rw [childLoop_constant, Child.advance_eq, List.append_nil] at hstep
  refine ⟨_, _, ?_, hstep, OrderlyStep.of_right ?_ hstep⟩
  · have hlength : (sandboxLog (logLine (CString.lit ""))).length = 5 := by decide
    show n ≤ List.length (_ ++ _)
    rw [lines_floodGuest, List.length_append, List.length_flatMap, List.map_replicate, hlength,
      List.sum_replicate_nat]
    omega
  · have hread := constant.readRequest_command echoNatives hreadable [] .more
    rw [List.append_nil] at hread
    have hguest : Guest.InOrder left.state
        (floodGuest n (.done (⟨(), [], true, none, none⟩ : Finished Unit))) := by
      refine ⟨?_, fun hasks => absurd hasks (by simp [hhost, Point.asks]), ?_⟩
      · rw [lines_floodGuest]
        intro line hmem
        rw [List.eq_of_mem_replicate hmem]
        exact hline
      · rw [stop_floodGuest]
        decide
    simp only [Session.ChildInOrder, BoundedNet.net, Child.start, hsent, List.append_nil, hread,
      Answers, childLoop_constant]
    refine ⟨hguest, fun hcalls => ?_⟩
    rw [stop_floodGuest] at hcalls
    cases hcalls

/-- The child writes log lines until its pipe is full, and the parent goes on with definitions. -/
theorem floods (capacity : Nat) (hcapacity : 0 < capacity) :
    ∃ b : PipedSession Unit Unit Unit,
      Orderly echoNatives (floodInterp (capacity + 1)) capacity ()
          (List.replicate (capacity + 2) constant) () b ∧
        b.BlockedLeft capacity ∧ b.BlockedRight capacity := by
  obtain ⟨p, hhost, hframes, hprogram, hinvokes⟩ :=
    invokes_constant (floodInterp (capacity + 1)) capacity
      (p := .start () (List.replicate (capacity + 2) constant)) rfl rfl List.replicate_succ []
      ⟨.start (), [], []⟩ [] []
  obtain ⟨c, written, hlength, hstep, hreads⟩ :=
    child_floods capacity (capacity + 1) ⟨p, [], []⟩ hhost rfl []
  have htransfer : Relation.ReflTransGen
      (OrderlyStep echoNatives (floodInterp (capacity + 1)) capacity)
      ⟨⟨p, [], constant.command echoNatives⟩, ⟨.start (), [], []⟩, [], []⟩ _ :=
    orderly_of_moves (transfer (childMachine_monotone _) hcapacity hstep)
  have hsends : Relation.ReflTransGen
      (OrderlyStep echoNatives (floodInterp (capacity + 1)) capacity)
      ⟨⟨p, [], []⟩, ⟨c, [], written⟩, [], []⟩ _ :=
    orderly_of_moves (sends_right capacity (by simp))
  have hfull : written.drop capacity ≠ [] ∧ capacity ≤ (written.take capacity).length := by
    rw [List.length_take]
    exact ⟨List.ne_nil_of_length_pos (by rw [List.length_drop]; omega), by omega⟩
  obtain ⟨b, hfills, hblocked⟩ := fills (floodInterp (capacity + 1)) []
    ⟨c, [], written.drop capacity⟩ [] hhost hframes hprogram (Nat.zero_le _) (by simp) hfull
  exact ⟨b, (((htransfer.tail hreads).trans hsends).trans hfills).head hinvokes, hblocked⟩

/-- **Pipes of no size are enough.** However many bytes the pipes hold, a session in order can stop
with each process waiting for the other one to read. -/
theorem deadlocks (capacity : Nat) (hcapacity : 0 < capacity) :
    ∃ (interp : Interp Unit) (program : List (Op Unit)) (b : PipedSession Unit Unit Unit),
      Orderly echoNatives interp capacity () program () b ∧
        Terminal (Step echoNatives interp capacity) b ∧
        b.BlockedLeft capacity ∧ b.BlockedRight capacity := by
  obtain ⟨b, horder, hleft, hright⟩ := floods capacity hcapacity
  exact ⟨_, _, b, horder, terminal_of_blocked hleft hright, hleft, hright⟩

/-- Pipes of 64 KiB. -/
theorem deadlocks_linux :
    ∃ (interp : Interp Unit) (program : List (Op Unit)) (b : PipedSession Unit Unit Unit),
      Orderly echoNatives interp 65536 () program () b ∧
        Terminal (Step echoNatives interp 65536) b ∧
        b.BlockedLeft 65536 ∧ b.BlockedRight 65536 :=
  deadlocks 65536 (by decide)

/-- The state in which such a session over pipes of 64 KiB stops. -/
theorem stops_flood :
    ∃ b : PipedSession Unit Unit Unit, b.BlockedLeft 65536 ∧
      (b.Done ∨ (b.StuckOnLog 65536 ∧
        65536 < (b.right.state.logged.flatMap sandboxLog).length)) := by
  obtain ⟨b, horder, hleft, hright⟩ := floods 65536 (by decide)
  exact ⟨b, hleft, Orderly.stops (by decide) horder (terminal_of_blocked hleft hright)⟩

end PipedSession

end CageKeeper
