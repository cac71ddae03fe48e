import CageKeeper.ProxyInCall

/-! A native function that uses the proxy it is called from. The child waits for a value and reads
whatever the host writes next; all five operations write their command first, the two that are then
refused included. So the child reads the value only if no operation is used, or if the first command
looks like it. -/

namespace CageKeeper
open ByteStream

variable {F W : Type} {natives : Natives F W}

/-- The places a native function's execution passes through. -/
def Point.InBody : Point F W → Prop
  | .native _ _ => True
  | .isFunctionReply _ => True
  | _ => False

/-- An execution of a native function until `process_callbacks` is back before the next message,
with the states it passes and what it writes in each of them. -/
inductive BodyRun (natives : Natives F W) : Host F W → List (Parent F W × Bytes) → Host F W → Prop
    where
  | back {p : Parent F W} {pipe : Pipe} {caller : Caller} (hpoint : p.point = .callbacks caller) :
      BodyRun natives (p, pipe) [] (p, pipe)
  | step {p next : Parent F W} {pipe rest : Pipe} {written : Bytes}
      {path : List (Parent F W × Bytes)} {last : Host F W} (hin : p.point.InBody)
      (hstep : p.step natives pipe = some (next, rest, written))
      (hrun : BodyRun natives (next, rest) path last) :
      BodyRun natives (p, pipe) ((p, written) :: path) last

/-- The native function is about to use an operation that is refused. -/
def Parent.Refuses (p : Parent F W) : Prop :=
  p.inCall = true ∧ ∃ caller operation world resume,
    p.point = .native caller (.op operation world resume) ∧ Op.EntersGuest operation

/-- The operations that a native function uses inside a callback. -/
def Body.operations : Body F W → Pipe → List (Op F)
  | .ret _ _, _ => []
  | .holed _ _, _ => []
  | .op operation world resume, pipe =>
      operation :: match operation.atOnce with
        | some result => (resume result world).operations pipe
        | none =>
            match readByte.attempt pipe with
            | .ok reply rest => (resume (.bool (reply.any (· ≠ 0))) world).operations rest
            | _ => []

/-- What the child's `proxy_function_call` reads of what the host has written is the value, byte for
byte, and refused operations have written nothing. -/
structure Undisturbed (path : List (Parent F W × Bytes)) (value : Value) : Prop where
  reply : ∃ reply rest,
    readValueNolimit (⟨path.flatMap Prod.snd, .more⟩ : Pipe) = .ok reply rest ∧
      path.flatMap Prod.snd = writeValue value ++ rest.bytes
  refused : ∀ step ∈ path, step.1.Refuses → step.2 = []

/-! ### What looks like the value -/

/-- `read_value_nolimit` takes what `write_value` writes for a value as one value. -/
def Value.ReadWhole (value : Value) : Prop :=
  ∃ raw : RawValue, raw.encode = writeValue value ∧ (raw.tally 0 0 0).isSome

theorem Value.Fits.readWhole {value : Value} (h : value.Fits 0 0) : value.ReadWhole :=
  ⟨value.raw, value.encode_raw, h⟩

/-- The command of an operation starts like the value: `DEFINE_CONSTANT`, `DEFINE_FUNCTION` and
`IS_FUNCTION` are `TYPE_FLOAT32`, `TYPE_INT32` and `TYPE_STRING`, and the length of the name comes
next. -/
inductive Op.LooksLike : Op F → Value → Prop where
  | defineConstant (name : CString) (value : Value) :
      LooksLike (.defineConstant name value) (.float32 (BitVec.ofNat 32 name.length))
  | defineFunction (name : CString) (f : F) :
      LooksLike (.defineFunction name f) (.int32 (BitVec.ofNat 32 name.length))
  | isFunction {name str : CString}
      (hlength : BitVec.ofNat 32 str.length = BitVec.ofNat 32 name.length)
      (hfront : str.bytes <+: name.bytes) : LooksLike (.isFunction name) (.string str)

/-- Operations after which the child still reads the value: none enters the guest, and the command
of the first one, if there is one, looks like the value. -/
structure Harmless (operations : List (Op F)) (value : Value) : Prop where
  readWhole : value.ReadWhole
  quiet : ∀ operation ∈ operations, ¬operation.EntersGuest
  first : ∀ operation ∈ operations.head?, operation.LooksLike value

theorem readValueNolimit_eq_ok {pipe rest : Pipe} {value : Value} :
    readValueNolimit pipe = .ok value rest ↔
      ∃ raw : RawValue, pipe.bytes = raw.encode ++ rest.bytes ∧ rest.ending = pipe.ending ∧
        (raw.tally 0 0 0).isSome ∧ value = raw.value := by
  simp only [readValueNolimit, Reader.bind_apply, Outcome.bind_eq_ok, Prod.exists,
    withFrames_readValueCounted_eq_ok, Reader.pure_apply, Outcome.ok.injEq, Option.isSome_iff_exists]
  constructor
  · rintro ⟨_, c, _, ⟨raw, hbytes, hending, htally, rfl⟩, rfl, rfl⟩
    exact ⟨raw, hbytes, hending, ⟨c, htally⟩, rfl⟩
  · rintro ⟨raw, hbytes, hending, ⟨c, htally⟩, rfl⟩
    exact ⟨_, c, _, ⟨raw, hbytes, hending, htally, rfl⟩, rfl, rfl⟩

/-- The child reads exactly the value if it can read it and the stream starts with it. -/
theorem reads_value_iff {sent : Bytes} {value : Value} :
    (∃ reply rest, readValueNolimit (⟨sent, .more⟩ : Pipe) = .ok reply rest ∧
      sent = writeValue value ++ rest.bytes) ↔ value.ReadWhole ∧ writeValue value <+: sent := by
  constructor
  · rintro ⟨reply, rest, hread, hsent⟩
    obtain ⟨raw, hbytes, -, htally, -⟩ := readValueNolimit_eq_ok.mp hread
    exact ⟨⟨raw, List.append_cancel_right (hbytes.symm.trans hsent), htally⟩, _, hsent.symm⟩
  · rintro ⟨⟨raw, hraw, htally⟩, rest, hsent⟩
    refine ⟨raw.value, ⟨rest, .more⟩, readValueNolimit_eq_ok.mpr ⟨raw, ?_, rfl, htally, rfl⟩,
      hsent.symm⟩
    rw [hraw]
    exact hsent.symm

theorem wordBytes_prefix_iff {word word' : BitVec 32} {front rest : Bytes} :
    wordBytes word ++ front <+: wordBytes word' ++ rest ↔ word = word' ∧ front <+: rest := by
  constructor
  · rintro ⟨back, hbytes⟩
    rw [List.append_assoc] at hbytes
    obtain ⟨hword, hrest⟩ := List.append_inj hbytes rfl
    have := congrArg bytesWord hword
    rw [bytesWord_wordBytes, bytesWord_wordBytes] at this
    exact ⟨this, back, hrest⟩
  · rintro ⟨rfl, hrest⟩
    exact (List.prefix_append_right_inj _).mpr hrest

theorem eq_of_wordBytes_prefix {word word' : BitVec 32} {rest : Bytes}
    (h : wordBytes word <+: wordBytes word' ++ rest) : word = word' := by
  rw [← List.append_nil (wordBytes word)] at h
  exact (wordBytes_prefix_iff.mp h).1

theorem Value.ReadWhole.length_le {str : CString} (h : (Value.string str).ReadWhole) {length : Nat}
    (hlength : BitVec.ofNat 32 str.length = BitVec.ofNat 32 length) : str.length ≤ length := by
  obtain ⟨raw, hraw, htally⟩ := h
  cases raw with
  | string block =>
      simp only [RawValue.encode, writeValue, writeByte, writeString, List.singleton_append,
        List.cons.injEq, true_and] at hraw
      obtain ⟨-, hblock⟩ := List.append_inj hraw rfl
      subst hblock
      simp only [RawValue.tally, Option.isSome_ite] at htally
      have hmax := htally.1
      have hmod := congrArg BitVec.toNat hlength
      simp only [BitVec.toNat_ofNat, CString.length, intMax] at hmod hmax ⊢
      omega
  | _ => simp [RawValue.encode, writeValue, writeByte, ValueType.code] at hraw

theorem Op.looksLike_iff {operation : Op F} (hquiet : ¬operation.EntersGuest) {value : Value}
    (hvalue : value.ReadWhole) (tail : Bytes) :
    writeValue value <+: operation.command natives ++ tail ↔ operation.LooksLike value := by
  cases operation with
  | defineConstant name constant =>
      simp only [command, writeByte, writeString, List.append_assoc, List.cons_append]
      constructor
      · intro hprefix
        cases value with
        | float32 bits =>
            obtain rfl := eq_of_wordBytes_prefix (List.cons_prefix_cons.mp hprefix).2
            exact .defineConstant name constant
        | _ => cases (List.cons_prefix_cons.mp hprefix).1
      · rintro ⟨⟩
        exact List.cons_prefix_cons.mpr ⟨rfl, List.prefix_append _ _⟩
  | defineFunction name f =>
      simp only [command, writeByte, writeString, List.append_assoc, List.cons_append]
      constructor
      · intro hprefix
        cases value with
        | int32 bits =>
            obtain rfl := eq_of_wordBytes_prefix (List.cons_prefix_cons.mp hprefix).2
            exact .defineFunction name f
        | _ => cases (List.cons_prefix_cons.mp hprefix).1
      · rintro ⟨⟩
        exact List.cons_prefix_cons.mpr ⟨rfl, List.prefix_append _ _⟩
  | isFunction name =>
      simp only [command, writeByte, writeString, List.append_assoc, List.cons_append]
      constructor
      · intro hprefix
        cases value with
        | string str =>
            obtain ⟨hlength, hfront⟩ :=
              wordBytes_prefix_iff.mp (List.cons_prefix_cons.mp hprefix).2
            exact .isFunction hlength (List.prefix_of_prefix_length_le hfront
              (List.prefix_append _ _) (hvalue.length_le hlength))
        | _ => cases (List.cons_prefix_cons.mp hprefix).1
      · rintro ⟨⟩
        rename_i str hlength hfront
        exact List.cons_prefix_cons.mpr
          ⟨rfl, wordBytes_prefix_iff.mpr ⟨hlength, hfront.trans (List.prefix_append _ _)⟩⟩
  | compileScript script => exact absurd (.compileScript script) hquiet
  | callFunction name args => exact absurd (.callFunction name args) hquiet

/-! ### What a native function sends -/

theorem BodyRun.of_callbacks {p : Parent F W} {pipe : Pipe} {path : List (Parent F W × Bytes)}
    {last : Host F W} (h : BodyRun natives (p, pipe) path last) {caller : Caller}
    (hpoint : p.point = .callbacks caller) : path = [] ∧ last = (p, pipe) := by
  cases h with
  | back => exact ⟨rfl, rfl⟩
  | step hin => simp [hpoint, Point.InBody] at hin

theorem BodyRun.not_left {p : Parent F W} {pipe : Pipe} {path : List (Parent F W × Bytes)}
    {last : Host F W} (h : BodyRun natives (p, pipe) path last) (hout : ¬p.point.InBody)
    (hback : ∀ caller, p.point ≠ .callbacks caller) : False := by
  cases h with
  | back hpoint => exact hback _ hpoint
  | step hin => exact hout hin

/-- What an execution that starts in a function's body sends and where it is refused. -/
structure Sends (natives : Natives F W) (path : List (Parent F W × Bytes))
    (operations : List (Op F)) (value : Value) : Prop where
  sent : path.flatMap Prod.snd = operations.flatMap (Op.command natives) ++ writeValue value
  refused : (∀ step ∈ path, step.1.Refuses → step.2 = []) ↔
    ∀ operation ∈ operations, ¬operation.EntersGuest

theorem BodyRun.sends_ret {p : Parent F W} {pipe : Pipe} {caller : Caller} {result : Option Value}
    {world : W} (hpoint : p.point = .native caller (.ret result world))
    {path : List (Parent F W × Bytes)} {last : Host F W}
    (hrun : BodyRun natives (p, pipe) path last) {value : Value}
    (hvalue : last.1.replies = p.replies ++ [value]) : Sends natives path [] value := by
  cases hrun with
  | back hback => simp [hpoint] at hback
  | step hin hstep hrest =>
      cases result with
      | none =>
          rw [Parent.step_native_null hpoint] at hstep
          cases hstep
          exact (hrest.not_left id (by simp)).elim
      | some result =>
          rw [Parent.step_native_value hpoint] at hstep
          cases hstep
          obtain ⟨rfl, rfl⟩ := hrest.of_callbacks rfl
          obtain rfl := List.singleton_inj.mp (List.append_cancel_left hvalue)
          refine ⟨by simp, iff_of_true ?_ (List.forall_mem_nil _)⟩
          rintro step hmem ⟨-, _, _, _, _, hop, -⟩
          rw [List.mem_singleton.mp hmem, hpoint] at hop
          cases hop

/-- A native function uses an operation: its command is written, and what else happens until the
function goes on writes nothing. -/
theorem BodyRun.cases_op {p : Parent F W} {pipe : Pipe} {caller : Caller} {operation : Op F}
    {world : W} {resume : Result → W → Body F W}
    (hpoint : p.point = .native caller (.op operation world resume)) (hcall : p.inCall = true)
    {path : List (Parent F W × Bytes)} {last : Host F W}
    (hrun : BodyRun natives (p, pipe) path last) :
    ∃ (next : Parent F W) (rest : Pipe) (result : Result) (quiet later : List (Parent F W × Bytes)),
      next.point = .native caller (resume result world) ∧ next.inCall = true ∧
      next.replies = p.replies ∧ BodyRun natives (next, rest) later last ∧
      path = (p, operation.command natives) :: (quiet ++ later) ∧
      (∀ step ∈ quiet, step.2 = []) ∧
      (Body.op operation world resume).operations pipe =
        operation :: (resume result world).operations rest := by
  cases hrun with
  | back hback => simp [hpoint] at hback
  | @step _ next _ rest written later _ hin hstep hrest =>
      rw [Parent.step_native_op hpoint] at hstep
      cases honce : operation.atOnce with
      | some result =>
          have hresumes := Parent.invoke_resumes natives
            (p := { p with world := world, frames := ⟨caller, resume⟩ :: p.frames }) hcall rfl honce
          rw [← Op.invoke_written natives
            { p with world := world, frames := ⟨caller, resume⟩ :: p.frames } operation]
          cases hstep
          refine ⟨_, pipe, result, [], later, hresumes.point, hresumes.inCall.trans hcall,
            hresumes.replies, hrest, rfl, by simp, ?_⟩
          rw [Body.operations, honce]
      | none =>
          cases operation with
          | isFunction asked =>
              cases hstep
              cases hrest with
              | back hback => simp [Parent.invoke, Parent.isFunctionProxy] at hback
              | @step _ last _ rest' written' later' _ hin' hread hlater =>
                  rw [Parent.step_isFunctionReply rfl, Parent.afterRead_eq_some] at hread
                  obtain ⟨reply, hreply, rfl, rfl⟩ := hread
                  have hresumes := Parent.resumes_isFunctionReturn
                    (p := { p with
                      world := world
                      frames := ⟨caller, resume⟩ :: p.frames
                      point := .isFunctionReply asked }) rfl asked reply
                  refine ⟨_, rest', _, [(_, [])], later', hresumes.point,
                    hresumes.inCall.trans hcall, hresumes.replies, hlater, rfl, by simp, ?_⟩
                  rw [Body.operations, honce, hreply]
          | _ => cases honce

theorem BodyRun.sends {body : Body F W} {p : Parent F W} {pipe : Pipe} {caller : Caller}
    (hpoint : p.point = .native caller body) (hcall : p.inCall = true)
    {path : List (Parent F W × Bytes)} {last : Host F W}
    (hrun : BodyRun natives (p, pipe) path last) {value : Value}
    (hvalue : last.1.replies = p.replies ++ [value]) :
    Sends natives path (body.operations pipe) value := by
  induction body generalizing p pipe path with
  | ret result world => exact hrun.sends_ret hpoint hvalue
  | holed array world =>
      cases hrun with
      | back hback => simp [hpoint] at hback
      | step hin hstep hrest =>
          rw [Parent.step_native_holed hpoint] at hstep
          cases hstep
          exact (hrest.not_left id (by simp)).elim
  | op operation world resume ih =>
      obtain ⟨next, rest, result, quiet, later, hnext, hflag, hreplies, hlater, rfl, hquiet,
        hoperations⟩ := hrun.cases_op hpoint hcall
      have hsends := ih result world hnext hflag hlater (hvalue.trans (by rw [hreplies]))
      have hsilent : quiet.flatMap Prod.snd = [] := List.flatMap_eq_nil_iff.mpr hquiet
      rw [hoperations]
      constructor
      · simp [hsilent, hsends.sent]
      · rw [List.forall_mem_cons, List.forall_mem_cons, List.forall_mem_append, hsends.refused]
        have hfirst : (p.Refuses → operation.command natives = []) ↔ ¬operation.EntersGuest := by
          constructor
          · intro h henters
            have hcommand := Parent.invoke_written_ne_nil natives p operation
            rw [Op.invoke_written] at hcommand
            exact hcommand (h ⟨hcall, caller, operation, world, resume, hpoint, henters⟩)
          · rintro henters ⟨-, _, _, _, _, hop, henters'⟩
            rw [hpoint] at hop
            cases hop
            exact absurd henters' henters
        rw [hfirst]
        exact and_congr_right fun _ => and_iff_right fun step hmem _ => hquiet step hmem

/-- **Re-entrant use.** While a native function that is called from `process_callbacks` uses the
proxy and then returns a value, the child reads exactly that value and refused operations write
nothing if and only if its operations are harmless. -/
theorem bodyRun_undisturbed_iff {p : Parent F W} {pipe : Pipe} {caller : Caller} {body : Body F W}
    (hpoint : p.point = .native caller body) (hcall : p.inCall = true)
    {path : List (Parent F W × Bytes)} {last : Host F W}
    (hrun : BodyRun natives (p, pipe) path last) {value : Value}
    (hvalue : last.1.replies = p.replies ++ [value]) :
    Undisturbed path value ↔ Harmless (body.operations pipe) value := by
  have hsends := hrun.sends hpoint hcall hvalue
  have hreads : Undisturbed path value ↔ (value.ReadWhole ∧
      writeValue value <+: (body.operations pipe).flatMap (Op.command natives) ++ writeValue value) ∧
        ∀ operation ∈ body.operations pipe, ¬operation.EntersGuest := by
    rw [← hsends.sent, ← hsends.refused, ← reads_value_iff]
    exact ⟨fun h => ⟨h.reply, h.refused⟩, fun h => ⟨h.1, h.2⟩⟩
  rw [hreads]
  cases body.operations pipe with
  | nil =>
      refine ⟨fun h => ⟨h.1.1, h.2, nofun⟩, fun h => ⟨⟨h.readWhole, ?_⟩, h.quiet⟩⟩
      exact List.prefix_rfl
  | cons operation operations =>
      have hfirst : ∀ (hvalue : value.ReadWhole) (hquiet : ¬operation.EntersGuest),
          writeValue value <+: (operation :: operations).flatMap (Op.command natives) ++
            writeValue value ↔ operation.LooksLike value := by
        intro hvalue hquiet
        rw [List.flatMap_cons, List.append_assoc]
        exact Op.looksLike_iff hquiet hvalue _
      constructor
      · rintro ⟨⟨hvalue, hprefix⟩, hquiet⟩
        refine ⟨hvalue, hquiet, fun first hmem => ?_⟩
        cases hmem
        exact (hfirst hvalue (hquiet _ (List.mem_cons_self ..))).mp hprefix
      · intro h
        refine ⟨⟨h.readWhole, ?_⟩, h.quiet⟩
        exact (hfirst h.readWhole (h.quiet _ (List.mem_cons_self ..))).mpr (h.first _ rfl)

def Parent.answering (body : Body F W) (world : W) : Parent F W :=
  { start world [] with
    point := .native .compileScript body
    inCall := true }

/-- A native function that defines the constant `abc` and then returns the float whose bits are 3:
what the child reads is the beginning of the definition. -/
def definingBody : Body Unit Unit :=
  .op (.defineConstant (CString.lit "abc") (.boolean true)) () fun _ world =>
    .ret (some (.float32 3#32)) world

theorem bodyRun_undisturbed_define :
    ∃ (path : List (Parent Unit Unit × Bytes)) (last : Host Unit Unit),
      BodyRun nullNatives (Parent.answering definingBody (), ⟨[], .eof⟩) path last ∧
      last.1.replies = [.float32 3#32] ∧ Undisturbed path (.float32 3#32) := by
  have hrun : BodyRun nullNatives (Parent.answering definingBody (), ⟨[], .eof⟩) _ _ :=
    .step trivial rfl (.step trivial rfl (.back rfl))
  refine ⟨_, _, hrun, rfl, (bodyRun_undisturbed_iff rfl rfl hrun rfl).mpr ?_⟩
  have hoperations : definingBody.operations ⟨[], .eof⟩ =
      [.defineConstant (CString.lit "abc") (.boolean true)] := rfl
  rw [hoperations]
  refine ⟨Value.Fits.readWhole (by decide), ?_, ?_⟩
  · exact List.forall_mem_singleton.mpr nofun
  · rintro _ ⟨⟩
    exact .defineConstant _ _

/-- A native function that calls the guest's `f` and then returns a void value. -/
def callingBody : Body Unit Unit :=
  .op (.callFunction (CString.lit "f") (.array [])) () fun _ world => .ret (some .void) world

/-- The call is refused, and its command is what the child reads as the callback's value. -/
theorem not_undisturbed_call :
    ∃ (path : List (Parent Unit Unit × Bytes)) (last : Host Unit Unit),
      BodyRun nullNatives (Parent.answering callingBody (), ⟨[], .eof⟩) path last ∧
      last.1.replies = [.void] ∧ ¬Undisturbed path .void := by
  obtain ⟨line, hline⟩ := Option.isSome_iff_exists.mp callRefusal_isSome
  have hstep : (Parent.answering callingBody ()).step nullNatives ⟨[], .eof⟩ =
      some ({ Parent.answering (.ret (some .void) ()) () with lines := [(.proxy, line)] },
        ⟨[], .eof⟩, [5, 1, 0, 0, 0, 102, 5, 0, 0, 0, 0]) := by
    have hwritten : writeByte Command.callFunction.code ++ writeString (CString.lit "f") ++
        writeValue (.array []) = [5, 1, 0, 0, 0, 102, 5, 0, 0, 0, 0] := by decide
    rw [Parent.step_native_op rfl]
    simp only [Parent.invoke, Parent.callFunctionProxy, Parent.report, hline, hwritten]
    rfl
  have hrun : BodyRun nullNatives (Parent.answering callingBody (), ⟨[], .eof⟩) _ _ :=
    .step trivial hstep (.step trivial rfl (.back rfl))
  refine ⟨_, _, hrun, rfl, fun h => ?_⟩
  obtain ⟨reply, rest, -, hsent⟩ := h.reply
  cases (List.cons.inj hsent).1

end CageKeeper
