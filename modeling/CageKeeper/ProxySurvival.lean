import CageKeeper.ProxyLoop
import CageKeeper.WireLimits
import CageKeeper.SessionWire

/-! The host against an arbitrary stream. On every finished stream `process_callbacks` comes to an
end, and it calls registered functions with decoded arguments only. But the text of a log message
is neither checked nor kept out of the format of `language_error`, `write_value` follows a `NULL`
that a native function returns in an array, and a write to a child that is gone raises `SIGPIPE`. -/

namespace CageKeeper
open ByteStream

variable {F W : Type} {natives : Natives F W}

theorem InTurn.run {s₀ : Serving F W} {n : Nat} {a b : Host F W} (h : InTurn natives s₀ n a)
    (hrun : Relation.ReflTransGen (Loop natives) a b) : ∃ n', InTurn natives s₀ n' b := by
  induction hrun with
  | refl => exact ⟨n, h⟩
  | tail _ hstep ih =>
      obtain ⟨n', hturn⟩ := ih
      obtain ⟨hin, written, hsolo⟩ := hstep
      exact ⟨_, hturn.step hin hsolo⟩

/-- What it takes for a native function to be called: the stream has the tag of a callback, a name
and the complete encoding of the arguments, and the function is registered under the name. -/
structure Invoked (p : Parent F W) (pipe rest : Pipe) (f : F) (args : Value) : Prop where
  decoded : ∃ block raw, pipe.bytes = Resp.callback.code ::
      (wordBytes (BitVec.ofNat 32 block.length) ++ block ++ (RawValue.encode raw ++ rest.bytes)) ∧
    (raw.tally maxStringSize maxArraySize 0).isSome ∧ args = raw.value ∧
    p.callbackFunctions.find (CString.ofBytes block) = some f

theorem readMessage_callback {pipe rest : Pipe} {name : CString} {args : Value}
    (hread : readMessage pipe = .ok (.callback name args) rest) :
    ∃ block raw, pipe.bytes = Resp.callback.code ::
        (wordBytes (BitVec.ofNat 32 block.length) ++ block ++ (RawValue.encode raw ++ rest.bytes)) ∧
      (raw.tally maxStringSize maxArraySize 0).isSome ∧ args = raw.value ∧
      name = CString.ofBytes block := by
  rcases readMessage_eq_ok.mp hread with ⟨hfailed, -⟩ | ⟨b, bytes, hbytes, hcontent⟩
  · cases hfailed
  · cases hresp : Resp.ofCode b with
    | none => simp [hresp, readContent] at hcontent
    | some resp =>
        obtain rfl := Resp.eq_code_of_ofCode hresp
        cases resp with
        | callback =>
            rw [hresp] at hcontent
            simp only [readContent, Reader.bind_apply, Reader.attempt_apply,
              Outcome.bind_eq_ok, Outcome.attempt_eq_ok] at hcontent
            obtain ⟨name', middle, ⟨name', rfl, hname⟩ | ⟨rfl, -⟩, hcontent⟩ := hcontent
            · simp only [Reader.bind_apply, Reader.attempt_apply, Outcome.bind_eq_ok,
                Outcome.attempt_eq_ok] at hcontent
              obtain ⟨args', last, ⟨args', rfl, hargs⟩ | ⟨rfl, -⟩, hcontent⟩ := hcontent
              · simp only [Reader.pure_apply, Outcome.ok.injEq, Message.callback.injEq] at hcontent
                obtain ⟨⟨rfl, rfl⟩, rfl⟩ := hcontent
                obtain ⟨block, -, hblock, -, rfl⟩ := readString_eq_ok.mp hname
                obtain ⟨raw, hraw, -, htally, rfl⟩ := readValue_eq_ok.mp hargs
                exact ⟨block, raw, by rw [hbytes, ← hraw, ← hblock], htally, rfl, rfl⟩
              · simp at hcontent
            · simp at hcontent
        | «return» => simp [hresp, readContent] at hcontent
        | error => simp [hresp, readContent] at hcontent
        | log => simp [hresp, readContent, Outcome.bind_eq_ok] at hcontent

/-- A step inside the loop calls no function, or one that is registered, with decoded arguments,
and leaves the host's program where it was. -/
theorem InTurn.calls {s₀ : Serving F W} {n : Nat} {p p' : Parent F W} {pipe pipe' : Pipe}
    {written : Bytes} (h : InTurn natives s₀ n (p, pipe)) (hin : p.point.InLoop)
    (hsolo : p.step natives pipe = some (p', pipe', written)) :
    p'.program = p.program ∧ (p'.calls = p.calls ∨
      ∃ f args, Invoked p pipe pipe' f args ∧ p'.calls = p.calls ++ [(f, args)]) := by
  cases h with
  | reading hpoint =>
      rw [Parent.step_callbacks hpoint, Parent.afterRead_eq_some] at hsolo
      obtain ⟨message, hread, rfl, -⟩ := hsolo
      cases message with
      | callback name args =>
          simp only [Parent.processCallbacks, CallbackTable.lookup_eq]
          cases hfind : p.callbackFunctions.find name with
          | none =>
              obtain ⟨line, hline⟩ := Option.isSome_iff_exists.mp unknownCallback_isSome
              simp only [Parent.report, hline]
              exact ⟨trivial, Or.inl trivial⟩
          | some f =>
              obtain ⟨block, raw, hbytes, htally, hargs, rfl⟩ := readMessage_callback hread
              exact ⟨rfl, Or.inr ⟨f, args, ⟨block, raw, hbytes, htally, hargs, hfind⟩, rfl⟩⟩
      | log text =>
          cases text with
          | none => exact ⟨rfl, Or.inl rfl⟩
          | some text =>
              simp only [Parent.processCallbacks, Parent.report]
              cases languageLog text [] <;> exact ⟨rfl, Or.inl rfl⟩
      | _ => exact ⟨rfl, Or.inl rfl⟩
  | @running _ _ _ _ _ caller body _ _ _ _ hpoint hframes hcall =>
      cases body with
      | ret value world =>
          cases value with
          | none =>
              rw [Parent.step_native_null hpoint] at hsolo
              cases hsolo
              exact ⟨rfl, Or.inl rfl⟩
          | some value =>
              rw [Parent.step_native_value hpoint] at hsolo
              cases hsolo
              exact ⟨rfl, Or.inl rfl⟩
      | holed array world =>
          rw [Parent.step_native_holed hpoint] at hsolo
          cases hsolo
          exact ⟨rfl, Or.inl rfl⟩
      | op operation world resume =>
          rw [Parent.step_native_op hpoint] at hsolo
          cases hsolo
          cases honce : operation.atOnce with
          | some result =>
              have hresumes := Parent.invoke_resumes natives
                (p := { p with world := world, frames := ⟨caller, resume⟩ :: p.frames })
                hcall rfl honce
              exact ⟨hresumes.program, Or.inl hresumes.calls⟩
          | none =>
              cases operation with
              | isFunction asked => exact ⟨rfl, Or.inl rfl⟩
              | _ => cases honce
  | @asking _ _ _ _ _ _ asked _ _ _ _ _ hpoint hframes =>
      rw [Parent.step_isFunctionReply hpoint, Parent.afterRead_eq_some] at hsolo
      obtain ⟨reply, -, rfl, -⟩ := hsolo
      have hresumes := Parent.resumes_isFunctionReturn hframes asked reply
      exact ⟨hresumes.program, Or.inl hresumes.calls⟩
  | returned hpoint => exact absurd hin (by simp [hpoint, Point.InLoop])
  | crashed hpoint => exact absurd hin (by simp [hpoint, Point.InLoop])

/-! ### A child that goes away -/

/-- A step inside `process_callbacks`, with the number of writes that the child is still there for.
Where the host writes to a child that is gone, `SIGPIPE` ends it. -/
inductive Attended (natives : Natives F W) : Host F W × Nat → Host F W × Nat → Prop where
  | quiet {a b : Host F W} {left : Nat} (hin : a.1.point.InLoop)
      (hstep : a.1.step natives a.2 = some (b.1, b.2, [])) : Attended natives (a, left) (b, left)
  | taken {a b : Host F W} {left : Nat} {written : Bytes} (hin : a.1.point.InLoop)
      (hwritten : written ≠ []) (hstep : a.1.step natives a.2 = some (b.1, b.2, written)) :
      Attended natives (a, left + 1) (b, left)
  | killed {a b : Host F W} {written : Bytes} (hin : a.1.point.InLoop) (hwritten : written ≠ [])
      (hstep : a.1.step natives a.2 = some (b.1, b.2, written)) :
      Attended natives (a, 0) (({ b.1 with point := .crashed }, b.2), 0)

/-- A run inside `process_callbacks`, from a child that is there for so many writes. -/
abbrev AttendedRun (natives : Natives F W) (p : Parent F W) (pipe : Pipe) (attended : Nat)
    (x : Host F W × Nat) : Prop :=
  Relation.ReflTransGen (Attended natives) ((p, pipe), attended) x

/-- Where the host can be inside `process_callbacks`, if the child is there for so many writes. -/
def Attending (natives : Natives F W) (s₀ : Serving F W) (attended : Nat) (x : Host F W × Nat) :
    Prop :=
  (∃ n, n + x.2 = attended ∧ InTurn natives s₀ n x.1) ∨
    x.1.1.point = .crashed ∧ Abandoned natives attended s₀

theorem InTurn.abandoned {s₀ : Serving F W} {n : Nat} {a b : Host F W} {written : Bytes}
    (h : InTurn natives s₀ n a) (hin : a.1.point.InLoop) (hwritten : written ≠ [])
    (hstep : a.1.step natives a.2 = some (b.1, b.2, written)) : Abandoned natives n s₀ := by
  obtain ⟨p', pipe'⟩ := b
  cases h with
  | reading hpoint =>
      rw [Parent.step_callbacks hpoint, Parent.afterRead_eq_some] at hstep
      obtain ⟨message, -, -, hnone⟩ := hstep
      exact absurd hnone hwritten
  | @running n before p pipe rest caller body s _ _ _ hpoint _ _ hserved _ _ _ hwrites =>
      refine ⟨before, s, hserved, ?_⟩
      have hpos : 0 < body.writes p.callbackFunctions.find pipe := by
        cases body with
        | ret value world =>
            cases value with
            | none =>
                rw [Parent.step_native_null hpoint] at hstep
                cases hstep
                exact absurd rfl hwritten
            | some value => exact Nat.one_pos
        | holed array world => exact Nat.one_pos
        | op operation world resume =>
            rw [Body.writes]
            split
            · exact Nat.succ_pos _
            · split
              · exact Nat.succ_pos _
              · exact Nat.one_pos
      omega
  | asking hpoint =>
      rw [Parent.step_isFunctionReply hpoint, Parent.afterRead_eq_some] at hstep
      obtain ⟨reply, -, -, hnone⟩ := hstep
      exact absurd hnone hwritten
  | returned hpoint => exact absurd hin (by simp [hpoint, Point.InLoop])
  | crashed hpoint => exact absurd hin (by simp [hpoint, Point.InLoop])

theorem Attending.step {s₀ : Serving F W} {attended : Nat} {x y : Host F W × Nat}
    (h : Attending natives s₀ attended x) (hstep : Attended natives x y) :
    Attending natives s₀ attended y := by
  rcases h with ⟨n, hcount, hturn⟩ | ⟨hcrashed, -⟩
  · cases hstep with
    | quiet hin hquiet => exact Or.inl ⟨n, hcount, hturn.step hin hquiet⟩
    | @taken a b left written hin hwritten htaken =>
        have hnext := hturn.step hin htaken
        rw [writesOf, if_neg hwritten] at hnext
        exact Or.inl ⟨n + 1, by simp only at hcount ⊢; omega, hnext⟩
    | killed hin hwritten hkilled =>
        obtain rfl : n = attended := hcount
        exact Or.inr ⟨rfl, hturn.abandoned hin hwritten hkilled⟩
  · have hout : ¬x.1.1.point.InLoop := by simp [hcrashed, Point.InLoop]
    cases hstep with
    | quiet hin => exact absurd hin hout
    | taken hin => exact absurd hin hout
    | killed hin => exact absurd hin hout

theorem Attending.run {s₀ : Serving F W} {attended : Nat} {x y : Host F W × Nat}
    (h : Attending natives s₀ attended x) (hrun : Relation.ReflTransGen (Attended natives) x y) :
    Attending natives s₀ attended y := by
  induction hrun with
  | refl => exact h
  | tail _ hstep ih => exact ih.step hstep

theorem attended_reaches {a b : Host F W} (h : Relation.ReflTransGen (Loop natives) a b)
    (left : Nat) :
    ∃ y, Relation.ReflTransGen (Attended natives) (a, left) y ∧
      (y.1 = b ∨ y.1.1.point = .crashed) := by
  induction h using Relation.ReflTransGen.head_induction_on generalizing left with
  | refl => exact ⟨_, .refl, Or.inl rfl⟩
  | @head a middle hstep _ ih =>
      obtain ⟨hin, written, hsolo⟩ := hstep
      by_cases hwritten : written = []
      · subst hwritten
        obtain ⟨y, hrun, hend⟩ := ih left
        exact ⟨y, .head (.quiet hin hsolo) hrun, hend⟩
      · cases left with
        | zero => exact ⟨_, .single (.killed hin hwritten hsolo), Or.inr rfl⟩
        | succ left =>
            obtain ⟨y, hrun, hend⟩ := ih left
            exact ⟨y, .head (.taken hin hwritten hsolo) hrun, hend⟩

/-! ### What survives -/

/-- One of the reads of a turn of the loop fails. -/
def Message.Unread : Message → Prop
  | .failed => True
  | .log none => True
  | _ => False

/-- What `process_callbacks` is to guarantee on a stream of a child that is there for so many writes:
it returns; it never reaches the places where `language_log` is given a bad pointer or format, where
`write_value` follows a `NULL` or where `SIGPIPE` strikes; what it calls is registered and what it
passes was decoded; and after a failed read it returns false. -/
structure Survives (natives : Natives F W) (p : Parent F W) (pipe : Pipe) (attended : Nat) : Prop
    where
  returns : ∃ after rest left caller ret expired,
    AttendedRun natives p pipe attended ((after, rest), left) ∧
      after.point = .callbacksDone caller ret expired
  alive : ∀ after rest left, AttendedRun natives p pipe attended ((after, rest), left) →
    after.point ≠ .crashed
  calls : ∀ before middle left after rest left',
    AttendedRun natives p pipe attended ((before, middle), left) →
      Attended natives ((before, middle), left) ((after, rest), left') →
        after.calls = before.calls ∨
          ∃ f args, Invoked before middle rest f args ∧ after.calls = before.calls ++ [(f, args)]
  failed : ∀ before middle left rest caller message,
    AttendedRun natives p pipe attended ((before, middle), left) →
      before.point = .callbacks caller → readMessage middle = .ok message rest → message.Unread →
        ∃ after expired, Attended natives ((before, middle), left) ((after, rest), left) ∧
          after.point = .callbacksDone caller false expired

/-- Once the loop has returned, nothing fatal was on the way and every write was taken. -/
theorem InTurn.safe_of_returned {s₀ : Serving F W} {n attended : Nat} {a : Host F W}
    (h : InTurn natives s₀ n a) (hattended : n ≤ attended) {caller : Caller} {ret expired : Bool}
    (hpoint : a.1.point = .callbacksDone caller ret expired) :
    ¬Crashes natives s₀ ∧ ¬Abandoned natives attended s₀ := by
  cases h with
  | @returned before p pipe caller' ret' expired' s hpoint' _ _ hserved hend =>
      have hlast : Terminal (Served natives) s := by
        intro next hnext
        split at hend
        · exact hnext.not_returning hend
        · exact hnext.not_failing hend
      refine ⟨fun hcrashes => ?_, fun ⟨writes, s', hserved', hmissed⟩ => ?_⟩
      · split at hend
        · exact hcrashes.not_returns ⟨s, hserved.reflTransGen, hend⟩
        · exact Fails.not_crashes ⟨s, hserved.reflTransGen, hend⟩ hcrashes
      · have hle := hserved.writes_le hlast hserved'
        omega
  | reading hpoint' => simp [hpoint'] at hpoint
  | running hpoint' => simp [hpoint'] at hpoint
  | asking hpoint' => simp [hpoint'] at hpoint
  | crashed hpoint' => simp [hpoint'] at hpoint

/-- **Surviving a stream.** In `process_callbacks` the host survives a stream that has ended exactly
if the messages it serves do not lead to a log message without a readable text or with a conversion
in its text, nor to a function that returns an array with a `NULL` in it, and the child is there for
all that the host writes to serve them. -/
theorem survives_iff {p : Parent F W} {caller : Caller} (hpoint : p.point = .callbacks caller)
    (hframes : p.frames = []) (hcall : p.inCall = true) (bytes : Bytes) (attended : Nat) :
    Survives natives p ⟨bytes, .eof⟩ attended ↔
      ¬Crashes natives (p.serving ⟨bytes, .eof⟩) ∧
        ¬Abandoned natives attended (p.serving ⟨bytes, .eof⟩) := by
  have hstart : Attending natives (p.serving ⟨bytes, .eof⟩) attended ((p, ⟨bytes, .eof⟩), attended) :=
    Or.inl ⟨0, Nat.zero_add _, .reading hpoint hframes hcall (.refl _)⟩
  have hclosed : (⟨bytes, .eof⟩ : Pipe).ending ≠ .more := Ending.noConfusion
  constructor
  · intro hsurvives
    obtain ⟨after, rest, left, caller', ret, expired, hrun, hreturn⟩ := hsurvives.returns
    rcases hstart.run hrun with ⟨n, hcount, hturn⟩ | ⟨hcrashed, -⟩
    · exact hturn.safe_of_returned (by simp only at hcount; omega) hreturn
    · simp [hreturn] at hcrashed
  · rintro ⟨hsafe, hattended⟩
    have halive : ∀ after rest left,
        AttendedRun natives p ⟨bytes, .eof⟩ attended ((after, rest), left) →
          after.point ≠ .crashed := by
      intro after rest left hrun hdead
      rcases hstart.run hrun with ⟨n, -, hturn⟩ | ⟨-, habandoned⟩
      · cases hturn with
        | crashed _ hend => exact hsafe hend
        | reading hpoint' => simp [hpoint'] at hdead
        | running hpoint' => simp [hpoint'] at hdead
        | asking hpoint' => simp [hpoint'] at hdead
        | returned hpoint' => simp [hpoint'] at hdead
      · exact hattended habandoned
    refine ⟨?_, halive, ?_, ?_⟩
    · obtain ⟨out, hloop, hout⟩ := loop_reaches natives hpoint hframes hcall hclosed
      obtain ⟨⟨⟨after, rest⟩, left⟩, hrun, rfl | hdead⟩ := attended_reaches hloop attended
      · rcases hout with ⟨caller', ret, expired, hreturn, -⟩ | hdead
        · exact ⟨after, rest, left, caller', ret, expired, hrun, hreturn⟩
        · exact absurd hdead (halive after rest left hrun)
      · exact absurd hdead (halive after rest left hrun)
    · intro before middle left after rest left' hrun hstep
      rcases hstart.run hrun with ⟨n, -, hturn⟩ | ⟨hdead, -⟩
      · cases hstep with
        | quiet hin hquiet => exact (hturn.calls hin hquiet).2
        | taken hin _ htaken => exact (hturn.calls hin htaken).2
        | killed hin _ hkilled => exact (hturn.calls hin hkilled).2
      · exact absurd hdead (halive before middle left hrun)
    · intro before middle left rest caller' message hrun hpoint' hread hunread
      have hstep : Attended natives ((before, middle), left)
          ((before.processCallbacks natives caller' message (rest.ending = .expired), rest), left) :=
        .quiet (by simp [hpoint', Point.InLoop]) ((Parent.step_callbacks hpoint').trans
          (Parent.afterRead_eq_some.mpr ⟨message, hread, rfl, rfl⟩))
      cases message with
      | failed => exact ⟨_, _, hstep, rfl⟩
      | log text =>
          cases text with
          | none => exact absurd rfl (halive _ _ _ (hrun.tail hstep))
          | some line => exact hunread.elim
      | callback name args => exact hunread.elim
      | error => exact hunread.elim
      | «return» => exact hunread.elim
      | other => exact hunread.elim

/-- A host in `process_callbacks` that has no function registered. -/
def Parent.listening (caller : Caller) (world : W) : Parent F W :=
  { start world [] with
    point := .callbacks caller
    inCall := true }

/-- Native functions that return `NULL`. -/
def nullNatives : Natives Unit Unit := ⟨fun _ => 0, fun _ _ world => .ret none world⟩

/-- A host whose functions return their arguments. -/
def echoNatives : Natives Unit Unit where
  numParams _ := 1
  call _ args world := .ret (some args) world

/-- A host that has `g` registered. -/
def Parent.withG : Parent Unit Unit :=
  { start () [] with callbackFunctions := .put .new (CString.lit "g") () (CallbackTable.free_new _) }

theorem Parent.find_withG :
    Parent.withG.callbackFunctions.find (CString.lit "g") = some () :=
  (CallbackTable.find_put () (CallbackTable.free_new _) _).trans (if_pos rfl)

/-- The child calls `g` back with 7. -/
def callbackOfG : Bytes :=
  Resp.callback.code :: (writeString (CString.lit "g") ++ writeValue (.int32 7#32))

theorem readMessage_callbackOfG (rest : Bytes) (ending : Ending) :
    readMessage (⟨callbackOfG ++ rest, ending⟩ : Pipe) =
      .ok (.callback (CString.lit "g") (.int32 7#32)) ⟨rest, ending⟩ := by
  rw [callbackOfG, List.cons_append, List.append_assoc]
  exact readMessage_writeCallback (by decide) (by decide) rest ending

theorem served_callbackOfG (rest : Bytes) (ending : Ending) :
    Served echoNatives (Parent.withG.serving ⟨callbackOfG ++ rest, ending⟩)
      (Parent.withG.serving ⟨rest, ending⟩) :=
  .callback (readMessage_callbackOfG rest ending) Parent.find_withG rfl

/-- The child calls `g` back and returns, and takes the one reply that it is sent. -/
theorem survives_iff_callback :
    Survives echoNatives { Parent.withG with point := .callbacks .compileScript, inCall := true }
      ⟨callbackOfG ++ [11], .eof⟩ 1 := by
  have hserved := served_callbackOfG [11] .eof
  have hreturning : Returning (Parent.withG.serving ⟨[11], .eof⟩) := ⟨⟨[], .eof⟩, rfl⟩
  refine (survives_iff rfl rfl rfl (callbackOfG ++ [11]) 1).mpr
    ⟨fun hcrashes => hcrashes.not_returns ⟨_, .single hserved, hreturning⟩, ?_⟩
  rintro ⟨writes, s', hserved', hmissed⟩
  have hle := ((ServedAfter.refl _).tail hserved).writes_le
    (fun _ hnext => hnext.not_returning hreturning) hserved'
  have hfirst : (Parent.withG.serving ⟨callbackOfG ++ [11], .eof⟩).writes echoNatives = 1 := by
    simp only [Serving.writes, Parent.serving, readMessage_callbackOfG, Parent.find_withG]
    rfl
  have hlast : (Parent.withG.serving ⟨[11], .eof⟩).writes echoNatives = 0 := rfl
  omega

/-- A child that dies right after the tag of a log message takes the host with it. -/
theorem not_survives_log_tag :
    ¬∃ attended, Survives nullNatives (Parent.listening .compileScript ()) ⟨[13], .eof⟩ attended := by
  rintro ⟨attended, h⟩
  have hstep : Attended nullNatives ((Parent.listening .compileScript (), ⟨[13], .eof⟩), attended)
      (({ Parent.listening .compileScript () with point := .crashed }, ⟨[], .eof⟩), attended) :=
    .quiet trivial ((Parent.step_callbacks rfl).trans
      (Parent.afterRead_eq_some.mpr ⟨.log none, rfl, rfl, rfl⟩))
  exact h.alive _ _ _ (.single hstep) rfl

end CageKeeper
