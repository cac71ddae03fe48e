import CageKeeper.ProxySteps
import CageKeeper.ProxyServing

/-! The process and the stream it serves. While `process_callbacks` runs, the process stands either
before a message, with everything before it served, or in a native function whose remaining
execution is the rest of the one that the last callback started. On a finished stream the loop
always comes to its end. -/

namespace CageKeeper
open ByteStream

variable {F W : Type} {natives : Natives F W}

/-- The process alone with the rest of its stream. -/
abbrev Host (F W : Type) := Parent F W × Pipe

/-- A step of the process, whatever it writes. -/
def Solo (natives : Natives F W) (a b : Host F W) : Prop :=
  ∃ written, a.1.step natives a.2 = some (b.1, b.2, written)

theorem solo_deterministic : Deterministic (Solo natives) := by
  rintro a ⟨p, pipe⟩ ⟨p', pipe'⟩ ⟨written, hb⟩ ⟨written', hc⟩
  rw [hb] at hc
  cases hc
  rfl

/-- The places inside `process_callbacks`, the native functions it calls included. -/
def Point.InLoop : Point F W → Prop
  | .callbacks _ => True
  | .native _ _ => True
  | .isFunctionReply _ => True
  | _ => False

/-- A step inside `process_callbacks`. -/
def Loop (natives : Natives F W) (a b : Host F W) : Prop := a.1.point.InLoop ∧ Solo natives a b

/-- What the stream still has for the process. -/
def Parent.serving (p : Parent F W) (pipe : Pipe) : Serving F W :=
  ⟨p.callbackFunctions.find, p.world, pipe⟩

namespace Parent

/-- Inside a callback an operation is back at once, and all it changes are the registered functions
and the record of what the process has done. -/
structure Resumes (p next : Parent F W) (frame : Frame F W) (operation : Op F) (result : Result) :
    Prop where
  point : next.point = .native frame.caller (frame.resume result p.world)
  frames : p.frames = frame :: next.frames
  inCall : next.inCall = p.inCall
  find : next.callbackFunctions.find = operation.define p.callbackFunctions.find
  world : next.world = p.world
  program : next.program = p.program
  calls : next.calls = p.calls
  replies : next.replies = p.replies

theorem resumes_finish {p : Parent F W} {frame : Frame F W} {frames : List (Frame F W)}
    (hframes : p.frames = frame :: frames) {operation : Op F} {result : Result}
    (hdefine : operation.define p.callbackFunctions.find = p.callbackFunctions.find) :
    p.Resumes (p.finish result) frame operation result := by
  constructor <;> simp [finish, hframes, hdefine]

theorem resumes_report {p : Parent F W} {frame : Frame F W} {frames : List (Frame F W)}
    (hframes : p.frames = frame :: frames) {operation : Op F} {result : Result} {origin : Origin}
    {line : Option CString} (hline : line.isSome)
    (hdefine : operation.define p.callbackFunctions.find = p.callbackFunctions.find) :
    p.Resumes (p.report origin line (finish · result)) frame operation result := by
  obtain ⟨line, rfl⟩ := Option.isSome_iff_exists.mp hline
  constructor <;> simp [report, finish, hframes, hdefine]

theorem invoke_resumes (natives : Natives F W) {p : Parent F W} (hcall : p.inCall = true)
    {frame : Frame F W} {frames : List (Frame F W)} (hframes : p.frames = frame :: frames)
    {operation : Op F} {result : Result} (honce : operation.atOnce = some result) :
    p.Resumes (invoke natives p operation).1 frame operation result := by
  cases operation with
  | defineConstant name value =>
      cases honce
      exact resumes_finish hframes rfl
  | defineFunction name f =>
      cases honce
      simp only [invoke, defineFunctionProxy]
      split
      · rename_i hfind
        simp only [CallbackTable.contains_eq] at hfind
        have hdefine : (Op.defineFunction name f).define p.callbackFunctions.find =
            p.callbackFunctions.find := by
          rw [Op.define, if_pos hfind]
        have hvisit : (p.callbackFunctions.visit name).find = p.callbackFunctions.find :=
          funext fun other => CallbackTable.find_visit _ _ _
        obtain ⟨line, hline⟩ := Option.isSome_iff_exists.mp (alreadyDefined_isSome name)
        constructor <;> simp [report, finish, hframes, hline, hdefine, hvisit]
      · rename_i hfind
        simp only [CallbackTable.contains_eq] at hfind
        constructor <;> try simp [finish, hframes]
        funext other
        rw [CallbackTable.find_put, CallbackTable.find_visit, Op.define, if_neg hfind,
          Function.update_apply]
  | compileScript script =>
      cases honce
      simp only [invoke, compileScriptProxy, hcall, if_true]
      exact resumes_report hframes compileRefusal_isSome rfl
  | isFunction name => cases honce
  | callFunction name args =>
      cases honce
      simp only [invoke, callFunctionProxy, hcall, if_true]
      exact resumes_report hframes callRefusal_isSome rfl

theorem resumes_isFunctionReturn {p : Parent F W} {frame : Frame F W} {frames : List (Frame F W)}
    (hframes : p.frames = frame :: frames) (asked : CString) (reply : Option UInt8) :
    p.Resumes (p.isFunctionReturn asked reply) frame (.isFunction asked)
      (.bool (reply.any (· ≠ 0))) := by
  constructor <;> simp [isFunctionReturn, finish, hframes, Op.define]

end Parent

/-! ### The loop's invariant -/

/-- Where the process can be inside `process_callbacks`, entered with the stream `s₀` before it, after
so many writes to the child. -/
inductive InTurn (natives : Natives F W) (s₀ : Serving F W) : Nat → Host F W → Prop where
  /-- Before a message; the ones before it were served. -/
  | reading {n : Nat} {p : Parent F W} {pipe : Pipe} {caller : Caller}
      (hpoint : p.point = .callbacks caller) (hframes : p.frames = []) (hcall : p.inCall = true)
      (hserved : ServedAfter natives n s₀ (p.serving pipe)) : InTurn natives s₀ n (p, pipe)
  /-- In a native function, whose execution so far has changed nothing about how it ends. -/
  | running {n before : Nat} {p : Parent F W} {pipe rest : Pipe} {caller : Caller}
      {body : Body F W} {s : Serving F W} {name : CString} {args : Value} {f : F}
      (hpoint : p.point = .native caller body) (hframes : p.frames = []) (hcall : p.inCall = true)
      (hserved : ServedAfter natives before s₀ s)
      (hread : readMessage s.pipe = .ok (.callback name args) rest) (hfind : s.find name = some f)
      (hrun : (natives.call f args s.world).run s.find rest =
        body.run p.callbackFunctions.find pipe)
      (hwrites : before + s.writes natives = n + body.writes p.callbackFunctions.find pipe) :
      InTurn natives s₀ n (p, pipe)
  /-- In an `is_function` of a native function. -/
  | asking {n before : Nat} {p : Parent F W} {pipe rest : Pipe} {caller : Caller}
      {asked : CString} {resume : Result → W → Body F W} {s : Serving F W} {name : CString}
      {args : Value} {f : F} (hpoint : p.point = .isFunctionReply asked)
      (hframes : p.frames = [⟨caller, resume⟩]) (hcall : p.inCall = true)
      (hserved : ServedAfter natives before s₀ s)
      (hread : readMessage s.pipe = .ok (.callback name args) rest) (hfind : s.find name = some f)
      (hrun : (natives.call f args s.world).run s.find rest =
        (Body.op (.isFunction asked) p.world resume).run p.callbackFunctions.find pipe)
      (hwrites : before + s.writes natives + 1 =
        n + (Body.op (.isFunction asked) p.world resume).writes p.callbackFunctions.find pipe) :
      InTurn natives s₀ n (p, pipe)
  /-- The loop is over. -/
  | returned {before : Nat} {p : Parent F W} {pipe : Pipe} {caller : Caller} {ret expired : Bool}
      {s : Serving F W} (hpoint : p.point = .callbacksDone caller ret expired)
      (hframes : p.frames = []) (hcall : p.inCall = true)
      (hserved : ServedAfter natives before s₀ s)
      (hend : if ret then Returning s else Failing natives s) :
      InTurn natives s₀ (before + s.writes natives) (p, pipe)
  /-- The process has died. -/
  | crashed {n : Nat} {p : Parent F W} {pipe : Pipe} (hpoint : p.point = .crashed)
      (hend : Crashes natives s₀) : InTurn natives s₀ n (p, pipe)

/-- What a step adds to the number of writes. -/
def writesOf (written : Bytes) : Nat := if written = [] then 0 else 1

/-- A turn's reads are over: the message is served, ends the loop, or starts a native function. -/
theorem InTurn.of_message {s₀ : Serving F W} {n : Nat} {p : Parent F W} {pipe rest : Pipe}
    {caller : Caller} (hpoint : p.point = .callbacks caller) (hframes : p.frames = [])
    (hcall : p.inCall = true) (hserved : ServedAfter natives n s₀ (p.serving pipe))
    {message : Message} (hread : readMessage pipe = .ok message rest) (expired : Bool) :
    InTurn natives s₀ n (p.processCallbacks natives caller message expired, rest) := by
  -- only a callback of a registered function makes the host write
  have hquiet : (∀ name args, message ≠ .callback name args) ∨
      (∃ name args, message = .callback name args ∧ p.callbackFunctions.find name = none) →
        (p.serving pipe).writes natives = 0 := by
    rintro (hother | ⟨name, args, rfl, hfind⟩)
    · cases message with
      | callback name args => exact absurd rfl (hother name args)
      | _ => simp [Serving.writes, Parent.serving, hread]
    · simp [Serving.writes, Parent.serving, hread, hfind]
  have hdone : ∀ {q : Parent F W} {caller : Caller} {ret : Bool},
      q.point = .callbacksDone caller ret expired → q.frames = [] → q.inCall = true →
        (p.serving pipe).writes natives = 0 →
          (if ret then Returning (p.serving pipe) else Failing natives (p.serving pipe)) →
            InTurn natives s₀ n (q, rest) := by
    intro q caller ret hpoint hframes hcall hnone hend
    have hreturned : InTurn natives s₀ (n + (p.serving pipe).writes natives) (q, rest) :=
      .returned hpoint hframes hcall hserved hend
    rwa [hnone] at hreturned
  have hnext : ∀ {q : Parent F W}, q.point = .callbacks caller → q.frames = [] →
      q.inCall = true → (p.serving pipe).writes natives = 0 →
        Served natives (p.serving pipe) (q.serving rest) → InTurn natives s₀ n (q, rest) := by
    intro q hpoint hframes hcall hnone hserve
    have hserved' := hserved.tail hserve
    rw [hnone] at hserved'
    exact .reading hpoint hframes hcall hserved'
  cases message with
  | failed => exact hdone rfl hframes hcall (hquiet (Or.inl (by rintro _ _ ⟨⟩))) (.unread hread)
  | callback name args =>
      simp only [Parent.processCallbacks, CallbackTable.lookup_eq]
      cases hfind : p.callbackFunctions.find name with
      | none =>
          obtain ⟨line, hline⟩ := Option.isSome_iff_exists.mp unknownCallback_isSome
          simp only [Parent.report, hline]
          exact hdone rfl hframes hcall (hquiet (Or.inr ⟨name, args, rfl, hfind⟩))
            (.unknown hread hfind)
      | some f =>
          have hvisit : (p.callbackFunctions.visit name).find = p.callbackFunctions.find :=
            funext fun other => CallbackTable.find_visit _ _ _
          refine .running rfl hframes hcall hserved hread hfind ?_ ?_
          · simp only [hvisit, Parent.serving]
          · simp only [Serving.writes, Parent.serving, hread, hfind, hvisit]
  | log text =>
      cases text with
      | none => exact .crashed rfl ⟨_, hserved.reflTransGen, .unreadable hread⟩
      | some text =>
          simp only [Parent.processCallbacks]
          cases hline : languageLog text [] with
          | none => exact .crashed rfl ⟨_, hserved.reflTransGen, .conversion hread hline⟩
          | some line =>
              exact hnext hpoint hframes hcall (hquiet (Or.inl (by rintro _ _ ⟨⟩))) (.log hread hline)
  | error => exact hdone rfl hframes hcall (hquiet (Or.inl (by rintro _ _ ⟨⟩))) (.error hread)
  | «return» => exact hdone rfl hframes hcall (hquiet (Or.inl (by rintro _ _ ⟨⟩))) ⟨rest, hread⟩
  | other => exact hnext hpoint hframes hcall (hquiet (Or.inl (by rintro _ _ ⟨⟩))) (.other hread)

/-- **The loop's invariant.** Every step inside `process_callbacks` keeps it. -/
theorem InTurn.step {s₀ : Serving F W} {n : Nat} {a b : Host F W} {written : Bytes}
    (h : InTurn natives s₀ n a) (hin : a.1.point.InLoop)
    (hstep : a.1.step natives a.2 = some (b.1, b.2, written)) :
    InTurn natives s₀ (n + writesOf written) b := by
  obtain ⟨p', pipe'⟩ := b
  cases h with
  | reading hpoint hframes hcall hserved =>
      dsimp only at hstep
      rw [Parent.step_callbacks hpoint, Parent.afterRead_eq_some] at hstep
      obtain ⟨message, hread, rfl, rfl⟩ := hstep
      exact .of_message hpoint hframes hcall hserved hread _
  | @running n before p pipe rest caller body s name args f hpoint hframes hcall hserved hread
      hfind hrun hwrites =>
      cases body with
      | ret value world =>
          cases value with
          | none =>
              rw [Parent.step_native_null hpoint] at hstep
              cases hstep
              have hreturned : InTurn natives s₀ (before + s.writes natives)
                  ({ p with
                    point := .callbacksDone caller false (pipe'.ending = .expired)
                    world := world }, pipe') :=
                .returned rfl hframes hcall hserved (.null hread hfind hrun)
              rwa [hwrites] at hreturned
          | some value =>
              rw [Parent.step_native_value hpoint] at hstep
              cases hstep
              have hserved' := hserved.tail (.callback hread hfind hrun)
              rw [hwrites] at hserved'
              rw [writesOf, if_neg (writeValue_ne_nil value)]
              exact .reading rfl hframes hcall hserved'
      | holed array world =>
          rw [Parent.step_native_holed hpoint] at hstep
          cases hstep
          exact .crashed rfl ⟨_, hserved.reflTransGen, .holed hread hfind hrun⟩
      | op operation world resume =>
          rw [Parent.step_native_op hpoint] at hstep
          have hcommand := Parent.invoke_written_ne_nil natives
            { p with world := world, frames := ⟨caller, resume⟩ :: p.frames } operation
          cases honce : operation.atOnce with
          | some result =>
              cases hstep
              have hresumes := Parent.invoke_resumes natives
                (p := { p with world := world, frames := ⟨caller, resume⟩ :: p.frames })
                hcall rfl honce
              rw [writesOf, if_neg hcommand]
              refine .running hresumes.point ?_ (hresumes.inCall.trans hcall) hserved hread hfind
                ?_ ?_
              · exact (List.cons.inj hresumes.frames).2.symm.trans hframes
              · rw [hrun, Body.run, honce, hresumes.find]
              · rw [hwrites, Body.writes, honce, hresumes.find]
                simp only
                omega
          | none =>
              cases operation with
              | isFunction asked =>
                  cases hstep
                  rw [writesOf, if_neg hcommand]
                  exact .asking rfl (by rw [hframes]) hcall hserved hread hfind hrun
                    (by rw [hwrites, Nat.add_right_comm])
              | _ => cases honce
  | @asking n before p pipe rest caller asked resume s name args f hpoint hframes hcall hserved
      hread hfind hrun hwrites =>
      dsimp only at hstep
      rw [Parent.step_isFunctionReply hpoint, Parent.afterRead_eq_some] at hstep
      obtain ⟨reply, hreply, rfl, rfl⟩ := hstep
      have hreturn : p.Resumes (p.isFunctionReturn asked reply) ⟨caller, resume⟩
          (.isFunction asked) (.bool (reply.any (· ≠ 0))) :=
        Parent.resumes_isFunctionReturn hframes asked reply
      refine .running hreturn.point ?_ (hreturn.inCall.trans hcall) hserved hread hfind ?_ ?_
      · exact (List.cons.inj (hframes.symm.trans hreturn.frames)).2.symm
      · rw [hrun, Body.run, hreturn.find]
        simp only [Op.atOnce, hreply, Op.define]
      · rw [Body.writes] at hwrites
        simp only [Op.atOnce, hreply] at hwrites
        rw [hreturn.find]
        simp only [Op.define, writesOf, if_true]
        omega
  | returned hpoint => exact absurd hin (by simp [hpoint, Point.InLoop])
  | crashed hpoint => exact absurd hin (by simp [hpoint, Point.InLoop])

/-! ### The loop ends -/

/-- The process is back before a message, with no more of the stream than before. -/
def BackInLoop (pipe : Pipe) (a : Host F W) : Prop :=
  (∃ caller, a.1.point = .callbacks caller) ∧ a.1.frames = [] ∧ a.1.inCall = true ∧
    a.2.bytes.length ≤ pipe.bytes.length ∧ a.2.ending ≠ .more

/-- The loop has returned, or the process has died in it. -/
def OutOfLoop (a : Host F W) : Prop :=
  (∃ caller ret expired, a.1.point = .callbacksDone caller ret expired ∧ a.2.ending ≠ .more) ∨
    a.1.point = .crashed

theorem native_reaches (natives : Natives F W) (body : Body F W) {p : Parent F W} {pipe : Pipe}
    {caller : Caller} (hpoint : p.point = .native caller body) (hframes : p.frames = [])
    (hcall : p.inCall = true)
    (hclosed : pipe.ending ≠ .more) :
    ∃ a, Relation.ReflTransGen (Loop natives) (p, pipe) a ∧ (BackInLoop pipe a ∨ OutOfLoop a) := by
  have hin : p.point.InLoop := by simp [hpoint, Point.InLoop]
  induction body generalizing p pipe with
  | ret value world =>
      cases value with
      | none =>
          have hstep : Loop natives (p, pipe) (_, pipe) := ⟨hin, _, Parent.step_native_null hpoint⟩
          exact ⟨_, .single hstep, Or.inr (Or.inl ⟨_, _, _, rfl, hclosed⟩)⟩
      | some value =>
          have hstep : Loop natives (p, pipe) (_, pipe) := ⟨hin, _, Parent.step_native_value hpoint⟩
          exact ⟨_, .single hstep, Or.inl ⟨⟨_, rfl⟩, hframes, hcall, Nat.le_refl _, hclosed⟩⟩
  | holed array world =>
      have hstep : Loop natives (p, pipe) (_, pipe) := ⟨hin, _, Parent.step_native_holed hpoint⟩
      exact ⟨_, .single hstep, Or.inr (Or.inr rfl)⟩
  | op operation world resume ih =>
      have hstep : Loop natives (p, pipe) (_, pipe) := ⟨hin, _, Parent.step_native_op hpoint⟩
      cases honce : operation.atOnce with
      | some result =>
          have hresumes := Parent.invoke_resumes natives
            (p := { p with world := world, frames := ⟨caller, resume⟩ :: p.frames })
            hcall rfl honce
          obtain ⟨a, hrun, hend⟩ := ih result world hresumes.point
            ((List.cons.inj hresumes.frames).2.symm.trans hframes) (hresumes.inCall.trans hcall)
            hclosed (by simp [hresumes.point, Point.InLoop])
          exact ⟨a, .head hstep hrun, hend⟩
      | none =>
          cases operation with
          | isFunction asked =>
              obtain ⟨reply, rest, hreply, hlength, hrest⟩ :=
                readByte_attempt_answers.ok_of_closed readByte_lawful.attempt hclosed
              -- the operation waits for its answer, and the finished pipe gives one
              have hread : Loop natives
                  (({ p with
                    world := world
                    frames := ⟨caller, resume⟩ :: p.frames
                    point := .isFunctionReply asked } : Parent F W), pipe) (_, rest) :=
                ⟨trivial, [], (Parent.step_isFunctionReply rfl).trans
                  (Parent.afterRead_eq_some.mpr ⟨reply, hreply, rfl, rfl⟩)⟩
              have hresumes := Parent.resumes_isFunctionReturn
                (p := { p with
                  world := world
                  frames := ⟨caller, resume⟩ :: p.frames
                  point := .isFunctionReply asked }) rfl asked reply
              obtain ⟨a, hrun, hend⟩ := ih _ world hresumes.point
                ((List.cons.inj hresumes.frames).2.symm.trans hframes)
                (hresumes.inCall.trans hcall) hrest (by simp [hresumes.point, Point.InLoop])
              refine ⟨a, .head hstep (.head hread hrun), ?_⟩
              rcases hend with ⟨hback, hf, hc, hle, hr⟩ | hout
              · exact Or.inl ⟨hback, hf, hc, Nat.le_trans hle hlength, hr⟩
              · exact Or.inr hout
          | _ => cases honce

theorem turn_reaches (natives : Natives F W) {p : Parent F W} {pipe rest : Pipe} {caller : Caller}
    (hpoint : p.point = .callbacks caller) (hframes : p.frames = []) (hcall : p.inCall = true)
    (hrest : rest.ending ≠ .more) {message : Message} (hread : readMessage pipe = .ok message rest) :
    ∃ a, Relation.ReflTransGen (Loop natives) (p, pipe) a ∧
      ((BackInLoop rest a ∧ message ≠ .failed) ∨ OutOfLoop a) := by
  have hstep : Loop natives (p, pipe)
      (p.processCallbacks natives caller message (rest.ending = .expired), rest) :=
    ⟨by simp [hpoint, Point.InLoop], [], (Parent.step_callbacks hpoint).trans
      (Parent.afterRead_eq_some.mpr ⟨message, hread, rfl, rfl⟩)⟩
  have hback : ∀ next : Parent F W, next.point = .callbacks caller → next.frames = [] →
      next.inCall = true → BackInLoop rest (next, rest) :=
    fun next hpoint hframes hcall => ⟨⟨caller, hpoint⟩, hframes, hcall, Nat.le_refl _, hrest⟩
  cases message with
  | failed => exact ⟨_, .single hstep, Or.inr (Or.inl ⟨_, _, _, rfl, hrest⟩)⟩
  | callback name args =>
      simp only [Parent.processCallbacks, CallbackTable.lookup_eq] at hstep
      cases hfind : p.callbackFunctions.find name with
      | none =>
          obtain ⟨line, hline⟩ := Option.isSome_iff_exists.mp unknownCallback_isSome
          simp only [hfind, Parent.report, hline] at hstep
          exact ⟨_, .single hstep, Or.inr (Or.inl ⟨_, _, _, rfl, hrest⟩)⟩
      | some f =>
          simp only [hfind] at hstep
          obtain ⟨a, hrun, hend⟩ := native_reaches natives (natives.call f args p.world)
            (p := { p with
              callbackFunctions := p.callbackFunctions.visit name
              point := .native caller (natives.call f args p.world)
              calls := p.calls ++ [(f, args)] }) rfl hframes hcall hrest
          exact ⟨a, .head hstep hrun, hend.imp_left fun h => ⟨h, by simp⟩⟩
  | log text =>
      cases text with
      | none => exact ⟨_, .single hstep, Or.inr (Or.inr rfl)⟩
      | some text =>
          simp only [Parent.processCallbacks, Parent.report] at hstep
          cases hline : languageLog text [] with
          | none =>
              simp only [hline] at hstep
              exact ⟨_, .single hstep, Or.inr (Or.inr rfl)⟩
          | some line =>
              simp only [hline] at hstep
              exact ⟨_, .single hstep, Or.inl ⟨hback _ hpoint hframes hcall, by simp⟩⟩
  | error => exact ⟨_, .single hstep, Or.inr (Or.inl ⟨_, _, _, rfl, hrest⟩)⟩
  | «return» => exact ⟨_, .single hstep, Or.inr (Or.inl ⟨_, _, _, rfl, hrest⟩)⟩
  | other => exact ⟨_, .single hstep, Or.inl ⟨hback _ hpoint hframes hcall, by simp⟩⟩

/-- **The loop ends.** On a finished stream `process_callbacks` returns, or the process dies. -/
theorem loop_reaches (natives : Natives F W) {p : Parent F W} {pipe : Pipe} {caller : Caller}
    (hpoint : p.point = .callbacks caller) (hframes : p.frames = []) (hcall : p.inCall = true)
    (hclosed : pipe.ending ≠ .more) :
    ∃ a, Relation.ReflTransGen (Loop natives) (p, pipe) a ∧ OutOfLoop a := by
  induction hlength : pipe.bytes.length using Nat.strong_induction_on
    generalizing p pipe caller with
  | h length ih =>
      obtain ⟨message, rest, hread, -, hrest⟩ :=
        readMessage_answers.ok_of_closed readMessage_lawful hclosed
      obtain ⟨⟨next, pipe'⟩, hrun, ⟨hback, hmessage⟩ | hout⟩ :=
        turn_reaches natives hpoint hframes hcall hrest hread
      · obtain ⟨⟨caller', hpoint'⟩, hframes', hcall', hle, hclosed'⟩ := hback
        have hlt := readMessage_length hmessage hread
        obtain ⟨a, hrest, hout⟩ := ih pipe'.bytes.length (by dsimp only at hle; omega) hpoint'
          hframes' hcall' hclosed' rfl
        exact ⟨a, hrun.trans hrest, hout⟩
      · exact ⟨_, hrun, hout⟩

end CageKeeper
