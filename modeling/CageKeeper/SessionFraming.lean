import CageKeeper.SessionCallbacks

/-! Control bytes. In a session in order the parent reads a byte as a message tag or as an answer
only where the child has written a tag or an answer. Every value that `call_function` returns to
the host is then the one the guest's function returned for that call, and every answer of
`is_function` the one to the question that was asked. A value that the parent's reader rejects
stays in the pipe in part, and a log line where an answer is expected is taken for the answer. -/

namespace CageKeeper
open ByteStream

variable {F W G : Type} {natives : Natives F W} {interp : Interp G}

/-- The role of the bytes that the parent reads next as control bytes. -/
def Point.reads : Point F W → Option Role
  | .callbacks _ => some .tag
  | .compileReply => some .reply
  | .isFunctionReply _ => some .reply
  | _ => none

/-- The values `call_function` has returned to the host. -/
def Parent.called (p : Parent F W) : List (Option Value) := p.results.filterMap Result.called

/-- No data of the guest has been taken for a control byte. -/
structure InRole (s : Session F W G) : Prop where
  /-- The next control byte was written as one. -/
  control : ∀ role ∈ s.left.point.reads, ∀ m ∈ s.toLeft.head?, m.2 = role
  /-- A value returned by a call is what the guest's function returned for that call. -/
  results : ∀ (k : Nat) (value : Value), s.left.called[k]? = some (some value) →
    s.right.values[k]? = some (some value)

theorem head?_sandboxLog (line : CString) (marks : List Mark) :
    (sandboxLog line ++ marks).head? = some (Resp.log.code, .tag) := rfl

theorem head?_proxyFunctionCall (name : CString) (args : Value) :
    (proxyFunctionCall name args).head? = some (Resp.callback.code, .tag) := rfl

theorem head?_written (reply : Reply) : reply.written.head? = some (reply.tag.code, .tag) := rfl

theorem Partner.head_tag {caller : Caller} {c : Child G} {toRight : Bytes} {tail : List Mark}
    {flight : Flight} (h : Partner natives caller c toRight tail flight) (lines : List CString) :
    ∀ m ∈ (lines.flatMap sandboxLog ++ tail).head?, m.2 = Role.tag := by
  intro m hm
  cases lines with
  | cons line lines =>
      rw [List.flatMap_cons, List.append_assoc, head?_sandboxLog] at hm
      cases hm
      rfl
  | nil =>
      rw [List.flatMap_nil, List.nil_append] at hm
      cases h with
      | entering => cases hm
      | answered => cases hm
      | calling =>
          rw [head?_proxyFunctionCall] at hm
          cases hm
          rfl
      | finished =>
          rw [head?_written] at hm
          cases hm
          rfl

/-- **Control bytes.** In a session in order no data of the guest is taken for a control byte. -/
theorem inRole_of_orderly {world : W} {program : List (Op F)} {state : G} {s : Session F W G}
    (h : Session.Orderly natives interp world program state s) : InRole s := by
  obtain ⟨flight, htalk, hbooks⟩ := h.invariant
  constructor
  · intro role hrole m hm
    cases htalk with
    | outside hpoint => simp [hpoint, Point.reads] at hrole
    | asking => cases hm
    | told hpoint =>
        cases hm
        simpa [hpoint, Point.reads] using hrole
    | serving hpoint hframes hpartner =>
        obtain rfl : Role.tag = role := by simpa [hpoint, Point.reads] using hrole
        exact hpartner.head_tag _ m hm
    | native => cases hm
    | returned hpoint => simp [hpoint, Point.reads] at hrole
    | compiled hpoint =>
        cases hm
        simpa [hpoint, Point.reads] using hrole
    | called hpoint => simp [hpoint, Point.reads] at hrole
  · intro k value hvalue
    have hgiven : s.right.values = s.left.called ++ flight.values := hbooks.values
    have hlength : k < s.left.called.length := (List.getElem?_eq_some_iff.mp hvalue).1
    rw [hgiven, List.getElem?_append_left hlength, hvalue]

theorem inRole_echo :
    ∃ s, Session.Orderly echoNatives echoInterp () echoProgram () s ∧
      s.left.called = [some (.int32 7#32)] ∧ InRole s := by
  obtain ⟨s, horderly, hcalled⟩ := Session.exists_orderly echoNatives echoInterp () echoProgram ()
    echoTurns (fun s => s.left.called = [some (.int32 7#32)]) (by decide +kernel)
  exact ⟨s, horderly, hcalled, inRole_of_orderly horderly⟩

/-- A guest whose functions return a string of 4096 characters. -/
def longInterp : Interp Unit :=
  { echoInterp with
    callFunction _ _ _ :=
      .done (some (.string (CString.ofBytes (List.replicate 4096 97))), ()) }

/-- The result of a first call is rejected, and a second call reads the string as message tags. -/
theorem not_inRole_longString :
    ¬∀ s, Relation.ReflTransGen (Session.Step echoNatives longInterp)
        (.start () [.callFunction (CString.lit "f") .void, .callFunction (CString.lit "f") .void] ())
        s → InRole s := by
  intro h
  obtain ⟨s, hs, hreads, hhead⟩ := Session.exists_of_play echoNatives longInterp
    (.start () [.callFunction (CString.lit "f") .void, .callFunction (CString.lit "f") .void] ())
    [.parent, .child, .parent, .parent, .parent, .parent]
    (fun s => s.left.point.reads = some .tag ∧ s.toLeft.head? = some (97, .payload))
    (by decide +kernel)
  have hrole := (h s (Session.steps_of_run hs)).control .tag hreads _ hhead
  cases hrole

/-! ### Questions -/

/-- Where `is_function_proxy` has returned true, the interpreter has said so for that request. -/
def AnsweredAsAsked (s : Session F W G) : Prop :=
  ∀ (k : Nat) (name : CString), s.left.answers[k]? = some (name, true) →
    s.right.answers[k]? = some (some name, true)

/-- **Questions.** In a session in order `is_function` answers the question that was asked. -/
theorem answeredAsAsked_of_orderly {world : W} {program : List (Op F)} {state : G}
    {s : Session F W G} (h : Session.Orderly natives interp world program state s) :
    AnsweredAsAsked s := by
  obtain ⟨flight, -, hbooks⟩ := h.invariant
  intro k name hanswer
  have htold : s.right.answers =
      (s.left.answers ++ flight.answers).map fun answer => (some answer.1, answer.2) :=
    hbooks.answers
  have hlength : k < s.left.answers.length := (List.getElem?_eq_some_iff.mp hanswer).1
  rw [htold, List.getElem?_map, List.getElem?_append_left hlength, hanswer, Option.map_some]

theorem answeredAsAsked_echo :
    ∃ s, Session.Orderly echoNatives echoInterp () echoProgram () s ∧
      s.left.answers = [(CString.lit "f", true)] ∧ AnsweredAsAsked s := by
  obtain ⟨s, horderly, hanswers⟩ := Session.exists_orderly echoNatives echoInterp () echoProgram ()
    echoTurns (fun s => s.left.answers = [(CString.lit "f", true)]) (by decide +kernel)
  exact ⟨s, horderly, hanswers, answeredAsAsked_of_orderly horderly⟩

/-- A guest that logs a line when a constant is defined and has no functions. -/
def chattyInterp : Interp Unit :=
  { echoInterp with
    defineConstant _ _ _ := .log (CString.lit "hi") (.done ())
    isFunction _ _ := .done (false, ()) }

/-- The tag of the log line is read as the answer. -/
theorem not_answeredAsAsked_log :
    ¬∀ s, Relation.ReflTransGen (Session.Step echoNatives chattyInterp)
        (.start () [.defineConstant (CString.lit "c") .void, .isFunction (CString.lit "f")] ()) s →
      AnsweredAsAsked s := by
  intro h
  obtain ⟨s, hs, hanswer, htold⟩ := Session.exists_of_play echoNatives chattyInterp
    (.start () [.defineConstant (CString.lit "c") .void, .isFunction (CString.lit "f")] ())
    [.parent, .parent, .child, .child, .parent]
    (fun s => s.left.answers[0]? = some (CString.lit "f", true) ∧
      s.right.answers[0]? = some (some (CString.lit "f"), false)) (by decide +kernel)
  have hsame := (h s (Session.steps_of_run hs) 0 _ hanswer).symm.trans htold
  simp at hsame

end CageKeeper
