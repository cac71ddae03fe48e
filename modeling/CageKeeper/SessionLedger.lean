import CageKeeper.SessionSteps

/-! The books of a session. Six things flow between the two processes: log lines, callbacks, runs
of native functions, their values, the answers of `is_function` and the results of
`call_function`. The books balance if in each flow what one side has put in is what the other side
has taken out, in the same order, followed by what is on its way. -/

namespace CageKeeper
open ByteStream

variable {F W G : Type}

/-- What the two processes have done, as they record it. -/
structure Ledger (F : Type) where
  /-- Lines received by the log hook. -/
  lines : List (Origin × CString)
  /-- Native functions called. -/
  calls : List (F × Value)
  /-- Values written to the child. -/
  replies : List Value
  /-- What `is_function_proxy` has returned. -/
  answers : List (CString × Bool)
  /-- What the operations have returned. -/
  results : List Result
  /-- Lines the child has logged. -/
  logged : List CString
  /-- Callbacks the child has sent. -/
  sent : List (CString × Value)
  /-- Answers the child has read. -/
  received : List (Option Value)
  /-- What `is_function` of the interpreter has returned. -/
  told : List (Option CString × Bool)
  /-- What `call_function` of the interpreter has returned. -/
  given : List (Option Value)

def ledger (p : Parent F W) (c : Child G) : Ledger F where
  lines := p.lines
  calls := p.calls
  replies := p.replies
  answers := p.answers
  results := p.results
  logged := c.logged
  sent := c.sent
  received := c.received
  told := c.answers
  given := c.values

structure Flight where
  lines : List CString := []
  callbacks : List (CString × Value) := []
  /-- The native functions that have not returned. -/
  running : Nat := 0
  replies : List Value := []
  answers : List (CString × Bool) := []
  values : List (Option Value) := []

/-- The lines of the child among those the hook has received. -/
def heard (lines : List (Origin × CString)) : List CString :=
  (lines.filter fun line => decide (line.1 = .child)).map Prod.snd

/-- The value that `call_function` returned. -/
def Result.called : Result → Option (Option Value)
  | .value v => some v
  | _ => none

/-- Nothing is lost, made up or reordered. -/
structure Ledger.Balanced (l : Ledger F) (flight : Flight) : Prop where
  lines : ∃ delivered, l.logged = delivered ++ flight.lines ∧
    (heard l.lines).map some = delivered.map (languageLog · [])
  callbacks : l.sent.map Prod.snd = l.calls.map Prod.snd ++ flight.callbacks.map Prod.snd
  running : l.calls.length = l.replies.length + flight.running
  replies : l.replies.map some = l.received ++ flight.replies.map some
  answers : l.told = (l.answers ++ flight.answers).map fun answer => (some answer.1, answer.2)
  values : l.given = l.results.filterMap Result.called ++ flight.values
  logLines : ∀ line ∈ l.logged, IsLogLine line
  deliverable : ∀ line ∈ flight.lines, (languageLog line []).isSome

namespace Ledger.Balanced

variable {l : Ledger F} {flight : Flight}

theorem start (world : W) (program : List (Op F)) (state : G) :
    (ledger (Parent.start world program) (Child.start state)).Balanced {} := by
  constructor <;> simp [ledger, heard, Parent.start, Child.start]

theorem log (h : l.Balanced flight) {lines : List CString}
    (hlines : ∀ line ∈ lines, IsLogLine line)
    (hsome : ∀ line ∈ lines, (languageLog line []).isSome) :
    { l with logged := l.logged ++ lines }.Balanced
      { flight with lines := flight.lines ++ lines } := by
  obtain ⟨delivered, hlogged, hheard⟩ := h.lines
  refine ⟨⟨delivered, ?_, hheard⟩, h.callbacks, h.running, h.replies, h.answers, h.values, ?_, ?_⟩
  · rw [hlogged, List.append_assoc]
  · exact List.forall_mem_append.mpr ⟨h.logLines, hlines⟩
  · exact List.forall_mem_append.mpr ⟨h.deliverable, hsome⟩

theorem hear {line heard : CString} {lines : List CString}
    (h : l.Balanced { flight with lines := line :: lines })
    (hheard : languageLog line [] = some heard) :
    { l with lines := l.lines ++ [(Origin.child, heard)] }.Balanced
      { flight with lines := lines } := by
  obtain ⟨delivered, hlogged, hlines⟩ := h.lines
  refine ⟨⟨delivered ++ [line], ?_, ?_⟩, h.callbacks, h.running, h.replies, h.answers, h.values,
    h.logLines, (List.forall_mem_cons.mp h.deliverable).2⟩
  · rw [hlogged, List.append_assoc]
    rfl
  · simp only [CageKeeper.heard, List.filter_append, List.map_append] at hlines ⊢
    rw [hlines]
    simp [hheard]

theorem report (h : l.Balanced flight) (line : CString) :
    { l with lines := l.lines ++ [(Origin.proxy, line)] }.Balanced flight := by
  refine ⟨?_, h.callbacks, h.running, h.replies, h.answers, h.values, h.logLines, h.deliverable⟩
  simpa [heard] using h.lines

theorem send (flight : Flight) (name : CString) (args : Value)
    (h : l.Balanced { flight with callbacks := [] }) :
    { l with sent := l.sent ++ [(name, args)] }.Balanced
      { flight with callbacks := [(name, args)] } := by
  refine ⟨h.lines, ?_, h.running, h.replies, h.answers, h.values, h.logLines, h.deliverable⟩
  simpa using h.callbacks

theorem call (flight : Flight) {name : CString} {args : Value} (f : F)
    (h : l.Balanced { flight with callbacks := [(name, args)], running := 0 }) :
    { l with calls := l.calls ++ [(f, args)] }.Balanced
      { flight with callbacks := [], running := 1 } := by
  refine ⟨h.lines, ?_, ?_, h.replies, h.answers, h.values, h.logLines, h.deliverable⟩
  · simpa using h.callbacks
  · simpa using h.running

theorem reply (flight : Flight) (value : Value)
    (h : l.Balanced { flight with running := 1, replies := [] }) :
    { l with replies := l.replies ++ [value] }.Balanced
      { flight with running := 0, replies := [value] } := by
  refine ⟨h.lines, h.callbacks, ?_, ?_, h.answers, h.values, h.logLines, h.deliverable⟩
  · simpa using h.running
  · simpa using h.replies

theorem receive (flight : Flight) {value : Value}
    (h : l.Balanced { flight with replies := [value] }) :
    { l with received := l.received ++ [some value] }.Balanced { flight with replies := [] } := by
  refine ⟨h.lines, h.callbacks, h.running, ?_, h.answers, h.values, h.logLines, h.deliverable⟩
  simpa using h.replies

theorem tell (flight : Flight) (name : CString) (ret : Bool)
    (h : l.Balanced { flight with answers := [] }) :
    { l with told := l.told ++ [(some name, ret)] }.Balanced
      { flight with answers := [(name, ret)] } := by
  refine ⟨h.lines, h.callbacks, h.running, h.replies, ?_, h.values, h.logLines, h.deliverable⟩
  simpa using h.answers

theorem answer (flight : Flight) {name : CString} {ret : Bool}
    (h : l.Balanced { flight with answers := [(name, ret)] }) :
    { l with answers := l.answers ++ [(name, ret)] }.Balanced { flight with answers := [] } := by
  refine ⟨h.lines, h.callbacks, h.running, h.replies, ?_, h.values, h.logLines, h.deliverable⟩
  simpa using h.answers

theorem give (flight : Flight) (values : List (Option Value))
    (h : l.Balanced { flight with values := [] }) :
    { l with given := l.given ++ values }.Balanced { flight with values := values } := by
  refine ⟨h.lines, h.callbacks, h.running, h.replies, h.answers, ?_, h.logLines, h.deliverable⟩
  simpa using h.values

/-- An operation returns, and with it the value of the guest's function if it is a call. -/
theorem finish (flight : Flight) (result : Result)
    (h : l.Balanced { flight with values := result.called.toList }) :
    { l with results := l.results ++ [result] }.Balanced { flight with values := [] } := by
  refine ⟨h.lines, h.callbacks, h.running, h.replies, h.answers, ?_, h.logLines, h.deliverable⟩
  rw [h.values, List.filterMap_append, List.append_nil]
  cases hresult : result.called <;> simp [hresult]

end Ledger.Balanced

end CageKeeper
