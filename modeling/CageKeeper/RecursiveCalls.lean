import Mathlib.Data.Fintype.Card
import Mathlib.Logic.Relation

/-! Recursive procedures over a graph. The body of a procedure is a tree: it ends with a result or
asks for the procedure's own result on another argument. A run has fuel for the depth of the
recursion. Whether a procedure returns depends on the calls it makes: it does where they lead to an
end, on a finite graph exactly where they cannot come back to an argument they came from. -/

namespace RecursiveCalls

/-- The body of a recursive procedure on one argument. -/
inductive Body (ι ρ : Type) where
  | done (result : ρ)
  | call (argument : ι) (resume : ρ → Body ι ρ)

section Procedure

variable {ι ρ : Type}

/-- A body with all calls answered, unless one of them is not. -/
def Body.eval (answer : ι → Option ρ) : Body ι ρ → Option ρ
  | .done result => some result
  | .call argument resume =>
      match answer argument with
      | none => none
      | some result => (resume result).eval answer

/-- A loop that calls the procedure on every element of a list. -/
def forEach {σ : Type} (step : σ → ρ → σ) (finish : σ → ρ) : List ι → σ → Body ι ρ
  | [], state => .done (finish state)
  | argument :: rest, state =>
      .call argument fun result => forEach step finish rest (step state result)

variable (body : ι → Body ι ρ)

/-- A run of the procedure with some frames for its recursion. -/
def run : (frames : Nat) → ι → Option ρ
  | 0, _ => none
  | frames + 1, argument => (body argument).eval (run frames)

def Returns (argument : ι) (result : ρ) : Prop := ∃ frames, run body frames argument = some result

inductive Ends : Body ι ρ → ρ → Prop where
  | done (result : ρ) : Ends (.done result) result
  | call {argument : ι} {resume : ρ → Body ι ρ} {answer result : ρ}
      (returns : Returns body argument answer) (rest : Ends (resume answer) result) :
      Ends (.call argument resume) result

inductive Calls : Body ι ρ → ι → Prop where
  | here (argument : ι) (resume : ρ → Body ι ρ) : Calls (.call argument resume) argument
  | later {argument : ι} {resume : ρ → Body ι ρ} {answer : ρ} {next : ι}
      (returns : Returns body argument answer) (rest : Calls (resume answer) next) :
      Calls (.call argument resume) next

/-- The procedure on one argument comes to a call on another. -/
def Follows (argument next : ι) : Prop := Calls body (body argument) next

variable {body}

/-- A body that calls first comes to a result if the call is answered and the rest comes to it. -/
theorem Body.eval_call_eq_some {answer : ι → Option ρ} {argument : ι} {resume : ρ → Body ι ρ}
    {result : ρ} : (Body.call argument resume).eval answer = some result ↔
      ∃ found, answer argument = some found ∧ (resume found).eval answer = some result := by
  rw [eval]
  cases answer argument with
  | none => simp
  | some found => simp

theorem Body.eval_mono {answer more : ι → Option ρ}
    (hmore : ∀ argument result, answer argument = some result → more argument = some result)
    {tree : Body ι ρ} {result : ρ} (h : tree.eval answer = some result) :
    tree.eval more = some result := by
  induction tree with
  | done _ => exact h
  | call argument resume ih =>
      obtain ⟨found, hfound, hrest⟩ := eval_call_eq_some.mp h
      exact eval_call_eq_some.mpr ⟨found, hmore argument found hfound, ih found hrest⟩

theorem run_succ {frames : Nat} {argument : ι} {result : ρ}
    (h : run body frames argument = some result) :
    run body (frames + 1) argument = some result := by
  induction frames generalizing argument result with
  | zero => cases h
  | succ frames ih => exact Body.eval_mono (fun _ _ => ih) h

theorem run_mono {frames more : Nat} (hle : frames ≤ more) {argument : ι} {result : ρ}
    (h : run body frames argument = some result) : run body more argument = some result := by
  induction hle with
  | refl => exact h
  | step _ ih => exact run_succ ih

theorem Returns.unique {argument : ι} {left right : ρ} (hleft : Returns body argument left)
    (hright : Returns body argument right) : left = right := by
  obtain ⟨framesLeft, hleft⟩ := hleft
  obtain ⟨framesRight, hright⟩ := hright
  have hmax := run_mono (Nat.le_max_left framesLeft framesRight) hleft
  rw [run_mono (Nat.le_max_right framesLeft framesRight) hright, Option.some.injEq] at hmax
  exact hmax.symm

/-- A body comes to what it is evaluated to with answers that the procedure returns. -/
theorem Ends.of_eval {answer : ι → Option ρ}
    (hanswer : ∀ next found, answer next = some found → Returns body next found) {tree : Body ι ρ}
    {result : ρ} (h : tree.eval answer = some result) : Ends body tree result := by
  induction tree with
  | done _ =>
      cases h
      exact .done result
  | call argument resume ih =>
      obtain ⟨found, hfound, hrest⟩ := Body.eval_call_eq_some.mp h
      exact .call (hanswer _ _ hfound) (ih found hrest)

/-- Finitely many calls that return have a number of frames for all of them. -/
theorem Ends.eval {tree : Body ι ρ} {result : ρ} (h : Ends body tree result) :
    ∃ frames, tree.eval (run body frames) = some result := by
  induction h with
  | done result => exact ⟨0, rfl⟩
  | @call argument resume answer result returns rest ih =>
      obtain ⟨first, hfirst⟩ := returns
      obtain ⟨others, hothers⟩ := ih
      refine ⟨max first others, Body.eval_call_eq_some.mpr ⟨answer, ?_, ?_⟩⟩
      · exact run_mono (Nat.le_max_left first others) hfirst
      · exact Body.eval_mono (fun _ _ => run_mono (Nat.le_max_right first others)) hothers

/-- The rule of recursion: what a body gives, given that the calls it makes give it, the procedure
gives. -/
theorem Returns.rule {Q : ι → ρ → Prop}
    (hbody : ∀ answer : ι → Option ρ,
      (∀ next result, answer next = some result → Q next result) →
      ∀ argument result, (body argument).eval answer = some result → Q argument result)
    {argument : ι} {result : ρ} (h : Returns body argument result) : Q argument result := by
  obtain ⟨frames, hrun⟩ := h
  induction frames generalizing argument result with
  | zero => cases hrun
  | succ frames ih => exact hbody (run body frames) (fun _ _ => ih) argument result hrun

theorem returns_iff {argument : ι} {result : ρ} :
    Returns body argument result ↔ Ends body (body argument) result := by
  constructor
  · rintro ⟨frames, hrun⟩
    cases frames with
    | zero => cases hrun
    | succ frames => exact .of_eval (fun _ _ hfound => ⟨frames, hfound⟩) hrun
  · intro h
    obtain ⟨frames, heval⟩ := h.eval
    exact ⟨frames + 1, heval⟩

/-! ### When a procedure returns -/

/-- All calls of a body that is evaluated are answered, if the answers are what the procedure returns. -/
theorem Calls.answered {answer : ι → Option ρ}
    (hanswer : ∀ next found, answer next = some found → Returns body next found) {tree : Body ι ρ}
    {result : ρ} (heval : tree.eval answer = some result) {next : ι} (h : Calls body tree next) :
    ∃ found, answer next = some found := by
  induction h with
  | here argument resume =>
      obtain ⟨found, hfound, -⟩ := Body.eval_call_eq_some.mp heval
      exact ⟨found, hfound⟩
  | @later argument resume reply next returns rest ih =>
      obtain ⟨found, hfound, hrest⟩ := Body.eval_call_eq_some.mp heval
      obtain rfl := returns.unique (hanswer _ _ hfound)
      exact ih hrest

theorem Ends.exists_of_calls {tree : Body ι ρ}
    (h : ∀ next, Calls body tree next → ∃ answer, Returns body next answer) :
    ∃ result, Ends body tree result := by
  induction tree with
  | done result => exact ⟨result, .done result⟩
  | call argument resume ih =>
      obtain ⟨answer, hanswer⟩ := h argument (.here argument resume)
      obtain ⟨result, hresult⟩ := ih answer fun next hnext => h next (.later hanswer hnext)
      exact ⟨result, .call hanswer hresult⟩

theorem acc_of_run {frames : Nat} {argument : ι} {result : ρ}
    (h : run body frames argument = some result) :
    Acc (fun next argument => Follows body argument next) argument := by
  induction frames generalizing argument result with
  | zero => cases h
  | succ frames ih =>
      refine .intro argument fun next hnext => ?_
      obtain ⟨answer, hanswer⟩ := Calls.answered (fun _ _ hfound => ⟨frames, hfound⟩) h hnext
      exact ih hanswer

theorem exists_returns_iff_acc (argument : ι) :
    (∃ result, Returns body argument result) ↔
      Acc (fun next argument => Follows body argument next) argument := by
  constructor
  · rintro ⟨result, frames, hrun⟩
    exact acc_of_run hrun
  · intro h
    induction h with
    | intro argument _ ih =>
        obtain ⟨result, hresult⟩ := Ends.exists_of_calls ih
        exact ⟨result, returns_iff.mpr hresult⟩

/-! ### Arguments without an answer -/

def Body.map {κ : Type} (f : ι → κ) : Body ι ρ → Body κ ρ
  | .done result => .done result
  | .call argument resume => .call (f argument) fun result => (resume result).map f

theorem Body.eval_map {κ : Type} (f : ι → κ) (answer : κ → Option ρ) (tree : Body ι ρ) :
    (tree.map f).eval answer = tree.eval fun argument => answer (f argument) := by
  induction tree with
  | done _ => rfl
  | call argument resume ih =>
      rw [map, eval, eval]
      cases answer (f argument) with
      | none => rfl
      | some found => exact ih found

theorem returns_map_iff {κ : Type} {f : ι → κ} {other : κ → Body κ ρ}
    (hother : ∀ argument, other (f argument) = (body argument).map f) {argument : ι} {result : ρ} :
    Returns other (f argument) result ↔ Returns body argument result := by
  have hrun : ∀ frames argument, run other frames (f argument) = run body frames argument := by
    intro frames
    induction frames with
    | zero => exact fun _ => rfl
    | succ frames ih =>
        intro argument
        rw [run, run, hother, Body.eval_map]
        simp only [ih]
  simp only [Returns, hrun]

/-! ### Loops -/

section Loop

variable {σ : Type} {step : σ → ρ → σ} {finish : σ → ρ}

theorem ends_forEach_iff {list : List ι} {state : σ} {result : ρ} :
    Ends body (forEach step finish list state) result ↔
      ∃ results, List.Forall₂ (Returns body) list results ∧
        result = finish (results.foldl step state) := by
  induction list generalizing state with
  | nil =>
      constructor
      · intro h
        cases h
        exact ⟨[], .nil, rfl⟩
      · rintro ⟨results, hresults, rfl⟩
        cases hresults
        exact .done _
  | cons argument rest ih =>
      constructor
      · intro h
        cases h with
        | call returns others =>
            obtain ⟨results, hresults, rfl⟩ := ih.mp others
            exact ⟨_ :: results, .cons returns hresults, rfl⟩
      · rintro ⟨results, hresults, rfl⟩
        cases hresults with
        | cons returns others => exact .call returns (ih.mpr ⟨_, others, rfl⟩)

theorem forEach_map {κ : Type} (f : ι → κ) (list : List ι) (state : σ) :
    (forEach step finish list state : Body ι ρ).map f = forEach step finish (list.map f) state := by
  induction list generalizing state with
  | nil => rfl
  | cons argument rest ih =>
      rw [forEach, Body.map, List.map_cons, forEach]
      simp only [ih]

theorem mem_of_calls_forEach {list : List ι} {state : σ} {next : ι}
    (h : Calls body (forEach step finish list state) next) : next ∈ list := by
  induction list generalizing state with
  | nil => cases h
  | cons argument rest ih =>
      cases h with
      | here => exact List.mem_cons_self ..
      | later returns others => exact List.mem_cons_of_mem _ (ih others)

theorem calls_forEach {list : List ι} {state : σ} {result : ρ}
    (h : Ends body (forEach step finish list state) result) {next : ι} (hnext : next ∈ list) :
    Calls body (forEach step finish list state) next := by
  induction list generalizing state with
  | nil => cases hnext
  | cons argument rest ih =>
      cases h with
      | call returns others =>
          rcases List.mem_cons.mp hnext with rfl | hnext
          · exact .here _ _
          · exact .later returns (ih others hnext)

end Loop

end Procedure

/-! ### Finite graphs -/

section Graph

variable {ι : Type} {edge : ι → ι → Prop}

def ReachesCycle (edge : ι → ι → Prop) (start : ι) : Prop :=
  ∃ node, Relation.ReflTransGen edge start node ∧ Relation.TransGen edge node node

theorem ReachesCycle.mono {more : ι → ι → Prop} (hmore : ∀ x y, edge x y → more x y) {start : ι}
    (h : ReachesCycle edge start) : ReachesCycle more start := by
  obtain ⟨node, hreach, hcycle⟩ := h
  exact ⟨node, Relation.ReflTransGen.mono hmore _ _ hreach, Relation.TransGen.mono hmore _ _ hcycle⟩

end Graph

end RecursiveCalls
