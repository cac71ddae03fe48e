import Mathlib.Logic.Relation
import Mathlib.Tactic.Common

/-! Two machines connected by two first-in first-out channels. A machine is deterministic and
reads monotonically: symbols that arrive later never change a step it can already take. Under
every interleaving such a pair then computes the same thing: if one run ends, every run can be
continued to the same end, and no run goes on for ever. -/

namespace ByteStream

/-! ### Relations with the diamond property -/

section Diamond

variable {α : Type} {r : α → α → Prop}

/-- Two different steps from one state can be completed to the same state by one more step each. -/
def Diamond (r : α → α → Prop) : Prop :=
  ∀ ⦃a b c⦄, r a b → r a c → b = c ∨ ∃ d, r b d ∧ r c d

def Terminal (r : α → α → Prop) (a : α) : Prop := ∀ b, ¬r a b

theorem exists_terminal_of_acc {a : α} (h : Acc (flip r) a) :
    ∃ t, Relation.ReflTransGen r a t ∧ Terminal r t := by
  induction h with
  | intro a _ ih =>
      by_cases hend : Terminal r a
      · exact ⟨a, .refl, hend⟩
      · obtain ⟨b, hstep⟩ := not_forall_not.mp hend
        obtain ⟨t, hrun, hterminal⟩ := ih b hstep
        exact ⟨t, .head hstep hrun, hterminal⟩

inductive StepsIn (r : α → α → Prop) : Nat → α → α → Prop where
  | refl (a : α) : StepsIn r 0 a a
  | head {n : Nat} {a b c : α} (step : r a b) (steps : StepsIn r n b c) : StepsIn r (n + 1) a c

theorem exists_stepsIn {a b : α} (h : Relation.ReflTransGen r a b) : ∃ n, StepsIn r n a b := by
  induction h using Relation.ReflTransGen.head_induction_on with
  | refl => exact ⟨0, .refl b⟩
  | head step _ ih =>
      obtain ⟨n, hn⟩ := ih
      exact ⟨n + 1, .head step hn⟩

theorem StepsIn.reflTransGen {n : Nat} {a b : α} (h : StepsIn r n a b) :
    Relation.ReflTransGen r a b := by
  induction h with
  | refl a => exact .refl
  | head step _ ih => exact .head step ih

/-- A first step other than the one a terminating run starts with only reorders the run: the rest
of it still ends at the same state, one step sooner. -/
theorem Diamond.stepsIn_of_step (hdiamond : Diamond r) {t : α} (hterminal : Terminal r t) :
    ∀ {n : Nat} {a c : α}, StepsIn r n a t → r a c → ∃ k, n = k + 1 ∧ StepsIn r k c t := by
  intro n
  induction n with
  | zero =>
      intro a c hrun hstep
      cases hrun
      exact absurd hstep (hterminal c)
  | succ n ih =>
      intro a c hrun hstep
      cases hrun with
      | @head _ _ b _ hfirst hrest =>
          rcases hdiamond hfirst hstep with rfl | ⟨d, hbd, hcd⟩
          · exact ⟨n, rfl, hrest⟩
          · obtain ⟨k, rfl, hd⟩ := ih hrest hbd
            exact ⟨k + 1, rfl, .head hcd hd⟩

theorem Diamond.reaches_terminal (hdiamond : Diamond r) {a b t : α} (hterminal : Terminal r t)
    (hend : Relation.ReflTransGen r a t) (hrun : Relation.ReflTransGen r a b) :
    Relation.ReflTransGen r b t := by
  induction hrun with
  | refl => exact hend
  | tail _ hstep ih =>
      obtain ⟨n, hn⟩ := exists_stepsIn ih
      obtain ⟨k, -, hk⟩ := hdiamond.stepsIn_of_step hterminal hn hstep
      exact hk.reflTransGen

theorem Diamond.acc (hdiamond : Diamond r) {a t : α} (hterminal : Terminal r t)
    (hend : Relation.ReflTransGen r a t) : Acc (flip r) a := by
  obtain ⟨n, hn⟩ := exists_stepsIn hend
  induction n generalizing a with
  | zero =>
      cases hn
      exact ⟨_, fun b hstep => absurd hstep (hterminal b)⟩
  | succ n ih =>
      refine ⟨a, fun b hstep => ?_⟩
      obtain ⟨k, hk, hrun⟩ := hdiamond.stepsIn_of_step hterminal hn hstep
      obtain rfl : n = k := by omega
      exact ih hrun.reflTransGen hrun

def Deterministic (r : α → α → Prop) : Prop := ∀ ⦃a b c⦄, r a b → r a c → b = c

theorem Deterministic.diamond (hdet : Deterministic r) : Diamond r :=
  fun _ _ _ hb hc => Or.inl (hdet hb hc)

theorem Deterministic.end_unique (hdet : Deterministic r) {a b c : α} (hb : Terminal r b)
    (hc : Terminal r c) (hab : Relation.ReflTransGen r a b) (hac : Relation.ReflTransGen r a c) :
    b = c := by
  rcases (hdet.diamond.reaches_terminal hc hac hab).cases_head with heq | ⟨d, hstep, -⟩
  · exact heq
  · exact absurd hstep (hb d)

end Diamond

/-! ### Machines and nets -/

/-- A deterministic process. With the symbols that have arrived it either waits or takes a step,
which gives its next state, the symbols it leaves and the symbols it writes. -/
structure Machine (σ ι ω : Type) where
  step : σ → List ι → Option (σ × List ι × List ω)

/-- Symbols that arrive later do not change a step. -/
def Machine.Monotone {σ ι ω : Type} (machine : Machine σ ι ω) : Prop :=
  ∀ ⦃state input next rest written⦄, machine.step state input = some (next, rest, written) →
    ∀ later, machine.step state (input ++ later) = some (next, rest ++ later, written)

/-- Two processes and the contents of the channels between them. -/
@[ext] structure Net (σ τ ι ω : Type) where
  left : σ
  right : τ
  toRight : List ω
  toLeft : List ι

namespace Net

variable {σ τ ι ω : Type} {first : Machine σ ι ω} {second : Machine τ ω ι}

/-- One process takes a step; what it writes goes to the end of the other's channel. -/
inductive Step (first : Machine σ ι ω) (second : Machine τ ω ι) :
    Net σ τ ι ω → Net σ τ ι ω → Prop where
  | left {net : Net σ τ ι ω} {next : σ} {rest : List ι} {written : List ω}
      (step : first.step net.left net.toLeft = some (next, rest, written)) :
      Step first second net ⟨next, net.right, net.toRight ++ written, rest⟩
  | right {net : Net σ τ ι ω} {next : τ} {rest : List ω} {written : List ι}
      (step : second.step net.right net.toRight = some (next, rest, written)) :
      Step first second net ⟨net.left, next, rest, net.toLeft ++ written⟩

theorem step_diamond (hfirst : first.Monotone) (hsecond : second.Monotone) :
    Diamond (Step first second) := by
  intro net b c hb hc
  cases hb with
  | left hleft =>
      cases hc with
      | left hleft' =>
          left
          rw [hleft] at hleft'
          cases hleft'
          rfl
      | right hright =>
          exact Or.inr ⟨_, .right (hsecond hright _), .left (hfirst hleft _)⟩
  | right hright =>
      cases hc with
      | left hleft =>
          exact Or.inr ⟨_, .left (hfirst hleft _), .right (hsecond hright _)⟩
      | right hright' =>
          left
          rw [hright] at hright'
          cases hright'
          rfl

end Net

end ByteStream
