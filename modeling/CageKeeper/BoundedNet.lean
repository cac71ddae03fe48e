import CageKeeper.StreamNet

/-! Two machines connected by channels that hold a bounded number of symbols. A process writes one
symbol at a time and waits where the channel is full; it reads one symbol at a time, as long as it
waits for more of them. What such a pair does, the pair with unbounded channels does too. It stops
early only where a process waits for room and the other one does not read, and this is impossible if
the processes take turns. -/

namespace ByteStream
open Relation

variable {σ τ ι ω : Type}

/-- What a process leaves is the end of what has arrived. -/
def Machine.Reads (machine : Machine σ ι ω) : Prop :=
  ∀ ⦃state input next rest written⦄, machine.step state input = some (next, rest, written) →
    rest <:+ input

/-- A process that takes no further step whatever arrives. -/
def Machine.Halted (machine : Machine σ ι ω) (state : σ) (input : List ι) : Prop :=
  ∀ more, machine.step state (input ++ more) = none

theorem Machine.Halted.step_eq {machine : Machine σ ι ω} {state : σ} {input : List ι}
    (h : machine.Halted state input) : machine.step state input = none := by
  have hnone := h []
  rwa [List.append_nil] at hnone

theorem Machine.Halted.append {machine : Machine σ ι ω} {state : σ} {input : List ι}
    (h : machine.Halted state input) (later : List ι) : machine.Halted state (input ++ later) := by
  intro more
  rw [List.append_assoc]
  exact h (later ++ more)

/-! ### Taking turns -/

namespace Net

variable {first : Machine σ ι ω} {second : Machine τ ω ι} {s t u : Net σ τ ι ω}

/-- The same pair with the processes in the other order. -/
def swap (s : Net σ τ ι ω) : Net τ σ ω ι := ⟨s.right, s.left, s.toLeft, s.toRight⟩

theorem Step.swap (h : Step first second s t) : Step second first s.swap t.swap := by
  cases h with
  | left hstep => exact .right hstep
  | right hstep => exact .left hstep

theorem swap_run (h : ReflTransGen (Step first second) s t) :
    ReflTransGen (Step second first) s.swap t.swap :=
  h.lift Net.swap fun _ _ hstep => hstep.swap

/-- A step of a process that the other one owes nothing to read: its outgoing channel is empty. -/
inductive Calm (first : Machine σ ι ω) (second : Machine τ ω ι) :
    Net σ τ ι ω → Net σ τ ι ω → Prop where
  | left {net : Net σ τ ι ω} {next : σ} {rest : List ι} {written : List ω}
      (hempty : net.toRight = [])
      (hstep : first.step net.left net.toLeft = some (next, rest, written)) :
      Calm first second net ⟨next, net.right, written, rest⟩
  | right {net : Net σ τ ι ω} {next : τ} {rest : List ω} {written : List ι}
      (hempty : net.toLeft = [])
      (hstep : second.step net.right net.toRight = some (next, rest, written)) :
      Calm first second net ⟨net.left, next, rest, written⟩

theorem Calm.step (h : Calm first second s t) : Step first second s t := by
  cases h with
  | left hempty hstep =>
      have hrun : Step first second s _ := .left hstep
      rwa [hempty, List.nil_append] at hrun
  | right hempty hstep =>
      have hrun : Step first second s _ := .right hstep
      rwa [hempty, List.nil_append] at hrun

theorem Calm.run (h : ReflTransGen (Calm first second) s t) :
    ReflTransGen (Step first second) s t :=
  h.lift id fun _ _ hstep => hstep.step

inductive RightRun (second : Machine τ ω ι) (s : Net σ τ ι ω) : Net σ τ ι ω → Prop where
  | refl : RightRun second s s
  | tail {t : Net σ τ ι ω} {next : τ} {rest : List ω} {written : List ι}
      (hrun : RightRun second s t)
      (hstep : second.step t.right t.toRight = some (next, rest, written)) :
      RightRun second s ⟨t.left, next, rest, t.toLeft ++ written⟩

/-- The left process has not moved, and a run of the right one can be taken behind a step of it. -/
theorem RightRun.behind (hsecond : second.Monotone) (h : RightRun second s u) (next : σ)
    (written : List ω) (rest : List ι) :
    ∃ more, u.left = s.left ∧ u.toLeft = s.toLeft ++ more ∧
      ReflTransGen (Step first second) ⟨next, s.right, s.toRight ++ written, rest⟩
        ⟨next, u.right, u.toRight ++ written, rest ++ more⟩ := by
  induction h with
  | refl => exact ⟨[], rfl, (List.append_nil _).symm, by rw [List.append_nil]⟩
  | tail _ hstep ih =>
      obtain ⟨more, hleft, htoLeft, hrun⟩ := ih
      refine ⟨more ++ _, hleft, by rw [htoLeft, List.append_assoc], hrun.tail ?_⟩
      rw [← List.append_assoc]
      exact .right (hsecond hstep written)

/-- There is nothing to read for it afterwards if there was nothing before. -/
theorem RightRun.toRight_eq (hreads : second.Reads) (h : RightRun second s u)
    (hempty : s.toRight = []) : u.toRight = [] := by
  induction h with
  | refl => exact hempty
  | tail _ hstep ih =>
      rw [ih] at hstep
      exact List.suffix_nil.mp (hreads hstep)

/-- A calm step of the left process is taken in every run, or the right process alone has run, on
nothing. -/
theorem through_left (hfirst : first.Monotone) (hsecond : second.Monotone) (hreads : second.Reads)
    (hempty : s.toRight = []) {next : σ} {rest : List ι} {written : List ω}
    (hstep : first.step s.left s.toLeft = some (next, rest, written))
    (hrun : ReflTransGen (Step first second) s u) :
    ReflTransGen (Step first second) ⟨next, s.right, written, rest⟩ u ∨ u.toRight = [] := by
  have hcases : ReflTransGen (Step first second) ⟨next, s.right, written, rest⟩ u ∨
      RightRun second s u := by
    induction hrun with
    | refl => exact Or.inr .refl
    | @tail u v _ hlast ih =>
        rcases ih with hthrough | hright
        · exact Or.inl (hthrough.tail hlast)
        · cases hlast with
          | right hlast => exact Or.inr (hright.tail hlast)
          | left hlast =>
              obtain ⟨more, hleft, htoLeft, hbehind⟩ :=
                @RightRun.behind σ τ ι ω first second s u hsecond hright next written rest
              rw [hleft, htoLeft, hfirst hstep more] at hlast
              cases hlast
              rw [hempty, List.nil_append] at hbehind
              exact Or.inl hbehind
  exact hcases.imp_right fun hright => hright.toRight_eq hreads hempty

theorem prefix_of_halted (hhalted : first.Halted s.left s.toLeft)
    (hrun : ReflTransGen (Step first second) s u) : s.toLeft <+: u.toLeft := by
  have hkeeps : u.left = s.left ∧ s.toLeft <+: u.toLeft := by
    induction hrun with
    | refl => exact ⟨rfl, List.prefix_rfl⟩
    | tail _ hstep ih =>
        obtain ⟨hleft, more, hmore⟩ := ih
        cases hstep with
        | left hstep =>
            rw [hleft, ← hmore, hhalted more] at hstep
            cases hstep
        | right hstep => exact ⟨hleft, more ++ _, by rw [← hmore, List.append_assoc]⟩
  exact hkeeps.2

/-- At most one of the channels holds symbols. -/
def OneWay (s : Net σ τ ι ω) : Prop := s.toRight = [] ∨ s.toLeft = []

/-- **Taking turns.** If some run takes turns up to an end, at most one of the channels holds symbols
in every state of every run. -/
theorem oneWay_of_calm (hfirst : first.Monotone) (hsecond : second.Monotone)
    (hreadsFirst : first.Reads) (hreadsSecond : second.Reads)
    (hend : Terminal (Step first second) t) (honeWay : t.OneWay)
    (hcalm : ReflTransGen (Calm first second) s t) (hrun : ReflTransGen (Step first second) s u) :
    u.OneWay := by
  induction hcalm using ReflTransGen.head_induction_on generalizing u with
  | refl =>
      rcases hrun.cases_head with rfl | ⟨next, hstep, -⟩
      · exact honeWay
      · exact absurd hstep (hend next)
  | @head s middle hfirstStep _ ih =>
      cases hfirstStep with
      | left hempty hstep =>
          rcases through_left hfirst hsecond hreadsSecond hempty hstep hrun with hthrough | hnone
          · exact ih hthrough
          · exact Or.inl hnone
      | right hempty hstep =>
          have hswapped : ReflTransGen (Step second first) s.swap u.swap := swap_run hrun
          rcases through_left hsecond hfirst hreadsFirst hempty hstep hswapped
            with hthrough | hnone
          · exact ih (swap_run hthrough)
          · exact Or.inr hnone

end Net

/-! ### Bounded channels -/

/-- A process that reads and writes one symbol at a time. -/
structure Side (σ ι ω : Type) where
  state : σ
  /-- Read already, and waiting for more. -/
  taken : List ι
  /-- Still to be written. -/
  unsent : List ω

namespace Side

/-- A process and its two channels. It computes, takes a symbol that it waits for, or puts one into
a channel that is not full. -/
inductive Step (machine : Machine σ ι ω) (capacity : Nat) :
    Side σ ι ω × List ι × List ω → Side σ ι ω × List ι × List ω → Prop where
  | compute {state next : σ} {taken rest incoming : List ι} {written outgoing : List ω}
      (hstep : machine.step state taken = some (next, rest, written)) :
      Step machine capacity (⟨state, taken, []⟩, incoming, outgoing)
        (⟨next, rest, written⟩, incoming, outgoing)
  | take {state : σ} {taken incoming : List ι} {x : ι} {outgoing : List ω}
      (hwaits : machine.step state taken = none) (hreads : ¬machine.Halted state taken) :
      Step machine capacity (⟨state, taken, []⟩, x :: incoming, outgoing)
        (⟨state, taken ++ [x], []⟩, incoming, outgoing)
  | send {state : σ} {taken incoming : List ι} {y : ω} {unsent outgoing : List ω}
      (hroom : outgoing.length < capacity) :
      Step machine capacity (⟨state, taken, y :: unsent⟩, incoming, outgoing)
        (⟨state, taken, unsent⟩, incoming, outgoing ++ [y])

/-- A process that can do nothing waits for a symbol, has halted, or waits for room. -/
theorem waits_or_blocked {machine : Machine σ ι ω} {capacity : Nat} {side : Side σ ι ω}
    {incoming : List ι} {outgoing : List ω}
    (hstuck : ∀ next, ¬Step machine capacity (side, incoming, outgoing) next) :
    (side.unsent = [] ∧ machine.step side.state side.taken = none ∧
        (incoming = [] ∨ machine.Halted side.state side.taken)) ∨
      (side.unsent ≠ [] ∧ capacity ≤ outgoing.length) := by
  obtain ⟨state, taken, unsent⟩ := side
  cases unsent with
  | nil =>
      left
      cases hstep : machine.step state taken with
      | some result => exact absurd (.compute hstep) (hstuck (⟨_, _, _⟩, incoming, outgoing))
      | none =>
          refine ⟨rfl, rfl, ?_⟩
          cases incoming with
          | nil => exact Or.inl rfl
          | cons x incoming =>
              by_contra hwaits
              exact hstuck (⟨_, _, _⟩, incoming, outgoing)
                (.take hstep fun hhalted => hwaits (Or.inr hhalted))
  | cons y unsent =>
      right
      refine ⟨List.cons_ne_nil y unsent, Nat.le_of_not_lt fun hroom => ?_⟩
      exact hstuck (⟨_, _, _⟩, incoming, outgoing ++ [y]) (.send hroom)

/-- A process that waits for a symbol or has halted takes no step with all that has been sent. -/
theorem step_eq_none {machine : Machine σ ι ω} {side : Side σ ι ω} {incoming : List ι}
    (hnone : machine.step side.state side.taken = none)
    (hwaits : incoming = [] ∨ machine.Halted side.state side.taken) :
    machine.step side.state (side.taken ++ incoming) = none := by
  rcases hwaits with rfl | hhalted
  · rwa [List.append_nil]
  · exact hhalted incoming

end Side

/-- Two processes and what is in the channels between them. -/
structure BoundedNet (σ τ ι ω : Type) where
  left : Side σ ι ω
  right : Side τ ω ι
  toRight : List ω
  toLeft : List ι

namespace BoundedNet

def start (s : Net σ τ ι ω) : BoundedNet σ τ ι ω :=
  ⟨⟨s.left, s.toLeft, []⟩, ⟨s.right, s.toRight, []⟩, [], []⟩

inductive Step (first : Machine σ ι ω) (second : Machine τ ω ι) (capacity : Nat) :
    BoundedNet σ τ ι ω → BoundedNet σ τ ι ω → Prop where
  | left {b : BoundedNet σ τ ι ω} {side : Side σ ι ω} {incoming : List ι} {outgoing : List ω}
      (hside : Side.Step first capacity (b.left, b.toLeft, b.toRight) (side, incoming, outgoing)) :
      Step first second capacity b ⟨side, b.right, outgoing, incoming⟩
  | right {b : BoundedNet σ τ ι ω} {side : Side τ ω ι} {incoming : List ω} {outgoing : List ι}
      (hside : Side.Step second capacity (b.right, b.toRight, b.toLeft)
        (side, incoming, outgoing)) :
      Step first second capacity b ⟨b.left, side, incoming, outgoing⟩

/-- The same pair with unbounded channels: all that is under way is in the channels. -/
def net (b : BoundedNet σ τ ι ω) : Net σ τ ι ω :=
  ⟨b.left.state, b.right.state, b.right.taken ++ b.toRight ++ b.left.unsent,
    b.left.taken ++ b.toLeft ++ b.right.unsent⟩

@[simp] theorem net_start (s : Net σ τ ι ω) : (start s).net = s := by
  simp [start, net]

/-- What has to be moved before both processes have computed with it. -/
def pending (b : BoundedNet σ τ ι ω) : Nat :=
  b.left.unsent.length * 2 + b.toRight.length + (b.right.unsent.length * 2 + b.toLeft.length)

variable {first : Machine σ ι ω} {second : Machine τ ω ι} {capacity : Nat}
  {b b' : BoundedNet σ τ ι ω}

/-- **Simulation.** A step moves a symbol, or it is a step of the pair with unbounded channels. -/
theorem Step.net_cases (hfirst : first.Monotone) (hsecond : second.Monotone)
    (h : Step first second capacity b b') :
    (b'.net = b.net ∧ b'.pending < b.pending) ∨ Net.Step first second b.net b'.net := by
  obtain ⟨⟨state, taken, unsent⟩, ⟨state', taken', unsent'⟩, toRight, toLeft⟩ := b
  cases h with
  | left hside =>
      cases hside with
      | @compute _ next _ rest _ written _ hstep =>
          right
          have hmore := hfirst hstep (toLeft ++ unsent')
          rw [← List.append_assoc] at hmore
          have hnet : Net.Step first second
              (net ⟨⟨state, taken, []⟩, ⟨state', taken', unsent'⟩, toRight, toLeft⟩) _ := .left hmore
          simpa [net] using hnet
      | take => exact Or.inl ⟨by simp [net], by simp [pending]⟩
      | send => exact Or.inl ⟨by simp [net], by simp [pending]; omega⟩
  | right hside =>
      cases hside with
      | @compute _ next _ rest _ written _ hstep =>
          right
          have hmore := hsecond hstep (toRight ++ unsent)
          rw [← List.append_assoc] at hmore
          have hnet : Net.Step first second
              (net ⟨⟨state, taken, unsent⟩, ⟨state', taken', []⟩, toRight, toLeft⟩) _ := .right hmore
          simpa [net] using hnet
      | take => exact Or.inl ⟨by simp [net], by simp [pending]⟩
      | send => exact Or.inl ⟨by simp [net], by simp [pending]; omega⟩

theorem net_run (hfirst : first.Monotone) (hsecond : second.Monotone)
    (h : ReflTransGen (Step first second capacity) b b') :
    ReflTransGen (Net.Step first second) b.net b'.net := by
  induction h with
  | refl => exact .refl
  | tail _ hstep ih =>
      rcases hstep.net_cases hfirst hsecond with ⟨heq, -⟩ | hnet
      · rwa [heq]
      · exact ih.tail hnet

/-- No run goes on for ever if none of the pair with unbounded channels does. -/
theorem acc_of_net (hfirst : first.Monotone) (hsecond : second.Monotone)
    (hacc : Acc (flip (Net.Step first second)) b.net) :
    Acc (flip (Step first second capacity)) b := by
  obtain ⟨s, hs⟩ : ∃ s, b.net = s := ⟨_, rfl⟩
  rw [hs] at hacc
  induction hacc generalizing b with
  | intro s _ ih =>
      -- a step that is none of the other pair moves a symbol
      induction hpending : b.pending using Nat.strongRecOn generalizing b with
      | ind pending ihpending =>
          refine ⟨_, fun c hstep => ?_⟩
          rcases Step.net_cases hfirst hsecond hstep with ⟨heq, hless⟩ | hnet
          · exact ihpending _ (hpending ▸ hless) (heq.trans hs) rfl
          · exact ih c.net (hs ▸ hnet) rfl

/-! ### Symbols under way -/

/-- A step that moves a symbol and is no step of the pair with unbounded channels. -/
def Move (first : Machine σ ι ω) (second : Machine τ ω ι) (capacity : Nat)
    (b b' : BoundedNet σ τ ι ω) : Prop :=
  Step first second capacity b b' ∧ b'.net = b.net

theorem sends_left (n : Nat) {left : σ} {taken : List ι} {written : List ω} {right : Side τ ω ι}
    {toRight : List ω} {toLeft : List ι} (hroom : toRight.length + n ≤ capacity) :
    ReflTransGen (Move first second capacity) ⟨⟨left, taken, written⟩, right, toRight, toLeft⟩
      ⟨⟨left, taken, written.drop n⟩, right, toRight ++ written.take n, toLeft⟩ := by
  induction n generalizing written toRight with
  | zero => rw [List.take_zero, List.append_nil, List.drop_zero]
  | succ n ih =>
      cases written with
      | nil => rw [List.take_nil, List.append_nil, List.drop_nil]
      | cons y written =>
          have hmore : (toRight ++ [y]).length + n ≤ capacity := by
            rw [List.length_append, List.length_singleton]
            omega
          refine .head ⟨.left (.send (show toRight.length < capacity by omega)), by simp [net]⟩ ?_
          have hrest := @ih written _ hmore
          rwa [List.append_assoc, List.singleton_append] at hrest

theorem sends_right (n : Nat) {left : Side σ ι ω} {right : τ} {taken : List ω} {written : List ι}
    {toRight : List ω} {toLeft : List ι} (hroom : toLeft.length + n ≤ capacity) :
    ReflTransGen (Move first second capacity) ⟨left, ⟨right, taken, written⟩, toRight, toLeft⟩
      ⟨left, ⟨right, taken, written.drop n⟩, toRight, toLeft ++ written.take n⟩ := by
  induction n generalizing written toLeft with
  | zero => rw [List.take_zero, List.append_nil, List.drop_zero]
  | succ n ih =>
      cases written with
      | nil => rw [List.take_nil, List.append_nil, List.drop_nil]
      | cons y written =>
          have hmore : (toLeft ++ [y]).length + n ≤ capacity := by
            rw [List.length_append, List.length_singleton]
            omega
          refine .head ⟨.right (.send (show toLeft.length < capacity by omega)), by simp [net]⟩ ?_
          have hrest := @ih written _ hmore
          rwa [List.append_assoc, List.singleton_append] at hrest

/-- A message goes through a channel of any size, symbol by symbol, to a process that reads it as
a whole. -/
theorem transfer (hsecond : second.Monotone) (hcapacity : 0 < capacity) {left : σ}
    {leftTaken : List ι} {message taken : List ω} {right next : τ} {written toLeft : List ι}
    (hstep : second.step right (taken ++ message) = some (next, [], written)) :
    ReflTransGen (Move first second capacity)
      ⟨⟨left, leftTaken, message⟩, ⟨right, taken, []⟩, [], toLeft⟩
      ⟨⟨left, leftTaken, []⟩, ⟨right, taken ++ message, []⟩, [], toLeft⟩ := by
  induction message generalizing taken with
  | nil => rw [List.append_nil]
  | cons x message ih =>
      -- On less than the message the process has no step: it would leave the last symbol.
      have hwaits : second.step right taken = none := by
        refine Option.eq_none_iff_forall_ne_some.mpr fun ⟨early, rest, wrote⟩ hearly => ?_
        rw [hsecond hearly (x :: message)] at hstep
        simp at hstep
      have hreads : ¬second.Halted right taken := by
        intro hhalted
        simp [hhalted (x :: message)] at hstep
      refine .head ⟨.left (.send hcapacity), by simp [net]⟩ ?_
      refine .head ⟨.right (.take hwaits hreads), by simp [net]⟩ ?_
      rw [← List.singleton_append, ← List.append_assoc] at hstep ⊢
      exact ih hstep

/-! ### Where runs stop -/

/-- The left process waits for room in its channel. -/
def BlockedLeft (capacity : Nat) (b : BoundedNet σ τ ι ω) : Prop :=
  b.left.unsent ≠ [] ∧ capacity ≤ b.toRight.length

/-- The right process waits for room in its channel. -/
def BlockedRight (capacity : Nat) (b : BoundedNet σ τ ι ω) : Prop :=
  b.right.unsent ≠ [] ∧ capacity ≤ b.toLeft.length

/-- A process waits for room, and the other one does so too or has halted. -/
inductive Stalled (first : Machine σ ι ω) (second : Machine τ ω ι) (capacity : Nat)
    (b : BoundedNet σ τ ι ω) : Prop where
  | both (hleft : b.BlockedLeft capacity) (hright : b.BlockedRight capacity)
  | left (hleft : b.BlockedLeft capacity) (hhalted : second.Halted b.right.state b.right.taken)
  | right (hright : b.BlockedRight capacity) (hhalted : first.Halted b.left.state b.left.taken)

/-- **Where a run stops.** Either the pair with unbounded channels has come to its end too, or it
stalls. A process that waits for room does not face one that waits for a symbol, since a full channel
is not empty. -/
theorem terminal_cases (hcapacity : 0 < capacity)
    (hend : Terminal (Step first second capacity) b) :
    Terminal (Net.Step first second) b.net ∨ b.Stalled first second capacity := by
  have hleft := Side.waits_or_blocked fun next hside => hend _ (.left hside)
  have hright := Side.waits_or_blocked fun next hside => hend _ (.right hside)
  rcases hleft with ⟨hsent, hnone, hwaits⟩ | hblocked
  · rcases hright with ⟨hsent', hnone', hwaits'⟩ | hblocked'
    · left
      intro t hstep
      cases hstep with
      | left hstep =>
          simp only [net, hsent', List.append_nil, Side.step_eq_none hnone hwaits,
            reduceCtorEq] at hstep
      | right hstep =>
          simp only [net, hsent, List.append_nil, Side.step_eq_none hnone' hwaits',
            reduceCtorEq] at hstep
    · rcases hwaits with hempty | hhalted
      · have hfull := hblocked'.2
        rw [hempty, List.length_nil] at hfull
        omega
      · exact Or.inr (.right hblocked' hhalted)
  · rcases hright with ⟨-, -, hempty | hhalted⟩ | hblocked'
    · have hfull := hblocked.2
      rw [hempty, List.length_nil] at hfull
      omega
    · exact Or.inr (.left hblocked hhalted)
    · exact Or.inr (.both hblocked hblocked')

theorem terminal_of_blocked (hleft : b.BlockedLeft capacity) (hright : b.BlockedRight capacity) :
    Terminal (Step first second capacity) b := by
  obtain ⟨⟨state, taken, unsent⟩, ⟨state', taken', unsent'⟩, toRight, toLeft⟩ := b
  intro c hstep
  cases hstep with
  | left hside =>
      cases hside with
      | compute => exact hleft.1 rfl
      | take => exact hleft.1 rfl
      | send hroom => exact absurd hroom (Nat.not_lt.mpr hleft.2)
  | right hside =>
      cases hside with
      | compute => exact hright.1 rfl
      | take => exact hright.1 rfl
      | send hroom => exact absurd hroom (Nat.not_lt.mpr hright.2)

theorem BlockedLeft.toRight_ne_nil (h : b.BlockedLeft capacity) : b.net.toRight ≠ [] :=
  fun hnil => h.1 (List.append_eq_nil_iff.mp hnil).2

theorem BlockedRight.toLeft_ne_nil (h : b.BlockedRight capacity) : b.net.toLeft ≠ [] :=
  fun hnil => h.1 (List.append_eq_nil_iff.mp hnil).2

/-- A run does not stall if at most one channel holds symbols and everything is read in the end. -/
theorem not_stalled (honeWay : b.net.OneWay) {t : Net σ τ ι ω}
    (hrun : ReflTransGen (Net.Step first second) b.net t) (htoRight : t.toRight = [])
    (htoLeft : t.toLeft = []) : ¬b.Stalled first second capacity := by
  intro hstalled
  cases hstalled with
  | both hleft hright =>
      rcases honeWay with hnone | hnone
      · exact hleft.toRight_ne_nil hnone
      · exact hright.toLeft_ne_nil hnone
  | left hleft hhalted =>
      have hhalted' : second.Halted b.net.right b.net.toRight :=
        (hhalted.append b.toRight).append b.left.unsent
      have hunread := Net.prefix_of_halted (s := b.net.swap) hhalted' (Net.swap_run hrun)
      exact hleft.toRight_ne_nil (List.prefix_nil.mp (htoRight ▸ hunread))
  | right hright hhalted =>
      have hhalted' : first.Halted b.net.left b.net.toLeft :=
        (hhalted.append b.toLeft).append b.right.unsent
      have hunread := Net.prefix_of_halted hhalted' hrun
      exact hright.toLeft_ne_nil (List.prefix_nil.mp (htoLeft ▸ hunread))

/-- **Bounded channels are enough.** If the pair with unbounded channels has a run that takes turns
up to an end at which everything has been read, then every run over bounded channels ends, and it
ends there. -/
theorem ends_of_calm (hfirst : first.Monotone) (hsecond : second.Monotone)
    (hreadsFirst : first.Reads) (hreadsSecond : second.Reads) (hcapacity : 0 < capacity)
    {t : Net σ τ ι ω} (hend : Terminal (Net.Step first second) t) (htoRight : t.toRight = [])
    (htoLeft : t.toLeft = []) (hcalm : ReflTransGen (Net.Calm first second) b.net t) :
    Acc (flip (Step first second capacity)) b ∧
      ∀ e, ReflTransGen (Step first second capacity) b e →
        Terminal (Step first second capacity) e → e.net = t := by
  have hdiamond := Net.step_diamond hfirst hsecond
  refine ⟨acc_of_net hfirst hsecond (hdiamond.acc hend (Net.Calm.run hcalm)), ?_⟩
  intro e hrun hterminal
  have hnet := net_run hfirst hsecond hrun
  have hlater := hdiamond.reaches_terminal hend (Net.Calm.run hcalm) hnet
  have hone := Net.oneWay_of_calm hfirst hsecond hreadsFirst hreadsSecond hend (Or.inl htoRight)
    hcalm hnet
  rcases terminal_cases hcapacity hterminal with hterminal | hstalled
  · rcases hlater.cases_head with heq | ⟨next, hstep, -⟩
    · exact heq
    · exact absurd hstep (hterminal next)
  · exact absurd hstalled (not_stalled hone hlater htoRight htoLeft)

end BoundedNet

end ByteStream
