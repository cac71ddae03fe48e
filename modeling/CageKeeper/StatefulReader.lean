import CageKeeper.StreamReader

/-! Readers that change a state beside the channel they read from, as C code does with memory. Such a
reader agrees with a plain one if it reads the same bytes and comes to the same verdict on every
channel; what it does to the state is said by a relation for its success and one for its failure. -/

namespace ByteStream

/-- A reader of values of type `α` that changes a state of type `σ`. It is `none` where the
behaviour of the code is undefined. -/
def Stateful (σ χ α : Type) := χ → σ → Option (Outcome (χ × σ) α)

namespace Stateful

variable {σ χ α β γ δ : Type}

/-- What a run comes to that goes on if it is successful. -/
def follow (result : Option (Outcome (χ × σ) α)) (next : α → Stateful σ χ β) :
    Option (Outcome (χ × σ) β) :=
  match result with
  | some (.ok value (rest, s)) => next value rest s
  | some (.reject rest) => some (.reject rest)
  | some .short => some .short
  | some .exhausted => some .exhausted
  | none => none

instance : Monad (Stateful σ χ) where
  pure value := fun channel s => some (.ok value (channel, s))
  bind reader next := fun channel s => follow (reader channel s) next

/-- A reader that leaves the state as it is. -/
def lift (reader : Reader χ α) : Stateful σ χ α := fun channel s =>
  some (match reader channel with
    | .ok value rest => .ok value (rest, s)
    | .reject rest => .reject (rest, s)
    | .short => .short
    | .exhausted => .exhausted)

def act (code : StateT σ Option α) : Stateful σ χ α := fun channel s =>
  (code s).map fun (value, s) => .ok value (channel, s)

def reject : Stateful σ χ α := fun channel s => some (.reject (channel, s))

def exhausted : Stateful σ χ α := fun _ _ => some .exhausted

/-- The caller tests for failure and goes on. -/
def attempt (reader : Stateful σ χ α) : Stateful σ χ (Option α) := fun channel s =>
  (reader channel s).map Outcome.attempt

/-- A reader run with more stack frames than there can be bytes. -/
def withFrames [Channel χ] (reader : Nat → Stateful σ χ α) : Stateful σ χ α := fun channel =>
  reader (Channel.left channel + 1) channel

theorem bind_apply (reader : Stateful σ χ α) (next : α → Stateful σ χ β) (channel : χ) (s : σ) :
    (reader >>= next) channel s = follow (reader channel s) next := rfl

theorem pure_apply (value : α) (channel : χ) (s : σ) :
    (pure value : Stateful σ χ α) channel s = some (.ok value (channel, s)) := rfl

/-- What a stateful reader does agrees with the outcome of a plain one. -/
inductive Agrees (success : σ → α → β → Prop) (failure : σ → Prop) :
    Option (Outcome (χ × σ) α) → Outcome χ β → Prop where
  | ok {value : α} {result : β} {rest : χ} {s : σ} (h : success s value result) :
      Agrees success failure (some (.ok value (rest, s))) (.ok result rest)
  | reject {rest : χ} {s : σ} (h : failure s) :
      Agrees success failure (some (.reject (rest, s))) (.reject rest)
  | short : Agrees success failure (some .short) .short
  | exhausted : Agrees success failure (some .exhausted) .exhausted

/-- What a caller knows that has tested for failure. -/
inductive Attempted (success : σ → α → β → Prop) (failure : σ → Prop) (s : σ) :
    Option α → Option β → Prop where
  | some {value : α} {result : β} (h : success s value result) :
      Attempted success failure s (some value) (some result)
  | none (h : failure s) : Attempted success failure s none none

variable {success : σ → α → β → Prop} {failure : σ → Prop}

namespace Agrees

theorem ne_none {result : Option (Outcome (χ × σ) α)} {outcome : Outcome χ β}
    (h : Agrees success failure result outcome) : result ≠ none := by
  cases h <;> exact Option.some_ne_none _

theorem of_ok {result : Option (Outcome (χ × σ) α)} {outcome : Outcome χ β} {value : α} {rest : χ}
    {s : σ} (h : Agrees success failure result outcome)
    (hresult : result = some (.ok value (rest, s))) :
    ∃ plain, outcome = .ok plain rest ∧ success s value plain := by
  cases h with
  | ok h =>
      cases hresult
      exact ⟨_, rfl, h⟩
  | reject | short | exhausted => cases hresult

theorem bind {reader : Stateful σ χ α} {plain : Reader χ β} {channel : χ} {s : σ}
    {next : α → Stateful σ χ γ} {next' : β → Reader χ δ} {later : σ → γ → δ → Prop}
    (h : Agrees success failure (reader channel s) (plain channel))
    (hnext : ∀ {value result rest s}, success s value result →
      Agrees later failure (next value rest s) (next' result rest)) :
    Agrees later failure ((reader >>= next) channel s) ((plain >>= next') channel) := by
  rw [Reader.bind_apply, Stateful.bind_apply]
  generalize reader channel s = run at h ⊢
  generalize plain channel = outcome at h ⊢
  cases h with
  | ok h => exact hnext h
  | reject h => exact .reject h
  | short => exact .short
  | exhausted => exact .exhausted

theorem lift {plain : Reader χ α} {channel : χ} {s : σ} (hfailure : failure s) :
    Agrees (fun s' value result => s' = s ∧ value = result) failure
      ((Stateful.lift plain : Stateful σ χ α) channel s) (plain channel) := by
  rw [Stateful.lift]
  cases plain channel with
  | ok value rest => exact .ok ⟨rfl, rfl⟩
  | reject rest => exact .reject hfailure
  | short => exact .short
  | exhausted => exact .exhausted

theorem lift_bind {plain : Reader χ α} {channel : χ} {s : σ} {next : α → Stateful σ χ γ}
    {next' : α → Reader χ δ} {later : σ → γ → δ → Prop} (hfailure : failure s)
    (hnext : ∀ value rest, Agrees later failure (next value rest s) (next' value rest)) :
    Agrees later failure ((Stateful.lift plain >>= next) channel s)
      ((plain >>= next') channel) := by
  refine (Agrees.lift hfailure).bind fun {value result rest s'} h => ?_
  obtain ⟨rfl, rfl⟩ := h
  exact hnext value rest

theorem attempt {reader : Stateful σ χ α} {plain : Reader χ β} {channel : χ} {s : σ}
    (h : Agrees success failure (reader channel s) (plain channel)) (failure' : σ → Prop) :
    Agrees (Attempted success failure) failure' (reader.attempt channel s)
      (plain.attempt channel) := by
  rw [Stateful.attempt, Reader.attempt_apply]
  generalize reader channel s = run at h ⊢
  generalize plain channel = outcome at h ⊢
  cases h with
  | ok h => exact .ok (.some h)
  | reject h => exact .ok (.none h)
  | short => exact .short
  | exhausted => exact .exhausted

theorem act_bind {code : StateT σ Option α} {channel : χ} {s s' : σ} {value : α}
    {next : α → Stateful σ χ γ} {outcome : Outcome χ δ} {later : σ → γ → δ → Prop}
    (hcode : code s = some (value, s')) (h : Agrees later failure (next value channel s') outcome) :
    Agrees later failure ((act code >>= next) channel s) outcome := by
  rw [Stateful.bind_apply, act, hcode]
  exact h

theorem mono {success' : σ → α → β → Prop} {failure' : σ → Prop}
    {result : Option (Outcome (χ × σ) α)} {outcome : Outcome χ β}
    (h : Agrees success failure result outcome)
    (hsuccess : ∀ {s value result}, success s value result → success' s value result)
    (hfailure : ∀ {s}, failure s → failure' s) : Agrees success' failure' result outcome := by
  cases h with
  | ok h => exact .ok (hsuccess h)
  | reject h => exact .reject (hfailure h)
  | short => exact .short
  | exhausted => exact .exhausted

/-- Clearing up after a failure, as the caller of a reader that returns `NULL` does. -/
theorem attempt_bind {reader : Stateful σ χ α} {plain : Reader χ β} {channel : χ} {s : σ}
    {next : Option α → Stateful σ χ γ} {next' : β → Reader χ δ} {later : σ → γ → δ → Prop}
    {failure' : σ → Prop} (h : Agrees success failure (reader channel s) (plain channel))
    (hnext : ∀ {value result rest s}, success s value result →
      Agrees later failure' (next (some value) rest s) (next' result rest))
    (hclear : ∀ {rest s}, failure s →
      ∃ s', next none rest s = some (.reject (rest, s')) ∧ failure' s') :
    Agrees later failure' ((reader.attempt >>= next) channel s) ((plain >>= next') channel) := by
  rw [Reader.bind_apply, Stateful.bind_apply, Stateful.attempt]
  generalize reader channel s = run at h ⊢
  generalize plain channel = outcome at h ⊢
  cases h with
  | ok h => exact hnext h
  | reject h =>
      obtain ⟨s', hnone, hfailure⟩ := hclear h
      show Agrees later failure' (next none _ _) _
      rw [hnone]
      exact .reject hfailure
  | short => exact .short
  | exhausted => exact .exhausted

theorem bind_right {run : Option (Outcome (χ × σ) α)} {plain : Reader χ β} {channel : χ}
    {next' : β → Reader χ δ} {later : σ → α → δ → Prop}
    (h : Agrees success failure run (plain channel))
    (hnext : ∀ {value result rest s}, success s value result →
      Agrees later failure (some (.ok value (rest, s))) (next' result rest)) :
    Agrees later failure run ((plain >>= next') channel) := by
  rw [Reader.bind_apply]
  generalize plain channel = outcome at h ⊢
  cases h with
  | ok h => exact hnext h
  | reject h => exact .reject h
  | short => exact .short
  | exhausted => exact .exhausted

end Agrees

theorem act_eq {code : StateT σ Option α} {s s' : σ} {value : α} (hcode : code s = some (value, s'))
    (channel : χ) : (act code : Stateful σ χ α) channel s = some (.ok value (channel, s')) := by
  rw [act, hcode, Option.map_some]

theorem act_reject {code : StateT σ Option α} {s s' : σ} {value : α}
    (hcode : code s = some (value, s')) (channel : χ) :
    (do let _ ← act code; reject : Stateful σ χ β) channel s = some (.reject (channel, s')) := by
  rw [bind_apply, act_eq hcode]
  rfl

/-! ### Readers of given bytes -/

/-- A reader that reads these bytes and no others, whatever follows them. -/
def Reads (reader : Stateful σ Pipe α) (bytes : Bytes) (s : σ) (value : α) (s' : σ) : Prop :=
  ∀ rest ending, reader ⟨bytes ++ rest, ending⟩ s = some (.ok value (⟨rest, ending⟩, s'))

namespace Reads

variable {s s' s'' : σ} {bytes others : Bytes} {value : α} {result : β}
  {next : α → Stateful σ Pipe β}

theorem pure (value : α) (s : σ) : Reads (Pure.pure value) [] s value s := fun _ _ => rfl

theorem act {code : StateT σ Option α} (hcode : code s = some (value, s')) :
    Reads (.act code) [] s value s' :=
  fun _ _ => act_eq hcode _

theorem lift {plain : Reader Pipe α}
    (hplain : ∀ rest ending, plain ⟨bytes ++ rest, ending⟩ = .ok value ⟨rest, ending⟩) (s : σ) :
    Reads (.lift plain) bytes s value s := by
  intro rest ending
  rw [Stateful.lift, hplain]

theorem attempt {reader : Stateful σ Pipe α} (hreader : Reads reader bytes s value s') :
    Reads reader.attempt bytes s (some value) s' := by
  intro rest ending
  rw [Stateful.attempt, hreader]
  rfl

theorem bind {reader : Stateful σ Pipe α} (hreader : Reads reader bytes s value s')
    (hnext : Reads (next value) others s' result s'') :
    Reads (reader >>= next) (bytes ++ others) s result s'' := by
  intro rest ending
  rw [List.append_assoc, bind_apply, hreader]
  exact hnext rest ending

theorem last {reader : Stateful σ Pipe α} (hreader : Reads reader bytes s value s')
    (hnext : Reads (next value) [] s' result s'') : Reads (reader >>= next) bytes s result s'' := by
  have hboth := hreader.bind hnext
  rwa [List.append_nil] at hboth

theorem act_bind {code : StateT σ Option α} (hcode : code s = some (value, s'))
    (hnext : Reads (next value) bytes s' result s'') : Reads (.act code >>= next) bytes s result s'' :=
  (act hcode).bind hnext

end Reads

end Stateful

end ByteStream
