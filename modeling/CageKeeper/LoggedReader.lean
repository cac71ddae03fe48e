import CageKeeper.StreamReader

/-! Readers that keep a log of what they do. The log is there however the run ends, so that it speaks
about every step of every run. Without its log a logged reader is a reader. -/

namespace ByteStream

/-- A reader of values of type `α` that logs entries of type `ε`. -/
def Logged (ε χ α : Type) := χ → List ε × Outcome χ α

namespace Logged

variable {ε χ α β : Type}

instance : Monad (Logged ε χ) where
  pure value := fun channel => ([], .ok value channel)
  bind reader next := fun channel =>
    match reader channel with
    | (log, .ok value rest) => (log ++ (next value rest).1, (next value rest).2)
    | (log, .reject rest) => (log, .reject rest)
    | (log, .short) => (log, .short)
    | (log, .exhausted) => (log, .exhausted)

def lift (reader : Reader χ α) : Logged ε χ α := fun channel => ([], reader channel)

def tell (entries : List ε) : Logged ε χ Unit := fun channel => (entries, .ok () channel)

def reader (logged : Logged ε χ α) : Reader χ α := fun channel => (logged channel).2

@[simp] theorem pure_apply (value : α) (channel : χ) :
    (pure value : Logged ε χ α) channel = ([], .ok value channel) := rfl

theorem bind_apply (logged : Logged ε χ α) (next : α → Logged ε χ β) (channel : χ) :
    (logged >>= next) channel = match logged channel with
      | (log, .ok value rest) => (log ++ (next value rest).1, (next value rest).2)
      | (log, .reject rest) => (log, .reject rest)
      | (log, .short) => (log, .short)
      | (log, .exhausted) => (log, .exhausted) := rfl

@[simp] theorem tell_bind_apply (entries : List ε) (next : Unit → Logged ε χ β) (channel : χ) :
    (tell entries >>= next) channel = (entries ++ (next () channel).1, (next () channel).2) := rfl

/-! ### Readers without their logs -/

@[simp] theorem reader_pure (value : α) : (pure value : Logged ε χ α).reader = pure value := rfl

@[simp] theorem reader_lift (reader : Reader χ α) : (lift reader : Logged ε χ α).reader = reader :=
  rfl

@[simp] theorem reader_tell_bind (entries : List ε) (next : Unit → Logged ε χ β) :
    (tell entries >>= next).reader = (next ()).reader := rfl

@[simp] theorem reader_bind (logged : Logged ε χ α) (next : α → Logged ε χ β) :
    (logged >>= next).reader = logged.reader >>= fun value => (next value).reader := by
  funext channel
  rw [Reader.bind_apply, reader, bind_apply, reader]
  rcases logged channel with ⟨log, _ | _ | _ | _⟩ <;> rfl

theorem reader_ite (condition : Prop) [Decidable condition] (left right : Logged ε χ α) :
    (if condition then left else right).reader
      = if condition then left.reader else right.reader := by
  split <;> rfl

/-! ### What a log ends with -/

theorem lift_bind_apply (reader : Reader χ α) (next : α → Logged ε χ β) (channel : χ) :
    (lift reader >>= next) channel = match reader channel with
      | .ok value rest => next value rest
      | .reject rest => ([], .reject rest)
      | .short => ([], .short)
      | .exhausted => ([], .exhausted) := by
  rw [bind_apply, lift]
  cases reader channel <;> rfl

/-- The log of a reader that goes on after a step has the log of that step in front. -/
theorem mem_bind_of_left {logged : Logged ε χ α} {next : α → Logged ε χ β} {channel : χ} {entry : ε}
    (hmem : entry ∈ (logged channel).1) : entry ∈ ((logged >>= next) channel).1 := by
  rw [bind_apply]
  rcases hresult : logged channel with ⟨log, outcome⟩
  rw [hresult] at hmem
  cases outcome with
  | ok value rest => exact List.mem_append_left _ hmem
  | reject rest => exact hmem
  | short => exact hmem
  | exhausted => exact hmem

theorem mem_bind_of_right {logged : Logged ε χ α} {next : α → Logged ε χ β} {channel rest : χ}
    {value : α} (hresult : logged.reader channel = .ok value rest) {entry : ε}
    (hmem : entry ∈ (next value rest).1) : entry ∈ ((logged >>= next) channel).1 := by
  rw [bind_apply]
  rcases hlogged : logged channel with ⟨log, outcome⟩
  rw [reader, hlogged] at hresult
  obtain rfl : outcome = .ok value rest := hresult
  exact List.mem_append_right _ hmem

end Logged

end ByteStream
