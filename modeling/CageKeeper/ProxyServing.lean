import CageKeeper.ProxyParent
import CageKeeper.StreamNet

/-! What `process_callbacks` makes of a stream, without the process that runs it. Inside a callback
the operations of the proxy come back at once, all but `is_function`, which takes a byte from the
stream; so a native function's execution depends on the stream and on the registered functions
only. A stream is served message by message until one of them ends the loop. -/

namespace CageKeeper
open ByteStream

variable {F W : Type}

/-- What an operation returns from inside a callback before it reads anything. -/
def Op.atOnce : Op F → Option Result
  | .defineConstant _ _ => some .unit
  | .defineFunction _ _ => some .unit
  | .compileScript _ => some (.bool false)
  | .isFunction _ => none
  | .callFunction _ _ => some (.value none)

/-- The registered functions after an operation. -/
def Op.define (find : CString → Option F) : Op F → CString → Option F
  | .defineFunction name f => if (find name).isSome then find else Function.update find name (some f)
  | _ => find

/-- What the message loop depends on: the registered functions, the host's memory and the stream
of the child. -/
@[ext] structure Serving (F W : Type) where
  find : CString → Option F
  world : W
  pipe : Pipe

inductive NativeResult where
  | null
  | value (v : Value)
  /-- An array with a `NULL` in it. -/
  | holed

/-- The execution of a native function inside a callback: what it returns and what it leaves, or
`none` if it waits for a byte that has not arrived. -/
def Body.run : Body F W → (CString → Option F) → Pipe → Option (NativeResult × Serving F W)
  | .ret none world, find, pipe => some (.null, ⟨find, world, pipe⟩)
  | .ret (some value) world, find, pipe => some (.value value, ⟨find, world, pipe⟩)
  | .holed _ world, find, pipe => some (.holed, ⟨find, world, pipe⟩)
  | .op operation world resume, find, pipe =>
      match operation.atOnce with
      | some result => (resume result world).run (operation.define find) pipe
      | none =>
          match readByte.attempt pipe with
          | .ok reply rest => (resume (.bool (reply.any (· ≠ 0))) world).run find rest
          | _ => none

/-- How often the host writes to the child in the execution of a native function: a command for every
operation, and what the function returns. -/
def Body.writes : Body F W → (CString → Option F) → Pipe → Nat
  | .ret none _, _, _ => 0
  | .ret (some _) _, _, _ => 1
  | .holed _ _, _, _ => 1
  | .op operation world resume, find, pipe =>
      match operation.atOnce with
      | some result => (resume result world).writes (operation.define find) pipe + 1
      | none =>
          match readByte.attempt pipe with
          | .ok reply rest => (resume (.bool (reply.any (· ≠ 0))) world).writes find rest + 1
          | _ => 1

/-- How often the host writes to the child to serve the next message. -/
def Serving.writes (natives : Natives F W) (s : Serving F W) : Nat :=
  match readMessage s.pipe with
  | .ok (.callback name args) rest =>
      match s.find name with
      | some f => (natives.call f args s.world).writes s.find rest
      | none => 0
  | _ => 0

/-- One message is served, and the loop goes on. -/
inductive Served (natives : Natives F W) : Serving F W → Serving F W → Prop where
  /-- A byte that is no tag is skipped. -/
  | other {s : Serving F W} {rest : Pipe} (hread : readMessage s.pipe = .ok .other rest) :
      Served natives s { s with pipe := rest }
  /-- The log hook gets a line. -/
  | log {s : Serving F W} {rest : Pipe} {message line : CString}
      (hread : readMessage s.pipe = .ok (.log (some message)) rest)
      (hline : languageLog message [] = some line) : Served natives s { s with pipe := rest }
  /-- A registered function is called and returns a value. -/
  | callback {s s' : Serving F W} {rest : Pipe} {name : CString} {args value : Value} {f : F}
      (hread : readMessage s.pipe = .ok (.callback name args) rest) (hfind : s.find name = some f)
      (hrun : (natives.call f args s.world).run s.find rest = some (.value value, s')) :
      Served natives s s'

/-- The next message makes `process_callbacks` return false. -/
inductive Failing (natives : Natives F W) : Serving F W → Prop where
  /-- The stream ends, or the name or the arguments of a callback are rejected. -/
  | unread {s : Serving F W} {rest : Pipe} (hread : readMessage s.pipe = .ok .failed rest) :
      Failing natives s
  /-- `RESP_ERROR`: the guest's function has failed. -/
  | error {s : Serving F W} {rest : Pipe} (hread : readMessage s.pipe = .ok .error rest) :
      Failing natives s
  /-- A callback of a function that is not registered. -/
  | unknown {s : Serving F W} {rest : Pipe} {name : CString} {args : Value}
      (hread : readMessage s.pipe = .ok (.callback name args) rest) (hfind : s.find name = none) :
      Failing natives s
  /-- A callback of a function that returns `NULL`. -/
  | null {s s' : Serving F W} {rest : Pipe} {name : CString} {args : Value} {f : F}
      (hread : readMessage s.pipe = .ok (.callback name args) rest) (hfind : s.find name = some f)
      (hrun : (natives.call f args s.world).run s.find rest = some (.null, s')) :
      Failing natives s

/-- The next message is one that the host does not survive. -/
inductive Fatal (natives : Natives F W) : Serving F W → Prop where
  /-- `read_string` fails, and `language_log` is called with `NULL`. -/
  | unreadable {s : Serving F W} {rest : Pipe} (hread : readMessage s.pipe = .ok (.log none) rest) :
      Fatal natives s
  /-- The text has a conversion in it, and there is no argument. -/
  | conversion {s : Serving F W} {rest : Pipe} {message : CString}
      (hread : readMessage s.pipe = .ok (.log (some message)) rest)
      (hline : languageLog message [] = none) : Fatal natives s
  /-- A callback of a function that returns an array with a `NULL` in it, which `write_value` comes
  to. -/
  | holed {s s' : Serving F W} {rest : Pipe} {name : CString} {args : Value} {f : F}
      (hread : readMessage s.pipe = .ok (.callback name args) rest) (hfind : s.find name = some f)
      (hrun : (natives.call f args s.world).run s.find rest = some (.holed, s')) : Fatal natives s

/-- The next message is `RESP_RETURN`, on which `process_callbacks` returns true. -/
def Returning (s : Serving F W) : Prop := ∃ rest, readMessage s.pipe = .ok .return rest

/-- Messages that are served, with the number of writes to the child. -/
inductive ServedAfter (natives : Natives F W) : Nat → Serving F W → Serving F W → Prop where
  | refl (s : Serving F W) : ServedAfter natives 0 s s
  | tail {writes : Nat} {s middle last : Serving F W} (hserved : ServedAfter natives writes s middle)
      (hnext : Served natives middle last) :
      ServedAfter natives (writes + middle.writes natives) s last

/-- A child that is gone after so many writes of the host misses one of those that serving its
messages takes. -/
def Abandoned (natives : Natives F W) (attended : Nat) (s : Serving F W) : Prop :=
  ∃ writes s', ServedAfter natives writes s s' ∧ attended < writes + s'.writes natives

/-! ### One message, one fate -/

section Fates

variable {natives : Natives F W} {s s' : Serving F W}

theorem served_deterministic : Deterministic (Served natives) := by
  intro s a b ha hb
  cases ha <;> cases hb <;> simp_all

theorem Served.not_failing (h : Served natives s s') : ¬Failing natives s := by
  intro hfailing
  cases h <;> cases hfailing <;> simp_all

theorem Served.not_fatal (h : Served natives s s') : ¬Fatal natives s := by
  intro hfatal
  cases h <;> cases hfatal <;> simp_all

theorem Served.not_returning (h : Served natives s s') : ¬Returning s := by
  rintro ⟨rest, hreturn⟩
  cases h <;> simp_all

theorem Failing.not_fatal (h : Failing natives s) : ¬Fatal natives s := by
  intro hfatal
  cases h <;> cases hfatal <;> simp_all

theorem Failing.not_returning (h : Failing natives s) : ¬Returning s := by
  rintro ⟨rest, hreturn⟩
  cases h <;> simp_all

theorem Fatal.not_returning (h : Fatal natives s) : ¬Returning s := by
  rintro ⟨rest, hreturn⟩
  cases h <;> simp_all

theorem ServedAfter.reflTransGen {writes : Nat} (h : ServedAfter natives writes s s') :
    Relation.ReflTransGen (Served natives) s s' := by
  induction h with
  | refl => exact .refl
  | tail _ hnext ih => exact ih.tail hnext

theorem ServedAfter.cases_head {writes : Nat} (h : ServedAfter natives writes s s') :
    s = s' ∧ writes = 0 ∨
      ∃ middle rest, Served natives s middle ∧ ServedAfter natives rest middle s' ∧
        writes = s.writes natives + rest := by
  induction h with
  | refl s => exact Or.inl ⟨rfl, rfl⟩
  | @tail writes s middle last hserved hnext ih =>
      right
      rcases ih with ⟨rfl, rfl⟩ | ⟨first, rest, hfirst, hrest, rfl⟩
      · exact ⟨last, 0, hnext, .refl last, Nat.add_comm _ _⟩
      · exact ⟨first, _, hfirst, hrest.tail hnext, Nat.add_assoc _ _ _⟩

/-- Every run of served messages is the beginning of one that comes to a message that is not. -/
theorem ServedAfter.rest {writes writes' : Nat} {last : Serving F W}
    (h : ServedAfter natives writes s last) (hlast : Terminal (Served natives) last)
    (h' : ServedAfter natives writes' s s') :
    ∃ rest, ServedAfter natives rest s' last ∧ writes = writes' + rest := by
  induction h' with
  | refl s => exact ⟨writes, h, (Nat.zero_add _).symm⟩
  | @tail writes' s middle next _ hnext ih =>
      obtain ⟨rest, hrest, rfl⟩ := ih h
      rcases hrest.cases_head with ⟨rfl, -⟩ | ⟨first, others, hfirst, hothers, rfl⟩
      · exact absurd hnext (hlast next)
      · obtain rfl := served_deterministic hfirst hnext
        exact ⟨others, hothers, (Nat.add_assoc _ _ _).symm⟩

/-- Up to a message that is not served the host makes all the writes that the messages before it
take. -/
theorem ServedAfter.writes_le {writes writes' : Nat} {last : Serving F W}
    (h : ServedAfter natives writes s last) (hlast : Terminal (Served natives) last)
    (h' : ServedAfter natives writes' s s') :
    writes' + s'.writes natives ≤ writes + last.writes natives := by
  obtain ⟨rest, hrest, rfl⟩ := h.rest hlast h'
  rcases hrest.cases_head with ⟨rfl, rfl⟩ | ⟨first, others, -, -, rfl⟩ <;> omega

end Fates

/-- After zero or more messages that are served, the child's stream makes the loop fail. -/
def Fails (natives : Natives F W) (s : Serving F W) : Prop :=
  ∃ s', Relation.ReflTransGen (Served natives) s s' ∧ Failing natives s'

/-- After zero or more messages that are served, one follows that is fatal. -/
def Crashes (natives : Natives F W) (s : Serving F W) : Prop :=
  ∃ s', Relation.ReflTransGen (Served natives) s s' ∧ Fatal natives s'

/-- After zero or more messages that are served, the child sends `RESP_RETURN`. -/
def Returns (natives : Natives F W) (s : Serving F W) : Prop :=
  ∃ s', Relation.ReflTransGen (Served natives) s s' ∧ Returning s'

section Exclusive

variable {natives : Natives F W} {s : Serving F W}

theorem Fails.not_crashes (h : Fails natives s) : ¬Crashes natives s := by
  rintro ⟨s₂, hrun₂, hfatal⟩
  obtain ⟨s₁, hrun₁, hfailing⟩ := h
  obtain rfl := served_deterministic.end_unique (fun _ h => h.not_failing hfailing)
    (fun _ h => h.not_fatal hfatal) hrun₁ hrun₂
  exact hfailing.not_fatal hfatal

theorem Fails.not_returns (h : Fails natives s) : ¬Returns natives s := by
  rintro ⟨s₂, hrun₂, hreturning⟩
  obtain ⟨s₁, hrun₁, hfailing⟩ := h
  obtain rfl := served_deterministic.end_unique (fun _ h => h.not_failing hfailing)
    (fun _ h => h.not_returning hreturning) hrun₁ hrun₂
  exact hfailing.not_returning hreturning

theorem Crashes.not_returns (h : Crashes natives s) : ¬Returns natives s := by
  rintro ⟨s₂, hrun₂, hreturning⟩
  obtain ⟨s₁, hrun₁, hfatal⟩ := h
  obtain rfl := served_deterministic.end_unique (fun _ h => h.not_fatal hfatal)
    (fun _ h => h.not_returning hreturning) hrun₁ hrun₂
  exact hfatal.not_returning hreturning

end Exclusive

end CageKeeper
