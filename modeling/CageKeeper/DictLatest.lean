import CageKeeper.DictReached

/-! The latest definition, in memory. A table from `dict_new` answers as the log of its definitions
does, as long as no `int` overflows and no lookup makes the table grow while two definitions have
equal keys. -/

namespace CageKeeper
open LinkedCells

variable {κ δ : Type}

namespace Table

def step (m : EntryMemory κ δ) (h : Table κ) :
    DictOp κ δ → Option (EntryMemory κ δ × Table κ × DictAnswer δ)
  | .put key data => do
      let (m, h, _) ← dictPut m h key data
      some (m, h, .put)
  | .lookup key => do
      let (m, h, data) ← dictLookup m h key
      some (m, h, .lookup data)
  | .contains key => do
      let (m, h, found) ← dictContains m h key
      some (m, h, .contains found)
  | .del key => do
      let (m, h, done) ← dictDel m h key
      some (m, h, .del done)

/-- The answers of a table to some operations. -/
def answers : EntryMemory κ δ → Table κ → List (DictOp κ δ) → Option (List (DictAnswer δ))
  | _, _, [] => some []
  | m, h, op :: ops => do
      let (m, h, answer) ← h.step m op
      let answers ← h.answers m ops
      some (answer :: answers)

/-- Whether a lookup goes past the first entry of the key's slot. -/
def goesOn (m : EntryMemory κ δ) (h : Table κ) (key : κ) : Bool :=
  h.num ≠ 0 &&
    match checkFirst m h (slotIndex (h.keyType.hash key) h.hashsize) key with
    | some (.rest (some _)) => true
    | _ => false

/-- Whether `dict_do_lookup` makes the table grow. -/
def grows (m : EntryMemory κ δ) (h : Table κ) (key : κ) : Bool :=
  h.goesOn m key && h.num * 3 ≥ h.hashsize * 2

/-- A lookup that stays in the range of an `int`, and that makes the table grow only if no two of the
definitions have equal keys. -/
structure LooksInOrder (m : EntryMemory κ δ) (h : Table κ) (log : DefinitionLog κ δ) (key : κ) :
    Prop where
  fits : h.goesOn m key → h.num * 3 < 2 ^ 31 - 2
  noDuplicates : h.grows m key → NoDuplicates h.keyType.equals log

/-- An operation that keeps the order of the definitions. -/
def StaysInOrder (m : EntryMemory κ δ) (h : Table κ) (log : DefinitionLog κ δ) :
    DictOp κ δ → Prop
  | .put _ _ => h.num + 1 < 2 ^ 31
  | .lookup key | .contains key => h.LooksInOrder m log key
  | .del _ => True

/-- All operations of a run keep the order. -/
def StayInOrder : EntryMemory κ δ → Table κ → DefinitionLog κ δ → List (DictOp κ δ) → Prop
  | _, _, _, [] => True
  | m, h, log, op :: ops => h.StaysInOrder m log op ∧
      ∀ next ∈ h.step m op, next.2.1.StayInOrder next.1 (logStep h.keyType.equals log op).1 ops

instance (m : EntryMemory κ δ) (h : Table κ) (log : DefinitionLog κ δ) (key : κ) :
    Decidable (h.LooksInOrder m log key) :=
  decidable_of_iff ((h.goesOn m key → h.num * 3 < 2 ^ 31 - 2) ∧
      (h.grows m key → NoDuplicates h.keyType.equals log))
    ⟨fun h => ⟨h.1, h.2⟩, fun h => ⟨h.fits, h.noDuplicates⟩⟩

instance (m : EntryMemory κ δ) (h : Table κ) (log : DefinitionLog κ δ) (op : DictOp κ δ) :
    Decidable (h.StaysInOrder m log op) :=
  match op with
  | .put _ _ => inferInstanceAs (Decidable (h.num + 1 < 2 ^ 31))
  | .lookup key | .contains key => inferInstanceAs (Decidable (h.LooksInOrder m log key))
  | .del _ => isTrue trivial

instance decidableStayInOrder (m : EntryMemory κ δ) (h : Table κ) (log : DefinitionLog κ δ) :
    (ops : List (DictOp κ δ)) → Decidable (h.StayInOrder m log ops)
  | [] => isTrue trivial
  | op :: ops =>
      have := fun next : EntryMemory κ δ × Table κ × DictAnswer δ =>
        decidableStayInOrder next.1 next.2.1 (logStep h.keyType.equals log op).1 ops
      inferInstanceAs (Decidable (h.StaysInOrder m log op ∧ ∀ next ∈ h.step m op,
        next.2.1.StayInOrder next.1 (logStep h.keyType.equals log op).1 ops))

/-- The table is laid out in the memory and follows the log. -/
structure FollowsLog (type : HashType κ) (m : EntryMemory κ δ) (h : Table κ)
    (log : DefinitionLog κ δ) : Prop where
  view : ∃ d : Dict κ (Addr × δ), Lays m h d ∧ d.Follows type Prod.snd log
  size : IsTableSize h.hashsize

end Table

/-! ### Lookups that go on -/

/-- Below the last size the loop of `dict_do_lookup` finds a size for a table. -/
theorem IsTableSize.newSizeLoop_isSome {size num3 turns : Nat} (hsize : IsTableSize size)
    (hnum : num3 < 2 ^ 31 - 2) (hpos : 0 < turns) (hturns : num3 < size + turns) :
    (Table.newSizeLoop num3 turns size).isSome := by
  induction turns generalizing size with
  | zero => cases hpos
  | succ turns ih =>
      rw [Table.newSizeLoop, int_eq hsize.lt, Option.bind_eq_bind, Option.bind_some]
      split
      · rename_i hfull
        have hsome := hsize.pos
        obtain ⟨next, hnext, hlarger⟩ : ∃ next, Table.nextSize size = some next ∧ size < next := by
          rw [Table.nextSize]
          split
          · rename_i hsmall
            exact ⟨15, rfl, hsmall⟩
          · rw [int_eq (by omega : (size + 1) * 2 < 2 ^ 31), Option.map_some]
            exact ⟨_, rfl, by omega⟩
        rw [hnext, Option.bind_some]
        exact ih (hsize.nextSize hnext) (by omega) (by omega)
      · rfl

theorem TableStep.isTableSize {m m' : EntryMemory κ δ} {h h' : Table κ} {d d' : Dict κ (Addr × δ)}
    (hstep : TableStep m h d m' h' d') (hsize : IsTableSize h.hashsize) :
    IsTableSize h'.hashsize := by
  rcases hstep.size with hsame | ⟨-, turns, hloop⟩
  · rwa [hsame]
  · exact hsize.newSizeLoop hloop

section Looking

variable {m : EntryMemory κ δ} {h : Table κ} {d : Dict κ (Addr × δ)}

theorem Lays.goesOn_eq (hlays : Lays m h d) (key : κ) :
    h.goesOn m key = (d.num ≠ 0 &&
      match chain d.slots (slotIndex (d.keyType.hash key) d.hashsize) with
      | first :: _ :: _ => !d.keyType.equals first.key key
      | _ => false) := by
  rw [Table.goesOn, hlays.checkFirst, hlays.num_eq, hlays.keyType_eq, hlays.hashsize_eq]
  congr 1
  cases chain d.slots (slotIndex (d.keyType.hash key) d.hashsize) with
  | nil => rfl
  | cons first next =>
      by_cases hequals : d.keyType.equals first.key key = true
      · cases next <;> simp [hequals]
      · cases next <;> simp [hequals, headAddr]

theorem Lays.grows_eq (hlays : Lays m h d) (key : κ) : h.grows m key = d.grows key := by
  rw [Table.grows, hlays.goesOn_eq, Dict.grows, hlays.num_eq, hlays.hashsize_eq, Bool.and_assoc]
  congr 1
  cases chain d.slots (slotIndex (d.keyType.hash key) d.hashsize) with
  | nil => rfl
  | cons first next => cases next <;> simp

theorem Lays.lookupFits_of_goesOn (hlays : Lays m h d) (hsize : IsTableSize h.hashsize) {key : κ}
    (hfits : h.goesOn m key → h.num * 3 < 2 ^ 31 - 2) : d.LookupFits key := by
  rw [hlays.goesOn_eq] at hfits
  rw [Dict.LookupFits]
  split
  · rename_i first second rest hchain
    by_cases hzero : d.num = 0
    · exact Or.inl hzero
    by_cases hequals : d.keyType.equals first.key key = true
    · exact Or.inr (Or.inl hequals)
    have hnum := hfits (by simp [hzero, hchain, hequals])
    rw [hlays.num_eq] at hnum
    rw [hlays.hashsize_eq] at hsize
    exact Or.inr (Or.inr ⟨by omega, hsize.lt, fun _ => hsize.newSizeLoop_isSome hnum (by omega) (by omega)⟩)
  · trivial

end Looking

/-! ### Runs -/

namespace Table.FollowsLog

variable {type : HashType κ} {m : EntryMemory κ δ} {h : Table κ} {log : DefinitionLog κ δ}

theorem start (type : HashType κ) :
    FollowsLog type (.empty : EntryMemory κ δ) (Table.dictNew type) [] where
  view := ⟨_, lays_dictInit2 _ type 1, .start type Prod.snd⟩
  size := Or.inl rfl

theorem put (hfollows : FollowsLog type m h log) (hlawful : type.Lawful)
    (hcount : h.num + 1 < 2 ^ 31) (key : κ) (data : δ) :
    ∃ m' h', h.step m (.put key data) = some (m', h', .put) ∧
      FollowsLog type m' h' ((key, data) :: log) := by
  obtain ⟨d, hlays, hlog⟩ := hfollows.view
  obtain ⟨m', h', e, hput, hlays', -⟩ := hlays.dictPut (hlays.num_eq ▸ hcount) key data
  obtain ⟨_, hstep⟩ := hlays.put_step hfollows.size.pos hput
  refine ⟨m', h', ?_, ⟨_, hlays', hlog.put hlawful key (e, data)⟩, hstep.isTableSize hfollows.size⟩
  rw [step, hput]
  rfl

theorem doLookup (hfollows : FollowsLog type m h log) (hlawful : type.Lawful) {key : κ}
    (hkeeps : h.LooksInOrder m log key) :
    ∃ m' h' found, Table.dictDoLookup m h key = some (m', h', found) ∧
      FollowsLog type m' h' log ∧
      (found = none ∧ log.find? (type.equals ·.1 key) = none ∨
        ∃ e entry pair, found = some e ∧ m'.cell e = some entry ∧
          log.find? (type.equals ·.1 key) = some pair ∧ entry.content.data = pair.2) := by
  obtain ⟨d, hlays, hlog⟩ := hfollows.view
  obtain ⟨m', h', hlookup, hlays', -⟩ := hlays.dictDoLookup_of_fits
    (hlays.lookupFits_of_goesOn hfollows.size hkeeps.fits)
  obtain ⟨_, hstep⟩ := hlays.lookup_step hlookup
  have hnodup : d.grows key → NoDuplicates type.equals log := by
    rw [← hlays.grows_eq, ← hlog.keyType_eq, ← hlays.keyType_eq]
    exact hkeeps.noDuplicates
  obtain ⟨hlog', hdata⟩ := hlog.lookup hlawful hnodup
  refine ⟨m', h', _, hlookup, ⟨⟨_, hlays', hlog'⟩, hstep.isTableSize hfollows.size⟩, ?_⟩
  have hspec := Dict.dictDoLookup_spec hlog.sound (hlog.keyType_eq ▸ hlawful) key
  cases hfound : (CageKeeper.dictDoLookup d key).2 with
  | none =>
      rw [hfound] at hdata
      exact Or.inl ⟨rfl, Option.map_eq_none_iff.mp hdata.symm⟩
  | some e =>
      rw [hfound] at hdata
      obtain ⟨pair, hpair, hsame⟩ := Option.map_eq_some_iff.mp hdata.symm
      have hmem := hspec.rearranged.perm.mem_iff.mpr (hspec.found e hfound).1
      obtain ⟨next, hcell⟩ := hlays'.cell_eq hmem
      exact Or.inr ⟨_, _, pair, rfl, hcell, hpair, hsame.symm⟩

theorem lookup (hfollows : FollowsLog type m h log) (hlawful : type.Lawful) {key : κ}
    (hkeeps : h.LooksInOrder m log key) :
    ∃ m' h', h.step m (.lookup key) =
        some (m', h', .lookup ((log.find? (type.equals ·.1 key)).map Prod.snd)) ∧
      FollowsLog type m' h' log := by
  obtain ⟨m', h', found, hlookup, hnext, hfound⟩ := hfollows.doLookup hlawful hkeeps
  refine ⟨m', h', ?_, hnext⟩
  rw [step, dictLookup, hlookup]
  rcases hfound with ⟨rfl, hnone⟩ | ⟨e, entry, pair, rfl, hcell, hsome, hdata⟩
  · rw [hnone]
    rfl
  · simp only [Option.bind_eq_bind, Option.bind_some, hcell, hsome, Option.map_some, hdata]

theorem contains (hfollows : FollowsLog type m h log) (hlawful : type.Lawful) {key : κ}
    (hkeeps : h.LooksInOrder m log key) :
    ∃ m' h', h.step m (.contains key) =
        some (m', h', .contains (log.any (type.equals ·.1 key))) ∧
      FollowsLog type m' h' log := by
  obtain ⟨m', h', found, hlookup, hnext, hfound⟩ := hfollows.doLookup hlawful hkeeps
  refine ⟨m', h', ?_, hnext⟩
  rw [step, dictContains, hlookup, ← List.isSome_find?]
  rcases hfound with ⟨rfl, hnone⟩ | ⟨e, entry, pair, rfl, -, hsome, -⟩
  · rw [hnone]
    rfl
  · rw [hsome]
    rfl

theorem del (hfollows : FollowsLog type m h log) (hlawful : type.Lawful) (key : κ) :
    ∃ m' h', h.step m (.del key) = some (m', h', .del (log.any (type.equals ·.1 key))) ∧
      FollowsLog type m' h' (log.eraseP (type.equals ·.1 key)) := by
  obtain ⟨d, hlays, hlog⟩ := hfollows.view
  obtain ⟨m', h', hremove, hlays', -⟩ :=
    hlays.dictRemove key fun e => h.keyType.equals e.key key
  obtain ⟨_, hstep⟩ := hlays.remove_step hremove
  obtain ⟨hlog', hanswer⟩ := hlog.del hlawful key
  have hdel : CageKeeper.dictDel d key = CageKeeper.dictRemove d key
      fun e => h.keyType.equals (locate e).2.key key := by
    rw [hlays.keyType_eq]
    rfl
  rw [← hdel] at hremove hlays'
  refine ⟨m', h', ?_, ⟨_, hlays', hlog'⟩, hstep.isTableSize hfollows.size⟩
  rw [step, dictDel, hremove, ← hanswer]
  rfl

/-- **One operation.** Where it keeps the order, it has the answer of the log. -/
theorem step (hfollows : FollowsLog type m h log) (hlawful : type.Lawful) {op : DictOp κ δ}
    (hkeeps : h.StaysInOrder m log op) :
    ∃ m' h', h.step m op = some (m', h', (logStep type.equals log op).2) ∧
      FollowsLog type m' h' (logStep type.equals log op).1 := by
  cases op with
  | put key data => exact hfollows.put hlawful hkeeps key data
  | lookup key => exact hfollows.lookup hlawful hkeeps
  | contains key => exact hfollows.contains hlawful hkeeps
  | del key => exact hfollows.del hlawful key

theorem keyType_eq (hfollows : FollowsLog type m h log) : h.keyType = type := by
  obtain ⟨d, hlays, hlog⟩ := hfollows.view
  exact hlays.keyType_eq.trans hlog.keyType_eq

theorem run (hfollows : FollowsLog type m h log) (hlawful : type.Lawful) {ops : List (DictOp κ δ)}
    (hkeep : h.StayInOrder m log ops) :
    h.answers m ops = some (logAnswers type.equals log ops) := by
  induction ops generalizing m h log with
  | nil => rfl
  | cons op ops ih =>
      obtain ⟨hop, hops⟩ := hkeep
      obtain ⟨m', h', hstep, hnext⟩ := hfollows.step hlawful hop
      have hrest := ih hnext (hfollows.keyType_eq ▸ hops _ hstep)
      rw [answers, hstep, logAnswers]
      simp only [Option.bind_eq_bind, Option.bind_some, hrest]

end Table.FollowsLog

/-- **The latest definition wins.** On a table from `dict_new` with a lawful key type every operation
answers as if the definitions were a log, as long as no `int` overflows and no lookup makes the table
grow while two definitions have equal keys. -/
theorem table_answers_latest {type : HashType κ} (hlawful : type.Lawful) (ops : List (DictOp κ δ))
    (hkeep : (Table.dictNew type).StayInOrder (.empty : EntryMemory κ δ) [] ops) :
    (Table.dictNew type).answers (.empty : EntryMemory κ δ) ops =
      some (logAnswers type.equals [] ops) :=
  (Table.FollowsLog.start type).run hlawful hkeep

/-- Two names, then a new definition of the first: the table grows before it has duplicates. -/
theorem table_answers_latest_redefined :
    (Table.dictNew charptrType).answers (.empty : EntryMemory (Option CString) Nat)
      [.put (some (.lit "f")) 1, .put (some (.lit "g")) 2, .lookup (some (.lit "f")),
        .put (some (.lit "f")) 3, .lookup (some (.lit "g")), .lookup (some (.lit "f")),
        .del (some (.lit "f")), .lookup (some (.lit "f"))] =
      some [.put, .put, .lookup (some 1), .put, .lookup (some 2), .lookup (some 3), .del true,
        .lookup (some 1)] := by
  have hanswers := table_answers_latest (δ := Nat) charptrType_lawful
    [.put (some (.lit "f")) 1, .put (some (.lit "g")) 2, .lookup (some (.lit "f")),
      .put (some (.lit "f")) 3, .lookup (some (.lit "g")), .lookup (some (.lit "f")),
      .del (some (.lit "f")), .lookup (some (.lit "f"))] (by decide +kernel)
  rw [hanswers]
  decide +kernel

/-- Two definitions of `f` and one of `g` share the only slot of a new table. Looking up `f` makes
the table grow, and the older definition is found. -/
theorem latest_not_found :
    ¬∀ ops : List (DictOp (Option CString) Nat),
      (Table.dictNew charptrType).answers (.empty : EntryMemory (Option CString) Nat) ops =
        some (logAnswers charptrType.equals [] ops) := by
  intro h
  have hops := h [.put (some (.lit "f")) 1, .put (some (.lit "f")) 2, .put (some (.lit "g")) 3,
    .lookup (some (.lit "f"))]
  have hanswers : (Table.dictNew charptrType).answers (.empty : EntryMemory (Option CString) Nat)
      [.put (some (.lit "f")) 1, .put (some (.lit "f")) 2, .put (some (.lit "g")) 3,
        .lookup (some (.lit "f"))] = some [.put, .put, .put, .lookup (some 1)] := by
    decide +kernel
  rw [hanswers] at hops
  exact absurd hops (by decide +kernel)

end CageKeeper
