import CageKeeper.DictCopyOrder
import CageKeeper.DictSystem

/-! What a copy answers in memory. Operations on one table change the entries of that table and make
new ones, whatever else is in the memory, so that a table keeps its answers while its copy is used. -/

namespace CageKeeper
open LinkedCells

variable {κ δ : Type}

/-! ### Described tables without their addresses -/

namespace Dict

theorem strip_slotOf (d : Dict κ (Addr × δ)) (key : κ) :
    d.strip.slotOf key = (d.slotOf key).map CageKeeper.strip := by
  rw [slotOf, strip_chain, strip_hashsize]
  rfl

theorem strip_matching (d : Dict κ (Addr × δ)) (key : κ) :
    d.strip.matching key = (d.matching key).map CageKeeper.strip := by
  rw [matching, strip_entries, List.filter_map]
  rfl

theorem strip_grows (d : Dict κ (Addr × δ)) (key : κ) : d.strip.grows key = d.grows key := by
  have hfirst : (d.strip.slotOf key).head?.any (fun e => d.keyType.equals e.key key)
      = (d.slotOf key).head?.any fun e => d.keyType.equals e.key key := by
    rw [strip_slotOf, List.head?_map, Option.any_map]
    rfl
  have hfull : d.strip.Full ↔ d.Full := by
    rw [Full, strip_hashsize]
    rfl
  rw [Bool.eq_iff_iff, grows_iff, grows_iff, hfull, strip_slotOf, List.length_map, ← strip_slotOf]
  exact and_congr_right fun _ => and_congr_right fun _ => and_congr_right fun _ =>
    not_congr (by rw [← hfirst]; rfl)

theorem Sound.dictLookup_strip {d : Dict κ (Addr × δ)} (hsound : d.Sound)
    (hlawful : d.keyType.Lawful) (key : κ) :
    (dictDoLookup d key).2.map (fun e => e.data.2) = (dictLookup d.strip key).2 := by
  have hstrip := (strip_sound.mpr hsound).dictDoLookup_end hlawful key
  rw [strip_grows, strip_matching, List.getLast?_map, List.head?_map, ← apply_ite (Option.map _),
    ← hsound.dictDoLookup_end hlawful key] at hstrip
  simp only [dictLookup, hstrip, Option.map_map]
  rfl

end Dict

/-! ### Operations on one table -/

def Tables.answer [DecidableEq δ] (w : Tables κ δ) (op : TableOp κ δ) :
    Option (TableAnswer κ δ) :=
  (w.step op).map Prod.snd

inductive Tables.UsedOn [DecidableEq δ] (table : Nat) (w : Tables κ δ) : Tables κ δ → Prop where
  | refl : UsedOn table w w
  | step {middle next : Tables κ δ} {op : TableOp κ δ} {answer : TableAnswer κ δ}
      (hrun : UsedOn table w middle) (htable : op.table = table)
      (hstep : middle.step op = some (next, answer)) : UsedOn table w next

/-- One of the tables is what a description says, and the description is well formed. -/
structure Tables.Has (type : HashType κ) (w : Tables κ δ) (table : Nat)
    (d : Dict κ (Addr × δ)) : Prop where
  lays : ∃ h, w.tables[table]? = some h ∧ Lays w.memory h d
  keyType_eq : d.keyType = type
  sound : d.Sound

/-- One table has been used, and nothing else has changed. -/
structure Tables.Touches (type : HashType κ) (table : Nat) (w : Tables κ δ)
    (d : Dict κ (Addr × δ)) (next : Tables κ δ) (d' : Dict κ (Addr × δ)) : Prop where
  has : next.Has type table d'
  same : Memory.SameOutside d.addrs w.memory next.memory
  addrs : ∀ a ∈ d'.addrs, a ∈ d.addrs ∨ w.memory.fresh ≤ a
  others : ∀ other, other ≠ table → other < w.tables.length →
    other < next.tables.length ∧ next.tables[other]? = w.tables[other]?

theorem Lays.dictDoLookup_eq_some {m m' : EntryMemory κ δ} {h h' : Table κ}
    {d : Dict κ (Addr × δ)} {key : κ} {found : Option Addr} (hlays : Lays m h d)
    (hlookup : Table.dictDoLookup m h key = some (m', h', found)) :
    Lays m' h' (CageKeeper.dictDoLookup d key).1 ∧ Memory.SameOutside d.addrs m m' ∧
      found = (CageKeeper.dictDoLookup d key).2.map fun e => (locate e).1 := by
  have hfits : d.LookupFits key := by
    apply hlays.lookupFits
    rw [hlookup]
    rfl
  obtain ⟨m₁, h₁, hresult, hlays₁, hsame₁⟩ := hlays.dictDoLookup_of_fits hfits
  cases hlookup.symm.trans hresult
  exact ⟨hlays₁, hsame₁, rfl⟩

theorem expandEmpty_num {m m' : EntryMemory κ δ} {h h' : Table κ}
    (hexpand : Table.expandEmpty m h = some (m', h')) : h'.num = h.num := by
  rw [Table.expandEmpty] at hexpand
  split at hexpand
  · rw [Table.dictExpand] at hexpand
    split at hexpand
    · obtain ⟨_, -, hresult⟩ := Option.bind_eq_some_iff.mp hexpand
      cases hresult
      rfl
    · cases hexpand
  · cases hexpand
    rfl

theorem Lays.dictPut_eq_some {m m' : EntryMemory κ δ} {h h' : Table κ} {d : Dict κ (Addr × δ)}
    {key : κ} {data : δ} {e : Addr} (hlays : Lays m h d)
    (hput : Table.dictPut m h key data = some (m', h', e)) :
    Lays m' h' (CageKeeper.dictPut d key (e, data)) ∧ m.fresh ≤ e ∧
      Memory.SameOutside d.addrs m m' := by
  have hcount : d.num + 1 < 2 ^ 31 := by
    obtain ⟨⟨m₁, h₁⟩, hexpand, hrest⟩ := Option.bind_eq_some_iff.mp hput
    obtain ⟨num, hnum, -⟩ := Option.bind_eq_some_iff.mp hrest
    have hlt := (int_eq_some hnum).1
    rwa [expandEmpty_num hexpand, hlays.num_eq] at hlt
  obtain ⟨m₁, h₁, e₁, hresult, hlays₁, hfresh, hsame⟩ := hlays.dictPut hcount key data
  cases hput.symm.trans hresult
  exact ⟨hlays₁, hfresh, hsame⟩

namespace Tables.Has

variable {type : HashType κ} {w next : Tables κ δ} {table : Nat} {d d' : Dict κ (Addr × δ)}
  {m' : EntryMemory κ δ} {h h' : Table κ}

theorem start (type : HashType κ) :
    (Tables.start type 1 : Tables κ δ).Has type 0 (CageKeeper.dictNew type) where
  lays := ⟨_, rfl, lays_dictInit2 _ type 1⟩
  keyType_eq := rfl
  sound := Dict.dictNew_sound type

theorem update (hw : w.tables[table]? = some h) (hlays : Lays m' h' d') (hkey : d'.keyType = type)
    (hsound : d'.Sound) (hsame : Memory.SameOutside d.addrs w.memory m')
    (haddrs : ∀ a ∈ d'.addrs, a ∈ d.addrs ∨ w.memory.fresh ≤ a) :
    Tables.Touches type table w d (w.update table m' h') d' where
  has := by
    refine ⟨⟨h', ?_, hlays⟩, hkey, hsound⟩
    rw [Tables.update, List.getElem?_set_self (List.getElem?_eq_some_iff.mp hw).1]
  same := hsame
  addrs := haddrs
  others other hne hlt := by
    rw [Tables.update, List.length_set, List.getElem?_set_ne hne.symm]
    exact ⟨hlt, rfl⟩

theorem lookup (hhas : w.Has type table d) (hlawful : type.Lawful) (hw : w.tables[table]? = some h)
    {key : κ} {found : Option Addr}
    (hlookup : Table.dictDoLookup w.memory h key = some (m', h', found)) :
    ∃ d', Tables.Touches type table w d (w.update table m' h') d' := by
  obtain ⟨⟨_, hw', hlays⟩, rfl, hsound⟩ := hhas
  cases hw.symm.trans hw'
  obtain ⟨hlays', hsame, -⟩ := hlays.dictDoLookup_eq_some hlookup
  obtain ⟨hkey, hperm, hsound'⟩ := (Dict.dictDoLookup_spec hsound hlawful key).rearranged
  refine ⟨_, update hw hlays' hkey hsound' hsame fun a ha => Or.inl ?_⟩
  exact (Dict.addrs_perm hperm).mem_iff.mp ha

theorem remove (hhas : w.Has type table d) (hlawful : type.Lawful) (hw : w.tables[table]? = some h)
    {key : κ} {isMatch : Entry κ δ → Bool} {done : Bool}
    (hmatch : ∀ e, isMatch e → h.keyType.equals e.key key)
    (hremove : Table.dictRemove w.memory h key isMatch = some (m', h', done)) :
    ∃ d', Tables.Touches type table w d (w.update table m' h') d' := by
  obtain ⟨⟨_, hw', hlays⟩, rfl, hsound⟩ := hhas
  cases hw.symm.trans hw'
  rw [hlays.keyType_eq] at hmatch
  obtain ⟨m₁, h₁, hremoved, hlays', hsame⟩ := hlays.dictRemove key isMatch
  cases hremove.symm.trans hremoved
  have hmatch' : ∀ e : Entry κ (Addr × δ), isMatch (locate e).2 → d.keyType.equals e.key key :=
    fun e => hmatch (locate e).2
  have hspec := Dict.dictRemove_spec hsound hlawful key hmatch'
  obtain ⟨gone, hgone⟩ := hspec.perm_append
  refine ⟨_, update hw hlays' hspec.keyType_eq hspec.sound hsame fun a ha => Or.inl ?_⟩
  apply (addresses_perm hgone).mem_iff.mpr
  rw [addresses_append]
  exact List.mem_append_right _ ha

theorem put (hhas : w.Has type table d) (hlawful : type.Lawful) (hw : w.tables[table]? = some h)
    {key : κ} {data : δ} {e : Addr}
    (hput : Table.dictPut w.memory h key data = some (m', h', e)) :
    ∃ d', Tables.Touches type table w d (w.update table m' h') d' := by
  obtain ⟨⟨_, hw', hlays⟩, rfl, hsound⟩ := hhas
  cases hw.symm.trans hw'
  obtain ⟨hlays', hfresh, hsame⟩ := hlays.dictPut_eq_some hput
  obtain ⟨hsound', hkey, hperm⟩ := hsound.dictPut hlawful key (e, data)
  refine ⟨_, update hw hlays' hkey hsound' hsame fun a ha => ?_⟩
  rcases List.mem_cons.mp ((addresses_perm hperm).mem_iff.mp ha) with rfl | hold
  · exact Or.inr hfresh
  · exact Or.inl hold

theorem clone (hhas : w.Has type table d) (hlawful : type.Lawful)
    (hw : w.tables[table]? = some h) :
    ∃ m' h' d', Table.dictClone w.memory h = some (m', h') ∧
      Tables.Touches type table w d ⟨m', w.tables ++ [h']⟩ d ∧
      Tables.Has type ⟨m', w.tables ++ [h']⟩ w.tables.length d' ∧
      d'.strip = dictClone d.strip ∧ ∀ a ∈ d'.addrs, w.memory.fresh ≤ a := by
  obtain ⟨⟨_, hw', hlays⟩, rfl, hsound⟩ := hhas
  cases hw.symm.trans hw'
  obtain ⟨m', h', d', hclone, hlays', hstrip, hmade, hsame⟩ := hlays.dictClone
  have hlt : table < w.tables.length := (List.getElem?_eq_some_iff.mp hw).1
  refine ⟨m', h', d', hclone, ⟨⟨⟨h, ?_, hlays.frame hsame nofun⟩, rfl, hsound⟩,
    hsame.mono nofun, fun _ => Or.inl, fun other _ hother => ⟨?_, ?_⟩⟩, ⟨⟨h', ?_, hlays'⟩, ?_, ?_⟩,
    hstrip, hmade.le⟩
  · rw [List.getElem?_append_left hlt, hw]
  · rw [List.length_append]
    exact Nat.lt_add_right _ hother
  · exact List.getElem?_append_left hother
  · exact List.getElem?_concat_length ..
  · have hkey : d'.strip.keyType = d.keyType := by
      rw [hstrip]
      rfl
    exact hkey
  · rw [← Dict.strip_sound, hstrip]
    exact (Dict.strip_sound.mpr hsound).dictClone hlawful

theorem step [DecidableEq δ] (hhas : w.Has type table d) (hlawful : type.Lawful)
    {op : TableOp κ δ} {answer : TableAnswer κ δ} (htable : op.table = table)
    (hstep : w.step op = some (next, answer)) :
    ∃ d', Tables.Touches type table w d next d' := by
  subst htable
  obtain ⟨h, hw, hturn⟩ := Tables.step_turn hstep
  cases hturn with
  | put hput => exact hhas.put hlawful hw hput
  | lookup hlookup => exact hhas.lookup hlawful hw hlookup
  | contains hlookup => exact hhas.lookup hlawful hw hlookup
  | del hremove => exact hhas.remove hlawful hw (fun _ hequals => hequals) hremove
  | del2 hremove =>
      exact hhas.remove hlawful hw (fun _ hboth => (Bool.and_eq_true_iff.mp hboth).1) hremove
  | clone hclone =>
      obtain ⟨m₁, h₁, d', hcloned, htouches, -⟩ := hhas.clone hlawful hw
      cases hclone.symm.trans hcloned
      exact ⟨d, htouches⟩
  | foreach => exact ⟨d, hhas, .refl _ _, fun _ => Or.inl, fun _ _ hlt => ⟨hlt, rfl⟩⟩

end Tables.Has

theorem Tables.Touches.trans {type : HashType κ} {table : Nat} {w middle next : Tables κ δ}
    {d d' d'' : Dict κ (Addr × δ)} (h : Tables.Touches type table w d middle d')
    (h' : Tables.Touches type table middle d' next d'') :
    Tables.Touches type table w d next d'' where
  has := h'.has
  same := by
    refine ⟨Nat.le_trans h.same.fresh_le h'.same.fresh_le, fun a ha hmem => ?_⟩
    have hmem' : a ∉ d'.addrs := fun hnew =>
      (h.addrs a hnew).elim hmem (Nat.not_le_of_lt ha)
    rw [h'.same.cell_eq a (Nat.lt_of_lt_of_le ha h.same.fresh_le) hmem', h.same.cell_eq a ha hmem]
  addrs a ha := by
    rcases h'.addrs a ha with hold | hnew
    · exact h.addrs a hold
    · exact Or.inr (Nat.le_trans h.same.fresh_le hnew)
  others other hne hlt := by
    obtain ⟨hlt', heq⟩ := h.others other hne hlt
    obtain ⟨hlt'', heq'⟩ := h'.others other hne hlt'
    exact ⟨hlt'', heq'.trans heq⟩

/-- **Using a table.** However often a table is used, nothing else is touched. -/
theorem Tables.Has.run [DecidableEq δ] {type : HashType κ} {w next : Tables κ δ} {table : Nat}
    {d : Dict κ (Addr × δ)} (hhas : w.Has type table d) (hlawful : type.Lawful)
    (hrun : w.UsedOn table next) : ∃ d', Tables.Touches type table w d next d' := by
  induction hrun with
  | refl => exact ⟨d, hhas, .refl _ _, fun _ => Or.inl, fun _ _ hlt => ⟨hlt, rfl⟩⟩
  | step hrun htable hstep ih =>
      obtain ⟨d', htouches⟩ := ih
      obtain ⟨d'', hnext⟩ := htouches.has.step hlawful htable hstep
      exact ⟨d'', htouches.trans hnext⟩

/-! ### What is answered -/

open Classical in
/-- What a lookup answers in a described table; it has no answer when an `int` overflows. -/
theorem Tables.Has.answer_lookup [DecidableEq δ] {type : HashType κ} {w : Tables κ δ} {table : Nat}
    {d : Dict κ (Addr × δ)} (hhas : w.Has type table d) (hlawful : type.Lawful) (key : κ) :
    w.answer (.lookup table key)
      = if d.LookupFits key then some (.lookup (dictLookup d.strip key).2) else none := by
  obtain ⟨⟨h, hw, hlays⟩, rfl, hsound⟩ := hhas
  simp only [Tables.answer, Tables.step, hw, Table.dictLookup, Option.bind_eq_bind, Option.bind_some]
  by_cases hfits : d.LookupFits key
  · obtain ⟨m', h', hlookup, hlays', -⟩ := hlays.dictDoLookup_of_fits hfits
    have hspec := Dict.dictDoLookup_spec hsound hlawful key
    rw [if_pos hfits, hlookup, ← hsound.dictLookup_strip hlawful]
    cases hfound : (dictDoLookup d key).2 with
    | none => rfl
    | some e =>
        have hmem := hspec.rearranged.perm.mem_iff.mpr (hspec.found e hfound).1
        obtain ⟨next, hcell⟩ := hlays'.cell_eq hmem
        simp only [Option.map_some, Option.bind_some, hcell, locate_data]
  · have hnone : Table.dictDoLookup w.memory h key = none := by
      by_contra hsome
      exact hfits (hlays.lookupFits (Option.isSome_iff_ne_none.mpr hsome))
    rw [if_neg hfits, hnone]
    rfl

/-- **A copy and its original.** A table that has been used in any way is copied. A lookup in the
copy answers the same as in the table exactly when the outermost definitions of the key agree, or
just one of the two makes its table grow; both have an answer as long as no `int` overflows. Whatever
is done with the copy then, lookups in the table answer as before. -/
theorem clone_answers_iff [DecidableEq δ] {type : HashType κ} (hlawful : type.Lawful)
    {w : Tables κ δ} (hrun : (Tables.start type 1).UsedOn 0 w) :
    ∃ next d, w.Has type 0 d ∧ w.step (.clone 0) = some (next, .clone) ∧
      (∀ key data data', next.answer (.lookup 0 key) = some (.lookup data) →
        next.answer (.lookup w.tables.length key) = some (.lookup data') →
        (data' = data ↔ d.strip.CopyAgrees key)) ∧
      (d.num < 2 ^ 28 → d.hashsize ≤ 3 * 2 ^ 28 + 1 → ∀ key,
        (next.answer (.lookup 0 key)).isSome ∧
          (next.answer (.lookup w.tables.length key)).isSome) ∧
      ∀ later, next.UsedOn w.tables.length later → ∀ key,
        later.answer (.lookup 0 key) = next.answer (.lookup 0 key) := by
  obtain ⟨d, hstart⟩ := (Tables.Has.start type).run hlawful hrun
  have hhas : w.Has type 0 d := hstart.has
  obtain ⟨h, hw, hlays⟩ := hhas.lays
  obtain ⟨m', h', d', hclone, htouches, hcopy, hstrip, hfresh⟩ := hhas.clone hlawful hw
  have hlt : 0 < w.tables.length := (List.getElem?_eq_some_iff.mp hw).1
  refine ⟨⟨m', w.tables ++ [h']⟩, d, hhas, ?_, fun key data data' hdata hdata' => ?_,
    fun hnum hsize key => ⟨?_, ?_⟩, fun later hlater key => ?_⟩
  · simp only [Tables.step, hw, hclone, Option.bind_eq_bind, Option.bind_some]
  · rw [htouches.has.answer_lookup hlawful] at hdata
    rw [hcopy.answer_lookup hlawful, hstrip] at hdata'
    split at hdata
    · split at hdata'
      · cases hdata
        cases hdata'
        have hsound := Dict.strip_sound.mpr hhas.sound
        apply hsound.dictLookup_dictClone
        rw [show d.strip.keyType = type from hhas.keyType_eq]
        exact hlawful
      · cases hdata'
    · cases hdata
  · rw [htouches.has.answer_lookup hlawful, if_pos (Dict.lookupFits_of_lt hnum hsize key)]
    rfl
  · have hnum' : d'.num = d.num := by
      have hcount : d'.strip.num = d.num := by rw [hstrip]; rfl
      exact hcount
    have hsize' : d'.hashsize = d.hashsize := by
      rw [← Dict.strip_hashsize, hstrip, dictClone_hashsize, Dict.strip_hashsize]
    rw [hcopy.answer_lookup hlawful,
      if_pos (Dict.lookupFits_of_lt (hnum'.trans_lt hnum) (hsize'.trans_le hsize) key)]
    rfl
  · obtain ⟨d'', hused⟩ := hcopy.run hlawful hlater
    obtain ⟨h₀, hw₀, hlays₀⟩ := htouches.has.lays
    have hkept : later.Has type 0 d := by
      refine ⟨⟨h₀, ?_, hlays₀.frame hused.same fun a ha hmem => ?_⟩, hhas.keyType_eq, hhas.sound⟩
      · rw [(hused.others 0 hlt.ne (by simp)).2, hw₀]
      · exact Nat.lt_irrefl _ (Nat.lt_of_lt_of_le (hlays.addrs_lt ha) (hfresh a hmem))
    rw [hkept.answer_lookup hlawful, htouches.has.answer_lookup hlawful]

def Tables.use [DecidableEq δ] (w : Tables κ δ) : List (TableOp κ δ) → Option (Tables κ δ)
  | [] => some w
  | op :: ops => do
      let (next, _) ← w.step op
      next.use ops

theorem Tables.UsedOn.of_use [DecidableEq δ] {w middle next : Tables κ δ} {table : Nat}
    {ops : List (TableOp κ δ)} (hrun : w.UsedOn table middle)
    (htable : ∀ op ∈ ops, op.table = table) (huse : middle.use ops = some next) :
    w.UsedOn table next := by
  induction ops generalizing middle with
  | nil =>
      cases huse
      exact hrun
  | cons op ops ih =>
      obtain ⟨⟨after, answer⟩, hstep, hrest⟩ := Option.bind_eq_some_iff.mp huse
      obtain ⟨hop, hops⟩ := List.forall_mem_cons.mp htable
      exact ih (hrun.step hop hstep) hops hrest

/-- Two definitions of `f` and one of `g`, and a lookup that makes the table grow. -/
def redefinedOps : List (TableOp (Option CString) Nat) :=
  [.put 0 (some (.lit "f")) 1, .put 0 (some (.lit "f")) 2, .put 0 (some (.lit "g")) 3,
    .lookup 0 (some (.lit "f"))]

theorem clone_answers_iff_redefined :
    ∃ (w next : Tables (Option CString) Nat) (d : Dict (Option CString) (Addr × Nat)),
      (Tables.start charptrType 1).use redefinedOps = some w ∧ w.Has charptrType 0 d ∧
      w.step (.clone 0) = some (next, .clone) ∧
      (∀ key data data', next.answer (.lookup 0 key) = some (.lookup data) →
        next.answer (.lookup w.tables.length key) = some (.lookup data') →
        (data' = data ↔ d.strip.CopyAgrees key)) ∧
      ∀ later, next.UsedOn w.tables.length later → ∀ key,
        later.answer (.lookup 0 key) = next.answer (.lookup 0 key) := by
  have huse : ((Tables.start charptrType 1 : Tables (Option CString) Nat).use redefinedOps).isSome :=
    by decide +kernel
  obtain ⟨w, hw⟩ := Option.isSome_iff_exists.mp huse
  have hrun : (Tables.start charptrType 1).UsedOn 0 w :=
    Tables.UsedOn.refl.of_use (by simp [redefinedOps, TableOp.table]) hw
  obtain ⟨next, d, hhas, hstep, hagree, -, hlater⟩ := clone_answers_iff charptrType_lawful hrun
  exact ⟨w, next, d, hw, hhas, hstep, hagree, hlater⟩

/-- What a table and its copy find under a key, after some operations on the table. -/
def copiedAnswers (ops : List (TableOp (Option CString) Nat)) (key : Option CString) :
    Option (Option (TableAnswer (Option CString) Nat) × Option (TableAnswer (Option CString) Nat)) :=
  do
    let w ← (Tables.start charptrType 1).use ops
    let (next, _) ← w.step (.clone 0)
    some (next.answer (.lookup 0 key), next.answer (.lookup w.tables.length key))

/-- `f` has been defined twice; its copy finds the first definition. -/
theorem clone_finds_older :
    ¬∀ (w next : Tables (Option CString) Nat), (Tables.start charptrType 1).UsedOn 0 w →
      w.step (.clone 0) = some (next, .clone) → ∀ key,
        next.answer (.lookup w.tables.length key) = next.answer (.lookup 0 key) := by
  intro h
  have hanswers : copiedAnswers [.put 0 (some (.lit "f")) 1, .put 0 (some (.lit "f")) 2]
      (some (.lit "f")) = some (some (.lookup (some 2)), some (.lookup (some 1))) := by
    decide +kernel
  rw [copiedAnswers] at hanswers
  obtain ⟨w, hw, hrest⟩ := Option.bind_eq_some_iff.mp hanswers
  obtain ⟨⟨next, answer⟩, hstep, hresult⟩ := Option.bind_eq_some_iff.mp hrest
  have hrun : (Tables.start charptrType 1).UsedOn 0 w :=
    Tables.UsedOn.refl.of_use (by simp [TableOp.table]) hw
  have hclone : answer = .clone := by
    obtain ⟨_, -, hcloned⟩ := Option.bind_eq_some_iff.mp hstep
    obtain ⟨_, -, hcloned⟩ := Option.bind_eq_some_iff.mp hcloned
    cases hcloned
    rfl
  obtain ⟨hfound, holder⟩ := Prod.mk.inj (Option.some.inj hresult)
  rw [hclone] at hstep
  have hsame := h w next hrun hstep (some (.lit "f"))
  rw [hfound, holder] at hsame
  cases hsame

end CageKeeper
