import CageKeeper.DictDelete

/-! Definitions that shadow each other. `dict_put` puts a new entry in front of older ones with an
equal key, so that the table should behave as a log in which the latest definition of a key is found
and deleted first. Moving a match to the front keeps the order of equal keys; growing the table turns
the chains around. -/

namespace CageKeeper

variable {κ δ : Type}

/-! ### The log -/

inductive DictOp (κ δ : Type) where
  | put (key : κ) (data : δ)
  | lookup (key : κ)
  | contains (key : κ)
  | del (key : κ)

inductive DictAnswer (δ : Type) where
  | put
  | lookup (data : Option δ)
  | contains (found : Bool)
  | del (done : Bool)
  deriving DecidableEq

/-- The definitions that are not deleted, the latest first. -/
abbrev DefinitionLog (κ δ : Type) := List (κ × δ)

section Log

variable (equals : κ → κ → Bool)

/-- One operation on a log: the latest definition of a key is the one that counts. -/
def logStep (log : DefinitionLog κ δ) : DictOp κ δ → DefinitionLog κ δ × DictAnswer δ
  | .put key data => ((key, data) :: log, .put)
  | .lookup key => (log, .lookup ((log.find? (equals ·.1 key)).map Prod.snd))
  | .contains key => (log, .contains (log.any (equals ·.1 key)))
  | .del key => (log.eraseP (equals ·.1 key), .del (log.any (equals ·.1 key)))

/-- The answers of a log to some operations. -/
def logAnswers : DefinitionLog κ δ → List (DictOp κ δ) → List (DictAnswer δ)
  | _, [] => []
  | log, op :: ops => (logStep equals log op).2 :: logAnswers (logStep equals log op).1 ops

def NoDuplicates (log : DefinitionLog κ δ) : Prop :=
  log.Pairwise fun left right => ¬equals left.1 right.1

instance (log : DefinitionLog κ δ) : Decidable (NoDuplicates equals log) :=
  inferInstanceAs (Decidable (log.Pairwise fun left right => ¬equals left.1 right.1))

end Log

/-- Whether `dict_do_lookup` makes the table grow. -/
def Dict.grows (h : Dict κ δ) (key : κ) : Bool :=
  h.num ≠ 0 &&
    match chain h.slots (slotIndex (h.keyType.hash key) h.hashsize) with
    | first :: _ :: _ => !h.keyType.equals first.key key && h.num * 3 ≥ h.hashsize * 2
    | _ => false

/-! ### Entries with equal keys -/

/-- The entries with a matching key, in the order of their chain. -/
def Dict.matching (h : Dict κ δ) (key : κ) : List (Entry κ δ) :=
  h.entries.filter (h.keyType.equals ·.key key)

theorem filter_flatten_eq {slots : List (List (Entry κ δ))} {p : Entry κ δ → Bool} {index : Nat}
    (h : ∀ other, other ≠ index → ∀ e ∈ chain slots other, ¬p e) :
    slots.flatten.filter p = (chain slots index).filter p := by
  induction slots generalizing index with
  | nil => simp [chain]
  | cons first slots ih =>
      rw [List.flatten_cons, List.filter_append]
      cases index with
      | zero =>
          have hrest : slots.flatten.filter p = [] := by
            rw [List.filter_eq_nil_iff]
            intro e he
            obtain ⟨other, hother⟩ := mem_flatten_iff_mem_chain.mp he
            exact h (other + 1) (Nat.succ_ne_zero other) e (by simpa [chain] using hother)
          rw [hrest, List.append_nil]
          rfl
      | succ index =>
          have hfirst : first.filter p = [] := by
            rw [List.filter_eq_nil_iff]
            exact fun e he => h 0 (Nat.succ_ne_zero index).symm e (by simpa [chain] using he)
          have hrest : slots.flatten.filter p = (chain slots index).filter p :=
            ih fun other hother e he =>
              h (other + 1) (fun heq => hother (Nat.succ.inj heq)) e (by simpa [chain] using he)
          rw [hfirst, List.nil_append, hrest]
          rfl

theorem Dict.Sound.matching_eq {h : Dict κ δ} (hsound : h.Sound) (hlawful : h.keyType.Lawful)
    (key : κ) : h.matching key
      = (chain h.slots (slotIndex (h.keyType.hash key) h.hashsize)).filter
          (h.keyType.equals ·.key key) := by
  refine filter_flatten_eq fun other hother e he hequals => hother ?_
  have hmem : e ∈ h.entries := mem_entries_of_chain he
  rw [← hsound.slot other e he, hsound.hash_eq e hmem, hlawful.hash_eq hequals]

section Lists

variable {α : Type}

theorem filter_eraseP_self (p : α → Bool) (list : List α) :
    (list.eraseP p).filter p = (list.filter p).tail := by
  induction list with
  | nil => rfl
  | cons a list ih =>
      by_cases ha : p a = true
      · rw [List.eraseP_cons_of_pos ha, List.filter_cons_of_pos ha, List.tail_cons]
      · rw [List.eraseP_cons_of_neg ha, List.filter_cons_of_neg ha, List.filter_cons_of_neg ha, ih]

theorem filter_eraseP_of_disjoint {p q : α → Bool} (h : ∀ a, p a → ¬q a) (list : List α) :
    (list.eraseP p).filter q = list.filter q := by
  induction list with
  | nil => rfl
  | cons a list ih =>
      by_cases ha : p a = true
      · rw [List.eraseP_cons_of_pos ha, List.filter_cons_of_neg (h a ha)]
      · rw [List.eraseP_cons_of_neg ha, List.filter_cons, List.filter_cons, ih]

theorem eq_of_perm_of_length_le_one {left right : List α} (h : left.Perm right)
    (hlength : right.length ≤ 1) : left = right := by
  match right, hlength with
  | [], _ => exact List.perm_nil.mp h
  | [a], _ => exact List.perm_singleton.mp h

end Lists

theorem HashType.Lawful.equals_congr {type : HashType κ} (hlawful : type.Lawful) {left right : κ}
    (hequals : type.equals left right) (key : κ) :
    type.equals key left = type.equals key right := by
  rw [Bool.eq_iff_iff]
  exact ⟨fun h => hlawful.trans h hequals, fun h => hlawful.trans h (hlawful.symm hequals)⟩

theorem filter_eraseP_equals {α : Type} {type : HashType κ} (hlawful : type.Lawful) (keyOf : α → κ)
    (list : List α) (key other : κ) :
    (list.eraseP fun a => type.equals (keyOf a) key).filter (fun a => type.equals (keyOf a) other)
      = if type.equals key other then (list.filter fun a => type.equals (keyOf a) other).tail
        else list.filter fun a => type.equals (keyOf a) other := by
  by_cases hequals : type.equals key other = true
  · have hfun : (fun a => type.equals (keyOf a) key) = fun a => type.equals (keyOf a) other := by
      funext a
      exact hlawful.equals_congr hequals (keyOf a)
    rw [if_pos hequals, hfun, filter_eraseP_self]
  · rw [if_neg hequals]
    exact filter_eraseP_of_disjoint
      (fun a hkey hother => hequals (hlawful.trans (hlawful.symm hkey) hother)) list

theorem takeMatch_eq (equals : κ → Bool) (next : List (Entry κ δ)) :
    takeMatch equals next
      = (next.find? (equals ·.key)).map fun e => (e, next.eraseP (equals ·.key)) := by
  induction next with
  | nil => rfl
  | cons first next ih =>
      rw [takeMatch, List.find?_cons, List.eraseP_cons]
      cases equals first.key with
      | true => rfl
      | false =>
          rw [if_neg Bool.false_ne_true, ih, Option.map_map]
          rfl

namespace Dict

/-- A match moved to the front stays the first of its kind, and the others keep their order. -/
theorem filter_moveToFront {type : HashType κ} (hlawful : type.Lawful) {key : κ}
    {slot : List (Entry κ δ)} {e : Entry κ δ}
    (he : slot.find? (type.equals ·.key key) = some e) (other : κ) :
    (e :: slot.eraseP (type.equals ·.key key)).filter (type.equals ·.key other)
      = slot.filter (type.equals ·.key other) := by
  have hmatch : type.equals e.key key := by simpa using List.find?_some he
  rw [List.filter_cons, filter_eraseP_equals hlawful Entry.key]
  by_cases hequals : type.equals key other = true
  · have hsame : (fun entry : Entry κ δ => type.equals entry.key key)
        = fun entry => type.equals entry.key other := by
      funext entry
      exact hlawful.equals_congr hequals entry.key
    rw [if_pos (hlawful.trans hmatch hequals), if_pos hequals]
    rw [hsame, ← List.head?_filter] at he
    exact List.cons_head?_tail he
  · rw [if_neg hequals, if_neg]
    exact fun hother => hequals (hlawful.trans (hlawful.symm hmatch) hother)

def OneEach (h : Dict κ δ) : Prop := ∀ key, (h.matching key).length ≤ 1

/-- What a lookup finds, and that it keeps entries with equal keys in order. -/
structure OrderSpec (h : Dict κ δ) (key : κ) (result : Dict κ δ × Option (Entry κ δ)) : Prop where
  first : result.2 = (h.matching key).head?
  order : ∀ other, result.1.matching other = h.matching other

theorem LookupSpec.orderSpec {h : Dict κ δ} {key : κ} {result : Dict κ δ × Option (Entry κ δ)}
    (hspec : LookupSpec h key result) (hone : h.OneEach) :
    OrderSpec h key result := by
  constructor
  · cases hresult : result.2 with
    | none =>
        have hnil : h.matching key = [] := List.filter_eq_nil_iff.mpr (hspec.absent hresult)
        rw [hnil]
        rfl
    | some e =>
        obtain ⟨hmem, hequals⟩ := hspec.found e hresult
        have hmatching : e ∈ h.matching key := List.mem_filter.mpr ⟨hmem, hequals⟩
        have hlength := hone key
        match hlist : h.matching key with
        | [] =>
            rw [hlist] at hmatching
            cases hmatching
        | [found] =>
            rw [hlist, List.mem_singleton] at hmatching
            rw [hmatching]
            rfl
        | _ :: _ :: _ =>
            rw [hlist] at hlength
            simp at hlength
  · intro other
    have hperm := hspec.rearranged.perm.filter (h.keyType.equals ·.key other)
    have heq := eq_of_perm_of_length_le_one hperm (hone other)
    rw [matching, hspec.rearranged.keyType_eq]
    exact heq

theorem searchChain_order {h : Dict κ δ} (hsound : h.Sound) (hlawful : h.keyType.Lawful) {key : κ}
    {first : Entry κ δ} {next : List (Entry κ δ)}
    (hchain : chain h.slots (slotIndex (h.keyType.hash key) h.hashsize) = first :: next)
    (hfirst : ¬h.keyType.equals first.key key) :
    OrderSpec h key
      (searchChain h (slotIndex (h.keyType.hash key) h.hashsize) key first next) := by
  have hspec := searchChain_spec hsound hlawful hchain hfirst
  have hfind : (first :: next).find? (h.keyType.equals ·.key key)
      = next.find? (h.keyType.equals ·.key key) := by
    rw [List.find?_cons, Bool.eq_false_iff.mpr hfirst]
  have hhead : (h.matching key).head? = next.find? (h.keyType.equals ·.key key) := by
    rw [hsound.matching_eq hlawful, hchain, List.head?_filter, hfind]
  rw [searchChain, takeMatch_eq] at hspec ⊢
  cases hfound : next.find? (h.keyType.equals ·.key key) with
  | none => exact ⟨by rw [hhead, hfound]; rfl, fun _ => rfl⟩
  | some e =>
      rw [hfound] at hspec
      refine ⟨by rw [hhead, hfound]; rfl, fun other => ?_⟩
      have hindex : slotIndex (h.keyType.hash key) h.hashsize < h.slots.length :=
        lt_length_of_mem_chain (by rw [hchain]; exact List.mem_cons_self ..)
      have hmoved := filter_moveToFront hlawful (hfind.trans hfound) other
      rw [List.eraseP_cons, Bool.eq_false_iff.mpr hfirst, cond_false] at hmoved
      have hnew := hspec.rearranged.sound.matching_eq hlawful other
      simp only [Option.map_some, hashsize, List.length_set] at hnew ⊢
      rw [hnew, hsound.matching_eq hlawful, chain_set (by exact hindex)]
      split
      · rename_i hsame
        rw [hmoved, ← hchain]
        exact congrArg (fun index => (chain h.slots index).filter _) hsame
      · rfl

/-- **Lookup and order.** A lookup that does not make a table with duplicates grow finds the first
of the entries that match and keeps their order. -/
theorem dictDoLookup_order {h : Dict κ δ} (hsound : h.Sound) (hlawful : h.keyType.Lawful)
    (key : κ) (hkeeps : h.grows key → h.OneEach) : OrderSpec h key (dictDoLookup h key) := by
  by_cases hgrows : h.grows key = true
  · exact (dictDoLookup_spec hsound hlawful key).orderSpec (hkeeps hgrows)
  rw [dictDoLookup]
  split
  · rename_i hnum
    rw [hsound.num_eq, List.length_eq_zero_iff] at hnum
    refine ⟨?_, fun _ => rfl⟩
    rw [matching, hnum]
    rfl
  rename_i hnum
  simp only
  have hmatching := hsound.matching_eq hlawful key
  cases hchain : chain h.slots (slotIndex (h.keyType.hash key) h.hashsize) with
  | nil =>
      refine ⟨?_, fun _ => rfl⟩
      rw [hmatching, hchain]
      rfl
  | cons first next =>
      simp only
      by_cases hfirst : h.keyType.equals first.key key = true
      · rw [if_pos hfirst]
        refine ⟨?_, fun _ => rfl⟩
        rw [hmatching, hchain, List.filter_cons, if_pos hfirst]
        rfl
      have hsmall : ¬(next ≠ [] ∧ h.num * 3 ≥ h.hashsize * 2) := by
        rintro ⟨hnext, hfull⟩
        obtain ⟨second, rest, rfl⟩ := List.exists_cons_of_ne_nil hnext
        apply hgrows
        simp [grows, hchain, hnum, hfirst, hfull]
      rw [if_neg hfirst, if_neg hsmall]
      exact searchChain_order hsound hlawful hchain hfirst

end Dict

theorem NoDuplicates.filter_length_le {type : HashType κ} {log : DefinitionLog κ δ}
    (h : NoDuplicates type.equals log) (hlawful : type.Lawful) (key : κ) :
    (log.filter (type.equals ·.1 key)).length ≤ 1 := by
  have hpairwise : (log.filter (type.equals ·.1 key)).Pairwise
      fun left right => ¬type.equals left.1 right.1 := List.Pairwise.filter _ h
  match hlist : log.filter (type.equals ·.1 key) with
  | [] => simp [hlist]
  | [pair] => simp [hlist]
  | first :: second :: rest =>
      rw [hlist] at hpairwise
      have hequals : ∀ pair ∈ log.filter (type.equals ·.1 key), type.equals pair.1 key :=
        fun pair hmem => (List.mem_filter.mp hmem).2
      have hequal := hlawful.trans (hequals first (by simp [hlist]))
        (hlawful.symm (hequals second (by simp [hlist])))
      exact absurd hequal ((List.pairwise_cons.mp hpairwise).1 second (List.mem_cons_self ..))

/-! ### A table that follows a log -/

namespace Dict

variable {ε : Type}

/-- For every key the table has the data of the log, the latest first. -/
structure Follows (type : HashType κ) (dataOf : ε → δ) (h : Dict κ ε) (log : DefinitionLog κ δ) :
    Prop where
  keyType_eq : h.keyType = type
  sound : h.Sound
  data_eq : ∀ key, (h.matching key).map (fun e => dataOf e.data)
    = (log.filter (type.equals ·.1 key)).map Prod.snd

namespace Follows

variable {type : HashType κ} {dataOf : ε → δ} {h : Dict κ ε} {log : DefinitionLog κ δ}

theorem start (type : HashType κ) (dataOf : ε → δ) :
    Follows type dataOf (dictNew type : Dict κ ε) [] where
  keyType_eq := rfl
  sound := dictNew_sound type
  data_eq _ := rfl

theorem oneEach (hfollows : Follows type dataOf h log) (hlawful : type.Lawful)
    (hlog : NoDuplicates type.equals log) : h.OneEach := by
  intro key
  have hlength := congrArg List.length (hfollows.data_eq key)
  rw [List.length_map, List.length_map] at hlength
  rw [hlength]
  exact hlog.filter_length_le hlawful key

theorem lookup (hfollows : Follows type dataOf h log) (hlawful : type.Lawful) {key : κ}
    (hkeeps : h.grows key → NoDuplicates type.equals log) :
    Follows type dataOf (dictDoLookup h key).1 log ∧
      (dictDoLookup h key).2.map (fun e => dataOf e.data)
        = (log.find? (type.equals ·.1 key)).map Prod.snd := by
  have hone := fun hgrows => hfollows.oneEach hlawful (hkeeps hgrows)
  obtain ⟨rfl, hsound, hdata⟩ := hfollows
  have hspec := (dictDoLookup_spec hsound hlawful key).rearranged
  obtain ⟨hfirst, horder⟩ := dictDoLookup_order hsound hlawful key hone
  refine ⟨⟨hspec.keyType_eq, hspec.sound, fun other => ?_⟩, ?_⟩
  · rw [horder other]
    exact hdata other
  · rw [hfirst, ← List.head?_map, hdata key, List.head?_map, List.head?_filter]

theorem matching_dictPut (hsound : h.Sound) (hlawful : h.keyType.Lawful) (key : κ) (data : ε)
    (other : κ) :
    (dictPut h key data).matching other
      = if h.keyType.equals key other then ⟨h.keyType.dup key, h.keyType.hash key, data⟩ ::
          h.matching other else h.matching other := by
  obtain ⟨hput, hkey, -⟩ := hsound.dictPut hlawful key data
  obtain ⟨grown, ⟨hgrownKey, hperm, hgrownSound⟩, hpos, hgrown, heq⟩ := hsound.dictPut_eq key data
  have hmatching : grown.matching other = h.matching other := by
    rcases hgrown with rfl | hnone
    · rfl
    · rw [hnone, List.perm_nil] at hperm
      rw [matching, matching, hperm, hnone]
      rfl
  have hold := hgrownSound.matching_eq (hgrownKey ▸ hlawful) other
  have hnew := hput.matching_eq (hkey ▸ hlawful) other
  rw [hgrownKey, hmatching] at hold
  have hindex : slotIndex (h.keyType.hash key) grown.hashsize < grown.slots.length :=
    Nat.mod_lt _ hpos
  have hslots : (dictPut h key data).slots
      = pushFront grown.slots (slotIndex (h.keyType.hash key) grown.hashsize)
          ⟨h.keyType.dup key, h.keyType.hash key, data⟩ := by
    rw [heq]
  have hsize : (dictPut h key data).hashsize = grown.hashsize := by
    rw [hashsize, hslots, pushFront_length]
    rfl
  rw [hkey, hsize, hslots, chain_pushFront hindex] at hnew
  have hdup : h.keyType.equals (h.keyType.dup key) other = h.keyType.equals key other := by
    rw [Bool.eq_iff_iff]
    exact ⟨hlawful.trans (hlawful.symm (hlawful.dup_equals key)),
      hlawful.trans (hlawful.dup_equals key)⟩
  rw [hnew, hold]
  by_cases hequals : h.keyType.equals key other = true
  · rw [if_pos hequals, if_pos (by rw [hlawful.hash_eq hequals]), List.filter_cons,
      if_pos (hdup.trans hequals)]
  · rw [if_neg hequals]
    split
    · rw [List.filter_cons, if_neg (hdup ▸ hequals)]
    · rfl

theorem put (hfollows : Follows type dataOf h log) (hlawful : type.Lawful) (key : κ) (data : ε) :
    Follows type dataOf (dictPut h key data) ((key, dataOf data) :: log) := by
  obtain ⟨rfl, hsound, hdata⟩ := hfollows
  obtain ⟨hput, hkey, -⟩ := hsound.dictPut hlawful key data
  refine ⟨hkey, hput, fun other => ?_⟩
  rw [matching_dictPut hsound hlawful, List.filter_cons]
  split
  · rw [List.map_cons, List.map_cons, hdata other]
  · exact hdata other

theorem matching_dictDel (hsound : h.Sound) (hlawful : h.keyType.Lawful) (key other : κ) :
    (dictDel h key).1.matching other
      = if h.keyType.equals key other then (h.matching other).tail else h.matching other := by
  have hspec := dictDel_spec hsound hlawful key
  have hsame : (dictDel h key).1.keyType.Lawful := by
    rw [dictDel, dictRemove_keyType]
    exact hlawful
  have hnew := hspec.sound.matching_eq hsame other
  rw [dictDel, dictRemove_keyType, dictRemove_hashsize, hsound.dictRemove_chain] at hnew
  rw [dictDel, hnew, hsound.matching_eq hlawful]
  split
  · exact filter_eraseP_equals hlawful Entry.key _ key other
  · rename_i hindex
    rw [if_neg fun hequals => hindex (by rw [hlawful.hash_eq hequals])]

theorem dictDel_answer (hsound : h.Sound) (hlawful : h.keyType.Lawful) (key : κ) :
    (dictDel h key).2 = (h.matching key).head?.isSome := by
  have hspec := dictDel_spec hsound hlawful key
  cases hdone : (dictDel h key).2 with
  | false =>
      have hnil : h.matching key = [] := List.filter_eq_nil_iff.mpr (hspec.kept hdone).2
      rw [hnil]
      rfl
  | true =>
      obtain ⟨e, hmatch, hperm⟩ := hspec.removed hdone
      have hmem : e ∈ h.matching key :=
        List.mem_filter.mpr ⟨hperm.mem_iff.mpr (List.mem_cons_self ..), hmatch⟩
      exact (List.isSome_head?.mpr (List.ne_nil_of_mem hmem)).symm

theorem del (hfollows : Follows type dataOf h log) (hlawful : type.Lawful) (key : κ) :
    Follows type dataOf (dictDel h key).1 (log.eraseP (type.equals ·.1 key)) ∧
      (dictDel h key).2 = log.any (type.equals ·.1 key) := by
  obtain ⟨rfl, hsound, hdata⟩ := hfollows
  have hspec := dictDel_spec hsound hlawful key
  refine ⟨⟨hspec.keyType_eq, hspec.sound, fun other => ?_⟩, ?_⟩
  · rw [matching_dictDel hsound hlawful, filter_eraseP_equals hlawful]
    split
    · rw [List.map_tail, List.map_tail, hdata other]
    · exact hdata other
  · rw [dictDel_answer hsound hlawful, ← Option.isSome_map, ← List.head?_map, hdata key,
      List.head?_map, Option.isSome_map, List.head?_filter, List.isSome_find?]

end Follows

end Dict

end CageKeeper
