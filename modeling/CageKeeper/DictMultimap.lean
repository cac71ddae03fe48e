import CageKeeper.DictCopies
import CageKeeper.DictSystem

/-! Hash tables answer as multimaps do. Any number of tables in one memory, each made by `dict_init2`
or as a copy of another, keep the pairs that were put into them, however lookups have grown and
rearranged them. -/

namespace CageKeeper
open LinkedCells

variable {κ δ : Type}

/-! ### One operation -/

theorem Dict.pairs_eq_strip (d : Dict κ (Addr × δ)) :
    d.pairs = (d.strip.entries.map fun e => (e.key, e.data) : List (κ × δ)) := by
  rw [Dict.strip_entries, List.map_map]
  rfl

theorem pairs_eq_of_perm {d d' : Dict κ (Addr × δ)} (hperm : d'.entries.Perm d.entries) :
    d'.pairs = d.pairs :=
  Multiset.coe_eq_coe.mpr (hperm.map _)

theorem mem_pairs {d : Dict κ (Addr × δ)} {pair : κ × δ} :
    pair ∈ d.pairs ↔ ∃ e ∈ d.entries, (e.key, e.data.2) = pair := by
  rw [Dict.pairs, Multiset.mem_coe, List.mem_map]

theorem set_eq_self {α : Type} {list : List α} {index : Nat} {a : α}
    (h : list[index]? = some a) : list.set index a = list := by
  obtain ⟨hlt, rfl⟩ := List.getElem?_eq_some_iff.mp h
  exact List.set_getElem_self hlt

theorem map_pairs_set {views : List (Dict κ (Addr × δ))} {table : Nat} {d d' : Dict κ (Addr × δ)}
    (hd : views[table]? = some d) (hpairs : d'.pairs = d.pairs) :
    (views.set table d').map Dict.pairs = views.map Dict.pairs := by
  rw [List.map_set, hpairs, set_eq_self]
  rw [List.getElem?_map, hd]
  rfl

@[simp] theorem dictPut_num (d : Dict κ δ) (key : κ) (data : δ) :
    (dictPut d key data).num = d.num + 1 := by
  rw [dictPut]
  split <;> rfl

theorem dictPut_hashsize_le {d : Dict κ δ} (hsize : d.hashsize ≤ 3 * 2 ^ 28 + 1) (key : κ)
    (data : δ) : (dictPut d key data).hashsize ≤ 3 * 2 ^ 28 + 1 := by
  rw [dictPut]
  split
  · rw [Dict.hashsize, pushFront_length, ← Dict.hashsize, Dict.dictExpand_hashsize]
    omega
  · rw [Dict.hashsize, pushFront_length]
    exact hsize

theorem dictDoLookup_hashsize_le {d : Dict κ δ} (hnum : d.num < 2 ^ 28)
    (hsize : d.hashsize ≤ 3 * 2 ^ 28 + 1) (key : κ) :
    (dictDoLookup d key).1.hashsize ≤ 3 * 2 ^ 28 + 1 := by
  have hsearch : ∀ (d : Dict κ δ) (hash : Nat) (first : Entry κ δ) (next : List (Entry κ δ)),
      (searchChain d hash key first next).1.hashsize = d.hashsize := by
    intro d hash first next
    rw [searchChain]
    split
    · rfl
    · exact List.length_set
  have hgrown := le_newSizeLoop d.num (d.num * 2 + 1) d.hashsize hsize hnum
  simp only [dictDoLookup]
  split
  · exact hsize
  split
  · exact hsize
  split
  · exact hsize
  split
  · split
    · rw [Dict.dictExpand_hashsize]
      exact hgrown
    · split
      · rw [Dict.dictExpand_hashsize]
        exact hgrown
      · rw [hsearch, Dict.dictExpand_hashsize]
        exact hgrown
  · rw [hsearch]
    exact hsize

namespace Described

variable {type : HashType κ} {w : Tables κ δ} {views : List (Dict κ (Addr × δ))} {table : Nat}
  {h : Table κ} {d : Dict κ (Addr × δ)}

/-- A lookup finds a live entry and changes no pair. -/
theorem lookup (hdescribed : Described type w views) (hlawful : type.Lawful)
    (hh : w.tables[table]? = some h) (key : κ) :
    ∃ m' h' d d' found, Table.dictDoLookup w.memory h key
        = some (m', h', found.map fun e => (locate e).1) ∧
      Described type (w.update table m' h') (views.set table d') ∧ views[table]? = some d ∧
      Lays m' h' d' ∧ d'.entries.Perm d.entries ∧
      (∀ e, found = some e → e ∈ d.entries ∧ type.equals e.key key) ∧
      (found = none → ∀ e ∈ d.entries, ¬type.equals e.key key) := by
  obtain ⟨d, hd, hlays, rfl, hsound, hnum, hsize⟩ := hdescribed.get hh
  obtain ⟨m', h', hlookup, hlays', hsame⟩ := hlays.dictDoLookup hnum hsize key
  obtain ⟨⟨hkey, hperm, hsound'⟩, hfound, habsent⟩ := Dict.dictDoLookup_spec hsound hlawful key
  have hnum' : (dictDoLookup d key).1.num < 2 ^ 28 := by
    rw [hsound'.num_eq, hperm.length_eq, ← hsound.num_eq]
    exact hnum
  refine ⟨m', h', d, _, _, hlookup, ?_, hd, hlays', hperm, hfound, habsent⟩
  exact hdescribed.update hd
    ⟨hlays', hkey, hsound', hnum', dictDoLookup_hashsize_le hnum hsize key⟩ hsame
    fun a ha => Or.inl ((Dict.addrs_perm hperm).mem_iff.mp ha)

/-- A deletion takes away one match, if there is one. -/
theorem remove (hdescribed : Described type w views) (hlawful : type.Lawful)
    (hh : w.tables[table]? = some h) (key : κ) (isMatch : Entry κ δ → Bool)
    (hmatch : ∀ e, isMatch e → type.equals e.key key) :
    ∃ m' h' d d' done, Table.dictRemove w.memory h key isMatch = some (m', h', done) ∧
      Described type (w.update table m' h') (views.set table d') ∧ views[table]? = some d ∧
      (done = true → ∃ e, isMatch (locate e).2 ∧ d.entries.Perm (e :: d'.entries)) ∧
      (done = false → d' = d ∧ ∀ e ∈ d.entries, ¬isMatch (locate e).2) := by
  obtain ⟨d, hd, hlays, rfl, hsound, hnum, hsize⟩ := hdescribed.get hh
  obtain ⟨m', h', hremove, hlays', hsame⟩ := hlays.dictRemove key isMatch
  have hmatch' : ∀ e : Entry κ (Addr × δ), isMatch (locate e).2 → d.keyType.equals e.key key :=
    fun e => hmatch (locate e).2
  have hspec := Dict.dictRemove_spec hsound hlawful key hmatch'
  obtain ⟨gone, hgone⟩ := hspec.perm_append
  obtain ⟨hkey, hsound', hremoved, hkept⟩ := hspec
  refine ⟨m', h', d, _, _, hremove, ?_, hd, hremoved, hkept⟩
  refine hdescribed.update hd ⟨hlays', hkey, hsound', ?_, ?_⟩ hsame fun a ha => Or.inl ?_
  · rw [hsound'.num_eq]
    rw [hsound.num_eq, hgone.length_eq, List.length_append] at hnum
    omega
  · rw [Dict.dictRemove_hashsize]
    exact hsize
  · apply (addresses_perm hgone).mem_iff.mpr
    rw [addresses_append]
    exact List.mem_append_right _ ha

theorem keyType_eq (hdescribed : Described type w views) (hh : w.tables[table]? = some h) :
    h.keyType = type := by
  obtain ⟨d, -, hlays, hkey, -⟩ := hdescribed.get hh
  exact hlays.keyType_eq.trans hkey

theorem map_pairs (hd : views[table]? = some d) :
    (views.map Dict.pairs)[table]? = some d.pairs := by
  rw [List.getElem?_map, hd]
  rfl

end Described

/-- The operation has an answer, and multimaps may answer the same. -/
def Tables.Answers [DecidableEq δ] (w : Tables κ δ) (type : HashType κ)
    (views : List (Dict κ (Addr × δ))) (op : TableOp κ δ) : Prop :=
  ∃ next answer views', w.step op = some (next, answer) ∧ Described type next views' ∧
    MultimapStep type (views.map Dict.pairs) op answer (views'.map Dict.pairs)

namespace Described

variable [DecidableEq δ] {type : HashType κ} {w : Tables κ δ} {views : List (Dict κ (Addr × δ))}
  {table : Nat} {h : Table κ}

theorem answers_put (hdescribed : Described type w views) (hlawful : type.Lawful)
    (hh : w.tables[table]? = some h) (hcount : h.num + 1 < 2 ^ 28) (key : κ) (data : δ) :
    w.Answers type views (.put table key data) := by
  obtain ⟨d, hd, hlays, rfl, hsound, hnum, hsize⟩ := hdescribed.get hh
  rw [hlays.num_eq] at hcount
  obtain ⟨m', h', e, hput, hlays', hfresh, hsame⟩ := hlays.dictPut (by omega) key data
  obtain ⟨hsound', hkey, hperm⟩ := hsound.dictPut hlawful key (e, data)
  have hnum' : (dictPut d key (e, data)).num < 2 ^ 28 := by
    rw [dictPut_num]
    exact hcount
  have hsize' := dictPut_hashsize_le hsize key (e, data)
  refine ⟨w.update table m' h', .put, views.set table (dictPut d key (e, data)), ?_, ?_, ?_⟩
  · simp only [Tables.step, hh, hput, Option.bind_eq_bind, Option.bind_some]
  · refine hdescribed.update hd ⟨hlays', hkey, hsound', hnum', hsize'⟩ hsame fun a ha => ?_
    rcases List.mem_cons.mp ((addresses_perm hperm).mem_iff.mp ha) with rfl | hold
    · exact Or.inr hfresh
    · exact Or.inl hold
  · have hpairs : (dictPut d key (e, data)).pairs = (d.keyType.dup key, data) ::ₘ d.pairs :=
      Multiset.coe_eq_coe.mpr (hperm.map _)
    rw [List.map_set, hpairs]
    exact .put (map_pairs hd)

theorem answers_lookup (hdescribed : Described type w views) (hlawful : type.Lawful)
    (hh : w.tables[table]? = some h) (key : κ) : w.Answers type views (.lookup table key) := by
  obtain ⟨m', h', d, d', found, hlookup, hnext, hd, hlays', hperm, hfound, habsent⟩ :=
    hdescribed.lookup hlawful hh key
  refine ⟨w.update table m' h', .lookup (found.map fun e => e.data.2), views.set table d', ?_, hnext,
    ?_⟩
  · simp only [Tables.step, hh, Table.dictLookup, hlookup, Option.bind_eq_bind, Option.bind_some]
    cases found with
    | none => rfl
    | some e =>
        obtain ⟨next, hcell⟩ := hlays'.cell_eq (hperm.mem_iff.mpr (hfound e rfl).1)
        simp only [Option.map_some, hcell, Option.bind_some, locate_data]
  · rw [map_pairs_set hd (pairs_eq_of_perm hperm)]
    refine .lookup (map_pairs hd) (fun data hdata => ?_) fun hnone pair hpair => ?_
    · obtain ⟨e, he, rfl⟩ := Option.map_eq_some_iff.mp hdata
      obtain ⟨hmem, hequals⟩ := hfound e he
      exact ⟨e.key, mem_pairs.mpr ⟨e, hmem, rfl⟩, hequals⟩
    · obtain ⟨e, hmem, rfl⟩ := mem_pairs.mp hpair
      exact habsent (Option.map_eq_none_iff.mp hnone) e hmem

theorem answers_contains (hdescribed : Described type w views) (hlawful : type.Lawful)
    (hh : w.tables[table]? = some h) (key : κ) : w.Answers type views (.contains table key) := by
  obtain ⟨m', h', d, d', found, hlookup, hnext, hd, -, hperm, hfound, habsent⟩ :=
    hdescribed.lookup hlawful hh key
  refine ⟨w.update table m' h', .contains found.isSome, views.set table d', ?_, hnext, ?_⟩
  · simp only [Tables.step, hh, Table.dictContains, hlookup, Option.bind_eq_bind, Option.bind_some,
      Option.isSome_map]
  · rw [map_pairs_set hd (pairs_eq_of_perm hperm)]
    refine .contains (map_pairs hd) ⟨fun hsome => ?_, fun hlive => ?_⟩
    · obtain ⟨e, he⟩ := Option.isSome_iff_exists.mp hsome
      obtain ⟨hmem, hequals⟩ := hfound e he
      exact ⟨_, mem_pairs.mpr ⟨e, hmem, rfl⟩, hequals⟩
    · obtain ⟨pair, hpair, hequals⟩ := hlive
      obtain ⟨e, hmem, rfl⟩ := mem_pairs.mp hpair
      rw [Option.isSome_iff_ne_none]
      exact fun hnone => habsent hnone e hmem hequals

theorem answers_del (hdescribed : Described type w views) (hlawful : type.Lawful)
    (hh : w.tables[table]? = some h) (key : κ) : w.Answers type views (.del table key) := by
  obtain ⟨m', h', d, d', done, hremove, hnext, hd, hremoved, hkept⟩ :=
    hdescribed.remove hlawful hh key (fun e => type.equals e.key key) fun _ hequals => hequals
  refine ⟨w.update table m' h', .del done, views.set table d', ?_, hnext, ?_⟩
  · simp only [Tables.step, hh, Table.dictDel, hdescribed.keyType_eq hh, hremove,
      Option.bind_eq_bind, Option.bind_some]
  · cases done with
    | false =>
        obtain ⟨rfl, habsent⟩ := hkept rfl
        rw [map_pairs_set hd rfl]
        refine .delNone (map_pairs hd) fun pair hpair => ?_
        obtain ⟨e, hmem, rfl⟩ := mem_pairs.mp hpair
        exact habsent e hmem
    | true =>
        obtain ⟨e, hequals, hperm⟩ := hremoved rfl
        have hpairs : d.pairs = (e.key, e.data.2) ::ₘ d'.pairs :=
          Multiset.coe_eq_coe.mpr (hperm.map _)
        rw [List.map_set]
        exact .del ((map_pairs hd).trans (congrArg some hpairs)) hequals

theorem answers_del2 (hdescribed : Described type w views) (hlawful : type.Lawful)
    (hh : w.tables[table]? = some h) (key : κ) (data : δ) :
    w.Answers type views (.del2 table key data) := by
  obtain ⟨m', h', d, d', done, hremove, hnext, hd, hremoved, hkept⟩ :=
    hdescribed.remove hlawful hh key (fun e => type.equals e.key key && e.data = data)
      fun _ hboth => (Bool.and_eq_true_iff.mp hboth).1
  refine ⟨w.update table m' h', .del done, views.set table d', ?_, hnext, ?_⟩
  · simp only [Tables.step, hh, Table.dictDel2, hdescribed.keyType_eq hh, hremove,
      Option.bind_eq_bind, Option.bind_some]
  · cases done with
    | false =>
        obtain ⟨rfl, habsent⟩ := hkept rfl
        rw [map_pairs_set hd rfl]
        refine .del2None (map_pairs hd) fun pair hpair hboth => ?_
        obtain ⟨e, hmem, rfl⟩ := mem_pairs.mp hpair
        exact habsent e hmem (Bool.and_eq_true_iff.mpr ⟨hboth.1, decide_eq_true hboth.2⟩)
    | true =>
        obtain ⟨e, hboth, hperm⟩ := hremoved rfl
        obtain ⟨hequals, hdata⟩ := Bool.and_eq_true_iff.mp hboth
        have hpairs : d.pairs = (e.key, data) ::ₘ d'.pairs := by
          rw [← of_decide_eq_true hdata]
          exact Multiset.coe_eq_coe.mpr (hperm.map _)
        rw [List.map_set]
        exact .del2 ((map_pairs hd).trans (congrArg some hpairs)) hequals

theorem answers_clone (hdescribed : Described type w views) (hlawful : type.Lawful)
    (hh : w.tables[table]? = some h) : w.Answers type views (.clone table) := by
  obtain ⟨d, hd, hlays, rfl, hsound, hnum, hsize⟩ := hdescribed.get hh
  obtain ⟨m', h', d', hclone, hlays', hstrip, hmade, hsame⟩ := hlays.dictClone
  have hkey : d'.strip.keyType = d.keyType := by rw [hstrip]; rfl
  have hcount : d'.strip.num = d.num := by rw [hstrip]; rfl
  have hsize' : d'.hashsize = d.hashsize := by
    rw [← Dict.strip_hashsize, hstrip, dictClone_hashsize, Dict.strip_hashsize]
  have hsound' : d'.Sound := by
    rw [← Dict.strip_sound, hstrip]
    exact (Dict.strip_sound.mpr hsound).dictClone hlawful
  refine ⟨_, .clone, views ++ [d'], ?_, hdescribed.append
    ⟨hlays', hkey, hsound', hcount.trans_lt hnum, hsize'.trans_le hsize⟩ hsame
    hmade.le, ?_⟩
  · simp only [Tables.step, hh, hclone, Option.bind_eq_bind, Option.bind_some]
  · have hpairs : d'.pairs = d.pairs.map fun pair => (d.keyType.dup pair.1, pair.2) := by
      calc
        d'.pairs = ((dictClone d.strip).entries.map fun e => (e.key, e.data) : List (κ × δ)) := by
          rw [Dict.pairs_eq_strip, hstrip]
        _ = ((d.strip.entries.map (copyEntry d.keyType)).map fun e => (e.key, e.data) :
              List (κ × δ)) := Multiset.coe_eq_coe.mpr ((dictClone_perm d.strip).map _)
        _ = d.pairs.map fun pair => (d.keyType.dup pair.1, pair.2) := by
          rw [Dict.pairs_eq_strip, Multiset.map_coe, List.map_map, List.map_map]
          rfl
    rw [List.map_append, List.map_singleton, hpairs]
    exact .clone (map_pairs hd)

theorem answers_foreach (hdescribed : Described type w views)
    (hh : w.tables[table]? = some h) : w.Answers type views (.foreach table) := by
  obtain ⟨d, hd, hlays, -⟩ := hdescribed.get hh
  refine ⟨w, .foreach (d.entries.map fun e => (e.key, e.data.2)), views, ?_, hdescribed, ?_⟩
  · simp only [Tables.step, hh, hlays.dictForeachKeyvalue, foldl_visited, List.nil_append,
      Option.bind_eq_bind, Option.bind_some]
  · exact .foreach (map_pairs hd)

/-- **One operation.** On well-formed tables every operation on a table there is has an answer, which
multimaps may give too. -/
theorem answers (hdescribed : Described type w views) (hlawful : type.Lawful) {op : TableOp κ δ}
    (hwithin : op.Within w) : w.Answers type views op := by
  obtain ⟨h, hh, hcount⟩ := hwithin
  cases op with
  | put table key data => exact hdescribed.answers_put hlawful hh (hcount rfl) key data
  | lookup table key => exact hdescribed.answers_lookup hlawful hh key
  | contains table key => exact hdescribed.answers_contains hlawful hh key
  | del table key => exact hdescribed.answers_del hlawful hh key
  | del2 table key data => exact hdescribed.answers_del2 hlawful hh key data
  | clone table => exact hdescribed.answers_clone hlawful hh
  | foreach table => exact hdescribed.answers_foreach hh

end Described

/-! ### Runs -/

/-- **Every run.** However tables are used, they are well formed, they answer as multimaps do, and
the next operation has an answer. -/
theorem tables_refine_multimaps [DecidableEq δ] {type : HashType κ} (hlawful : type.Lawful)
    {size : Nat} (hsize : size ≤ 2 ^ 28) {trace : List (TableOp κ δ × TableAnswer κ δ)}
    {w : Tables κ δ} (hrun : TablesRun type size trace w) :
    ∃ views, Described type w views ∧ MultimapRun type trace (views.map Dict.pairs) ∧
      ∀ op : TableOp κ δ, op.Within w → (w.step op).isSome := by
  have hviews : ∃ views, Described type w views ∧ MultimapRun type trace (views.map Dict.pairs) := by
    induction hrun with
    | start =>
        refine ⟨_, Described.start type hsize, ?_⟩
        have hnil : (dictInit2 type size : Dict κ (Addr × δ)).pairs = 0 := by
          rw [Dict.pairs, Dict.entries, dictInit2, List.flatten_replicate_nil]
          rfl
        rw [List.map_singleton, hnil]
        exact .start
    | step hrun hwithin hstep ih =>
        obtain ⟨views, hdescribed, hmaps⟩ := ih
        obtain ⟨next, answer, views', hanswer, hnext, hmap⟩ := hdescribed.answers hlawful hwithin
        cases hstep.symm.trans hanswer
        exact ⟨views', hnext, hmaps.step hmap⟩
  obtain ⟨views, hdescribed, hmaps⟩ := hviews
  refine ⟨views, hdescribed, hmaps, fun op hwithin => ?_⟩
  obtain ⟨next, answer, -, hanswer, -⟩ := hdescribed.answers hlawful hwithin
  rw [hanswer]
  rfl

/-- The tables after some operations, if these are within bounds and answer so. -/
def Tables.replay [DecidableEq κ] [DecidableEq δ] (w : Tables κ δ) :
    List (TableOp κ δ × TableAnswer κ δ) → Option (Tables κ δ)
  | [] => some w
  | (op, answer) :: trace => do
      let (next, given) ← w.step op
      if op.Within w ∧ given = answer then next.replay trace else none

theorem TablesRun.of_replay [DecidableEq κ] [DecidableEq δ] {type : HashType κ} {size : Nat}
    {trace more : List (TableOp κ δ × TableAnswer κ δ)} {w next : Tables κ δ}
    (hrun : TablesRun type size trace w) (hreplay : w.replay more = some next) :
    TablesRun type size (trace ++ more) next := by
  induction more generalizing trace w with
  | nil =>
      cases hreplay
      rwa [List.append_nil]
  | cons first more ih =>
      obtain ⟨op, answer⟩ := first
      obtain ⟨⟨middle, given⟩, hstep, hrest⟩ := Option.bind_eq_some_iff.mp hreplay
      dsimp only at hrest
      split at hrest
      · rename_i hboth
        obtain ⟨hwithin, rfl⟩ := hboth
        have hnext := ih (hrun.step hwithin hstep) hrest
        rwa [List.append_assoc] at hnext
      · cases hrest

/-- Two definitions of `f` and one of `g`, from a table without slots; a copy loses `g`. -/
def copiedTrace : List (TableOp (Option CString) Nat × TableAnswer (Option CString) Nat) :=
  [(.put 0 (some (.lit "f")) 7, .put), (.put 0 (some (.lit "f")) 8, .put),
    (.put 0 (some (.lit "g")) 9, .put), (.contains 0 (some (.lit "f")), .contains true),
    (.lookup 0 (some (.lit "g")), .lookup (some 9)), (.lookup 0 (some (.lit "h")), .lookup none),
    (.del2 0 (some (.lit "f")) 8, .del true), (.del2 0 (some (.lit "f")) 8, .del false),
    (.clone 0, .clone), (.del 1 (some (.lit "g")), .del true),
    (.foreach 1, .foreach [(some (.lit "f"), 7)])]

theorem tables_refine_multimaps_copied :
    ∃ (w : Tables (Option CString) Nat) (views : List (Dict (Option CString) (Addr × Nat))),
      TablesRun charptrType 0 copiedTrace w ∧ Described charptrType w views ∧
      MultimapRun charptrType copiedTrace (views.map Dict.pairs) := by
  have hreplay : ((Tables.start charptrType 0 : Tables (Option CString) Nat).replay
      copiedTrace).isSome := by
    decide +kernel
  obtain ⟨w, hw⟩ := Option.isSome_iff_exists.mp hreplay
  have hrun : TablesRun charptrType 0 copiedTrace w := TablesRun.start.of_replay hw
  obtain ⟨views, hdescribed, hmaps, -⟩ :=
    tables_refine_multimaps charptrType_lawful (Nat.zero_le _) hrun
  exact ⟨w, views, hrun, hdescribed, hmaps⟩

end CageKeeper
