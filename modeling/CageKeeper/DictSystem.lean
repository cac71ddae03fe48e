import CageKeeper.DictChains
import Mathlib.Data.Multiset.MapFold

/-! What a hash table is for: a multimap from keys to data. Here are the operations on multimaps and
on tables, of which any number live in one memory, and what it is for tables to be well formed and
apart from one another. -/

namespace CageKeeper
open LinkedCells

variable {κ δ : Type}

/-! ### Multimaps -/

/-- The pairs of keys and data of a table. -/
abbrev Multimap (κ δ : Type) := Multiset (κ × δ)

/-- The operations on tables, which are given by their numbers. -/
inductive TableOp (κ δ : Type) where
  | put (table : Nat) (key : κ) (data : δ)
  | lookup (table : Nat) (key : κ)
  | contains (table : Nat) (key : κ)
  | del (table : Nat) (key : κ)
  | del2 (table : Nat) (key : κ) (data : δ)
  | clone (table : Nat)
  | foreach (table : Nat)

inductive TableAnswer (κ δ : Type) where
  | put
  | lookup (data : Option δ)
  | contains (found : Bool)
  | del (done : Bool)
  | clone
  /-- The pairs the function was called with. -/
  | foreach (visited : List (κ × δ))
  deriving DecidableEq

/-- What one operation does to multimaps, and what it may answer. -/
inductive MultimapStep (type : HashType κ) : List (Multimap κ δ) → TableOp κ δ → TableAnswer κ δ →
    List (Multimap κ δ) → Prop where
  | put {maps : List (Multimap κ δ)} {table : Nat} {map : Multimap κ δ} {key : κ} {data : δ}
      (hmap : maps[table]? = some map) :
      MultimapStep type maps (.put table key data) .put
        (maps.set table ((type.dup key, data) ::ₘ map))
  | lookup {maps : List (Multimap κ δ)} {table : Nat} {map : Multimap κ δ} {key : κ}
      {answer : Option δ} (hmap : maps[table]? = some map)
      (hfound : ∀ data, answer = some data → ∃ live, (live, data) ∈ map ∧ type.equals live key)
      (habsent : answer = none → ∀ pair ∈ map, ¬type.equals pair.1 key) :
      MultimapStep type maps (.lookup table key) (.lookup answer) maps
  | contains {maps : List (Multimap κ δ)} {table : Nat} {map : Multimap κ δ} {key : κ}
      {found : Bool} (hmap : maps[table]? = some map)
      (hfound : found ↔ ∃ pair ∈ map, type.equals pair.1 key) :
      MultimapStep type maps (.contains table key) (.contains found) maps
  | del {maps : List (Multimap κ δ)} {table : Nat} {rest : Multimap κ δ} {pair : κ × δ} {key : κ}
      (hmap : maps[table]? = some (pair ::ₘ rest)) (hmatch : type.equals pair.1 key) :
      MultimapStep type maps (.del table key) (.del true) (maps.set table rest)
  | delNone {maps : List (Multimap κ δ)} {table : Nat} {map : Multimap κ δ} {key : κ}
      (hmap : maps[table]? = some map) (habsent : ∀ pair ∈ map, ¬type.equals pair.1 key) :
      MultimapStep type maps (.del table key) (.del false) maps
  | del2 {maps : List (Multimap κ δ)} {table : Nat} {rest : Multimap κ δ} {live key : κ} {data : δ}
      (hmap : maps[table]? = some ((live, data) ::ₘ rest)) (hmatch : type.equals live key) :
      MultimapStep type maps (.del2 table key data) (.del true) (maps.set table rest)
  | del2None {maps : List (Multimap κ δ)} {table : Nat} {map : Multimap κ δ} {key : κ} {data : δ}
      (hmap : maps[table]? = some map)
      (habsent : ∀ pair ∈ map, ¬(type.equals pair.1 key ∧ pair.2 = data)) :
      MultimapStep type maps (.del2 table key data) (.del false) maps
  | clone {maps : List (Multimap κ δ)} {table : Nat} {map : Multimap κ δ}
      (hmap : maps[table]? = some map) :
      MultimapStep type maps (.clone table) .clone
        (maps ++ [map.map fun pair => (type.dup pair.1, pair.2)])
  | foreach {maps : List (Multimap κ δ)} {table : Nat} {visited : List (κ × δ)}
      (hmap : maps[table]? = some visited) :
      MultimapStep type maps (.foreach table) (.foreach visited) maps

/-- Operations and their answers, starting with one empty multimap. -/
inductive MultimapRun (type : HashType κ) : List (TableOp κ δ × TableAnswer κ δ) →
    List (Multimap κ δ) → Prop where
  | start : MultimapRun type [] [0]
  | step {trace : List (TableOp κ δ × TableAnswer κ δ)} {maps next : List (Multimap κ δ)}
      {op : TableOp κ δ} {answer : TableAnswer κ δ} (hrun : MultimapRun type trace maps)
      (hstep : MultimapStep type maps op answer next) :
      MultimapRun type (trace ++ [(op, answer)]) next

/-! ### Tables -/

structure Tables (κ δ : Type) where
  memory : EntryMemory κ δ
  tables : List (Table κ)

namespace Tables

/-- One table from `dict_init2`. -/
def start (type : HashType κ) (size : Nat) : Tables κ δ := ⟨.empty, [Table.dictInit2 type size]⟩

def update (w : Tables κ δ) (table : Nat) (m : EntryMemory κ δ) (h : Table κ) : Tables κ δ :=
  ⟨m, w.tables.set table h⟩

def step [DecidableEq δ] (w : Tables κ δ) :
    TableOp κ δ → Option (Tables κ δ × TableAnswer κ δ)
  | .put table key data => do
      let h ← w.tables[table]?
      let (m, h, _) ← Table.dictPut w.memory h key data
      some (w.update table m h, .put)
  | .lookup table key => do
      let h ← w.tables[table]?
      let (m, h, data) ← Table.dictLookup w.memory h key
      some (w.update table m h, .lookup data)
  | .contains table key => do
      let h ← w.tables[table]?
      let (m, h, found) ← Table.dictContains w.memory h key
      some (w.update table m h, .contains found)
  | .del table key => do
      let h ← w.tables[table]?
      let (m, h, done) ← Table.dictDel w.memory h key
      some (w.update table m h, .del done)
  | .del2 table key data => do
      let h ← w.tables[table]?
      let (m, h, done) ← Table.dictDel2 w.memory h key data
      some (w.update table m h, .del done)
  | .clone table => do
      let o ← w.tables[table]?
      let (m, h) ← Table.dictClone w.memory o
      some (⟨m, w.tables ++ [h]⟩, .clone)
  | .foreach table => do
      let h ← w.tables[table]?
      let visited ← Table.dictForeachKeyvalue (fun visited key data => visited ++ [(key, data)])
        w.memory h []
      some (w, .foreach visited)

end Tables

def TableOp.table : TableOp κ δ → Nat
  | .put table _ _ | .lookup table _ | .contains table _ | .del table _ | .del2 table _ _
  | .clone table | .foreach table => table

def TableOp.adds : TableOp κ δ → Bool
  | .put _ _ _ => true
  | _ => false

/-- What the table `h` goes through in an operation, and the tables behind it. -/
inductive Tables.Turn [DecidableEq δ] (w : Tables κ δ) (h : Table κ) : TableOp κ δ → Tables κ δ →
    Prop where
  | put {table : Nat} {key : κ} {data : δ} {m' : EntryMemory κ δ} {h' : Table κ} {e : Addr}
      (hput : Table.dictPut w.memory h key data = some (m', h', e)) :
      Turn w h (.put table key data) (w.update table m' h')
  | lookup {table : Nat} {key : κ} {m' : EntryMemory κ δ} {h' : Table κ} {found : Option Addr}
      (hlookup : Table.dictDoLookup w.memory h key = some (m', h', found)) :
      Turn w h (.lookup table key) (w.update table m' h')
  | contains {table : Nat} {key : κ} {m' : EntryMemory κ δ} {h' : Table κ} {found : Option Addr}
      (hlookup : Table.dictDoLookup w.memory h key = some (m', h', found)) :
      Turn w h (.contains table key) (w.update table m' h')
  | del {table : Nat} {key : κ} {m' : EntryMemory κ δ} {h' : Table κ} {done : Bool}
      (hremove : Table.dictDel w.memory h key = some (m', h', done)) :
      Turn w h (.del table key) (w.update table m' h')
  | del2 {table : Nat} {key : κ} {data : δ} {m' : EntryMemory κ δ} {h' : Table κ} {done : Bool}
      (hremove : Table.dictDel2 w.memory h key data = some (m', h', done)) :
      Turn w h (.del2 table key data) (w.update table m' h')
  | clone {table : Nat} {m' : EntryMemory κ δ} {h' : Table κ}
      (hclone : Table.dictClone w.memory h = some (m', h')) :
      Turn w h (.clone table) ⟨m', w.tables ++ [h']⟩
  | foreach {table : Nat} : Turn w h (.foreach table) w

theorem Tables.step_turn [DecidableEq δ] {w next : Tables κ δ} {op : TableOp κ δ}
    {answer : TableAnswer κ δ} (hstep : w.step op = some (next, answer)) :
    ∃ h, w.tables[op.table]? = some h ∧ w.Turn h op next := by
  cases op with
  | put table key data =>
      obtain ⟨h, hw, hrest⟩ := Option.bind_eq_some_iff.mp hstep
      obtain ⟨⟨m', h', e⟩, hput, hresult⟩ := Option.bind_eq_some_iff.mp hrest
      cases hresult
      exact ⟨h, hw, .put hput⟩
  | lookup table key =>
      obtain ⟨h, hw, hrest⟩ := Option.bind_eq_some_iff.mp hstep
      obtain ⟨⟨m', h', data⟩, hlookup, hresult⟩ := Option.bind_eq_some_iff.mp hrest
      cases hresult
      obtain ⟨⟨m₁, h₁, found⟩, hfound, hdata⟩ := Option.bind_eq_some_iff.mp hlookup
      cases found with
      | none =>
          cases hdata
          exact ⟨h, hw, .lookup hfound⟩
      | some e =>
          obtain ⟨entry, -, hentry⟩ := Option.bind_eq_some_iff.mp hdata
          cases hentry
          exact ⟨h, hw, .lookup hfound⟩
  | contains table key =>
      obtain ⟨h, hw, hrest⟩ := Option.bind_eq_some_iff.mp hstep
      obtain ⟨⟨m', h', found⟩, hcontains, hresult⟩ := Option.bind_eq_some_iff.mp hrest
      cases hresult
      obtain ⟨⟨m₁, h₁, e⟩, hfound, hdata⟩ := Option.bind_eq_some_iff.mp hcontains
      cases hdata
      exact ⟨h, hw, .contains hfound⟩
  | del table key =>
      obtain ⟨h, hw, hrest⟩ := Option.bind_eq_some_iff.mp hstep
      obtain ⟨⟨m', h', done⟩, hremove, hresult⟩ := Option.bind_eq_some_iff.mp hrest
      cases hresult
      exact ⟨h, hw, .del hremove⟩
  | del2 table key data =>
      obtain ⟨h, hw, hrest⟩ := Option.bind_eq_some_iff.mp hstep
      obtain ⟨⟨m', h', done⟩, hremove, hresult⟩ := Option.bind_eq_some_iff.mp hrest
      cases hresult
      exact ⟨h, hw, .del2 hremove⟩
  | clone table =>
      obtain ⟨h, hw, hrest⟩ := Option.bind_eq_some_iff.mp hstep
      obtain ⟨⟨m', h'⟩, hclone, hresult⟩ := Option.bind_eq_some_iff.mp hrest
      cases hresult
      exact ⟨h, hw, .clone hclone⟩
  | foreach table =>
      obtain ⟨h, hw, hrest⟩ := Option.bind_eq_some_iff.mp hstep
      obtain ⟨visited, -, hresult⟩ := Option.bind_eq_some_iff.mp hrest
      cases hresult
      exact ⟨h, hw, .foreach⟩

/-- The operation is about a table there is, and leaves it with fewer than `2 ^ 28` entries. -/
def TableOp.Within (w : Tables κ δ) (op : TableOp κ δ) : Prop :=
  ∃ h, w.tables[op.table]? = some h ∧ (op.adds → h.num + 1 < 2 ^ 28)

instance (w : Tables κ δ) (op : TableOp κ δ) : Decidable (op.Within w) :=
  match hh : w.tables[op.table]? with
  | none => .isFalse fun h => by
      obtain ⟨t, ht, -⟩ := h
      rw [hh] at ht
      cases ht
  | some t => decidable_of_iff (op.adds → t.num + 1 < 2 ^ 28)
      ⟨fun h => ⟨t, hh, h⟩, fun h => by
        obtain ⟨t', ht, hcount⟩ := h
        rw [hh] at ht
        cases ht
        exact hcount⟩

/-- The operations on tables and their answers. -/
inductive TablesRun [DecidableEq δ] (type : HashType κ) (size : Nat) :
    List (TableOp κ δ × TableAnswer κ δ) → Tables κ δ → Prop where
  | start : TablesRun type size [] (.start type size)
  | step {trace : List (TableOp κ δ × TableAnswer κ δ)} {w next : Tables κ δ} {op : TableOp κ δ}
      {answer : TableAnswer κ δ} (hrun : TablesRun type size trace w) (hwithin : op.Within w)
      (hstep : w.step op = some (next, answer)) :
      TablesRun type size (trace ++ [(op, answer)]) next

/-! ### Tables as multimaps -/

def Dict.pairs (d : Dict κ (Addr × δ)) : Multimap κ δ :=
  (d.entries.map fun e => (e.key, e.data.2) : List (κ × δ))

/-- All tables are where their descriptions say, and no two share an entry. -/
structure Laid (w : Tables κ δ) (views : List (Dict κ (Addr × δ))) : Prop where
  length_eq : w.tables.length = views.length
  lays : ∀ (table : Nat) h d, w.tables[table]? = some h → views[table]? = some d →
    Lays w.memory h d
  apart : ∀ (table other : Nat) d d', views[table]? = some d → views[other]? = some d' →
    table ≠ other → ∀ a ∈ d.addrs, a ∉ d'.addrs

section Pairs

variable {α β : Type} {xs : List α} {ys : List β} {P : α → β → Prop} {x a : α} {y b : β}
  {index other : Nat}

theorem getElem?_set_cases (ha : (xs.set index x)[other]? = some a) :
    index = other ∧ a = x ∨ index ≠ other ∧ xs[other]? = some a := by
  by_cases heq : index = other
  · subst heq
    obtain ⟨hlt, rfl⟩ := List.getElem?_eq_some_iff.mp ha
    exact Or.inl ⟨rfl, List.getElem_set_self _⟩
  · rw [List.getElem?_set_ne heq] at ha
    exact Or.inr ⟨heq, ha⟩

theorem getElem?_append_cases (ha : (xs ++ [x])[other]? = some a) :
    xs[other]? = some a ∨ other = xs.length ∧ a = x := by
  rcases Nat.lt_or_ge other xs.length with hlt | hge
  · rw [List.getElem?_append_left hlt] at ha
    exact Or.inl ha
  · have hlt := (List.getElem?_eq_some_iff.mp ha).1
    rw [List.length_append, List.length_singleton] at hlt
    rw [List.getElem?_append_right hge] at ha
    exact Or.inr ⟨by omega, List.mem_singleton.mp (List.mem_of_getElem? ha)⟩

theorem forall_set
    (hall : ∀ (other : Nat) a b, xs[other]? = some a → ys[other]? = some b → P a b) (hnew : P x y)
    (ha : (xs.set index x)[other]? = some a) (hb : (ys.set index y)[other]? = some b) : P a b := by
  rcases getElem?_set_cases ha with ⟨heq, rfl⟩ | ⟨hne, ha⟩
  · rcases getElem?_set_cases hb with ⟨-, rfl⟩ | ⟨hne, -⟩
    · exact hnew
    · exact absurd heq hne
  · rcases getElem?_set_cases hb with ⟨heq, -⟩ | ⟨-, hb⟩
    · exact absurd heq hne
    · exact hall other a b ha hb

theorem forall_append (hlength : xs.length = ys.length)
    (hall : ∀ (other : Nat) a b, xs[other]? = some a → ys[other]? = some b → P a b) (hnew : P x y)
    (ha : (xs ++ [x])[other]? = some a) (hb : (ys ++ [y])[other]? = some b) : P a b := by
  rcases getElem?_append_cases ha with ha | ⟨rfl, rfl⟩
  · rcases getElem?_append_cases hb with hb | ⟨rfl, -⟩
    · exact hall other a b ha hb
    · exact absurd (List.getElem?_eq_some_iff.mp ha).1 (by omega)
  · rcases getElem?_append_cases hb with hb | ⟨-, rfl⟩
    · exact absurd (List.getElem?_eq_some_iff.mp hb).1 (by omega)
    · exact hnew

end Pairs

namespace Laid

variable {w : Tables κ δ} {views : List (Dict κ (Addr × δ))} {table : Nat} {h h' : Table κ}
  {d d' : Dict κ (Addr × δ)} {m' : EntryMemory κ δ}

theorem get (hlaid : Laid w views) (hh : w.tables[table]? = some h) :
    ∃ d, views[table]? = some d ∧ Lays w.memory h d := by
  have hlt : table < views.length := by
    rw [← hlaid.length_eq]
    exact (List.getElem?_eq_some_iff.mp hh).1
  exact ⟨views[table], List.getElem?_eq_getElem hlt,
    hlaid.lays table h _ hh (List.getElem?_eq_getElem hlt)⟩

theorem addrs_lt (hlaid : Laid w views) (hd : views[table]? = some d) {a : Addr}
    (ha : a ∈ d.addrs) : a < w.memory.fresh := by
  have hlt : table < w.tables.length := by
    rw [hlaid.length_eq]
    exact (List.getElem?_eq_some_iff.mp hd).1
  exact (hlaid.lays table _ d (List.getElem?_eq_getElem hlt) hd).addrs_lt ha

theorem apart_of_new (hlaid : Laid w views) (hd : views[table]? = some d)
    (haddrs : ∀ a ∈ d'.addrs, a ∈ d.addrs ∨ w.memory.fresh ≤ a) {other : Nat}
    {e : Dict κ (Addr × δ)} (he : views[other]? = some e) (hne : table ≠ other) {a : Addr}
    (ha : a ∈ d'.addrs) : a ∉ e.addrs := by
  rcases haddrs a ha with hold | hnew
  · exact hlaid.apart table other d e hd he hne a hold
  · exact fun hmem => Nat.lt_irrefl _ (Nat.lt_of_lt_of_le (hlaid.addrs_lt he hmem) hnew)

theorem update (hlaid : Laid w views) (hd : views[table]? = some d) (hlays : Lays m' h' d')
    (hsame : Memory.SameOutside d.addrs w.memory m')
    (haddrs : ∀ a ∈ d'.addrs, a ∈ d.addrs ∨ w.memory.fresh ≤ a) :
    Laid (w.update table m' h') (views.set table d') where
  length_eq := by
    rw [Tables.update, List.length_set, List.length_set]
    exact hlaid.length_eq
  lays other g e hg he := by
    rcases getElem?_set_cases hg with ⟨heq, rfl⟩ | ⟨hne, hg⟩
    · rcases getElem?_set_cases he with ⟨-, rfl⟩ | ⟨hne, -⟩
      · exact hlays
      · exact absurd heq hne
    · rcases getElem?_set_cases he with ⟨heq, -⟩ | ⟨-, he⟩
      · exact absurd heq hne
      · exact (hlaid.lays other g e hg he).frame hsame fun a ha hmem =>
          hlaid.apart table other d e hd he hne a hmem ha
  apart left right e e' he he' hne a ha := by
    rcases getElem?_set_cases he with ⟨rfl, rfl⟩ | ⟨hleft, hold⟩
    · rcases getElem?_set_cases he' with ⟨heq, -⟩ | ⟨-, hold'⟩
      · exact absurd heq hne
      · exact hlaid.apart_of_new hd haddrs hold' hne ha
    · rcases getElem?_set_cases he' with ⟨rfl, rfl⟩ | ⟨-, hold'⟩
      · exact fun hmem => hlaid.apart_of_new hd haddrs hold hleft hmem ha
      · exact hlaid.apart left right e e' hold hold' hne a ha

theorem append (hlaid : Laid w views) (hlays : Lays m' h' d')
    (hsame : Memory.SameOutside [] w.memory m') (haddrs : ∀ a ∈ d'.addrs, w.memory.fresh ≤ a) :
    Laid ⟨m', w.tables ++ [h']⟩ (views ++ [d']) where
  length_eq := by
    rw [List.length_append, List.length_append, hlaid.length_eq]
    rfl
  lays other g e hg he :=
    forall_append hlaid.length_eq
      (fun other g e hg he => (hlaid.lays other g e hg he).frame hsame nofun) hlays hg he
  apart left right e e' he he' hne a ha := by
    have hnew : ∀ (other : Nat) e, views[other]? = some e → ∀ a ∈ d'.addrs, a ∉ e.addrs :=
      fun other e he a ha hmem =>
        Nat.lt_irrefl _ (Nat.lt_of_lt_of_le (hlaid.addrs_lt he hmem) (haddrs a ha))
    rcases getElem?_append_cases he with hold | ⟨rfl, rfl⟩
    · rcases getElem?_append_cases he' with hold' | ⟨rfl, rfl⟩
      · exact hlaid.apart left right e e' hold hold' hne a ha
      · exact fun hmem => hnew left e hold a hmem ha
    · rcases getElem?_append_cases he' with hold' | ⟨rfl, -⟩
      · exact hnew right e' hold' a ha
      · exact absurd rfl hne

end Laid

/-- A table in memory is what a description says, and the description is well formed. -/
structure Table.Holds (type : HashType κ) (m : EntryMemory κ δ) (h : Table κ)
    (d : Dict κ (Addr × δ)) : Prop where
  lays : Lays m h d
  keyType_eq : d.keyType = type
  sound : d.Sound
  num_lt : d.num < 2 ^ 28
  size_le : d.hashsize ≤ 3 * 2 ^ 28 + 1

/-- All tables are what their descriptions say, and no two share an entry. -/
structure Described (type : HashType κ) (w : Tables κ δ) (views : List (Dict κ (Addr × δ))) :
    Prop where
  length_eq : w.tables.length = views.length
  holds : ∀ (table : Nat) h d, w.tables[table]? = some h → views[table]? = some d →
    h.Holds type w.memory d
  apart : ∀ (table other : Nat) d d', views[table]? = some d → views[other]? = some d' →
    table ≠ other → ∀ a ∈ d.addrs, a ∉ d'.addrs

namespace Described

variable {type : HashType κ} {w : Tables κ δ} {views : List (Dict κ (Addr × δ))} {table : Nat}
  {h h' : Table κ} {d d' : Dict κ (Addr × δ)} {m' : EntryMemory κ δ}

theorem start (type : HashType κ) {size : Nat} (hsize : size ≤ 2 ^ 28) :
    Described type (.start type size : Tables κ δ) [dictInit2 type size] where
  length_eq := rfl
  holds table h d hh hd := by
    rw [Tables.start, List.getElem?_singleton] at hh
    rw [List.getElem?_singleton] at hd
    split at hh
    · rename_i hzero
      rw [if_pos hzero] at hd
      cases hh
      cases hd
      have hlength : (dictInit2 type size : Dict κ (Addr × δ)).hashsize = size :=
        List.length_replicate
      have hnil : (dictInit2 type size : Dict κ (Addr × δ)).entries = [] :=
        List.flatten_replicate_nil
      refine ⟨lays_dictInit2 _ type size, rfl, ⟨?_, ?_, ?_⟩, Nat.two_pow_pos 28, ?_⟩
      · rw [hnil]
        exact nofun
      · intro index e hmem
        rw [dictInit2, chain_replicate] at hmem
        cases hmem
      · rw [hnil]
        rfl
      · rw [hlength]
        omega
    · cases hh
  apart table other d d' hd hd' hne := by
    rw [List.getElem?_singleton] at hd hd'
    split at hd
    · split at hd'
      · omega
      · cases hd'
    · cases hd

theorem laid (hdescribed : Described type w views) : Laid w views :=
  ⟨hdescribed.length_eq, fun table h d hh hd => (hdescribed.holds table h d hh hd).lays,
    hdescribed.apart⟩

theorem get (hdescribed : Described type w views) (hh : w.tables[table]? = some h) :
    ∃ d, views[table]? = some d ∧ h.Holds type w.memory d := by
  obtain ⟨d, hd, -⟩ := hdescribed.laid.get hh
  exact ⟨d, hd, hdescribed.holds table h d hh hd⟩

theorem update (hdescribed : Described type w views) (hd : views[table]? = some d)
    (hholds : h'.Holds type m' d') (hsame : Memory.SameOutside d.addrs w.memory m')
    (haddrs : ∀ a ∈ d'.addrs, a ∈ d.addrs ∨ w.memory.fresh ≤ a) :
    Described type (w.update table m' h') (views.set table d') := by
  have hlaid := hdescribed.laid.update hd hholds.lays hsame haddrs
  refine ⟨hlaid.length_eq, ?_, hlaid.apart⟩
  intro other g e hg he
  have hlays := hlaid.lays other g e hg he
  refine forall_set (P := fun g e => Lays m' g e → Table.Holds type m' g e) ?_ (fun _ => hholds)
    hg he hlays
  intro other g e hg he hlays
  obtain ⟨-, hkey, hsound, hnum, hsize⟩ := hdescribed.holds other g e hg he
  exact ⟨hlays, hkey, hsound, hnum, hsize⟩

theorem append (hdescribed : Described type w views) (hholds : h'.Holds type m' d')
    (hsame : Memory.SameOutside [] w.memory m') (haddrs : ∀ a ∈ d'.addrs, w.memory.fresh ≤ a) :
    Described type ⟨m', w.tables ++ [h']⟩ (views ++ [d']) := by
  have hlaid := hdescribed.laid.append hholds.lays hsame haddrs
  refine ⟨hlaid.length_eq, ?_, hlaid.apart⟩
  intro other g e hg he
  have hlays := hlaid.lays other g e hg he
  refine forall_append (P := fun g e => Lays m' g e → Table.Holds type m' g e)
    hdescribed.length_eq ?_ (fun _ => hholds) hg he hlays
  intro other g e hg he hlays
  obtain ⟨-, hkey, hsound, hnum, hsize⟩ := hdescribed.holds other g e hg he
  exact ⟨hlays, hkey, hsound, hnum, hsize⟩

end Described

end CageKeeper
