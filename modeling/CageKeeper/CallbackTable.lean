import CageKeeper.DictLookup
import Mathlib.Data.List.Nodup

/-! The table `callback_functions` of the proxy: a hash table from names to functions that
`define_function_proxy` never gives two entries for one name. What a lookup answers then does not
depend on the order its earlier lookups have brought the entries into. -/

namespace CageKeeper
open ByteStream

/-- `proxy->callback_functions`. -/
structure CallbackTable (F : Type) where
  dict : Dict (Option CString) F
  keyType_eq : dict.keyType = charptrType
  sound : dict.Sound
  distinct : (dict.entries.map Entry.key).Nodup

namespace CallbackTable

variable {F : Type}

/-- `dict_new(&charptr_type)`. -/
def new : CallbackTable F where
  dict := dictNew charptrType
  keyType_eq := rfl
  sound := Dict.dictNew_sound _
  distinct := List.nodup_nil

theorem lawful (table : CallbackTable F) : table.dict.keyType.Lawful := by
  rw [table.keyType_eq]
  exact charptrType_lawful

theorem lookupSpec (table : CallbackTable F) (name : CString) :
    table.dict.LookupSpec (some name) (dictDoLookup table.dict (some name)) :=
  Dict.dictDoLookup_spec table.sound table.lawful _

def visit (table : CallbackTable F) (name : CString) : CallbackTable F where
  dict := (dictDoLookup table.dict (some name)).1
  keyType_eq := (table.lookupSpec name).rearranged.keyType_eq.trans table.keyType_eq
  sound := (table.lookupSpec name).rearranged.sound
  distinct := ((table.lookupSpec name).rearranged.perm.map Entry.key).nodup_iff.mpr table.distinct

/-- `dict_lookup(proxy->callback_functions, name)`. -/
def lookup (table : CallbackTable F) (name : CString) : CallbackTable F × Option F :=
  (table.visit name, (dictLookup table.dict (some name)).2)

/-- `dict_contains(proxy->callback_functions, name)`. -/
def contains (table : CallbackTable F) (name : CString) : CallbackTable F × Bool :=
  (table.visit name, (dictContains table.dict (some name)).2)

def Free (table : CallbackTable F) (name : CString) : Prop :=
  ∀ e ∈ table.dict.entries, e.key ≠ some name

theorem putSpec (table : CallbackTable F) (name : CString) (f : F) :
    (dictPut table.dict (some name) f).Sound ∧
      (dictPut table.dict (some name) f).keyType = table.dict.keyType ∧
      (dictPut table.dict (some name) f).entries.Perm
        (⟨some name, charptrHash (some name), f⟩ :: table.dict.entries) := by
  have h := table.sound.dictPut table.lawful (some name) f
  rwa [table.keyType_eq] at h ⊢

/-- `dict_put(proxy->callback_functions, name, f)`, for a name that is not in the table. -/
def put (table : CallbackTable F) (name : CString) (f : F) (hfree : table.Free name) :
    CallbackTable F where
  dict := dictPut table.dict (some name) f
  keyType_eq := (table.putSpec name f).2.1.trans table.keyType_eq
  sound := (table.putSpec name f).1
  distinct := by
    rw [((table.putSpec name f).2.2.map Entry.key).nodup_iff, List.map_cons, List.nodup_cons]
    refine ⟨fun hmem => ?_, table.distinct⟩
    obtain ⟨e, he, hkey⟩ := List.mem_map.mp hmem
    exact hfree e he hkey

/-! ### The table as a map -/

def find (table : CallbackTable F) (name : CString) : Option F :=
  (table.dict.entries.find? (·.key = some name)).map Entry.data

theorem find_eq_some {table : CallbackTable F} {name : CString} {f : F} :
    table.find name = some f ↔ ∃ e ∈ table.dict.entries, e.key = some name ∧ e.data = f := by
  constructor
  · intro h
    obtain ⟨e, he, rfl⟩ := Option.map_eq_some_iff.mp h
    exact ⟨e, List.mem_of_find?_eq_some he, by simpa using List.find?_some he, rfl⟩
  · rintro ⟨e, hmem, hkey, rfl⟩
    cases hfind : table.dict.entries.find? (·.key = some name) with
    | none =>
        have hnone := List.find?_eq_none.mp hfind e hmem
        simp [hkey] at hnone
    | some e' =>
        have hkey' : e'.key = some name := by simpa using List.find?_some hfind
        have heq : e' = e := List.inj_on_of_nodup_map table.distinct
          (List.mem_of_find?_eq_some hfind) hmem (hkey'.trans hkey.symm)
        rw [find, hfind, heq, Option.map_some]

theorem find_eq_none {table : CallbackTable F} {name : CString} :
    table.find name = none ↔ table.Free name := by
  simp [find, Free]

theorem find_eq_of_mem_iff {table table' : CallbackTable F}
    (h : ∀ e, e ∈ table'.dict.entries ↔ e ∈ table.dict.entries) (name : CString) :
    table'.find name = table.find name := by
  apply Option.ext
  intro f
  rw [find_eq_some, find_eq_some]
  simp only [h]

@[simp] theorem find_visit (table : CallbackTable F) (name other : CString) :
    (table.visit name).find other = table.find other :=
  find_eq_of_mem_iff (fun _ => (table.lookupSpec name).rearranged.perm.mem_iff) other

theorem doLookup_snd (table : CallbackTable F) (name : CString) :
    (dictDoLookup table.dict (some name)).2.map Entry.data = table.find name := by
  obtain ⟨-, hfound, habsent⟩ := table.lookupSpec name
  simp only [table.keyType_eq] at hfound habsent
  cases hresult : (dictDoLookup table.dict (some name)).2 with
  | none =>
      refine (find_eq_none.mpr fun e hmem hkey => ?_).symm
      exact habsent hresult e hmem (charptrEquals_iff.mpr hkey)
  | some e =>
      obtain ⟨hmem, hequals⟩ := hfound e hresult
      exact (find_eq_some.mpr ⟨e, hmem, charptrEquals_iff.mp hequals, rfl⟩).symm

/-- **Lookups.** A lookup answers with the registered function and changes no later answer. -/
@[simp] theorem lookup_eq (table : CallbackTable F) (name : CString) :
    table.lookup name = (table.visit name, table.find name) :=
  congrArg _ (table.doLookup_snd name)

@[simp] theorem contains_eq (table : CallbackTable F) (name : CString) :
    table.contains name = (table.visit name, (table.find name).isSome) := by
  rw [contains, dictContains, ← doLookup_snd, Option.isSome_map]

@[simp] theorem find_new (name : CString) : (new : CallbackTable F).find name = none := rfl

theorem free_new (name : CString) : (new : CallbackTable F).Free name := nofun

theorem find_put {table : CallbackTable F} {name : CString} (f : F) (hfree : table.Free name)
    (other : CString) :
    (table.put name f hfree).find other = if other = name then some f else table.find other := by
  have hperm := (table.putSpec name f).2.2
  split
  · subst other
    exact find_eq_some.mpr ⟨_, hperm.mem_iff.mpr (List.mem_cons_self ..), rfl, rfl⟩
  · rename_i hother
    apply Option.ext
    intro data
    rw [find_eq_some, find_eq_some]
    constructor
    · rintro ⟨e, hmem, hkey, hdata⟩
      rcases List.mem_cons.mp (hperm.mem_iff.mp hmem) with rfl | hmem
      · exact absurd (Option.some.inj hkey).symm hother
      · exact ⟨e, hmem, hkey, hdata⟩
    · rintro ⟨e, hmem, hkey, hdata⟩
      exact ⟨e, hperm.mem_iff.mpr (List.mem_cons_of_mem _ hmem), hkey, hdata⟩

end CallbackTable

end CageKeeper
