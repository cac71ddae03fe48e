import CageKeeper.NativeChecks
import Mathlib.Data.List.Nodup

/-! What a native function receives. Texts are printed into the slots `i+i` of `args_data` and the
words stored in the slots `i+1`, so a printed text is kept for the first argument only. -/

namespace CageKeeper
open ByteStream

section Floats

variable (floats : FloatOps) {χ : Type}

/-- A call that delivers its arguments: the context and the conversion of every argument in its
order, with all stores inside `args_data` and none over another. -/
structure Delivered (f : CFunction χ) (data : List Value) (call : Invocation χ) : Prop where
  context : call.context = f.context
  received : call.received = List.zipWith (conversion floats) f.paramTypes data
  inside : ∀ store ∈ call.stores, store.index ≤ data.length
  kept : (call.stores.map Store.index).Nodup

/-- Only the first argument has its text printed, and a `tmp_str` has room for it. -/
def TextsKept (f : CFunction χ) (data : List Value) : Prop :=
  ∀ (k : Nat) (t : ValueType) (o : Value), f.paramTypes[k]? = some t → data[k]? = some o →
    needsTmp t o.type = true →
    k = 0 ∧ ∀ v, o = .float32 v → (floats.text v).length < tmpStrSize

theorem tmpStr_eq {text : Bytes} (h : text.length < tmpStrSize) :
    tmpStr text = CString.ofBytes text := by
  rw [tmpStr, List.take_of_length_le (Nat.le_sub_one_of_lt h)]

theorem tmpStr_length_lt (text : Bytes) : (tmpStr text).length < tmpStrSize := by
  have hle := CString.length_ofBytes_le (text.take (tmpStrSize - 1))
  rw [List.length_take] at hle
  exact Nat.lt_of_le_of_lt (Nat.le_trans hle (Nat.min_le_left _ _)) (by decide)

variable {floats}

theorem Marshalled.indices {i : Nat} {param : List ValueType} {data : List Value}
    {stores : List Store} (h : Marshalled floats i param data stores)
    (hdirect : ∀ (k : Nat) (t : ValueType) (o : Value), param[k]? = some t → data[k]? = some o →
      needsTmp t o.type = false) :
    stores.map Store.index = List.range' (i + 1) data.length := by
  induction h with
  | nil => rfl
  | @cons i t param o data own others first rest ih =>
      have hrest := ih fun k t' o' ht ho => hdirect (k + 1) t' o' ht ho
      cases first with
      | word word =>
          rw [List.map_append, hrest, List.length_cons, List.range'_succ]
          rfl
      | text text param own short printed =>
          have hfalse := hdirect 0 t o rfl rfl
          rw [printed] at hfalse
          cases hfalse

theorem Marshalled.indices_first {param : List ValueType} {data : List Value}
    {stores : List Store} (h : Marshalled floats 0 param data stores)
    (hfirst : ∀ (k : Nat) (t : ValueType) (o : Value), param[k]? = some t → data[k]? = some o →
      needsTmp t o.type = true → k = 0) :
    stores.map Store.index = List.range' 1 data.length ∨
      stores.map Store.index = List.range' 0 (data.length + 1) := by
  cases h with
  | nil => exact Or.inl rfl
  | @cons _ t param o data own others first rest =>
      have hrest := rest.indices fun k t' o' ht ho => by
        by_contra hprinted
        rw [Bool.not_eq_false] at hprinted
        exact Nat.succ_ne_zero k (hfirst (k + 1) t' o' ht ho hprinted)
      rw [List.map_append, hrest]
      cases first with
      | word word => exact Or.inl rfl
      | text text => exact Or.inr rfl

theorem slotContent_of_mem {stores : List Store} (hnodup : (stores.map Store.index).Nodup)
    {store : Store} (hmem : store ∈ stores) :
    slotContent stores store.index = some store.content := by
  rw [slotContent]
  cases hfound : stores.reverse.find? (·.index = store.index) with
  | none =>
      rw [List.find?_eq_none] at hfound
      have hne := hfound store (List.mem_reverse.mpr hmem)
      simp at hne
  | some found =>
      have hindex : found.index = store.index := by simpa using List.find?_some hfound
      have hin : found ∈ stores := List.mem_reverse.mp (List.mem_of_find?_eq_some hfound)
      rw [List.inj_on_of_nodup_map hnodup hin hmem hindex]
      rfl

theorem CFunction.call_received (f : CFunction χ) {data : List Value} {stores : List Store}
    (h : Marshalled floats 0 f.paramTypes data stores) {k : Nat} {t : ValueType} {o : Value}
    (ht : f.paramTypes[k]? = some t) (ho : data[k]? = some o) :
    ∃ own word, ArgStores floats k t o own ∧ own ⊆ stores ∧
      slotContent own (k + 1) = some (.word word) ∧
      (f.call stores).received[k]? = some (receive stores word) := by
  obtain ⟨own, word, hown, hsubset, hlast, hword, -⟩ := h.words floats ht ho
  refine ⟨own, word, hown, hsubset, hlast, ?_⟩
  rw [Invocation.received, List.getElem?_map, hword]
  rfl

theorem receive_slot {stores : List Store} {index : Nat} {text : CString}
    (h : slotContent stores index = some (.text text)) :
    receive stores (.pointer (.slot index)) = some (.text text) := by
  rw [receive, h]

theorem CFunction.call_received_length (f : CFunction χ) (stores : List Store) :
    (f.call stores).received.length = f.paramTypes.length := by
  rw [Invocation.received, List.length_map, Invocation.words, List.length_mapIdx, call,
    List.tail_cons, List.length_map]

theorem delivered_of_textsKept (f : CFunction χ) {data : List Value} {stores : List Store}
    (h : Marshalled floats 0 f.paramTypes data stores) (hkept : TextsKept floats f data) :
    Delivered floats f data (f.call stores) := by
  have hindices := h.indices_first fun k t o ht ho hprinted => (hkept k t o ht ho hprinted).1
  have hnodup : (stores.map Store.index).Nodup := by
    rcases hindices with hindices | hindices
    · rw [hindices]
      exact List.nodup_range'
    · rw [hindices]
      exact List.nodup_range'
  refine ⟨rfl, List.ext_getElem? fun k => ?_, fun store hstore => ?_, hnodup⟩
  · by_cases hk : k < f.paramTypes.length
    · have ht := List.getElem?_eq_getElem hk
      have ho := List.getElem?_eq_getElem (h.length_eq ▸ hk)
      obtain ⟨own, word, hown, hsubset, hlast, hreceived⟩ := f.call_received h ht ho
      rw [hreceived, List.getElem?_zipWith, ht, ho]
      congr 1
      cases hown with
      | word word' passed own direct =>
          rw [slotContent_storeWord] at hlast
          cases hlast
          exact own stores
      | text text param own short printed =>
          obtain ⟨rfl, hfits⟩ := hkept k _ _ ht ho printed
          rw [slotContent_storeText] at hlast
          cases hlast
          have hshort : text.length < tmpStrSize := by
            rcases short with hshort | ⟨v, hv, rfl⟩
            · exact hshort
            · exact hfits v hv
          rw [own, ← tmpStr_eq hshort]
          exact receive_slot (slotContent_of_mem hnodup (hsubset (List.mem_cons_self ..)))
    · have hdone : (f.call stores).received[k]? = none := by
        rw [List.getElem?_eq_none_iff, f.call_received_length]
        exact Nat.le_of_not_lt hk
      rw [hdone, eq_comm, List.getElem?_eq_none_iff, List.length_zipWith]
      exact Nat.le_trans (Nat.min_le_left _ _) (Nat.le_of_not_lt hk)
  · have hmem : store.index ∈ stores.map Store.index := List.mem_map_of_mem hstore
    rcases hindices with hindices | hindices
    · rw [hindices, List.mem_range'_1] at hmem
      omega
    · rw [hindices, List.mem_range'_1] at hmem
      omega

/-- A text of a later argument is printed over the word of another one, or outside. -/
theorem textsKept_of_delivered (f : CFunction χ) {data : List Value} {stores : List Store}
    (h : Marshalled floats 0 f.paramTypes data stores)
    (hdelivered : Delivered floats f data (f.call stores)) : TextsKept floats f data := by
  intro k t o ht ho hprinted
  obtain ⟨own, word, hown, hsubset, hlast, hreceived⟩ := f.call_received h ht ho
  cases hown with
  | word word' passed own direct =>
      rw [hprinted] at direct
      cases direct
  | text text param own short printed =>
      have htext : Store.mk (k + k) (.text (tmpStr text)) ∈ stores :=
        hsubset (List.mem_cons_self ..)
      have hk : k = 0 := by
        by_contra hpos
        have hinside : k + k ≤ data.length := hdelivered.inside _ htext
        -- the argument before the slot `k+k` has its word there
        have hlt : k + k - 1 < data.length := by omega
        have ho' := List.getElem?_eq_getElem hlt
        have ht' := List.getElem?_eq_getElem (h.length_eq ▸ hlt)
        obtain ⟨other, -, hother, hsub, -⟩ := f.call_received h ht' ho'
        obtain ⟨otherWord, hmem, -⟩ := hother.slot
        have hindex : k + k - 1 + 1 = k + k := by omega
        rw [hindex] at hmem
        have heq := List.inj_on_of_nodup_map hdelivered.kept (hsub hmem) htext rfl
        cases heq
      refine ⟨hk, fun v hv => ?_⟩
      subst hk
      rw [slotContent_storeText] at hlast
      cases hlast
      have hslot := receive_slot (slotContent_of_mem hdelivered.kept htext)
      have hgot : (f.call stores).received[0]? = some (conversion floats t o) := by
        rw [hdelivered.received, List.getElem?_zipWith, ht, ho]
      have hsame : some (Received.text (tmpStr text)) = some (Received.text (floats.text v)) := by
        rw [hreceived, Option.some.injEq, param, hv] at hgot
        exact hslot.symm.trans hgot
      rw [Option.some.injEq, Received.text.injEq] at hsame
      rw [← hsame]
      exact tmpStr_length_lt text

/-- **When arguments arrive.** `cfunction_call` delivers convertible arguments if and only if the
first one alone has its text printed, and within the room for it. -/
theorem cfunctionCall_delivers_iff (f : CFunction χ) (native : Invocation χ → RetRaw)
    (data : List Value)
    (hconvertible : List.Forall₂ (fun c o => convertible (parseType c) o.type = true)
      f.params.bytes data) :
    (∃ outcome call, cfunctionCall floats true f native (.array data) = some outcome ∧
      outcome.calls = [call] ∧ Delivered floats f data call) ↔ TextsKept floats f data := by
  have hwell : WellTyped f (.array data) := ⟨data, rfl, hconvertible⟩
  have htypes := (wellTyped_array_iff f data).mp hwell
  obtain ⟨stores, hmarshal⟩ := (marshal_isOk_iff floats (void_not_mem_paramTypes f) data 0
    htypes.length_eq).mpr htypes
  have hall := marshalled_of_eq_ok floats (void_not_mem_paramTypes f) htypes.length_eq hmarshal
  obtain ⟨value, hvalue⟩ := returnValue_isSome (f.ret.bytes.headD 0) (native (f.call stores))
  have hcall : cfunctionCall floats true f native (.array data)
      = some ⟨value, [], [f.call stores]⟩ := by
    rw [cfunctionCall_array, if_neg (fun h => h htypes.length_eq), hmarshal]
    change (returnValue _ _).bind _ = _
    rw [hvalue]
    rfl
  constructor
  · rintro ⟨outcome, call, houtcome, hcalls, hdelivered⟩
    rw [hcall, Option.some.injEq] at houtcome
    subst houtcome
    cases hcalls
    exact textsKept_of_delivered f hall hdelivered
  · intro hkept
    exact ⟨_, f.call stores, hcall, rfl, delivered_of_textsKept f hall hkept⟩

end Floats

/-! ### Two calls -/

def zeroFloats : FloatOps := ⟨fun _ => 0, fun _ => 0, fun _ => CString.lit "0.000000"⟩

def quietFunction (params : String) : CFunction Unit :=
  ⟨CString.lit "f", (), CString.lit params, CString.lit ""⟩

/-- A `ret_raw` that is not looked at. -/
def quietReturn (_ : Invocation Unit) : RetRaw := ⟨0, 0, false, CString.lit "", .null⟩

theorem cfunctionCall_delivers_first :
    (∃ outcome call, cfunctionCall zeroFloats true (quietFunction "si") quietReturn
        (.array [.array [], .int32 7]) = some outcome ∧
      outcome.calls = [call] ∧
      Delivered zeroFloats (quietFunction "si") [.array [], .int32 7] call) ↔
    TextsKept zeroFloats (quietFunction "si") [.array [], .int32 7] :=
  cfunctionCall_delivers_iff (quietFunction "si") quietReturn [.array [], .int32 7]
    (.cons rfl (.cons rfl .nil))

/-- An integer for a second parameter `s`: its pointer is stored over its text. -/
theorem not_delivered_second : ¬ ∀ (f : CFunction Unit) (data : List Value),
    List.Forall₂ (fun c o => convertible (parseType c) o.type = true) f.params.bytes data →
    ∃ outcome call, cfunctionCall zeroFloats true f quietReturn (.array data) = some outcome ∧
      outcome.calls = [call] ∧ Delivered zeroFloats f data call := by
  intro h
  obtain ⟨outcome, call, houtcome, hcalls, hdelivered⟩ :=
    h (quietFunction "is") [.int32 7, .int32 5] (.cons rfl (.cons rfl .nil))
  cases houtcome
  cases hcalls
  have hkept := hdelivered.kept
  revert hkept
  decide

end CageKeeper
