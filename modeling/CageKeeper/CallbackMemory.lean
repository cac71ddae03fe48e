import CageKeeper.ProxyParent
import CageKeeper.ValueReading

/-! The memory of the host's process while it serves callbacks. What `process_callbacks` reads is freed
again, but not the texts of log messages: one buffer for each of them is left, beside what the functions
of the host leave themselves, as `cfunction_call` does where it refuses its arguments. -/

namespace CageKeeper
open ByteStream BlockHeap

variable {F : Type}

/-- The functions of the host, with the memory they use. They return a value or `NULL`. -/
structure HeapNatives (F : Type) where
  call : F → Addr → ValueM (Option Addr)

/-- What a native function returns is its caller's to free, and it leaves its arguments alone. It may leave
other memory behind, in each call what `left` says of it. -/
def HeapNatives.Owned (natives : HeapNatives F) (left : F → List Block → Prop) : Prop :=
  ∀ (f : F) (args : HeapValue) (h : Heap Block), (∀ x ∈ args.blocks, h.block x.1 = some x.2) →
    ∃ ret h' kept, natives.call f args.root h = some (ret, h') ∧ left f (kept.map Prod.snd) ∧
      match ret with
      | none => Adds h h' kept
      | some v => ∃ tree : HeapValue, tree.root = v ∧ Adds h h' (tree.blocks ++ kept)

/-- How a turn of the loop in `process_callbacks` ends. -/
inductive Turn (F : Type) where
  | logged (text : CString)
  | answered (f : F) (reply : Bytes)
  | skipped
  /-- The loop returns false since this function has returned `NULL`. -/
  | refused (f : F)
  | returned (ret : Bool)
  /-- `language_log` has been called with `NULL`, or with a conversion that has no argument. -/
  | crashed

/-! ### The loop -/

section Loop

variable {χ : Type} [Channel χ]

/-- The rest of a callback, once its name and its arguments have been read. -/
def callbackHeap (natives : HeapNatives F) (find : CString → Option F) (name args : Addr) :
    ValueM (Turn F) := do
  let text ← loadText name
  match find text with
  | none => do
      valueDestroy args
      HeapM.free name
      pure (.returned false)
  | some f => do
      match ← natives.call f args with
      | none => do
          valueDestroy args
          HeapM.free name
          pure (.refused f)
      | some ret => do
          let reply ← writeValueHeap ret
          valueDestroy ret
          valueDestroy args
          HeapM.free name
          pure (.answered f reply)

def contentHeap (natives : HeapNatives F) (find : CString → Option F) :
    Option Resp → Stateful (Heap Block) χ (Turn F)
  | some .callback => do
      match ← (readStringHeap maxStringSize).attempt with
      | none => pure (.returned false)
      | some name => do
          match ← readValueHeap.attempt with
          | none => do
              Stateful.act (HeapM.free name)
              pure (.returned false)
          | some args => Stateful.act (callbackHeap natives find name args)
  | some .log => do
      match ← (readStringHeap maxStringSize).attempt with
      | none => pure .crashed
      | some message => do
          let text ← Stateful.act (loadText message)
          match languageLog text [] with
          | none => pure .crashed
          | some _ => pure (.logged text)
  | some .error => pure (.returned false)
  | some .return => pure (.returned true)
  | none => pure .skipped

/-- A turn of the loop in `process_callbacks`. -/
def turnHeap (natives : HeapNatives F) (find : CString → Option F) :
    Stateful (Heap Block) χ (Turn F) := do
  match ← (Stateful.lift readByte).attempt with
  | none => pure (.returned false)
  | some resp => contentHeap natives find (Resp.ofCode resp)

/-- What a turn has done, for the message that it has read: its end and the blocks that are left,
beside those that were there. -/
inductive Turned (left : F → List Block → Prop) (find : CString → Option F) (h : Heap Block)
    (blocks : List (Addr × Block)) (h' : Heap Block) : Turn F → Message → Prop where
  | failed (hleft : LeftOver h blocks h') : Turned left find h blocks h' (.returned false) .failed
  | unknown {name : CString} {args : Value} (hfind : find name = none) (hadds : Adds h h' blocks) :
      Turned left find h blocks h' (.returned false) (.callback name args)
  | null {name : CString} {args : Value} {f : F} (hfind : find name = some f)
      {kept : List (Addr × Block)} (hkept : left f (kept.map Prod.snd)) (hadds : Adds h h' (kept ++ blocks)) :
      Turned left find h blocks h' (.refused f) (.callback name args)
  | answered {name : CString} {args : Value} {f : F} (hfind : find name = some f) (ret : Value)
      {kept : List (Addr × Block)} (hkept : left f (kept.map Prod.snd)) (hadds : Adds h h' (kept ++ blocks)) :
      Turned left find h blocks h' (.answered f (writeValue ret)) (.callback name args)
  | unreadable : Turned left find h blocks h' .crashed (.log none)
  | conversion {text : CString} (hline : languageLog text [] = none) :
      Turned left find h blocks h' .crashed (.log (some text))
  | logged {text line : CString} (hline : languageLog text [] = some line) (message : Addr)
      (hadds : Adds h h' ((message, .text (some text)) :: blocks)) :
      Turned left find h blocks h' (.logged text) (.log (some text))
  | error (hadds : Adds h h' blocks) : Turned left find h blocks h' (.returned false) .error
  | return (hadds : Adds h h' blocks) : Turned left find h blocks h' (.returned true) .return
  | other (hadds : Adds h h' blocks) : Turned left find h blocks h' .skipped .other

variable {natives : HeapNatives F} {left : F → List Block → Prop} (find : CString → Option F)
  {h h' : Heap Block} {blocks : List (Addr × Block)}

theorem callbackHeap_turned (howned : natives.Owned left) {name : Addr} {text : CString}
    {args : HeapValue} (hadds : Adds h h' (args.blocks ++ (name, .text (some text)) :: blocks)) :
    ∃ turn h'', callbackHeap natives find name args.root h' = some (turn, h'') ∧
      Turned left find h blocks h'' turn (.callback text args.value) := by
  have htext := loadText_eq args.blocks hadds
  have hclear : ∀ {s : Heap Block} {others : List (Addr × Block)} (turn : Turn F),
      Adds h s (args.blocks ++ (name, .text (some text)) :: others) →
        ∃ s', (do
          valueDestroy args.root
          HeapM.free name
          pure turn : ValueM (Turn F)) s = some (turn, s') ∧ Adds h s' others := by
    intro s others turn hadds
    obtain ⟨h₁, hdestroy, hadds₁⟩ := valueDestroy_adds hadds
    obtain ⟨h₂, hfree, hadds₂⟩ := hadds₁.free []
    refine ⟨h₂, ?_, hadds₂⟩
    rw [HeapM.bind_eq hdestroy, HeapM.bind_eq hfree, HeapM.pure_apply]
  -- what the function has left goes behind what was read
  have hbehind : ∀ kept : List (Addr × Block),
      (kept ++ (args.blocks ++ (name, Block.text (some text)) :: blocks)).Perm
        (args.blocks ++ (name, .text (some text)) :: (kept ++ blocks)) := fun kept =>
    (List.perm_append_comm_assoc ..).trans (List.perm_middle.append_left args.blocks)
  cases hfind : find text with
  | none =>
      obtain ⟨h₁, hrun, hadds₁⟩ := hclear (.returned false) hadds
      refine ⟨_, h₁, ?_, .unknown hfind hadds₁⟩
      rw [callbackHeap, HeapM.bind_eq htext, hfind]
      exact hrun
  | some f =>
      obtain ⟨ret, h₁, kept, hcall, hkept, hret⟩ := howned f args h' fun x hx =>
        hadds.block_mem x (List.mem_append_left _ hx)
      cases ret with
      | none =>
          obtain ⟨h₂, hrun, hadds₂⟩ := hclear (.refused f) ((hadds.trans hret).perm (hbehind kept))
          refine ⟨_, h₂, ?_, .null hfind hkept hadds₂⟩
          rw [callbackHeap, HeapM.bind_eq htext, hfind]
          exact (HeapM.bind_eq hcall).trans hrun
      | some v =>
          obtain ⟨tree, rfl, hret⟩ := hret
          have hadds₁ : Adds h h₁ (tree.blocks ++
              (args.blocks ++ (name, .text (some text)) :: (kept ++ blocks))) := by
            refine (hadds.trans hret).perm ?_
            rw [List.append_assoc]
            exact (hbehind kept).append_left tree.blocks
          have hwrite := writeValueHeap_eq hadds₁
          obtain ⟨h₂, hdestroy, hadds₂⟩ := valueDestroy_adds hadds₁
          obtain ⟨h₃, hrun, hadds₃⟩ := hclear (.answered f (writeValue tree.value)) hadds₂
          refine ⟨_, h₃, ?_, .answered hfind tree.value hkept hadds₃⟩
          rw [callbackHeap, HeapM.bind_eq htext, hfind]
          exact (HeapM.bind_eq hcall).trans
            ((HeapM.bind_eq hwrite).trans ((HeapM.bind_eq hdestroy).trans hrun))

theorem contentHeap_turned (howned : natives.Owned left) (tag : Option Resp) (channel : χ)
    (hadds : Adds h h' blocks) :
    Stateful.Agrees (Turned left find h blocks) (fun _ => False) (contentHeap natives find tag channel h')
      (readContent tag channel) := by
  cases tag with
  | none => exact .ok (.other hadds)
  | some tag =>
      cases tag with
      | error => exact .ok (.error hadds)
      | «return» => exact .ok (.return hadds)
      | log =>
          refine (((readStringHeap_agrees maxStringSize channel hadds).attempt _).bind ?_)
          intro message text rest s hread
          cases hread with
          | none hleft => exact .ok .unreadable
          | @some message text hadds₁ =>
              refine .act_bind (loadText_eq [] hadds₁) ?_
              cases hline : languageLog text [] with
              | none => exact .ok (.conversion hline)
              | some line => exact .ok (.logged hline message hadds₁)
      | callback =>
          refine (((readStringHeap_agrees maxStringSize channel hadds).attempt _).bind ?_)
          intro name text rest s hread
          cases hread with
          | none hleft => exact .ok (.failed hleft)
          | @some name text hadds₁ =>
              refine (((readValueHeap_reads rest hadds₁).attempt _).bind ?_)
              intro args value rest s hread
              cases hread with
              | none hleft =>
                  obtain ⟨leaked, hlength, htexts, hadds₂⟩ := hleft
                  obtain ⟨h₃, hfree, hadds₃⟩ := hadds₂.free leaked
                  exact .act_bind hfree (.ok (.failed ⟨leaked, hlength, htexts, hadds₃⟩))
              | @some args value htree =>
                  obtain ⟨tree, rfl, rfl, hadds₂⟩ := htree
                  obtain ⟨turn, h₃, hrun, hturned⟩ := callbackHeap_turned find howned hadds₂
                  simp only [Stateful.act_eq hrun]
                  exact .ok hturned

/-- **A turn and its memory.** -/
theorem turnHeap_turned (howned : natives.Owned left) (channel : χ) (hadds : Adds h h' blocks) :
    Stateful.Agrees (Turned left find h blocks) (fun _ => False) (turnHeap natives find channel h')
      (readMessage channel) := by
  have hbyte : Stateful.Agrees (fun s value result => s = h' ∧ value = result) (LeftOver h blocks)
      ((Stateful.lift readByte : Stateful (Heap Block) χ UInt8) channel h') (readByte channel) :=
    .lift (.of_adds hadds)
  refine (hbyte.attempt _).bind ?_
  intro resp resp' rest s hread
  cases hread with
  | none hleft => exact .ok (.failed hleft)
  | @some resp resp' h =>
      obtain ⟨rfl, rfl⟩ := h
      exact contentHeap_turned find howned (Resp.ofCode resp) rest hadds

/-! ### The loop -/

/-- The turns after which the loop goes on. -/
def Turn.GoesOn : Turn F → Prop
  | .logged _ | .answered _ _ | .skipped => True
  | _ => False

/-- The turns with which the loop returns. -/
def Turn.Returns : Turn F → Prop
  | .refused _ | .returned _ => True
  | _ => False

def Turn.texts (turns : List (Turn F)) : List CString :=
  turns.filterMap fun
    | .logged text => some text
    | _ => none

def Turn.called (turns : List (Turn F)) : List F :=
  turns.filterMap fun
    | .answered f _ | .refused f => some f
    | _ => none

/-- Some turns of the loop in `process_callbacks`. -/
inductive Turns (natives : HeapNatives F) (find : CString → Option F) (channel : χ) (h : Heap Block) :
    List (Turn F) → χ → Heap Block → Prop where
  | nil : Turns natives find channel h [] channel h
  | snoc {turns : List (Turn F)} {turn : Turn F} {middle rest : χ} {h₁ h₂ : Heap Block}
      (hturns : Turns natives find channel h turns middle h₁)
      (hturn : turnHeap natives find middle h₁ = some (.ok turn (rest, h₂))) (hgoes : turn.GoesOn) :
      Turns natives find channel h (turns ++ [turn]) rest h₂

/-- What some turns leave: a buffer for each log message, and what each function that was called has left. -/
def LeftBy (left : F → List Block → Prop) (turns : List (Turn F)) (blocks : List (Addr × Block)) : Prop :=
  ∃ keeps : List (List Block), List.Forall₂ left (Turn.called turns) keeps ∧
    (blocks.map Prod.snd).Perm ((Turn.texts turns).map (Block.text ∘ some) ++ keeps.flatten)

/-- Some memory has been left by turns, and nothing else. -/
def TurnsLeave (left : F → List Block → Prop) (h : Heap Block) (turns : List (Turn F)) (h' : Heap Block) :
    Prop :=
  ∃ blocks : List (Addr × Block), Adds h h' blocks ∧ LeftBy left turns blocks

theorem LeftBy.append {turns others : List (Turn F)} {more : List (Addr × Block)}
    (hturns : LeftBy left turns blocks) (hothers : LeftBy left others more) :
    LeftBy left (turns ++ others) (more ++ blocks) := by
  obtain ⟨keeps, hkeeps, hblocks⟩ := hturns
  obtain ⟨keeps', hkeeps', hmore⟩ := hothers
  refine ⟨keeps ++ keeps', ?_, ?_⟩
  · rw [Turn.called, List.filterMap_append]
    exact List.rel_append hkeeps hkeeps'
  · rw [Turn.texts, List.filterMap_append, List.map_append, List.map_append, List.flatten_append]
    refine (hmore.append hblocks).trans (List.perm_append_comm.trans ?_)
    rw [List.append_assoc, List.append_assoc]
    exact (List.perm_append_comm_assoc ..).append_left _

/-- Step: what is left after a turn after which the loop goes on. -/
theorem Turned.leaves {turn : Turn F} {message : Message} (hgoes : turn.GoesOn)
    (hturned : Turned left find h blocks h' turn message) :
    ∃ more, Adds h h' (more ++ blocks) ∧ LeftBy left [turn] more := by
  cases hturned with
  | @answered name args f hfind ret kept hkept hadds =>
      exact ⟨kept, hadds, [kept.map Prod.snd], .cons hkept .nil, by simp [Turn.texts]⟩
  | other hadds => exact ⟨[], hadds, [], .nil, .nil⟩
  | logged hline message hadds => exact ⟨[_], hadds, [], .nil, .refl _⟩
  | _ => exact hgoes.elim

theorem Turns.leave (howned : natives.Owned left) {turns : List (Turn F)} {channel rest : χ}
    (hturns : Turns natives find channel h turns rest h') : TurnsLeave left h turns h' := by
  induction hturns with
  | nil => exact ⟨[], .refl h, [], .nil, .nil⟩
  | @snoc turns turn middle rest h₁ h₂ _ hturn hgoes ih =>
      obtain ⟨blocks, hadds, hblocks⟩ := ih
      obtain ⟨message, -, hturned⟩ := (turnHeap_turned find howned middle hadds).of_ok hturn
      obtain ⟨more, hadds', hmore⟩ := hturned.leaves find hgoes
      exact ⟨more ++ blocks, hadds', hblocks.append hmore⟩

/-- Step: what is left when the loop returns. -/
theorem Turned.leaks {turn : Turn F} {message : Message} (hreturns : turn.Returns)
    (hturned : Turned left find h blocks h' turn message) :
    ∃ buffer more : List (Addr × Block), Adds h h' (buffer ++ (more ++ blocks)) ∧
      LeftBy left [turn] more ∧ buffer.length ≤ 1 := by
  cases hturned with
  | failed hleft =>
      obtain ⟨buffer, hlength, -, hadds⟩ := hleft
      exact ⟨buffer, [], hadds, ⟨[], .nil, .nil⟩, hlength⟩
  | @null name args f hfind kept hkept hadds =>
      exact ⟨[], kept, hadds, ⟨[kept.map Prod.snd], .cons hkept .nil, by simp [Turn.texts]⟩, Nat.zero_le 1⟩
  | unknown hfind hadds => exact ⟨[], [], hadds, ⟨[], .nil, .nil⟩, Nat.zero_le 1⟩
  | error hadds => exact ⟨[], [], hadds, ⟨[], .nil, .nil⟩, Nat.zero_le 1⟩
  | «return» hadds => exact ⟨[], [], hadds, ⟨[], .nil, .nil⟩, Nat.zero_le 1⟩
  | _ => exact hreturns.elim

/-- **The memory of `process_callbacks`.** However many messages the child sends and whatever they
are, no turn uses memory that is not its own, and after some turns one buffer is left for each log
message, with its text, what the functions that were called have left, and nothing else. When the loop
returns there is at most one buffer more. -/
theorem Turns.memory (howned : natives.Owned left) {turns : List (Turn F)} {channel rest : χ}
    (hturns : Turns natives find channel h turns rest h') :
    TurnsLeave left h turns h' ∧ turnHeap natives find rest h' ≠ none ∧
      ∀ turn last h'', turnHeap natives find rest h' = some (.ok turn (last, h'')) → turn.Returns →
        ∃ buffer blocks : List (Addr × Block), Adds h h'' (buffer ++ blocks) ∧
          LeftBy left (turns ++ [turn]) blocks ∧ buffer.length ≤ 1 := by
  have hleaves := hturns.leave find howned
  obtain ⟨blocks, hadds, hblocks⟩ := hleaves
  have hagrees := turnHeap_turned find howned rest hadds
  refine ⟨⟨blocks, hadds, hblocks⟩, hagrees.ne_none, fun turn last h'' hturn hreturns => ?_⟩
  obtain ⟨message, -, hturned⟩ := hagrees.of_ok hturn
  obtain ⟨buffer, more, hadds', hmore, hlength⟩ := hturned.leaks find hreturns
  exact ⟨buffer, more ++ blocks, hadds', hblocks.append hmore, hlength⟩

end Loop

/-- A native function that says yes, and leaves a buffer each time. -/
def agreeing : HeapNatives Unit where
  call _ _ := do
    let _ ← HeapM.alloc (.text none)
    let ret ← valueNewScalar (.boolean true)
    pure (some ret)

theorem agreeing_owned : agreeing.Owned fun _ kept => kept = [.text none] := by
  intro f args h _
  obtain ⟨sig, h₁, halloc, hadds⟩ := (Adds.refl h).alloc (.text none)
  obtain ⟨v, h₂, hnew, hadds'⟩ := valueNewScalar_adds hadds (Scalar.boolean true)
  refine ⟨some v, h₂, [(sig, .text none)], ?_, rfl, .scalar v (.boolean true), rfl, hadds'⟩
  exact (HeapM.bind_eq halloc).trans ((HeapM.bind_eq hnew).trans (HeapM.pure_apply _ _))

/-- A callback, a log message, and then the end of the run. -/
theorem Turns.memory_agreeing :
    ∃ (turns : List (Turn Unit)) (rest : Pipe) (h' : Heap Block),
      Turn.texts turns = [CString.lit "a"] ∧ turns.length = 2 ∧
        TurnsLeave (fun _ kept => kept = [.text none]) .empty turns h' ∧
        turnHeap agreeing (fun _ => some ()) rest h' ≠ none ∧
        ∃ last h'', turnHeap agreeing (fun _ => some ()) rest h' =
            some (.ok (.returned true) (last, h'')) ∧
          ∃ buffer blocks : List (Addr × Block), Adds .empty h'' (buffer ++ blocks) ∧
            LeftBy (fun _ kept => kept = [.text none]) (turns ++ [.returned true]) blocks ∧
            buffer.length ≤ 1 := by
  have hcallback : turnHeap agreeing (fun _ => some ())
      (⟨[10, 0, 0, 0, 0, 5, 0, 0, 0, 0, 13, 1, 0, 0, 0, 97, 11], .eof⟩ : Pipe) .empty =
        some (.ok (.answered () [3, 1]) _) := rfl
  have hturns := (Turns.nil.snoc hcallback trivial).snoc
    (show turnHeap agreeing (fun _ => some ()) _ _ = some (.ok (.logged (CString.lit "a")) _) from rfl)
    trivial
  obtain ⟨h₁, h₂, h₃⟩ := Turns.memory (fun _ => some ()) agreeing_owned hturns
  exact ⟨_, _, _, rfl, rfl, h₁, h₂, _, _, rfl, h₃ (.returned true) _ _ rfl trivial⟩

end CageKeeper
