import CageKeeper.SessionRefinement

/-! What the two sides make of a name. `define_function_proxy` tells the child about a function
before it looks whether the name is taken, so the host keeps the first function of a name while the
child goes by the last one. -/

namespace CageKeeper
open ByteStream

variable {F W G : Type}

/-! ### Definitions -/

/-- The definitions a child has been given, the latest first: names with their number of
parameters. -/
abbrev Given := List (Option CString × Nat)

/-- The number of parameters in the latest definition of a name. -/
def Given.latest (given : Given) (name : CString) : Option Nat :=
  (given.find? (·.1 = some name)).map Prod.snd

/-- The interpreter with a record of the definitions it is given. Nothing it does depends on the
record. -/
def Interp.recording (interp : Interp G) : Interp (G × Given) where
  defineConstant s v state := (interp.defineConstant s v state.1).map fun memory => (memory, state.2)
  defineFunction name numParams state :=
    (interp.defineFunction name numParams state.1).map fun memory =>
      (memory, (name, numParams) :: state.2)
  compileScript script state :=
    (interp.compileScript script state.1).map fun (ret, memory) => (ret, memory, state.2)
  isFunction functionName state :=
    (interp.isFunction functionName state.1).map fun (ret, memory) => (ret, memory, state.2)
  callFunction functionName args state :=
    (interp.callFunction functionName args state.1).map fun (ret, memory) => (ret, memory, state.2)

/-- The interpreter only stores the functions it is given: it does not call them. -/
def Interp.StoresFunctions (interp : Interp G) : Prop :=
  ∀ name numParams memory, ∃ next, (interp.defineFunction name numParams memory).stop = .done next

/-- `define_function_proxy` for a name and a function. -/
def defineOp (definition : CString × F) : Op F := .defineFunction definition.1 definition.2

theorem defineOp_injective : Function.Injective (defineOp : CString × F → Op F) := by
  rintro ⟨name, f⟩ ⟨name', f'⟩ h
  cases h
  rfl

/-- A session in which the host does nothing but define functions. -/
def definingSession (world : W) (memory : G) (definitions : List (CString × F)) :
    Session F W (G × Given) :=
  .start world (definitions.map defineOp) (memory, [])

/-- The child has processed all commands: it waits for the next one, with nothing left to read. -/
structure Session.Processed (s : Session F W (G × Given)) (given : Given) : Prop where
  host : s.left.point = .host
  child : ∃ memory, s.right.point = .loop (memory, given)
  commands : s.toRight = []

section Agreement

variable (natives : Natives F W) (interp : Interp G) (world : W) (memory : G)
  (definitions : List (CString × F))

/-- The states of a session that defines functions. -/
def DefiningReaches (s : Session F W (G × Given)) : Prop :=
  Relation.ReflTransGen (Session.Step natives interp.recording)
    (definingSession world memory definitions) s

/-- Whenever the child has processed all commands, its latest definition of a name has the number
of parameters of the function the host dispatches the name to. -/
def DefinitionsAgree : Prop :=
  ∀ s given, DefiningReaches natives interp world memory definitions s → s.Processed given →
    ∀ name, given.latest name = (s.left.callbackFunctions.lookup name).2.map natives.numParams

/-- A definition that is refused changes neither side. -/
def RefusalsChangeNothing : Prop :=
  ∀ s t given given' name f rest, DefiningReaches natives interp world memory definitions s →
    s.Processed given → s.left.program = .defineFunction name f :: rest →
    (s.left.callbackFunctions.contains name).2 →
    DefiningReaches natives interp world memory definitions t → t.Processed given' →
    t.left.program = rest →
    ∀ other, (t.left.callbackFunctions.lookup other).2 = (s.left.callbackFunctions.lookup other).2 ∧
      given'.latest other = given.latest other

/-- Definitions of one name have one number of parameters. -/
def Consistent : Prop :=
  definitions.Pairwise fun earlier later =>
    earlier.1 = later.1 → natives.numParams earlier.2 = natives.numParams later.2

end Agreement

/-! ### One definition -/

theorem Guest.stop_map {α β : Type} (f : α → β) {guest : Guest α} {result : α}
    (hstop : guest.stop = .done result) : (guest.map f).stop = .done (f result) := by
  induction guest with
  | done result' =>
      cases hstop
      rfl
  | log text next ih => exact ih hstop
  | call name args resume ih => cases hstop

theorem Parent.invoke_define (natives : Natives F W) {p : Parent F W} (hframes : p.frames = [])
    (name : CString) (f : F) :
    ∃ next, (invoke natives p (.defineFunction name f)).1 = next ∧ next.point = .host ∧
      next.frames = [] ∧ next.program = p.program ∧
      ∀ other, next.callbackFunctions.find other =
        (p.callbackFunctions.find other).or (if other = name then some f else none) := by
  cases hfind : p.callbackFunctions.find name with
  | none =>
      obtain ⟨next, hnext, hpoint, hnextFrames, -, hprogram, -, -, hfunctions⟩ :=
        invoke_defineFunction natives hframes f hfind
      refine ⟨next, hnext, hpoint, hnextFrames, hprogram, fun other => ?_⟩
      rw [hfunctions, Function.update_apply]
      split
      · rename_i hother
        rw [hother, hfind, Option.none_or]
      · rw [Option.or_none]
  | some first =>
      obtain ⟨line, hline⟩ := Option.isSome_iff_exists.mp (alreadyDefined_isSome name)
      refine ⟨_, rfl, ?_⟩
      simp only [invoke, defineFunctionProxy, CallbackTable.contains_eq, hfind, Option.isSome_some,
        dite_true, report, hline, finish, hframes]
      refine ⟨trivial, trivial, trivial, fun other => ?_⟩
      rw [CallbackTable.find_visit]
      split
      · rename_i hother
        rw [hother, hfind, Option.some_or]
      · rw [Option.or_none]

theorem Child.run_define {interp : Interp G} (hstores : interp.StoresFunctions)
    {natives : Natives F W} {c : Child (G × Given)} {memory : G} {given : Given}
    (hchild : c.point = .loop (memory, given)) {definition : CString × F}
    (hreadable : StringFits 0 definition.1.length)
    (hparams : natives.numParams definition.2 ≤ 255) (bytes : Bytes) :
    ∃ next written memory',
      (childMachine interp.recording).step c ((defineOp definition).command natives ++ bytes)
        = some (next, bytes, written) ∧
      next.point
        = .loop (memory', (some definition.1, natives.numParams definition.2) :: given) := by
  have hstep := child_obeys interp.recording hchild natives
    (show (defineOp definition).Readable from hreadable) bytes
  -- the number of parameters crosses in one byte
  have hbyte : (UInt8.ofNat (natives.numParams definition.2)).toNat
      = natives.numParams definition.2 := by
    rw [UInt8.toNat_ofNat']
    omega
  obtain ⟨next, hstop⟩ := hstores (some definition.1) (natives.numParams definition.2) memory
  have hdone : (childLoop interp.recording ((defineOp definition).request natives)
      (memory, given)).stop = .done ⟨(next, (some definition.1, natives.numParams definition.2) ::
        given), [], true, none, none⟩ := by
    simp only [defineOp, Op.request, childLoop, hbyte, Interp.recording]
    exact Guest.stop_map _ (Guest.stop_map _ hstop)
  refine ⟨_, _, next, hstep, ?_⟩
  rw [Child.advance_eq, hdone]
  rfl

/-! ### The run -/

/-- The function a list of definitions gives to a name if the first one counts. -/
def firstOf (definitions : List (CString × F)) (name : CString) : Option F :=
  (definitions.find? (·.1 = name)).map Prod.snd

theorem firstOf_append (front back : List (CString × F)) (name : CString) :
    firstOf (front ++ back) name = (firstOf front name).or (firstOf back name) := by
  rw [firstOf, List.find?_append, Option.map_or]
  rfl

theorem firstOf_singleton (name : CString) (f : F) (other : CString) :
    firstOf [(name, f)] other = if other = name then some f else none := by
  by_cases hother : other = name
  · simp [firstOf, hother]
  · simp [firstOf, hother, Ne.symm hother]

/-- What a child has been given by some definitions. -/
def givenBy (natives : Natives F W) (definitions : List (CString × F)) : Given :=
  (definitions.map fun definition =>
    (some definition.1, natives.numParams definition.2)).reverse

/-- The child has processed some definitions; others are on their way, or still to come. -/
structure Progress (natives : Natives F W) (seen pending rest : List (CString × F))
    (s : Session F W (G × Given)) : Prop where
  host : s.left.point = .host
  frames : s.left.frames = []
  program : s.left.program = rest.map defineOp
  functions : ∀ name, s.left.callbackFunctions.find name = firstOf (seen ++ pending) name
  child : ∃ memory, s.right.point = .loop (memory, givenBy natives seen)
  commands : s.toRight = pending.flatMap fun definition => (defineOp definition).command natives

namespace Progress

variable {natives : Natives F W} {interp : Interp G} {seen pending rest : List (CString × F)}
  {definition : CString × F} {s t : Session F W (G × Given)}

theorem start (natives : Natives F W) (world : W) (memory : G) (definitions : List (CString × F)) :
    Progress natives [] [] definitions (definingSession world memory definitions) where
  host := rfl
  frames := rfl
  program := rfl
  functions _ := rfl
  child := ⟨memory, rfl⟩
  commands := rfl

theorem parent (h : Progress natives seen pending (definition :: rest) s) :
    ∃ next, (parentMachine natives).step s.left s.toLeft
        = some (next, s.toLeft, (defineOp definition).command natives) ∧
      Progress natives seen (pending ++ [definition]) rest
        ⟨next, s.right, s.toRight ++ (defineOp definition).command natives, s.toLeft⟩ := by
  have hstep := parent_invokes natives h.host
    (h.program.trans (List.map_cons ..)) s.toLeft
  obtain ⟨next, hnext, hhost, hframes, hprogram, hfunctions⟩ := Parent.invoke_define natives
    (p := { s.left with program := rest.map defineOp }) h.frames definition.1 definition.2
  refine ⟨next, by rw [hstep, ← hnext]; rfl, hhost, hframes, hprogram, fun name => ?_, h.child, ?_⟩
  · rw [hfunctions name, ← List.append_assoc, firstOf_append, firstOf_singleton, ← h.functions name]
  · rw [h.commands, List.flatMap_append, List.flatMap_singleton]

theorem childStep (h : Progress natives seen (definition :: pending) rest s)
    (hstores : interp.StoresFunctions) (hreadable : StringFits 0 definition.1.length)
    (hparams : natives.numParams definition.2 ≤ 255) :
    ∃ next bytes written,
      (childMachine interp.recording).step s.right s.toRight = some (next, bytes, written) ∧
      Progress natives (seen ++ [definition]) pending rest
        ⟨s.left, next, bytes, s.toLeft ++ written⟩ := by
  obtain ⟨memory, hchild⟩ := h.child
  obtain ⟨next, written, memory', hstep, hnext⟩ := Child.run_define hstores hchild hreadable hparams
    (pending.flatMap fun definition => (defineOp definition).command natives)
  refine ⟨next, _, written, by rw [h.commands]; exact hstep, h.host, h.frames, h.program, ?_, ?_,
    rfl⟩
  · intro name
    rw [h.functions name, List.append_assoc]
    rfl
  · refine ⟨memory', hnext.trans ?_⟩
    rw [givenBy, givenBy, List.map_append, List.reverse_append]
    rfl

theorem step (h : Progress natives seen pending rest s) (hstores : interp.StoresFunctions)
    (hreadable : ∀ definition ∈ pending, StringFits 0 definition.1.length)
    (hparams : ∀ definition ∈ pending, natives.numParams definition.2 ≤ 255)
    (hstep : Session.Step natives interp.recording s t) :
    ∃ seen' pending' rest', seen' ++ pending' ++ rest' = seen ++ pending ++ rest ∧
      Progress natives seen' pending' rest' t := by
  have hwaits : rest = [] → ∀ pipe, s.left.step natives pipe = none := fun hrest pipe =>
    Parent.step_host_nil h.host (by rw [h.program, hrest]; rfl)
  cases hstep with
  | run hrun =>
      cases hrun with
      | left hparent =>
          cases rest with
          | nil =>
              rw [parentMachine] at hparent
              simp only [hwaits rfl, Option.map_none, reduceCtorEq] at hparent
          | cons definition rest =>
              obtain ⟨next, hnext, hprogress⟩ := h.parent
              cases hparent.symm.trans hnext
              exact ⟨_, _, _, by simp, hprogress⟩
      | right hchild =>
          cases pending with
          | nil =>
              obtain ⟨memory, hloop⟩ := h.child
              rw [h.commands, List.flatMap_nil, child_loop_waits _ hloop] at hchild
              cases hchild
          | cons definition pending =>
              obtain ⟨next, bytes, written, hnext, hprogress⟩ := h.childStep hstores
                (hreadable _ (List.mem_cons_self ..)) (hparams _ (List.mem_cons_self ..))
              cases hchild.symm.trans hnext
              exact ⟨_, _, _, by simp, hprogress⟩
  | timeout hread =>
      -- the host reads nothing, so no time budget can run out
      cases rest with
      | nil =>
          rw [hwaits rfl] at hread
          cases hread
      | cons definition rest =>
          rw [Parent.step_host h.host (h.program.trans (List.map_cons ..))] at hread
          have hpipe := congrArg (fun result => result.2.1.ending) (Option.some.inj hread)
          cases hpipe
  | hangup hdead | brokenPipe hdead =>
      obtain ⟨memory, hloop⟩ := h.child
      rw [hloop] at hdead
      cases hdead

/-- **Every run.** The definitions of a session are processed, on their way, or still to come. -/
theorem of_reaches {world : W} {memory : G} {definitions : List (CString × F)}
    (hstores : interp.StoresFunctions)
    (hreadable : ∀ definition ∈ definitions, StringFits 0 definition.1.length)
    (hparams : ∀ definition ∈ definitions, natives.numParams definition.2 ≤ 255)
    (hreaches : DefiningReaches natives interp world memory definitions s) :
    ∃ seen pending rest, seen ++ pending ++ rest = definitions ∧
      Progress natives seen pending rest s := by
  induction hreaches with
  | refl => exact ⟨[], [], definitions, rfl, start natives world memory definitions⟩
  | tail _ hstep ih =>
      obtain ⟨seen, pending, rest, hsplit, hprogress⟩ := ih
      have hpending : ∀ definition ∈ pending, definition ∈ definitions := by
        intro definition hmem
        rw [← hsplit]
        simp [hmem]
      obtain ⟨seen', pending', rest', hsame, hnext⟩ := hprogress.step hstores
        (fun definition hmem => hreadable definition (hpending definition hmem))
        (fun definition hmem => hparams definition (hpending definition hmem)) hstep
      exact ⟨seen', pending', rest', hsame.trans hsplit, hnext⟩

theorem reaches (h : Progress natives seen [] rest s) (hstores : interp.StoresFunctions)
    {front back : List (CString × F)} (hsplit : rest = front ++ back)
    (hreadable : ∀ definition ∈ front, StringFits 0 definition.1.length)
    (hparams : ∀ definition ∈ front, natives.numParams definition.2 ≤ 255) :
    ∃ t, Relation.ReflTransGen (Session.Run natives interp.recording) s t ∧
      Progress natives (seen ++ front) [] back t := by
  induction front generalizing seen rest s with
  | nil =>
      subst hsplit
      exact ⟨s, .refl, by rwa [List.append_nil]⟩
  | cons definition front ih =>
      subst hsplit
      obtain ⟨next, hparent, hsent⟩ := h.parent
      obtain ⟨child, bytes, written, hchild, hseen⟩ := hsent.childStep hstores
        (hreadable definition (List.mem_cons_self ..)) (hparams definition (List.mem_cons_self ..))
      obtain ⟨t, hrun, hprogress⟩ := ih hseen rfl
        (fun other hmem => hreadable other (List.mem_cons_of_mem _ hmem))
        (fun other hmem => hparams other (List.mem_cons_of_mem _ hmem))
      refine ⟨t, .head (.left hparent) (.head (.right hchild) hrun), ?_⟩
      rwa [List.append_assoc] at hprogress

theorem of_processed (h : Progress natives seen pending rest s) {given : Given}
    (hprocessed : s.Processed given) : pending = [] ∧ given = givenBy natives seen := by
  obtain ⟨memory, hloop⟩ := h.child
  obtain ⟨memory', hloop'⟩ := hprocessed.child
  refine ⟨?_, ?_⟩
  · cases pending with
    | nil => rfl
    | cons definition pending =>
        have hcommands := h.commands.symm.trans hprocessed.commands
        simp [defineOp, Op.command, writeByte] at hcommands
  · rw [hloop] at hloop'
    cases hloop'
    rfl

theorem processed (h : Progress natives seen [] rest s) : s.Processed (givenBy natives seen) :=
  ⟨h.host, h.child, h.commands⟩

end Progress

/-! ### The two views -/

section Views

variable {natives : Natives F W} {interp : Interp G} {world : W} {memory : G}
  {definitions : List (CString × F)}

@[simp] theorem latest_cons (numParams : Nat) (name other : CString) (given : Given) :
    Given.latest ((some name, numParams) :: given) other
      = if name = other then some numParams else given.latest other := by
  by_cases hname : name = other
  · simp [Given.latest, hname]
  · simp [Given.latest, hname]

theorem givenBy_append (natives : Natives F W) (front : List (CString × F))
    (definition : CString × F) : givenBy natives (front ++ [definition])
      = (some definition.1, natives.numParams definition.2) :: givenBy natives front := by
  rw [givenBy, givenBy, List.map_append, List.reverse_append]
  rfl

theorem mem_of_firstOf {name : CString} {f : F} (h : firstOf definitions name = some f) :
    (name, f) ∈ definitions := by
  obtain ⟨definition, hfind, rfl⟩ := Option.map_eq_some_iff.mp h
  have hname : definition.1 = name := by simpa using List.find?_some hfind
  rw [← hname]
  exact List.mem_of_find?_eq_some hfind

theorem firstOf_isSome {definition : CString × F} (hmem : definition ∈ definitions) :
    (firstOf definitions definition.1).isSome := by
  rw [firstOf, Option.isSome_map, List.find?_isSome]
  exact ⟨definition, hmem, by simp⟩

/-- With consistent definitions the first and the last one of a name have one number of
parameters. -/
theorem Consistent.latest_eq (h : Consistent natives definitions) (name : CString) :
    (givenBy natives definitions).latest name
      = (firstOf definitions name).map natives.numParams := by
  induction definitions using List.reverseRecOn with
  | nil => rfl
  | append_singleton front definition ih =>
      obtain ⟨hfront, -, hlast⟩ := List.pairwise_append.mp h
      obtain ⟨other, f⟩ := definition
      rw [givenBy_append, latest_cons, firstOf_append, firstOf_singleton, ih hfront]
      by_cases hname : other = name
      · rw [if_pos hname, if_pos hname.symm]
        cases hfirst : firstOf front name with
        | none => rfl
        | some first =>
            have hsame := hlast _ (mem_of_firstOf hfirst) _ (List.mem_singleton_self _) hname.symm
            exact congrArg some hsame.symm
      · rw [if_neg hname, if_neg (Ne.symm hname), Option.or_none]

theorem DefinitionsAgree.firstOf_eq
    (hagree : DefinitionsAgree natives interp world memory definitions)
    (hstores : interp.StoresFunctions)
    (hreadable : ∀ definition ∈ definitions, StringFits 0 definition.1.length)
    (hparams : ∀ definition ∈ definitions, natives.numParams definition.2 ≤ 255)
    {definition : CString × F} (hmem : definition ∈ definitions) :
    (firstOf definitions definition.1).map natives.numParams
      = some (natives.numParams definition.2) := by
  obtain ⟨front, back, happend⟩ := List.append_of_mem hmem
  have hsplit : definitions = (front ++ [definition]) ++ back := by
    rw [happend, List.append_assoc]
    rfl
  have hfront : ∀ other ∈ front ++ [definition], other ∈ definitions := by
    intro other hother
    rw [hsplit]
    exact List.mem_append_left _ hother
  obtain ⟨s, hrun, hprogress⟩ := (Progress.start natives world memory definitions).reaches hstores
    hsplit (fun other hother => hreadable other (hfront other hother))
    (fun other hother => hparams other (hfront other hother))
  have hlatest := hagree s _ (Session.steps_of_run hrun) hprogress.processed definition.1
  rw [List.nil_append, givenBy_append, latest_cons, if_pos rfl, CallbackTable.lookup_eq,
    hprogress.functions, List.append_nil, List.nil_append] at hlatest
  rw [hsplit, firstOf_append, Option.or_of_isSome (firstOf_isSome (by simp)), ← hlatest]

/-- **Agreement.** The two sides agree about the functions, and refused definitions change nothing,
exactly if the definitions of one name have one number of parameters. -/
theorem definitionsAgree_iff (hstores : interp.StoresFunctions)
    (hreadable : ∀ definition ∈ definitions, StringFits 0 definition.1.length)
    (hparams : ∀ definition ∈ definitions, natives.numParams definition.2 ≤ 255) :
    (DefinitionsAgree natives interp world memory definitions ∧
        RefusalsChangeNothing natives interp world memory definitions) ↔
      Consistent natives definitions := by
  constructor
  · rintro ⟨hagree, -⟩
    refine List.pairwise_of_forall_mem_list fun earlier hearlier later hlater hname => ?_
    have hfirst := hagree.firstOf_eq hstores hreadable hparams hearlier
    rw [hname, hagree.firstOf_eq hstores hreadable hparams hlater] at hfirst
    exact (Option.some.inj hfirst).symm
  intro hconsistent
  have hviews : ∀ s given, DefiningReaches natives interp world memory definitions s →
      s.Processed given → ∃ seen rest, definitions = seen ++ rest ∧
        Progress natives seen [] rest s ∧ given = givenBy natives seen := by
    intro s given hreaches hprocessed
    obtain ⟨seen, pending, rest, hsplit, hprogress⟩ :=
      Progress.of_reaches hstores hreadable hparams hreaches
    obtain ⟨rfl, hgiven⟩ := hprogress.of_processed hprocessed
    rw [List.append_nil] at hsplit
    exact ⟨seen, rest, hsplit.symm, hprogress, hgiven⟩
  have hagree : DefinitionsAgree natives interp world memory definitions := by
    intro s given hreaches hprocessed name
    obtain ⟨seen, rest, hsplit, hprogress, rfl⟩ := hviews s given hreaches hprocessed
    have hseen : Consistent natives seen := by
      rw [hsplit] at hconsistent
      exact (List.pairwise_append.mp hconsistent).1
    rw [hseen.latest_eq, CallbackTable.lookup_eq, hprogress.functions, List.append_nil]
  refine ⟨hagree, ?_⟩
  intro s t given given' name f rest hs hsProcessed hprogram hrefused ht htProcessed hrest other
  have hlatest := hagree s given hs hsProcessed other
  have hlatest' := hagree t given' ht htProcessed other
  obtain ⟨seen, todo, hsplit, hprogress, -⟩ := hviews s given hs hsProcessed
  obtain ⟨seen', todo', hsplit', hprogress', -⟩ := hviews t given' ht htProcessed
  -- the one definition between the two states
  rw [hprogress.program] at hprogram
  rw [hprogress'.program] at hrest
  obtain ⟨definition, todo, rfl, hdefinition, hmap⟩ := List.map_eq_cons_iff.mp hprogram
  cases hdefinition
  obtain rfl : todo' = todo := defineOp_injective.list_map (hrest.trans hmap.symm)
  have happend : seen' ++ todo' = (seen ++ [definition]) ++ todo' := by
    rw [← hsplit', hsplit, List.append_assoc]
    rfl
  have hseen : seen' = seen ++ [definition] := List.append_cancel_right happend
  have hsame : (t.left.callbackFunctions.lookup other).2
      = (s.left.callbackFunctions.lookup other).2 := by
    rw [CallbackTable.contains_eq] at hrefused
    rw [CallbackTable.lookup_eq, CallbackTable.lookup_eq, hprogress'.functions, hseen,
      List.append_nil, firstOf_append, firstOf_singleton, hprogress.functions, List.append_nil]
    by_cases hother : other = definition.1
    · rw [hprogress.functions, List.append_nil] at hrefused
      rw [hother, Option.or_of_isSome hrefused]
    · rw [if_neg hother, Option.or_none]
  exact ⟨hsame, by rw [hlatest, hlatest', hsame]⟩

end Views

/-- A host whose functions are told apart by their number of parameters. -/
def sizedNatives : Natives Nat Unit where
  numParams f := f
  call _ args world := .ret (some args) world

theorem echoInterp_storesFunctions : echoInterp.StoresFunctions := fun _ _ _ => ⟨(), rfl⟩

/-- A second definition of `f` with the same number of parameters. -/
theorem definitionsAgree_same :
    let definitions := [(CString.lit "f", 1), (CString.lit "g", 2), (CString.lit "f", 1)]
    DefinitionsAgree sizedNatives echoInterp () () definitions ∧
      RefusalsChangeNothing sizedNatives echoInterp () () definitions := by
  refine (definitionsAgree_iff echoInterp_storesFunctions ?_ ?_).mpr ?_
  · decide
  · decide
  · rw [Consistent]
    decide

/-- A second definition of `f` with two parameters, not one: the host refuses it, and the child
makes it its latest one. -/
theorem not_definitionsAgree_refused :
    ¬DefinitionsAgree sizedNatives echoInterp () ()
      [(CString.lit "f", 1), (CString.lit "f", 2)] := by
  intro hagree
  have hmem : (CString.lit "f", 2) ∈ [(CString.lit "f", 1), (CString.lit "f", 2)] := by simp
  have hfirst := hagree.firstOf_eq echoInterp_storesFunctions (by decide) (by decide) hmem
  exact absurd hfirst (by decide)

end CageKeeper
