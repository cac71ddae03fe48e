import CageKeeper.ProxyGuest
import CageKeeper.SessionWire

/-! The direct run: the interpreter in the host's own process, without a proxy. A callback is then
a call of the function that was given to the interpreter, and an operation of the host is a call
of the interpreter's. This is what a sandboxed run is to agree with, for the programs and guests
whose messages stay within the limits of the proxy. -/

namespace CageKeeper
open ByteStream

variable {F W G α : Type}

/-- What the native functions have done: the memory they share, their calls and what they have
returned. -/
structure Trace (F W : Type) where
  world : W
  calls : List (F × Value)
  replies : List Value

/-- A run of the interpreter with the functions it has been given. It has no result here if it
calls a function it has not been given, or one that uses operations of its own or returns an array
with a `NULL` in it. -/
def Guest.direct (natives : Natives F W) (functions : CString → Option F) :
    Guest α → Trace F W → Option (α × Trace F W)
  | .done result, trace => some (result, trace)
  | .log _ next, trace => next.direct natives functions trace
  | .call name args resume, trace =>
      match functions name with
      | none => none
      | some f =>
          match natives.call f args trace.world with
          | .ret value world => (resume value).direct natives functions
              ⟨world, trace.calls ++ [(f, args)], trace.replies ++ value.toList⟩
          | .holed _ _ => none
          | .op _ _ _ => none

/-- The state of a direct run: the interpreter's memory, the functions it has been given and what
the native functions have done. -/
structure Direct (F W G : Type) where
  memory : G
  functions : CString → Option F
  trace : Trace F W

namespace Direct

def start (world : W) (memory : G) : Direct F W G := ⟨memory, fun _ => none, ⟨world, [], []⟩⟩

/-- One operation of the host, without a proxy. -/
def call (natives : Natives F W) (interp : Interp G) (d : Direct F W G) :
    Op F → Option (Result × Direct F W G)
  | .defineConstant name value =>
      ((interp.defineConstant (some name) (some value) d.memory).direct natives d.functions
        d.trace).map fun (memory, trace) => (.unit, ⟨memory, d.functions, trace⟩)
  | .defineFunction name f =>
      ((interp.defineFunction (some name) (natives.numParams f) d.memory).direct natives
        d.functions d.trace).map fun (memory, trace) =>
          (.unit, ⟨memory, Function.update d.functions name (some f), trace⟩)
  | .compileScript script =>
      ((interp.compileScript (some script) d.memory).direct natives d.functions d.trace).map
        fun ((ret, memory), trace) => (.bool ret, ⟨memory, d.functions, trace⟩)
  | .isFunction name =>
      ((interp.isFunction (some name) d.memory).direct natives d.functions d.trace).map
        fun ((ret, memory), trace) => (.bool ret, ⟨memory, d.functions, trace⟩)
  | .callFunction name args =>
      ((interp.callFunction (some name) (some args) d.memory).direct natives d.functions
        d.trace).map fun ((ret, memory), trace) => (.value ret, ⟨memory, d.functions, trace⟩)

def run (natives : Natives F W) (interp : Interp G) (d : Direct F W G) :
    List (Op F) → Option (List Result × Direct F W G)
  | [] => some ([], d)
  | operation :: program =>
      (d.call natives interp operation).bind fun (result, d) =>
        (d.run natives interp program).map fun (results, d) => (result :: results, d)

theorem run_append (natives : Natives F W) (interp : Interp G) (d : Direct F W G)
    (program rest : List (Op F)) :
    d.run natives interp (program ++ rest) = (d.run natives interp program).bind
      fun (results, d) =>
        (d.run natives interp rest).map fun (later, d) => (results ++ later, d) := by
  induction program generalizing d with
  | nil => simp [run]
  | cons operation program ih =>
      simp only [List.cons_append, run, ih]
      cases d.call natives interp operation with
      | none => rfl
      | some called =>
          simp [Option.map_bind, Option.bind_map, Function.comp_def]

end Direct

/-! ### What a sandbox can carry -/

/-- The interpreter neither logs nor calls back. -/
def Guest.Quiet (guest : Guest α) : Prop := ∃ result, guest = .done result

/-- A run within the limits of the proxy: its log lines are without `%`, its callbacks are of
functions that the interpreter has been given and that return a value, and names and values fit
the reader at the other end. -/
def Guest.Admissible (natives : Natives F W) (functions : CString → Option F) (P : α → Prop) :
    Guest α → W → Prop
  | .done result, _ => P result
  | .log text next, world =>
      percent ∉ (logLine text).bytes ∧ next.Admissible natives functions P world
  | .call name args resume, world =>
      StringFits maxStringSize name.length ∧ args.Within maxStringSize maxArraySize ∧
        ∃ f value next, functions name = some f ∧
          natives.call f args world = .ret (some value) next ∧
          value.Within 0 0 ∧ (resume (some value)).Admissible natives functions P next

/-- An operation within the limits of the proxy. A function has a name of its own and no more
parameters than a byte can count. -/
def Op.Admissible (natives : Natives F W) (interp : Interp G) (d : Direct F W G) : Op F → Prop
  | .defineConstant name value =>
      StringFits 0 name.length ∧ value.Within 0 0 ∧
        (interp.defineConstant (some name) (some value) d.memory).Quiet
  | .defineFunction name f =>
      StringFits 0 name.length ∧ natives.numParams f ≤ 255 ∧ d.functions name = none ∧
        (interp.defineFunction (some name) (natives.numParams f) d.memory).Quiet
  | .compileScript script =>
      StringFits 0 script.length ∧ (interp.compileScript (some script) d.memory).Admissible natives
        d.functions (fun _ => True) d.trace.world
  | .isFunction name =>
      StringFits 0 name.length ∧ (interp.isFunction (some name) d.memory).Quiet
  | .callFunction name args =>
      StringFits 0 name.length ∧ args.Within 0 0 ∧
        (interp.callFunction (some name) (some args) d.memory).Admissible natives d.functions
          (fun result => ∀ value ∈ result.1, value.Within maxStringSize maxArraySize)
          d.trace.world

/-- A program within the limits of the proxy. -/
def Direct.Admissible (natives : Natives F W) (interp : Interp G) (d : Direct F W G) :
    List (Op F) → Prop
  | [] => True
  | operation :: program =>
      operation.Admissible natives interp d ∧
        ∀ result next, d.call natives interp operation = some (result, next) →
          next.Admissible natives interp program

instance (guest : Guest α) : Decidable guest.Quiet :=
  match guest with
  | .done result => isTrue ⟨result, rfl⟩
  | .log _ _ => isFalse (by rintro ⟨_, h⟩; cases h)
  | .call _ _ _ => isFalse (by rintro ⟨_, h⟩; cases h)

instance Guest.decidableAdmissible (natives : Natives F W) (functions : CString → Option F)
    (P : α → Prop) [DecidablePred P] :
    ∀ (guest : Guest α) (world : W), Decidable (guest.Admissible natives functions P world)
  | .done result, _ => inferInstanceAs (Decidable (P result))
  | .log _ next, world =>
      have := next.decidableAdmissible natives functions P world
      inferInstanceAs (Decidable (_ ∧ _))
  | .call name args resume, world =>
      match hfind : functions name with
      | none => isFalse (by rintro ⟨-, -, f, value, next, hf, -⟩; simp [hfind] at hf)
      | some f =>
          match hcall : natives.call f args world with
          | .ret (some value) next =>
              have := (resume (some value)).decidableAdmissible natives functions P next
              decidable_of_iff (StringFits maxStringSize name.length ∧
                  args.Within maxStringSize maxArraySize ∧ value.Within 0 0 ∧
                  (resume (some value)).Admissible natives functions P next)
                (by simp [Guest.Admissible, hfind, hcall])
          | .ret none _ => isFalse (by simp [Guest.Admissible, hfind, hcall])
          | .holed _ _ => isFalse (by simp [Guest.Admissible, hfind, hcall])
          | .op _ _ _ => isFalse (by simp [Guest.Admissible, hfind, hcall])

instance (natives : Natives F W) (interp : Interp G) (d : Direct F W G) (operation : Op F) :
    Decidable (operation.Admissible natives interp d) :=
  match operation with
  | .defineConstant _ _ => inferInstanceAs (Decidable (_ ∧ _))
  | .defineFunction _ _ => inferInstanceAs (Decidable (_ ∧ _))
  | .compileScript _ => inferInstanceAs (Decidable (_ ∧ _))
  | .isFunction _ => inferInstanceAs (Decidable (_ ∧ _))
  | .callFunction _ _ => inferInstanceAs (Decidable (_ ∧ _))

instance Direct.decidableAdmissible (natives : Natives F W) (interp : Interp G) :
    ∀ (program : List (Op F)) (d : Direct F W G), Decidable (d.Admissible natives interp program)
  | [], _ => isTrue trivial
  | operation :: program, d =>
      match hcall : d.call natives interp operation with
      | none => decidable_of_iff (operation.Admissible natives interp d)
          (by simp [Direct.Admissible, hcall])
      | some (result, next) =>
          have := decidableAdmissible natives interp program next
          decidable_of_iff (operation.Admissible natives interp d ∧
              next.Admissible natives interp program)
            (by simp [Direct.Admissible, hcall])

/-! ### Such a program has a direct run -/

section Total

variable {natives : Natives F W} {interp : Interp G}

theorem Guest.Quiet.direct {functions : CString → Option F} {guest : Guest α}
    (h : guest.Quiet) (trace : Trace F W) :
    ∃ result, guest = .done result ∧
      guest.direct natives functions trace = some (result, trace) := by
  obtain ⟨result, rfl⟩ := h
  exact ⟨result, rfl, rfl⟩

theorem Guest.Admissible.direct {functions : CString → Option F} {P : α → Prop} {guest : Guest α}
    {trace : Trace F W} (h : guest.Admissible natives functions P trace.world) :
    ∃ result after, guest.direct natives functions trace = some (result, after) ∧ P result := by
  induction guest generalizing trace with
  | done result => exact ⟨result, trace, rfl, h⟩
  | log text next ih => exact ih h.2
  | call name args resume ih =>
      obtain ⟨-, -, f, value, world, hfind, hcall, -, hrest⟩ := h
      obtain ⟨result, after, hdirect, hresult⟩ := @ih (some value)
        ⟨world, trace.calls ++ [(f, args)], trace.replies ++ [value]⟩ hrest
      refine ⟨result, after, ?_, hresult⟩
      simp only [Guest.direct, hfind, hcall, Option.toList_some, hdirect]

theorem Guest.Admissible.result {functions : CString → Option F} {P : α → Prop} {guest : Guest α}
    {trace after : Trace F W} {result : α}
    (h : guest.Admissible natives functions P trace.world)
    (hdirect : guest.direct natives functions trace = some (result, after)) : P result := by
  obtain ⟨result', after', hdirect', hresult⟩ := h.direct
  rw [hdirect] at hdirect'
  cases hdirect'
  exact hresult

theorem Op.Admissible.call {d : Direct F W G} {operation : Op F}
    (h : operation.Admissible natives interp d) :
    ∃ result next, d.call natives interp operation = some (result, next) := by
  cases operation with
  | defineConstant name value =>
      obtain ⟨-, -, hquiet⟩ := h
      obtain ⟨memory, -, hdirect⟩ := hquiet.direct d.trace
      exact ⟨_, _, by rw [Direct.call, hdirect]; rfl⟩
  | defineFunction name f =>
      obtain ⟨-, -, -, hquiet⟩ := h
      obtain ⟨memory, -, hdirect⟩ := hquiet.direct d.trace
      exact ⟨_, _, by rw [Direct.call, hdirect]; rfl⟩
  | compileScript script =>
      obtain ⟨result, after, hdirect, -⟩ := h.2.direct
      exact ⟨_, _, by rw [Direct.call, hdirect]; rfl⟩
  | isFunction name =>
      obtain ⟨result, -, hdirect⟩ := h.2.direct d.trace
      exact ⟨_, _, by rw [Direct.call, hdirect]; rfl⟩
  | callFunction name args =>
      obtain ⟨result, after, hdirect, -⟩ := h.2.2.direct
      exact ⟨_, _, by rw [Direct.call, hdirect]; rfl⟩

/-- **Direct runs.** A program within the limits of the proxy has a direct run. -/
theorem Direct.Admissible.run {program : List (Op F)} {d : Direct F W G}
    (h : d.Admissible natives interp program) :
    ∃ results after, d.run natives interp program = some (results, after) := by
  induction program generalizing d with
  | nil => exact ⟨[], d, rfl⟩
  | cons operation program ih =>
      obtain ⟨hoperation, hrest⟩ := h
      obtain ⟨result, next, hcall⟩ := hoperation.call
      obtain ⟨results, after, hrun⟩ := ih (hrest result next hcall)
      refine ⟨result :: results, after, ?_⟩
      simp only [Direct.run, hcall, Option.bind_some, hrun, Option.map_some]

end Total

end CageKeeper
