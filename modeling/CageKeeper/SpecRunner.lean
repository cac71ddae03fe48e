import CageKeeper.CallbackProxies
import CageKeeper.HostPrograms

/-! `spec/run.c`: the program that runs a script with a set of native functions and calls those of the
script's functions that it knows. `run_specs` starts it twice for each script, with and without the
sandbox. -/

namespace CageKeeper
open ByteStream

namespace Spec

/-! ### The native functions -/

/-- The functions that are defined for the script. -/
inductive Native where
  | trace
  | getArray
  | add2
  | add3
  | fadd2
  | fadd3
  | concatStrings
  | concatArrays
  | negate
  deriving DecidableEq

/-- The calls of `define_function`, in their order: name, parameters and type of the result. -/
def Native.cfunction : Native → CFunction Unit
  | .trace => ⟨CString.lit "trace", (), CString.lit "s", CString.lit ""⟩
  | .getArray => ⟨CString.lit "get_array", (), CString.lit "ii", CString.lit "["⟩
  | .add2 => ⟨CString.lit "add2", (), CString.lit "ii", CString.lit "i"⟩
  | .add3 => ⟨CString.lit "add3", (), CString.lit "iii", CString.lit "i"⟩
  | .fadd2 => ⟨CString.lit "fadd2", (), CString.lit "ff", CString.lit "f"⟩
  | .fadd3 => ⟨CString.lit "fadd3", (), CString.lit "fff", CString.lit "f"⟩
  | .concatStrings => ⟨CString.lit "concat_strings", (), CString.lit "ss", CString.lit "s"⟩
  | .concatArrays => ⟨CString.lit "concat_arrays", (), CString.lit "[[", CString.lit "["⟩
  | .negate => ⟨CString.lit "negate", (), CString.lit "b", CString.lit "b"⟩

def Native.all : List Native :=
  [.trace, .getArray, .add2, .add3, .fadd2, .fadd3, .concatStrings, .concatArrays, .negate]

/-- The float operations of the runner: a sum is rounded once or after every addition, as the compiler
has it. -/
structure Floats extends FloatOps where
  sum : List (BitVec 32) → BitVec 32

/-- `get_array`. -/
def getArray (width height : BitVec 32) : ValueRef :=
  .array ((List.range width.toInt.toNat).map fun x =>
    .array ((List.range height.toInt.toNat).map fun y => .int32 (BitVec.ofNat 32 (x * 10 + y))))

/-- `concat_strings`. -/
def concatStrings (s1 s2 : CString) : CString :=
  ⟨s1.bytes ++ s2.bytes, fun hmem => (List.mem_append.mp hmem).elim s1.nulFree s2.nulFree⟩

/-- `concat_arrays`. -/
def concatArrays (array1 array2 : List Value) : ValueRef :=
  .array (array1.map valueClone ++ array2.map valueClone)

/-- What is in `ret_raw` before a call. -/
def noReturn : RetRaw := ⟨0, 0, false, CString.lit "", .null⟩

/-- The bodies of the functions, with what is on the standard output. The words are as the parameters
have them; a sum of integers is a word. -/
def Native.body (floats : Floats) : Native → List (Option Received) → Bytes → RetRaw × Bytes
  | .trace, [some (.text s)], stdout => (noReturn, stdout ++ s.bytes ++ [newline])
  | .getArray, [some (.int32 width), some (.int32 height)], stdout =>
      ({ noReturn with ptr := Spec.getArray width height }, stdout)
  | .add2, [some (.int32 x), some (.int32 y)], stdout => ({ noReturn with i32 := x + y }, stdout)
  | .add3, [some (.int32 x), some (.int32 y), some (.int32 z)], stdout =>
      ({ noReturn with i32 := x + y + z }, stdout)
  | .fadd2, [some (.float32 x), some (.float32 y)], stdout =>
      ({ noReturn with f32 := floats.sum [x, y] }, stdout)
  | .fadd3, [some (.float32 x), some (.float32 y), some (.float32 z)], stdout =>
      ({ noReturn with f32 := floats.sum [x, y, z] }, stdout)
  | .concatStrings, [some (.text s1), some (.text s2)], stdout =>
      ({ noReturn with str := Spec.concatStrings s1 s2 }, stdout)
  | .concatArrays, [some (.array (.array array1)), some (.array (.array array2))], stdout =>
      ({ noReturn with ptr := Spec.concatArrays array1 array2 }, stdout)
  | .negate, [some (.boolean b)], stdout => ({ noReturn with b := !b }, stdout)
  | _, _, stdout => (noReturn, stdout)

def returning (ref : ValueRef) (stdout : Bytes) : Body Native Bytes :=
  match ref with
  | .array data =>
      if h : ValueRef.noNulls data = true then .ret (ValueRef.array data).read stdout
      else .holed ⟨data, eq_false_of_ne_true h⟩ stdout
  | _ => .ret ref.read stdout

/-- The functions as values: `cfunction_call` with these bodies. -/
def natives (floats : Floats) : Natives Native Bytes where
  numParams f := (functionGetSignature f.cfunction).numParams
  call f args stdout :=
    match cfunctionCall floats.toFloatOps true f.cfunction
        (fun call => (f.body floats call.received stdout).1) args with
    | none => .ret none stdout
    | some outcome => returning outcome.value
        (outcome.calls.foldl (fun stdout call => (f.body floats call.received stdout).2) stdout)

/-! ### The program -/

/-- The constants that are defined for the script. -/
def constants : List (CString × Value) :=
  [(CString.lit "global_int", .int32 3), (CString.lit "global_array", .array []),
    (CString.lit "global_boolean", .boolean true),
    (CString.lit "global_float", .float32 0x40400000),
    (CString.lit "global_string", .string (CString.lit "foobar"))]

/-- The functions of a script that are called if they are there, and what with. -/
def tests : List (CString × Value) :=
  [(CString.lit "call_noargs", .array []),
    (CString.lit "call_int", .array [.int32 0]),
    (CString.lit "call_float", .array [.float32 0]),
    (CString.lit "call_string", .array [.string (CString.lit "foobar")]),
    (CString.lit "call_boolean", .array [.boolean false]),
    (CString.lit "call_array", .array [.array [.int32 1, .int32 2, .int32 3]]),
    (CString.lit "call_int_and_float_and_string",
      .array [.int32 1, .float32 0x40000000, .string (CString.lit "foobar")]),
    (CString.lit "call_boolean_and_array", .array [.boolean true, .array []]),
    (CString.lit "test", .array [])]

mutual

/-- `value_dump`. -/
def valueDump (floats : Floats) : Value → Bytes
  | .void => (CString.lit "void").bytes
  | .float32 bits => (CString.lit "(f32)").bytes ++ (floats.text bits).bytes
  | .int32 bits => (CString.lit "(i32)").bytes ++ decimal bits.toInt
  | .boolean b => (CString.lit "(bool)").bytes ++ decimal (if b then 1 else 0)
  | .string str => (CString.lit "\"").bytes ++ str.bytes ++ (CString.lit "\"").bytes
  | .array data => (CString.lit "[").bytes ++ entriesDump floats true data ++ (CString.lit "]").bytes

def entriesDump (floats : Floats) (first : Bool) : List Value → Bytes
  | [] => []
  | entry :: data =>
      (if first then [] else (CString.lit ", ").bytes) ++ valueDump floats entry ++
        entriesDump floats false data

end

/-- How the program ends: what it still prints, and its exit status. -/
structure Ending where
  printed : Bytes
  status : Nat
  deriving DecidableEq

/-- The end of `main`, with the last result. -/
def report (floats : Floats) : Option Value → Ending
  | some (.string str) => ⟨str.bytes ++ [newline], if str = CString.lit "ok" then 0 else 1⟩
  | some value => ⟨valueDump floats value ++ [newline], 1⟩
  | none => ⟨(CString.lit "NULL value (error)").bytes ++ [newline], 1⟩

variable {F : Type}

/-- The calls of the functions that are there; `ret` is what the last one has returned. -/
def callAll (floats : Floats) : List (CString × Value) → Option Value → HostProgram F Ending
  | [], ret => .done (report floats ret)
  | (name, args) :: rest, ret => .call (.isFunction name) fun found =>
      match found with
      | .bool true => .call (.callFunction name args) fun result =>
          match result with
          | .value value => callAll floats rest value
          | _ => callAll floats rest ret
      | _ => callAll floats rest ret

/-- The script is read, compiled and called. -/
def runScript (floats : Floats) : Option CString → HostProgram F Ending
  | none => .done ⟨[], 1⟩
  | some script => .call (.compileScript script) fun compiled =>
      match compiled with
      | .bool true => callAll floats tests none
      | _ => .done ⟨[], 1⟩

def defineConstants : List (CString × Value) → HostProgram F Ending → HostProgram F Ending
  | [], next => next
  | (name, value) :: rest, next => .call (.defineConstant name value) fun _ =>
      defineConstants rest next

def defineFunctions : List Native → HostProgram Native Ending → HostProgram Native Ending
  | [], next => next
  | f :: rest, next => .call (.defineFunction f.cfunction.name f) fun _ => defineFunctions rest next

/-- `main` once it has an interpreter. -/
def program (floats : Floats) (script : Option CString) : HostProgram Native Ending :=
  defineFunctions Native.all (defineConstants constants (runScript floats script))

/-! ### The arguments -/

inductive Language where
  | lua
  | python
  | ruby
  | javascript
  deriving DecidableEq

/-- The part of a name behind its last dot, or the whole name: `strrchr(filename, '.')`. -/
def extension (filename : Bytes) : Bytes :=
  (filename.reverse.takeWhile (· ≠ 46)).reverse

/-- `raw_interpreter_by_extension`. -/
def rawInterpreterByExtension (filename : CString) : Language :=
  if extension filename.bytes = (CString.lit "lua").bytes then .lua
  else if extension filename.bytes = (CString.lit "py").bytes then .python
  else if extension filename.bytes = (CString.lit "rb").bytes then .ruby
  else .javascript

/-- What the loop over `argv` makes of the arguments behind the program's name: whether there is to be
a sandbox, and the arguments that are not options. -/
def parseArguments : List CString → Bool × List CString
  | [] => (true, [])
  | arg :: argv =>
      match arg.bytes with
      | 45 :: option =>
          let (sandbox, names) := parseArguments argv
          (sandbox && option.head? ≠ some 117, names)
      | _ =>
          let (sandbox, names) := parseArguments argv
          (sandbox, arg :: names)

/-! ### The runs of the program -/

/-- The functions that a sequence of definitions leaves. -/
def defined (fs : List Native) (functions : CString → Option Native) : CString → Option Native :=
  fs.foldl (fun functions f => Function.update functions f.cfunction.name (some f)) functions

section Within

variable {G : Type} {floats : Floats} {interp : Interp G} {Inv : G → Prop}
  {functions : CString → Option Native} {d : Direct Native Bytes G}

theorem callAll_within (hobeys : interp.Obeys (natives floats) functions Inv)
    {tests : List (CString × Value)}
    (hfits : ∀ test ∈ tests, StringFits 0 test.1.length ∧ test.2.Within 0 0)
    (hfunctions : d.functions = functions) (hinv : Inv d.memory) (ret : Option Value) :
    (callAll floats tests ret).Within (natives floats) interp false d := by
  induction tests generalizing d ret with
  | nil => trivial
  | cons test tests ih =>
      obtain ⟨name, args⟩ := test
      obtain ⟨⟨hname, hargs⟩, hrest⟩ := List.forall_mem_cons.mp hfits
      refine HostProgram.within_isFunction hobeys hname hinv fun found memory hmemory => ?_
      cases found with
      | false => exact ih (d := ⟨memory, d.functions, d.trace⟩) hrest hfunctions hmemory ret
      | true =>
          refine HostProgram.within_callFunction hobeys hname hargs hfunctions hmemory ?_
          intro value memory trace hafter
          exact ih hrest rfl hafter (some value)

theorem runScript_within (hobeys : interp.Obeys (natives floats) functions Inv)
    {script : Option CString} (hscript : ∀ text ∈ script, StringFits 0 text.length)
    (hfunctions : d.functions = functions) (hinv : Inv d.memory) :
    (runScript floats script).Within (natives floats) interp false d := by
  cases script with
  | none => trivial
  | some script =>
      refine HostProgram.within_compileScript hobeys (hscript script rfl) hfunctions hinv ?_
      intro compiled memory trace hmemory
      cases compiled with
      | false => trivial
      | true => exact callAll_within hobeys (by decide +kernel) rfl hmemory none

theorem defineConstants_within (hobeys : interp.Obeys (natives floats) functions Inv)
    {constants : List (CString × Value)} {next : HostProgram Native Ending}
    (hfits : ∀ constant ∈ constants, StringFits 0 constant.1.length ∧ constant.2.Within 0 0)
    (hinv : Inv d.memory)
    (hnext : ∀ memory, Inv memory →
      next.Within (natives floats) interp false ⟨memory, d.functions, d.trace⟩) :
    (defineConstants constants next).Within (natives floats) interp false d := by
  induction constants generalizing d with
  | nil => exact hnext d.memory hinv
  | cons constant constants ih =>
      obtain ⟨name, value⟩ := constant
      obtain ⟨⟨hname, hvalue⟩, hrest⟩ := List.forall_mem_cons.mp hfits
      refine HostProgram.within_defineConstant hobeys hname hvalue hinv fun memory hmemory => ?_
      exact ih hrest hmemory hnext

theorem Native.fits (floats : Floats) (f : Native) :
    StringFits 0 f.cfunction.name.length ∧ (natives floats).numParams f ≤ 255 := by
  show StringFits 0 f.cfunction.name.length ∧ (functionGetSignature f.cfunction).numParams ≤ 255
  cases f <;> decide +kernel

theorem defineFunctions_within (hobeys : interp.Obeys (natives floats) functions Inv)
    {fs : List Native} {next : HostProgram Native Ending}
    (hnames : (fs.map fun f => f.cfunction.name).Nodup)
    (hnew : ∀ f ∈ fs, d.functions f.cfunction.name = none) (hinv : Inv d.memory)
    (hnext : ∀ memory, Inv memory →
      next.Within (natives floats) interp false ⟨memory, defined fs d.functions, d.trace⟩) :
    (defineFunctions fs next).Within (natives floats) interp false d := by
  induction fs generalizing d with
  | nil => exact hnext d.memory hinv
  | cons f fs ih =>
      obtain ⟨hname, hparams⟩ := f.fits floats
      obtain ⟨hnotmem, hnames⟩ := List.nodup_cons.mp hnames
      obtain ⟨hfresh, hothers⟩ := List.forall_mem_cons.mp hnew
      refine HostProgram.within_defineFunction hobeys hname hparams hfresh hinv ?_
      intro memory hmemory
      refine ih hnames (fun g hg => ?_) hmemory hnext
      have hne : g.cfunction.name ≠ f.cfunction.name := fun heq =>
        hnotmem (List.mem_map.mpr ⟨g, hg, heq⟩)
      show Function.update d.functions f.cfunction.name (some f) g.cfunction.name = none
      rw [Function.update_of_ne hne]
      exact hothers g hg

theorem program_within (hobeys : interp.Obeys (natives floats) (defined Native.all fun _ => none) Inv)
    {script : Option CString} (hscript : ∀ text ∈ script, StringFits 0 text.length) {memory : G}
    (hinv : Inv memory) :
    (program floats script).Within (natives floats) interp false (.start [] memory) := by
  refine defineFunctions_within hobeys (by decide +kernel) (fun f _ => rfl) hinv ?_
  intro memory hmemory
  refine defineConstants_within hobeys (by decide +kernel) hmemory ?_
  intro memory hmemory
  exact runScript_within hobeys hscript rfl hmemory

end Within

/-- Where the runner runs: the interpreters with the memory they start with, and the files. -/
structure Setup (G : Language → Type) where
  floats : Floats
  interp : (language : Language) → Interp (G language)
  memory : (language : Language) → G language
  files : CString → Option CString

/-- What a run of the runner leaves: the output of the runner and its native functions, and the exit
status. What an interpreter prints itself is its own affair. -/
structure Leaves where
  stdout : Bytes
  status : Nat

variable {G : Language → Type}

namespace Setup

variable (setup : Setup G)

def program (filename : CString) : HostProgram Native Ending :=
  Spec.program setup.floats (setup.files filename)

def direct (filename : CString) :
    Option (Ending × Direct Native Bytes (G (rawInterpreterByExtension filename))) :=
  (setup.program filename).direct (natives setup.floats) (setup.interp _) (.start [] (setup.memory _))

abbrev Sandbox (G : Language → Type) (filename : CString) :=
  BoundedNet (HostState Native Bytes Ending) (Child (G (rawInterpreterByExtension filename))) Mark UInt8

/-- The runner and its sandbox at the start. -/
def sandbox (filename : CString) : Sandbox G filename :=
  BoundedNet.start (HostSession.start [] (setup.program filename) (setup.memory _))

/-- A step of the runner or of its sandbox. -/
abbrev Step (capacity : Nat) (filename : CString) : Sandbox G filename → Sandbox G filename → Prop :=
  HostSession.Step (natives setup.floats) (setup.interp (rawInterpreterByExtension filename)) capacity

/-- The text that is printed without a script. -/
def usage (name : CString) : Bytes :=
  (CString.lit "Usage:\n\t").bytes ++ name.bytes ++ (CString.lit " <program>\n").bytes

/-- `main`, with the name of the program and its arguments: what a run can leave, over pipes of a
capacity. -/
inductive Runs (capacity : Nat) (name : CString) (args : List CString) : Leaves → Prop where
  | usage (hnames : (parseArguments args).2 = []) : Runs capacity name args ⟨usage name, 1⟩
  | raw {filename : CString} {names : List CString} {ending : Ending}
      {after : Direct Native Bytes (G (rawInterpreterByExtension filename))}
      (hargs : parseArguments args = (false, filename :: names))
      (hdirect : setup.direct filename = some (ending, after)) :
      Runs capacity name args ⟨after.trace.world ++ ending.printed, ending.status⟩
  | wrapped {filename : CString} {names : List CString} {ending : Ending}
      {b : Sandbox G filename}
      (hargs : parseArguments args = (true, filename :: names))
      (hreach : Relation.ReflTransGen (setup.Step capacity filename) (setup.sandbox filename) b)
      (hterminal : ByteStream.Terminal (setup.Step capacity filename) b)
      (hends : b.net.left.control = .at (.done ending)) :
      Runs capacity name args ⟨b.net.left.parent.world ++ ending.printed, ending.status⟩

/-- The interpreters keep to the limits once they have the functions of the runner. -/
def Obedient (setup : Setup G) : Prop :=
  ∀ language, ∃ Inv : G language → Prop, Inv (setup.memory language) ∧
    (setup.interp language).Obeys (natives setup.floats) (defined Native.all fun _ => none) Inv

variable {setup}

theorem runs_iff {capacity : Nat} (hcapacity : 0 < capacity) {name : CString} {args names : List CString}
    {filename : CString} (hnames : (parseArguments args).2 = filename :: names)
    (hwithin : (setup.program filename).Within (natives setup.floats)
      (setup.interp (rawInterpreterByExtension filename)) false (.start [] (setup.memory _)))
    {ending : Ending} {after : Direct Native Bytes (G (rawInterpreterByExtension filename))}
    (hdirect : setup.direct filename = some (ending, after)) (leaves : Leaves) :
    setup.Runs capacity name args leaves ↔
      leaves = ⟨after.trace.world ++ ending.printed, ending.status⟩ := by
  obtain ⟨hacc, hends⟩ := hwithin.ends hdirect hcapacity
  constructor
  · rintro (hempty | ⟨hargs, hdirect'⟩ | ⟨hargs, hreach, hterminal, hdone⟩)
    · cases hnames.symm.trans hempty
    · rw [hargs] at hnames
      cases hnames
      rw [hdirect] at hdirect'
      cases hdirect'
      rfl
    · rw [hargs] at hnames
      cases hnames
      obtain ⟨hcontrol, hmatches⟩ := hends _ hreach hterminal
      rw [hdone] at hcontrol
      cases hcontrol
      rw [← hmatches.trace]
      rfl
  · rintro rfl
    cases hsandbox : (parseArguments args).1 with
    | false => exact .raw (Prod.ext hsandbox hnames) hdirect
    | true =>
        obtain ⟨b, hreach, hterminal⟩ := ByteStream.exists_terminal_of_acc hacc
        obtain ⟨hcontrol, hmatches⟩ := hends b hreach hterminal
        have hworld : b.net.left.parent.world = after.trace.world := by
          rw [← hmatches.trace]
          rfl
        rw [← hworld]
        exact .wrapped (Prod.ext hsandbox hnames) hreach hterminal hcontrol

/-- **The runner.** With interpreters that keep to the limits every run of the runner ends, and all runs
on the same file leave the same output and the same exit status, with or without the option that goes
without a sandbox, wherever it stands. -/
theorem runs_agree (hobedient : setup.Obedient)
    (hfiles : ∀ filename, ∀ text ∈ setup.files filename, StringFits 0 text.length) {capacity : Nat}
    (hcapacity : 0 < capacity) (name : CString) {args args' : List CString}
    (hnames : (parseArguments args).2 = (parseArguments args').2) :
    (∀ filename, Acc (flip (setup.Step capacity filename)) (setup.sandbox filename)) ∧
      ∃ leaves, (∀ l, setup.Runs capacity name args l ↔ l = leaves) ∧
        ∀ l, setup.Runs capacity name args' l ↔ l = leaves := by
  have hwithin : ∀ filename, (setup.program filename).Within (natives setup.floats)
      (setup.interp (rawInterpreterByExtension filename)) false (.start [] (setup.memory _)) := by
    intro filename
    obtain ⟨Inv, hinv, hobeys⟩ := hobedient (rawInterpreterByExtension filename)
    exact program_within hobeys (hfiles filename) hinv
  refine ⟨fun filename => ?_, ?_⟩
  · obtain ⟨ending, after, hdirect⟩ := (hwithin filename).exists_direct
    exact ((hwithin filename).ends hdirect hcapacity).1
  · cases hfilename : (parseArguments args).2 with
    | nil =>
        have husage : ∀ {args : List CString}, (parseArguments args).2 = [] →
            ∀ l, setup.Runs capacity name args l ↔ l = ⟨usage name, 1⟩ := by
          intro args hempty l
          constructor
          · rintro (- | ⟨hargs, -⟩ | ⟨hargs, -, -, -⟩)
            · rfl
            · rw [hargs] at hempty
              cases hempty
            · rw [hargs] at hempty
              cases hempty
          · rintro rfl
            exact .usage hempty
        exact ⟨_, husage hfilename, husage (hnames.symm.trans hfilename)⟩
    | cons filename names =>
        obtain ⟨ending, after, hdirect⟩ := (hwithin filename).exists_direct
        exact ⟨_, runs_iff hcapacity hfilename (hwithin filename) hdirect,
          runs_iff hcapacity (hnames.symm.trans hfilename) (hwithin filename) hdirect⟩

/-- A script with a function `test` that adds two numbers with a function of the runner. -/
def addingInterp : Interp Unit where
  defineConstant _ _ _ := .done ()
  defineFunction _ _ _ := .done ()
  compileScript _ _ := .log (CString.lit "compiled") (.done (true, ()))
  isFunction name _ := .done (name = some (CString.lit "test"), ())
  callFunction _ _ _ :=
    .call (CString.lit "add2") (.array [.int32 1, .int32 2]) fun sum =>
      .done (if sum = some (.int32 3) then some (.string (CString.lit "ok")) else some .void, ())

def addingSetup : Setup fun _ => Unit where
  floats := ⟨⟨id, id, fun _ => CString.lit ""⟩, fun _ => 0⟩
  interp _ := addingInterp
  memory _ := ()
  files _ := some (CString.lit "test")

theorem adding_obedient : addingSetup.Obedient := by
  intro language
  refine ⟨fun _ => True, trivial, ?_⟩
  constructor
  · intro name value memory _
    exact ⟨(), rfl, trivial⟩
  · intro name numParams memory _
    exact ⟨(), rfl, trivial⟩
  · intro name memory _
    exact ⟨_, (), rfl, trivial⟩
  · intro script memory _
    exact ⟨by decide +kernel, trivial⟩
  · intro name args memory _
    refine ⟨by decide +kernel, by decide +kernel, .add2, by decide +kernel, fun world => ?_⟩
    exact ⟨.int32 3, world, rfl, by decide +kernel, ⟨_, rfl, by decide +kernel⟩, trivial⟩

theorem runs_agree_adding :
    (∀ filename, Acc (flip (addingSetup.Step 65536 filename)) (addingSetup.sandbox filename)) ∧
      ∃ leaves, (∀ l, addingSetup.Runs 65536 (CString.lit "spec/run") [CString.lit "spec/a.lua"] l ↔
          l = leaves) ∧
        ∀ l, addingSetup.Runs 65536 (CString.lit "spec/run")
          [CString.lit "-u", CString.lit "spec/a.lua"] l ↔ l = leaves :=
  runs_agree adding_obedient
    (by rintro filename text ⟨⟩; decide +kernel) (by decide) _ (by decide +kernel)

end Setup

end Spec

end CageKeeper
