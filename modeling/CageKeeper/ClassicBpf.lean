import Mathlib.Data.List.Basic

/-! A classic BPF machine: programs are lists of instructions, jumps are relative and go forward
only, and a program ends at a return. The machine reads its input through a load function, so
nothing here depends on what is filtered. -/

namespace ClassicBpf

/-- `BPF_LD`, `BPF_JMP` and `BPF_RET`: the instruction classes used here. -/
def bpfLd : BitVec 16 := 0x00
def bpfJmp : BitVec 16 := 0x05
def bpfRet : BitVec 16 := 0x06

/-- `BPF_W`, `BPF_ABS`, `BPF_JEQ` and `BPF_K`: their sizes, modes and operands. -/
def bpfW : BitVec 16 := 0x00
def bpfAbs : BitVec 16 := 0x20
def bpfJeq : BitVec 16 := 0x10
def bpfK : BitVec 16 := 0x00

/-- `struct sock_filter`. -/
structure SockFilter where
  code : BitVec 16
  jt : BitVec 8
  jf : BitVec 8
  k : BitVec 32
  deriving DecidableEq

/-- What one instruction asks for: to go on behind it with a new accumulator, to end the program
with a verdict, or nothing the machine can do. -/
inductive Effect where
  | jump (offset : Nat) (acc : BitVec 32)
  | ret (verdict : BitVec 32)
  | invalid

inductive Outcome where
  | returned (verdict : BitVec 32)
  | outside
  | invalid
  | unfinished
  deriving DecidableEq

section Machine

variable (load : BitVec 32 → Option (BitVec 32))

def effect (insn : SockFilter) (acc : BitVec 32) : Effect :=
  if insn.code = bpfLd + bpfW + bpfAbs then
    match load insn.k with
    | some word => .jump 0 word
    | none => .invalid
  else if insn.code = bpfJmp + bpfJeq + bpfK then
    .jump (if acc = insn.k then insn.jt.toNat else insn.jf.toNat) acc
  else if insn.code = bpfRet + bpfK then
    .ret insn.k
  else
    .invalid

/-- A run from the instruction at `pc`, for at most `fuel` instructions. -/
def run (prog : List SockFilter) : (fuel pc : Nat) → (acc : BitVec 32) → Outcome
  | 0, _, _ => .unfinished
  | fuel + 1, pc, acc =>
      match prog[pc]? with
      | none => .outside
      | some insn =>
          match effect load insn acc with
          | .jump offset acc => run prog fuel (pc + 1 + offset) acc
          | .ret verdict => .returned verdict
          | .invalid => .invalid

/-- The whole program. Every step goes forward, so it takes no more steps than instructions. -/
def exec (prog : List SockFilter) : Outcome := run load prog prog.length 0 0

/-- `{code: BPF_LD+BPF_W+BPF_ABS, k: k}`. -/
def loadAbs (k : BitVec 32) : SockFilter := ⟨bpfLd + bpfW + bpfAbs, 0, 0, k⟩

/-- `{code: BPF_JMP+BPF_JEQ+BPF_K, jt: jt, jf: jf, k: k}`. -/
def jumpEq (jt jf : BitVec 8) (k : BitVec 32) : SockFilter := ⟨bpfJmp + bpfJeq + bpfK, jt, jf, k⟩

/-- `{code: BPF_RET+BPF_K, k: k}`. -/
def retK (k : BitVec 32) : SockFilter := ⟨bpfRet + bpfK, 0, 0, k⟩

variable {load}

@[simp] theorem effect_loadAbs {k word acc : BitVec 32} (hload : load k = some word) :
    effect load (loadAbs k) acc = .jump 0 word := by
  simp [effect, loadAbs, hload]

@[simp] theorem effect_jumpEq (jt jf : BitVec 8) (k acc : BitVec 32) :
    effect load (jumpEq jt jf k) acc
      = .jump (if acc = k then jt.toNat else jf.toNat) acc := by
  have hcode : bpfJmp + bpfJeq + bpfK ≠ bpfLd + bpfW + bpfAbs := by decide
  rw [effect, jumpEq, if_neg hcode, if_pos rfl]

@[simp] theorem effect_retK (k acc : BitVec 32) : effect load (retK k) acc = .ret k := by
  have hload : bpfRet + bpfK ≠ bpfLd + bpfW + bpfAbs := by decide
  have hjump : bpfRet + bpfK ≠ bpfJmp + bpfJeq + bpfK := by decide
  rw [effect, retK, if_neg hload, if_neg hjump, if_pos rfl]

theorem run_append (front prog : List SockFilter) (fuel pc : Nat) (acc : BitVec 32) :
    run load (front ++ prog) fuel (front.length + pc) acc = run load prog fuel pc acc := by
  induction fuel generalizing pc acc with
  | zero => rfl
  | succ fuel ih =>
      have hfetch : (front ++ prog)[front.length + pc]? = prog[pc]? := by
        rw [List.getElem?_append_right (Nat.le_add_right _ _), Nat.add_sub_cancel_left]
      rw [run, run, hfetch]
      cases prog[pc]? with
      | none => rfl
      | some insn =>
          cases heffect : effect load insn acc with
          | jump offset acc' =>
              simp only [heffect]
              rw [Nat.add_assoc front.length, Nat.add_assoc front.length]
              exact ih (pc + 1 + offset) acc'
          | ret verdict => simp only [heffect]
          | invalid => simp only [heffect]

theorem run_loadAbs {k word : BitVec 32} (hload : load k = some word) (rest : List SockFilter)
    (fuel : Nat) (acc : BitVec 32) :
    run load (loadAbs k :: rest) (fuel + 1) 0 acc = run load rest fuel 0 word := by
  rw [run, List.getElem?_cons_zero]
  simp only [effect_loadAbs hload]
  exact run_append [loadAbs k] rest fuel 0 word

/-- A conditional jump skips as many of the instructions behind it as its offset says. -/
theorem run_jumpEq {jt jf : BitVec 8} {k acc : BitVec 32} {skipped rest : List SockFilter}
    (hskip : skipped.length = if acc = k then jt.toNat else jf.toNat) (fuel : Nat) :
    run load (jumpEq jt jf k :: (skipped ++ rest)) (fuel + 1) 0 acc = run load rest fuel 0 acc := by
  rw [run, List.getElem?_cons_zero]
  simp only [effect_jumpEq, ← hskip]
  rw [Nat.zero_add, Nat.add_comm 1 skipped.length]
  exact run_append (jumpEq jt jf k :: skipped) rest fuel 0 acc

theorem run_jumpEq_equal {jt jf : BitVec 8} {k acc : BitVec 32} {skipped rest : List SockFilter}
    (hacc : acc = k) (hskip : skipped.length = jt.toNat) (fuel : Nat) :
    run load (jumpEq jt jf k :: (skipped ++ rest)) (fuel + 1) 0 acc = run load rest fuel 0 acc := by
  apply run_jumpEq
  rw [if_pos hacc, hskip]

theorem run_jumpEq_other {jt jf : BitVec 8} {k acc : BitVec 32} {skipped rest : List SockFilter}
    (hacc : acc ≠ k) (hskip : skipped.length = jf.toNat) (fuel : Nat) :
    run load (jumpEq jt jf k :: (skipped ++ rest)) (fuel + 1) 0 acc = run load rest fuel 0 acc := by
  apply run_jumpEq
  rw [if_neg hacc, hskip]

theorem run_retK (k : BitVec 32) (rest : List SockFilter) (fuel : Nat) (acc : BitVec 32) :
    run load (retK k :: rest) (fuel + 1) 0 acc = .returned k := by
  rw [run, List.getElem?_cons_zero]
  simp only [effect_retK]

end Machine

end ClassicBpf
