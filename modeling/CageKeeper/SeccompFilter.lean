import CageKeeper.ClassicBpf
import CageKeeper.WireFormat

/-! The system call filter of `seccomp.c`. The kernel runs it over a `struct seccomp_data`, laid
out as `seccomp_defs.h` has it, in the little-endian memory of the i386 the numbers belong to. -/

namespace CageKeeper
open ByteStream ClassicBpf

/-- `struct seccomp_data`. -/
structure SeccompData where
  nr : BitVec 32
  arch : BitVec 32
  instructionPointer : BitVec 64
  args : Vector (BitVec 64) 6

/-- The eight bytes of a `__u64` in memory. -/
def quadBytes (quad : BitVec 64) : Bytes :=
  wordBytes (quad.truncate 32) ++ wordBytes ((quad >>> 32).truncate 32)

def SeccompData.bytes (record : SeccompData) : Bytes :=
  wordBytes record.nr ++ wordBytes record.arch ++ quadBytes record.instructionPointer
    ++ record.args.toList.flatMap quadBytes

def SeccompData.load (record : SeccompData) (k : BitVec 32) : Option (BitVec 32) :=
  if k.toNat % 4 = 0 ∧ k.toNat + 4 ≤ record.bytes.length then
    some (bytesWord ((record.bytes.drop k.toNat).take 4))
  else
    none

theorem wordBytes_length (word : BitVec 32) : (wordBytes word).length = 4 := rfl

theorem quadBytes_length (quad : BitVec 64) : (quadBytes quad).length = 8 := rfl

theorem SeccompData.bytes_length (record : SeccompData) : record.bytes.length = 64 := by
  have hargs : (record.args.toList.flatMap quadBytes).length = 48 := by
    rw [List.length_flatMap, List.map_congr_left fun quad _ => quadBytes_length quad]
    simp
  simp only [bytes, List.length_append, wordBytes_length, quadBytes_length, hargs]

theorem SeccompData.load_nr (record : SeccompData) : record.load 0 = some record.nr := by
  rw [load, bytes_length, if_pos (by decide)]
  change some (bytesWord (wordBytes record.nr)) = _
  rw [bytesWord_wordBytes]

theorem SeccompData.load_arch (record : SeccompData) : record.load 4 = some record.arch := by
  rw [load, bytes_length, if_pos (by decide)]
  change some (bytesWord (wordBytes record.arch)) = _
  rw [bytesWord_wordBytes]

/-- `SECCOMP_RET_KILL`. -/
def seccompRetKill : BitVec 32 := 0x00000000

/-- `SECCOMP_RET_ERRNO`. -/
def seccompRetErrno : BitVec 32 := 0x00050000

/-- `SECCOMP_RET_ALLOW`. -/
def seccompRetAllow : BitVec 32 := 0x7fff0000

/-- `AUDIT_ARCH_I386`. -/
def auditArchI386 : BitVec 32 := 0x40000003

/-! The i386 numbers of the listed calls. -/

def nrGettimeofday : BitVec 32 := 78
def nrTime : BitVec 32 := 13
def nrRead : BitVec 32 := 3
def nrReadv : BitVec 32 := 145
def nrWrite : BitVec 32 := 4
def nrWritev : BitVec 32 := 146
def nrBrk : BitVec 32 := 45
def nrMmap2 : BitVec 32 := 192
def nrMunmap : BitVec 32 := 91
def nrFutex : BitVec 32 := 240
def nrSigprocmask : BitVec 32 := 126
def nrExit : BitVec 32 := 1

/-- The instructions before the first use of `ALLOW_ANYARGS`. -/
def checkArch : List SockFilter :=
  [loadAbs 4, jumpEq 1 0 auditArchI386, retK seccompRetKill]

/-- `ALLOW_ANYARGS`. -/
def allowAnyargs (syscallNr : BitVec 32) : List SockFilter :=
  [loadAbs 0, jumpEq 0 1 syscallNr, retK seccompRetAllow]

/-- The instruction behind the last use of `ALLOW_ANYARGS`. -/
def denyOthers : List SockFilter := [retK (seccompRetErrno ||| 1)]

/-- `seccomp_filter`. -/
def seccompFilter : List SockFilter :=
  checkArch ++
  allowAnyargs nrGettimeofday ++
  allowAnyargs nrTime ++
  allowAnyargs nrRead ++
  allowAnyargs nrReadv ++
  allowAnyargs nrWrite ++
  allowAnyargs nrWritev ++
  allowAnyargs nrBrk ++
  allowAnyargs nrMmap2 ++
  allowAnyargs nrMunmap ++
  allowAnyargs nrFutex ++
  allowAnyargs nrSigprocmask ++
  allowAnyargs nrExit ++
  denyOthers

/-- A filter with one use of `ALLOW_ANYARGS` for each number of a list. -/
def filterOf (allowed : List (BitVec 32)) : List SockFilter :=
  checkArch ++ allowed.flatMap allowAnyargs ++ denyOthers

/-- The calls `seccomp_filter` lists. -/
def allowedCalls : List (BitVec 32) :=
  [nrGettimeofday, nrTime, nrRead, nrReadv, nrWrite, nrWritev, nrBrk, nrMmap2, nrMunmap, nrFutex,
    nrSigprocmask, nrExit]

theorem seccompFilter_eq : seccompFilter = filterOf allowedCalls := rfl

def verdict (allowed : List (BitVec 32)) (arch nr : BitVec 32) : BitVec 32 :=
  if arch ≠ auditArchI386 then seccompRetKill
  else if nr ∈ allowed then seccompRetAllow
  else seccompRetErrno ||| 1

theorem verdict_i386 (allowed : List (BitVec 32)) (nr : BitVec 32) :
    verdict allowed auditArchI386 nr
      = if nr ∈ allowed then seccompRetAllow else seccompRetErrno ||| 1 := by
  rw [verdict, if_neg (fun h => h rfl)]

section Run

variable (record : SeccompData)

/-- One use of `ALLOW_ANYARGS`: it allows its own number, and any other call reaches what is
behind it. -/
theorem run_allowAnyargs (syscallNr : BitVec 32) (rest : List SockFilter) (fuel : Nat)
    (acc : BitVec 32) :
    run record.load (allowAnyargs syscallNr ++ rest) (fuel + 3) 0 acc
      = if record.nr = syscallNr then .returned seccompRetAllow
        else run record.load rest (fuel + 1) 0 record.nr := by
  change run record.load (loadAbs 0 :: jumpEq 0 1 syscallNr :: retK seccompRetAllow :: rest)
    (fuel + 2 + 1) 0 acc = _
  rw [run_loadAbs record.load_nr]
  by_cases hnr : record.nr = syscallNr
  · have hnone : ([] : List SockFilter).length = (0 : BitVec 8).toNat := rfl
    rw [if_pos hnr, ← List.nil_append (retK seccompRetAllow :: rest), run_jumpEq_equal hnr hnone,
      run_retK]
  · have hallow : [retK seccompRetAllow].length = (1 : BitVec 8).toNat := rfl
    rw [if_neg hnr]
    exact run_jumpEq_other hnr hallow (fuel + 1)

/-- The first block with the call's number decides. -/
theorem run_allowed (allowed : List (BitVec 32)) (fuel : Nat)
    (hfuel : 3 * allowed.length + 1 ≤ fuel) (acc : BitVec 32) :
    run record.load (allowed.flatMap allowAnyargs ++ denyOthers) fuel 0 acc
      = .returned (if record.nr ∈ allowed then seccompRetAllow else seccompRetErrno ||| 1) := by
  induction allowed generalizing fuel acc with
  | nil =>
      obtain ⟨fuel, rfl⟩ : ∃ left, fuel = left + 1 := ⟨fuel - 1, by simp at hfuel; omega⟩
      rw [List.flatMap_nil, List.nil_append, if_neg List.not_mem_nil]
      exact run_retK _ [] fuel acc
  | cons syscallNr allowed ih =>
      rw [List.length_cons] at hfuel
      obtain ⟨fuel, rfl⟩ : ∃ left, fuel = left + 3 := ⟨fuel - 3, by omega⟩
      rw [List.flatMap_cons, List.append_assoc, run_allowAnyargs]
      by_cases hnr : record.nr = syscallNr
      · rw [if_pos hnr, if_pos (List.mem_cons.mpr (Or.inl hnr))]
      · rw [if_neg hnr, ih (fuel + 1) (by omega) record.nr]
        simp only [List.mem_cons, hnr, false_or]

theorem filterOf_length (allowed : List (BitVec 32)) :
    (filterOf allowed).length = 3 * allowed.length + 4 := by
  have hblocks : (allowed.flatMap allowAnyargs).length = 3 * allowed.length := by
    induction allowed with
    | nil => rfl
    | cons syscallNr allowed ih =>
        rw [List.flatMap_cons, List.length_append, ih, List.length_cons]
        change 3 + 3 * allowed.length = _
        omega
  rw [filterOf, List.length_append, List.length_append, hblocks]
  change 3 + 3 * allowed.length + 1 = _
  omega

/-- **The filter of a list.** The program runs to a return instruction and its verdict is the
list's, whatever the call. -/
theorem exec_filterOf (allowed : List (BitVec 32)) :
    exec record.load (filterOf allowed) = .returned (verdict allowed record.arch record.nr) := by
  have hlist := run_allowed record allowed (3 * allowed.length + 2) (by omega) record.arch
  rw [exec, filterOf_length]
  change run record.load (loadAbs 4 :: jumpEq 1 0 auditArchI386 :: retK seccompRetKill ::
    (allowed.flatMap allowAnyargs ++ denyOthers)) (3 * allowed.length + 2 + 1 + 1) 0 0 = _
  rw [run_loadAbs record.load_arch]
  by_cases harch : record.arch = auditArchI386
  · have hkill : [retK seccompRetKill].length = (1 : BitVec 8).toNat := rfl
    calc
      _ = run record.load (allowed.flatMap allowAnyargs ++ denyOthers) (3 * allowed.length + 2) 0
          record.arch := run_jumpEq_equal harch hkill _
      _ = _ := by rw [hlist, harch, verdict_i386]
  · have hnone : ([] : List SockFilter).length = (0 : BitVec 8).toNat := rfl
    rw [← List.nil_append (retK seccompRetKill :: _), run_jumpEq_other harch hnone, run_retK,
      verdict, if_pos harch]

end Run

/-- **The allow list is enforced.** For every call the filter reaches a return instruction, kills
a foreign architecture, allows the listed numbers and refuses all others; so does the filter of any
other list, and neither arguments nor instruction pointer have a say in it. -/
theorem seccompFilter_enforces :
    (∀ record : SeccompData, exec record.load seccompFilter
      = .returned (verdict allowedCalls record.arch record.nr)) ∧
    (∀ (allowed : List (BitVec 32)) (record : SeccompData), exec record.load (filterOf allowed)
      = .returned (verdict allowed record.arch record.nr)) ∧
    ∀ (allowed : List (BitVec 32)) (record : SeccompData) (pointer : BitVec 64)
      (args : Vector (BitVec 64) 6),
      exec (SeccompData.load { record with instructionPointer := pointer, args := args })
          (filterOf allowed)
        = exec record.load (filterOf allowed) := by
  refine ⟨fun record => ?_, fun allowed record => exec_filterOf record allowed,
    fun allowed record pointer args => ?_⟩
  · rw [seccompFilter_eq]
    exact exec_filterOf record allowedCalls
  · rw [exec_filterOf, exec_filterOf]

end CageKeeper
