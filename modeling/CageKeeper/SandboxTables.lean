import CageKeeper.SandboxProcesses

/-! What `spawn_child` opens in the host: pipes whose ends are at one descriptor each, and beside them
nothing changes. It has what it needs if eight descriptors are free. -/

namespace CageKeeper.Sandbox
open FileTable

variable {limit : Nat}

/-! ### Tables -/

/-- A file is open at one descriptor only. -/
def Only (table : Table File) (file : File) (fd : Nat) : Prop :=
  ∀ other, table other = some file ↔ other = fd

def Never (table : Table File) (file : File) : Prop := ∀ fd, table fd ≠ some file

def File.IsEnd : File → Prop
  | .readEnd _ => True
  | .writeEnd _ => True
  | _ => False

/-- The files that there can be with so many pipes. -/
def File.Below (pipes : Nat) : File → Prop
  | .plain _ => True
  | .guest _ => True
  | .readEnd pipe => pipe < pipes
  | .writeEnd pipe => pipe < pipes

structure Known (limit pipes : Nat) (table : Table File) : Prop where
  below : ∀ fd file, table fd = some file → fd < limit ∧ file.Below pipes
  std : ∀ fd, fd = 1 ∨ fd = 2 → ∃ id, table fd = some (.plain id)

theorem File.Below.mono {pipes pipes' : Nat} {file : File} (hbelow : file.Below pipes)
    (hle : pipes ≤ pipes') : file.Below pipes' := by
  cases file with
  | plain id => trivial
  | guest id => trivial
  | readEnd pipe => exact Nat.lt_of_lt_of_le hbelow hle
  | writeEnd pipe => exact Nat.lt_of_lt_of_le hbelow hle

theorem Known.mono {pipes pipes' : Nat} {table : Table File} (hknown : Known limit pipes table)
    (hle : pipes ≤ pipes') : Known limit pipes' table where
  below fd file hfile := (hknown.below fd file hfile).imp id fun hbelow => hbelow.mono hle
  std := hknown.std

theorem Known.never {pipes pipe : Nat} {table : Table File} (hknown : Known limit pipes table)
    (hle : pipes ≤ pipe) : Never table (.readEnd pipe) ∧ Never table (.writeEnd pipe) :=
  ⟨fun fd hfile => Nat.not_lt_of_le hle (hknown.below fd _ hfile).2,
    fun fd hfile => Nat.not_lt_of_le hle (hknown.below fd _ hfile).2⟩

theorem Known.close {pipes fd : Nat} {table : Table File} (hknown : Known limit pipes table)
    (hfd : fd ≠ 1 ∧ fd ≠ 2) : Known limit pipes (close fd table) where
  below other file hfile := hknown.below other file (close_eq_some.mp hfile).2
  std other hother := by
    obtain ⟨id, hid⟩ := hknown.std other hother
    refine ⟨id, close_eq_some.mpr ⟨?_, hid⟩⟩
    omega

theorem Only.close {table : Table File} {file : File} {fd fd' : Nat} (honly : Only table file fd)
    (hne : fd ≠ fd') : Only (close fd' table) file fd := by
  intro other
  rw [close_eq_some, honly other]
  constructor
  · exact And.right
  · rintro rfl
    exact ⟨hne, rfl⟩

theorem Only.never_close {table : Table File} {file : File} {fd : Nat} (honly : Only table file fd) :
    Never (FileTable.close fd table) file := by
  intro other hfile
  obtain ⟨hne, hfile⟩ := close_eq_some.mp hfile
  exact hne ((honly other).mp hfile)

theorem Never.close {table : Table File} {file : File} (hnever : Never table file) (fd : Nat) :
    Never (FileTable.close fd table) file :=
  fun other hfile => hnever other (close_eq_some.mp hfile).2

theorem Only.ne {table : Table File} {file file' : File} {fd fd' : Nat} (honly : Only table file fd)
    (honly' : Only table file' fd') (hne : file ≠ file') : fd ≠ fd' := by
  rintro rfl
  have hfile := (honly fd).mpr rfl
  rw [(honly' fd).mpr rfl] at hfile
  exact hne (Option.some.inj hfile).symm

/-! ### Making pipes -/

/-- The host has made some pipes, and nothing else. -/
structure Machine.Opens (limit : Nat) (m m' : Machine) : Prop where
  pipes_le : m.pipes ≤ m'.pipes
  keeps : ∀ fd file, m.host fd = some file → m'.host fd = some file
  adds : ∀ fd file, m'.host fd = some file → m.host fd = some file ∨ fd < limit ∧
    ∃ pipe, m.pipes ≤ pipe ∧ pipe < m'.pipes ∧ (file = .readEnd pipe ∨ file = .writeEnd pipe)
  children : m'.children = m.children
  proxies : m'.proxies = m.proxies

structure PipeEnds.Open (ends : PipeEnds) (m : Machine) : Prop where
  lt : ends.id < m.pipes
  read : Only m.host (.readEnd ends.id) ends.fdR
  write : Only m.host (.writeEnd ends.id) ends.fdW

namespace Machine.Opens

variable {m m' m'' : Machine}

theorem refl (m : Machine) : Opens limit m m :=
  ⟨le_rfl, fun _ _ => id, fun _ _ => Or.inl, rfl, rfl⟩

theorem trans (hopens : Opens limit m m') (hopens' : Opens limit m' m'') : Opens limit m m'' where
  pipes_le := hopens.pipes_le.trans hopens'.pipes_le
  keeps fd file hfile := hopens'.keeps fd file (hopens.keeps fd file hfile)
  adds fd file hfile := by
    rcases hopens'.adds fd file hfile with hfile | ⟨hfd, pipe, hle, hlt, hpipe⟩
    · rcases hopens.adds fd file hfile with hfile | ⟨hfd, pipe, hle, hlt, hpipe⟩
      · exact Or.inl hfile
      · exact Or.inr ⟨hfd, pipe, hle, Nat.lt_of_lt_of_le hlt hopens'.pipes_le, hpipe⟩
    · exact Or.inr ⟨hfd, pipe, hopens.pipes_le.trans hle, hlt, hpipe⟩
  children := hopens'.children.trans hopens.children
  proxies := hopens'.proxies.trans hopens.proxies

theorem known (hopens : Opens limit m m') (hknown : Known limit m.pipes m.host) :
    Known limit m'.pipes m'.host where
  below fd file hfile := by
    rcases hopens.adds fd file hfile with hfile | ⟨hfd, pipe, -, hlt, rfl | rfl⟩
    · exact (hknown.mono hopens.pipes_le).below fd file hfile
    · exact ⟨hfd, hlt⟩
    · exact ⟨hfd, hlt⟩
  std fd hfd := (hknown.std fd hfd).imp fun id => hopens.keeps fd _

theorem eq_some (hopens : Opens limit m m') {fd : Nat} {file : File} (hbelow : file.Below m.pipes)
    (hend : file.IsEnd) : m'.host fd = some file ↔ m.host fd = some file := by
  refine ⟨fun hfile => ?_, hopens.keeps fd file⟩
  rcases hopens.adds fd file hfile with hfile | ⟨-, pipe, hle, -, rfl | rfl⟩
  · exact hfile
  · exact absurd hbelow (Nat.not_lt_of_le hle)
  · exact absurd hbelow (Nat.not_lt_of_le hle)

theorem never (hopens : Opens limit m m') {file : File} (hbelow : file.Below m.pipes)
    (hend : file.IsEnd) (hnever : Never m.host file) : Never m'.host file :=
  fun fd hfile => hnever fd ((hopens.eq_some hbelow hend).mp hfile)

theorem ends_open (hopens : Opens limit m m') {ends : PipeEnds} (hends : ends.Open m) : ends.Open m' where
  lt := Nat.lt_of_lt_of_le hends.lt hopens.pipes_le
  read other := by
    have hbelow : (File.readEnd ends.id).Below m.pipes := hends.lt
    exact (hopens.eq_some hbelow trivial).trans (hends.read other)
  write other := by
    have hbelow : (File.writeEnd ends.id).Below m.pipes := hends.lt
    exact (hopens.eq_some hbelow trivial).trans (hends.write other)

end Machine.Opens

section Pipe

variable {m m' : Machine} {ends : PipeEnds}

theorem Machine.pipe_eq_none (hpipe : m.pipe limit = (none, m')) :
    m' = m ∧ (free limit m.host).card < 2 := by
  unfold Machine.pipe at hpipe
  split at hpipe
  · next hopen =>
    cases hpipe
    exact ⟨rfl, openPair_eq_none.mp hopen⟩
  · cases hpipe

theorem Machine.pipe_eq_some (hknown : Known limit m.pipes m.host)
    (hpipe : m.pipe limit = (some ends, m')) :
    m.Opens limit m' ∧ ends.Open m' ∧ ends.id = m.pipes ∧
      (free limit m'.host).card + 2 = (free limit m.host).card := by
  unfold Machine.pipe at hpipe
  split at hpipe
  · cases hpipe
  next fdR fdW host hopen =>
    cases hpipe
    obtain ⟨hR, hW, hne, hltR, hltW, rfl, hcard⟩ := openPair_eq_some hopen
    have hnever := hknown.never le_rfl
    have hhost : ∀ fd file, Function.update (Function.update m.host fdR (some (File.readEnd m.pipes)))
        fdW (some (.writeEnd m.pipes)) fd = some file ↔
          fd = fdR ∧ file = .readEnd m.pipes ∨ fd = fdW ∧ file = .writeEnd m.pipes ∨
            m.host fd = some file := by
      intro fd file
      by_cases hfdW : fd = fdW
      · subst hfdW
        simp [hW, hne.symm, eq_comm]
      · by_cases hfdR : fd = fdR
        · subst hfdR
          simp [hR, hne, eq_comm]
        · simp [hfdW, hfdR]
    refine ⟨⟨Nat.le_succ _, ?_, ?_, rfl, rfl⟩, ⟨Nat.lt_succ_self _, ?_, ?_⟩, rfl, hcard⟩
    · intro fd file hfile
      exact (hhost fd file).mpr (Or.inr (Or.inr hfile))
    · intro fd file hfile
      rcases (hhost fd file).mp hfile with ⟨rfl, rfl⟩ | ⟨rfl, rfl⟩ | hfile
      · exact Or.inr ⟨hltR, m.pipes, le_rfl, Nat.lt_succ_self _, Or.inl rfl⟩
      · exact Or.inr ⟨hltW, m.pipes, le_rfl, Nat.lt_succ_self _, Or.inr rfl⟩
      · exact Or.inl hfile
    · intro other
      simp [hhost, hnever.1 other]
    · intro other
      simp [hhost, hnever.2 other]

/-- What `spawn_child` leaves when there are too few descriptors. -/
structure Machine.Refuses (limit : Nat) (m m' : Machine) : Prop where
  opens : m.Opens limit m'
  card : (free limit m'.host).card = (free limit m.host).card % 2
  few : (free limit m.host).card < 8

/-- What `spawn_child` has before it calls `fork`: the pipes of the sandbox, and two more that it never
uses. -/
structure Machine.Prepares (limit : Nat) (m m' : Machine) (pToC cToP : PipeEnds) : Prop where
  opens : m.Opens limit m'
  pToC_open : pToC.Open m'
  cToP_open : cToP.Open m'
  pToC_le : m.pipes ≤ pToC.id
  lt : pToC.id < cToP.id
  card : (free limit m'.host).card + 8 = (free limit m.host).card

theorem Machine.spawnChild_cases (hknown : Known limit m.pipes m.host) (forked : Int) :
    (∃ m', m.spawnChild limit forked = (false, m') ∧ m.Refuses limit m') ∨
      ∃ m' pToC cToP, m.spawnChild limit forked = (true, m'.forkChild forked pToC cToP) ∧
        m.Prepares limit m' pToC cToP := by
  unfold Machine.spawnChild
  rcases hpipe₁ : m.pipe limit with ⟨_ | pToC, m₁⟩
  · obtain ⟨rfl, hcard⟩ := pipe_eq_none hpipe₁
    exact Or.inl ⟨m₁, rfl, .refl m₁, (Nat.mod_eq_of_lt hcard).symm, by omega⟩
  obtain ⟨hopens₁, hends₁, hid₁, hcard₁⟩ := pipe_eq_some hknown hpipe₁
  have hknown₁ := hopens₁.known hknown
  dsimp only
  rcases hpipe₂ : m₁.pipe limit with ⟨_ | cToP, m₂⟩
  · obtain ⟨rfl, hcard⟩ := pipe_eq_none hpipe₂
    exact Or.inl ⟨m₂, rfl, hopens₁, by omega, by omega⟩
  obtain ⟨hopens₂, hends₂, hid₂, hcard₂⟩ := pipe_eq_some hknown₁ hpipe₂
  have hknown₂ := hopens₂.known hknown₁
  dsimp only
  rcases hpipe₃ : m₂.pipe limit with ⟨_ | stdoutPipe, m₃⟩
  · obtain ⟨rfl, hcard⟩ := pipe_eq_none hpipe₃
    exact Or.inl ⟨m₃, rfl, hopens₁.trans hopens₂, by omega, by omega⟩
  obtain ⟨hopens₃, -, -, hcard₃⟩ := pipe_eq_some hknown₂ hpipe₃
  have hknown₃ := hopens₃.known hknown₂
  dsimp only
  rcases hpipe₄ : m₃.pipe limit with ⟨_ | stderrPipe, m₄⟩
  · obtain ⟨rfl, hcard⟩ := pipe_eq_none hpipe₄
    exact Or.inl ⟨m₄, rfl, (hopens₁.trans hopens₂).trans hopens₃, by omega, by omega⟩
  obtain ⟨hopens₄, -, -, hcard₄⟩ := pipe_eq_some hknown₃ hpipe₄
  refine Or.inr ⟨m₄, pToC, cToP, rfl, ((hopens₁.trans hopens₂).trans hopens₃).trans hopens₄, ?_, ?_,
    Nat.le_of_eq hid₁.symm, ?_, by omega⟩
  · exact hopens₄.ends_open (hopens₃.ends_open (hopens₂.ends_open hends₁))
  · exact hopens₄.ends_open (hopens₃.ends_open hends₂)
  · rw [hid₂]
    exact hends₁.lt

end Pipe

end CageKeeper.Sandbox
