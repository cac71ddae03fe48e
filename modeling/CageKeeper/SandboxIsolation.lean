import CageKeeper.SandboxTables

/-! Which process can read and write which pipe. The two ends that a sandbox uses are in no other process
at any time, and once it has been through `close_all_fds` it has nothing else but the standard output
of the host. -/

namespace CageKeeper.Sandbox
open FileTable

variable {limit : Nat}

/-! ### The invariant -/

/-- The ends of its two pipes that a child works with, and where they are in its table. -/
def Child.ends (c : Child) : List (Nat × File) := [(c.fdR, .readEnd c.input), (c.fdW, .writeEnd c.output)]

def Proxy.childEnds (p : Proxy) : List File := [.readEnd p.input, .writeEnd p.output]

/-- What is always true of a child. -/
structure Child.Fine (limit pipes : Nat) (c : Child) : Prop where
  below : ∀ fd file, c.table fd = some file → fd < limit ∧ file.Below pipes
  ended : c.life = .ended → ∀ fd, c.table fd = none
  std : c.life ≠ .ended → ∀ fd, fd = 1 ∨ fd = 2 → ∃ id, c.table fd = some (.plain id)
  ends : c.life ≠ .ended → ∀ x ∈ c.ends, c.table x.1 = some x.2
  closed : ∀ fd file, fd < c.fd → fd ∉ c.keep → c.table fd = some file → ∃ id, file = .guest id

theorem Child.Fine.ends_eq {pipes : Nat} {c : Child} (hfine : c.Fine limit pipes)
    (hlife : c.life ≠ .ended) :
    c.table c.fdR = some (.readEnd c.input) ∧ c.table c.fdW = some (.writeEnd c.output) :=
  ⟨hfine.ends hlife (c.fdR, .readEnd c.input) (by simp [Child.ends]),
    hfine.ends hlife (c.fdW, .writeEnd c.output) (by simp [Child.ends])⟩

/-- An end of a pipe that no process has but the child it is for. -/
structure Machine.Private (m : Machine) (file : File) : Prop where
  below : file.Below m.pipes
  isEnd : file.IsEnd
  host : Never m.host file
  child : ∀ c ∈ m.children, ∀ fd, c.table fd = some file → (fd, file) ∈ c.ends

/-- The invariant of a run. -/
structure Machine.Invariant (limit : Nat) (m : Machine) : Prop where
  host : Known limit m.pipes m.host
  proxies : ∀ p ∈ m.proxies, Only m.host (.readEnd p.output) p.fdR ∧ Only m.host (.writeEnd p.input) p.fdW
  below : ∀ p ∈ m.proxies, p.output < m.pipes ∧ p.input < m.pipes
  apart : m.proxies.Pairwise fun p q => p.output ≠ q.output ∧ p.input ≠ q.input
  children : ∀ c ∈ m.children, c.Fine limit m.pipes
  proxy_ends : ∀ p ∈ m.proxies, ∀ file ∈ p.childEnds, m.Private file
  child_ends : ∀ c ∈ m.children, ∀ x ∈ c.ends, m.Private x.2
  linked : ∀ p ∈ m.proxies, ∀ c ∈ m.children, c.input = p.input ∨ c.output = p.output →
    c.pid = p.childPid ∧ c.input = p.input ∧ c.output = p.output

/-- A child after some steps: it opens nothing but files of its own. -/
structure Child.Later (limit : Nat) (c c' : Child) : Prop where
  pid : c'.pid = c.pid
  input : c'.input = c.input
  output : c'.output = c.output
  fdR : c'.fdR = c.fdR
  fdW : c'.fdW = c.fdW
  table : ∀ fd file, c'.table fd = some file →
    c.table fd = some file ∨ fd < limit ∧ ∃ id, file = .guest id
  ended : c'.life = .ended → ∀ fd, c'.table fd = none
  alive : c'.life ≠ .ended → c.life ≠ .ended ∧
    ∀ fd ∈ c.keep, ∀ file, c.table fd = some file → c'.table fd = some file
  closed : ∀ fd file, fd < c'.fd → fd ∉ c.keep → c'.table fd = some file →
    (∃ id, file = .guest id) ∨ fd < c.fd

namespace Child.Later

variable {c c' : Child}

theorem ends (hlater : c.Later limit c') : c'.ends = c.ends := by
  rw [Child.ends, Child.ends, hlater.input, hlater.output, hlater.fdR, hlater.fdW]

theorem keep (hlater : c.Later limit c') : c'.keep = c.keep := by
  rw [Child.keep, Child.keep, hlater.fdR, hlater.fdW]

theorem fine (hlater : c.Later limit c') {pipes : Nat} (hfine : c.Fine limit pipes) :
    c'.Fine limit pipes where
  below fd file hfile := by
    rcases hlater.table fd file hfile with hfile | ⟨hfd, id, rfl⟩
    · exact hfine.below fd file hfile
    · exact ⟨hfd, trivial⟩
  ended := hlater.ended
  std hlife fd hfd := by
    obtain ⟨halive, hkeep⟩ := hlater.alive hlife
    have hmem : fd ∈ c.keep := by rcases hfd with rfl | rfl <;> simp [Child.keep]
    exact (hfine.std halive fd hfd).imp fun id hid => hkeep fd hmem _ hid
  ends hlife x hx := by
    obtain ⟨halive, hkeep⟩ := hlater.alive hlife
    rw [hlater.ends] at hx
    have hmem : x.1 ∈ c.keep := by
      simp only [Child.ends, List.mem_cons, List.not_mem_nil, or_false] at hx
      rcases hx with rfl | rfl <;> simp [Child.keep]
    exact hkeep x.1 hmem _ (hfine.ends halive x hx)
  closed fd file hfd hkeep hfile := by
    rw [hlater.keep] at hkeep
    rcases hlater.closed fd file hfd hkeep hfile with hguest | hlt
    · exact hguest
    · rcases hlater.table fd file hfile with hfile | ⟨-, hguest⟩
      · exact hfine.closed fd file hlt hkeep hfile
      · exact hguest

theorem of_life (life : Life) (hended : life = .ended ↔ c.life = .ended)
    (hnone : c.life = .ended → ∀ fd, c.table fd = none) : c.Later limit { c with life } where
  pid := rfl
  input := rfl
  output := rfl
  fdR := rfl
  fdW := rfl
  table _ _ := Or.inl
  ended hlife := hnone (hended.mp hlife)
  alive hlife := ⟨fun hold => hlife (hended.mpr hold), fun _ _ _ => id⟩
  closed _ _ hfd _ _ := Or.inr hfd

theorem exit (c : Child) : c.Later limit c.exit where
  pid := rfl
  input := rfl
  output := rfl
  fdR := rfl
  fdW := rfl
  table _ _ hfile := nomatch hfile
  ended _ _ := rfl
  alive hlife := absurd rfl hlife
  closed _ _ _ _ hfile := nomatch hfile

theorem closeNext (hlife : c.life ≠ .ended) : c.Later limit c.closeNext where
  pid := rfl
  input := rfl
  output := rfl
  fdR := rfl
  fdW := rfl
  table fd file hfile := by
    unfold Child.closeNext at hfile
    dsimp only at hfile
    split at hfile
    · exact Or.inl hfile
    · exact Or.inl (close_eq_some.mp hfile).2
  ended hended := absurd hended hlife
  alive _ := by
    refine ⟨hlife, fun fd hfd file hfile => ?_⟩
    unfold Child.closeNext
    dsimp only
    split
    · exact hfile
    next hkeep => exact close_eq_some.mpr ⟨fun heq => hkeep (heq ▸ hfd), hfile⟩
  closed fd file hfd hkeep hfile := by
    rcases Nat.lt_succ_iff_lt_or_eq.mp hfd with hlt | rfl
    · exact Or.inr hlt
    · unfold Child.closeNext at hfile
      dsimp only at hfile
      rw [if_neg hkeep, close_self] at hfile
      cases hfile

theorem «open» {id fd : Nat} {table : Table File} (hlife : c.life ≠ .ended)
    (hopen : openFile limit (.guest id) c.table = some (fd, table)) : c.Later limit { c with table } where
  pid := rfl
  input := rfl
  output := rfl
  fdR := rfl
  fdW := rfl
  table other file hfile := by
    obtain ⟨hfree, rfl⟩ := openFile_eq_some hopen
    by_cases heq : other = fd
    · subst heq
      have hfile : some (File.guest id) = some file := by simpa using hfile
      exact Or.inr ⟨(mem_free.mp hfree).1, id, (Option.some.inj hfile).symm⟩
    · exact Or.inl (by simpa [heq] using hfile)
  ended hended := absurd hended hlife
  alive _ := by
    obtain ⟨hfree, rfl⟩ := openFile_eq_some hopen
    refine ⟨hlife, fun other _ file hfile => ?_⟩
    have hne : other ≠ fd := by
      rintro rfl
      rw [(mem_free.mp hfree).2] at hfile
      cases hfile
    simpa [hne] using hfile
  closed _ _ hfd _ _ := Or.inr hfd

theorem refl (hnone : c.life = .ended → ∀ fd, c.table fd = none) : c.Later limit c :=
  of_life c.life Iff.rfl hnone

theorem trans {c'' : Child} (hlater : c.Later limit c') (hlater' : c'.Later limit c'') :
    c.Later limit c'' where
  pid := hlater'.pid.trans hlater.pid
  input := hlater'.input.trans hlater.input
  output := hlater'.output.trans hlater.output
  fdR := hlater'.fdR.trans hlater.fdR
  fdW := hlater'.fdW.trans hlater.fdW
  table fd file hfile := by
    rcases hlater'.table fd file hfile with hfile | hguest
    · exact hlater.table fd file hfile
    · exact Or.inr hguest
  ended := hlater'.ended
  alive hlife := by
    obtain ⟨halive', hkeep'⟩ := hlater'.alive hlife
    obtain ⟨halive, hkeep⟩ := hlater.alive halive'
    refine ⟨halive, fun fd hfd file hfile => hkeep' fd ?_ file (hkeep fd hfd file hfile)⟩
    rw [hlater.keep]
    exact hfd
  closed fd file hfd hkeep hfile := by
    have hkeep' : fd ∉ c'.keep := by rwa [hlater.keep]
    rcases hlater'.closed fd file hfd hkeep' hfile with hguest | hlt
    · exact Or.inl hguest
    · rcases hlater'.table fd file hfile with hfile | ⟨-, hguest⟩
      · exact hlater.closed fd file hlt hkeep hfile
      · exact Or.inl hguest

theorem of_changes (hchanges : c.Changes limit c') (hnone : c.life = .ended → ∀ fd, c.table fd = none) :
    c.Later limit c' := by
  have hrunning : (c.life = .running ∨ c.life = .continued) → c.life ≠ .ended := by
    rintro (h | h) <;> simp [h]
  cases hchanges with
  | closeNext hlife hfd => exact closeNext (hrunning hlife)
  | «open» hlife hfd hopen => exact .open (hrunning hlife) hopen
  | exit hlife => exact exit c
  | stop hlife => exact of_life _ (by simp [hrunning hlife]) hnone
  | «continue» hlife => exact of_life _ (by simp [hlife]) hnone

theorem of_told (htold : c.told = some c') (hnone : c.life = .ended → ∀ fd, c.table fd = none) :
    c.Later limit c' := by
  unfold Child.told at htold
  split at htold <;> cases htold
  next hlife => exact refl hnone
  next told hlife => exact of_life _ (by simp [hlife]) hnone
  next hlife => exact of_life _ (by simp [hlife]) hnone

end Child.Later

/-- All of some children come from those that were there before. -/
def AllLater (limit : Nat) (children children' : List Child) : Prop :=
  ∀ c' ∈ children', ∃ c ∈ children, c.Later limit c'

/-- A child that has ended has no descriptors. -/
def EndedClosed (children : List Child) : Prop :=
  ∀ c ∈ children, c.life = .ended → ∀ fd, c.table fd = none

theorem AllLater.trans {children children' children'' : List Child} (hlater : AllLater limit children children')
    (hlater' : AllLater limit children' children'') : AllLater limit children children'' := by
  intro c'' hc''
  obtain ⟨c', hc', hlater'⟩ := hlater' c'' hc''
  obtain ⟨c, hc, hlater⟩ := hlater c' hc'
  exact ⟨c, hc, hlater.trans hlater'⟩

theorem AllLater.endedClosed {children children' : List Child} (hlater : AllLater limit children children') :
    EndedClosed children' := by
  intro c' hc'
  obtain ⟨c, -, hlater⟩ := hlater c' hc'
  exact hlater.ended

theorem waitpid_later {pid ret : Int} {options : WaitOptions} {children children' : List Child}
    (hclosed : EndedClosed children) (hwait : waitpid pid options children = some (ret, children')) :
    AllLater limit children children' := by
  have hsame : AllLater limit children children := fun c hc => ⟨c, hc, .refl (hclosed c hc)⟩
  unfold waitpid at hwait
  split at hwait
  next c hfind =>
    cases hwait
    intro d hd
    obtain ⟨e, he, htold⟩ := List.mem_filterMap.mp (show d ∈ tell c.pid children from hd)
    refine ⟨e, he, ?_⟩
    split at htold
    · exact .of_told htold (hclosed e he)
    · cases htold
      exact .refl (hclosed _ he)
  · split at hwait
    · cases hwait
      exact hsame
    · split at hwait <;> cases hwait
      exact hsame

theorem kill_later {children : List Child} (hclosed : EndedClosed children) (pid : Int) :
    AllLater limit children (kill pid children) := by
  intro c' hc'
  obtain ⟨c, hc, rfl⟩ := List.mem_map.mp hc'
  refine ⟨c, hc, ?_⟩
  split
  · exact .exit c
  · exact .refl (hclosed c hc)

theorem destroyProxy_later {p : Proxy} {children children' : List Child} {killed : List Int}
    (hclosed : EndedClosed children) (hdestroy : destroyProxy p children = some (killed, children')) :
    AllLater limit children children' := by
  unfold destroyProxy at hdestroy
  obtain ⟨⟨ret, middle⟩, hwait, hdestroy⟩ := Option.bind_eq_some_iff.mp hdestroy
  have hlater : AllLater limit children middle := waitpid_later hclosed hwait
  dsimp only at hdestroy
  split at hdestroy
  · obtain ⟨⟨ret', last⟩, hwait', hdestroy⟩ := Option.bind_eq_some_iff.mp hdestroy
    cases hdestroy
    have hkill := hlater.trans (kill_later hlater.endedClosed p.childPid)
    exact hkill.trans (waitpid_later hkill.endedClosed hwait')
  · cases hdestroy
    exact hlater

namespace Machine

variable {m m' : Machine}

theorem Private.later {file : File} (hprivate : m.Private file) {children : List Child}
    {proxies : List Proxy} (hlater : AllLater limit m.children children) :
    Private { m with children, proxies } file where
  below := hprivate.below
  isEnd := hprivate.isEnd
  host := hprivate.host
  child c' hc' fd hfile := by
    obtain ⟨c, hc, hlater⟩ := hlater c' hc'
    rw [hlater.ends]
    rcases hlater.table fd file hfile with hfile | ⟨-, id, rfl⟩
    · exact hprivate.child c hc fd hfile
    · exact hprivate.isEnd.elim

theorem Private.opens {file : File} (hprivate : m.Private file) (hopens : m.Opens limit m') :
    m'.Private file where
  below := hprivate.below.mono hopens.pipes_le
  isEnd := hprivate.isEnd
  host := hopens.never hprivate.below hprivate.isEnd hprivate.host
  child := by
    rw [hopens.children]
    exact hprivate.child

namespace Invariant

theorem later (hinv : m.Invariant limit) {children : List Child} {proxies : List Proxy}
    (hlater : AllLater limit m.children children) (hproxies : proxies.Sublist m.proxies) :
    Invariant limit { m with children, proxies } where
  host := hinv.host
  proxies p hp := hinv.proxies p (hproxies.subset hp)
  below p hp := hinv.below p (hproxies.subset hp)
  apart := hinv.apart.sublist hproxies
  children c' hc' := by
    obtain ⟨c, hc, hlater⟩ := hlater c' hc'
    exact hlater.fine (hinv.children c hc)
  proxy_ends p hp file hfile := (hinv.proxy_ends p (hproxies.subset hp) file hfile).later hlater
  child_ends c' hc' x hx := by
    obtain ⟨c, hc, hlater'⟩ := hlater c' hc'
    rw [hlater'.ends] at hx
    exact (hinv.child_ends c hc x hx).later hlater
  linked p hp c' hc' := by
    obtain ⟨c, hc, hlater'⟩ := hlater c' hc'
    rw [hlater'.pid, hlater'.input, hlater'.output]
    exact hinv.linked p (hproxies.subset hp) c hc

theorem opens (hinv : m.Invariant limit) (hopens : m.Opens limit m') : m'.Invariant limit where
  host := hopens.known hinv.host
  proxies p hp := by
    rw [hopens.proxies] at hp
    obtain ⟨houtput, hinput⟩ := hinv.below p hp
    have houtput : (File.readEnd p.output).Below m.pipes := houtput
    have hinput : (File.writeEnd p.input).Below m.pipes := hinput
    obtain ⟨hread, hwrite⟩ := hinv.proxies p hp
    exact ⟨fun fd => (hopens.eq_some houtput trivial).trans (hread fd),
      fun fd => (hopens.eq_some hinput trivial).trans (hwrite fd)⟩
  below p hp := by
    rw [hopens.proxies] at hp
    exact (hinv.below p hp).imp (Nat.lt_of_lt_of_le · hopens.pipes_le)
      (Nat.lt_of_lt_of_le · hopens.pipes_le)
  apart := by
    rw [hopens.proxies]
    exact hinv.apart
  children c hc := by
    rw [hopens.children] at hc
    have hfine := hinv.children c hc
    exact { hfine with
      below := fun fd file hfile =>
        (hfine.below fd file hfile).imp id fun hbelow => hbelow.mono hopens.pipes_le }
  proxy_ends p hp file hfile := by
    rw [hopens.proxies] at hp
    exact (hinv.proxy_ends p hp file hfile).opens hopens
  child_ends c hc x hx := by
    rw [hopens.children] at hc
    exact (hinv.child_ends c hc x hx).opens hopens
  linked := by
    rw [hopens.proxies, hopens.children]
    exact hinv.linked

theorem plain (hinv : m.Invariant limit) {host : Table File} (hknown : Known limit m.pipes host)
    (hhost : ∀ fd file, file.IsEnd → (host fd = some file ↔ m.host fd = some file)) :
    Invariant limit { m with host } where
  host := hknown
  proxies p hp := by
    obtain ⟨hread, hwrite⟩ := hinv.proxies p hp
    exact ⟨fun fd => (hhost fd (.readEnd p.output) trivial).trans (hread fd),
      fun fd => (hhost fd (.writeEnd p.input) trivial).trans (hwrite fd)⟩
  below := hinv.below
  apart := hinv.apart
  children := hinv.children
  proxy_ends p hp file hfile := by
    have hprivate := hinv.proxy_ends p hp file hfile
    exact { hprivate with host := fun fd h => hprivate.host fd ((hhost fd file hprivate.isEnd).mp h) }
  child_ends c hc x hx := by
    have hprivate := hinv.child_ends c hc x hx
    exact { hprivate with host := fun fd h => hprivate.host fd ((hhost fd x.2 hprivate.isEnd).mp h) }
  linked := hinv.linked

theorem child_lt (hinv : m.Invariant limit) {c : Child} (hc : c ∈ m.children) :
    c.input < m.pipes ∧ c.output < m.pipes :=
  ⟨(hinv.child_ends c hc (c.fdR, .readEnd c.input) (by simp [Child.ends])).below,
    (hinv.child_ends c hc (c.fdW, .writeEnd c.output) (by simp [Child.ends])).below⟩

end Invariant

section Fork

variable {pToC cToP : PipeEnds}

/-- What is open at one descriptor of the host stays open there if `spawn_child` does not close it. -/
theorem Prepares.only (hprepares : m.Prepares limit m' pToC cToP) {file : File} {fd : Nat}
    (honly : Only m'.host file fd) (hread : file ≠ .readEnd pToC.id) (hwrite : file ≠ .writeEnd cToP.id) :
    Only (close pToC.fdR (close cToP.fdW m'.host)) file fd :=
  (honly.close (honly.ne hprepares.cToP_open.write hwrite)).close
    (honly.ne hprepares.pToC_open.read hread)

/-- The child has a copy of what the host has before it closes its ends. -/
theorem forkChild_private {file : File} (forked : Int) (hbelow : file.Below m'.pipes)
    (hend : file.IsEnd)
    (hhost : Never (close pToC.fdR (close cToP.fdW m'.host)) file)
    (hchild : ∀ c ∈ m'.children, ∀ fd, c.table fd = some file → (fd, file) ∈ c.ends)
    (hnew : ∀ fd, m'.host fd = some file →
      (fd, file) = (pToC.fdR, .readEnd pToC.id) ∨ (fd, file) = (cToP.fdW, .writeEnd cToP.id)) :
    (m'.forkChild forked pToC cToP).Private file where
  below := hbelow
  isEnd := hend
  host := hhost
  child c hc fd hfile := by
    unfold forkChild at hc
    dsimp only at hc
    split at hc
    · exact hchild c hc fd hfile
    · rcases List.mem_append.mp hc with hc | hc
      · exact hchild c hc fd hfile
      · obtain rfl := List.mem_singleton.mp hc
        simpa [Child.ends] using hnew fd hfile

theorem Prepares.private (hprepares : m.Prepares limit m' pToC cToP) (hinv : m.Invariant limit)
    (forked : Int) {file : File} (hfile : file = .readEnd pToC.id ∨ file = .writeEnd cToP.id) :
    (m'.forkChild forked pToC cToP).Private file := by
  have hpToC := hprepares.pToC_open
  have hcToP := hprepares.cToP_open
  have hold : ∀ c ∈ m'.children, ∀ fd, c.table fd ≠ some file := by
    intro c hc fd hopen
    rw [hprepares.opens.children] at hc
    have hbelow := ((hinv.children c hc).below fd file hopen).2
    have hle := hprepares.pToC_le
    have hlt := hprepares.lt
    rcases hfile with rfl | rfl <;> simp only [File.Below] at hbelow <;> omega
  refine forkChild_private forked ?_ ?_ ?_ (fun c hc fd hopen => absurd hopen (hold c hc fd)) ?_
  · rcases hfile with rfl | rfl
    · exact hpToC.lt
    · exact hcToP.lt
  · rcases hfile with rfl | rfl <;> trivial
  · rcases hfile with rfl | rfl
    · have honly := hpToC.read.close (hpToC.read.ne hcToP.write File.noConfusion)
      exact honly.never_close
    · exact hcToP.write.never_close.close pToC.fdR
  · intro fd hopen
    rcases hfile with rfl | rfl
    · exact Or.inl (by rw [(hpToC.read fd).mp hopen])
    · exact Or.inr (by rw [(hcToP.write fd).mp hopen])

/-- Step: a sandbox has been started. -/
theorem Invariant.forkChild (hinv : m.Invariant limit) (hprepares : m.Prepares limit m' pToC cToP)
    (forked : Int) : (m'.forkChild forked pToC cToP).Invariant limit := by
  have hinv' := hinv.opens hprepares.opens
  have hpToC := hprepares.pToC_open
  have hcToP := hprepares.cToP_open
  have hle := hprepares.pToC_le
  have hlt := hprepares.lt
  have hstd : ∀ {file : File} {fd : Nat}, Only m'.host file fd → file.IsEnd →
      fd ≠ 1 ∧ fd ≠ 2 := by
    intro file fd honly hend
    constructor <;> rintro rfl
    · obtain ⟨id, hid⟩ := hinv'.host.std 1 (Or.inl rfl)
      rw [(honly 1).mpr rfl] at hid
      rw [Option.some.inj hid] at hend
      exact hend
    · obtain ⟨id, hid⟩ := hinv'.host.std 2 (Or.inr rfl)
      rw [(honly 2).mpr rfl] at hid
      rw [Option.some.inj hid] at hend
      exact hend
  -- what is older than the new pipes stays private
  have hprivate : ∀ file, m'.Private file → (m'.forkChild forked pToC cToP).Private file := by
    intro file hprivate
    exact forkChild_private forked hprivate.below hprivate.isEnd
      ((hprivate.host.close _).close _) hprivate.child
      fun fd hopen => absurd hopen (hprivate.host fd)
  have hchildren : ∀ c ∈ (m'.forkChild forked pToC cToP).children, c ∈ m'.children ∨
      c = ⟨forked, .running, m'.host, 0, pToC.fdR, cToP.fdW, pToC.id, cToP.id⟩ := by
    intro c hc
    unfold Machine.forkChild at hc
    dsimp only at hc
    split at hc
    · exact Or.inl hc
    · exact (List.mem_append.mp hc).imp id List.mem_singleton.mp
  have hproxies : ∀ p ∈ (m'.forkChild forked pToC cToP).proxies, p ∈ m'.proxies ∨
      p = ⟨forked, cToP.fdR, pToC.fdW, pToC.id, cToP.id⟩ := by
    intro p hp
    exact (List.mem_append.mp hp).imp id List.mem_singleton.mp
  have hproxy_lt : ∀ p ∈ m'.proxies, p.output < m.pipes ∧ p.input < m.pipes := by
    intro p hp
    rw [hprepares.opens.proxies] at hp
    exact hinv.below p hp
  have hchild_lt : ∀ c ∈ m'.children, c.input < m.pipes ∧ c.output < m.pipes := by
    intro c hc
    rw [hprepares.opens.children] at hc
    exact hinv.child_lt hc
  refine ⟨?_, ?_, ?_, ?_, ?_, ?_, ?_, ?_⟩
  · exact (hinv'.host.close (hstd hcToP.write trivial)).close
      (hstd hpToC.read trivial)
  · intro p hp
    rcases hproxies p hp with hp | rfl
    · obtain ⟨hread, hwrite⟩ := hinv'.proxies p hp
      obtain ⟨houtput, hinput⟩ := hproxy_lt p hp
      exact ⟨hprepares.only hread (by simp; omega) File.noConfusion,
        hprepares.only hwrite File.noConfusion (by simp; omega)⟩
    · exact ⟨hprepares.only hcToP.read (by simp; omega) File.noConfusion,
        hprepares.only hpToC.write File.noConfusion (by simp; omega)⟩
  · intro p hp
    rcases hproxies p hp with hp | rfl
    · exact hinv'.below p hp
    · exact ⟨hcToP.lt, hpToC.lt⟩
  · refine List.pairwise_append.mpr ⟨hinv'.apart, List.pairwise_singleton .., fun p hp q hq => ?_⟩
    obtain rfl := List.mem_singleton.mp hq
    obtain ⟨houtput, hinput⟩ := hproxy_lt p hp
    exact ⟨by dsimp only; omega, by dsimp only; omega⟩
  · intro c hc
    rcases hchildren c hc with hc | rfl
    · exact hinv'.children c hc
    · refine ⟨hinv'.host.below, nofun, fun _ => hinv'.host.std, ?_, nofun⟩
      intro _ x hx
      simp only [Child.ends, List.mem_cons, List.not_mem_nil, or_false] at hx
      rcases hx with rfl | rfl
      · exact (hpToC.read _).mpr rfl
      · exact (hcToP.write _).mpr rfl
  · intro p hp file hfile
    rcases hproxies p hp with hp | rfl
    · exact hprivate file (hinv'.proxy_ends p hp file hfile)
    · exact hprepares.private hinv forked (by simpa [Proxy.childEnds] using hfile)
  · intro c hc x hx
    rcases hchildren c hc with hc | rfl
    · exact hprivate x.2 (hinv'.child_ends c hc x hx)
    · refine hprepares.private hinv forked ?_
      simp only [Child.ends, List.mem_cons, List.not_mem_nil, or_false] at hx
      exact hx.imp (congrArg Prod.snd) (congrArg Prod.snd)
  · intro p hp c hc hsame
    rcases hproxies p hp with hp | rfl <;> rcases hchildren c hc with hc | rfl
    · exact hinv'.linked p hp c hc hsame
    · obtain ⟨houtput, hinput⟩ := hproxy_lt p hp
      dsimp only at hsame
      omega
    · obtain ⟨hinput, houtput⟩ := hchild_lt c hc
      dsimp only at hsame
      omega
    · exact ⟨rfl, rfl, rfl⟩

end Fork

/-! ### Runs -/

theorem Starts.invariant (hstarts : m.Starts limit) : m.Invariant limit where
  host :=
    { below := fun fd file hfile => by
        obtain ⟨hfd, id, rfl⟩ := hstarts.plain fd file hfile
        exact ⟨hfd, trivial⟩
      std := fun fd hfd => by
        have hopen : m.host fd ≠ none := by
          rcases hfd with rfl | rfl
          · exact hstarts.out
          · exact hstarts.err
        obtain ⟨file, hfile⟩ := Option.ne_none_iff_exists'.mp hopen
        obtain ⟨-, id, rfl⟩ := hstarts.plain fd file hfile
        exact ⟨id, hfile⟩ }
  proxies := by simp [hstarts.proxies]
  below := by simp [hstarts.proxies]
  apart := by simp [hstarts.proxies]
  children := by simp [hstarts.children]
  proxy_ends := by simp [hstarts.proxies]
  child_ends := by simp [hstarts.children]
  linked := by simp [hstarts.proxies]

theorem Invariant.endedClosed (hinv : m.Invariant limit) : EndedClosed m.children :=
  fun c hc => (hinv.children c hc).ended

theorem Step.invariant {event : Event} (hstep : m.Step limit event m') (hinv : m.Invariant limit) :
    m'.Invariant limit := by
  cases hstep with
  | @«open» id fd host hopen =>
      obtain ⟨hfree, rfl⟩ := openFile_eq_some hopen
      obtain ⟨hfd, hnone⟩ := mem_free.mp hfree
      have hupdate : ∀ other file, Function.update m.host fd (some (File.plain id)) other = some file ↔
          other = fd ∧ file = .plain id ∨ m.host other = some file := by
        intro other file
        by_cases heq : other = fd
        · subst heq
          simp [hnone, eq_comm]
        · simp [heq]
      refine hinv.plain ⟨fun other file hfile => ?_, fun other hother => ?_⟩ fun other file hend => ?_
      · rcases (hupdate other file).mp hfile with ⟨rfl, rfl⟩ | hfile
        · exact ⟨hfd, trivial⟩
        · exact hinv.host.below other file hfile
      · exact (hinv.host.std other hother).imp fun _ hid => (hupdate other _).mpr (Or.inr hid)
      · rw [hupdate]
        refine or_iff_right fun h => ?_
        rw [h.2] at hend
        exact hend
  | @close id fd hplain hout herr =>
      refine hinv.plain (hinv.host.close ⟨hout, herr⟩) fun other file hend => ?_
      rw [close_eq_some]
      refine and_iff_right_of_imp fun hfile heq => ?_
      rw [heq, hplain] at hfile
      rw [← Option.some.inj hfile] at hend
      exact hend
  | spawn hforked =>
      rename_i forked
      rcases spawnChild_cases hinv.host forked with ⟨m', hspawn, hrefuses⟩ | ⟨m', pToC, cToP, hspawn, hprepares⟩
      · rw [hspawn]
        exact hinv.opens hrefuses.opens
      · rw [hspawn]
        exact hinv.forkChild hprepares forked
  | @destroy p before after killed children hproxies hdestroy =>
      refine hinv.later (destroyProxy_later hinv.endedClosed hdestroy) ?_
      rw [hproxies]
      exact (List.Sublist.refl before).append (List.sublist_cons_self p after)
  | @child c c' before after hchildren hchanges =>
      refine hinv.later (fun d hd => ?_) (List.Sublist.refl _)
      have hclosed := hinv.endedClosed
      rw [hchildren] at hclosed ⊢
      rcases List.mem_append.mp hd with hd | hd
      · exact ⟨d, List.mem_append_left _ hd, .refl (hclosed d (List.mem_append_left _ hd))⟩
      · rcases List.mem_cons.mp hd with rfl | hd
        · exact ⟨c, by simp, .of_changes hchanges (hclosed c (by simp))⟩
        · exact ⟨d, by simp [hd], .refl (hclosed d (by simp [hd]))⟩

theorem Run.invariant {events : List Event} {start : Machine} (hrun : Run limit start events m)
    (hstarts : start.Starts limit) : m.Invariant limit := by
  induction hrun with
  | nil => exact hstarts.invariant
  | snoc hrun hstep ih => exact hstep.invariant ih

end Machine

/-! ### Isolation -/

/-- A child that can do nothing but talk to the host: beside files that its interpreter has opened it has
the ends of its two pipes, and the standard output and error of the host. -/
structure Child.Isolated (c : Child) : Prop where
  only : ∀ fd file, c.table fd = some file → fd ∈ c.keep ∨ ∃ id, file = .guest id
  ends : ∀ x ∈ c.ends, c.table x.1 = some x.2
  std : ∀ fd, fd = 1 ∨ fd = 2 → ∃ id, c.table fd = some (.plain id)

def Machine.Holds (m : Machine) (file : File) : Prop :=
  (∃ fd, m.host fd = some file) ∨ ∃ c ∈ m.children, ∃ fd, c.table fd = some file

/-- The child of a proxy is there and has not ended. -/
def Machine.Alive (m : Machine) (p : Proxy) : Prop :=
  ∃ c ∈ m.children, c.pid = p.childPid ∧ c.output = p.output ∧ c.life ≠ .ended

/-- **Isolation.** Whatever sandboxes the host starts and destroys, and in whatever order the steps of
the processes are taken: a child that is through `close_all_fds` has its two ends, the standard output
and error of the host and what its interpreter has opened, and nothing else. Every proxy has its own ends
in the host, at one descriptor each. Somebody has the other ends exactly as long as its child is alive,
so that the host reads the end of the file when that child is gone and not before. -/
theorem Machine.Run.isolated {start m : Machine} {events : List Event}
    (hrun : Machine.Run limit start events m) (hstarts : start.Starts limit) :
    (∀ c ∈ m.children, c.life ≠ .ended → limit ≤ c.fd → c.Isolated) ∧
      (∀ p ∈ m.proxies, Only m.host (.readEnd p.output) p.fdR ∧ Only m.host (.writeEnd p.input) p.fdW ∧
        ∀ file ∈ p.childEnds, (m.Holds file ↔ m.Alive p)) ∧
      m.proxies.Pairwise fun p q => p.output ≠ q.output ∧ p.input ≠ q.input := by
  have hinv := hrun.invariant hstarts
  refine ⟨fun c hc hlife hfd => ?_, fun p hp => ?_, hinv.apart⟩
  · have hfine := hinv.children c hc
    refine ⟨fun fd file hfile => ?_, hfine.ends hlife, hfine.std hlife⟩
    have hlt := (hfine.below fd file hfile).1
    by_cases hkeep : fd ∈ c.keep
    · exact Or.inl hkeep
    · exact Or.inr (hfine.closed fd file (Nat.lt_of_lt_of_le hlt hfd) hkeep hfile)
  · obtain ⟨hread, hwrite⟩ := hinv.proxies p hp
    refine ⟨hread, hwrite, fun file hfile => ⟨?_, ?_⟩⟩
    · rintro (⟨fd, hhost⟩ | ⟨c, hc, fd, hopen⟩)
      · exact absurd hhost ((hinv.proxy_ends p hp file hfile).host fd)
      · have hends := (hinv.proxy_ends p hp file hfile).child c hc fd hopen
        have hsame : c.input = p.input ∨ c.output = p.output := by
          simp only [Child.ends, Proxy.childEnds, List.mem_cons, List.not_mem_nil, or_false,
            Prod.mk.injEq] at hends hfile
          rcases hfile with rfl | rfl
          · exact Or.inl (by simpa [eq_comm] using hends.imp And.right And.right)
          · exact Or.inr (by simpa [eq_comm] using hends.imp And.right And.right)
        obtain ⟨hpid, -, houtput⟩ := hinv.linked p hp c hc hsame
        refine ⟨c, hc, hpid, houtput, fun hlife => ?_⟩
        rw [(hinv.children c hc).ended hlife fd] at hopen
        cases hopen
    · rintro ⟨c, hc, -, houtput, hlife⟩
      obtain ⟨-, hinput, -⟩ := hinv.linked p hp c hc (Or.inr houtput)
      have hends := (hinv.children c hc).ends_eq hlife
      simp only [Proxy.childEnds, List.mem_cons, List.not_mem_nil, or_false] at hfile
      refine Or.inr ⟨c, hc, ?_⟩
      rcases hfile with rfl | rfl
      · exact ⟨c.fdR, by rw [hends.1, hinput]⟩
      · exact ⟨c.fdW, by rw [hends.2, houtput]⟩

theorem Machine.Run.closes_all {start m : Machine} {events : List Event} {c : Child}
    {before after : List Child} (hrun : Machine.Run limit start events m)
    (hchildren : m.children = before ++ c :: after) (hlife : c.life = .running) :
    ∃ events' c', Machine.Run limit start events' { m with children := before ++ c' :: after } ∧
      limit ≤ c'.fd ∧ c'.life = .running := by
  induction hleft : limit - c.fd generalizing events m c with
  | zero =>
      refine ⟨events, c, ?_, by omega, hlife⟩
      rw [← hchildren]
      exact hrun
  | succ left ih =>
      have hstep := hrun.snoc (.child hchildren (.closeNext (Or.inl hlife) (by omega)))
      have hfd : c.closeNext.fd = c.fd + 1 := rfl
      have hleft' : limit - c.closeNext.fd = left := by omega
      obtain ⟨events', c', hclosed⟩ := ih hstep rfl hlife hleft'
      exact ⟨events', c', hclosed⟩

def terminal : Machine where
  host fd := if fd < 3 then some (.plain fd) else none
  pipes := 0
  children := []
  proxies := []

theorem terminal_starts (hlimit : 3 ≤ limit) : terminal.Starts limit where
  plain fd file hfile := by
    simp only [terminal, Option.ite_none_right_eq_some] at hfile
    obtain ⟨hlt, hfile⟩ := hfile
    exact ⟨by omega, fd, (Option.some.inj hfile).symm⟩
  out := nofun
  err := nofun
  children := rfl
  proxies := rfl

/-- One sandbox with the last descriptors of a host. -/
theorem Machine.Run.isolated_terminal :
    ∃ (events : List Event) (m : Machine), Machine.Run 11 terminal events m ∧
      (∃ c ∈ m.children, c.life = .running ∧ c.Isolated) ∧
      ∃ p ∈ m.proxies, ∀ file ∈ p.childEnds, (m.Holds file ↔ m.Alive p) := by
  have hstep : terminal.Step 11 (.spawned 7 true) (terminal.spawnChild 11 7).2 := .spawn (by decide)
  have hchildren : (terminal.spawnChild 11 7).2.children = [] ++ _ :: [] := rfl
  obtain ⟨events, c, hrun, hfd, hlife⟩ := (Run.nil.snoc hstep).closes_all hchildren rfl
  obtain ⟨hchildren, hproxies, -⟩ := Machine.Run.isolated hrun (terminal_starts (by decide))
  refine ⟨events, _, hrun, ⟨c, List.mem_singleton_self c, hlife, ?_⟩, _, List.mem_singleton_self _, ?_⟩
  · exact hchildren c (List.mem_singleton_self c) (by simp [hlife]) hfd
  · exact (hproxies _ (List.mem_singleton_self _)).2.2

end CageKeeper.Sandbox
