import CageKeeper.FileTable

/-! The processes of a host with its sandboxes, and their file descriptors: what `spawn_child` opens and
closes on both sides of `fork`, and what `destroy_proxy` does with the child. The host and its children
take their steps in any order. -/

namespace CageKeeper.Sandbox
open FileTable

inductive File where
  /-- A file of the host. -/
  | plain (id : Nat)
  /-- A file that the interpreter has opened in the child. -/
  | guest (id : Nat)
  | readEnd (pipe : Nat)
  | writeEnd (pipe : Nat)
  deriving DecidableEq

/-- What `pipe` returns, and the number of the pipe. -/
structure PipeEnds where
  id : Nat
  fdR : Nat
  fdW : Nat

/-- What has become of a child. `waitpid` tells of a change once. -/
inductive Life where
  | running
  | stopped (told : Bool)
  | continued
  | ended
  deriving DecidableEq

structure Child where
  pid : Int
  life : Life
  table : Table File
  /-- Where the loop of `close_all_fds` stands. -/
  fd : Nat
  fdR : Nat
  fdW : Nat
  /-- The pipes `p_to_c` and `c_to_p`. -/
  input : Nat
  output : Nat

/-- What the host has of a sandbox, with the pipes behind its descriptors. -/
structure Proxy where
  childPid : Int
  fdR : Nat
  fdW : Nat
  input : Nat
  output : Nat

structure Machine where
  host : Table File
  /-- The number of pipes made so far. -/
  pipes : Nat
  children : List Child
  proxies : List Proxy

/-! ### Starting a child -/

namespace Child

/-- The descriptors that `close_all_fds` is told to keep. -/
def keep (c : Child) : List Nat := [1, 2, c.fdR, c.fdW]

/-- One turn of the loop in `close_all_fds`. -/
def closeNext (c : Child) : Child :=
  { c with
    table := if c.fd ∈ c.keep then c.table else close c.fd c.table
    fd := c.fd + 1 }

/-- The end of a child, of itself or by a signal. Its descriptors are closed. -/
def exit (c : Child) : Child := { c with life := .ended, table := fun _ => none }

end Child

namespace Machine

variable (limit : Nat)

/-- `pipe`, in the host. -/
def pipe (m : Machine) : Option PipeEnds × Machine :=
  match openPair limit (.readEnd m.pipes) (.writeEnd m.pipes) m.host with
  | none => (none, m)
  | some (fdR, fdW, host) => (some ⟨m.pipes, fdR, fdW⟩, { m with host, pipes := m.pipes + 1 })

/-- `fork` in `spawn_child`, and what the parent does after it. That `fork` can return `-1` is not
considered there. -/
def forkChild (m : Machine) (forked : Int) (pToC cToP : PipeEnds) : Machine :=
  { m with
    host := close pToC.fdR (close cToP.fdW m.host)
    children := if forked = -1 then m.children else m.children ++
      [{ pid := forked, life := .running, table := m.host, fd := 0, fdR := pToC.fdR, fdW := cToP.fdW,
         input := pToC.id, output := cToP.id }]
    proxies := m.proxies ++
      [{ childPid := forked, fdR := cToP.fdR, fdW := pToC.fdW, input := pToC.id, output := cToP.id }] }

/-- `spawn_child`, and the rest of `proxy_new`; `forked` is what `fork` returns in the parent. -/
def spawnChild (forked : Int) (m : Machine) : Bool × Machine :=
  match m.pipe limit with
  | (none, m) => (false, m)
  | (some pToC, m) =>
    match m.pipe limit with
    | (none, m) => (false, m)
    | (some cToP, m) =>
      -- stdout_pipe
      match m.pipe limit with
      | (none, m) => (false, m)
      | (some _, m) =>
        -- stderr_pipe
        match m.pipe limit with
        | (none, m) => (false, m)
        | (some _, m) => (true, m.forkChild forked pToC cToP)

end Machine

/-! ### Destroying a proxy -/

/-- The options of `waitpid`. -/
structure WaitOptions where
  nohang : Bool
  untraced : Bool
  continued : Bool

namespace Child

/-- Whether a call `waitpid(pid, ..)` is for this child. -/
def Matches (pid : Int) (c : Child) : Prop := pid = -1 ∨ c.pid = pid

instance (pid : Int) (c : Child) : Decidable (c.Matches pid) :=
  inferInstanceAs (Decidable (pid = -1 ∨ c.pid = pid))

/-- Whether `waitpid` has something to tell of a child. -/
def waitable (options : WaitOptions) (c : Child) : Bool :=
  match c.life with
  | .running => false
  | .stopped told => options.untraced && !told
  | .continued => options.continued
  | .ended => true

/-- A child after `waitpid` has told of it. One that has ended is gone. -/
def told (c : Child) : Option Child :=
  match c.life with
  | .running => some c
  | .stopped _ => some { c with life := .stopped true }
  | .continued => some { c with life := .running }
  | .ended => none

end Child

/-- The children after `waitpid` has told of one of them. -/
def tell (pid : Int) (children : List Child) : List Child :=
  children.filterMap fun c => if c.pid = pid then c.told else some c

/-- `waitpid`; `none` where it blocks. Of several children the first is taken. -/
def waitpid (pid : Int) (options : WaitOptions) (children : List Child) : Option (Int × List Child) :=
  match children.find? (fun c => decide (c.Matches pid) && c.waitable options) with
  | some c => some (c.pid, tell c.pid children)
  | none =>
    -- ECHILD
    if ∀ c ∈ children, ¬ c.Matches pid then some (-1, children)
    else if options.nohang then some (0, children)
    else none

/-- `kill` with `SIGKILL`. -/
def kill (pid : Int) (children : List Child) : List Child :=
  children.map fun c => if c.Matches pid then c.exit else c

/-- What `destroy_proxy` does with the child: the processes it has killed, and the children then. -/
def destroyProxy (p : Proxy) (children : List Child) : Option (List Int × List Child) := do
  let (ret, children) ← waitpid p.childPid ⟨true, true, true⟩ children
  if ret = 0 then
    let (_, children) ← waitpid p.childPid ⟨false, false, false⟩ (kill p.childPid children)
    pure ([p.childPid], children)
  else
    pure ([], children)

/-! ### Runs -/

/-- What a child does, or what is done to it. -/
inductive Child.Changes (limit : Nat) (c : Child) : Child → Prop where
  | closeNext (hlife : c.life = .running ∨ c.life = .continued) (hfd : c.fd < limit) :
      Changes limit c c.closeNext
  /-- `initialize` of the interpreter, before the child gives up its system calls. -/
  | open {id fd : Nat} {table : Table File} (hlife : c.life = .running ∨ c.life = .continued)
      (hfd : limit ≤ c.fd) (hopen : openFile limit (.guest id) c.table = some (fd, table)) :
      Changes limit c { c with table }
  | exit (hlife : c.life ≠ .ended) : Changes limit c c.exit
  | stop (hlife : c.life = .running ∨ c.life = .continued) :
      Changes limit c { c with life := .stopped false }
  | continue {told : Bool} (hlife : c.life = .stopped told) :
      Changes limit c { c with life := .continued }

inductive Event where
  | opened
  | closed
  | spawned (forked : Int) (ret : Bool)
  | destroyed (p : Proxy)
  | changed (before after : Life)

/-- A step of the host or of a child. The host opens and closes files of its own beside the sandboxes,
but not its standard output. -/
inductive Machine.Step (limit : Nat) (m : Machine) : Event → Machine → Prop where
  | open {id fd : Nat} {host : Table File} (hopen : openFile limit (.plain id) m.host = some (fd, host)) :
      Step limit m .opened { m with host }
  | close {id fd : Nat} (hplain : m.host fd = some (.plain id)) (hout : fd ≠ 1) (herr : fd ≠ 2) :
      Step limit m .closed { m with host := close fd m.host }
  | spawn {forked : Int} (hforked : forked = -1 ∨ 0 < forked ∧ ∀ c ∈ m.children, c.pid ≠ forked) :
      Step limit m (.spawned forked (m.spawnChild limit forked).1) (m.spawnChild limit forked).2
  | destroy {p : Proxy} {before after : List Proxy} {killed : List Int} {children : List Child}
      (hproxies : m.proxies = before ++ p :: after)
      (hdestroy : destroyProxy p m.children = some (killed, children)) :
      Step limit m (.destroyed p) { m with children, proxies := before ++ after }
  | child {c c' : Child} {before after : List Child} (hchildren : m.children = before ++ c :: after)
      (hchanges : c.Changes limit c') :
      Step limit m (.changed c.life c'.life) { m with children := before ++ c' :: after }

inductive Machine.Run (limit : Nat) (start : Machine) : List Event → Machine → Prop where
  | nil : Run limit start [] start
  | snoc {events : List Event} {event : Event} {m m' : Machine} (hrun : Run limit start events m)
      (hstep : m.Step limit event m') : Run limit start (events ++ [event]) m'

/-- A host with open files of its own, before it makes a sandbox. -/
structure Machine.Starts (limit : Nat) (m : Machine) : Prop where
  plain : ∀ fd file, m.host fd = some file → fd < limit ∧ ∃ id, file = .plain id
  out : m.host 1 ≠ none
  err : m.host 2 ≠ none
  children : m.children = []
  proxies : m.proxies = []

end CageKeeper.Sandbox
