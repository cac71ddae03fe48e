import CageKeeper.SandboxIsolation

/-! How many sandboxes a host can start, and what becomes of a child when its proxy is destroyed. Each
sandbox costs the host six descriptors, which it never gets back. -/

namespace CageKeeper.Sandbox
open FileTable

variable {limit : Nat} {m m' start : Machine} {events : List Event}

/-! ### Descriptors -/

/-- What `proxy_new` has returned, call by call. -/
def spawns (events : List Event) : List Bool :=
  events.filterMap fun
    | .spawned _ ret => some ret
    | _ => none

@[simp] theorem spawns_append (events events' : List Event) :
    spawns (events ++ events') = spawns events ++ spawns events' := List.filterMap_append

/-- The host gets two of eight descriptors back when it closes the ends of the child. -/
theorem Machine.Prepares.card_forkChild {pToC cToP : PipeEnds} (hprepares : m.Prepares limit m' pToC cToP)
    (hinv : m'.Invariant limit) (forked : Int) :
    (free limit (m'.forkChild forked pToC cToP).host).card + 6 = (free limit m.host).card := by
  have hread := (hprepares.pToC_open.read _).mpr rfl
  have hwrite := (hprepares.cToP_open.write _).mpr rfl
  have hne : pToC.fdR ≠ cToP.fdW :=
    hprepares.pToC_open.read.ne hprepares.cToP_open.write File.noConfusion
  have hltR := (hinv.host.below _ _ hread).1
  have hltW := (hinv.host.below _ _ hwrite).1
  have hcard := hprepares.card
  have hfree : free limit (m'.forkChild forked pToC cToP).host =
      insert pToC.fdR (insert cToP.fdW (free limit m'.host)) := by
    rw [Machine.forkChild, free_close hltR, free_close hltW]
  rw [hfree, Finset.card_insert_of_notMem, Finset.card_insert_of_notMem]
  · omega
  · simp [mem_free, hwrite]
  · simp [mem_free, hread, hne]

/-- The descriptors that are left after some calls of `proxy_new`: `made` of them were successful, and
if one has failed there are not enough for another one. -/
inductive Left (before now : Nat) : List Bool → Prop where
  | made {made : Nat} (hcard : now + 6 * made = before) (hmade : made = 0 ∨ 2 ≤ now) :
      Left before now (List.replicate made true)
  | failed {made failed : Nat} (hpos : 0 < failed) (hcard : now < 2) (hmade : 6 * made ≤ before)
      (hleft : before < 6 * made + 8) (hlast : made = 0 ∨ 6 * made + 2 ≤ before) :
      Left before now (List.replicate made true ++ List.replicate failed false)

theorem Left.spawn_true {before now now' : Nat} {results : List Bool} (hleft : Left before now results)
    (henough : now' + 6 = now) (hnow : 2 ≤ now') : Left before now' (results ++ [true]) := by
  cases hleft with
  | @made made hcard hmade =>
      rw [← List.replicate_succ']
      exact .made (by omega) (Or.inr hnow)
  | failed => omega

theorem Left.spawn_false {before now : Nat} {results : List Bool} (hleft : Left before now results)
    (hfew : now < 8) : Left before (now % 2) (results ++ [false]) := by
  cases hleft with
  | @made made hcard hmade => exact .failed Nat.one_pos (by omega) (by omega) (by omega) (by omega)
  | @failed made failed hpos hcard hmade hleft hlast =>
      rw [List.append_assoc, ← List.replicate_succ']
      exact .failed (Nat.succ_pos _) (by omega) hmade hleft hlast

/-- Step: the descriptors of a host that opens and closes nothing else. -/
theorem Machine.Step.left {event : Event} (hstep : m.Step limit event m') (hinv : m.Invariant limit)
    (hopened : event ≠ .opened) (hclosed : event ≠ .closed) {before : Nat} {results : List Bool}
    (hleft : Left before (free limit m.host).card results) :
    Left before (free limit m'.host).card (results ++ spawns [event]) := by
  cases hstep with
  | «open» => exact absurd rfl hopened
  | close => exact absurd rfl hclosed
  | destroy => simpa [spawns] using hleft
  | child => simpa [spawns] using hleft
  | @spawn forked hforked =>
      rcases spawnChild_cases hinv.host forked with
        ⟨m', hspawn, hrefuses⟩ | ⟨m', pToC, cToP, hspawn, hprepares⟩
      · rw [hspawn, hrefuses.card]
        exact hleft.spawn_false hrefuses.few
      · have hcard := hprepares.card
        have hcard' := hprepares.card_forkChild (hinv.opens hprepares.opens) forked
        have hnow : 2 ≤ (free limit (m'.forkChild forked pToC cToP).host).card := by omega
        rw [hspawn]
        exact hleft.spawn_true hcard' hnow

theorem Machine.Run.left (hrun : Machine.Run limit start events m) (hstarts : start.Starts limit)
    (hown : ∀ event ∈ events, event ≠ .opened ∧ event ≠ .closed) :
    Left (free limit start.host).card (free limit m.host).card (spawns events) := by
  induction hrun with
  | nil => exact .made rfl (Or.inl rfl)
  | @snoc events event m m' hrun hstep ih =>
      obtain ⟨hopened, hclosed⟩ := hown event (by simp)
      rw [spawns_append]
      exact hstep.left (hrun.invariant hstarts) hopened hclosed
        (ih fun other hother => hown other (List.mem_append_left _ hother))

/-- **The budget of a host.** A host that opens and closes no other files can start one sandbox for each
six descriptors, up to the last two, and no more: every later call of `proxy_new` fails, whatever
sandboxes are destroyed in between. -/
theorem Machine.Run.budget (hrun : Machine.Run limit start events m) (hstarts : start.Starts limit)
    (hown : ∀ event ∈ events, event ≠ .opened ∧ event ≠ .closed) :
    spawns events =
      List.replicate (min (spawns events).length (((free limit start.host).card - 2) / 6)) true ++
        List.replicate ((spawns events).length - ((free limit start.host).card - 2) / 6) false := by
  have hleft := hrun.left hstarts hown
  generalize hresults : spawns events = results at hleft ⊢
  cases hleft with
  | @made made hcard hmade =>
      have hle : made ≤ ((free limit start.host).card - 2) / 6 := by omega
      rw [List.length_replicate, Nat.min_eq_left hle, Nat.sub_eq_zero_of_le hle, List.replicate_zero,
        List.append_nil]
  | @failed made failed hpos hcard hmade hleft hlast =>
      have heq : ((free limit start.host).card - 2) / 6 = made := by omega
      rw [heq, List.length_append, List.length_replicate, List.length_replicate,
        Nat.min_eq_right (Nat.le_add_right ..), Nat.add_sub_cancel_left]

/-- The last descriptors are enough for one sandbox. -/
theorem Machine.Run.budget_terminal :
    ∃ (events : List Event) (m : Machine), Machine.Run 11 terminal events m ∧
      spawns events = [true, false] := by
  have hfirst : terminal.Step 11 (.spawned 7 true) (terminal.spawnChild 11 7).2 := .spawn (by decide)
  have hsecond : (terminal.spawnChild 11 7).2.Step 11 (.spawned 8 false)
      ((terminal.spawnChild 11 7).2.spawnChild 11 8).2 := .spawn (by decide)
  have hrun := (Run.nil.snoc hfirst).snoc hsecond
  refine ⟨_, _, hrun, ?_⟩
  rw [hrun.budget (terminal_starts (by decide)) (by simp)]
  rfl

/-! ### Destroying a proxy -/

/-- What must be known of the processes for `waitpid` to find the right one. -/
structure Owned (children : List Child) : Prop where
  pids : (children.map Child.pid).Nodup
  pos : ∀ c ∈ children, 0 < c.pid

section Wait

variable {children children' : List Child} {c : Child} {options : WaitOptions}

theorem Owned.eq_of_pid (howned : Owned children) {d : Child} (hc : c ∈ children) (hd : d ∈ children)
    (hpid : d.pid = c.pid) : d = c := List.inj_on_of_nodup_map howned.pids hd hc hpid

theorem Owned.matches_iff (howned : Owned children) (hc : c ∈ children) (d : Child) :
    d.Matches c.pid ↔ d.pid = c.pid := by
  have hpos := howned.pos c hc
  exact or_iff_right (by omega)

theorem waitpid_of_waitable (howned : Owned children) (hc : c ∈ children)
    (hwaitable : c.waitable options = true) :
    waitpid c.pid options children =
      some (c.pid, tell c.pid children) := by
  have hsome : (children.find? fun d => decide (d.Matches c.pid) && d.waitable options).isSome := by
    rw [List.find?_isSome]
    exact ⟨c, hc, by simp [howned.matches_iff hc, hwaitable]⟩
  obtain ⟨d, hfind⟩ := Option.isSome_iff_exists.mp hsome
  have hmatches := List.find?_some hfind
  rw [Bool.and_eq_true, decide_eq_true_iff, howned.matches_iff hc] at hmatches
  rw [howned.eq_of_pid hc (List.mem_of_find?_eq_some hfind) hmatches.1] at hfind
  rw [waitpid, hfind]

theorem waitpid_of_not_waitable (howned : Owned children) (hc : c ∈ children)
    (hwaitable : c.waitable options = false) :
    waitpid c.pid options children = if options.nohang then some (0, children) else none := by
  have hnone : (children.find? fun d => decide (d.Matches c.pid) && d.waitable options) = none := by
    rw [List.find?_eq_none]
    intro d hd
    rw [Bool.and_eq_true, decide_eq_true_iff, howned.matches_iff hc]
    rintro ⟨hpid, hd'⟩
    rw [howned.eq_of_pid hc hd hpid, hwaitable] at hd'
    cases hd'
  have hsome : ¬ ∀ d ∈ children, ¬ d.Matches c.pid := fun h => h c hc (Or.inr rfl)
  rw [waitpid, hnone, if_neg hsome]

theorem kill_pids (pid : Int) (children : List Child) :
    (kill pid children).map Child.pid = children.map Child.pid := by
  rw [kill, List.map_map]
  refine List.map_congr_left fun c _ => ?_
  rw [Function.comp_apply]
  split <;> rfl

theorem Owned.of_pids (howned : Owned children)
    (hsub : (children'.map Child.pid).Sublist (children.map Child.pid)) : Owned children' where
  pids := howned.pids.sublist hsub
  pos c hc := by
    obtain ⟨d, hd, hpid⟩ := List.mem_map.mp (hsub.subset (List.mem_map_of_mem hc))
    exact hpid ▸ howned.pos d hd

theorem Child.told_pid {d : Child} (htold : c.told = some d) : d.pid = c.pid := by
  unfold Child.told at htold
  split at htold <;> cases htold <;> rfl

theorem mem_tell {pid : Int} {d : Child} (hd : d.pid ≠ pid) : d ∈ tell pid children ↔ d ∈ children := by
  rw [tell, List.mem_filterMap]
  constructor
  · rintro ⟨c, hc, htold⟩
    split at htold
    next heq => exact absurd ((Child.told_pid htold).trans heq) hd
    · cases htold
      exact hc
  · exact fun hmem => ⟨d, hmem, if_neg hd⟩

theorem Owned.tell_eq (howned : Owned children) (hc : c ∈ children) {d : Child} (hd : d.pid = c.pid) :
    d ∈ tell c.pid children ↔ c.told = some d := by
  rw [tell, List.mem_filterMap]
  constructor
  · rintro ⟨e, he, htold⟩
    have hpid : e.pid = c.pid := by
      split at htold
      next heq => exact heq
      · cases htold
        exact hd
    rwa [if_pos hpid, howned.eq_of_pid hc he hpid] at htold
  · exact fun htold => ⟨c, hc, (if_pos rfl).trans htold⟩

theorem Owned.mem_kill (howned : Owned children) (hc : c ∈ children) {d : Child} (hd : d.pid ≠ c.pid) :
    d ∈ Sandbox.kill c.pid children ↔ d ∈ children := by
  rw [Sandbox.kill, List.mem_map]
  constructor
  · rintro ⟨e, he, rfl⟩
    split at hd
    next hmatches => exact absurd ((howned.matches_iff hc e).mp hmatches) hd
    next hmatches =>
      rw [if_neg hmatches]
      exact he
  · exact fun hmem => ⟨d, hmem, if_neg fun hmatches => hd ((howned.matches_iff hc d).mp hmatches)⟩

/-- The changes after which `waitpid` tells of a child that is still there. -/
def Child.Reported (c : Child) : Prop := c.life = .stopped false ∨ c.life = .continued

/-- **`destroy_proxy`**, for a proxy with a child: no other process is touched, and the child is gone
unless it has been stopped or continued and nobody knows it yet. -/
theorem destroyProxy_eq (howned : Owned children) (hc : c ∈ children) {p : Proxy}
    (hpid : p.childPid = c.pid) :
    ∃ killed children', destroyProxy p children = some (killed, children') ∧
      (∀ d, d.pid ≠ c.pid → (d ∈ children' ↔ d ∈ children)) ∧
      ((∀ d ∈ children', d.pid ≠ c.pid) ↔ ¬ c.Reported) ∧ ∀ pid ∈ killed, pid = c.pid := by
  have hpos := howned.pos c hc
  cases hwaitable : c.waitable ⟨true, true, true⟩ with
  | true =>
      have hwait := waitpid_of_waitable howned hc hwaitable
      refine ⟨[], tell c.pid children, ?_, fun d hd => mem_tell hd, ?_, nofun⟩
      · rw [destroyProxy, hpid, hwait]
        exact if_neg hpos.ne'
      · have htold : (∀ d ∈ tell c.pid children, d.pid ≠ c.pid) ↔ c.told = none := by
          rw [Option.eq_none_iff_forall_ne_some]
          exact ⟨fun h d htold => h d ((howned.tell_eq hc (Child.told_pid htold)).mpr htold)
              (Child.told_pid htold),
            fun h d hd heq => h d ((howned.tell_eq hc heq).mp hd)⟩
        rw [htold, Child.Reported]
        unfold Child.waitable at hwaitable
        unfold Child.told
        cases hlife : c.life <;> simp_all
  | false =>
      have hwait := waitpid_of_not_waitable howned hc hwaitable
      have hmem : c.exit ∈ kill c.pid children :=
        List.mem_map.mpr ⟨c, hc, if_pos (Or.inr rfl)⟩
      have howned' : Owned (kill c.pid children) := howned.of_pids (kill_pids c.pid children ▸ .refl _)
      have hwait' : waitpid c.exit.pid ⟨false, false, false⟩ (kill c.pid children) =
          some (c.exit.pid, tell c.exit.pid (kill c.pid children)) :=
        waitpid_of_waitable howned' hmem rfl
      refine ⟨[c.pid], tell c.pid (kill c.pid children), ?_, ?_, ?_, by simp⟩
      · rw [destroyProxy, hpid, hwait]
        exact congrArg (Option.bind · _) hwait'
      · exact fun d hd => (mem_tell hd).trans (howned.mem_kill hc hd)
      · refine iff_of_true (fun d hd hpid => ?_) ?_
        · have htold := (howned'.tell_eq hmem hpid).mp hd
          cases htold
        · unfold Child.waitable at hwaitable
          rw [Child.Reported]
          cases hlife : c.life <;> simp_all

theorem tell_pids (pid : Int) (children : List Child) :
    ((tell pid children).map Child.pid).Sublist (children.map Child.pid) := by
  unfold tell
  induction children with
  | nil => exact .refl _
  | cons c children ih =>
      rw [List.filterMap_cons, List.map_cons]
      split
      · exact ih.cons _
      next d htold =>
        have hpid : d.pid = c.pid := by
          split at htold
          · exact Child.told_pid htold
          · cases htold
            rfl
        rw [List.map_cons, hpid]
        exact ih.cons_cons _

theorem waitpid_pids {pid ret : Int} (hwait : waitpid pid options children = some (ret, children')) :
    (children'.map Child.pid).Sublist (children.map Child.pid) := by
  unfold waitpid at hwait
  split at hwait
  next c hfind =>
    cases hwait
    exact tell_pids c.pid children
  · split at hwait
    · cases hwait
      exact .refl _
    · split at hwait <;> cases hwait
      exact .refl _

theorem destroyProxy_pids {p : Proxy} {killed : List Int}
    (hdestroy : destroyProxy p children = some (killed, children')) :
    (children'.map Child.pid).Sublist (children.map Child.pid) := by
  unfold destroyProxy at hdestroy
  obtain ⟨⟨ret, middle⟩, hwait, hdestroy⟩ := Option.bind_eq_some_iff.mp hdestroy
  have hsub := waitpid_pids hwait
  dsimp only at hdestroy
  split at hdestroy
  · obtain ⟨⟨ret', last⟩, hwait', hdestroy⟩ := Option.bind_eq_some_iff.mp hdestroy
    cases hdestroy
    have hsub' := waitpid_pids hwait'
    rw [kill_pids] at hsub'
    exact hsub'.trans hsub
  · cases hdestroy
    exact hsub

end Wait

/-- Every proxy has a child, if no `fork` fails. -/
structure Machine.Paired (m : Machine) : Prop where
  owned : Owned m.children
  child : ∀ p ∈ m.proxies, ∃ c ∈ m.children, c.pid = p.childPid ∧ c.output = p.output

/-- And every child has a proxy, if none is ever stopped. -/
structure Machine.Exact (m : Machine) : Prop where
  life : ∀ c ∈ m.children, c.life = .running ∨ c.life = .ended
  proxy : ∀ c ∈ m.children, ∃ p ∈ m.proxies, p.childPid = c.pid

theorem Child.Changes.pid {c c' : Child} (hchanges : c.Changes limit c') :
    c'.pid = c.pid ∧ c'.output = c.output := by
  cases hchanges <;> exact ⟨rfl, rfl⟩

theorem Machine.Paired.ne (hpaired : m.Paired) (hinv : m.Invariant limit) {before after : List Proxy}
    {p q : Proxy} (hproxies : m.proxies = before ++ p :: after) (hq : q ∈ before ++ after) :
    q.childPid ≠ p.childPid := by
  intro hpid
  have hapart := hinv.apart
  rw [hproxies, List.pairwise_append, List.pairwise_cons] at hapart
  obtain ⟨-, ⟨hafter, -⟩, hbefore⟩ := hapart
  obtain ⟨c, hc, hcpid, hcoutput⟩ := hpaired.child p (by simp [hproxies])
  obtain ⟨d, hd, hdpid, hdoutput⟩ := hpaired.child q (by
    rw [hproxies]
    exact (List.sublist_cons_self p after).append_left before |>.subset hq)
  have hsame := hpaired.owned.eq_of_pid hc hd (hdpid.trans (hpid.trans hcpid.symm))
  rw [hsame, hcoutput] at hdoutput
  rcases List.mem_append.mp hq with hq | hq
  · exact (hbefore q hq p List.mem_cons_self).1 hdoutput.symm
  · exact (hafter q hq).1 hdoutput

/-- Step: every proxy has a child. -/
theorem Machine.Step.paired {event : Event} (hstep : m.Step limit event m') (hinv : m.Invariant limit)
    (hfork : ∀ ret, event ≠ .spawned (-1) ret) (hpaired : m.Paired) : m'.Paired := by
  cases hstep with
  | «open» => exact ⟨hpaired.owned, hpaired.child⟩
  | close => exact ⟨hpaired.owned, hpaired.child⟩
  | @spawn forked hforked =>
      have hforked' : forked ≠ -1 := fun heq => hfork _ (by rw [heq])
      obtain ⟨hpos, hnew⟩ := hforked.resolve_left hforked'
      rcases spawnChild_cases hinv.host forked with
        ⟨m', hspawn, hrefuses⟩ | ⟨m', pToC, cToP, hspawn, hprepares⟩
      · rw [hspawn]
        refine ⟨?_, ?_⟩
        · rw [hrefuses.opens.children]
          exact hpaired.owned
        · rw [hrefuses.opens.children, hrefuses.opens.proxies]
          exact hpaired.child
      · rw [hspawn]
        have hchildren := hprepares.opens.children
        have hproxies := hprepares.opens.proxies
        refine ⟨⟨?_, ?_⟩, ?_⟩
        · simp only [forkChild, if_neg hforked', hchildren, List.map_append, List.map_cons, List.map_nil]
          refine List.nodup_append.mpr ⟨hpaired.owned.pids, List.nodup_singleton _, ?_⟩
          intro pid hpid other hother
          obtain ⟨c, hc, rfl⟩ := List.mem_map.mp hpid
          rw [List.mem_singleton.mp hother]
          exact hnew c hc
        · simp only [forkChild, if_neg hforked', hchildren, List.forall_mem_append, List.forall_mem_singleton]
          exact ⟨hpaired.owned.pos, hpos⟩
        · simp only [forkChild, if_neg hforked', hchildren, hproxies, List.forall_mem_append,
            List.forall_mem_singleton]
          refine ⟨fun p hp => ?_, _, List.mem_append_right _ (List.mem_singleton_self _), rfl, rfl⟩
          obtain ⟨c, hc, hpid, houtput⟩ := hpaired.child p hp
          exact ⟨c, List.mem_append_left _ hc, hpid, houtput⟩
  | @destroy p before after killed children hproxies hdestroy =>
      refine ⟨hpaired.owned.of_pids (destroyProxy_pids hdestroy), fun q hq => ?_⟩
      have hne := hpaired.ne hinv hproxies hq
      obtain ⟨c, hc, hcpid, -⟩ := hpaired.child p (by simp [hproxies])
      obtain ⟨killed', children', hdestroy', hframe, -⟩ :=
        destroyProxy_eq hpaired.owned hc hcpid.symm
      cases hdestroy.symm.trans hdestroy'
      obtain ⟨d, hd, hdpid, houtput⟩ := hpaired.child q (by
        rw [hproxies]
        exact (List.sublist_cons_self p after).append_left before |>.subset hq)
      refine ⟨d, (hframe d ?_).mpr hd, hdpid, houtput⟩
      rwa [hdpid, hcpid]
  | @child c c' before after hchildren hchanges =>
      obtain ⟨hpid, houtput⟩ := hchanges.pid
      have hpids : (before ++ c' :: after).map Child.pid = m.children.map Child.pid := by
        rw [hchildren, List.map_append, List.map_append, List.map_cons, List.map_cons, hpid]
      refine ⟨hpaired.owned.of_pids (hpids ▸ .refl _), fun p hp => ?_⟩
      obtain ⟨d, hd, hdpid, hdoutput⟩ := hpaired.child p hp
      rw [hchildren] at hd
      rcases List.mem_append.mp hd with hd | hd
      · exact ⟨d, List.mem_append_left _ hd, hdpid, hdoutput⟩
      · rcases List.mem_cons.mp hd with rfl | hd
        · exact ⟨c', by simp, hpid.trans hdpid, houtput.trans hdoutput⟩
        · exact ⟨d, by simp [hd], hdpid, hdoutput⟩

/-- Step: every child has a proxy. -/
theorem Machine.Step.exact {event : Event} (hstep : m.Step limit event m') (hinv : m.Invariant limit)
    (hfork : ∀ ret, event ≠ .spawned (-1) ret) (hstop : ∀ life told, event ≠ .changed life (.stopped told))
    (hpaired : m.Paired) (hexact : m.Exact) : m'.Exact := by
  cases hstep with
  | «open» => exact ⟨hexact.life, hexact.proxy⟩
  | close => exact ⟨hexact.life, hexact.proxy⟩
  | @spawn forked hforked =>
      have hforked' : forked ≠ -1 := fun heq => hfork _ (by rw [heq])
      rcases spawnChild_cases hinv.host forked with
        ⟨m', hspawn, hrefuses⟩ | ⟨m', pToC, cToP, hspawn, hprepares⟩
      · rw [hspawn]
        refine ⟨?_, ?_⟩
        · rw [hrefuses.opens.children]
          exact hexact.life
        · rw [hrefuses.opens.children, hrefuses.opens.proxies]
          exact hexact.proxy
      · rw [hspawn]
        refine ⟨?_, ?_⟩
        · simp only [forkChild, if_neg hforked', hprepares.opens.children, List.forall_mem_append,
            List.forall_mem_singleton]
          exact ⟨hexact.life, .inl trivial⟩
        · simp only [forkChild, if_neg hforked', hprepares.opens.children, hprepares.opens.proxies,
            List.forall_mem_append, List.forall_mem_singleton]
          refine ⟨fun c hc => ?_, _, List.mem_append_right _ (List.mem_singleton_self _), rfl⟩
          obtain ⟨p, hp, hpid⟩ := hexact.proxy c hc
          exact ⟨p, List.mem_append_left _ hp, hpid⟩
  | @destroy p before after killed children hproxies hdestroy =>
      obtain ⟨c, hc, hcpid, -⟩ := hpaired.child p (by simp [hproxies])
      obtain ⟨killed', children', hdestroy', hframe, hgone, -⟩ :=
        destroyProxy_eq hpaired.owned hc hcpid.symm
      obtain ⟨rfl, rfl⟩ := Prod.mk.inj (Option.some.inj (hdestroy'.symm.trans hdestroy))
      have hreported : ¬ c.Reported := by
        rintro (hlife | hlife) <;> rcases hexact.life c hc with h | h <;> rw [hlife] at h <;> cases h
      have hgone := hgone.mpr hreported
      have hold : ∀ d ∈ children', d ∈ m.children := fun d hd => (hframe d (hgone d hd)).mp hd
      refine ⟨fun d hd => hexact.life d (hold d hd), fun d hd => ?_⟩
      obtain ⟨q, hq, hqpid⟩ := hexact.proxy d (hold d hd)
      rw [hproxies] at hq
      rcases List.mem_append.mp hq with hq | hq
      · exact ⟨q, List.mem_append_left _ hq, hqpid⟩
      · rcases List.mem_cons.mp hq with rfl | hq
        · exact absurd (hqpid.symm.trans hcpid.symm) (hgone d hd)
        · exact ⟨q, List.mem_append_right _ hq, hqpid⟩
  | @child c c' before after hchildren hchanges =>
      have hc : c ∈ m.children := by simp [hchildren]
      have hothers : ∀ d ∈ before ++ c' :: after, d = c' ∨ d ∈ m.children := by
        intro d hd
        rw [hchildren]
        simp only [List.mem_append, List.mem_cons] at hd ⊢
        tauto
      refine ⟨fun d hd => ?_, fun d hd => ?_⟩
      · rcases hothers d hd with rfl | hd
        · have hlife := hexact.life c hc
          cases hchanges with
          | closeNext => exact hlife
          | «open» => exact hlife
          | exit => exact Or.inr rfl
          | stop => exact absurd rfl (hstop _ false)
          | «continue» hstopped => simp [hstopped] at hlife
        · exact hexact.life d hd
      · rcases hothers d hd with rfl | hd
        · obtain ⟨p, hp, hpid⟩ := hexact.proxy c hc
          exact ⟨p, hp, hpid.trans hchanges.pid.1.symm⟩
        · exact hexact.proxy d hd

theorem Machine.Starts.paired (hstarts : start.Starts limit) : start.Paired where
  owned := ⟨by simp [hstarts.children], by simp [hstarts.children]⟩
  child := by simp [hstarts.proxies]

theorem Machine.Starts.exact (hstarts : start.Starts limit) : start.Exact where
  life := by simp [hstarts.children]
  proxy := by simp [hstarts.children]

theorem Machine.Run.paired (hrun : Machine.Run limit start events m) (hstarts : start.Starts limit)
    (hforks : ∀ ret, Event.spawned (-1) ret ∉ events) : m.Paired := by
  induction hrun with
  | nil => exact hstarts.paired
  | @snoc events event m m' hrun hstep ih =>
      refine hstep.paired (hrun.invariant hstarts) (fun ret heq => hforks ret (by simp [heq])) (ih ?_)
      exact fun ret hmem => hforks ret (List.mem_append_left _ hmem)

theorem Machine.Run.exact (hrun : Machine.Run limit start events m) (hstarts : start.Starts limit)
    (hforks : ∀ ret, Event.spawned (-1) ret ∉ events)
    (hstops : ∀ life told, Event.changed life (.stopped told) ∉ events) : m.Exact := by
  induction hrun with
  | nil => exact hstarts.exact
  | @snoc events event m m' hrun hstep ih =>
      have hforks' : ∀ ret, Event.spawned (-1) ret ∉ events :=
        fun ret hmem => hforks ret (List.mem_append_left _ hmem)
      exact hstep.exact (hrun.invariant hstarts) (fun ret heq => hforks ret (by simp [heq]))
        (fun life told heq => hstops life told (by simp [heq])) (hrun.paired hstarts hforks')
        (ih hforks' fun life told hmem => hstops life told (List.mem_append_left _ hmem))

/-- **Destroying sandboxes.** In every run in which no `fork` fails, `destroy_proxy` comes to an end for
every proxy, kills no other process than its child and leaves all others as they are. The child is gone
afterwards, unless it has been stopped or continued and nobody has been told. If none is ever stopped,
the children of the host are at all times those of the proxies that it has not destroyed: none is left
over, dead or alive. -/
theorem Machine.Run.destroys (hrun : Machine.Run limit start events m) (hstarts : start.Starts limit)
    (hforks : ∀ ret, Event.spawned (-1) ret ∉ events) :
    (∀ p ∈ m.proxies, ∃ c ∈ m.children, c.pid = p.childPid ∧ c.output = p.output ∧
      ∃ killed children', destroyProxy p m.children = some (killed, children') ∧
        (∀ d, d.pid ≠ c.pid → (d ∈ children' ↔ d ∈ m.children)) ∧
        ((∀ d ∈ children', d.pid ≠ c.pid) ↔ ¬ c.Reported) ∧ ∀ pid ∈ killed, pid = c.pid) ∧
      ((∀ life told, Event.changed life (.stopped told) ∉ events) →
        ∀ pid, (∃ c ∈ m.children, c.pid = pid) ↔ ∃ p ∈ m.proxies, p.childPid = pid) := by
  have hpaired := hrun.paired hstarts hforks
  refine ⟨fun p hp => ?_, fun hstops pid => ⟨?_, ?_⟩⟩
  · obtain ⟨c, hc, hpid, houtput⟩ := hpaired.child p hp
    exact ⟨c, hc, hpid, houtput, destroyProxy_eq hpaired.owned hc hpid.symm⟩
  · rintro ⟨c, hc, rfl⟩
    exact (hrun.exact hstarts hforks hstops).proxy c hc
  · rintro ⟨p, hp, rfl⟩
    obtain ⟨c, hc, hpid, -⟩ := hpaired.child p hp
    exact ⟨c, hc, hpid⟩

/-- A sandbox that is destroyed again. -/
theorem Machine.Run.destroys_terminal :
    ∃ (events : List Event) (m : Machine), Machine.Run 11 terminal events m ∧ ∃ p ∈ m.proxies,
      ∃ killed children', destroyProxy p m.children = some (killed, children') ∧
        ∀ pid ∈ killed, pid = 7 := by
  have hstep : terminal.Step 11 (.spawned 7 true) (terminal.spawnChild 11 7).2 := .spawn (by decide)
  have hrun := Run.nil.snoc hstep
  obtain ⟨hproxies, -⟩ := hrun.destroys (terminal_starts (by decide)) (by simp)
  obtain ⟨c, -, hpid, -, killed, children', hdestroy, -, -, hkilled⟩ :=
    hproxies _ (List.mem_singleton_self _)
  exact ⟨_, _, hrun, _, List.mem_singleton_self _, killed, children', hdestroy,
    fun pid hmem => (hkilled pid hmem).trans hpid⟩

/-! ### A fork that fails -/

theorem kill_all (children : List Child) : kill (-1) children = children.map Child.exit :=
  List.map_congr_left fun _ _ => if_pos (Or.inl rfl)

/-- `destroy_proxy` after a `fork` that has failed: its process is `-1`, and `kill` takes that for all
processes there are. -/
theorem destroyProxy_unforked {p : Proxy} {children : List Child} (hpid : p.childPid = -1)
    (hsome : children ≠ []) (hquiet : ∀ c ∈ children, c.waitable ⟨true, true, true⟩ = false) :
    ∃ children', destroyProxy p children = some ([-1], children') ∧ ∀ c ∈ children', c.life = .ended := by
  obtain ⟨c, rest, rfl⟩ := List.exists_cons_of_ne_nil hsome
  have hended : ∀ d ∈ kill (-1) (c :: rest), d.life = .ended := by
    intro d hd
    rw [kill_all] at hd
    obtain ⟨e, -, rfl⟩ := List.mem_map.mp hd
    rfl
  have hwait : waitpid (-1) ⟨true, true, true⟩ (c :: rest) = some (0, c :: rest) := by
    have hnone : (c :: rest).find?
        (fun d => decide (d.Matches (-1)) && d.waitable ⟨true, true, true⟩) = none := by
      rw [List.find?_eq_none]
      intro d hd
      simp [hquiet d hd]
    rw [waitpid, hnone, if_neg fun h => h c List.mem_cons_self (Or.inl rfl)]
    rfl
  have hwait' : waitpid (-1) ⟨false, false, false⟩ (kill (-1) (c :: rest)) =
      some (c.pid, tell c.pid (kill (-1) (c :: rest))) := by
    rw [kill_all]
    rfl
  refine ⟨tell c.pid (kill (-1) (c :: rest)), ?_, fun d hd => ?_⟩
  · rw [destroyProxy, hpid, hwait]
    simp only [Option.bind_eq_bind, Option.bind_some, if_true, hwait']
    rfl
  · obtain ⟨e, he, htold⟩ := List.mem_filterMap.mp hd
    have hlife := hended e he
    split at htold
    · rw [Child.told, hlife] at htold
      cases htold
    · cases htold
      exact hlife

/-- **A failed fork kills the others.** `proxy_new` does not notice that `fork` has failed. Whenever the
host destroys such a proxy while it has children, of which there is nothing to tell, all its sandboxes
are dead afterwards. -/
theorem Machine.Run.unforked (hrun : Machine.Run limit start events m) (hstarts : start.Starts limit)
    {p : Proxy} (hp : p ∈ m.proxies) (hpid : p.childPid = -1) (hsome : m.children ≠ [])
    (hquiet : ∀ c ∈ m.children, c.waitable ⟨true, true, true⟩ = false) :
    ∃ m', m.Step limit (.destroyed p) m' ∧ ∀ q ∈ m.proxies, ¬ m'.Alive q ∧
      ∀ file ∈ q.childEnds, ¬ m'.Holds file := by
  obtain ⟨children', hdestroy, hended⟩ := destroyProxy_unforked hpid hsome hquiet
  obtain ⟨before, after, hproxies⟩ := List.append_of_mem hp
  have hstep : m.Step limit (.destroyed p) _ := .destroy hproxies hdestroy
  refine ⟨_, hstep, fun q hq => ⟨?_, fun file hfile => ?_⟩⟩
  · rintro ⟨c, hc, -, -, hlife⟩
    exact hlife (hended c hc)
  · rintro (⟨fd, hhost⟩ | ⟨c, hc, fd, hopen⟩)
    · exact ((hrun.invariant hstarts).proxy_ends q hq file hfile).host fd hhost
    · have hclosed := (hstep.invariant (hrun.invariant hstarts)).endedClosed
      rw [hclosed c hc (hended c hc) fd] at hopen
      cases hopen

/-- Two sandboxes, of which one has no process. -/
theorem Machine.Run.unforked_terminal :
    ∃ (events : List Event) (m m' : Machine), Machine.Run 20 terminal events m ∧
      (∃ q ∈ m.proxies, m.Alive q) ∧ (∃ p, m.Step 20 (.destroyed p) m') ∧
        ∀ q ∈ m.proxies, ¬ m'.Alive q := by
  have hfirst : terminal.Step 20 (.spawned 7 true) (terminal.spawnChild 20 7).2 := .spawn (by decide)
  have hsecond : (terminal.spawnChild 20 7).2.Step 20 (.spawned (-1) true)
      ((terminal.spawnChild 20 7).2.spawnChild 20 (-1)).2 := .spawn (Or.inl rfl)
  have hrun := (Run.nil.snoc hfirst).snoc hsecond
  obtain ⟨m', hstep, hdead⟩ := hrun.unforked (terminal_starts (by decide))
    (List.mem_cons_of_mem _ (List.mem_singleton_self _)) rfl nofun (by decide)
  exact ⟨_, _, m', hrun, ⟨_, List.mem_cons_self, _, List.mem_cons_self, rfl, rfl, nofun⟩, ⟨_, hstep⟩,
    fun q hq => (hdead q hq).1⟩

end CageKeeper.Sandbox
