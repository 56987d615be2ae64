import Tp2So.Sync.Slots

/-!
# Birth and death, as slots and semaphores show them

For a kernel without pipes: `create_process`, `kill_process` and `process_terminator` as equations
between slots and registries.  All three touch one semaphore only, the one named after the pid.

* `buildWaitSemaphoreName_inj`   two pids have two names;
* `createProcess_spec`, `killProcess_spec`, `processTerminator_spec`.
-/

set_option linter.unusedVariables false

namespace Tp2So

/-! ## the names of the exit semaphores -/

theorem numToStr_inj : ∀ m < 64, ∀ n < 64, numToStr m = numToStr n → m = n := by
  decide +kernel

theorem numToStr_length : ∀ n < 64, (numToStr n).length ≤ 2 := by
  decide +kernel

theorem buildWaitSemaphoreName_eq {pid : Int} (h0 : 0 ≤ pid) (h1 : pid < maxProcesses) :
    buildWaitSemaphoreName pid = some (['w', 'a', 'i', 't', '_'] ++ numToStr pid.toNat) :=
  if_neg (by omega)

theorem buildWaitSemaphoreName_some {pid : Int} {name : List Char}
    (h : buildWaitSemaphoreName pid = some name) : 0 ≤ pid ∧ pid < maxProcesses ∧
      name = ['w', 'a', 'i', 't', '_'] ++ numToStr pid.toNat := by
  by_cases hp : pid < 0 ∨ maxProcesses ≤ pid
  · exact absurd ((if_pos hp).symm.trans h) (by simp)
  · exact ⟨by omega, by omega, (Option.some.inj ((if_neg hp).symm.trans h)).symm⟩

theorem buildWaitSemaphoreName_inj {pid pid' : Int} {name : List Char}
    (h : buildWaitSemaphoreName pid = some name) (h' : buildWaitSemaphoreName pid' = some name) :
    pid = pid' := by
  obtain ⟨h0, h1, rfl⟩ := buildWaitSemaphoreName_some h
  obtain ⟨h0', h1', he⟩ := buildWaitSemaphoreName_some h'
  unfold maxProcesses at h1 h1'
  have hn := numToStr_inj _ (by omega) _ (by omega) (List.append_cancel_left he)
  omega

theorem buildWaitSemaphoreName_length {pid : Int} {name : List Char}
    (h : buildWaitSemaphoreName pid = some name) : name.length < maxSemLength := by
  obtain ⟨h0, h1, rfl⟩ := buildWaitSemaphoreName_some h
  unfold maxProcesses at h1
  have hl := numToStr_length pid.toNat (by omega)
  rw [List.length_append]
  show 5 + _ < 32
  omega

/-! ## creation -/

section
variable {k k' : Kernel} {a : Nat} {p : Process} {pid : Int}

theorem getValidPipe_nil (hs : k.pipes.storage = []) (id : Nat) :
    getValidPipe k.pipes id = none := by
  unfold getValidPipe
  rw [hs]
  rfl

theorem attachReader_nil (hs : k.pipes.storage = []) (id : Nat) : (attachReader k id).2 = k :=
  congrArg Prod.snd (attachReader_absent (getValidPipe_nil hs id))

theorem attachWriter_nil (hs : k.pipes.storage = []) (id : Nat) : (attachWriter k id).2 = k :=
  congrArg Prod.snd (attachWriter_absent (getValidPipe_nil hs id))

theorem publishProcess_spec (hs : k.pipes.storage = []) (hpid : p.pid ≠ 0) {name : List Char}
    (hname : buildWaitSemaphoreName p.pid = some name) :
    (publishProcess k p).2 = { k with
      sched := reapTerminatedProcesses (addToScheduler (k.sched.publish p) k.sched.next)
      sems := (semOpen k.sems name 0).2 } := by
  have hr : ∀ (c : Bool) (k : Kernel) (id : Nat), k.pipes.storage = [] →
      (if c then (attachReader k id).2 else k) = k := by
    intro c k id hk
    cases c
    · rfl
    · exact attachReader_nil hk id
  have hw : ∀ (c : Bool) (k : Kernel) (id : Nat), k.pipes.storage = [] →
      (if c then (attachWriter k id).2 else k) = k := by
    intro c k id hk
    cases c
    · rfl
    · exact attachWriter_nil hk id
  unfold publishProcess
  simp only [if_neg hpid, hname]
  rw [hr _ _ _ (by exact hs), hw _ _ _ (by exact hs)]
  rfl

/-- what a successful `create_process` makes of the slots -/
def bornSlots (slot : Int → Option Slot) (pid : Int) (a : Nat) (q : Int) : Option Slot :=
  if q = pid then some ⟨a, false, false⟩ else Sched.reapOf (slot q)

theorem slot_published {s : Sched} (h : s.Ok) (h0 : 0 ≤ p.pid) (h1 : p.pid < maxProcesses)
    (hf : slotFree s p.pid = true) (hst : p.state = .ready) :
    (reapTerminatedProcesses (addToScheduler (s.publish p) s.next)).slot
      = bornSlots s.slot p.pid s.next := by
  have hself : (s.publish p).heap s.next = some p := Function.update_self ..
  have htab : (s.publish p).table p.pid = some s.next := Function.update_self ..
  have hawake : (s.publish p).Awake s.next := Sched.awake_of_state hself (Or.inl hst)
  rw [Sched.slot_reap ((h.publish h0 h1 hf).enter hself htab),
    (Sched.calm_addToScheduler hawake).slot, Sched.slot_publish h, hst]
  funext q
  unfold bornSlots
  by_cases e : q = p.pid
  · subst e
    rw [Function.update_self, if_pos rfl]
    rfl
  · rw [Function.update_of_ne e, if_neg e]

/-- **`create_process`**: it fails and only the parent's list of children may change, or a process
appears in a free slot, the TERMINATED ones are collected, and the exit semaphore is opened. -/
theorem createProcess_spec (h : k.sched.Ok) (hs : k.pipes.storage = []) (args : CreateArgs) :
    ((createProcess k args).1 = none ∧ ∃ s, (createProcess k args).2 = { k with sched := s } ∧
      s.slot = k.sched.slot) ∨
    ∃ pid name s, assignPid k.sched = some pid ∧ buildWaitSemaphoreName pid = some name ∧
      (createProcess k args).2 = { k with sched := s, sems := (semOpen k.sems name 0).2 } ∧
      s.slot = bornSlots k.sched.slot pid k.sched.next := by
  rcases Sched.createProcess_cases k args with hk | ⟨pid, hpid, hk⟩
  · rw [hk]
    exact Or.inl ⟨rfl, k.sched, rfl, rfl⟩
  · obtain ⟨h0, h1, hf⟩ := Sched.assignPid_spec hpid
    obtain ⟨hok, hfree, hslot, hnext⟩ := Sched.enterChild_keeps (s := k.sched)
      (P := fun s => s.Ok ∧ slotFree s pid = true ∧ s.slot = k.sched.slot ∧ s.next = k.sched.next)
      (fun s a f hs hq => ⟨hs.1.quiet a hq.1, by rw [Sched.slotFree_quiet hq.1]; exact hs.2.1,
        (Sched.calm_still hq).slot.trans hs.2.2.1, hs.2.2.2⟩) pid ⟨h, hf, rfl, rfl⟩
    rcases hk with hk | ⟨argv, -, hk⟩
    · rw [hk]
      exact Or.inl ⟨rfl, _, rfl, hslot⟩
    · generalize hp : newProcess args pid (enterChild k.sched pid).1 argv = p at hk
      have hpp : p.pid = pid := by rw [← hp]; rfl
      have hst : p.state = .ready := by rw [← hp]; rfl
      subst hpp
      have hname := buildWaitSemaphoreName_eq h0 h1
      rw [hk]
      refine Or.inr ⟨p.pid, _, _, hpid, hname, publishProcess_spec
        (k := { k with sched := (enterChild k.sched p.pid).2 }) hs (hok.slot_pos hfree) hname, ?_⟩
      rw [← hslot, ← hnext]
      exact slot_published hok h0 h1 hfree hst

/-! ## death -/

theorem leavePipes_nil (hs : k.pipes.storage = []) (p : Process) (pid : Int) :
    leavePipes k p pid = k := by
  have hd : ∀ id dec wake, detach k id pid dec wake = k :=
    fun id => detach_absent (getValidPipe_nil hs id) pid
  have hc : ∀ id, (closePipe k id).2 = k :=
    fun id => congrArg Prod.snd (closePipe_absent (getValidPipe_nil hs id))
  unfold leavePipes leaveWriter leaveReader detachReader detachWriter
  simp only [hd, hc, ite_self]

/-- the slots after a post that takes out `head` -/
def wokenSlots (slot : Int → Option Slot) (head : Option Int) : Int → Option Slot :=
  head.elim slot fun pid => Function.update slot pid ((slot pid).map Sched.wakeSlot)

/-- the registry after an exit has been announced on the semaphore `a` that `r` has open -/
def announced (r : SemReg) (a : Nat) : SemReg := (semClose (r.modify a postSem) a).2

/-- **The announcement of an exit**, for a kernel whose queues hold pids from `2` on. -/
theorem announceExit_spec (h : k.sched.Ok) (hr : k.sems.Wf) (h0 : 0 ≤ pid)
    (h1 : pid < maxProcesses)
    (hq : ∀ a m, k.sems.heap a = some m → ∀ q ∈ m.blockedProcesses.elems,
      2 ≤ q ∧ q < maxProcesses) :
    ∃ name a r s, buildWaitSemaphoreName pid = some name ∧ semOpen k.sems name 0 = (some a, r) ∧
      announceExit k pid = { k with sched := s, sems := announced r a } ∧
      s.slot = wokenSlots k.sched.slot (headWaiter r a) ∧ k.sched.Same s ∧ s.Ok := by
  have hname := buildWaitSemaphoreName_eq h0 h1
  generalize ['w', 'a', 'i', 't', '_'] ++ numToStr pid.toNat = name at hname
  have hren := SemReg.renews_semOpen hr name 0
  obtain ⟨a, r, ho⟩ : ∃ a r, semOpen k.sems name 0 = (some a, r) := by
    have hlen := buildWaitSemaphoreName_length hname
    cases hl : locateSemaphoreByName k.sems name with
    | some a => exact ⟨_, _, SemReg.semOpen_found hlen hl⟩
    | none => exact ⟨_, _, SemReg.semOpen_new hlen hl⟩
  rw [ho] at hren
  have hpost := semPost_eq (k := { k with sems := r }) hren.wf a
  refine ⟨name, a, r, (semPost { k with sems := r } a).2.sched, hname, ho, ?_, ?_, ?_, ?_⟩
  · unfold announceExit announced
    simp only [hname, ho, hpost]
  · rw [hpost]
    show ((headWaiter r a).elim k.sched (wakePid k.sched)).slot = _
    unfold wokenSlots
    cases hh : headWaiter r a with
    | none => rfl
    | some q =>
      -- the pid taken out was queued before: a new semaphore has no waiters
      have hq2 : 2 ≤ q ∧ q < maxProcesses := by
        obtain ⟨m, hm, hmq⟩ := Option.bind_eq_some_iff.mp hh
        have hmem := List.mem_of_mem_head? hmq
        rcases hren.back a m hm with ⟨n, hn, -, -, hnq⟩ | ⟨-, -, -, hnq⟩
        · rw [hnq] at hmem
          exact hq a n hn q hmem
        · rw [hnq] at hmem
          exact absurd hmem List.not_mem_nil
      rw [Option.elim_some, Option.elim_some, Sched.slot_wakePid h (by omega) hq2.2, if_pos hq2.1]
  · exact (Sched.wakes_semPost { k with sems := r } a).same
  · exact (Sched.wakes_semPost { k with sems := r } a).ok h

/-- the same for `windUp`, which also hands the children over -/
theorem windUp_spec (h : k.sched.Ok) (hr : k.sems.Wf) (hs : k.pipes.storage = [])
    (h0 : 0 ≤ pid) (h1 : pid < maxProcesses)
    (hq : ∀ a m, k.sems.heap a = some m → ∀ q ∈ m.blockedProcesses.elems,
      2 ≤ q ∧ q < maxProcesses) (p : Process) :
    ∃ name a r s, buildWaitSemaphoreName pid = some name ∧ semOpen k.sems name 0 = (some a, r) ∧
      windUp k p pid = { k with sched := s, sems := announced r a } ∧
      s.slot = wokenSlots k.sched.slot (headWaiter r a) ∧ k.sched.Same s ∧ s.Ok := by
  have hkeep := Sched.reparentChildren_keeps (s := k.sched)
    (P := fun s => s.Ok ∧ s.slot = k.sched.slot ∧ k.sched.Same s)
    (fun s a f hs hf => ⟨hs.1.quiet a hf.1, (Sched.calm_still hf).slot.trans hs.2.1,
      hs.2.2.trans (Sched.same_modify s a fun p => (hf.1 p).1)⟩) pid ⟨h, rfl, .refl _⟩
  unfold windUp
  simp only [leavePipes_nil hs]
  generalize reparentChildren k.sched pid = t at hkeep
  obtain ⟨hok, hslot, hsame⟩ := hkeep
  obtain ⟨name, a, r, s, hname, ho, he, hsl, hsm, hsok⟩ :=
    announceExit_spec (k := { k with sched := t }) hok hr h0 h1 hq
  exact ⟨name, a, r, s, hname, ho, he, by rw [hsl, ← hslot], hsame.trans hsm, hsok⟩

/-- **`kill_process`**: it is refused and nothing changes, or the exit is announced and the slot
emptied. -/
theorem killProcess_spec (h : k.sched.Ok) (hr : k.sems.Wf) (hs : k.pipes.storage = [])
    (hq : ∀ a m, k.sems.heap a = some m → ∀ q ∈ m.blockedProcesses.elems,
      2 ≤ q ∧ q < maxProcesses) (pid : Int) :
    killProcess k pid = (-1, k) ∨
    ∃ x name a r s, k.sched.slot pid = some x ∧ buildWaitSemaphoreName pid = some name ∧
      semOpen k.sems name 0 = (some a, r) ∧
      killProcess k pid = (0, { k with sched := s, sems := announced r a }) ∧
      s.slot = Function.update (wokenSlots k.sched.slot (headWaiter r a)) pid none := by
  rcases Sched.killProcess_cases k pid with hk | ⟨a, p, hne, hg, hp, hk⟩
  · exact Or.inl hk
  · obtain ⟨h0, h1, -⟩ := getProcess_eq_some hg
    obtain ⟨rfl, ht, hi⟩ := h.victim hne hg hp
    obtain ⟨name, c, r, s, hname, ho, he, hslot, hsame, hok⟩ := windUp_spec h hr hs h0 h1 hq p
    obtain ⟨q, hqh, hqp, hqt, hqi⟩ := Sched.windUp_keeps hp ht hi
    rw [he] at hqh hqt hqi hk
    have hkill := Sched.slot_killed hok hqh hqt hqi
    rw [hqp, hslot] at hkill
    exact Or.inr ⟨_, name, c, r, _, Sched.slot_eq ht hp, hname, ho, hk, hkill⟩

/-- **`process_terminator`** of a process other than the idle one. -/
theorem processTerminator_spec (h : k.sched.Ok) (hr : k.sems.Wf) (hs : k.pipes.storage = [])
    (hq : ∀ a m, k.sems.heap a = some m → ∀ q ∈ m.blockedProcesses.elems,
      2 ≤ q ∧ q < maxProcesses) (hrun : k.sched.running = some a)
    (hi : k.sched.running ≠ k.sched.idle) (hp : k.sched.heap a = some p) :
    ∃ name c r s, buildWaitSemaphoreName p.pid = some name ∧
      semOpen k.sems name 0 = (some c, r) ∧
      processTerminator k = some { k with sched := s, sems := announced r c } ∧
      s.slot = Function.update (wokenSlots k.sched.slot (headWaiter r c)) p.pid
        (some ⟨a, false, true⟩) := by
  obtain ⟨p', hp', ht, -⟩ := h.running a hrun
  obtain rfl := Option.some.inj (hp.symm.trans hp')
  obtain ⟨h0, h1, -⟩ := h.tab _ _ ht
  obtain ⟨name, c, r, s, hname, ho, he, hslot, hsame, hok⟩ := windUp_spec h hr hs h0 h1 hq p
  obtain ⟨q, hqh, hqp, hqt, hqi⟩ := Sched.windUp_keeps hp ht (by rw [← hrun]; exact fun e => hi e.symm)
  rw [he] at hqh hqt hqi
  have hleave := Sched.slot_terminatorLeave hok hqh hqt hqi
  rw [hqp, hslot] at hleave
  refine ⟨name, c, r, _, hname, ho, ?_, hleave⟩
  rw [Sched.processTerminator_eq hrun hp, he]

end

end Tp2So
