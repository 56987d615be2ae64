import Tp2So.Family.Census
import Tp2So.Sync.Posts

/-!
# The calls, as the census shows them

Waking, blocking, ageing and handing children over do not show; birth, death and collection are one
equation each.

* `Calm.census`, `Wakes.census`, `census_windUp`   what does not show;
* `census_publish`, `census_killed`, `census_terminatorLeave`, `census_reap`   what does;
* `createRest`, `createProcess_split`              `create_process` after its `assign_pid`;
* `census_createProcess`, `census_killProcess`, `census_processTerminator`, `census_waitChild`.
-/

set_option linter.unusedVariables false

namespace Tp2So

/-- the pid, and whether the process is TERMINATED -/
def Process.vital (p : Process) : Int × Bool := (p.pid, p.state == .terminated)

def Sched.census (s : Sched) : Census where
  cell := fun a => (s.heap a).map Process.vital
  table := s.table
  next := s.next

namespace Sched
variable {s t u : Sched} {k : Kernel} {a b : Nat} {p : Process} {pid q : Int}

theorem census_ext (hcell : ∀ a, (t.heap a).map Process.vital = (s.heap a).map Process.vital)
    (htab : t.table = s.table) (hnext : t.next = s.next) : t.census = s.census := by
  unfold census
  rw [htab, hnext, funext hcell]

theorem cell_eq (hp : s.heap a = some p) : s.census.cell a = some (p.pid, p.state == .terminated) := by
  show (s.heap a).map _ = _
  rw [hp]
  rfl

theorem of_cell {v : Int × Bool} (h : s.census.cell a = some v) :
    ∃ p, s.heap a = some p ∧ v = (p.pid, p.state == .terminated) := by
  obtain ⟨p, hp, rfl⟩ := Option.map_eq_some_iff.mp h
  exact ⟨p, hp, rfl⟩

/-! ## what the census does not show -/

theorem Calm.census (h : Calm s t) : t.census = s.census := by
  refine census_ext (fun a => ?_) h.table h.next
  have hp := h.pids a
  have hm := h.mood a
  cases hs : s.heap a with
  | none =>
    rw [hs] at hp
    rw [Option.map_eq_none_iff.mp hp]
  | some p =>
    rw [hs] at hp hm
    obtain ⟨p', hp', hpid⟩ := Option.map_eq_some_iff.mp hp
    rw [hp'] at hm ⊢
    have hmood : p'.mood = p.mood := Option.some.inj hm
    show some (p'.pid, _) = some (p.pid, _)
    rw [hpid, show (p'.state == .terminated) = (p.state == .terminated) from congrArg Prod.snd hmood]

theorem census_modify {f : Process → Process}
    (hf : ∀ p, s.heap a = some p → (f p).vital = p.vital) : (s.modify a f).census = s.census :=
  census_ext (modify_read (Option.map Process.vital) fun p hp => congrArg some (hf p hp)) rfl rfl

theorem census_quiet {f : Process → Process} (hf : Process.Quiet f) :
    (s.modify a f).census = s.census := by
  refine census_modify fun p _ => ?_
  unfold Process.vital
  rw [(hf p).1, (hf p).2.1]

theorem census_setState (st : ProcessState) (hst : st ≠ .terminated)
    (h : ∀ p, s.heap a = some p → p.state ≠ .terminated) :
    (s.modify a (Process.setState st)).census = s.census := by
  refine census_modify fun p hp => ?_
  unfold Process.vital
  rw [Process.setState_state, Process.setState_pid, beq_false_of_ne hst, beq_false_of_ne (h p hp)]

theorem census_addToScheduler (h : ∀ p, s.heap a = some p → p.state ≠ .terminated) :
    (addToScheduler s a).census = s.census := by
  unfold addToScheduler
  split
  · rfl
  · have hm := census_setState .ready (by decide) h
    simp only
    split
    · exact hm
    · exact hm

theorem census_unblockProcess (s : Sched) (a : Nat) : (unblockProcess s a).2.census = s.census := by
  rcases unblockProcess_cases s a with hun | ⟨p, hp, -, -, hst, hun⟩
  · rw [hun]
  · have hlive : ∀ q, s.heap a = some q → q.state ≠ .terminated := by
      intro q hq
      obtain rfl := Option.some.inj (hp.symm.trans hq)
      rw [hst]
      decide
    rw [hun]
    refine (census_addToScheduler fun q hq => ?_).trans (census_setState .ready (by decide) hlive)
    rw [modify_heap_self _ hp] at hq
    obtain rfl := Option.some.inj hq
    rw [Process.setState_state]
    decide

theorem Wakes.census (h : Wakes s t) : t.census = s.census := by
  induction h with
  | refl s => rfl
  | wake hb _ ih => exact ih.trans (census_unblockProcess _ _)

theorem census_blockProcess (s : Sched) (a : Nat) : (blockProcess s a).2.census = s.census := by
  rcases blockProcess_cases s a with hbl | ⟨p, hp, -, -, -, hlive, hbl⟩
  · rw [hbl]
  · have hb : ((s.setQueue p.priority (queueRemove (compareProcesses s) (s.ready p.priority) a)).modify
        a (Process.setState .blocked)).census = s.census := by
      refine census_setState (s := s.setQueue _ _) .blocked (by decide) fun q hq => ?_
      obtain rfl := Option.some.inj (hp.symm.trans hq)
      exact hlive
    rw [hbl, removeFromAll_eq hp]
    exact (census_quiet (quiet_setWaitTicks 0)).trans hb

theorem census_semWait (k : Kernel) (c : Nat) : (semWait k c).2.sched.census = k.sched.census := by
  rcases semWait_sched k c with hk | ⟨b, p, -, -, hk⟩
  · rw [hk]
  · rw [hk]
    exact census_blockProcess _ _

theorem census_windUp (k : Kernel) (p : Process) (pid : Int) :
    (windUp k p pid).sched.census = k.sched.census := by
  unfold windUp
  refine (wakes_announceExit _ pid).census.trans ?_
  show (reparentChildren (leavePipes k p pid).sched pid).census = _
  rw [reparentChildren_keeps (P := fun s => s.census = (leavePipes k p pid).sched.census)
    (fun s a f hs hf => (census_quiet hf.1).trans hs) pid rfl]
  exact (wakes_leavePipes k p pid).census

/-! ## what it shows -/

theorem census_setHeap (s : Sched) (a : Nat) (x : Option Process) : (s.setHeap a x).census
    = { s.census with cell := Function.update s.census.cell a (x.map Process.vital) } := by
  have hcell : (fun b => ((s.setHeap a x).heap b).map Process.vital)
      = Function.update s.census.cell a (x.map Process.vital) :=
    Function.comp_update (Option.map Process.vital) s.heap a x
  show Census.mk _ _ _ = _
  rw [hcell]
  rfl

theorem census_publish (hst : p.state ≠ .terminated) :
    (s.publish p).census = s.census.born p.pid := by
  have hv : (some p).map Process.vital = some (p.pid, false) := by
    show some (p.pid, _) = _
    rw [beq_false_of_ne hst]
  have h := census_setHeap s s.next (some p)
  rw [hv] at h
  show Census.mk (s.setHeap s.next (some p)).census.cell _ _ = _
  rw [h]
  rfl

theorem census_erase : ((s.setSlot pid none).setHeap a none).census = s.census.drop a pid :=
  census_setHeap (s.setSlot pid none) a none

theorem census_killed (h : s.Ok) (hp : s.heap a = some p) (ht : s.table p.pid = some a)
    (hi : s.idle ≠ some a) :
    (freeProcessResources (forgetShell (removeFromProcessTable
      (s.modify a (Process.setState .terminated)) p.pid) a) a true).census
      = s.census.drop a p.pid := by
  obtain ⟨h0, h1, -⟩ := h.tab _ _ ht
  rw [killed_eq hp hi h0 h1, forgetShell_eq, ← census_erase, removeFromAll_eq hp]
  rfl

theorem census_terminatorLeave (hp : s.heap a = some p) (hi : s.idle ≠ some a) :
    (terminatorLeave s a).census = s.census.dies a := by
  have hset : (s.modify a (Process.setState .terminated)).census = s.census.dies a := by
    refine (census_setHeap s a _).trans ?_
    unfold Census.dies
    rw [cell_eq hp, hp]
    rfl
  rw [← hset]
  unfold terminatorLeave
  simp only [removeProcessFromScheduler_eq (s := s.modify a (Process.setState .terminated)) hi]
  rw [setRunning_running, if_neg runningBut_ne, forgetShell_eq,
    removeFromAll_eq (modify_heap_self _ hp)]
  rfl

theorem census_reapSlot (h : s.Ok) (h0 : 0 ≤ pid) (h1 : pid < maxProcesses) :
    (reapSlot s pid).census = s.census.turn pid := by
  have hg : getProcess s pid = s.table pid := if_neg (by omega)
  have htable : s.census.table pid = s.table pid := rfl
  unfold reapSlot Census.turn
  rw [hg, htable]
  cases ht : s.table pid with
  | none => rfl
  | some a =>
    obtain ⟨-, -, p, hp, rfl⟩ := h.tab pid a ht
    simp only [hp]
    rw [cell_eq hp]
    by_cases hst : p.state = .terminated
    · rw [if_pos hst, removeFromProcessTable_eq h0 h1, if_pos (by rw [hst]; rfl)]
      exact census_erase
    · rw [if_neg hst, if_neg (by rw [beq_false_of_ne hst]; simp)]

theorem Ok.tidy (h : s.Ok) : s.census.Tidy := by
  intro pid a ht
  obtain ⟨-, -, p, hp, rfl⟩ := h.tab pid a ht
  exact ⟨_, cell_eq hp⟩

theorem Ok.free_iff (h : s.Ok) : slotFree s pid = true ↔ s.census.Free pid := by
  unfold slotFree
  cases ht : s.table pid with
  | none => exact ⟨fun _ a ha => absurd (ht.symm.trans ha) (by simp), fun _ => rfl⟩
  | some a =>
    obtain ⟨-, -, p, hp, rfl⟩ := h.tab pid a ht
    simp only [hp]
    have hc := cell_eq hp
    constructor
    · intro hst b hb
      obtain rfl := Option.some.inj (ht.symm.trans hb)
      rw [hc, hst]
    · intro hf
      have hc' := hf a ht
      rw [hc] at hc'
      exact (Prod.mk.inj (Option.some.inj hc')).2

/-- **A collection** frees the TERMINATED processes that are in their slot. -/
theorem census_reap (h : s.Ok) : (reapTerminatedProcesses s).census = s.census.collect := by
  have hfold : ∀ (l : List Int) (s : Sched), s.Ok → (∀ q ∈ l, 0 ≤ q ∧ q < maxProcesses) →
      (l.foldl reapSlot s).census = l.foldl Census.turn s.census := by
    intro l
    induction l with
    | nil => intro s _ _; rfl
    | cons pid l ih =>
      intro s hs hl
      obtain ⟨h0, h1⟩ := hl pid List.mem_cons_self
      rw [List.foldl_cons, ih _ (ok_reapSlot hs pid) fun q hq => hl q (List.mem_cons_of_mem _ hq),
        census_reapSlot hs h0 h1, List.foldl_cons]
  unfold reapTerminatedProcesses
  rw [hfold allPids s h fun q hq => mem_allPids.mp hq, Census.foldl_turn _ h.tidy]
  refine Census.collectIn_eq fun pid a ht => ?_
  obtain ⟨h0, h1, -⟩ := h.tab pid a ht
  exact mem_allPids.mpr ⟨h0, h1⟩

end Sched

/-! ## `create_process` in two steps -/

/-- `create_process` after its `assign_pid` -/
def createRest (k : Kernel) (args : CreateArgs) (pid : Int) : Option Nat × Kernel :=
  let (ppid, sched) := enterChild k.sched pid
  let k := { k with sched }
  match args.argv with
  | none => (none, k)
  | some argv =>
    if args.argc ≤ 0 then (none, k)
    else
      let p := newProcess args pid ppid argv
      if p.rsp < p.stackBase ∨ p.stackBase + processStackSize ≤ p.rsp then (none, k)
      else publishProcess k p

/-- with nothing in between, the two steps are `create_process` -/
theorem createProcess_split (k : Kernel) (args : CreateArgs) : createProcess k args
    = (assignPid k.sched).elim (none, k) (createRest k args) := by
  unfold createProcess
  cases assignPid k.sched <;> rfl

namespace Sched
variable {s : Sched} {k k' : Kernel} {a : Nat} {p : Process} {pid : Int}

theorem census_publishProcess (h : k.sched.Ok) (hf : slotFree k.sched p.pid = true) (h0 : 0 ≤ p.pid)
    (h1 : p.pid < maxProcesses) (hst : p.state = .ready) :
    (publishProcess k p).1 = some k.sched.next ∧
      (publishProcess k p).2.sched.census = (k.sched.census.born p.pid).collect := by
  refine ⟨rfl, ?_⟩
  have hlive : p.state ≠ .terminated := by
    rw [hst]
    decide
  have hself : (k.sched.publish p).heap k.sched.next = some p := Function.update_self ..
  have hslot : (k.sched.publish p).table p.pid = some k.sched.next := Function.update_self ..
  have hadd : (addToScheduler (k.sched.publish p) k.sched.next).census = k.sched.census.born p.pid := by
    rw [census_addToScheduler, census_publish hlive]
    intro q hq
    obtain rfl := Option.some.inj (hself.symm.trans hq)
    exact hlive
  rw [publishProcess_sched k (h.slot_pos hf), census_reap ((h.publish h0 h1 hf).enter hself hslot),
    hadd]

/-- **The second step of `create_process`**, for a pid whose slot is still free: it fails and the
census stays as it is, or a process is born and the TERMINATED ones are collected. -/
theorem createRest_spec (h : k.sched.Ok) (hf : slotFree k.sched pid = true) (h0 : 0 ≤ pid)
    (h1 : pid < maxProcesses) (args : CreateArgs) :
    (createRest k args pid).2.sched.Ok ∧
    (((createRest k args pid).1 = none ∧
        (createRest k args pid).2.sched.census = k.sched.census) ∨
      ((createRest k args pid).1 = some k.sched.next ∧
        (createRest k args pid).2.sched.census = (k.sched.census.born pid).collect)) := by
  have hkeep := enterChild_keeps (s := k.sched)
    (P := fun s => s.Ok ∧ slotFree s pid = true ∧ s.census = k.sched.census)
    (fun s a f hs hq => ⟨hs.1.quiet a hq.1, by rw [slotFree_quiet hq.1]; exact hs.2.1,
      (census_quiet hq.1).trans hs.2.2⟩) pid ⟨h, hf, rfl⟩
  unfold createRest
  cases hec : enterChild k.sched pid with
  | mk ppid s =>
    rw [hec] at hkeep
    obtain ⟨hok, hfree, hcen⟩ := hkeep
    have hnext : s.next = k.sched.next := congrArg Census.next hcen
    simp only
    split
    · exact ⟨hok, Or.inl ⟨rfl, hcen⟩⟩
    · split
      · exact ⟨hok, Or.inl ⟨rfl, hcen⟩⟩
      · split
        · exact ⟨hok, Or.inl ⟨rfl, hcen⟩⟩
        · rename_i argv _ _ _
          obtain ⟨hret, hpub⟩ := census_publishProcess (k := { k with sched := s })
            (p := newProcess args pid ppid argv) hok hfree h0 h1 rfl
          refine ⟨ok_publishProcess (k := { k with sched := s }) hok hfree h0 h1, Or.inr ⟨?_, ?_⟩⟩
          · rw [hret]
            exact congrArg some hnext
          · rw [hpub]
            show (s.census.born pid).collect = _
            rw [hcen]

/-- **`create_process`** -/
theorem census_createProcess (h : k.sched.Ok) (args : CreateArgs) :
    ((createProcess k args).1 = none ∧ (createProcess k args).2.sched.census = k.sched.census) ∨
    ∃ pid, assignPid k.sched = some pid ∧ (createProcess k args).1 = some k.sched.next ∧
      (createProcess k args).2.sched.census = (k.sched.census.born pid).collect := by
  rw [createProcess_split]
  cases hpid : assignPid k.sched with
  | none => exact Or.inl ⟨rfl, rfl⟩
  | some pid =>
    obtain ⟨h0, h1, hf⟩ := assignPid_spec hpid
    obtain ⟨-, hnone | ⟨hsome, hcen⟩⟩ := createRest_spec h hf h0 h1 args
    · exact Or.inl hnone
    · exact Or.inr ⟨pid, rfl, hsome, hcen⟩

/-! ## death -/

/-- **`kill_process`**: refused, or the process of the slot is freed. -/
theorem census_killProcess (h : k.sched.Ok) (pid : Int) :
    killProcess k pid = (-1, k) ∨
    ∃ a, getProcess k.sched pid = some a ∧ 2 ≤ pid ∧ (killProcess k pid).1 = 0 ∧
      (killProcess k pid).2.sched.census = k.sched.census.drop a pid := by
  rcases killProcess_cases k pid with hk | ⟨a, p, hne, hg, hp, hk⟩
  · exact Or.inl hk
  · obtain ⟨h0, -, -⟩ := getProcess_eq_some hg
    obtain ⟨rfl, ht, hi⟩ := h.victim hne hg hp
    obtain ⟨q, hq, hqp, hqt, hqi⟩ := windUp_keeps hp ht hi
    have hkill := census_killed (ok_windUp h p p.pid) hq hqt hqi
    rw [hqp, census_windUp] at hkill
    rw [hk]
    exact Or.inr ⟨a, hg, by omega, rfl, hkill⟩

/-- **`process_terminator`** of a process other than the idle one. -/
theorem census_processTerminator (h : k.sched.Ok) (hrun : k.sched.running = some a)
    (hi : k.sched.running ≠ k.sched.idle) (hk : processTerminator k = some k') :
    k'.sched.census = k.sched.census.dies a := by
  obtain ⟨p, hp, ht, -⟩ := h.running a hrun
  obtain ⟨q, hq, -, -, hqi⟩ := windUp_keeps hp ht (by rw [← hrun]; exact fun e => hi e.symm)
  rw [processTerminator_eq hrun hp] at hk
  obtain rfl := Option.some.inj hk
  show (terminatorLeave (windUp k p p.pid).sched a).census = _
  rw [census_terminatorLeave hq hqi, census_windUp]

/-! ## waiting for a child -/

theorem census_waitChildResume (h : k.sched.Ok) (pid : Int) (c : Nat) :
    (waitChildResume k pid c).sched.census = k.sched.census.collect := by
  have hreap := census_reap h
  unfold waitChildResume
  simp only
  generalize reapTerminatedProcesses k.sched = s at hreap
  split
  · exact hreap
  · have hq : Process.Quiet fun p => { p with children := p.children.erase pid } :=
      fun _ => ⟨rfl, rfl, rfl⟩
    exact (census_quiet hq).trans hreap

theorem census_waitChild (h : k.sched.Ok) (pid : Int) :
    (waitChild k pid).2.sched.census = k.sched.census ∨
      (waitChild k pid).2.sched.census = k.sched.census.collect := by
  unfold waitChild
  split
  · split
    · exact Or.inl rfl
    · rename_i a r _
      have hcen := census_semWait { k with sems := r } a
      have hok := ok_semWait (k := { k with sems := r }) h a
      split <;> rename_i k' hw <;> rw [hw] at hcen hok
      · have hreap := census_reap hok
        rw [hcen] at hreap
        generalize reapTerminatedProcesses k'.sched = s at hreap
        exact Or.inr hreap
      · exact Or.inr ((census_waitChildResume hok pid a).trans (congrArg Census.collect hcen))
      · exact Or.inl hcen
  · exact Or.inl rfl

theorem ok_waitChildResume (h : k.sched.Ok) (pid : Int) (c : Nat) :
    (waitChildResume k pid c).sched.Ok := by
  have hreap := ok_reapTerminatedProcesses h
  unfold waitChildResume
  simp only
  generalize reapTerminatedProcesses k.sched = s at hreap
  split
  · exact hreap
  · exact hreap.quiet _ fun p => ⟨rfl, rfl, rfl⟩

theorem ok_waitChild (h : k.sched.Ok) (pid : Int) : (waitChild k pid).2.sched.Ok := by
  unfold waitChild
  split
  · split
    · exact h
    · rename_i a r _
      have hok := ok_semWait (k := { k with sems := r }) h a
      split <;> rename_i k' hw <;> rw [hw] at hok
      · have hreap := ok_reapTerminatedProcesses hok
        generalize reapTerminatedProcesses k'.sched = s at hreap
        exact hreap
      · exact ok_waitChildResume hok pid a
      · exact hok
  · exact h

end Sched

/-- after `init_scheduler` the idle process is the only one -/
theorem listed_boot (stackBase : Nat) (recycled : List Int) :
    (initScheduler stackBase recycled).sched.census.Listed := by
  rw [Sched.initScheduler_eq]
  intro a pid ha
  obtain ⟨p, hp, he⟩ := Sched.of_cell ha
  by_cases e : a = 0
  · subst e
    obtain rfl : (Sched.idleProcess stackBase recycled).setState .running = p := Option.some.inj hp
    obtain rfl := (Prod.mk.inj he).1
    rfl
  · have hnone : (Sched.bootSched stackBase recycled).heap a = none :=
      Function.update_of_ne (f := fun _ => none) e ..
    exact absurd (hnone.symm.trans hp) (by simp)

end Tp2So
