import Tp2So.Guard.Tick
import Tp2So.Lib.Runs
import Tp2So.Ready.Runs

/-!
# The idle and the init process are never lost

A run is any sequence of calls, with any arguments, by whatever process happens to run, mixed with
Ctrl+C, ends of processes and ticks.  The two halves of `process_terminator`, and what is left of
`wait_child`, `readPipe` and `writePipe` after a wait, are operations of their own, so that anything
can happen in between.

* `Protected i j s`    the two processes are in their slots, READY or RUNNING, and in their places;
* `GuardOp.allowed`    only another process terminates, and a tick saves a stack pointer inside the
                       stack of the running process;
* `guarded_run`        as far as a run goes, the two processes are guarded.

A tick has no result where the code turns for ever, and where it reads the control block of a freed
process whose pointer `set_priority` has left in a ready queue; there a run ends.

`create_process` is one operation, though the code turns interrupts on after `assign_pid`: what can
come in between is the subject of `Family.Pids`.
-/

set_option linter.unusedVariables false

namespace Tp2So

inductive GuardOp where
  | kill (pid : Int)
  | ctrlC
  | terminatorNotify
  | terminatorLeave
  | block (pid : Int)
  | unblock (pid : Int)
  | setPriority (pid newPriority : Int)
  | create (args : CreateArgs)
  | createShell (stackBase : Nat) (recycled : List Int)
  | waitChild (pid : Int)
  | waitChildResume (pid : Int) (sem : Nat)
  | semOpen (name : List Char) (value : Nat)
  | semClose (sem : Nat)
  | semWait (sem : Nat)
  | semPost (sem : Nat)
  | openPipe (recycled : Nat → UInt8)
  | closePipe (id : Nat)
  | readPipe (id bytes : Nat)
  | readResume (pipe bytes : Nat)
  | writePipe (id : Nat) (data : List UInt8)
  | writeResume (pipe : Nat) (rest : List UInt8) (written : Nat)
  | setReadTarget (id : Nat)
  | setWriteTarget (id : Nat)
  | yield
  | schedule (fuel rsp : Nat)

def Kernel.setSched (k : Kernel) (s : Sched) : Kernel := { k with sched := s }

def Kernel.setSems (k : Kernel) (r : SemReg) : Kernel := { k with sems := r }

def execGuard : GuardOp → Kernel → Option Kernel
  | .kill pid, k => some (killProcess k pid).2
  | .ctrlC, k => some (killForegroundProcesses k).2
  | .terminatorNotify, k => k.sched.running.map (terminatorNotify k)
  | .terminatorLeave, k => k.sched.running.map fun a => k.setSched (terminatorLeave k.sched a)
  | .block pid, k => some (k.setSched (sysBlockProcess k.sched pid).2)
  | .unblock pid, k => some (k.setSched (sysUnblockProcess k.sched pid).2)
  | .setPriority pid pr, k => some (k.setSched (setPriority k.sched pid pr).2)
  | .create args, k => some (createProcess k args).2
  | .createShell base recycled, k => some (createShell k base recycled)
  | .waitChild pid, k => some (waitChild k pid).2
  | .waitChildResume pid sem, k => some (waitChildResume k pid sem)
  | .semOpen name v, k => some (k.setSems (semOpen k.sems name v).2)
  | .semClose sem, k => some (k.setSems (semClose k.sems sem).2)
  | .semWait sem, k => some (semWait k sem).2
  | .semPost sem, k => some (semPost k sem).2
  | .openPipe recycled, k => some (openPipe k recycled).2
  | .closePipe id, k => some (closePipe k id).2
  | .readPipe id n, k => some (readPipe k id n).2
  | .readResume a n, k => some (readResume k a n).2
  | .writePipe id data, k => some (writePipe k id data).2
  | .writeResume a rest n, k => some (writeResume k a rest n).2
  | .setReadTarget id, k => some (sysSetReadTarget k id).2
  | .setWriteTarget id, k => some (sysSetWriteTarget k id).2
  | .yield, k => some (k.setSched (yieldCpu k.sched))
  | .schedule fuel rsp, k => (schedule fuel rsp k.sched).map fun r => k.setSched r.2

/-- what the running process meets, if there is one -/
def Sched.current (s : Sched) (f : Process → Bool) : Bool :=
  (s.running.bind s.heap).all f

def GuardOp.allowed : GuardOp → Kernel → Bool
  | .terminatorNotify, k => k.sched.current fun p => p.pid != 0 && p.pid != 1
  | .terminatorLeave, k => k.sched.current fun p => p.pid != 0 && p.pid != 1
  | .schedule _ rsp, k => k.sched.current fun p =>
      p.stackBase ≤ rsp && rsp < p.stackBase + processStackSize
  | _, _ => true

/-- `a` is in exactly one ready queue, once -/
def QueuedOnce (s : Sched) (a : Nat) : Prop :=
  ∃ pr, (s.ready pr).elems.count a = 1 ∧ ∀ pr', pr' ≠ pr → a ∉ (s.ready pr').elems

structure Protected (i j : Nat) (s : Sched) : Prop where
  slots : getProcess s 0 = some i ∧ getProcess s 1 = some j
  idleState : ∃ p, s.heap i = some p ∧ (p.state = .ready ∨ p.state = .running)
  initState : ∃ p, s.heap j = some p ∧ (p.state = .ready ∨ p.state = .running)
  idleUnqueued : ∀ pr, i ∉ (s.ready pr).elems
  initPlace : (s.running = some j ∧ ∀ pr, j ∉ (s.ready pr).elems) ∨
    (s.running ≠ some j ∧ QueuedOnce s j)

section
variable {i j base a : Nat} {m : InitAt} {c : Prop} {s : Sched} {k k' : Kernel} {p : Process}

/-! ## what the invariant says -/

theorem Sched.not_mem_of_places (h : s.places a = 0) (pr : Priority) : a ∉ (s.ready pr).elems := by
  intro hm
  have hpos : 0 < (s.ready pr).elems.count a := List.count_pos_iff.mpr hm
  have hle := Sched.count_le_places s pr a
  omega

theorem Sched.queuedOnce_of_places (h : s.places a = 1) : QueuedOnce s a := by
  have hex : ∃ pr, a ∈ (s.ready pr).elems := by
    by_contra hn
    have hz : ∀ pr, (s.ready pr).elems.count a = 0 :=
      fun pr => List.count_eq_zero.mpr fun hm => hn ⟨pr, hm⟩
    unfold Sched.places at h
    rw [hz, hz, hz, hz] at h
    exact absurd h (by decide)
  obtain ⟨pr, hm⟩ := hex
  have hpos : 0 < (s.ready pr).elems.count a := List.count_pos_iff.mpr hm
  -- without that queue nothing is left
  have hrest := Sched.places_setQueue s pr createQueue a
  rw [createQueue_elems, List.count_nil] at hrest
  have hle := Sched.count_le_places s pr a
  refine ⟨pr, by omega, fun pr' hne hm' => ?_⟩
  refine Sched.not_mem_of_places (s := s.setQueue pr createQueue) (a := a) (by omega) pr' ?_
  rw [Sched.setQueue_of_ne _ _ _ hne]
  exact hm'

theorem Sched.Guard.getProcess (h : s.Guard i j base m c) :
    getProcess s 0 = some i ∧ getProcess s 1 = some j :=
  ⟨h.slots.1, h.slots.2⟩

theorem Sched.Guarded.protected (h : s.Guarded i j base) : Protected i j s := by
  rcases h with h | h
  · obtain ⟨p, hp, hst, -⟩ := h.initProc
    exact ⟨h.getProcess, h.idleProc, ⟨p, hp, Or.inr hst⟩, h.noIdle,
      Or.inl ⟨h.cpu.mpr trivial, Sched.not_mem_of_places h.init⟩⟩
  · obtain ⟨p, hp, hst, -⟩ := h.initProc
    exact ⟨h.getProcess, h.idleProc, ⟨p, hp, Or.inl hst⟩, h.noIdle,
      Or.inr ⟨fun hr => h.cpu.mp hr, Sched.queuedOnce_of_places h.init⟩⟩

/-! ## one step -/

/-- a call that keeps `Guard` wherever the init process is -/
theorem Sched.Guarded.of_guard {t : Sched} (h : s.Guarded i j base)
    (hk : ∀ {m c}, s.Guard i j base m c → t.Guard i j base m c) : t.Guarded i j base :=
  h.elim (fun h => Or.inl (hk h)) fun h => Or.inr (hk h)

theorem guard_yieldCpu (h : s.Guard i j base m c) : (yieldCpu s).Guard i j base m c := by
  unfold yieldCpu
  split
  · exact h
  · refine h.still _ (fun p => ?_) fun p => ?_
    · split <;> exact ⟨rfl, rfl⟩
    · split <;> exact ⟨rfl, rfl⟩

theorem guard_createShell (h : k.sched.Guard i j base m c) (b : Nat) (recycled : List Int) :
    (createShell k b recycled).sched.Guard i j base m c :=
  (Sched.guard_createProcess h (bootArgs _ true b recycled)).setShell _

theorem Sched.current_of {f : Process → Bool} (h : s.current f = true) (hr : s.running = some a)
    (hp : s.heap a = some p) : f p = true := by
  unfold Sched.current at h
  rw [hr, Option.bind_some, hp] at h
  exact h

theorem Sched.Guard.other_terminates (h : s.Guard i j base m c)
    (hc : s.current (fun p => p.pid != 0 && p.pid != 1) = true) (hr : s.running = some a) :
    a ≠ i ∧ a ≠ j := by
  refine ⟨fun e => ?_, fun e => ?_⟩
  · obtain ⟨q, hq, -⟩ := h.idleProc
    have hp : s.heap a = some q := by rw [e]; exact hq
    have hf := Sched.current_of hc hr hp
    rw [(h.pids i q hq).1.mpr rfl] at hf
    exact absurd hf (by decide)
  · obtain ⟨q, hq, -⟩ := h.initProc
    have hp : s.heap a = some q := by rw [e]; exact hq
    have hf := Sched.current_of hc hr hp
    rw [(h.pids j q hq).2.mpr rfl] at hf
    exact absurd hf (by decide)

/-- **One step.**  No allowed step loses the idle or the init process. -/
theorem guarded_step (o : GuardOp) (k k' : Kernel) (h : k.sched.Guarded i j base)
    (hc : o.allowed k = true) (he : execGuard o k = some k') : k'.sched.Guarded i j base := by
  cases o with
  | kill pid => exact Option.some.inj he ▸ h.of_guard fun h => Sched.guard_killProcess h pid
  | ctrlC => exact Option.some.inj he ▸ h.of_guard fun h => Sched.guard_killForeground h
  | terminatorNotify =>
    obtain ⟨a, -, rfl⟩ := Option.map_eq_some_iff.mp he
    exact h.of_guard fun h => Sched.guard_terminatorNotify h a
  | terminatorLeave =>
    obtain ⟨a, hr, rfl⟩ := Option.map_eq_some_iff.mp he
    refine h.of_guard fun h => ?_
    obtain ⟨hi, hj⟩ := h.other_terminates hc hr
    exact Sched.guard_terminatorLeave h hi hj
  | block pid => exact Option.some.inj he ▸ h.of_guard fun h => Sched.guard_sysBlock h pid
  | unblock pid => exact Option.some.inj he ▸ h.of_guard fun h => Sched.guard_sysUnblock h pid
  | setPriority pid pr =>
    exact Option.some.inj he ▸ h.of_guard fun h => Sched.guard_setPriority h pid pr
  | create args => exact Option.some.inj he ▸ h.of_guard fun h => Sched.guard_createProcess h args
  | createShell b r => exact Option.some.inj he ▸ h.of_guard fun h => guard_createShell h b r
  | waitChild pid => exact Option.some.inj he ▸ h.of_guard fun h => Sched.guard_waitChild h pid
  | waitChildResume pid sem =>
    exact Option.some.inj he ▸ h.of_guard fun h => Sched.guard_waitChildResume h pid sem
  | semOpen name v => exact Option.some.inj he ▸ h
  | semClose sem => exact Option.some.inj he ▸ h
  | semWait sem => exact Option.some.inj he ▸ h.of_guard fun h => Sched.guard_semWait h sem
  | semPost sem =>
    exact Option.some.inj he ▸ h.of_guard fun h => (Sched.wakes_semPost k sem).guard h
  | openPipe recycled =>
    obtain rfl := Option.some.inj he
    rw [Sched.openPipe_sched]
    exact h
  | closePipe id =>
    exact Option.some.inj he ▸ h.of_guard fun h => (Sched.wakes_closePipe k id).guard h
  | readPipe id n => exact Option.some.inj he ▸ h.of_guard fun h => Sched.guard_readPipe h id n
  | readResume a n => exact Option.some.inj he ▸ h.of_guard fun h => Sched.guard_readResume h a n
  | writePipe id data =>
    exact Option.some.inj he ▸ h.of_guard fun h => Sched.guard_writePipe h id data
  | writeResume a rest n =>
    exact Option.some.inj he ▸ h.of_guard fun h => Sched.guard_writeResume h a rest n
  | setReadTarget id =>
    exact Option.some.inj he ▸ h.of_guard fun h => Sched.guard_setTarget h
      Sched.wakes_detachReader Sched.attachReader_sched (fun _ => ⟨rfl, rfl⟩) fun _ => ⟨rfl, rfl⟩
  | setWriteTarget id =>
    exact Option.some.inj he ▸ h.of_guard fun h => Sched.guard_setTarget h
      Sched.wakes_detachWriter Sched.attachWriter_sched (fun _ => ⟨rfl, rfl⟩) fun _ => ⟨rfl, rfl⟩
  | yield => exact Option.some.inj he ▸ h.of_guard fun h => guard_yieldCpu h
  | schedule fuel rsp =>
    obtain ⟨r, hs, rfl⟩ := Option.map_eq_some_iff.mp he
    refine Sched.guarded_schedule h (fun hr => ?_) hs
    obtain ⟨p, hp, -, hb, -⟩ := (h.cpu hr).initProc
    have hin := Sched.current_of hc hr hp
    rw [Bool.and_eq_true, decide_eq_true_eq, decide_eq_true_eq, hb] at hin
    exact hin

/-! ## runs -/

/-- the second process of an empty kernel is the init process -/
theorem Sched.guard_second {q : Process} (hidle : s.idle = some 0) (hrun : s.running = some 0)
    (hnext : s.next = 1) (hheap : s.heap = Function.update (fun _ => none) 0 (some q))
    (htab : s.table = Function.update (fun _ => none) 0 (some 0))
    (hready : ∀ pr, (s.ready pr).elems = []) (hq : q.pid = 0) (hact : q.state.active)
    (hp : p.pid = 1) (hst : p.state = .ready) (hin : p.inStack p.rsp) :
    (s.publish p).Guard 0 1 p.stackBase .hand False := by
  have h0 : (s.publish p).heap 0 = some q := by
    show Function.update s.heap s.next (some p) 0 = _
    rw [hnext, hheap]
    rfl
  have h1 : (s.publish p).heap 1 = some p := by
    show Function.update s.heap s.next (some p) 1 = _
    rw [hnext]
    exact Function.update_self ..
  have ht0 : (s.publish p).table 0 = some 0 := by
    show Function.update s.table p.pid (some s.next) 0 = _
    rw [hp, htab]
    rfl
  have ht1 : (s.publish p).table 1 = some 1 := by
    show Function.update s.table p.pid (some s.next) 1 = _
    rw [hp, hnext]
    exact Function.update_self ..
  refine ⟨by decide, hidle, ?_, ⟨ht0, ht1⟩, fun pid a ht => ?_, fun a r hr => ?_, ⟨q, h0, hact⟩,
    ⟨p, h1, hst, rfl, hin⟩, fun pr hm => ?_, ?_, iff_of_false (fun e => ?_) not_false⟩
  · show 0 < s.next + 1 ∧ 1 < s.next + 1
    omega
  · by_cases e1 : pid = 1
    · subst e1
      obtain rfl := Option.some.inj (ht1.symm.trans ht)
      exact ⟨fun e => absurd e (by decide), fun _ => rfl⟩
    · by_cases e0 : pid = 0
      · subst e0
        obtain rfl := Option.some.inj (ht0.symm.trans ht)
        exact ⟨fun _ => rfl, fun e => absurd e (by decide)⟩
      · have hnone : (s.publish p).table pid = none := by
          show Function.update s.table p.pid (some s.next) pid = _
          rw [hp, Function.update_of_ne e1, htab]
          exact Function.update_of_ne e0 ..
        exact absurd (hnone.symm.trans ht) (by simp)
  · by_cases e1 : a = 1
    · subst e1
      obtain rfl := Option.some.inj (h1.symm.trans hr)
      rw [hp]
      decide
    · by_cases e0 : a = 0
      · subst e0
        obtain rfl := Option.some.inj (h0.symm.trans hr)
        rw [hq]
        decide
      · have hnone : (s.publish p).heap a = none := by
          show Function.update s.heap s.next (some p) a = _
          rw [hnext, Function.update_of_ne e1, hheap]
          exact Function.update_of_ne e0 ..
        exact absurd (hnone.symm.trans hr) (by simp)
  · have hm' : 0 ∈ (s.ready pr).elems := hm
    rw [hready] at hm'
    exact absurd hm' List.not_mem_nil
  · show (s.ready 0).elems.count 1 + (s.ready 1).elems.count 1 + (s.ready 2).elems.count 1
      + (s.ready 3).elems.count 1 = 0
    rw [hready, hready, hready, hready]
    rfl
  · have hj : s.running = some 1 := e
    rw [hrun] at hj
    exact absurd hj (by decide)

theorem guard_boot (idleStack : Nat) (idleRecycled : List Int) (initStack : Nat)
    (initRecycled : List Int) :
    (bootKernel idleStack idleRecycled initStack initRecycled).sched.Guard 0 1 initStack .queue
      False := by
  have hpid : assignPid (Sched.bootSched idleStack idleRecycled) = some 1 := rfl
  have hin : initStack ≤ stackInit (initStack + processStackSize) ∧
      stackInit (initStack + processStackSize) < initStack + processStackSize := by
    unfold stackInit processStackSize
    omega
  have hargc : ¬ (1 : Int) ≤ 0 := by decide
  have hstack : ¬ (stackInit (initStack + processStackSize) < initStack ∨
      initStack + processStackSize ≤ stackInit (initStack + processStackSize)) := by omega
  unfold bootKernel createInit
  rw [Sched.initScheduler_eq]
  unfold createProcess
  simp only [hpid]
  have hif : ∀ x y z : Option Nat × Kernel, (if (1 : Int) ≤ 0 then x else
      if stackInit (initStack + processStackSize) < initStack ∨
        initStack + processStackSize ≤ stackInit (initStack + processStackSize) then y else z) = z :=
    fun x y z => (if_neg hargc).trans (if_neg hstack)
  refine (congrArg (fun r : Option Nat × Kernel => r.2.sched.Guard 0 1 initStack .queue False)
    (hif _ _ _)).mpr ?_
  rw [Sched.publishProcess_sched _ (by show (1 : Int) ≠ 0; decide)]
  refine Sched.guard_reap (Sched.Guard.enterInit ?_)
  -- the idle process has noted its child, if its array had room
  have hheap : ∃ q, (enterChild (Sched.bootSched idleStack idleRecycled) 1).2.heap
      = Function.update (fun _ => none) 0 (some q) ∧ q.pid = 0 ∧ q.state.active := by
    refine ⟨_, Function.update_idem .., ?_⟩
    simp only
    split
    · exact ⟨rfl, Or.inr rfl⟩
    · exact ⟨rfl, Or.inr rfl⟩
  obtain ⟨q, hq, hpid0, hact⟩ := hheap
  exact Sched.guard_second (s := (enterChild (Sched.bootSched idleStack idleRecycled) 1).2)
    (p := newProcess (bootArgs ['i', 'n', 'i', 't'] false initStack initRecycled) 1 0
      [['i', 'n', 'i', 't']]) rfl rfl rfl hq rfl (fun _ => rfl) hpid0 hact rfl rfl hin

theorem guarded_run {idleStack : Nat} {idleRecycled : List Int} {initStack : Nat}
    {initRecycled : List Int} {os : List GuardOp}
    (h : Runs execGuard (fun o k => o.allowed k) os
      (bootKernel idleStack idleRecycled initStack initRecycled) k) :
    k.sched.Guarded 0 1 initStack :=
  Runs.inv (I := fun k : Kernel => k.sched.Guarded 0 1 initStack) guarded_step h
    (Or.inr (guard_boot idleStack idleRecycled initStack initRecycled))

end

end Tp2So
