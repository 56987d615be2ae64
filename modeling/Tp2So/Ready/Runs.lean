import Tp2So.Lib.Runs
import Tp2So.Ready.Tick
import Tp2So.Ready.Birth

/-!
# The ready-queue invariant over whole runs

A run starts after `init_scheduler` and makes one of seven steps at a time: creation, killing, exit,
change of priority, blocking, unblocking, and the tick.

* `execReady`        what a step does.  The idle process loops for ever, so that the process that
                     reaches `process_terminator` is another one;
* `ReadyOp.settled`  the condition under which a change of priority leaves the queues right: a READY
                     process, which sits in the queue of its priority, is given the priority it has;
* `ok_step`          a settled step keeps `Sched.Ok`;
* `readyQueues_iff`  in a run of settled steps the queues are right, and stay so exactly with a
                     settled step.
-/

set_option linter.unusedVariables false

namespace Tp2So

inductive ReadyOp where
  | create (args : CreateArgs)
  | kill (pid : Int)
  | terminate
  | setPriority (pid newPriority : Int)
  | block (pid : Int)
  | unblock (pid : Int)
  | schedule (fuel rsp : Nat)

/-- `f` on the process with this pid, if there is one -/
def onProcess (k : Kernel) (pid : Int) (f : Sched → Nat → Int × Sched) : Kernel :=
  match getProcess k.sched pid with
  | none => k
  | some a => { k with sched := (f k.sched a).2 }

def execReady : ReadyOp → Kernel → Option Kernel
  | .create args, k => some (createProcess k args).2
  | .kill pid, k => some (killProcess k pid).2
  | .terminate, k => if k.sched.running = k.sched.idle then none else processTerminator k
  | .setPriority pid pr, k => some { k with sched := (setPriority k.sched pid pr).2 }
  | .block pid, k => some (onProcess k pid blockProcess)
  | .unblock pid, k => some (onProcess k pid unblockProcess)
  | .schedule fuel rsp, k => (schedule fuel rsp k.sched).map fun r => { k with sched := r.2 }

/-- a process that sits in a queue is given the priority it has -/
def ReadyOp.settled : ReadyOp → Kernel → Bool
  | .setPriority pid pr, k =>
    match getProcess k.sched pid with
    | none => true
    | some a =>
      match k.sched.heap a with
      | none => true
      | some p => p.state != .ready || k.sched.idle == some a || pr < 0 || 3 < pr ||
          pr == p.priority.val
  | _, _ => true

theorem ReadyOp.settled_setPriority {k : Kernel} {a : Nat} {p : Process} {pid pr : Int}
    (hg : getProcess k.sched pid = some a) (hp : k.sched.heap a = some p)
    (hst : p.state = .ready) (hi : k.sched.idle ≠ some a) (hr : 0 ≤ pr ∧ pr ≤ 3) :
    (ReadyOp.setPriority pid pr).settled k = true ↔ pr = p.priority.val := by
  have hlo : ¬ pr < 0 := by omega
  have hhi : ¬ 3 < pr := by omega
  simp [ReadyOp.settled, hg, hp, hst, hi, hlo, hhi]

namespace Sched
variable {s : Sched} {k k' : Kernel} {a : Nat} {p : Process} {pid pr : Int}

/-! ## one step -/

/-- the edit `set_priority` makes -/
def repriorize (pr : Priority) (p : Process) : Process :=
  { p with priority := pr, originalPriority := pr, quantumRemaining := defaultQuantum }

theorem setPriority_eq (hr : 0 ≤ pr ∧ pr ≤ 3) (hlt : pr.toNat < 4) (hg : getProcess s pid = some a) :
    (setPriority s pid pr).2 = s.modify a (repriorize ⟨pr.toNat, hlt⟩) := by
  unfold setPriority
  rw [dif_pos hr]
  simp only [hg]
  rfl

theorem setPriority_eq_self (h : ¬ ((0 ≤ pr ∧ pr ≤ 3) ∧ ∃ a, getProcess s pid = some a)) :
    (setPriority s pid pr).2 = s := by
  unfold setPriority
  by_cases hr : 0 ≤ pr ∧ pr ≤ 3
  · rw [dif_pos hr]
    cases hg : getProcess s pid with
    | none => rfl
    | some a => exact absurd ⟨hr, a, hg⟩ h
  · rw [dif_neg hr]

theorem ok_setPriority (h : k.sched.Ok) (hc : (ReadyOp.setPriority pid pr).settled k) :
    (setPriority k.sched pid pr).2.Ok := by
  by_cases hcase : (0 ≤ pr ∧ pr ≤ 3) ∧ ∃ a, getProcess k.sched pid = some a
  · obtain ⟨hr, a, hg⟩ := hcase
    obtain ⟨-, -, p, hp, rfl⟩ := h.tab pid a (getProcess_eq_some hg).2.2
    rw [setPriority_eq hr (by omega) hg]
    by_cases hq : p.state = .ready ∧ k.sched.idle ≠ some a
    · -- the process is in a queue: its priority is the one it had
      have hpr := (ReadyOp.settled_setPriority hg hp hq.1 hq.2 hr).mp hc
      have hsame : (⟨pr.toNat, by omega⟩ : Priority) = p.priority := Fin.ext (by show pr.toNat = _; omega)
      rw [hsame]
      have heq : k.sched.modify a (repriorize p.priority)
          = k.sched.modify a (Process.setQuantum defaultQuantum ∘
              fun p => { p with originalPriority := p.priority }) := by
        unfold Sched.modify heapMod
        rw [hp]
        rfl
      rw [heq]
      exact h.quiet a fun _ => ⟨rfl, rfl, rfl⟩
    · have hn : p.state ≠ .ready ∨ k.sched.idle = some a := by
        by_cases hst : p.state = .ready
        · exact Or.inr (by_contra fun hi => hq ⟨hst, hi⟩)
        · exact Or.inl hst
      have hb := (h.setAside hp hn).mod (repriorize ⟨pr.toNat, by omega⟩) (fun _ => rfl)
        (fun q hq' hf hr' => h.running_ne_terminated hq' hf hr')
        (fun q hi hq' => by
          obtain ⟨i, q', hi', -, hq'', hst⟩ := h.idle
          obtain rfl := Option.some.inj (hi.symm.trans hi')
          obtain rfl := Option.some.inj (hq'.symm.trans hq'')
          exact hst)
      exact hb.close (modify_heap_self _ hp) hn
  · rw [setPriority_eq_self hcase]
    exact h

theorem ok_killProcess (h : k.sched.Ok) (pid : Int) : (killProcess k pid).2.sched.Ok := by
  rcases killProcess_cases k pid with hk | ⟨a, p, hne, hg, hp, hk⟩
  · rw [hk]
    exact h
  · obtain ⟨rfl, ht, hi⟩ := h.victim hne hg hp
    obtain ⟨q, hq, hqp, hqt, hqi⟩ := windUp_keeps hp ht hi
    have hkilled := ok_killed (ok_windUp h p p.pid) hq hqt hqi
    rw [hqp] at hkilled
    rw [hk]
    exact hkilled

theorem ok_processTerminator (h : k.sched.Ok) (hi : k.sched.running ≠ k.sched.idle)
    (hk : processTerminator k = some k') : k'.sched.Ok := by
  cases hr : k.sched.running with
  | none =>
    rw [processTerminator_none hr] at hk
    exact absurd hk (by simp)
  | some a =>
    obtain ⟨p, hp, ht, -⟩ := h.running a hr
    obtain ⟨q, hq, -, hqt, hqi⟩ := windUp_keeps hp ht (by rw [← hr]; exact fun e => hi e.symm)
    rw [processTerminator_eq hr hp] at hk
    obtain rfl := Option.some.inj hk
    exact ok_terminatorLeave (ok_windUp h p p.pid) hq hqt hqi

theorem ok_onProcess {f : Sched → Nat → Int × Sched}
    (hf : ∀ s a pid, Ok s → s.table pid = some a → (f s a).2.Ok) (h : k.sched.Ok)
    (pid : Int) : (onProcess k pid f).sched.Ok := by
  unfold onProcess
  split
  · exact h
  · rename_i a hg
    exact hf _ a pid h (getProcess_eq_some hg).2.2

/-- **One step.**  A settled step keeps the invariant. -/
theorem ok_step (o : ReadyOp) (k k' : Kernel) (h : k.sched.Ok) (hc : o.settled k)
    (hk : execReady o k = some k') : k'.sched.Ok := by
  cases o with
  | create args =>
    obtain rfl := Option.some.inj hk
    exact ok_createProcess h args
  | kill pid =>
    obtain rfl := Option.some.inj hk
    exact ok_killProcess h pid
  | terminate =>
    by_cases hi : k.sched.running = k.sched.idle
    · exact absurd ((if_pos hi).symm.trans hk) (by simp)
    · exact ok_processTerminator h hi ((if_neg hi).symm.trans hk)
  | setPriority pid pr =>
    obtain rfl := Option.some.inj hk
    exact ok_setPriority h hc
  | block pid =>
    obtain rfl := Option.some.inj hk
    exact ok_onProcess (fun _ _ _ hs ht => ok_blockProcess hs ht) h pid
  | unblock pid =>
    obtain rfl := Option.some.inj hk
    exact ok_onProcess (fun _ _ _ hs ht => ok_unblockProcess hs ht) h pid
  | schedule fuel rsp =>
    obtain ⟨r, hr, rfl⟩ := Option.map_eq_some_iff.mp hk
    exact ok_schedule h hr

/-! ## what an unsettled step does -/

theorem of_not_settled (hc : ¬ (ReadyOp.setPriority pid pr).settled k = true) :
    ∃ a p, getProcess k.sched pid = some a ∧ k.sched.heap a = some p ∧ p.state = .ready ∧
      k.sched.idle ≠ some a ∧ (0 ≤ pr ∧ pr ≤ 3) ∧ pr ≠ p.priority.val := by
  unfold ReadyOp.settled at hc
  cases hg : getProcess k.sched pid with
  | none => simp [hg] at hc
  | some a =>
    cases hp : k.sched.heap a with
    | none => simp [hg, hp] at hc
    | some p =>
      simp only [hg, hp, Bool.or_eq_true, not_or, bne_iff_ne, not_not, beq_iff_eq,
        decide_eq_true_eq] at hc
      obtain ⟨⟨⟨⟨hst, hi⟩, hlo⟩, hhi⟩, hne⟩ := hc
      exact ⟨a, p, rfl, hp, hst, hi, ⟨by omega, by omega⟩, hne⟩

/-- a READY process that is given another priority is in the wrong queue -/
theorem not_readyQueues_setPriority (h : ReadyQueues s) (hg : getProcess s pid = some a)
    (hp : s.heap a = some p) (hst : p.state = .ready) (hi : s.idle ≠ some a)
    (hr : 0 ≤ pr ∧ pr ≤ 3) (hne : pr ≠ p.priority.val) :
    ¬ ReadyQueues (setPriority s pid pr).2 := by
  intro h'
  rw [setPriority_eq hr (by omega) hg] at h'
  have hother : (⟨pr.toNat, by omega⟩ : Priority) ≠ p.priority := by
    intro e
    have he : pr.toNat = p.priority.val := congrArg Fin.val e
    omega
  have hone := (h'.once pid a _ hg (modify_heap_self _ hp) hst hi).1
  have hzero := List.count_eq_zero.mpr ((h.once pid a p hg hp hst hi).2 _ hother)
  exact absurd (hzero.symm.trans hone) (by simp)

end Sched

/-! ## runs -/

/-- **The ready queues over a run.**  In every run of settled steps the queues are right, and the
next step keeps them right if and only if it is settled. -/
theorem readyQueues_iff {stackBase : Nat} {recycled : List Int} {os : List ReadyOp} {k : Kernel}
    (h : Runs execReady (fun o k => o.settled k) os (initScheduler stackBase recycled) k) :
    ReadyQueues k.sched ∧
      ∀ o k', execReady o k = some k' → (ReadyQueues k'.sched ↔ o.settled k) := by
  have h0 : (initScheduler stackBase recycled).sched.Ok := by
    rw [Sched.initScheduler_eq]
    exact Sched.ok_bootSched stackBase recycled
  have hok : k.sched.Ok := Runs.inv (I := fun k => k.sched.Ok) Sched.ok_step h h0
  refine ⟨hok.readyQueues, fun o k' hk => ⟨fun hq => ?_, fun hc => ?_⟩⟩
  · cases o with
    | setPriority pid pr =>
      obtain rfl := Option.some.inj hk
      by_contra hc
      obtain ⟨a, p, hg, hp, hst, hi, hr, hne⟩ := Sched.of_not_settled hc
      exact Sched.not_readyQueues_setPriority hok.readyQueues hg hp hst hi hr hne hq
    | _ => rfl
  · exact (Sched.ok_step o k k' hok hc hk).readyQueues

/-- arguments of a `create_process` without pipes -/
def plainArgs (name : List Char) (stackBase : Nat) : CreateArgs where
  argc := 1
  argv := some [name]
  priority := 0
  targets := (0, 1, 1)
  hasForeground := false
  stackBase := stackBase
  recycled := []

/-- `init` is created, keeps its priority through a call of `set_priority`, and is dispatched -/
theorem readyQueues_iff_init : ∃ k,
    Runs execReady (fun o k => o.settled k)
      [.create (plainArgs ['i'] 8192), .setPriority 1 0, .schedule 4 7] (initScheduler 0 []) k ∧
    ReadyQueues k.sched := by
  have hrun : (runIf execReady ReadyOp.settled
      [.create (plainArgs ['i'] 8192), .setPriority 1 0, .schedule 4 7]
      (initScheduler 0 [])).isSome = true := by decide +kernel
  obtain ⟨k, hk⟩ := Option.isSome_iff_exists.mp hrun
  have h := runs_of_runIf hk
  exact ⟨k, h, (readyQueues_iff h).1⟩

/-- `set_priority` of a READY process: with priority `2` it still sits in queue `0` -/
theorem readyQueues_broken : ∃ k,
    run execReady [.create (plainArgs ['i'] 8192), .setPriority 1 2] (initScheduler 0 []) = some k ∧
    (∃ p, getProcess k.sched 1 = some 1 ∧ k.sched.heap 1 = some p ∧ p.state = .ready ∧
      p.priority = 2 ∧ k.sched.idle ≠ some 1 ∧ (k.sched.ready 0).elems = [1] ∧
      (k.sched.ready 2).elems = []) ∧ ¬ ReadyQueues k.sched := by
  have hrun : (run execReady [.create (plainArgs ['i'] 8192), .setPriority 1 2]
      (initScheduler 0 [])).map (fun k => (getProcess k.sched 1,
        (k.sched.heap 1).map fun p => (p.state, p.priority), k.sched.idle,
        (k.sched.ready 0).elems, (k.sched.ready 2).elems))
      = some (some 1, some (.ready, 2), some 0, [1], []) := by decide +kernel
  obtain ⟨k, hk, hv⟩ := Option.map_eq_some_iff.mp hrun
  simp only [Prod.mk.injEq] at hv
  obtain ⟨hg, hp, hi, h0, h2⟩ := hv
  obtain ⟨p, hp, hpp⟩ := Option.map_eq_some_iff.mp hp
  obtain ⟨hst, hpr⟩ := Prod.mk.inj hpp
  have hidle : k.sched.idle ≠ some 1 := by rw [hi]; decide
  refine ⟨k, hk, ⟨p, hg, hp, hst, hpr, hidle, h0, h2⟩, fun h => ?_⟩
  have hone := (h.once 1 1 p hg hp hst hidle).1
  rw [hpr, h2] at hone
  exact absurd hone (by decide)

end Tp2So
