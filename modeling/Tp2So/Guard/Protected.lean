import Tp2So.Ready.Counting
import Tp2So.Ready.Sound

/-!
# The two are protected, and when they are not

`set_priority` leaves a queued process in the queue of its old priority, and `kill_process` looks for
it in the queue of the new one: its control block is freed with its pointer still in a ready queue.
From then on a tick reads whatever the allocator's next customer has written there.

* `protected_run`      without such a change of priority both stay in their places, and no tick reads
                       a control block that is not there;
* `Sched.withFreed`    the control blocks, and what their memory holds when they are freed;
* `protected_fails`    a program that writes a control block of its own makes the tick lose the init
                       process.
-/

set_option linter.unusedVariables false

namespace Tp2So

section
variable {k : Kernel}

/-- **The two are protected.**  In every run of settled steps the idle and the init process of the
boot stay in slots `0` and `1`, READY or RUNNING; the idle process is in no ready queue, and the init
process is running and in no queue, or in exactly one, once.  The next tick ends, and reads the
control blocks of living processes only. -/
theorem protected_run {idleStack : Nat} {idleRecycled : List Int} {initStack : Nat}
    {initRecycled : List Int} {os : List GuardOp}
    (h : Runs execGuard (fun o k => o.allowed k && o.settled k) os
      (bootKernel idleStack idleRecycled initStack initRecycled) k) :
    Protected 0 1 k.sched ∧
      ∀ rsp fuel, agingTurns k.sched ≤ fuel → ∃ r, schedule fuel rsp k.sched = some r := by
  have hboth : ∀ (o : GuardOp) (k : Kernel), (o.allowed k && o.settled k) = true →
      o.allowed k = true ∧ o.settled k = true := fun o k => Bool.and_eq_true_iff.mp
  have hguard : k.sched.Guarded 0 1 initStack :=
    guarded_run (h.mono fun o k hok => (hboth o k hok).1)
  have hsound : k.sched.Sound :=
    Runs.inv (I := fun k : Kernel => k.sched.Sound) Sched.sound_step
      (h.mono fun o k hok => (hboth o k hok).2)
      (Sched.sound_bootKernel idleStack idleRecycled initStack initRecycled)
  refine ⟨hguard.protected, ?_⟩
  intro rsp fuel hfuel
  apply schedule_of_ok hsound.ok rsp hfuel

/-- kills, blocks and a change of priority aimed at both, while the init process goes through a tick
on and a tick off the CPU -/
theorem protected_run_attacked : ∃ k, Runs execGuard (fun o k => o.allowed k && o.settled k)
      [.kill 0, .kill 1, .block 0, .block 1, .setPriority 1 0, .schedule 4 7, .createShell 16384 [],
        .block 1, .kill 1, .ctrlC, .schedule 4 8200, .terminatorNotify, .terminatorLeave,
        .schedule 4 7] (bootKernel 0 [] 8192 []) k ∧ k.sched.running = some 1 ∧
      Protected 0 1 k.sched ∧
      ∀ rsp fuel, agingTurns k.sched ≤ fuel → ∃ r, schedule fuel rsp k.sched = some r := by
  have hrun : (runIf execGuard (fun o k => o.allowed k && o.settled k)
      [.kill 0, .kill 1, .block 0, .block 1, .setPriority 1 0, .schedule 4 7, .createShell 16384 [],
        .block 1, .kill 1, .ctrlC, .schedule 4 8200, .terminatorNotify, .terminatorLeave,
        .schedule 4 7] (bootKernel 0 [] 8192 [])).map (fun k => k.sched.running)
      = some (some 1) := by decide +kernel
  obtain ⟨k, hk, hr⟩ := Option.map_eq_some_iff.mp hrun
  have h := runs_of_runIf hk
  exact ⟨k, h, hr, protected_run h⟩

/-! ## a freed control block -/

/-- every pointer can be read: `mem` is what the memory of the freed control blocks holds by now -/
def Sched.withFreed (mem : Nat → Option Process) (s : Sched) : Sched :=
  { s with heap := fun a => (s.heap a).or (mem a) }

/-- the shell's child is killed after a change of its priority: queue `0` keeps its pointer -/
def leftQueued : List GuardOp :=
  [.createShell 16384 [], .schedule 8 7, .schedule 8 8200, .create (plainArgs ['p'] 24576),
    .setPriority 3 1, .kill 3]

/-- what a program writes into the block it gets from `malloc`: a READY process that calls itself
`1` and has waited for `49` ticks -/
def forgedBlock : Process :=
  { newProcess (plainArgs ['x'] 32768) 1 2 [] with waitTicks := 49 }

/-- the init process is running or queued -/
def Sched.initThere (s : Sched) : Bool :=
  s.running == some 1 || [0, 1, 2, 3].any fun pr : Priority => (s.ready pr).elems.contains 1

theorem Protected.initThere {s : Sched} (h : Protected 0 1 s) : s.initThere = true := by
  unfold Sched.initThere
  rcases h.initPlace with ⟨hr, -⟩ | ⟨-, pr, hc, -⟩
  · rw [hr]
    rfl
  · have hm : 1 ∈ (s.ready pr).elems := List.count_pos_iff.mp (by omega)
    have hall : ∀ pr : Priority, pr ∈ ([0, 1, 2, 3] : List Priority) := by decide
    rw [Bool.or_eq_true]
    right
    apply List.any_eq_true.mpr
    exact ⟨pr, hall pr, List.contains_iff_mem.mpr hm⟩

/-- the aging pass removes the init process from its queue in the place of the forged one -/
theorem protected_fails : ∃ k mem r, Runs execGuard (fun o k => o.allowed k) leftQueued
      (bootKernel 0 [] 8192 []) k ∧ k.sched.heap 3 = none ∧ 3 ∈ (k.sched.ready 0).elems ∧
      schedule 8 16392 (k.sched.withFreed mem) = some r ∧ ¬ Protected 0 1 r.2 := by
  have hrun : (runIf execGuard GuardOp.allowed leftQueued (bootKernel 0 [] 8192 [])).map (fun k =>
      ((k.sched.heap 3).isNone, decide (3 ∈ (k.sched.ready 0).elems),
        (schedule 8 16392 (k.sched.withFreed
          (Function.update (fun _ => none) 3 (some forgedBlock)))).map fun r => r.2.initThere))
      = some (true, true, some false) := by decide +kernel
  obtain ⟨k, hk, hend⟩ := Option.map_eq_some_iff.mp hrun
  obtain ⟨hfreed, hqueued, htick⟩ : _ ∧ _ ∧ _ := by simpa only [Prod.mk.injEq] using hend
  obtain ⟨r, hr, hlost⟩ := Option.map_eq_some_iff.mp htick
  refine ⟨k, _, r, runs_of_runIf hk, Option.isNone_iff_eq_none.mp hfreed,
    of_decide_eq_true hqueued, hr, ?_⟩
  intro hp
  rw [hp.initThere] at hlost
  exact absurd hlost (by decide)

end

end Tp2So
