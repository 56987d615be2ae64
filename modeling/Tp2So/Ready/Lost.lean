import Tp2So.Kernel.Scarce
import Tp2So.Ready.Birth

/-!
# A ready queue that is lost

When `enqueue` has no memory for the new node, it returns NULL, and `add_to_scheduler` writes that into
the table of the ready queues.

* `Survives`                    the processes are in their queues and every entry is a queue;
* `addToSchedulerIn_failed`     what a call without memory does to the table;
* `addToScheduler_loses`        no call in which an allocation fails leaves the table whole.
-/

set_option linter.unusedVariables false

namespace Tp2So

/-- the processes in the queue of a priority; NULL has none -/
def ReadyTable.members (t : ReadyTable) (priority : Nat) : List Nat :=
  (t.queueAt priority).elim [] Queue.elems

/-- every entry points to a queue -/
def ReadyTable.Valid (t : ReadyTable) : Prop :=
  ∀ e ∈ t.entries, ∃ ptr q, e = some ptr ∧ t.queues ptr = some q

/-- whoever was in a ready queue is still in it, in the same order, and every entry is a queue -/
structure Survives (t t' : ReadyTable) : Prop where
  members : ∀ priority, (t.members priority).Sublist (t'.members priority)
  valid : t'.Valid

section
variable {w : HeapAnswers} {s s' : Sched} {t t' : ReadyTable} {p : Option Nat} {log : AllocLog}

/-- `enqueue` returns NULL exactly when one of its two allocations does -/
theorem enqueueIn_failed_iff {α : Type} (w : HeapAnswers) (n : Nat) (q : Queue α) (x : α) :
    (enqueueIn w n q x).2.failed ↔ (enqueueIn w n q x).1 = none := by
  unfold enqueueIn AllocLog.failed
  cases w.alloc n with
  | none => simp
  | some node =>
    cases w.alloc (n + 1) with
    | none => simp
    | some data => simp

/-- **Without memory**: the entry of the process's queue becomes NULL. -/
theorem addToSchedulerIn_failed (h : addToSchedulerIn w s t p = some (s', t', log))
    (hf : log.failed) : ∃ (priority : Priority) (q : Queue Nat), t.queueAt priority = some q ∧
      t' = setPriorityQueue t priority none ∧ (priority : Nat) < t.entries.length := by
  unfold addToSchedulerIn at h
  -- a call that returns early has asked for nothing
  have hearly : ∀ {s₁ : Sched} {t₁ : ReadyTable},
      some (s₁, t₁, (⟨[], []⟩ : AllocLog)) ≠ some (s', t', log) := by
    intro s₁ t₁ he
    rw [← (Prod.mk.inj (Prod.mk.inj (Option.some.inj he)).2).2] at hf
    exact List.not_mem_nil hf
  cases p with
  | none => exact absurd h hearly
  | some a =>
    simp only at h
    split at h
    · exact absurd h hearly
    · split at h
      · exact absurd h (by simp)
      · rename_i p hp
        split at h
        · exact absurd h (by simp)
        · rename_i ptr hptr
          split at h
          · exact absurd h (by simp)
          · rename_i q hq
            have hfail := enqueueIn_failed_iff w 0 q a
            split at h
            · rename_i log' he
              obtain ⟨-, hrest⟩ := Prod.mk.inj (Option.some.inj h)
              refine ⟨p.priority, q, ?_, (Prod.mk.inj hrest).1.symm, lt_of_getPriorityQueue hptr⟩
              unfold ReadyTable.queueAt
              rw [hptr]
              exact hq
            · rename_i q' log' he
              obtain ⟨-, hrest⟩ := Prod.mk.inj (Option.some.inj h)
              rw [he, (Prod.mk.inj hrest).2] at hfail
              exact absurd (hfail.mp hf) (by simp)

theorem addToSchedulerIn_failed_others {pr priority : Nat} (hlt : priority < t.entries.length)
    (hne : pr ≠ priority) : (setPriorityQueue t priority none).queueAt pr = t.queueAt pr := by
  unfold ReadyTable.queueAt
  rw [getPriorityQueue_set t none hlt, if_neg hne, setPriorityQueue_queues]

/-- **A ready queue is lost** in every call of `add_to_scheduler` in which an allocation fails, with the
processes that were in it. -/
theorem addToScheduler_loses (h : addToSchedulerIn w s t p = some (s', t', log)) (hf : log.failed) :
    ¬ Survives t t' ∧ ∃ priority : Priority, t'.members priority = [] ∧ ¬ t'.Valid ∧
      ∀ pr : Nat, pr ≠ priority → t'.members pr = t.members pr := by
  obtain ⟨priority, q, hq, rfl, hlt⟩ := addToSchedulerIn_failed h hf
  have hnull : getPriorityQueue (setPriorityQueue t priority none) priority = none := by
    rw [getPriorityQueue_set t none hlt, if_pos rfl]
  have hinvalid : ¬ (setPriorityQueue t priority none).Valid := by
    intro hv
    have hmem : none ∈ (setPriorityQueue t priority none).entries := by
      unfold setPriorityQueue setElemByIndex
      rw [if_pos hlt]
      exact List.mem_set hlt none
    obtain ⟨ptr, q', he, -⟩ := hv none hmem
    exact absurd he (by simp)
  refine ⟨fun hs => hinvalid hs.valid, priority, ?_, hinvalid, fun pr hne => ?_⟩
  · unfold ReadyTable.members ReadyTable.queueAt
    rw [hnull]
    rfl
  · unfold ReadyTable.members
    rw [addToSchedulerIn_failed_others hlt hne]

end

/-- four queues; two processes wait in the lowest -/
def twoInLowest : ReadyTable where
  queues ptr := if ptr = 1 then some ⟨[5, 6], none⟩ else some createQueue
  entries := [some 1, some 2, some 3, some 4]

/-- the idle process, and a process at `7` that has just been woken -/
def justWoken : Sched :=
  (Sched.bootSched 0 []).setHeap 7 (some { Sched.idleProcess 0 [] with pid := 7, state := .blocked })

/-- every call of `mm_alloc` returns NULL -/
def noMemory : HeapAnswers := ⟨fun _ => none, fun _ _ => 0, 0, 0⟩

theorem addToScheduler_loses_two : ∃ s' t' log,
    addToSchedulerIn noMemory justWoken twoInLowest (some 7) = some (s', t', log) ∧ log.failed ∧
      twoInLowest.members 0 = [5, 6] ∧ t'.members 0 = [] ∧ t'.entries = [none, some 2, some 3, some 4] ∧
      ¬ Survives twoInLowest t' := by
  refine ⟨_, _, _, rfl, List.mem_singleton_self none, rfl, rfl, rfl, fun hs => ?_⟩
  exact absurd (hs.members 0).length_le (by decide)

theorem addToScheduler_loses_woken : ∃ s' t' log,
    addToSchedulerIn noMemory justWoken twoInLowest (some 7) = some (s', t', log) ∧ log.failed ∧
      ¬ Survives twoInLowest t' := by
  have hfailed : (⟨[none], []⟩ : AllocLog).failed := List.mem_singleton_self none
  exact ⟨_, _, _, rfl, hfailed, (addToScheduler_loses (w := noMemory) (s := justWoken) (p := some 7)
    rfl hfailed).1⟩

end Tp2So
