import Tp2So.Kernel.Process
import Mathlib.Data.List.Nodup

/-!
# The ready-queue invariant: what it says, and how single edits keep it

`Sched.But x s` is the invariant of the process table and the ready queues, with the process `x`
(if any) taken out of the queues and not asked to be in one.  `Sched.Ok s` is `But none s`.

An operation that moves a process `a` goes through `But (some a)`:

* `Ok.take`      `removeFromAllPriorityQueues` leads from `Ok` to `But (some a)`;
* `Ok.setAside`  so does nothing at all, if `a` is not READY or is the idle process;
* `But.mod`      under `But (some a)` the control block of `a` may be edited;
* `But.put`      appending `a` to the queue of its priority leads back to `Ok`;
* `But.close`    so does nothing at all, once `a` is not READY.

`ReadyQueues s` is the property of the queues that follows from `Ok`.
-/

set_option linter.unusedVariables false

namespace Tp2So

/-- the invariant, with the process `x` out of the queues -/
structure Sched.But (x : Option Nat) (s : Sched) : Prop where
  tab : ∀ pid a, s.table pid = some a → 0 ≤ pid ∧ pid < maxProcesses ∧
    ∃ p, s.heap a = some p ∧ p.pid = pid
  fresh : ∀ a, s.next ≤ a → s.heap a = none
  idle : ∃ i p, s.idle = some i ∧ s.table 0 = some i ∧ s.heap i = some p ∧
    (p.state = .ready ∨ p.state = .running)
  running : ∀ a, s.running = some a → ∃ p, s.heap a = some p ∧ s.table p.pid = some a ∧
    p.state ≠ .terminated
  queued : ∀ pr, ∀ a ∈ (s.ready pr).elems, x ≠ some a ∧ s.idle ≠ some a ∧
    ∃ p, s.heap a = some p ∧ p.state = .ready ∧ p.priority = pr ∧ s.table p.pid = some a
  nodup : ∀ pr, (s.ready pr).elems.Nodup
  complete : ∀ pid a p, s.table pid = some a → s.heap a = some p → p.state = .ready →
    s.idle ≠ some a → x ≠ some a → a ∈ (s.ready p.priority).elems

abbrev Sched.Ok (s : Sched) : Prop := s.But none

/-- every READY process of the table but the idle one is in exactly one queue, once, that of its
priority; the queues hold nothing else -/
structure ReadyQueues (s : Sched) : Prop where
  once : ∀ pid a p, getProcess s pid = some a → s.heap a = some p → p.state = .ready →
    s.idle ≠ some a →
    (s.ready p.priority).elems.count a = 1 ∧ ∀ pr, pr ≠ p.priority → a ∉ (s.ready pr).elems
  only : ∀ pr, ∀ a ∈ (s.ready pr).elems, s.idle ≠ some a ∧
    ∃ p, s.heap a = some p ∧ p.state = .ready

theorem Sched.Ok.readyQueues {s : Sched} (h : s.Ok) : ReadyQueues s := by
  refine ⟨fun pid a p hg hp hst hi => ⟨?_, fun pr hne hmem => ?_⟩, fun pr a ha => ?_⟩
  · have hmem := h.complete pid a p (getProcess_eq_some hg).2.2 hp hst hi (by simp)
    exact List.count_eq_one_of_mem (h.nodup _) hmem
  · obtain ⟨-, -, p', hp', -, hpr, -⟩ := h.queued pr a hmem
    rw [hp] at hp'
    exact hne (by rw [← hpr, Option.some.inj hp'])
  · obtain ⟨-, hi, p, hp, hst, -⟩ := h.queued pr a ha
    exact ⟨hi, p, hp, hst⟩

namespace Sched
variable {x : Option Nat} {s : Sched} {a : Nat} {p : Process}

/-! ## small consequences -/

theorem But.tab_pid (h : s.But x) {pid : Int} (ht : s.table pid = some a) (hp : s.heap a = some p) :
    p.pid = pid := by
  obtain ⟨-, -, q, hq, hpid⟩ := h.tab pid a ht
  rw [hp] at hq
  rw [Option.some.inj hq, hpid]

theorem But.lt_next (h : s.But x) (hp : s.heap a = some p) : a < s.next := by
  by_contra hlt
  rw [h.fresh a (by omega)] at hp
  exact absurd hp (by simp)

theorem But.same_pid (h : s.But x) {b : Nat} {q : Process} (hp : s.heap a = some p)
    (hq : s.heap b = some q) (hta : s.table p.pid = some a) (htb : s.table q.pid = some b)
    (he : p.pid = q.pid) : a = b := by
  rw [he] at hta
  exact Option.some.inj (hta.symm.trans htb)

theorem But.idle_pid (h : s.But x) (hi : s.idle = some a) : s.table 0 = some a := by
  obtain ⟨i, -, hi', ht, -⟩ := h.idle
  rw [hi] at hi'
  rw [Option.some.inj hi', ht]

theorem But.ne_idle (h : s.But x) (ht : s.table p.pid = some a) (hp : s.heap a = some p)
    (hne : p.pid ≠ 0) : s.idle ≠ some a := by
  intro hi
  exact hne (h.tab_pid (h.idle_pid hi) hp)

/-! ## comparing pids in a queue -/

theorem compareProcesses_self (hp : s.heap a = some p) : compareProcesses s a a = true := by
  unfold compareProcesses
  rw [hp]
  exact beq_self_eq_true _

theorem But.compare_eq (h : s.But x) {b : Nat} {q : Process} (hp : s.heap a = some p)
    (hq : s.heap b = some q) (hta : s.table p.pid = some a) (htb : s.table q.pid = some b) :
    compareProcesses s b a = (b == a) := by
  unfold compareProcesses
  rw [hp, hq]
  show (q.pid == p.pid) = (b == a)
  by_cases he : b = a
  · subst he
    rw [hp] at hq
    rw [Option.some.inj hq, beq_self_eq_true, beq_self_eq_true]
  · rw [beq_false_of_ne he]
    exact beq_false_of_ne fun hpid => he (h.same_pid hq hp htb hta hpid)

theorem But.queueRemove_elems (h : s.But x) (hp : s.heap a = some p)
    (hta : s.table p.pid = some a) (pr : Priority) :
    (queueRemove (compareProcesses s) (s.ready pr) a).elems = (s.ready pr).elems.erase a := by
  refine queueRemove_elems_erase fun b hb => ?_
  obtain ⟨-, -, q, hq, -, -, htb⟩ := h.queued pr b hb
  exact h.compare_eq hp hq hta htb

/-! ## taking a process out of the queues -/

theorem Ok.setAside (h : s.Ok) (hp : s.heap a = some p)
    (hn : p.state ≠ .ready ∨ s.idle = some a) : s.But (some a) where
  tab := h.tab
  fresh := h.fresh
  idle := h.idle
  running := h.running
  queued pr b hb := by
    obtain ⟨-, hi, q, hq, hst, hpr, ht⟩ := h.queued pr b hb
    refine ⟨fun he => ?_, hi, q, hq, hst, hpr, ht⟩
    obtain rfl := Option.some.inj he
    rw [hp] at hq
    obtain rfl := Option.some.inj hq
    exact hn.elim (fun hn => hn hst) hi
  nodup := h.nodup
  complete pid b q ht hq hst hi _ := h.complete pid b q ht hq hst hi (by simp)

theorem Ok.not_mem_other (h : s.Ok) (hp : s.heap a = some p) {pr : Priority}
    (hne : pr ≠ p.priority) : a ∉ (s.ready pr).elems := by
  intro hm
  obtain ⟨-, -, q, hq, -, hpr, -⟩ := h.queued pr a hm
  rw [hp] at hq
  exact hne (by rw [← hpr, Option.some.inj hq])

theorem Ok.takeFrom (h : s.Ok) (hp : s.heap a = some p) {q : Queue Nat}
    (hq : q.elems = (s.ready p.priority).elems.erase a) :
    (s.setQueue p.priority q).But (some a) where
  tab := h.tab
  fresh := h.fresh
  idle := h.idle
  running := h.running
  queued pr b hb := by
    by_cases hpr : pr = p.priority
    · subst hpr
      rw [Sched.setQueue_self, hq] at hb
      obtain ⟨-, hi, r, hr⟩ := h.queued _ b (List.mem_of_mem_erase hb)
      refine ⟨fun he => ?_, hi, r, hr⟩
      rw [Option.some.inj he] at hb
      exact (h.nodup _).not_mem_erase hb
    · rw [Sched.setQueue_of_ne _ _ _ hpr] at hb
      obtain ⟨-, hi, r, hr⟩ := h.queued _ b hb
      refine ⟨fun he => ?_, hi, r, hr⟩
      rw [← Option.some.inj he] at hb
      exact h.not_mem_other hp hpr hb
  nodup pr := by
    by_cases hpr : pr = p.priority
    · subst hpr
      rw [Sched.setQueue_self, hq]
      exact (h.nodup _).erase a
    · rw [Sched.setQueue_of_ne _ _ _ hpr]
      exact h.nodup pr
  complete pid b r ht hr hst hi hx := by
    have hm := h.complete pid b r ht hr hst hi (by simp)
    have hne : b ≠ a := fun he => hx (by rw [he])
    by_cases hpr : r.priority = p.priority
    · rw [hpr] at hm ⊢
      rw [Sched.setQueue_self, hq]
      exact (List.mem_erase_of_ne hne).mpr hm
    · rw [Sched.setQueue_of_ne _ _ _ hpr]
      exact hm

theorem Ok.take (h : s.Ok) (hp : s.heap a = some p) (hta : s.table p.pid = some a) :
    (removeFromAllPriorityQueues s a).But (some a) := by
  unfold removeFromAllPriorityQueues
  rw [hp]
  exact h.takeFrom hp (h.queueRemove_elems hp hta p.priority)

/-! ## editing a process that is out of the queues -/

theorem But.mod (h : s.But (some a)) (f : Process → Process) (hpid : ∀ q, (f q).pid = q.pid)
    (hterm : ∀ q, s.heap a = some q → (f q).state = .terminated → s.running ≠ some a)
    (hidle : ∀ q, s.idle = some a → s.heap a = some q →
      (f q).state = .ready ∨ (f q).state = .running) :
    (s.modify a f).But (some a) where
  tab pid b ht := by
    obtain ⟨h0, h1, q, hq, hqp⟩ := h.tab pid b ht
    refine ⟨h0, h1, _, heapMod_of_some a f hq, ?_⟩
    by_cases e : b = a
    · rw [if_pos e, hpid, hqp]
    · rw [if_neg e, hqp]
  fresh b hb := by
    by_cases e : b = a
    · subst e
      rw [Sched.modify_heap, heapMod_self, h.fresh b hb]
      rfl
    · rw [Sched.modify_heap, heapMod_of_ne _ _ e]
      exact h.fresh b hb
  idle := by
    obtain ⟨i, q, hi, ht, hq, hst⟩ := h.idle
    refine ⟨i, _, hi, ht, heapMod_of_some a f hq, ?_⟩
    by_cases e : i = a
    · rw [if_pos e]
      exact hidle q (by rw [← e]; exact hi) (by rw [← e]; exact hq)
    · rw [if_neg e]
      exact hst
  running b hb := by
    obtain ⟨q, hq, ht, hst⟩ := h.running b hb
    refine ⟨_, heapMod_of_some a f hq, ?_, ?_⟩
    · by_cases e : b = a
      · rw [if_pos e, hpid]
        exact ht
      · rw [if_neg e]
        exact ht
    · by_cases e : b = a
      · rw [if_pos e]
        intro hf
        exact hterm q (by rw [← e]; exact hq) hf (by rw [← e]; exact hb)
      · rw [if_neg e]
        exact hst
  queued pr b hb := by
    obtain ⟨hx, hi, q, hq, hr⟩ := h.queued pr b hb
    have e : b ≠ a := fun e => hx (by rw [e])
    exact ⟨hx, hi, q, by rw [Sched.modify_heap, heapMod_of_ne _ _ e]; exact hq, hr⟩
  nodup := h.nodup
  complete pid b q ht hq hst hi hx := by
    have e : b ≠ a := fun e => hx (by rw [e])
    rw [Sched.modify_heap, heapMod_of_ne _ _ e] at hq
    exact h.complete pid b q ht hq hst hi hx

/-- an edit that keeps pid, state and priority keeps the invariant -/
theorem But.quiet (h : s.But x) (a : Nat) {f : Process → Process} (hf : Process.Quiet f) :
    (s.modify a f).But x := by
  have hmap : ∀ b q, s.heap b = some q → ∃ q', (s.modify a f).heap b = some q' ∧ q'.pid = q.pid ∧
      q'.state = q.state ∧ q'.priority = q.priority := by
    intro b q hq
    refine ⟨_, heapMod_of_some a f hq, ?_⟩
    by_cases e : b = a
    · rw [if_pos e]
      exact hf q
    · rw [if_neg e]
      exact ⟨rfl, rfl, rfl⟩
  refine ⟨fun pid b ht => ?_, fun b hb => ?_, ?_, fun b hb => ?_, fun pr b hb => ?_, h.nodup,
    fun pid b q ht hq hst hi hx => ?_⟩
  · obtain ⟨h0, h1, q, hq, hqp⟩ := h.tab pid b ht
    obtain ⟨q', hq', hp', -, -⟩ := hmap b q hq
    exact ⟨h0, h1, q', hq', hp'.trans hqp⟩
  · by_cases e : b = a
    · subst e
      rw [Sched.modify_heap, heapMod_self, h.fresh b hb]
      rfl
    · rw [Sched.modify_heap, heapMod_of_ne _ _ e]
      exact h.fresh b hb
  · obtain ⟨i, q, hi, ht, hq, hst⟩ := h.idle
    obtain ⟨q', hq', -, hs', -⟩ := hmap i q hq
    exact ⟨i, q', hi, ht, hq', by rw [hs']; exact hst⟩
  · obtain ⟨q, hq, ht, hst⟩ := h.running b hb
    obtain ⟨q', hq', hp', hs', -⟩ := hmap b q hq
    exact ⟨q', hq', by rw [hp']; exact ht, by rw [hs']; exact hst⟩
  · obtain ⟨hx, hi, q, hq, hst, hpr, ht⟩ := h.queued pr b hb
    obtain ⟨q', hq', hp', hs', hr'⟩ := hmap b q hq
    exact ⟨hx, hi, q', hq', hs'.trans hst, hr'.trans hpr, by rw [hp']; exact ht⟩
  · obtain ⟨r, hr, rfl⟩ := heapMod_some hq
    by_cases e : b = a
    · rw [if_pos e] at hst ⊢
      rw [(hf r).2.2]
      exact h.complete pid b r ht hr ((hf r).2.1 ▸ hst) hi hx
    · rw [if_neg e] at hst ⊢
      exact h.complete pid b r ht hr hst hi hx

/-! ## back to the full invariant -/

theorem But.close (h : s.But (some a)) (hp : s.heap a = some p)
    (hn : p.state ≠ .ready ∨ s.idle = some a) : s.Ok where
  tab := h.tab
  fresh := h.fresh
  idle := h.idle
  running := h.running
  queued pr b hb := ⟨by simp, (h.queued pr b hb).2⟩
  nodup := h.nodup
  complete pid b q ht hq hst hi _ := by
    refine h.complete pid b q ht hq hst hi fun he => ?_
    obtain rfl := Option.some.inj he
    rw [hp] at hq
    obtain rfl := Option.some.inj hq
    exact hn.elim (fun hn => hn hst) hi

theorem But.put (h : s.But (some a)) (hp : s.heap a = some p) (hta : s.table p.pid = some a)
    (hst : p.state = .ready) (hi : s.idle ≠ some a) :
    (s.setQueue p.priority (enqueue (s.ready p.priority) a)).Ok where
  tab := h.tab
  fresh := h.fresh
  idle := h.idle
  running := h.running
  queued pr b hb := by
    refine ⟨by simp, ?_⟩
    by_cases hpr : pr = p.priority
    · subst hpr
      rw [Sched.setQueue_self, enqueue_elems] at hb
      rcases List.mem_append.mp hb with hb | hb
      · exact (h.queued _ b hb).2
      · obtain rfl := List.mem_singleton.mp hb
        exact ⟨hi, p, hp, hst, rfl, hta⟩
    · rw [Sched.setQueue_of_ne _ _ _ hpr] at hb
      exact (h.queued _ b hb).2
  nodup pr := by
    by_cases hpr : pr = p.priority
    · subst hpr
      rw [Sched.setQueue_self, enqueue_elems]
      refine List.nodup_append.mpr ⟨h.nodup _, List.nodup_singleton a, ?_⟩
      rintro b hb c hc rfl
      obtain rfl := List.mem_singleton.mp hc
      exact (h.queued _ b hb).1 rfl
    · rw [Sched.setQueue_of_ne _ _ _ hpr]
      exact h.nodup pr
  complete pid b q ht hq hqst hqi _ := by
    by_cases hb : b = a
    · subst hb
      obtain rfl := Option.some.inj (hp.symm.trans hq)
      rw [Sched.setQueue_self, enqueue_elems]
      exact List.mem_append_right _ (List.mem_singleton_self b)
    · have hm := h.complete pid b q ht hq hqst hqi fun he => hb (Option.some.inj he).symm
      by_cases hpr : q.priority = p.priority
      · rw [hpr] at hm ⊢
        rw [Sched.setQueue_self, enqueue_elems]
        exact List.mem_append_left _ hm
      · rw [Sched.setQueue_of_ne _ _ _ hpr]
        exact hm

end Sched

end Tp2So
