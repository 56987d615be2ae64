import Tp2So.Ready.Birth
import Tp2So.Kernel.Calls

/-!
# The idle and the init process: the invariant and its edits

`Guard i j base m c s` says that the idle process `i` and the init process `j` are where they belong.
`m` says where the init process is, `c` whether it is `running`; only the tick changes either.

* `InitAt`           on the CPU, in one ready queue, or in the hands of the scheduler;
* `Guard.edit`       the control block of one process is edited;
* `Guard.queue`      one ready queue is edited;
* `Guard.leave`      some other process is taken out of a queue by its pid;
* `Guard.publish`, `Guard.erase`   another process comes or goes.

Priorities do not occur in it: `set_priority` leaves a READY process in its old queue, and the
invariant does not ask which queue holds the init process.
-/

set_option linter.unusedVariables false

namespace Tp2So

inductive InitAt where
  | cpu | queue | hand

def InitAt.state : InitAt → ProcessState
  | .cpu => .running
  | .queue => .ready
  | .hand => .ready

def InitAt.places : InitAt → Nat
  | .cpu => 0
  | .queue => 1
  | .hand => 0

def ProcessState.active (st : ProcessState) : Prop := st = .ready ∨ st = .running

namespace Sched

/-- how often `a` occurs in the four ready queues -/
def places (s : Sched) (a : Nat) : Nat :=
  (s.ready 0).elems.count a + (s.ready 1).elems.count a + (s.ready 2).elems.count a
    + (s.ready 3).elems.count a

structure Guard (i j base : Nat) (m : InitAt) (c : Prop) (s : Sched) : Prop where
  ne : i ≠ j
  idle : s.idle = some i
  old : i < s.next ∧ j < s.next
  slots : s.table 0 = some i ∧ s.table 1 = some j
  tab : ∀ pid a, s.table pid = some a → (a = i → pid = 0) ∧ (a = j → pid = 1)
  pids : ∀ a p, s.heap a = some p → (p.pid = 0 ↔ a = i) ∧ (p.pid = 1 ↔ a = j)
  idleProc : ∃ p, s.heap i = some p ∧ p.state.active
  initProc : ∃ p, s.heap j = some p ∧ p.state = m.state ∧ p.stackBase = base ∧ p.inStack p.rsp
  noIdle : ∀ pr, i ∉ (s.ready pr).elems
  init : s.places j = m.places
  cpu : s.running = some j ↔ c

variable {i j base a b : Nat} {m m' : InitAt} {c : Prop} {s t : Sched} {p : Process} {pid : Int}
  {pr : Priority}

/-! ## one control block -/

theorem Guard.edit (h : s.Guard i j base m c) {f : Process → Process} (hpid : ∀ p, (f p).pid = p.pid)
    (hi : a = i → ∀ p, p.state.active → (f p).state.active)
    (hj : ∃ p, (s.modify a f).heap j = some p ∧ p.state = m'.state ∧ p.stackBase = base ∧
      p.inStack p.rsp)
    (hm : m'.places = m.places) : (s.modify a f).Guard i j base m' c where
  ne := h.ne
  idle := h.idle
  old := h.old
  slots := h.slots
  tab := h.tab
  pids b q hq := by
    obtain ⟨p, hp, rfl⟩ := heapMod_some hq
    have hb := h.pids b p hp
    split
    · rw [hpid]
      exact hb
    · exact hb
  idleProc := by
    obtain ⟨p, hp, hst⟩ := h.idleProc
    refine ⟨_, heapMod_of_some a f hp, ?_⟩
    by_cases e : i = a
    · rw [if_pos e]
      exact hi e.symm p hst
    · rw [if_neg e]
      exact hst
  initProc := hj
  noIdle := h.noIdle
  init := h.init.trans hm.symm
  cpu := h.cpu

theorem Guard.still (h : s.Guard i j base m c) (a : Nat) {f : Process → Process}
    (hf : ∀ p, (f p).pid = p.pid ∧ (f p).state = p.state)
    (hst : ∀ p, (f p).rsp = p.rsp ∧ (f p).stackBase = p.stackBase) :
    (s.modify a f).Guard i j base m c := by
  refine h.edit (fun p => (hf p).1) (fun _ p hp => ?_) ?_ rfl
  · rw [(hf p).2]
    exact hp
  · obtain ⟨p, hp, hs, hb, hin⟩ := h.initProc
    refine ⟨_, heapMod_of_some a f hp, ?_⟩
    by_cases e : j = a
    · rw [if_pos e, (hf p).2, (hst p).2]
      refine ⟨hs, hb, ?_⟩
      unfold Process.inStack at hin ⊢
      rw [(hst p).1, (hst p).2]
      exact hin
    · rw [if_neg e]
      exact ⟨hs, hb, hin⟩

theorem Guard.other (h : s.Guard i j base m c) (hi : a ≠ i) (hj : a ≠ j) {f : Process → Process}
    (hpid : ∀ p, (f p).pid = p.pid) : (s.modify a f).Guard i j base m c := by
  refine h.edit hpid (fun e => absurd e hi) ?_ rfl
  obtain ⟨p, hp, hs⟩ := h.initProc
  exact ⟨p, by rw [modify_heap, heapMod_of_ne _ _ hj.symm]; exact hp, hs⟩

theorem Guard.setShell (h : s.Guard i j base m c) (x : Option Nat) : (s.setShell x).Guard i j base m c :=
  ⟨h.ne, h.idle, h.old, h.slots, h.tab, h.pids, h.idleProc, h.initProc, h.noIdle, h.init, h.cpu⟩

theorem Guard.setRunning {d : Prop} (h : s.Guard i j base m c) {x : Option Nat}
    (hx : x = some j ↔ d) : (s.setRunning x).Guard i j base m d :=
  ⟨h.ne, h.idle, h.old, h.slots, h.tab, h.pids, h.idleProc, h.initProc, h.noIdle, h.init, hx⟩

theorem Guard.stop (h : s.Guard i j base m c) (hr : s.running ≠ some j) :
    (s.setRunning none).Guard i j base m c :=
  h.setRunning (iff_of_false (by simp) fun hc => hr (h.cpu.mpr hc))

/-! ## one ready queue -/

theorem places_setQueue (s : Sched) (pr : Priority) (q : Queue Nat) (a : Nat) :
    (s.setQueue pr q).places a + (s.ready pr).elems.count a = s.places a + q.elems.count a := by
  have hself : (s.setQueue pr q).ready pr = q := setQueue_self ..
  have hne := fun pr' (hne : pr' ≠ pr) => setQueue_of_ne s pr q hne
  unfold places
  match pr with
  | 0 => rw [hself, hne 1 (by decide), hne 2 (by decide), hne 3 (by decide)]; omega
  | 1 => rw [hself, hne 0 (by decide), hne 2 (by decide), hne 3 (by decide)]; omega
  | 2 => rw [hself, hne 0 (by decide), hne 1 (by decide), hne 3 (by decide)]; omega
  | 3 => rw [hself, hne 0 (by decide), hne 1 (by decide), hne 2 (by decide)]; omega

theorem Guard.queue (h : s.Guard i j base m c) {q : Queue Nat} (hi : i ∉ q.elems)
    (hc : m'.places + (s.ready pr).elems.count j = m.places + q.elems.count j)
    (hst : m'.state = m.state) : (s.setQueue pr q).Guard i j base m' c where
  ne := h.ne
  idle := h.idle
  old := h.old
  slots := h.slots
  tab := h.tab
  pids := h.pids
  idleProc := h.idleProc
  initProc := by
    rw [hst]
    exact h.initProc
  noIdle pr' := by
    by_cases e : pr' = pr
    · rw [e, setQueue_self]
      exact hi
    · rw [setQueue_of_ne _ _ _ e]
      exact h.noIdle pr'
  init := by
    have hp := places_setQueue s pr q j
    have hm := h.init
    omega
  cpu := h.cpu

theorem Guard.cursor (h : s.Guard i j base m c) (pr : Priority) {q : Queue Nat}
    (hq : q.elems = (s.ready pr).elems) : (s.setQueue pr q).Guard i j base m c :=
  h.queue (by rw [hq]; exact h.noIdle pr) (by rw [hq]) rfl

theorem Guard.append (h : s.Guard i j base m c) (hi : a ≠ i) (hj : a ≠ j) (pr : Priority) :
    (s.setQueue pr (enqueue (s.ready pr) a)).Guard i j base m c := by
  refine h.queue (fun hm => ?_) ?_ rfl
  · rcases List.mem_append.mp hm with hm | hm
    · exact h.noIdle pr hm
    · exact hi (List.mem_singleton.mp hm).symm
  · rw [enqueue_elems, List.count_append, List.count_singleton, if_neg (by simpa using hj)]
    rfl

theorem Guard.appendInit (h : s.Guard i j base .hand c) (pr : Priority) :
    (s.setQueue pr (enqueue (s.ready pr) j)).Guard i j base .queue c := by
  refine h.queue (fun hm => ?_) ?_ rfl
  · rcases List.mem_append.mp hm with hm | hm
    · exact h.noIdle pr hm
    · exact h.ne (List.mem_singleton.mp hm)
  · rw [enqueue_elems, List.count_append, List.count_singleton_self]
    show 1 + _ = 0 + (_ + 1)
    omega

/-! ## leaving a queue by pid -/

theorem count_eraseP_of_neg {l : List Nat} {f : Nat → Bool} (hf : f b = false) :
    (l.eraseP f).count b = l.count b := by
  induction l with
  | nil => rfl
  | cons y l ih =>
    cases hy : f y with
    | true =>
      have hne : y ≠ b := fun e => absurd (hf.symm.trans (e ▸ hy)) (by simp)
      rw [List.eraseP_cons_of_pos hy, List.count_cons_of_ne hne]
    | false =>
      rw [List.eraseP_cons_of_neg (by simp [hy]), List.count_cons, List.count_cons, ih]

theorem Guard.compare_init (h : s.Guard i j base m c) (ha : a ≠ j) : compareProcesses s j a = false := by
  obtain ⟨q, hq, -⟩ := h.initProc
  unfold compareProcesses
  rw [hq]
  cases hp : s.heap a with
  | none => rfl
  | some p =>
    refine beq_false_of_ne fun e => ha ((h.pids a p hp).2.mp ?_)
    rw [← e]
    exact (h.pids j q hq).2.mpr rfl

theorem Guard.leave (h : s.Guard i j base m c) (ha : a ≠ j) (pr : Priority) :
    (s.setQueue pr (queueRemove (compareProcesses s) (s.ready pr) a)).Guard i j base m c := by
  refine h.queue (fun hm => ?_) ?_ rfl
  · rw [queueRemove_elems] at hm
    exact h.noIdle pr (List.mem_of_mem_eraseP hm)
  · rw [queueRemove_elems,
      count_eraseP_of_neg (f := fun y => compareProcesses s y a) (h.compare_init ha)]

theorem Guard.leaveInit (h : s.Guard i j base .queue c) (hj : j ∈ (s.ready pr).elems) :
    (s.setQueue pr (queueRemove (compareProcesses s) (s.ready pr) j)).Guard i j base .hand c := by
  have hcmp : ∀ b ∈ (s.ready pr).elems, compareProcesses s b j = (b == j) := by
    intro b _
    obtain ⟨q, hq, -⟩ := h.initProc
    by_cases e : b = j
    · subst e
      rw [compareProcesses_self hq, beq_self_eq_true]
    · unfold compareProcesses
      rw [hq, beq_false_of_ne e]
      cases hp : s.heap b with
      | none => rfl
      | some p =>
        refine beq_false_of_ne fun he => e ((h.pids b p hp).2.mp ?_)
        rw [he]
        exact (h.pids j q hq).2.mpr rfl
  refine h.queue (fun hm => ?_) ?_ rfl
  · rw [queueRemove_elems_erase hcmp] at hm
    exact h.noIdle pr (List.mem_of_mem_erase hm)
  · have hpos : 0 < (s.ready pr).elems.count j := List.count_pos_iff.mpr hj
    rw [queueRemove_elems_erase hcmp, List.count_erase_self]
    show 0 + _ = 1 + (_ - 1)
    omega

/-! ## processes that come and go -/

theorem Guard.publish (h : s.Guard i j base m c) (h0 : p.pid ≠ 0) (h1 : p.pid ≠ 1) :
    (s.publish p).Guard i j base m c := by
  have hi : i ≠ s.next := Nat.ne_of_lt h.old.1
  have hj : j ≠ s.next := Nat.ne_of_lt h.old.2
  have hheap : ∀ b, b ≠ s.next → (s.publish p).heap b = s.heap b :=
    fun b hb => Function.update_of_ne hb ..
  have htab : ∀ pid, pid ≠ p.pid → (s.publish p).table pid = s.table pid :=
    fun pid hp => Function.update_of_ne hp ..
  refine ⟨h.ne, h.idle, ⟨Nat.lt_succ_of_lt h.old.1, Nat.lt_succ_of_lt h.old.2⟩, ⟨?_, ?_⟩,
    fun pid a ht => ?_, fun a q hq => ?_, ?_, ?_, h.noIdle, h.init, h.cpu⟩
  · rw [htab 0 h0.symm]
    exact h.slots.1
  · rw [htab 1 h1.symm]
    exact h.slots.2
  · by_cases e : pid = p.pid
    · subst e
      have hself : (s.publish p).table p.pid = some s.next := Function.update_self ..
      obtain rfl := Option.some.inj (hself.symm.trans ht)
      exact ⟨fun e => absurd e.symm hi, fun e => absurd e.symm hj⟩
    · rw [htab pid e] at ht
      exact h.tab pid a ht
  · by_cases e : a = s.next
    · subst e
      have hself : (s.publish p).heap s.next = some p := Function.update_self ..
      obtain rfl := Option.some.inj (hself.symm.trans hq)
      exact ⟨iff_of_false h0 hi.symm, iff_of_false h1 hj.symm⟩
    · rw [hheap a e] at hq
      exact h.pids a q hq
  · rw [hheap i hi]
    exact h.idleProc
  · rw [hheap j hj]
    exact h.initProc

theorem Guard.vacate (h : s.Guard i j base m c) (h0 : pid ≠ 0) (h1 : pid ≠ 1) :
    (s.setSlot pid none).Guard i j base m c := by
  have htab : ∀ q, q ≠ pid → (s.setSlot pid none).table q = s.table q :=
    fun q hq => Function.update_of_ne hq ..
  refine ⟨h.ne, h.idle, h.old, ⟨(htab 0 h0.symm).trans h.slots.1, (htab 1 h1.symm).trans h.slots.2⟩,
    fun q a ht => ?_, h.pids, h.idleProc, h.initProc, h.noIdle, h.init, h.cpu⟩
  by_cases e : q = pid
  · subst e
    have hself : (s.setSlot q none).table q = none := Function.update_self ..
    exact absurd (hself.symm.trans ht) (by simp)
  · rw [htab q e] at ht
    exact h.tab q a ht

theorem Guard.erase (h : s.Guard i j base m c) (hi : a ≠ i) (hj : a ≠ j) :
    (s.setHeap a none).Guard i j base m c := by
  have hheap : ∀ b, b ≠ a → (s.setHeap a none).heap b = s.heap b :=
    fun b hb => Function.update_of_ne hb ..
  refine ⟨h.ne, h.idle, h.old, h.slots, h.tab, fun b q hq => ?_, ?_, ?_, h.noIdle, h.init, h.cpu⟩
  · by_cases e : b = a
    · subst e
      have hself : (s.setHeap b none).heap b = none := Function.update_self ..
      exact absurd (hself.symm.trans hq) (by simp)
    · rw [hheap b e] at hq
      exact h.pids b q hq
  · rw [hheap i hi.symm]
    exact h.idleProc
  · rw [hheap j hj.symm]
    exact h.initProc

end Sched

end Tp2So
