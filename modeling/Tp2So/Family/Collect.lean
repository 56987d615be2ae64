import Tp2So.Kernel.Frees
import Tp2So.Ready.Birth

/-!
# A collection, process by process

`reap_terminated_processes` frees the TERMINATED processes slot by slot.  One that has been freed
before is not missed.

* `Sched.Slots`        a slot holds the control block with its pid, or nothing;
* `Sched.erase`        a process leaves the table and its control block is freed;
* `Sched.Doomed`       a TERMINATED process in its slot: its turn erases it, and frees `ownFrees`;
* `turn_erase`         the turn of another slot does the same before and after;
* `reap_erase`         a collection after one process has been erased is a collection of all;
* `killed_erase`       `kill_process` erases what `process_terminator` leaves behind.
-/

set_option linter.unusedVariables false

namespace Tp2So

/-- a slot holds the control block with its pid, or nothing -/
def Sched.Slots (s : Sched) : Prop :=
  ∀ pid a, s.table pid = some a → 0 ≤ pid ∧ pid < maxProcesses ∧ ∃ p, s.heap a = some p ∧ p.pid = pid

namespace Sched
variable {s t : Sched} {a b : Nat} {p q : Process} {i : Int} {w : Places}

/-- the slots stay right while no process comes, goes or changes its pid -/
theorem Slots.congr (hs : s.Slots) (htab : t.table = s.table)
    (hpids : ∀ a, (t.heap a).map Process.pid = (s.heap a).map Process.pid) : t.Slots := by
  intro pid a ht
  rw [htab] at ht
  obtain ⟨h0, h1, p, hp, hpid⟩ := hs pid a ht
  have hq := hpids a
  rw [hp] at hq
  obtain ⟨q, hq, hqp⟩ := Option.map_eq_some_iff.mp hq
  exact ⟨h0, h1, q, hq, hqp.trans hpid⟩

/-! ## one process is erased -/

/-- `remove_from_process_table` and `mm_free` -/
def erase (s : Sched) (a : Nat) (pid : Int) : Sched := (s.setSlot pid none).setHeap a none

/-- a TERMINATED process in its slot -/
structure Doomed (s : Sched) (a : Nat) (p : Process) : Prop where
  heap : s.heap a = some p
  slot : s.table p.pid = some a
  state : p.state = .terminated

theorem Doomed.pid_ne (h : s.Doomed a p) (h' : s.Doomed b q) (hne : b ≠ a) : q.pid ≠ p.pid := by
  intro he
  have hslot := h'.slot
  rw [he] at hslot
  exact hne (Option.some.inj (hslot.symm.trans h.slot))

theorem doomed_erase (h : s.Doomed a p) :
    (s.erase a p.pid).Doomed b q ↔ s.Doomed b q ∧ b ≠ a := by
  constructor
  · intro h'
    have hne : b ≠ a := by
      rintro rfl
      exact absurd ((Function.update_self ..).symm.trans h'.heap) (by simp)
    have hpid : q.pid ≠ p.pid := by
      intro he
      have hslot := h'.slot
      rw [he] at hslot
      exact absurd ((Function.update_self ..).symm.trans hslot) (by simp)
    have hheap := h'.heap
    have hslot := h'.slot
    unfold erase at hheap hslot
    rw [setHeap_heap, setSlot_heap, Function.update_of_ne hne] at hheap
    rw [setHeap_table, setSlot_table, Function.update_of_ne hpid] at hslot
    exact ⟨⟨hheap, hslot, h'.state⟩, hne⟩
  · rintro ⟨h', hne⟩
    refine ⟨?_, ?_, h'.state⟩
    · exact (Function.update_of_ne hne ..).trans h'.heap
    · exact (Function.update_of_ne (h.pid_ne h' hne) ..).trans h'.slot

theorem Slots.erase (hs : s.Slots) (h : s.Doomed a p) : (s.erase a p.pid).Slots := by
  intro i b ht
  have hi : i ≠ p.pid := by
    rintro rfl
    exact absurd ((Function.update_self ..).symm.trans ht) (by simp)
  unfold Sched.erase at ht ⊢
  rw [setHeap_table, setSlot_table, Function.update_of_ne hi] at ht
  obtain ⟨h0, h1, q, hq, hqi⟩ := hs i b ht
  have hne : b ≠ a := by
    rintro rfl
    obtain rfl := Option.some.inj (h.heap.symm.trans hq)
    exact hi hqi.symm
  exact ⟨h0, h1, q, (Function.update_of_ne hne ..).trans hq, hqi⟩

theorem erase_comm (h : s.Doomed a p) (h' : s.Doomed b q) (hne : b ≠ a) :
    (s.erase a p.pid).erase b q.pid = (s.erase b q.pid).erase a p.pid := by
  unfold erase setHeap setSlot
  simp only
  rw [Function.update_comm hne, Function.update_comm (h.pid_ne h' hne)]

/-! ## one turn of a collection -/

/-- the blocks of a process that has left the scheduler -/
def ownFrees (w : Places) (a : Nat) (p : Process) : List Block :=
  (if w.argv a ≠ 0 then (w.cells a).filter (· ≠ 0) ++ [w.argv a] else []).map Block.at
    ++ (if p.stackBase ≠ 0 then [Block.at p.stackBase] else []) ++ [Block.at (w.pcb a)]

theorem freeFrees_eq (hp : s.heap a = some p) :
    freeProcessResourcesFrees w s a false = ownFrees w a p := by
  unfold freeProcessResourcesFrees ownFrees
  simp only [hp, Bool.false_eq_true, if_false, List.append_nil]

theorem Doomed.getProcess (hs : s.Slots) (h : s.Doomed a p) : getProcess s p.pid = some a := by
  obtain ⟨h0, h1, -⟩ := hs _ _ h.slot
  exact (if_neg (by omega)).trans h.slot

theorem Doomed.reapSlot (hs : s.Slots) (h : s.Doomed a p) : reapSlot s p.pid = s.erase a p.pid := by
  obtain ⟨h0, h1, -⟩ := hs _ _ h.slot
  unfold Tp2So.reapSlot
  simp only [h.getProcess hs, h.heap]
  rw [if_pos h.state, removeFromProcessTable_eq h0 h1]
  rfl

theorem Doomed.frees (hs : s.Slots) (h : s.Doomed a p) :
    reapSlotFrees w s p.pid = ownFrees w a p := by
  obtain ⟨h0, h1, -⟩ := hs _ _ h.slot
  unfold reapSlotFrees
  simp only [h.getProcess hs, h.heap]
  rw [if_pos h.state, removeFromProcessTable_eq h0 h1]
  exact freeFrees_eq h.heap

theorem Slots.reapSlot (hs : s.Slots) (hn : ∀ b q, s.Doomed b q → q.pid ≠ i) : reapSlot s i = s := by
  unfold Tp2So.reapSlot
  cases hg : getProcess s i with
  | none => rfl
  | some b =>
    obtain ⟨-, -, ht⟩ := getProcess_eq_some hg
    obtain ⟨-, -, q, hq, rfl⟩ := hs i b ht
    simp only [hq]
    exact if_neg fun hst => hn b q ⟨hq, ht, hst⟩ rfl

theorem Slots.frees (hs : s.Slots) (hn : ∀ b q, s.Doomed b q → q.pid ≠ i) :
    reapSlotFrees w s i = [] := by
  unfold reapSlotFrees
  cases hg : getProcess s i with
  | none => rfl
  | some b =>
    obtain ⟨-, -, ht⟩ := getProcess_eq_some hg
    obtain ⟨-, -, q, hq, rfl⟩ := hs i b ht
    simp only [hq]
    exact if_neg fun hst => hn b q ⟨hq, ht, hst⟩ rfl

/-- what a turn keeps: what holds when a TERMINATED process is erased -/
theorem Slots.reapSlot_keeps {P : Sched → Prop} (hs : s.Slots) (hP : P s)
    (herase : ∀ b q, s.Doomed b q → P (s.erase b q.pid)) (i : Int) : P (Tp2So.reapSlot s i) := by
  by_cases hex : ∃ b q, s.Doomed b q ∧ q.pid = i
  · obtain ⟨b, q, h, rfl⟩ := hex
    rw [h.reapSlot hs]
    exact herase b q h
  · rw [hs.reapSlot fun b q h he => hex ⟨b, q, h, he⟩]
    exact hP

/-- **One turn**, in a slot that is not that of the doomed process: it does the same whether that
process has been erased or not. -/
theorem turn_erase (hs : s.Slots) (h : s.Doomed a p) (hi : i ≠ p.pid) :
    reapSlot (s.erase a p.pid) i = (reapSlot s i).erase a p.pid ∧
      reapSlotFrees w (s.erase a p.pid) i = reapSlotFrees w s i ∧
      (reapSlot s i).Slots ∧ (reapSlot s i).Doomed a p := by
  by_cases hex : ∃ b q, s.Doomed b q ∧ q.pid = i
  · obtain ⟨b, q, h', rfl⟩ := hex
    have hne : b ≠ a := by
      rintro rfl
      exact hi (by rw [Option.some.inj (h.heap.symm.trans h'.heap)])
    have hleft := (doomed_erase h).mpr ⟨h', hne⟩
    rw [h'.reapSlot hs, h'.frees hs, hleft.reapSlot (hs.erase h), hleft.frees (hs.erase h)]
    exact ⟨erase_comm h h' hne, rfl, hs.erase h', (doomed_erase h').mpr ⟨h, hne.symm⟩⟩
  · have hn : ∀ b q, s.Doomed b q → q.pid ≠ i := fun b q h' he => hex ⟨b, q, h', he⟩
    have hn' : ∀ b q, (s.erase a p.pid).Doomed b q → q.pid ≠ i :=
      fun b q h' => hn b q ((doomed_erase h).mp h').1
    rw [hs.reapSlot hn, hs.frees hn, (hs.erase h).reapSlot hn', (hs.erase h).frees hn']
    exact ⟨rfl, rfl, hs, h⟩

theorem pid_ne_erased (h : s.Doomed a p) : ∀ b q, (s.erase a p.pid).Doomed b q → q.pid ≠ p.pid := by
  intro b q h'
  obtain ⟨h', hne⟩ := (doomed_erase h).mp h'
  exact h.pid_ne h' hne

/-! ## a whole collection -/

/-- **A collection** goes on in the same way when one of the processes it would have freed has been
freed before, and frees that much less. -/
theorem reapSlots_erase (hs : s.Slots) (h : s.Doomed a p) {pids : List Int} (hmem : p.pid ∈ pids) :
    pids.foldl reapSlot (s.erase a p.pid) = pids.foldl reapSlot s ∧
      (reapSlotsFrees w pids s).Perm
        (ownFrees w a p ++ reapSlotsFrees w pids (s.erase a p.pid)) := by
  induction pids generalizing s with
  | nil => exact absurd hmem (by simp)
  | cons i pids ih =>
    rw [List.foldl_cons, List.foldl_cons]
    unfold reapSlotsFrees
    by_cases hi : i = p.pid
    · subst hi
      have hn := pid_ne_erased h
      rw [h.reapSlot hs, h.frees hs, (hs.erase h).reapSlot hn, (hs.erase h).frees hn]
      exact ⟨rfl, List.Perm.refl _⟩
    · obtain ⟨hr, hf, hs', h'⟩ := turn_erase (w := w) hs h hi
      have hmem' : p.pid ∈ pids := (List.mem_cons.mp hmem).resolve_left fun e => hi e.symm
      obtain ⟨hfold, hperm⟩ := ih hs' h' hmem'
      rw [hr, hf]
      refine ⟨hfold, ?_⟩
      refine (hperm.append_left _).trans ?_
      rw [← List.append_assoc, ← List.append_assoc]
      exact List.perm_append_comm.append_right _

theorem reap_erase (hs : s.Slots) (h : s.Doomed a p) :
    reapTerminatedProcesses (s.erase a p.pid) = reapTerminatedProcesses s ∧
      (reapFrees w s).Perm (ownFrees w a p ++ reapFrees w (s.erase a p.pid)) := by
  obtain ⟨h0, h1, -⟩ := hs _ _ h.slot
  exact reapSlots_erase hs h (mem_allPids.mpr ⟨h0, h1⟩)

/-! ## the two ends -/

theorem terminatorLeave_eq (hp : s.heap a = some p) (hi : s.idle ≠ some a) :
    terminatorLeave s a = forgetShell (((removeFromAllPriorityQueues s a).modify a
      (Process.setState .terminated)).setRunning (s.runningBut a)) a := by
  unfold terminatorLeave
  simp only [removeProcessFromScheduler_eq (s := s.modify a (Process.setState .terminated)) hi]
  rw [removeFromAll_modify hp (Process.setState .terminated) (fun _ => rfl) (fun _ => rfl),
    setRunning_running, if_neg runningBut_ne]
  rfl

/-- **`kill_process`** erases what `process_terminator` leaves behind. -/
theorem killed_erase (hs : s.Slots) (hp : s.heap a = some p) (ht : s.table p.pid = some a)
    (hi : s.idle ≠ some a) :
    freeProcessResources (forgetShell (removeFromProcessTable
      (s.modify a (Process.setState .terminated)) p.pid) a) a true
      = (terminatorLeave s a).erase a p.pid := by
  obtain ⟨h0, h1, -⟩ := hs _ _ ht
  have hheap : Function.update (heapMod (removeFromAllPriorityQueues s a).heap a
      (Process.setState .terminated)) a none
      = Function.update (removeFromAllPriorityQueues s a).heap a none := Function.update_idem ..
  rw [killed_eq hp hi h0 h1, terminatorLeave_eq hp hi, forgetShell_eq, forgetShell_eq]
  unfold erase setShell setRunning setHeap setSlot modify
  simp only [hheap]

theorem doomed_terminatorLeave (hp : s.heap a = some p) (ht : s.table p.pid = some a)
    (hi : s.idle ≠ some a) : (terminatorLeave s a).Doomed a (p.setState .terminated) := by
  rw [terminatorLeave_eq hp hi, forgetShell_eq]
  have hr : (removeFromAllPriorityQueues s a).heap a = some p := by
    rw [removeFromAll_heap]
    exact hp
  refine ⟨modify_heap_self _ hr, ?_, rfl⟩
  show (removeFromAllPriorityQueues s a).table p.pid = some a
  rw [removeFromAll_table]
  exact ht

theorem slots_terminatorLeave (hs : s.Slots) (hp : s.heap a = some p) (hi : s.idle ≠ some a) :
    (terminatorLeave s a).Slots := by
  have hsame := same_modify (removeFromAllPriorityQueues s a) a
    (f := Process.setState .terminated) (fun _ => rfl)
  rw [terminatorLeave_eq hp hi, forgetShell_eq]
  refine hs.congr (removeFromAll_table s a) fun b => (hsame.pids b).trans ?_
  rw [removeFromAll_heap]

end Sched

end Tp2So
