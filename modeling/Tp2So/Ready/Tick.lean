import Tp2So.Ready.Moves

/-!
# The ready-queue invariant: the scheduler tick

`schedule` keeps `Sched.Ok` (`ok_schedule`).  Under the invariant the queues hold READY processes
only, so that the aging loop reaches its exit test on every turn and the choice takes the head of
the first queue that is not empty.

* `AgingRule`, `AgingRule.pass`   what a pass of aging keeps, for any property of the state;
* `selectNext_keeps`              what the choice keeps.
-/

set_option linter.unusedVariables false

namespace Tp2So
namespace Sched
variable {x : Option Nat} {s s' : Sched} {a : Nat} {p : Process} {pr : Priority}

/-! ## rules for the loops -/

theorem mem_of_next {q q' : Queue Nat} (h : queueNextCyclicIter q = some (a, q')) :
    a ∈ q.elems ∧ q'.elems = q.elems := by
  obtain ⟨i, -, hx, he, -⟩ := queueNextCyclicIter_eq_some h
  exact ⟨List.mem_of_getElem? hx, he⟩

/-- the cursor is the null one: the loop ends -/
theorem agingLoop_end (hn : queueNextCyclicIter (s.ready pr) = none) (fuel : Nat) :
    agingLoop pr (fuel + 1) s = some s := by
  conv_lhs => unfold agingLoop
  simp only [hn]

/-- one turn of the loop; the `continue` of a process that is not READY skips the exit test -/
theorem agingLoop_next {q : Queue Nat} (hn : queueNextCyclicIter (s.ready pr) = some (a, q))
    (hp : s.heap a = some p) (fuel : Nat) :
    agingLoop pr (fuel + 1) s =
      if p.state ≠ .ready ∨ s.idle = some a then agingLoop pr fuel (s.setQueue pr q)
      else if queueCyclicIterLooped ((ageProcess (s.setQueue pr q) pr a p).ready pr) then
        some (ageProcess (s.setQueue pr q) pr a p)
      else agingLoop pr fuel (ageProcess (s.setQueue pr q) pr a p) := by
  have hp' : (s.setQueue pr q).heap a = some p := hp
  conv_lhs => unfold agingLoop
  simp only [hn, hp']
  rfl

/-- what a pass of aging keeps: a move of the cursor keeps it, and the aging of a process of a queue -/
structure AgingRule (P : Sched → Prop) : Prop where
  cursor : ∀ {s : Sched} {pr : Priority} {q : Queue Nat}, P s → q.elems = (s.ready pr).elems →
    P (s.setQueue pr q)
  age : ∀ {s : Sched} {pr : Priority} {a : Nat} {p : Process}, P s → pr ≠ maxPriority →
    a ∈ (s.ready pr).elems → s.heap a = some p → P (ageProcess s pr a p)

section
variable {P : Sched → Prop}

theorem AgingRule.loop (hP : AgingRule P) (hpr : pr ≠ maxPriority) (fuel : Nat) :
    ∀ {s s' : Sched}, P s → agingLoop pr fuel s = some s' → P s' := by
  induction fuel with
  | zero => intro s s' _ h; exact absurd h (by simp [agingLoop])
  | succ fuel ih =>
    intro s s' hs h
    cases hn : queueNextCyclicIter (s.ready pr) with
    | none =>
      rw [agingLoop_end hn] at h
      exact Option.some.inj h ▸ hs
    | some r =>
      obtain ⟨a, q⟩ := r
      obtain ⟨ha, hq⟩ := mem_of_next hn
      have hc : P (s.setQueue pr q) := hP.cursor hs hq
      have ha' : a ∈ ((s.setQueue pr q).ready pr).elems := by rw [setQueue_self, hq]; exact ha
      cases hp : s.heap a with
      | none => exact absurd h (by simp [agingLoop, hn, hp])
      | some p =>
        have hage := hP.age hc hpr ha' hp
        rw [agingLoop_next hn hp] at h
        -- a process that is not READY is passed over, with no exit test
        split at h
        · exact ih hc h
        · split at h
          · exact Option.some.inj h ▸ hage
          · exact ih hage h

theorem AgingRule.queue (hP : AgingRule P) (hpr : pr ≠ maxPriority) {fuel : Nat} (h : P s)
    (hs : ageQueue fuel pr s = some s') : P s' := by
  unfold ageQueue at hs
  split at hs
  · exact Option.some.inj hs ▸ h
  · exact hP.loop hpr fuel (hP.cursor h (queueBeginCyclicIter_elems _)) hs

/-- **The pass of aging.** -/
theorem AgingRule.pass (hP : AgingRule P) {fuel : Nat} (h : P s) (hs : applyAging fuel s = some s') :
    P s' := by
  unfold applyAging at hs
  obtain ⟨s1, h1, hs⟩ := Option.bind_eq_some_iff.mp hs
  obtain ⟨s2, h2, h3⟩ := Option.bind_eq_some_iff.mp hs
  exact hP.queue (by decide) (hP.queue (by decide) (hP.queue (by decide) h h1) h2) h3

/-- the choice takes processes out of queues until one will do -/
theorem selectFrom_keeps (hP : ∀ {s : Sched} {pr : Priority} (q : Queue Nat), P s → P (s.setQueue pr q))
    (n : Nat) : ∀ {s : Sched} {r : Option Nat × Sched}, P s → selectFrom pr n s = some r → P r.2 := by
  induction n with
  | zero =>
    intro s r hs h
    exact Option.some.inj h ▸ hs
  | succ n ih =>
    intro s r hs h
    unfold selectFrom at h
    cases hd : dequeue (s.ready pr) with
    | none =>
      simp only [hd] at h
      exact Option.some.inj h ▸ hs
    | some x =>
      obtain ⟨a, q⟩ := x
      have hq : P (s.setQueue pr q) := hP q hs
      simp only [hd] at h
      cases hp : (s.setQueue pr q).heap a with
      | none =>
        simp only [hp] at h
        exact absurd h (by simp)
      | some p =>
        simp only [hp] at h
        split at h
        · exact Option.some.inj h ▸ hq
        · exact ih hq h

theorem selectNext_keeps (hP : ∀ {s : Sched} {pr : Priority} (q : Queue Nat), P s → P (s.setQueue pr q))
    (prs : List Priority) : ∀ {s : Sched} {r : Option Nat × Sched}, P s → selectNext prs s = some r →
      P r.2 := by
  induction prs with
  | nil =>
    intro s r hs h
    exact Option.some.inj h ▸ hs
  | cons pr prs ih =>
    intro s r hs h
    unfold selectNext at h
    cases hsel : selectFrom pr (queueSize (s.ready pr)) s with
    | none =>
      simp only [hsel] at h
      exact absurd h (by simp)
    | some x =>
      obtain ⟨next, s₁⟩ := x
      have h1 : P s₁ := selectFrom_keeps hP _ hs hsel
      simp only [hsel] at h
      cases next with
      | none => exact ih h1 h
      | some a => exact Option.some.inj h ▸ h1

end

/-! ## aging -/

theorem ok_boost (h : s.Ok) (ha : a ∈ (s.ready pr).elems) : (boost s pr a).Ok := by
  obtain ⟨-, hi, p, hp, hst, rfl, ht⟩ := h.queued pr a ha
  have htake := h.takeFrom hp (h.queueRemove_elems hp ht p.priority)
  have hmod := htake.mod (Process.setPriority maxPriority) (fun _ => rfl)
    (fun q hq hf => by
      obtain rfl := Option.some.inj (hp.symm.trans hq)
      exact absurd (hst.symm.trans hf) (by simp))
    (fun _ hi' => absurd hi' hi)
  have hput := hmod.put (modify_heap_self _ hp) ht hst hi
  unfold boost
  simp only [compareProcesses_modify (s := s) (a := a) (Process.setPriority maxPriority)
    (fun _ => rfl)]
  exact hput.quiet a (quiet_setWaitTicks 0)

theorem ok_ageProcess (h : s.Ok) (ha : a ∈ (s.ready pr).elems) : (ageProcess s pr a p).Ok := by
  unfold ageProcess
  have hq := h.quiet a (quiet_setWaitTicks (p.waitTicks + 1))
  simp only
  split
  · exact ok_boost hq ha
  · exact hq

theorem agingRule_ok : AgingRule Ok where
  cursor h hq := h.cursor _ hq
  age h _ ha _ := ok_ageProcess h ha

theorem ok_applyAging {fuel : Nat} (h : s.Ok) (hs : applyAging fuel s = some s') : s'.Ok :=
  agingRule_ok.pass h hs

/-! ## putting the running process away -/

theorem ok_preempt {rsp : Nat} (h : s.Ok) {r : Sched ⊕ Sched} (hr : preempt rsp s = some r) :
    r.elim Sched.Ok Sched.Ok := by
  unfold preempt at hr
  cases hrun : s.running with
  | none =>
    simp only [hrun] at hr
    exact Option.some.inj hr ▸ h
  | some a =>
    obtain ⟨p, hp, ht, hnt⟩ := h.running a hrun
    have h1 := h.quiet a (quiet_setRsp rsp)
    have hp1 := modify_heap_self (Process.setRsp rsp) hp
    simp only [hrun, hp] at hr
    cases hst : p.state with
    | terminated => exact absurd hst hnt
    | blocked =>
      simp only [hst] at hr
      exact Option.some.inj hr ▸ h1.stop
    | ready =>
      simp only [hst] at hr
      exact Option.some.inj hr ▸ h1
    | running =>
      simp only [hst] at hr
      have h2 := h1.quiet a (quiet_setQuantum (p.quantumRemaining - 1))
      split at hr
      · exact Option.some.inj hr ▸ h2
      · have hp2 := modify_heap_self (Process.setQuantum (p.quantumRemaining - 1)) hp1
        have h3 := h2.quiet a (quiet_setQuantum defaultQuantum)
        have hp3 := modify_heap_self (Process.setQuantum defaultQuantum) hp2
        have hb := Ok.setAside h3 hp3 (Or.inl (fun hf => absurd (hst.symm.trans hf) (by simp)))
        have h4 := hb.mod (Process.setState .ready) (fun _ => rfl)
          (fun _ _ hf => absurd hf (by simp)) (fun _ _ _ => Or.inl rfl)
        exact Option.some.inj hr ▸ h4.enter (modify_heap_self _ hp3) ht

/-! ## choosing -/

/-- what the choice hands to `dispatch` -/
def Chosen (next : Option Nat) (s : Sched) : Prop :=
  match next with
  | none => s.Ok
  | some a => s.But (some a) ∧ s.idle ≠ some a ∧
    ∃ p, s.heap a = some p ∧ s.table p.pid = some a ∧ p.state = .ready

/-- under the invariant the head of a queue is always taken -/
theorem selectFrom_spec (h : s.Ok) (n : Nat) (hn : queueSize (s.ready pr) ≤ n) :
    ∃ next s', selectFrom pr n s = some (next, s') ∧ Chosen next s' := by
  cases n with
  | zero => exact ⟨none, s, rfl, h⟩
  | succ n =>
    unfold selectFrom
    cases hd : dequeue (s.ready pr) with
    | none => exact ⟨none, s, rfl, h⟩
    | some r =>
      obtain ⟨a, q⟩ := r
      have he := dequeue_eq_some hd
      have ha : a ∈ (s.ready pr).elems := by rw [he]; exact List.mem_cons_self
      obtain ⟨-, hi, p, hp, hst, rfl, ht⟩ := h.queued pr a ha
      have hb := h.takeFrom hp (q := q) (by rw [he, List.erase_cons_head])
      refine ⟨some a, s.setQueue p.priority q, ?_, hb, hi, p, hp, ht, hst⟩
      simp only [setQueue_heap, hp]
      exact if_pos ⟨hst, hi⟩

theorem selectNext_spec (prs : List Priority) (h : s.Ok) :
    ∃ next s', selectNext prs s = some (next, s') ∧ Chosen next s' := by
  induction prs generalizing s with
  | nil => exact ⟨none, s, rfl, h⟩
  | cons pr prs ih =>
    obtain ⟨next, s1, hs, hc⟩ := selectFrom_spec h _ (Nat.le_refl (queueSize (s.ready pr)))
    unfold selectNext
    simp only [hs]
    cases next with
    | none => exact ih hc
    | some a => exact ⟨some a, s1, rfl, hc⟩

/-! ## dispatching -/

theorem runIdle_spec (h : s.Ok) : ∃ rsp s', runIdle s = some (rsp, s') ∧ s'.Ok := by
  obtain ⟨i, p, hi, ht, hp, hst⟩ := h.idle
  have hpid : p.pid = 0 := h.tab_pid ht hp
  have hb := (h.setAside hp (Or.inr hi)).mod (Process.setState .running) (fun _ => rfl)
    (fun _ _ hf => absurd hf (by simp)) (fun _ _ _ => Or.inr rfl)
  have hp' := modify_heap_self (Process.setState .running) hp
  refine ⟨p.rsp, _, ?_, (hb.close hp' (Or.inr hi)).start hp' (hpid ▸ ht) (by simp)⟩
  unfold runIdle
  simp only [hi, hp]

theorem dispatch_spec {next : Option Nat} (h : Chosen next s) :
    ∃ rsp s', dispatch next s = some (rsp, s') ∧ s'.Ok := by
  cases next with
  | none => exact runIdle_spec h
  | some a =>
    obtain ⟨hb, hi, p, hp, ht, hst⟩ := h
    have h1 := hb.setState .running hi (by simp)
    have hp1 := modify_heap_self (Process.setState .running) hp
    have h2 := h1.quiet a (quiet_setQuantum defaultQuantum)
    have hp2 := modify_heap_self (Process.setQuantum defaultQuantum) hp1
    have h3 := (h2.close hp2 (Or.inl (by show ProcessState.running ≠ _; simp))).start hp2 ht
      (by show ProcessState.running ≠ _; simp)
    have h4 := h3.quiet a (quiet_setWaitTicks 0)
    unfold dispatch
    simp only [hp]
    rw [if_neg (not_not_intro hst), resetAging_eq (by exact hi)]
    split
    · exact runIdle_spec h4
    · exact ⟨p.rsp, _, rfl, h4⟩

/-- **The tick keeps the invariant.** -/
theorem ok_schedule {fuel rsp : Nat} {r : Nat × Sched} (h : s.Ok)
    (hs : schedule fuel rsp s = some r) : r.2.Ok := by
  obtain ⟨s₁, ha, hparts⟩ := schedule_parts hs
  have h₁ := ok_applyAging h ha
  rcases hparts with ⟨s₂, hp, rfl⟩ | ⟨s₂, next, s₃, hp, hsel, hd⟩
  · exact ok_preempt h₁ hp
  · have h₂ : s₂.Ok := ok_preempt h₁ hp
    obtain ⟨next', s₃', hsel', hchosen⟩ := selectNext_spec [3, 2, 1, 0] h₂
    obtain ⟨rfl, rfl⟩ := Prod.mk.inj (Option.some.inj (hsel.symm.trans hsel'))
    obtain ⟨rsp', s₄, hd', h₄⟩ := dispatch_spec hchosen
    obtain rfl := Option.some.inj (hd.symm.trans hd')
    exact h₄

end Sched

end Tp2So
