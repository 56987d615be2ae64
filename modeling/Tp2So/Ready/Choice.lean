import Tp2So.Ready.Tick

/-!
# The choice of the next process

* `selectNext_head`    on queues of READY processes the head of the first one that is not empty is
                       taken;
* `selectNext_some`    whatever is queued, the process that is taken is READY and not the idle one;
* `selectNext_none`    nothing is taken only when all queues are empty in the end;
* `dispatch_ready`     what becomes of the process that is taken.
-/

set_option linter.unusedVariables false

namespace Tp2So

namespace Sched
variable {s t : Sched} {a b : Nat} {p : Process} {pr : Priority} {next : Option Nat}

/-! ## READY processes -/

theorem selectFrom_cons {l : List Nat} (h : s.Ok) (hq : (s.ready pr).elems = b :: l) :
    ∃ q, q.elems = l ∧
      selectFrom pr (queueSize (s.ready pr)) s = some (some b, s.setQueue pr q) := by
  have hsize : queueSize (s.ready pr) = l.length + 1 := by
    unfold queueSize
    rw [hq]
    rfl
  obtain ⟨-, hi, p, hp, hst, -⟩ := h.queued pr b (by rw [hq]; exact List.mem_cons_self)
  cases hd : dequeue (s.ready pr) with
  | none => exact absurd (hq.symm.trans (dequeue_eq_none hd)) (by simp)
  | some r =>
    obtain ⟨c, q⟩ := r
    obtain ⟨rfl, hl⟩ := List.cons.inj (hq.symm.trans (dequeue_eq_some hd))
    refine ⟨q, hl.symm, ?_⟩
    rw [hsize]
    unfold selectFrom
    simp only [hd, setQueue_heap, hp]
    exact if_pos ⟨hst, hi⟩

/-- **The head of the first queue that is not empty** gets the CPU. -/
theorem selectNext_head (h : s.Ok) (prs : List Priority)
    (hex : ∃ pr ∈ prs, (s.ready pr).elems ≠ []) : ∃ pr b q, (s.ready pr).elems = b :: q.elems ∧
      selectNext prs s = some (some b, s.setQueue pr q) ∧
      ∀ x xs, prs = x :: xs → (s.ready x).elems ≠ [] → pr = x := by
  induction prs with
  | nil =>
    obtain ⟨pr, hpr, -⟩ := hex
    exact absurd hpr List.not_mem_nil
  | cons x xs ih =>
    cases hq : (s.ready x).elems with
    | nil =>
      obtain ⟨pr, hpr, hne⟩ := hex
      have hxs : pr ∈ xs := by
        rcases List.mem_cons.mp hpr with e | hxs
        · exact absurd (by rw [e]; exact hq) hne
        · exact hxs
      obtain ⟨pr', b, q, hb, hsel, -⟩ := ih ⟨pr, hxs, hne⟩
      have hnone : selectFrom x (queueSize (s.ready x)) s = some (none, s) := by
        unfold queueSize
        rw [hq]
        rfl
      refine ⟨pr', b, q, hb, ?_, fun y ys e hy => ?_⟩
      · unfold selectNext
        rw [hnone]
        exact hsel
      · obtain ⟨rfl, -⟩ := List.cons.inj e
        exact absurd hq hy
    | cons b l =>
      obtain ⟨q, hl, hsel⟩ := selectFrom_cons h hq
      refine ⟨x, b, q, by rw [hq, hl], ?_, fun y ys e _ => (List.cons.inj e).1⟩
      unfold selectNext
      rw [hsel]

/-! ## any processes -/

theorem selectFrom_some (n : Nat) (h : selectFrom pr n s = some (some b, t)) :
    t.heap = s.heap ∧ t.idle = s.idle ∧ ∃ p, s.heap b = some p ∧ p.state = .ready ∧ s.idle ≠ some b := by
  induction n generalizing s with
  | zero => exact absurd (congrArg Prod.fst (Option.some.inj h)) (by simp)
  | succ n ih =>
    unfold selectFrom at h
    split at h
    · exact absurd (congrArg Prod.fst (Option.some.inj h)) (by simp)
    · rename_i c q _
      simp only at h
      split at h
      · exact absurd h (by simp)
      · rename_i p hp
        split at h
        · rename_i hc
          obtain ⟨hb, rfl⟩ := Prod.mk.inj (Option.some.inj h)
          obtain rfl := Option.some.inj hb
          exact ⟨rfl, rfl, p, hp, hc⟩
        · have hrest := ih h
          exact hrest

theorem selectFrom_none (n : Nat) (hn : queueSize (s.ready pr) ≤ n)
    (h : selectFrom pr n s = some (none, t)) :
    (t.heap = s.heap ∧ t.idle = s.idle) ∧ (t.ready pr).elems = [] ∧
      ∀ pr', pr' ≠ pr → t.ready pr' = s.ready pr' := by
  induction n generalizing s with
  | zero =>
    obtain ⟨-, rfl⟩ := Prod.mk.inj (Option.some.inj h)
    exact ⟨⟨rfl, rfl⟩, List.length_eq_zero_iff.mp (Nat.le_zero.mp hn), fun _ _ => rfl⟩
  | succ n ih =>
    unfold selectFrom at h
    cases hd : dequeue (s.ready pr) with
    | none =>
      simp only [hd] at h
      obtain ⟨-, rfl⟩ := Prod.mk.inj (Option.some.inj h)
      exact ⟨⟨rfl, rfl⟩, dequeue_eq_none hd, fun _ _ => rfl⟩
    | some r =>
      obtain ⟨c, q⟩ := r
      simp only [hd] at h
      have hlen : queueSize ((s.setQueue pr q).ready pr) ≤ n := by
        unfold queueSize at hn ⊢
        rw [dequeue_eq_some hd, List.length_cons] at hn
        rw [setQueue_self]
        exact Nat.le_of_succ_le_succ hn
      split at h
      · exact absurd h (by simp)
      · split at h
        · exact absurd (congrArg Prod.fst (Option.some.inj h)) (by simp)
        · obtain ⟨hsame, hempty, hother⟩ := ih hlen h
          exact ⟨hsame, hempty, fun pr' hne => (hother pr' hne).trans (setQueue_of_ne _ _ _ hne)⟩

theorem selectNext_some (prs : List Priority) (h : selectNext prs s = some (some b, t)) :
    t.heap = s.heap ∧ t.idle = s.idle ∧ ∃ p, s.heap b = some p ∧ p.state = .ready ∧ s.idle ≠ some b := by
  induction prs generalizing s with
  | nil => exact absurd (congrArg Prod.fst (Option.some.inj h)) (by simp)
  | cons pr prs ih =>
    unfold selectNext at h
    cases hsel : selectFrom pr (queueSize (s.ready pr)) s with
    | none =>
      simp only [hsel] at h
      exact absurd h (by simp)
    | some r =>
      obtain ⟨c, u⟩ := r
      simp only [hsel] at h
      cases c with
      | none =>
        obtain ⟨⟨hheap, hidle⟩, -⟩ := selectFrom_none _ (Nat.le_refl _) hsel
        have hrest := ih h
        rw [hheap, hidle] at hrest
        exact hrest
      | some c =>
        obtain ⟨hb, rfl⟩ := Prod.mk.inj (Option.some.inj h)
        obtain rfl := Option.some.inj hb
        exact selectFrom_some _ hsel

theorem selectNext_none (prs : List Priority) (h : selectNext prs s = some (none, t)) :
    (∀ pr ∈ prs, (t.ready pr).elems = []) ∧ ∀ pr, pr ∉ prs → t.ready pr = s.ready pr := by
  induction prs generalizing s with
  | nil =>
    obtain ⟨-, rfl⟩ := Prod.mk.inj (Option.some.inj h)
    exact ⟨fun pr hm => absurd hm List.not_mem_nil, fun _ _ => rfl⟩
  | cons x prs ih =>
    unfold selectNext at h
    cases hsel : selectFrom x (queueSize (s.ready x)) s with
    | none =>
      simp only [hsel] at h
      exact absurd h (by simp)
    | some r =>
      obtain ⟨c, u⟩ := r
      simp only [hsel] at h
      cases c with
      | some c => exact absurd (congrArg Prod.fst (Option.some.inj h)) (by simp)
      | none =>
        obtain ⟨-, hempty, hother⟩ := selectFrom_none _ (Nat.le_refl _) hsel
        obtain ⟨hrest, hkeep⟩ := ih h
        refine ⟨fun pr hm => ?_, fun pr hn => ?_⟩
        · by_cases hin : pr ∈ prs
          · exact hrest pr hin
          · have e : pr = x := (List.mem_cons.mp hm).resolve_right hin
            rw [hkeep pr hin, e]
            exact hempty
        · have hne : pr ≠ x := fun e => hn (e ▸ List.mem_cons_self)
          exact (hkeep pr fun hm => hn (List.mem_cons_of_mem _ hm)).trans (hother pr hne)

/-! ## dispatching -/

/-- a process with the CPU -/
def onCpu (p : Process) : Process :=
  { p with state := .running, quantumRemaining := defaultQuantum, waitTicks := 0 }

theorem dispatch_ready (hp : s.heap b = some p) (hst : p.state = .ready) (hi : s.idle ≠ some b) :
    dispatch (some b) s = if p.rsp < p.stackBase ∨ p.stackBase + processStackSize ≤ p.rsp
      then runIdle ((s.modify b onCpu).setRunning (some b))
      else some (p.rsp, (s.modify b onCpu).setRunning (some b)) := by
  have hedit : resetAging (((s.modify b (Process.setState .running)).modify b
      (Process.setQuantum defaultQuantum)).setRunning (some b)) b
      = (s.modify b onCpu).setRunning (some b) := by
    rw [resetAging_eq (by exact hi)]
    show Sched.mk (heapMod (heapMod (heapMod s.heap b _) b _) b _) _ _ _ _ _ _ = _
    rw [heapMod_heapMod, heapMod_heapMod]
    rfl
  unfold dispatch
  simp only [hp]
  rw [if_neg (not_not_intro hst), hedit]

theorem runIdle_keeps {r : Nat × Sched} (hr : runIdle s = some r) :
    r.2.ready = s.ready ∧ ∀ a, s.idle ≠ some a → r.2.heap a = s.heap a := by
  unfold runIdle at hr
  split at hr
  · exact absurd hr (by simp)
  · rename_i i hi
    split at hr
    · exact absurd hr (by simp)
    · obtain rfl := Option.some.inj hr
      exact ⟨rfl, fun a ha => heapMod_of_ne _ _ fun e => ha (by rw [hi, e])⟩

theorem dispatch_keeps {r : Nat × Sched} (hp : s.heap b = some p) (hst : p.state = .ready)
    (hi : s.idle ≠ some b) (hd : dispatch (some b) s = some r) :
    r.2.ready = s.ready ∧ r.2.heap b = some (onCpu p) ∧
      ∀ a, a ≠ b → s.idle ≠ some a → r.2.heap a = s.heap a := by
  have hself : (s.modify b onCpu).heap b = some (onCpu p) := modify_heap_self _ hp
  have hother : ∀ a, a ≠ b → (s.modify b onCpu).heap a = s.heap a := fun a => heapMod_of_ne _ _
  rw [dispatch_ready hp hst hi] at hd
  split at hd
  · obtain ⟨hready, hheap⟩ := runIdle_keeps hd
    exact ⟨hready, (hheap b hi).trans hself, fun a hne ha => (hheap a ha).trans (hother a hne)⟩
  · obtain rfl := Option.some.inj hd
    exact ⟨rfl, hself, fun a hne _ => hother a hne⟩

end Sched

end Tp2So
