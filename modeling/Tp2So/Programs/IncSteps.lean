import Tp2So.Programs.Exclusion

/-!
# The steps of the processes of `test_sync`

Each of them keeps the invariant `IncInv`.

* `inc_opening`, …, `inc_posting`   the steps of a process, in the order in which it makes them;
* `SemUse.handover`  a post that wakes a process up;
* `inc_step`         any step.
-/

set_option linter.unusedVariables false

namespace Tp2So

section
variable {t u : IncSys} {r : SemReg} {x : Int → IncProc} {pid q : Int} {a : Nat} {m : Sem}
  {p p' : IncProc} {args : IncArgs}

/-! ## steps -/

theorem IncInv.active (h : IncInv t) (pid : Int) (hpos : (t.proc pid).pos ≠ .off) :
    pid ∈ slots ∧ (t.proc pid).useSem = true := ⟨h.range pid hpos, (h.fine pid).useSem hpos⟩

theorem fine_goto (h : (t.proc pid).Fine t.global) (huse : (t.proc pid).useSem = true) {s : IncPos}
    (hcount : s = .asleep ∨ s.inside = true → (t.proc pid).i < (t.proc pid).n) (hs : s ≠ .storing) :
    IncProc.Fine t.global ((t.proc pid).goto s) :=
  ⟨fun _ => huse, hcount, fun e => absurd e hs⟩

/-- nobody has the semaphore open: it is created -/
theorem IncInv.create (h : IncInv t) (hp : pid ∈ slots) (hzero : usersOf t.proc = 0)
    (hnone : locateSemaphoreByName t.sems semId = none) (hold : (t.proc pid).pos.holds = false)
    (hout : (t.proc pid).pos.inside = false) (hpos : p'.pos = .loop) (hsem : p'.sem = t.sems.next) :
    SemUse (t.sems.add (SemReg.fresh semId 1)) (Function.update t.proc pid p') t.sems.next
      (SemReg.fresh semId 1) := by
  have hnobody : ∀ q, (t.proc q).pos.holds = false := by
    intro q
    by_cases hq : (t.proc q).pos = .off
    · rw [hq]
      rfl
    · exact holds_of_users hzero (h.range q hq)
  have hinside : insideOf t.proc = 0 := by
    have hle := inside_le_users t.proc
    omega
  have hothers : ∀ q, q ≠ pid → (Function.update t.proc pid p' q).pos.holds = false := by
    intro q hq
    rw [Function.update_of_ne hq]
    exact hnobody q
  have hmu : usersOf (Function.update t.proc pid p') = 1 := by
    have hsum := users_update (x := t.proc) hp p'
    rw [hold, hpos, hzero] at hsum
    exact hsum
  have hmi : insideOf (Function.update t.proc pid p') = 0 := by
    have hsum := inside_update (x := t.proc) hp p'
    rw [hout, hpos, hinside] at hsum
    exact hsum
  refine ⟨Function.update_self .., rfl, fun q hq => ?_, ?_, ?_, fun q => ?_, List.nodup_nil,
    fun _ => rfl⟩
  · by_cases e : q = pid
    · rw [e, Function.update_self, hsem]
    · exact absurd ((hothers q e).symm.trans hq) Bool.false_ne_true
  · rw [hmu]
    rfl
  · rw [hmi]
    rfl
  · refine iff_of_false List.not_mem_nil fun hq => ?_
    by_cases e : q = pid
    · rw [e, Function.update_self, hpos] at hq
      exact absurd hq IncPos.noConfusion
    · have hno := hothers q e
      rw [hq] at hno
      exact absurd hno.symm Bool.false_ne_true

theorem inc_opening (h : IncInv t) (hpos : (t.proc pid).pos = .opening) (he : incStep t pid = some u) :
    IncInv u := by
  obtain ⟨hp, huse⟩ := h.active pid (by rw [hpos]; decide)
  have hlen : semId.length < maxSemLength := by decide
  have hfine : ∀ a, IncProc.Fine t.global ((t.proc pid).opened a) := by
    intro a
    refine ⟨fun _ => huse, fun hc => ?_, fun e => absurd e IncPos.noConfusion⟩
    rcases hc with e | e
    · exact absurd e IncPos.noConfusion
    · exact absurd e Bool.false_ne_true
  unfold incStep at he
  simp only [hpos, huse, if_true] at he
  rcases h.sem with ⟨hzero, hnone⟩ | ⟨a, m, hu⟩
  · rw [SemReg.semOpen_new hlen hnone] at he
    obtain rfl := Option.some.inj he
    have hnames := fun b n hn => h.wf.locate_none hnone (a := b) (m := n) hn
    refine ⟨h.wf.add hnames, range_update h.range hp _, fine_update h.fine (hfine _) pid,
      Or.inr ⟨_, _, h.create hp hzero hnone ?_ ?_ rfl rfl⟩⟩
    · rw [hpos]
      rfl
    · rw [hpos]
      rfl
  · have hloc : locateSemaphoreByName t.sems semId = some a := by
      rw [← hu.name]
      exact h.wf.locate hu.there
    rw [SemReg.semOpen_found hlen hloc] at he
    obtain rfl := Option.some.inj he
    have hroom : m.users + 1 < 65536 := by
      have hle := users_le t.proc
      have husers := hu.users
      omega
    have hinc : inc16 m.users = m.users + 1 := Nat.mod_eq_of_lt hroom
    refine ⟨h.wf.modify a fun _ => rfl, range_update h.range hp _, fine_update h.fine (hfine a) pid,
      Or.inr ⟨a, SemReg.moreUsers m, hu.move hp rfl (fun _ => rfl) ?_ ?_ ?_ hu.nodup hu.full⟩⟩
    · rw [hpos]
      show inc16 m.users + 0 = m.users + 1
      rw [hinc]
    · rw [hpos]
      rfl
    · apply hu.queue_same
      · rw [hpos]
        decide
      · exact IncPos.noConfusion

theorem inc_loading (h : IncInv t) (hpos : (t.proc pid).pos = .loading) (he : incStep t pid = some u) :
    IncInv u := by
  obtain ⟨hp, huse⟩ := h.active pid (by rw [hpos]; decide)
  obtain ⟨m, hu⟩ := h.use pid (by rw [hpos]; rfl)
  have hcount : (t.proc pid).i < (t.proc pid).n := (h.fine pid).count (Or.inr (by rw [hpos]; rfl))
  unfold incStep at he
  simp only [hpos] at he
  obtain rfl := Option.some.inj he
  have hfine : IncProc.Fine t.global ((t.proc pid).loaded t.global) :=
    ⟨fun _ => huse, fun _ => hcount, fun _ => rfl⟩
  have hwalk : SemUse t.sems (Function.update t.proc pid ((t.proc pid).loaded t.global))
      (t.proc pid).sem m := by
    apply hu.walk hp
    · rw [hpos]
      decide
    · exact IncPos.noConfusion
    · exact fun _ => rfl
    · rw [hpos]
      rfl
    · rw [hpos]
      rfl
  exact ⟨h.wf, range_update h.range hp _, fine_update h.fine hfine pid, Or.inr ⟨_, m, hwalk⟩⟩

theorem inc_storing (h : IncInv t) (hpos : (t.proc pid).pos = .storing) (he : incStep t pid = some u) :
    IncInv u := by
  obtain ⟨hp, huse⟩ := h.active pid (by rw [hpos]; decide)
  obtain ⟨m, hu⟩ := h.use pid (by rw [hpos]; rfl)
  have hcount : (t.proc pid).i < (t.proc pid).n := (h.fine pid).count (Or.inr (by rw [hpos]; rfl))
  unfold incStep at he
  simp only [hpos] at he
  obtain rfl := Option.some.inj he
  have hwalk : SemUse t.sems (Function.update t.proc pid (t.proc pid).added) (t.proc pid).sem m := by
    apply hu.walk hp
    · rw [hpos]
      decide
    · exact IncPos.noConfusion
    · exact fun _ => rfl
    · rw [hpos]
      rfl
    · rw [hpos]
      rfl
  refine ⟨h.wf, range_update h.range hp _, fun q => ?_, Or.inr ⟨_, m, hwalk⟩⟩
  show IncProc.Fine (t.proc pid).added.aux (Function.update t.proc pid (t.proc pid).added q)
  by_cases e : q = pid
  · rw [e, Function.update_self]
    exact ⟨fun _ => huse, fun _ => hcount, fun e => absurd e IncPos.noConfusion⟩
  · -- nobody else has read `global`
    rw [Function.update_of_ne e]
    refine ⟨(h.fine q).useSem, (h.fine q).count, fun hq => ?_⟩
    have hq' : (t.proc q).pos ≠ .off := by
      rw [hq]
      decide
    exact absurd (hu.exclusive (h.range q hq') hp (by rw [hq]; rfl) (by rw [hpos]; rfl)) e

/-- `my_sem_wait` -/
theorem inc_wait (h : IncInv t) (hpos : (t.proc pid).pos = .loop)
    (hlt : (t.proc pid).i < (t.proc pid).n) (he : incStep t pid = some u) : IncInv u := by
  obtain ⟨hp, huse⟩ := h.active pid (by rw [hpos]; decide)
  obtain ⟨m, hu⟩ := h.use pid (by rw [hpos]; rfl)
  have htoken := hu.token
  unfold incStep waitReg at he
  simp only [hpos, huse, if_true, if_pos hlt, if_pos (h.wf.valid hu.there), hu.there] at he
  by_cases hv : m.value = 0
  · -- the process falls asleep
    simp only [if_pos hv] at he
    obtain rfl := Option.some.inj he
    have hnew : pid ∉ m.blockedProcesses.elems := by
      rw [hu.queue pid, hpos]
      exact IncPos.noConfusion
    have hmove : SemUse (t.sems.modify (t.proc pid).sem (queueSem pid))
        (Function.update t.proc pid ((t.proc pid).goto .asleep)) (t.proc pid).sem (queueSem pid m) := by
      refine hu.move hp rfl (fun _ => rfl) ?_ ?_ ?_ ?_ ?_
      · rw [hpos]
        rfl
      · rw [hpos]
        rfl
      · intro q
        show q ∈ m.blockedProcesses.elems ++ [pid] ↔ _
        rw [List.mem_append, List.mem_singleton, hu.queue q]
        by_cases e : q = pid
        · rw [e, Function.update_self]
          exact iff_of_true (Or.inr rfl) rfl
        · rw [Function.update_of_ne e]
          exact or_iff_left e
      · show (m.blockedProcesses.elems ++ [pid]).Nodup
        rw [List.nodup_append]
        refine ⟨hu.nodup, List.nodup_singleton _, fun q hq q' hq' e => hnew ?_⟩
        rw [← List.mem_singleton.mp hq', ← e]
        exact hq
      · exact fun hne => absurd hv hne
    exact ⟨h.wf.modify _ fun _ => rfl, range_update h.range hp _,
      fine_update h.fine (fine_goto (h.fine pid) huse (fun _ => hlt) IncPos.noConfusion) pid,
      Or.inr ⟨_, _, hmove⟩⟩
  · -- it takes the token
    simp only [if_neg hv] at he
    obtain rfl := Option.some.inj he
    have hmove : SemUse (t.sems.modify (t.proc pid).sem takeSem)
        (Function.update t.proc pid ((t.proc pid).goto .loading)) (t.proc pid).sem (takeSem m) := by
      refine hu.move hp rfl (fun _ => rfl) ?_ ?_ ?_ ?_ ?_
      · rw [hpos]
        rfl
      · rw [hpos]
        show m.value - 1 + 1 = m.value + 0
        omega
      · apply hu.queue_same
        · rw [hpos]
          decide
        · exact IncPos.noConfusion
      · exact hu.nodup
      · exact fun _ => hu.full hv
    exact ⟨h.wf.modify _ fun _ => rfl, range_update h.range hp _,
      fine_update h.fine (fine_goto (h.fine pid) huse (fun _ => hlt) IncPos.noConfusion) pid,
      Or.inr ⟨_, _, hmove⟩⟩

/-- `my_sem_close` -/
theorem inc_close (h : IncInv t) (hpos : (t.proc pid).pos = .loop)
    (hlt : ¬ (t.proc pid).i < (t.proc pid).n) (he : incStep t pid = some u) : IncInv u := by
  obtain ⟨hp, huse⟩ := h.active pid (by rw [hpos]; decide)
  obtain ⟨m, hu⟩ := h.use pid (by rw [hpos]; rfl)
  have hleft := users_update (x := t.proc) hp ((t.proc pid).goto .off)
  have hone : IncPos.loop.holds.toNat = 1 := rfl
  have hgone : ((t.proc pid).goto .off).pos.holds.toNat = 0 := rfl
  rw [hpos, hone, hgone] at hleft
  have hmu := hu.users
  have hsmall := users_le t.proc
  have hfine : IncProc.Fine t.global ((t.proc pid).goto .off) := by
    refine ⟨fun hne => absurd rfl hne, fun hc => ?_, fun e => absurd e IncPos.noConfusion⟩
    rcases hc with e | e
    · exact absurd e IncPos.noConfusion
    · exact absurd e Bool.false_ne_true
  unfold incStep semClose at he
  simp only [hpos, huse, if_true, if_neg hlt, if_pos (h.wf.valid hu.there), hu.there] at he
  by_cases hlast : m.users = 1
  · -- the last one
    have hzero : dec16 m.users = 0 := by
      rw [hlast]
      rfl
    simp only [hzero, ne_eq, not_true_eq_false, if_false] at he
    obtain rfl := Option.some.inj he
    have hnone : locateSemaphoreByName (t.sems.drop (t.proc pid).sem) semId = none := by
      cases hl : locateSemaphoreByName (t.sems.drop (t.proc pid).sem) semId with
      | none => rfl
      | some b =>
        obtain ⟨n, hn, hname⟩ := SemReg.locate_some hl
        obtain ⟨hne, hn⟩ := SemReg.drop_heap hn
        exact absurd (h.wf.names _ _ _ _ hn hu.there (hname.trans hu.name.symm)) hne
    refine ⟨h.wf.drop _, range_update h.range hp _, fine_update h.fine hfine pid, Or.inl ⟨?_, hnone⟩⟩
    show usersOf (Function.update t.proc pid ((t.proc pid).goto .off)) = 0
    omega
  · have hne : dec16 m.users ≠ 0 := by
      unfold dec16
      omega
    simp only [ne_eq, hne, not_false_eq_true, if_true] at he
    obtain rfl := Option.some.inj he
    have hdec : dec16 m.users = m.users - 1 := by
      unfold dec16
      omega
    have hmove : SemUse (t.sems.modify (t.proc pid).sem SemReg.lessUsers)
        (Function.update t.proc pid ((t.proc pid).goto .off)) (t.proc pid).sem
        (SemReg.lessUsers m) := by
      obtain ⟨hname, hvalue, hqueue⟩ := SemReg.alike_lessUsers m
      refine hu.move hp hname ?_ ?_ ?_ ?_ ?_ ?_
      · exact fun e => absurd e Bool.false_ne_true
      · rw [hpos]
        show dec16 m.users + 1 = m.users + 0
        omega
      · rw [hpos, hvalue]
        rfl
      · rw [hqueue]
        apply hu.queue_same
        · rw [hpos]
          decide
        · exact IncPos.noConfusion
      · rw [hqueue]
        exact hu.nodup
      · rw [hqueue, hvalue]
        exact hu.full
    exact ⟨h.wf.modify _ fun m => (SemReg.alike_lessUsers m).1, range_update h.range hp _,
      fine_update h.fine hfine pid, Or.inr ⟨_, _, hmove⟩⟩

theorem fine_turned (h : (t.proc pid).Fine t.global) (huse : (t.proc pid).useSem = true) :
    IncProc.Fine t.global (t.proc pid).turned := by
  refine ⟨fun _ => huse, fun hc => ?_, fun e => absurd e IncPos.noConfusion⟩
  rcases hc with e | e
  · exact absurd e IncPos.noConfusion
  · exact absurd e Bool.false_ne_true

/-- the token goes to the process that has waited longest -/
theorem SemUse.handover {m' : Sem} (h : SemUse r x a m) (r' : SemReg) (hp : pid ∈ slots)
    (hq : q ∈ slots) (hne : q ≠ pid)
    (hpos : (x pid).pos = .posting) (hold : (x pid).sem = a) {rest : List Int}
    (he : m.blockedProcesses.elems = q :: rest) (hthere : r'.heap a = some m')
    (hname : m'.name = m.name) (husers : m'.users = m.users) (hvalue : m'.value = m.value)
    (hqueue : m'.blockedProcesses.elems = rest) :
    SemUse r' (Function.update (Function.update x pid (x pid).turned) q ((x q).goto .loading)) a m' := by
  have hasleep : (x q).pos = .asleep := (h.queue q).mp (by rw [he]; exact List.mem_cons_self)
  have hsemq : (x q).sem = a := h.handle q (by rw [hasleep]; rfl)
  have hnd := h.nodup
  rw [he] at hnd
  obtain ⟨y, hy⟩ : ∃ y, y = Function.update x pid (x pid).turned := ⟨_, rfl⟩
  have hyq : y q = x q := by
    rw [hy]
    exact Function.update_of_ne hne ..
  have hu1 := users_update (x := x) hp (x pid).turned
  have hi1 := inside_update (x := x) hp (x pid).turned
  rw [← hy] at hu1 hi1 ⊢
  have hu2 := users_update (x := y) hq ((x q).goto .loading)
  have hi2 := inside_update (x := y) hq ((x q).goto .loading)
  rw [hyq, hasleep] at hu2 hi2
  rw [hpos] at hu1 hi1
  have hu1' : usersOf y + 1 = usersOf x + 1 := hu1
  have hi1' : insideOf y + 1 = insideOf x + 0 := hi1
  have hu2' : usersOf (Function.update y q ((x q).goto .loading)) + 1 = usersOf y + 1 := hu2
  have hi2' : insideOf (Function.update y q ((x q).goto .loading)) + 0 = insideOf y + 1 := hi2
  have hmu := h.users
  have hmt := h.token
  refine ⟨hthere, hname.trans h.name, fun c hc => ?_, by omega, by omega, fun c => ?_, ?_,
    fun hv => ?_⟩
  · by_cases e : c = q
    · rw [e, Function.update_self]
      exact hsemq
    · rw [Function.update_of_ne e, hy] at hc ⊢
      by_cases e' : c = pid
      · rw [e', Function.update_self]
        exact hold
      · rw [Function.update_of_ne e'] at hc ⊢
        exact h.handle c hc
  · rw [hqueue]
    by_cases e : c = q
    · rw [e, Function.update_self]
      exact iff_of_false (List.nodup_cons.mp hnd).1 IncPos.noConfusion
    · have hmem : c ∈ rest ↔ (x c).pos = .asleep := by
        rw [← h.queue c, he, List.mem_cons]
        exact (or_iff_right e).symm
      rw [Function.update_of_ne e, hmem, hy]
      by_cases e' : c = pid
      · rw [e', Function.update_self, hpos]
        exact iff_of_false IncPos.noConfusion IncPos.noConfusion
      · rw [Function.update_of_ne e']
  · rw [hqueue]
    exact (List.nodup_cons.mp hnd).2
  · have hempty := h.full (by rw [← hvalue]; exact hv)
    rw [he] at hempty
    exact absurd hempty (List.cons_ne_nil _ _)

/-- `my_sem_post` -/
theorem inc_posting (h : IncInv t) (hpos : (t.proc pid).pos = .posting) (he : incStep t pid = some u) :
    IncInv u := by
  obtain ⟨hp, huse⟩ := h.active pid (by rw [hpos]; decide)
  obtain ⟨m, hu⟩ := h.use pid (by rw [hpos]; rfl)
  have hfine := fine_turned (h.fine pid) huse
  unfold incStep postReg at he
  simp only [hpos, huse, if_true, if_pos (h.wf.valid hu.there), hu.there] at he
  cases hd : dequeue m.blockedProcesses with
  | none =>
    -- nobody waits: the token is back
    simp only [hd] at he
    obtain rfl := Option.some.inj he
    have hone : 1 ≤ insideOf t.proc := by
      have hsum := inside_update (x := t.proc) hp (t.proc pid).turned
      have hself : IncPos.posting.inside.toNat = 1 := rfl
      have hout : (t.proc pid).turned.pos.inside.toNat = 0 := rfl
      rw [hpos, hself, hout] at hsum
      omega
    have hzero : m.value = 0 := by
      have htoken := hu.token
      omega
    have hmove : SemUse (t.sems.modify (t.proc pid).sem fun m => { m with value := inc16 m.value })
        (Function.update t.proc pid (t.proc pid).turned) (t.proc pid).sem
        { m with value := inc16 m.value } := by
      refine hu.move (f := fun m => { m with value := inc16 m.value }) hp rfl (fun _ => rfl)
        ?_ ?_ ?_ ?_ ?_
      · rw [hpos]
        rfl
      · rw [hpos]
        show inc16 m.value + 0 = m.value + 1
        rw [hzero]
        rfl
      · apply hu.queue_same
        · rw [hpos]
          decide
        · exact IncPos.noConfusion
      · exact hu.nodup
      · exact fun _ => dequeue_eq_none hd
    exact ⟨h.wf.modify _ fun _ => rfl, range_update h.range hp _, fine_update h.fine hfine pid,
      Or.inr ⟨_, _, hmove⟩⟩
  | some y =>
    obtain ⟨q, rest⟩ := y
    simp only [hd] at he
    obtain rfl := Option.some.inj he
    have helems := dequeue_eq_some hd
    have hasleep : (t.proc q).pos = .asleep := (hu.queue q).mp (by rw [helems]; exact List.mem_cons_self)
    obtain ⟨hq, huseq⟩ := h.active q (by rw [hasleep]; decide)
    have hne : q ≠ pid := by
      intro e
      rw [e, hpos] at hasleep
      exact absurd hasleep IncPos.noConfusion
    have hcount := (h.fine q).count (Or.inl hasleep)
    have hfineq : IncProc.Fine t.global ((t.proc q).goto .loading) :=
      fine_goto (h.fine q) huseq (fun _ => hcount) IncPos.noConfusion
    have hself : heapMod t.sems.heap (t.proc pid).sem (fun m => { m with blockedProcesses := rest })
        (t.proc pid).sem = some { m with blockedProcesses := rest } := by
      rw [heapMod_self, hu.there]
      rfl
    have hgive := hu.handover (t.sems.modify (t.proc pid).sem fun m =>
      { m with blockedProcesses := rest }) hp hq hne hpos rfl helems hself rfl rfl rfl rfl
    exact ⟨h.wf.modify _ fun _ => rfl,
      range_update (range_update h.range hp (t.proc pid).turned) hq _,
      fine_update (fine_update h.fine hfine pid) hfineq q, Or.inr ⟨_, _, hgive⟩⟩

theorem inc_start (h : IncInv t) (hp : pid ∈ slots) (hoff : (t.proc pid).pos = .off)
    (hpos : p.pos = .opening) (huse : p.useSem = true) : IncInv (t.put pid p) := by
  have hfine : IncProc.Fine t.global p := by
    refine ⟨fun _ => huse, fun hc => ?_, fun e => ?_⟩
    · rw [hpos] at hc
      exact absurd hc (by decide)
    · rw [hpos] at e
      exact absurd e IncPos.noConfusion
  have husers : usersOf (Function.update t.proc pid p) = usersOf t.proc := by
    have hsum := users_update (x := t.proc) hp p
    rw [hoff, hpos] at hsum
    exact Nat.add_right_cancel hsum
  refine ⟨h.wf, range_update h.range hp p, fine_update h.fine hfine pid, ?_⟩
  rcases h.sem with ⟨hzero, hnone⟩ | ⟨a, m, hu⟩
  · exact Or.inl ⟨husers.trans hzero, hnone⟩
  · refine Or.inr ⟨a, m, hu.walk hp ?_ ?_ (fun e => ?_) ?_ ?_⟩
    · rw [hoff]
      decide
    · rw [hpos]
      decide
    · rw [hpos] at e
      exact absurd e Bool.false_ne_true
    · rw [hpos, hoff]
      rfl
    · rw [hpos, hoff]
      rfl

/-- a process starts in a slot of the table, and uses the semaphore -/
def IncOp.guarded : IncOp → Bool
  | .start pid args =>
    decide (0 ≤ pid ∧ pid < maxProcesses) && (satoi args.useSem).truncate 8 != (0 : BitVec 8)
  | .step _ => true

theorem myProcessInc_some (hm : myProcessInc args = some p) : p.pos = .opening ∧ p.i = 0 ∧
    p.n = (satoi args.n).toNat ∧ p.inc = satoi args.inc ∧
    p.useSem = ((satoi args.useSem).truncate 8 != (0 : BitVec 8)) := by
  unfold myProcessInc at hm
  simp only at hm
  split at hm
  · exact absurd hm (by simp)
  · obtain rfl := Option.some.inj hm
    exact ⟨rfl, rfl, rfl, rfl, rfl⟩

theorem execInc_start (he : execInc (.start pid args) t = some u) : (t.proc pid).pos = .off ∧
    ((myProcessInc args = none ∧ u = t) ∨ ∃ p, myProcessInc args = some p ∧ u = t.put pid p) := by
  unfold execInc at he
  by_cases hoff : (t.proc pid).pos = .off
  · refine ⟨hoff, ?_⟩
    simp only [if_pos hoff] at he
    cases hm : myProcessInc args with
    | none =>
      simp only [hm] at he
      exact Or.inl ⟨rfl, (Option.some.inj he).symm⟩
    | some p =>
      simp only [hm] at he
      exact Or.inr ⟨p, rfl, (Option.some.inj he).symm⟩
  · simp only [if_neg hoff] at he
    exact absurd he (by simp)

theorem mem_slots (h0 : 0 ≤ pid) (h1 : pid < maxProcesses) : pid ∈ slots := by
  unfold slots
  exact Finset.mem_Ico.mpr ⟨h0, h1⟩

/-- **One step.** -/
theorem inc_step (o : IncOp) (t u : IncSys) (h : IncInv t) (hg : o.guarded = true)
    (he : execInc o t = some u) : IncInv u := by
  cases o with
  | start pid args =>
    obtain ⟨hrange, huse⟩ := Bool.and_eq_true_iff.mp hg
    obtain ⟨h0, h1⟩ := of_decide_eq_true hrange
    obtain ⟨hoff, ⟨-, rfl⟩ | ⟨p, hm, rfl⟩⟩ := execInc_start he
    · exact h
    · obtain ⟨hpos, -, -, -, hsem⟩ := myProcessInc_some hm
      exact inc_start h (mem_slots h0 h1) hoff hpos (hsem.trans huse)
  | step pid =>
    have he' : incStep t pid = some u := he
    cases hpos : (t.proc pid).pos with
    | off =>
      unfold incStep at he'
      simp only [hpos] at he'
      exact absurd he' (by simp)
    | opening => exact inc_opening h hpos he'
    | loop =>
      by_cases hlt : (t.proc pid).i < (t.proc pid).n
      · exact inc_wait h hpos hlt he'
      · exact inc_close h hpos hlt he'
    | asleep =>
      unfold incStep at he'
      simp only [hpos] at he'
      exact absurd he' (by simp)
    | loading => exact inc_loading h hpos he'
    | storing => exact inc_storing h hpos he'
    | posting => exact inc_posting h hpos he'

end

end Tp2So
