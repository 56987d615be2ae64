import Tp2So.Programs.IncSteps

/-!
# The final value of `test_sync`

What `global` lacks of its final value is what the processes have still to add, and every step of a
process is one of those that it has left.

* `Stepped`       what a step comes to, one lemma for each position that makes a system call;
* `inc_moves`     what a step of a process adds to `global`, and what it leaves to be done;
* `due_step`      the final value does not change;
* `left_step`     a step less is left;
* `inc_progress`  no deadlock: a process that is asleep waits for one that is inside;
* `test_sync_final`  the run ends, with the right value.
-/

set_option linter.unusedVariables false

namespace Tp2So

/-- the additions that a process has still to make -/
def IncProc.todo (p : IncProc) : Nat :=
  match p.pos with
  | .off => 0
  | .posting => p.n - (p.i + 1)
  | _ => p.n - p.i

def IncProc.rest (p : IncProc) : BitVec 64 := BitVec.ofNat 64 p.todo * p.inc

/-- the steps that it has still to make -/
def IncProc.left (p : IncProc) : Nat :=
  match p.pos with
  | .off => 0
  | .opening => 4 * (p.n - p.i) + 2
  | .loop => 4 * (p.n - p.i) + 1
  | .asleep => 4 * (p.n - p.i)
  | .loading => 4 * (p.n - p.i)
  | .storing => 4 * (p.n - p.i) - 1
  | .posting => 4 * (p.n - p.i) - 2

/-- what `global` is going to be -/
noncomputable def incDue (t : IncSys) : BitVec 64 := t.global + total slots IncProc.rest t.proc

/-- the steps that are left -/
noncomputable def stepsLeft (t : IncSys) : Nat := total slots IncProc.left t.proc

section
variable {t u : IncSys} {r : SemReg} {x : Int → IncProc} {pid q : Int} {a : Nat} {m : Sem}
  {p p' : IncProc} {args : IncArgs} {g g' : BitVec 64}

/-! ## what a step does -/

/-- a process makes one of its steps, by which `global` goes from `g` to `g'` -/
structure Moved (g g' : BitVec 64) (p p' : IncProc) : Prop where
  rest : g' + p'.rest = g + p.rest
  left : p'.left + 1 = p.left

theorem Moved.same (hg : g' = g) (htodo : p'.todo = p.todo) (hinc : p'.inc = p.inc)
    (hleft : p'.left + 1 = p.left) : Moved g g' p p' := by
  refine ⟨?_, hleft⟩
  unfold IncProc.rest
  rw [hg, htodo, hinc]

theorem moved_added (hpos : p.pos = .storing) (haux : p.aux = g) (hlt : p.i < p.n) :
    Moved g p.added.aux p p.added := by
  have htodo : p.todo = (p.n - (p.i + 1)) + 1 := by
    unfold IncProc.todo
    simp only [hpos]
    omega
  have htodo' : p.added.todo = p.n - (p.i + 1) := rfl
  have hinc : p.added.inc = p.inc := rfl
  have haux' : p.added.aux = p.aux + p.inc := rfl
  refine ⟨?_, ?_⟩
  · unfold IncProc.rest
    have hone : BitVec.ofNat 64 1 = 1 := rfl
    rw [htodo, htodo', hinc, haux', haux, BitVec.ofNat_add, hone, add_mul, one_mul, add_assoc,
      add_comm p.inc]
  · unfold IncProc.left
    simp only [hpos]
    show 4 * (p.n - p.i) - 2 + 1 = 4 * (p.n - p.i) - 1
    omega

/-- a move between two positions with as much to do, and with one step less to make -/
theorem moved_to {s : IncPos} (htodo : (p.goto s).todo = p.todo) (hleft : (p.goto s).left + 1 = p.left) :
    Moved g g p (p.goto s) :=
  Moved.same rfl htodo rfl hleft

theorem moved_opened (hpos : p.pos = .opening) (a : Nat) : Moved g g p (p.opened a) := by
  apply Moved.same rfl
  · unfold IncProc.todo
    simp only [hpos]
    rfl
  · rfl
  · unfold IncProc.left
    simp only [hpos]
    rfl

/-- into the critical section, or to sleep before it -/
theorem moved_entered (hpos : p.pos = .loop) {s : IncPos} (hs : s = .asleep ∨ s = .loading) :
    Moved g g p (p.goto s) := by
  have htodo : (p.goto s).todo = p.n - p.i := by
    rcases hs with rfl | rfl <;> rfl
  have hleft : (p.goto s).left = 4 * (p.n - p.i) := by
    rcases hs with rfl | rfl <;> rfl
  apply moved_to
  · rw [htodo]
    unfold IncProc.todo
    simp only [hpos]
  · rw [hleft]
    unfold IncProc.left
    simp only [hpos]

theorem moved_over (hpos : p.pos = .loop) (hge : ¬ p.i < p.n) : Moved g g p (p.goto .off) := by
  have hdone : p.n - p.i = 0 := by omega
  apply moved_to
  · unfold IncProc.todo
    simp only [hpos, hdone]
    rfl
  · unfold IncProc.left
    simp only [hpos, hdone]
    rfl

theorem moved_loaded (hpos : p.pos = .loading) (hlt : p.i < p.n) : Moved g g p (p.loaded g) := by
  apply Moved.same rfl
  · unfold IncProc.todo
    simp only [hpos]
    rfl
  · rfl
  · unfold IncProc.left
    simp only [hpos]
    show 4 * (p.n - p.i) - 1 + 1 = 4 * (p.n - p.i)
    omega

theorem moved_turned (hpos : p.pos = .posting) (hlt : p.i < p.n) : Moved g g p p.turned := by
  apply Moved.same rfl
  · unfold IncProc.todo
    simp only [hpos]
    rfl
  · rfl
  · unfold IncProc.left
    simp only [hpos]
    show 4 * (p.n - (p.i + 1)) + 1 + 1 = 4 * (p.n - p.i) - 2
    omega

/-- a process makes one of its steps, and perhaps another one wakes up -/
def Stepped (t u : IncSys) (pid : Int) : Prop :=
  ∃ p', Moved t.global u.global (t.proc pid) p' ∧ (u.proc = Function.update t.proc pid p' ∨
    ∃ q ∈ slots, q ≠ pid ∧ (t.proc q).pos = .asleep ∧
      u.proc = Function.update (Function.update t.proc pid p') q ((t.proc q).goto .loading))

theorem stepped_opening (hpos : (t.proc pid).pos = .opening) (huse : (t.proc pid).useSem = true)
    (he : incStep t pid = some u) : Stepped t u pid := by
  have hlen : semId.length < maxSemLength := by decide
  unfold incStep at he
  simp only [hpos, huse, if_true] at he
  cases hl : locateSemaphoreByName t.sems semId with
  | none =>
    rw [SemReg.semOpen_new hlen hl] at he
    obtain rfl := Option.some.inj he
    exact ⟨_, moved_opened hpos _, Or.inl rfl⟩
  | some a =>
    rw [SemReg.semOpen_found hlen hl] at he
    obtain rfl := Option.some.inj he
    exact ⟨_, moved_opened hpos _, Or.inl rfl⟩

theorem stepped_loop (hpos : (t.proc pid).pos = .loop) (huse : (t.proc pid).useSem = true)
    (he : incStep t pid = some u) : Stepped t u pid := by
  unfold incStep at he
  by_cases hlt : (t.proc pid).i < (t.proc pid).n
  · simp only [hpos, huse, if_true, if_pos hlt] at he
    split at he
    · obtain rfl := Option.some.inj he
      exact ⟨_, moved_entered hpos (Or.inl rfl), Or.inl rfl⟩
    · obtain rfl := Option.some.inj he
      exact ⟨_, moved_entered hpos (Or.inr rfl), Or.inl rfl⟩
  · simp only [hpos, huse, if_true, if_neg hlt] at he
    obtain rfl := Option.some.inj he
    exact ⟨_, moved_over hpos hlt, Or.inl rfl⟩

/-- the post wakes the process at the head of the queue, which is asleep -/
theorem stepped_posting (h : IncInv t) (hpos : (t.proc pid).pos = .posting)
    (huse : (t.proc pid).useSem = true) (hlt : (t.proc pid).i < (t.proc pid).n)
    (he : incStep t pid = some u) : Stepped t u pid := by
  obtain ⟨m, hu⟩ := h.use pid (by rw [hpos]; rfl)
  unfold incStep postReg at he
  simp only [hpos, huse, if_true, if_pos (h.wf.valid hu.there), hu.there] at he
  cases hd : dequeue m.blockedProcesses with
  | none =>
    simp only [hd] at he
    obtain rfl := Option.some.inj he
    exact ⟨_, moved_turned hpos hlt, Or.inl rfl⟩
  | some y =>
    obtain ⟨q, rest⟩ := y
    have hasleep : (t.proc q).pos = .asleep :=
      (hu.queue q).mp (by rw [dequeue_eq_some hd]; exact List.mem_cons_self)
    have hne : q ≠ pid := by
      intro e
      rw [e, hpos] at hasleep
      exact absurd hasleep IncPos.noConfusion
    simp only [hd] at he
    obtain rfl := Option.some.inj he
    exact ⟨_, moved_turned hpos hlt, Or.inr ⟨q, h.range q (by rw [hasleep]; decide), hne, hasleep, rfl⟩⟩

/-- **A step of a process**, and perhaps another one that wakes up. -/
theorem inc_moves (h : IncInv t) (he : incStep t pid = some u) : pid ∈ slots ∧ Stepped t u pid := by
  have hactive : (t.proc pid).pos ≠ .off → pid ∈ slots ∧ (t.proc pid).useSem = true := h.active pid
  have hfine := h.fine pid
  cases hpos : (t.proc pid).pos with
  | off =>
    unfold incStep at he
    simp only [hpos] at he
    exact absurd he (by simp)
  | asleep =>
    unfold incStep at he
    simp only [hpos] at he
    exact absurd he (by simp)
  | opening =>
    obtain ⟨hin, huse⟩ := hactive (by rw [hpos]; decide)
    exact ⟨hin, stepped_opening hpos huse he⟩
  | loop =>
    obtain ⟨hin, huse⟩ := hactive (by rw [hpos]; decide)
    exact ⟨hin, stepped_loop hpos huse he⟩
  | loading =>
    obtain ⟨hin, -⟩ := hactive (by rw [hpos]; decide)
    have hlt := hfine.count (Or.inr (by rw [hpos]; rfl))
    unfold incStep at he
    simp only [hpos] at he
    obtain rfl := Option.some.inj he
    exact ⟨hin, _, moved_loaded hpos hlt, Or.inl rfl⟩
  | storing =>
    obtain ⟨hin, -⟩ := hactive (by rw [hpos]; decide)
    have hlt := hfine.count (Or.inr (by rw [hpos]; rfl))
    unfold incStep at he
    simp only [hpos] at he
    obtain rfl := Option.some.inj he
    exact ⟨hin, _, moved_added hpos (hfine.aux hpos) hlt, Or.inl rfl⟩
  | posting =>
    obtain ⟨hin, huse⟩ := hactive (by rw [hpos]; decide)
    have hlt := hfine.count (Or.inr (by rw [hpos]; rfl))
    exact ⟨hin, stepped_posting h hpos huse hlt he⟩

/-! ## the accounts -/

theorem woken_rest (hasleep : p.pos = .asleep) : (p.goto .loading).rest = p.rest := by
  unfold IncProc.rest IncProc.todo
  rw [hasleep]
  rfl

theorem woken_left (hasleep : p.pos = .asleep) : (p.goto .loading).left = p.left := by
  unfold IncProc.left
  rw [hasleep]
  rfl

theorem due_step (h : IncInv t) (he : incStep t pid = some u) :
    incDue u = incDue t ∧ stepsLeft u + 1 = stepsLeft t := by
  obtain ⟨hin, p', ⟨hrest, hleft⟩, hproc⟩ := inc_moves h he
  have hr := total_update hin IncProc.rest t.proc p'
  have hl := total_update hin IncProc.left t.proc p'
  obtain ⟨y, hy⟩ : ∃ y, y = Function.update t.proc pid p' := ⟨_, rfl⟩
  rw [← hy] at hr hl hproc
  have hsame : total slots IncProc.rest u.proc = total slots IncProc.rest y ∧
      total slots IncProc.left u.proc = total slots IncProc.left y := by
    rcases hproc with hproc | ⟨q, hq, hne, hasleep, hproc⟩
    · rw [hproc]
      exact ⟨rfl, rfl⟩
    · have hyq : y q = t.proc q := by
        rw [hy]
        exact Function.update_of_ne hne ..
      have hr' := total_update hq IncProc.rest y ((t.proc q).goto .loading)
      have hl' := total_update hq IncProc.left y ((t.proc q).goto .loading)
      rw [hyq, woken_rest hasleep] at hr'
      rw [hyq, woken_left hasleep] at hl'
      rw [hproc]
      exact ⟨add_right_cancel hr', add_right_cancel hl'⟩
  refine ⟨?_, ?_⟩
  · apply add_right_cancel (b := (t.proc pid).rest)
    unfold incDue
    rw [hsame.1, add_assoc, hr, add_comm (total slots IncProc.rest t.proc), ← add_assoc, hrest,
      add_assoc, add_assoc, add_comm (t.proc pid).rest]
  · unfold stepsLeft
    rw [hsame.2]
    omega

/-- what a process is going to add -/
def IncArgs.gain (args : IncArgs) : BitVec 64 :=
  (myProcessInc args).elim 0 fun p => BitVec.ofNat 64 p.n * p.inc

/-- how many steps it is going to make -/
def IncArgs.work (args : IncArgs) : Nat := (myProcessInc args).elim 0 fun p => 4 * p.n + 2

def IncOp.gain : IncOp → BitVec 64
  | .start _ args => args.gain
  | .step _ => 0

def IncOp.work : IncOp → Nat
  | .start _ args => args.work
  | .step _ => 0

def IncOp.steps : IncOp → Nat
  | .start _ _ => 0
  | .step _ => 1

theorem due_start (hin : pid ∈ slots) (he : execInc (.start pid args) t = some u) :
    incDue u = incDue t + args.gain ∧ stepsLeft u = stepsLeft t + args.work := by
  obtain ⟨hoff, ⟨hm, rfl⟩ | ⟨p, hm, rfl⟩⟩ := execInc_start he
  · unfold IncArgs.gain IncArgs.work
    rw [hm]
    exact ⟨(add_zero _).symm, rfl⟩
  · obtain ⟨hpos, hi, -, -, -⟩ := myProcessInc_some hm
    have hnone : (t.proc pid).rest = 0 ∧ (t.proc pid).left = 0 := by
      unfold IncProc.rest IncProc.todo IncProc.left
      rw [hoff]
      exact ⟨zero_mul _, rfl⟩
    have hall : p.rest = args.gain ∧ p.left = args.work := by
      unfold IncProc.rest IncProc.todo IncProc.left IncArgs.gain IncArgs.work
      rw [hm, hpos, hi]
      exact ⟨rfl, rfl⟩
    have hr := total_update hin IncProc.rest t.proc p
    have hl := total_update hin IncProc.left t.proc p
    rw [hnone.1, add_zero, hall.1] at hr
    rw [hnone.2, add_zero, hall.2] at hl
    refine ⟨?_, hl⟩
    show t.global + total slots IncProc.rest (Function.update t.proc pid p) = _
    rw [hr, ← add_assoc]
    rfl

theorem account_step (o : IncOp) (t u : IncSys) (h : IncInv t) (hg : o.guarded = true)
    (he : execInc o t = some u) :
    incDue u = incDue t + o.gain ∧ stepsLeft u + o.steps = stepsLeft t + o.work := by
  cases o with
  | start pid args =>
    obtain ⟨h0, h1⟩ := of_decide_eq_true (Bool.and_eq_true_iff.mp hg).1
    exact due_start (mem_slots h0 h1) he
  | step pid =>
    obtain ⟨hdue, hleft⟩ := due_step h he
    exact ⟨hdue.trans (add_zero _).symm, hleft⟩

/-! ## progress -/

theorem exists_inside (h : IncInv t) (hpos : 0 < insideOf t.proc) :
    ∃ pid, (t.proc pid).pos.inside = true := by
  unfold insideOf at hpos
  obtain ⟨pid, -, hin⟩ := exists_of_total hpos
  refine ⟨pid, ?_⟩
  cases hi : (t.proc pid).pos.inside with
  | true => rfl
  | false =>
    rw [hi] at hin
    exact absurd hin (Nat.lt_irrefl 0)

/-- a process that is neither off nor asleep can make its step -/
theorem inc_enabled (hoff : (t.proc pid).pos ≠ .off) (hawake : (t.proc pid).pos ≠ .asleep) :
    (incStep t pid).isSome = true := by
  unfold incStep
  cases hpos : (t.proc pid).pos with
  | off => exact absurd hpos hoff
  | asleep => exact absurd hpos hawake
  | opening =>
    simp only [hpos]
    split
    · split <;> rfl
    · rfl
  | loop =>
    simp only [hpos]
    split
    · split
      · split <;> rfl
      · rfl
    · split <;> rfl
  | loading =>
    simp only [hpos]
    rfl
  | storing =>
    simp only [hpos]
    rfl
  | posting =>
    simp only [hpos]
    split
    · split <;> rfl
    · rfl

/-- **No deadlock.** -/
theorem inc_progress (h : IncInv t) (hoff : (t.proc pid).pos ≠ .off) :
    ∃ q, (execInc (.step q) t).isSome = true := by
  by_cases hasleep : (t.proc pid).pos = .asleep
  · -- somebody has the token
    obtain ⟨m, hu⟩ := h.use pid (by rw [hasleep]; rfl)
    have hmem := (hu.queue pid).mpr hasleep
    have hzero : m.value = 0 := by
      by_contra hv
      rw [hu.full hv] at hmem
      exact List.not_mem_nil hmem
    have htoken := hu.token
    obtain ⟨q, hq⟩ := exists_inside h (by omega)
    refine ⟨q, inc_enabled ?_ ?_⟩
    · intro e
      rw [e] at hq
      exact absurd hq Bool.false_ne_true
    · intro e
      rw [e] at hq
      exact absurd hq Bool.false_ne_true
  · exact ⟨pid, inc_enabled hoff hasleep⟩

/-! ## runs -/

/-- the arguments of the processes that are started -/
def started : List IncOp → List IncArgs
  | [] => []
  | .start _ args :: os => args :: started os
  | .step _ :: os => started os

theorem amount_gain (os : List IncOp) : amount IncOp.gain os = ((started os).map IncArgs.gain).sum := by
  induction os with
  | nil => rfl
  | cons o os ih =>
    cases o with
    | start pid args =>
      show args.gain + amount IncOp.gain os = (args.gain :: (started os).map IncArgs.gain).sum
      rw [ih, List.sum_cons]
    | step pid =>
      show 0 + amount IncOp.gain os = _
      rw [zero_add]
      exact ih

/-- the processes of `_test_sync` add nothing -/
theorem sum_testSyncArgs (value useSem : List Char) :
    ((testSyncArgs value useSem).map IncArgs.gain).sum = 0 := by
  have hdec : satoi ['-', '1'] = -1 := by decide
  have hinc : satoi ['1'] = 1 := by decide
  have hgain : ∀ inc : List Char, satoi inc ≠ 0 → IncArgs.gain { n := value, inc, useSem }
      = if satoi value = 0 ∨ ((satoi useSem).truncate 8).msb = true then 0
        else satoi value * satoi inc := by
    intro inc hne
    unfold IncArgs.gain myProcessInc
    simp only [hne, false_or]
    split
    · rfl
    · simp only [Option.elim_some, BitVec.ofNat_toNat, BitVec.setWidth_eq]
  unfold testSyncArgs
  simp only [List.map_cons, List.map_nil, List.sum_cons, List.sum_nil]
  rw [hgain _ (by rw [hdec]; decide), hgain _ (by rw [hinc]; decide), hdec, hinc]
  split
  · rfl
  · ring

theorem inc_begin (hr : r.Wf) (hnew : locateSemaphoreByName r semId = none) : IncInv (.begin r) := by
  refine ⟨hr, fun pid hp => absurd rfl hp, fun pid => ?_, Or.inl ⟨?_, hnew⟩⟩
  · refine ⟨fun hp => absurd rfl hp, fun hc => ?_, fun e => absurd e IncPos.noConfusion⟩
    rcases hc with e | e
    · exact absurd e IncPos.noConfusion
    · exact absurd e Bool.false_ne_true
  · unfold usersOf
    exact total_eq_zero fun pid _ => rfl

/-- **`test_sync` with its semaphore.**  Any number of processes run in any order, each one opening and
closing the semaphore for itself.  At most one of them is between its wait and its post; as long as
one has not finished, one can make a step; the steps are at most those that the arguments ask for; and
when all have finished, `global` is the sum of what they were to add: `0` for those of `_test_sync`. -/
theorem test_sync_final {os : List IncOp} (hr : r.Wf)
    (hnew : locateSemaphoreByName r semId = none)
    (hrun : Runs execInc (fun o _ => o.guarded = true) os (.begin r) t) :
    (∀ pid q, (t.proc pid).pos.inside = true → (t.proc q).pos.inside = true → pid = q) ∧
    ((∃ pid, (t.proc pid).pos ≠ .off) → ∃ q, (execInc (.step q) t).isSome = true) ∧
    amount IncOp.steps os ≤ amount IncOp.work os ∧
    ((∀ pid, (t.proc pid).pos = .off) → t.global = ((started os).map IncArgs.gain).sum ∧
      ∀ value useSem, (started os).Perm (testSyncArgs value useSem) → t.global = 0) := by
  have hbegin := inc_begin hr hnew
  have hinv : IncInv t := Runs.inv (I := IncInv) inc_step hrun hbegin
  have hzero : incDue (.begin r) = 0 ∧ stepsLeft (.begin r) = 0 := by
    refine ⟨?_, total_eq_zero fun pid _ => rfl⟩
    unfold incDue
    rw [total_eq_zero fun pid _ => zero_mul _]
    exact add_zero _
  have hdue := Runs.account (I := IncInv) (m := incDue) (w := IncOp.gain)
    (fun o s u hs ho he => ⟨inc_step o s u hs ho he, (account_step o s u hs ho he).1⟩) hrun hbegin
  have hsteps := Runs.budget (I := IncInv) (m := stepsLeft) (c := IncOp.steps) (g := IncOp.work)
    (fun o s u hs ho he => ⟨inc_step o s u hs ho he, Nat.le_of_eq (account_step o s u hs ho he).2⟩)
    hrun hbegin
  rw [hzero.1, zero_add, amount_gain] at hdue
  refine ⟨fun pid q hp hq => ?_, fun ⟨pid, hp⟩ => inc_progress hinv hp, by omega, fun hoff => ?_⟩
  · obtain ⟨m, hu⟩ := hinv.use pid (holds_of_inside hp)
    have hon : ∀ c, (t.proc c).pos.inside = true → (t.proc c).pos ≠ .off := by
      intro c hc e
      rw [e] at hc
      exact absurd hc Bool.false_ne_true
    exact hu.exclusive (hinv.range pid (hon pid hp)) (hinv.range q (hon q hq)) hp hq
  · have hglobal : incDue t = t.global := by
      have hnone : ∀ pid ∈ slots, (t.proc pid).rest = 0 := by
        intro pid _
        unfold IncProc.rest IncProc.todo
        rw [hoff pid]
        exact zero_mul _
      unfold incDue
      rw [total_eq_zero hnone]
      exact add_zero _
    rw [← hglobal, hdue]
    refine ⟨rfl, fun value useSem hperm => ?_⟩
    rw [(hperm.map IncArgs.gain).sum_eq]
    exact sum_testSyncArgs value useSem

end

/-- the four processes of `test_sync 1 1`; the second one sleeps until the first one posts -/
def incRace : List IncOp :=
  let starts := [2, 3, 4, 5].zip (testSyncArgs ['1'] ['1'])
  starts.map (fun x => .start x.1 x.2) ++
    [2, 3, 2, 3, 2, 2, 2, 3, 4, 4, 3, 3, 2, 3, 4, 4, 4, 5, 4, 5, 5, 5, 5, 5].map .step

theorem test_sync_final_race : ∃ t, Runs execInc (fun o _ => o.guarded = true) incRace
      (.begin initSemQueue) t ∧ t.global = 0 ∧
    (∀ pid q, (t.proc pid).pos.inside = true → (t.proc q).pos.inside = true → pid = q) ∧
    amount IncOp.steps incRace ≤ amount IncOp.work incRace := by
  have hrun : (runIf execInc (fun o _ => o.guarded) incRace (.begin initSemQueue)).map
      (fun t => t.global) = some 0 := by decide +kernel
  obtain ⟨t, ht, hglobal⟩ := Option.map_eq_some_iff.mp hrun
  have hr := runs_of_runIf ht
  obtain ⟨hone, -, hsteps, -⟩ := test_sync_final SemReg.wf_init rfl hr
  exact ⟨t, hr, hglobal, hone, hsteps⟩

end Tp2So
