import Tp2So.Lib.Tallies
import Tp2So.Sync.Registry
import Tp2So.Programs.TestSync

/-!
# One process at a time in `test_sync`

The semaphore is opened and closed by every process on its own.  It is there as long as somebody has
it open, its token is in it or with the one process between the wait and the post, and what `global`
lacks of the final value is what the processes have still to add.

* `semWait_reg`, `semPost_reg`   the calls of the kernel, and what the registry sees of them;
* `SemUse`        the semaphore and its users;
* `IncInv`        the invariant, which `inc_step` keeps;
* `due`           what `global` will be when everybody has finished, which `due_step` keeps.
-/

set_option linter.unusedVariables false

namespace Tp2So

/-! ## the calls of the kernel -/

section
variable {k : Kernel} {a b : Nat} {p : Process}

theorem semWait_reg (hr : k.sched.running = some b) (hp : k.sched.heap b = some p) :
    ((semWait k a).1, (semWait k a).2.sems) = waitReg k.sems a p.pid := by
  unfold semWait waitReg
  by_cases hv : isSemaphoreValid k.sems a = true
  · rw [if_pos hv, if_pos hv]
    cases hm : k.sems.heap a with
    | none => rfl
    | some m =>
      by_cases h0 : m.value = 0
      · simp only [if_pos h0, hr, hp]
      · simp only [if_neg h0]
  · rw [if_neg hv, if_neg hv]

theorem semPost_reg (k : Kernel) (a : Nat) : (semPost k a).2 = { k with
    sems := (postReg k.sems a).2
    sched := (postReg k.sems a).1.elim k.sched (wakePid k.sched) } := by
  unfold semPost postReg
  by_cases hv : isSemaphoreValid k.sems a = true
  · rw [if_pos hv, if_pos hv]
    cases hm : k.sems.heap a with
    | none => rfl
    | some m =>
      cases hd : dequeue m.blockedProcesses with
      | none =>
        simp only [hd]
        rfl
      | some x =>
        obtain ⟨pid, q⟩ := x
        simp only [hd, Option.elim_some]
        unfold wakePid
        cases hg : getProcess k.sched pid with
        | none => simp only
        | some b => simp only
  · rw [if_neg hv, if_neg hv]
    rfl

end

/-! ## the invariant -/

/-- the process has the semaphore open -/
def IncPos.holds : IncPos → Bool
  | .off => false
  | .opening => false
  | _ => true

/-- between the wait and the post -/
def IncPos.inside : IncPos → Bool
  | .loading => true
  | .storing => true
  | .posting => true
  | _ => false

noncomputable def slots : Finset Int := Finset.Ico 0 maxProcesses

@[irreducible]
noncomputable def usersOf (x : Int → IncProc) : Nat := total slots (fun p : IncProc => p.pos.holds.toNat) x

@[irreducible]
noncomputable def insideOf (x : Int → IncProc) : Nat := total slots (fun p : IncProc => p.pos.inside.toNat) x

/-- the semaphore `a`, which is `m`, and the processes that use it -/
structure SemUse (r : SemReg) (x : Int → IncProc) (a : Nat) (m : Sem) : Prop where
  there : r.heap a = some m
  name : m.name = semId
  handle : ∀ pid, (x pid).pos.holds = true → (x pid).sem = a
  users : m.users = usersOf x
  token : m.value + insideOf x = 1
  queue : ∀ pid, pid ∈ m.blockedProcesses.elems ↔ (x pid).pos = .asleep
  nodup : m.blockedProcesses.elems.Nodup
  full : m.value ≠ 0 → m.blockedProcesses.elems = []

structure IncProc.Fine (global : BitVec 64) (p : IncProc) : Prop where
  useSem : p.pos ≠ .off → p.useSem = true
  count : p.pos = .asleep ∨ p.pos.inside = true → p.i < p.n
  aux : p.pos = .storing → p.aux = global

structure IncInv (t : IncSys) : Prop where
  wf : t.sems.Wf
  range : ∀ pid, (t.proc pid).pos ≠ .off → pid ∈ slots
  fine : ∀ pid, (t.proc pid).Fine t.global
  sem : (usersOf t.proc = 0 ∧ locateSemaphoreByName t.sems semId = none) ∨
    ∃ a m, SemUse t.sems t.proc a m

section
variable {t u : IncSys} {r : SemReg} {x : Int → IncProc} {pid q : Int} {a : Nat} {m : Sem}
  {p p' : IncProc} {f : Sem → Sem} {global : BitVec 64}

theorem holds_of_inside {s : IncPos} (h : s.inside = true) : s.holds = true := by
  cases s with
  | off => exact absurd h Bool.false_ne_true
  | opening => exact absurd h Bool.false_ne_true
  | _ => rfl

theorem users_update (hp : pid ∈ slots) (p' : IncProc) :
    usersOf (Function.update x pid p') + (x pid).pos.holds.toNat
      = usersOf x + p'.pos.holds.toNat := by
  unfold usersOf
  exact total_update hp (fun p : IncProc => p.pos.holds.toNat) x p'

theorem inside_update (hp : pid ∈ slots) (p' : IncProc) :
    insideOf (Function.update x pid p') + (x pid).pos.inside.toNat
      = insideOf x + p'.pos.inside.toNat := by
  unfold insideOf
  exact total_update hp (fun p : IncProc => p.pos.inside.toNat) x p'

theorem users_le (x : Int → IncProc) : usersOf x ≤ 64 := by
  unfold usersOf
  exact total_le_card (s := slots) fun p => Bool.toNat_le p.pos.holds

theorem inside_le_users (x : Int → IncProc) : insideOf x ≤ usersOf x := by
  unfold usersOf insideOf
  apply total_le
  intro p
  cases hi : p.pos.inside with
  | false => exact Nat.zero_le _
  | true => rw [holds_of_inside hi]

theorem holds_of_users (h : usersOf x = 0) (hp : pid ∈ slots) : (x pid).pos.holds = false := by
  unfold usersOf at h
  have hno := eq_zero_of_total h hp
  cases hh : (x pid).pos.holds with
  | false => rfl
  | true =>
    rw [hh] at hno
    exact absurd hno Nat.one_ne_zero

/-- **At most one process is inside.** -/
theorem SemUse.exclusive (h : SemUse r x a m) (hp : pid ∈ slots) (hq : q ∈ slots)
    (h1 : (x pid).pos.inside = true) (h2 : (x q).pos.inside = true) : pid = q := by
  have hle : insideOf x ≤ 1 := by
    have htoken := h.token
    omega
  unfold insideOf at hle
  apply total_unique hle hp hq
  · rw [h1]
    exact Nat.zero_lt_one
  · rw [h2]
    exact Nat.zero_lt_one

theorem IncInv.use (h : IncInv t) (pid : Int) (hh : (t.proc pid).pos.holds = true) :
    ∃ m, SemUse t.sems t.proc (t.proc pid).sem m := by
  have hoff : (t.proc pid).pos ≠ .off := by
    intro e
    rw [e] at hh
    exact absurd hh Bool.false_ne_true
  rcases h.sem with ⟨hzero, -⟩ | ⟨a, m, hu⟩
  · have hno := holds_of_users hzero (h.range pid hoff)
    exact absurd (hno.symm.trans hh) Bool.false_ne_true
  · refine ⟨m, ?_⟩
    rw [hu.handle pid hh]
    exact hu

/-! ## one process moves -/

/-- process `pid` becomes `p'` and the semaphore `f m` -/
theorem SemUse.move (h : SemUse r x a m) (hp : pid ∈ slots) (hname : (f m).name = m.name)
    (hhandle : p'.pos.holds = true → p'.sem = a)
    (husers : (f m).users + (x pid).pos.holds.toNat = m.users + p'.pos.holds.toNat)
    (htoken : (f m).value + p'.pos.inside.toNat = m.value + (x pid).pos.inside.toNat)
    (hqueue : ∀ q, q ∈ (f m).blockedProcesses.elems ↔ (Function.update x pid p' q).pos = .asleep)
    (hnodup : (f m).blockedProcesses.elems.Nodup)
    (hfull : (f m).value ≠ 0 → (f m).blockedProcesses.elems = []) :
    SemUse (r.modify a f) (Function.update x pid p') a (f m) := by
  have hu := users_update (x := x) hp p'
  have hi := inside_update (x := x) hp p'
  have hmu := h.users
  have hmt := h.token
  refine ⟨?_, hname.trans h.name, fun q hq => ?_, by omega, by omega, hqueue, hnodup, hfull⟩
  · show heapMod r.heap a f a = _
    rw [heapMod_self, h.there]
    rfl
  · by_cases e : q = pid
    · rw [e, Function.update_self] at hq ⊢
      exact hhandle hq
    · rw [Function.update_of_ne e] at hq ⊢
      exact h.handle q hq

theorem SemUse.queue_same (h : SemUse r x a m) (h1 : (x pid).pos ≠ .asleep) (h2 : p'.pos ≠ .asleep) :
    ∀ q, q ∈ m.blockedProcesses.elems ↔ (Function.update x pid p' q).pos = .asleep := by
  intro q
  rw [h.queue q]
  by_cases e : q = pid
  · rw [e, Function.update_self]
    exact iff_of_false h1 h2
  · rw [Function.update_of_ne e]

theorem SemUse.walk (h : SemUse r x a m) (hp : pid ∈ slots) (h1 : (x pid).pos ≠ .asleep)
    (h2 : p'.pos ≠ .asleep) (hhandle : p'.pos.holds = true → p'.sem = a)
    (husers : p'.pos.holds = (x pid).pos.holds) (htoken : p'.pos.inside = (x pid).pos.inside) :
    SemUse r (Function.update x pid p') a m := by
  have hu := users_update (x := x) hp p'
  have hi := inside_update (x := x) hp p'
  have hmu := h.users
  have hmt := h.token
  rw [husers] at hu
  rw [htoken] at hi
  refine ⟨h.there, h.name, fun q hq => ?_, by omega, by omega, h.queue_same h1 h2, h.nodup, h.full⟩
  by_cases e : q = pid
  · rw [e, Function.update_self] at hq ⊢
    exact hhandle hq
  · rw [Function.update_of_ne e] at hq ⊢
    exact h.handle q hq

/-- the other processes do not look at a process that moves -/
theorem fine_update (h : ∀ q, (x q).Fine global) (hp : p'.Fine global) (pid q : Int) :
    (Function.update x pid p' q).Fine global := by
  by_cases e : q = pid
  · rw [e, Function.update_self]
    exact hp
  · rw [Function.update_of_ne e]
    exact h q

theorem range_update (h : ∀ q, (x q).pos ≠ .off → q ∈ slots) (hp : pid ∈ slots) (p' : IncProc) (q : Int)
    (hq : (Function.update x pid p' q).pos ≠ .off) : q ∈ slots := by
  by_cases e : q = pid
  · rw [e]
    exact hp
  · rw [Function.update_of_ne e] at hq
    exact h q hq

end

end Tp2So
