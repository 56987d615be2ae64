import Tp2So.Lib.Runs
import Tp2So.Lib.Tallies

/-!
# `time.c` and `_force_scheduler_interrupt`

A process that gives up the CPU sets `soft_irq0` and makes the interrupt of the timer itself, so that
`timer_handler` does not count it.  Between the two instructions the timer can interrupt it, and then its
tick is the one that is not counted; the tick that the process makes when it runs again is counted instead.
A process that Ctrl+C kills there never makes its own.

* `timerHandler`, `sleepMilisTicks`   the code;
* `execClock`              the steps of the threads; an interrupt may hand the CPU to any of them;
* `ClockSys.late`          the interrupts that are still owed;
* `ClockInv.step`, `clock_counts`   the ticks are those of the hardware, less the late ones;
* `asleep_run`, `sleep_ends_iff`    when a thread in `sleepTicks` goes on.
-/

set_option linter.unusedSectionVars false

namespace Tp2So

/-! ## the code -/

structure Clock where
  ticks : Nat
  softIrq0 : Bool

/-- `ticks` is an `unsigned long` -/
def timerHandler (c : Clock) : Clock :=
  if c.softIrq0 then { c with softIrq0 := false } else { c with ticks := (c.ticks + 1) % 2 ^ 64 }

/-- the argument of `sleepTicks` in `sys_sleep_milis`; the product is one of 32 bits -/
def sleepMilisTicks (milis : Nat) : Nat := milis * 18 % 2 ^ 32 / 1000

/-- where a thread is: between the two instructions of `_force_scheduler_interrupt`, in the loop of
`sleepTicks`, there after Ctrl+C has killed it, or halted for ever.  `owed` says that it was killed with an
interrupt that was late. -/
inductive ClockPos where
  | running
  | forcing
  | sleeping (start ticks : Nat)
  | dying (owed : Bool)
  | dead (owed : Bool)
  deriving DecidableEq

/-- `hardware` counts the interrupts of the timer -/
structure ClockSys (T : Type) where
  clock : Clock
  pos : T → ClockPos
  onCpu : T
  hardware : Nat

inductive ClockOp (T : Type) where
  | tick (next : T)
  | force
  | softInt (next : T)
  | kill
  | sleepMilis (milis : Nat)
  | look

section
variable {T : Type} [DecidableEq T]

def ClockSys.boot (first : T) : ClockSys T := ⟨⟨0, false⟩, fun _ => .running, first, 0⟩

/-- where the thread on the CPU is -/
def ClockSys.here (t : ClockSys T) : ClockPos := t.pos t.onCpu

def ClockSys.goto (t : ClockSys T) (p : ClockPos) : ClockSys T :=
  { t with pos := Function.update t.pos t.onCpu p }

/-- `mov byte [soft_irq0], 1` -/
def ClockSys.setSoft (t : ClockSys T) : ClockSys T :=
  { t with clock := { t.clock with softIrq0 := true } }

/-- the handler of the timer, after which `next` runs -/
def ClockSys.handled (t : ClockSys T) (next : T) : ClockSys T :=
  { t with clock := timerHandler t.clock, onCpu := next }

def execClock : ClockOp T → ClockSys T → Option (ClockSys T)
  | .tick next, t => some { t.handled next with hardware := t.hardware + 1 }
  | .force, t => if t.here = .running then some (t.setSoft.goto .forcing) else none
  | .softInt next, t =>
    match t.here with
    | .forcing => some ((t.goto .running).handled next)
    | .dying owed => some ((t.goto (.dead owed)).handled next)
    | _ => none
  -- the keyboard interrupts the thread, and `kill_process` ends in `_force_scheduler_interrupt` too
  | .kill, t =>
    match t.here with
    | .dying _ => none
    | .dead _ => none
    | p => some (t.setSoft.goto (.dying (decide (p = .forcing) && !t.clock.softIrq0)))
  | .sleepMilis milis, t =>
    if t.here = .running then some (t.goto (.sleeping t.clock.ticks (sleepMilisTicks milis))) else none
  | .look, t =>
    match t.here with
    | .sleeping start ticks =>
      if t.clock.ticks < (start + ticks) % 2 ^ 64 then some t else some (t.goto .running)
    | _ => none

/-! ## what is late -/

/-- the interrupts that a thread has still to make, and those that it never will -/
def ClockPos.owes : ClockPos → Nat
  | .forcing => 1
  | .dying owed => 1 + owed.toNat
  | .dead owed => owed.toNat
  | _ => 0

/-- the thread is between the two instructions -/
def ClockPos.between : ClockPos → Bool
  | .forcing => true
  | .dying _ => true
  | _ => false

def ClockPos.asleep : ClockPos → Bool
  | .sleeping _ _ => true
  | _ => false

variable [Fintype T]

/-- the interrupts that are owed -/
def ClockSys.owed (t : ClockSys T) : Nat := total Finset.univ ClockPos.owes t.pos

/-- those whose flag the timer has used up -/
def ClockSys.late (t : ClockSys T) : Nat := t.owed - t.clock.softIrq0.toNat

/-- the flag is that of the thread on the CPU; `e` is the number of ticks without the bound of 64 bits -/
structure ClockInv (t : ClockSys T) : Prop where
  flag : t.clock.softIrq0 = true → t.here.between = true
  count : ∃ e, t.clock.ticks = e % 2 ^ 64 ∧ e + t.owed = t.hardware + t.clock.softIrq0.toNat

variable {t u v w : ClockSys T} {o : ClockOp T} {os os' : List (ClockOp T)} {first next p : T}

theorem ClockSys.owed_goto (t : ClockSys T) (q : ClockPos) :
    (t.goto q).owed + t.here.owes = t.owed + q.owes := total_update (Finset.mem_univ _) _ _ _

/-- a thread that is killed owes its interrupt, and one that was late -/
theorem ClockPos.owes_killed {q : ClockPos} {flag : Bool} (hdying : ∀ b, q = .dying b → False)
    (hdead : ∀ b, q = .dead b → False) (hf : flag = true → q.between = true) :
    (ClockPos.dying (decide (q = .forcing) && !flag)).owes + flag.toNat = q.owes + 1 := by
  cases q with
  | forcing => cases flag <;> rfl
  | running =>
    obtain rfl : flag = false := Bool.eq_false_iff.mpr fun h => absurd (hf h) (by decide)
    rfl
  | sleeping start ticks =>
    obtain rfl : flag = false := Bool.eq_false_iff.mpr fun h => Bool.false_ne_true (hf h)
    rfl
  | dying b => exact (hdying b rfl).elim
  | dead b => exact (hdead b rfl).elim

theorem ClockInv.start (first : T) : ClockInv (ClockSys.boot first) := by
  refine ⟨fun h => absurd h (by simp [ClockSys.boot]), 0, rfl, ?_⟩
  have hzero : (ClockSys.boot first).owed = 0 := total_eq_zero fun _ _ => rfl
  rw [hzero]
  rfl

/-- a handler that finds the flag leaves the ticks, and one that does not counts -/
theorem timerHandler_count {c : Clock} {e : Nat} (h : c.ticks = e % 2 ^ 64) :
    (timerHandler c).softIrq0 = false ∧
      ∃ e', (timerHandler c).ticks = e' % 2 ^ 64 ∧ e' + c.softIrq0.toNat = e + 1 := by
  unfold timerHandler
  cases hf : c.softIrq0 with
  | true => exact ⟨rfl, e, h, rfl⟩
  | false =>
    refine ⟨rfl, e + 1, ?_, rfl⟩
    show (c.ticks + 1) % 2 ^ 64 = _
    rw [h]
    omega

@[simp] theorem ClockSys.here_goto (t : ClockSys T) (q : ClockPos) : (t.goto q).here = q :=
  Function.update_self ..

theorem ClockInv.handled {e hw : Nat} (he : t.clock.ticks = e % 2 ^ 64)
    (h : e + 1 + t.owed = hw + t.clock.softIrq0.toNat) (next : T) :
    ClockInv { t.handled next with hardware := hw } := by
  obtain ⟨hf, e', hticks, hcount⟩ := timerHandler_count he
  constructor
  · intro hset
    exact absurd (hf.symm.trans hset) (by decide)
  · refine ⟨e', hticks, ?_⟩
    show e' + t.owed = hw + (timerHandler t.clock).softIrq0.toNat
    rw [hf]
    show e' + t.owed = hw
    omega

theorem ClockInv.setSoft {q : ClockPos} (hi : ClockInv t) (hq : q.between = true)
    (howes : q.owes + t.clock.softIrq0.toNat = t.here.owes + 1) : ClockInv (t.setSoft.goto q) := by
  constructor
  · intro _
    rw [ClockSys.here_goto]
    exact hq
  · obtain ⟨e, he, hcount⟩ := hi.count
    refine ⟨e, he, ?_⟩
    have howed : (t.setSoft.goto q).owed + t.here.owes = t.owed + q.owes := t.setSoft.owed_goto q
    show e + (t.setSoft.goto q).owed = t.hardware + 1
    omega

theorem ClockInv.quiet {q : ClockPos} (hi : ClockInv t) (hb : t.here.between = false)
    (h0 : t.here.owes = 0) (hq : q.owes = 0) : ClockInv (t.goto q) := by
  constructor
  · intro hset
    exact absurd (hb.symm.trans (hi.flag hset)) (by decide)
  · obtain ⟨e, he, hcount⟩ := hi.count
    have howed := t.owed_goto q
    refine ⟨e, he, ?_⟩
    show e + (t.goto q).owed = t.hardware + t.clock.softIrq0.toNat
    omega

/-- the interrupt that a thread makes itself pays for the one that it owes -/
theorem ClockInv.softInt {q : ClockPos} (hi : ClockInv t) (howes : q.owes + 1 = t.here.owes)
    (next : T) : ClockInv ((t.goto q).handled next) := by
  obtain ⟨e, he, hcount⟩ := hi.count
  have howed := t.owed_goto q
  apply ClockInv.handled (t := t.goto q) he
  show e + 1 + (t.goto q).owed = t.hardware + t.clock.softIrq0.toNat
  omega

theorem ClockInv.step (hi : ClockInv t) (h : execClock o t = some u) : ClockInv u := by
  cases o with
  | tick next =>
    obtain rfl := Option.some.inj h
    obtain ⟨e, he, hcount⟩ := hi.count
    exact ClockInv.handled he (by omega) next
  | force =>
    obtain ⟨hr, he⟩ := Option.ite_none_right_eq_some.mp h
    obtain rfl := Option.some.inj he
    have hflag : t.clock.softIrq0 = false := by
      by_contra hne
      have hb := hi.flag (Bool.eq_true_of_not_eq_false hne)
      rw [hr] at hb
      exact absurd hb (by decide)
    apply hi.setSoft rfl
    rw [hflag, hr]
    rfl
  | softInt next =>
    simp only [execClock] at h
    split at h
    · rename_i hh
      obtain rfl := Option.some.inj h
      apply hi.softInt
      rw [hh]
      rfl
    · rename_i owed hh
      obtain rfl := Option.some.inj h
      apply hi.softInt
      rw [hh]
      exact Nat.add_comm _ _
    · exact absurd h (by simp)
  | kill =>
    simp only [execClock] at h
    split at h
    · exact absurd h (by simp)
    · exact absurd h (by simp)
    · rename_i hdying hdead
      obtain rfl := Option.some.inj h
      apply hi.setSoft rfl
      exact ClockPos.owes_killed hdying hdead hi.flag
  | sleepMilis milis =>
    obtain ⟨hr, he⟩ := Option.ite_none_right_eq_some.mp h
    obtain rfl := Option.some.inj he
    apply hi.quiet
    · rw [hr]
      rfl
    · rw [hr]
      rfl
    · rfl
  | look =>
    simp only [execClock] at h
    split at h
    · rename_i start ticks hh
      split at h
      · obtain rfl := Option.some.inj h
        exact hi
      · obtain rfl := Option.some.inj h
        apply hi.quiet
        · rw [hh]
          rfl
        · rw [hh]
          rfl
        · rfl
    · exact absurd h (by simp)

theorem ClockInv.run (h : run execClock os (.boot first) = some t) : ClockInv t :=
  Runs.inv (fun _ _ _ hi _ he => hi.step he) (runs_true_iff.mpr h) (ClockInv.start first)

/-- the ticks are those of the hardware, less the late ones -/
theorem ClockInv.ticks_eq (hi : ClockInv t) :
    t.late ≤ t.hardware ∧ t.clock.ticks = (t.hardware - t.late) % 2 ^ 64 := by
  obtain ⟨e, he, hcount⟩ := hi.count
  have hlate : e + t.late = t.hardware := by
    unfold ClockSys.late
    cases hf : t.clock.softIrq0 with
    | false =>
      rw [hf] at hcount
      exact hcount
    | true =>
      -- the flag is one of the interrupts that are owed
      have howed : 1 ≤ t.owed := by
        apply Nat.le_trans _ (le_total (Finset.mem_univ t.onCpu))
        have hb := hi.flag hf
        cases hh : t.here with
        | forcing => exact Nat.le_of_eq (congrArg ClockPos.owes hh).symm
        | dying owed =>
          have howes : t.here.owes = 1 + owed.toNat := congrArg ClockPos.owes hh
          exact Nat.le_trans (Nat.le_add_right ..) (Nat.le_of_eq howes.symm)
        | running => exact absurd (hh ▸ hb) (by decide)
        | sleeping start ticks => exact absurd (hh ▸ hb) (by simp [ClockPos.between])
        | dead owed => exact absurd (hh ▸ hb) (by simp [ClockPos.between])
      rw [hf] at hcount
      show e + (t.owed - 1) = t.hardware
      have hone : e + t.owed = t.hardware + 1 := hcount
      omega
  refine ⟨Nat.le_of_add_left_le (Nat.le_of_eq hlate), ?_⟩
  rw [he, ← hlate, Nat.add_sub_cancel]

/-- a step moves the thread on the CPU only; one that is asleep stays where it is or wakes up -/
theorem execClock_moves (h : execClock o t = some u) :
    t.hardware ≤ u.hardware ∧ ∃ q, u.pos = Function.update t.pos t.onCpu q ∧
      (t.here.asleep = true → q = t.here ∨ q.asleep = false) := by
  have hstays : t.pos = Function.update t.pos t.onCpu t.here := (Function.update_eq_self ..).symm
  cases o with
  | tick next =>
    obtain rfl := Option.some.inj h
    exact ⟨Nat.le_succ _, t.here, hstays, fun _ => Or.inl rfl⟩
  | force =>
    obtain ⟨_, he⟩ := Option.ite_none_right_eq_some.mp h
    obtain rfl := Option.some.inj he
    exact ⟨Nat.le_refl _, .forcing, rfl, fun _ => Or.inr rfl⟩
  | softInt next =>
    simp only [execClock] at h
    split at h
    · obtain rfl := Option.some.inj h
      exact ⟨Nat.le_refl _, .running, rfl, fun _ => Or.inr rfl⟩
    · rename_i owed _
      obtain rfl := Option.some.inj h
      exact ⟨Nat.le_refl _, .dead owed, rfl, fun _ => Or.inr rfl⟩
    · exact absurd h (by simp)
  | kill =>
    simp only [execClock] at h
    split at h
    · exact absurd h (by simp)
    · exact absurd h (by simp)
    · obtain rfl := Option.some.inj h
      exact ⟨Nat.le_refl _, _, rfl, fun _ => Or.inr rfl⟩
  | sleepMilis milis =>
    obtain ⟨hr, he⟩ := Option.ite_none_right_eq_some.mp h
    obtain rfl := Option.some.inj he
    refine ⟨Nat.le_refl _, _, rfl, fun hasleep => ?_⟩
    rw [hr] at hasleep
    exact absurd hasleep (by decide)
  | look =>
    simp only [execClock] at h
    split at h
    · split at h
      · obtain rfl := Option.some.inj h
        exact ⟨Nat.le_refl _, t.here, hstays, fun _ => Or.inl rfl⟩
      · obtain rfl := Option.some.inj h
        exact ⟨Nat.le_refl _, .running, rfl, fun _ => Or.inr rfl⟩
    · exact absurd h (by simp)

theorem asleep_step {q : ClockPos} (hp : (t.pos p).asleep = true) (hq : t.pos p = q)
    (h : execClock o t = some u) (hu : (u.pos p).asleep = true) : u.pos p = q := by
  obtain ⟨_, r, hpos, hr⟩ := execClock_moves h
  rw [hpos] at hu ⊢
  by_cases e : p = t.onCpu
  · subst e
    rw [Function.update_self] at hu ⊢
    rcases hr hp with hsame | hawake
    · exact hsame.trans hq
    · exact absurd (hawake.symm.trans hu) (by decide)
  · rw [Function.update_of_ne e]
    exact hq

/-- while a thread is in the loop, what it compares with stays -/
theorem asleep_run {q : ClockPos}
    (h : Runs execClock (fun _ s => (s.pos p).asleep = true) os t u) (hq : t.pos p = q)
    (hu : (u.pos p).asleep = true) : u.pos p = q := by
  have hstays : (u.pos p).asleep = true → u.pos p = q := by
    apply Runs.inv (I := fun s => (s.pos p).asleep = true → s.pos p = q) _ h (fun _ => hq)
    intro o s s' hs hasleep he
    exact asleep_step hasleep (hs hasleep) he
  exact hstays hu

theorem hardware_le {ok : ClockOp T → ClockSys T → Prop} (h : Runs execClock ok os t u) :
    t.hardware ≤ u.hardware := by
  apply Runs.inv (I := fun s => t.hardware ≤ s.hardware) _ h (Nat.le_refl _)
  intro o s s' hs _ he
  exact Nat.le_trans hs (execClock_moves he).1

theorem look_asleep (h : execClock .look v = some w) : v.here.asleep = true := by
  simp only [execClock] at h
  split at h
  · rename_i hh
    rw [hh]
    rfl
  · exact absurd h (by simp)

theorem look_iff {start ticks : Nat} (hh : v.here = .sleeping start ticks)
    (h : execClock .look v = some w) : w.here = .running ↔ (start + ticks) % 2 ^ 64 ≤ v.clock.ticks := by
  simp only [execClock, hh] at h
  split at h
  · rename_i hlt
    obtain rfl := Option.some.inj h
    rw [hh]
    exact ⟨fun e => absurd e (by simp), fun hle => absurd hlt (Nat.not_lt.mpr hle)⟩
  · rename_i hlt
    obtain rfl := Option.some.inj h
    exact ⟨fun _ => Nat.not_lt.mp hlt, fun _ => ClockSys.here_goto ..⟩

/-! ## results -/

/-- **The clock.**  At any time `ticks` is the number of the timer's interrupts less those that are late. -/
theorem clock_counts (h : run execClock os (.boot first) = some t) :
    t.late ≤ t.hardware ∧ t.clock.ticks = (t.hardware - t.late) % 2 ^ 64 :=
  (ClockInv.run h).ticks_eq

/-- **`sleepTicks`.**  A thread that looks at the clock goes on exactly when the timer has made as many
interrupts as it asked for, plus those that are late now, less those that were late when it began. -/
theorem sleep_ends_iff {milis : Nat} (h : run execClock os (.boot first) = some t)
    (hs : execClock (.sleepMilis milis) t = some u)
    (hr : Runs execClock (fun _ s => (s.pos t.onCpu).asleep = true) os' u v)
    (hv : v.onCpu = t.onCpu) (hl : execClock .look v = some w)
    (hmax : v.hardware + sleepMilisTicks milis < 2 ^ 64) :
    w.here = .running ↔
      t.hardware + sleepMilisTicks milis + v.late ≤ v.hardware + t.late := by
  have hit := ClockInv.run h
  have hiu := hit.step hs
  have hiv : ClockInv v := Runs.inv (fun _ _ _ hi _ he => hi.step he) hr hiu
  obtain ⟨_, he⟩ := Option.ite_none_right_eq_some.mp hs
  obtain rfl := Option.some.inj he
  have hle : t.hardware ≤ v.hardware := hardware_le (t := t.goto _) hr
  obtain ⟨hlate, hticks⟩ := hit.ticks_eq
  obtain ⟨hlate', hticks'⟩ := hiv.ticks_eq
  have hasleep : (v.pos t.onCpu).asleep = true := by
    rw [← hv]
    exact look_asleep hl
  have hhere : v.here = .sleeping t.clock.ticks (sleepMilisTicks milis) := by
    unfold ClockSys.here
    rw [hv]
    exact asleep_run hr (ClockSys.here_goto ..) hasleep
  rw [look_iff hhere hl, hticks, hticks', Nat.mod_eq_of_lt (a := t.hardware - t.late) (by omega),
    Nat.mod_eq_of_lt (a := v.hardware - v.late) (by omega), Nat.mod_eq_of_lt (by omega)]
  omega

end

/-- a thread is interrupted between its two instructions -/
def lateTick : ClockSys (Fin 2) := (run execClock [.force, .tick 1] (.boot 0)).get rfl

/-- the other one begins to sleep, for two ticks -/
def dozing : ClockSys (Fin 2) := (execClock (.sleepMilis 112) lateTick).get rfl

/-- the timer interrupts it, and the first one makes the interrupt that was late -/
def madeUp : ClockSys (Fin 2) := (run execClock [.tick 0, .softInt 1] dozing).get rfl

theorem lateTick_run : run execClock [.force, .tick 1] (.boot 0) = some lateTick := rfl

theorem clock_counts_late : lateTick.hardware = 1 ∧ lateTick.clock.ticks = 0 ∧
    lateTick.late ≤ lateTick.hardware ∧
    lateTick.clock.ticks = (lateTick.hardware - lateTick.late) % 2 ^ 64 :=
  ⟨rfl, rfl, clock_counts lateTick_run⟩

/-- it has slept for one interrupt of the timer instead of two -/
theorem sleep_ends_early : sleepMilisTicks 112 = 2 ∧ madeUp.hardware = lateTick.hardware + 1 ∧
    lateTick.hardware + sleepMilisTicks 112 + madeUp.late ≤ madeUp.hardware + lateTick.late := by
  have hr : Runs execClock (fun _ s => (s.pos lateTick.onCpu).asleep = true) [.tick 0, .softInt 1]
      dozing madeUp := ⟨rfl, _, rfl, rfl, _, rfl, rfl⟩
  have hl : execClock .look madeUp = some (madeUp.goto .running) := rfl
  have hends := sleep_ends_iff lateTick_run rfl hr rfl hl (by decide)
  exact ⟨rfl, rfl, hends.mp rfl⟩

end Tp2So
