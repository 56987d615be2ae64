import Tp2So.Machine.Frames
import Tp2So.Ready.Parked
import Tp2So.Ready.Sound

/-!
# The processor, the kernel and the stacks

A `Host` is the processor with its memory, the kernel, and the process `cur` whose code is on the
CPU, which is `running_process` except between the death of the current process and the tick that
follows.  The code of the idle process is what `main` leaves behind: it stays on the boot stack.

* `HostOp`      the current code runs for a while, calls the kernel, or is interrupted by the tick;
* `HostOp.ok`   code writes to no other process's stack, a call is allowed and settled, a new stack is
                memory of its own, and there is room for a frame when the tick comes;
* `Stacked`     the stacks do not overlap, and each process that is put away has its frame in its
                stack;
* `Stacked.parks`, `Stacked.born`, `Stacked.tick`   every step keeps it.

With settled calls every tick has a result, which is proved with `never_idle`.  A change of priority
that misplaces a process can leave the pointer of a freed control block in a ready queue, and what the
tick reads there is up to the allocator's next customer.

`create_process` is one call here.  The code turns interrupts on after `assign_pid`; what can come in
between is the subject of `Family.Pids`.
-/

set_option linter.unusedVariables false

namespace Tp2So

/-! ## regions -/

structure Region where
  lo : Nat
  hi : Nat

def Region.has (g : Region) (x : Nat) : Prop := g.lo ≤ x ∧ x < g.hi

def Region.within (g g' : Region) : Prop := g'.lo ≤ g.lo ∧ g.hi ≤ g'.hi

def Region.apart (g g' : Region) : Prop := g.hi ≤ g'.lo ∨ g'.hi ≤ g.lo

theorem Region.apart.symm {g g' : Region} (h : g.apart g') : g'.apart g := Or.symm h

theorem Region.within.has {g g' : Region} {x : Nat} (h : g.within g') (hx : g.has x) : g'.has x :=
  ⟨Nat.le_trans h.1 hx.1, Nat.lt_of_lt_of_le hx.2 h.2⟩

theorem Region.apart.not_has {g g' : Region} {x : Nat} (h : g.apart g') (hx : g.has x) : ¬ g'.has x := by
  unfold Region.apart at h
  unfold Region.has at hx ⊢
  omega

theorem Region.apart.of_within {g g' k : Region} (h : g.apart k) (hw : g'.within g) : g'.apart k := by
  unfold Region.apart Region.within at *
  omega

/-! ## the host -/

structure Host where
  cpu : Machine
  kernel : Kernel
  cur : Nat

namespace Host

def sched (y : Host) : Sched := y.kernel.sched

end Host

/-- the stack of a process: the boot stack, for the idle process -/
def home (boot : Region) (s : Sched) (a : Nat) (p : Process) : Region :=
  if s.idle = some a then boot else ⟨p.stackBase, p.stackBase + processStackSize⟩

/-- the frame that an interrupt will push -/
def nextFrame (m : Machine) : Region := ⟨frameTop m.rsp - frameSize, frameTop m.rsp⟩

inductive HostOp where
  | work (c : Context) (mem : Nat → Nat)
  | call (o : GuardOp) (entry argc argv : Nat)
  | tick (fuel : Nat) (dispatched scheduled : CReturn)

/-- the memory after a call: a new process has its first frame -/
def bornMem (sym : Symbols) (s s' : Sched) (entry argc argv : Nat) (mem : Nat → Nat) : Nat → Nat :=
  match s'.heap s.next with
  | none => mem
  | some p => stackInitMem sym (p.stackBase + processStackSize) entry argc argv mem

/-- the result of a C function -/
def CReturn.withRax (c : CReturn) (r : Nat) : CReturn :=
  { c with gpr := Function.update c.gpr .rax r }

def execHost (sym : Symbols) : HostOp → Host → Option Host
  | .work c mem, y => some { y with cpu := { toContext := c, mem } }
  | .call (.schedule _ _) _ _ _, _ => none
  | .call o entry argc argv, y =>
    (execGuard o y.kernel).map fun k => { y with
      kernel := k
      cpu := { y.cpu with mem := bornMem sym y.sched k.sched entry argc argv y.cpu.mem } }
  | .tick fuel dispatched scheduled, y =>
    let m := y.cpu.interrupt sym.irq00Handler
    (schedule fuel (pushState m).rsp y.sched).bind fun r =>
      r.2.running.map fun cur =>
        { cpu := irq00Handler dispatched (scheduled.withRax r.1) m
          kernel := y.kernel.setSched r.2, cur }

/-- there is room for a frame: in the stack of the current process, if it is still there, and
otherwise in no other stack -/
def Host.room (boot : Region) (y : Host) : Prop :=
  frameSize ≤ frameTop y.cpu.rsp ∧
    (∀ p, y.sched.heap y.cur = some p → (nextFrame y.cpu).within (home boot y.sched y.cur p)) ∧
    (y.sched.heap y.cur = none → ∀ b q, y.sched.heap b = some q →
      (nextFrame y.cpu).apart (home boot y.sched b q))

/-- the stacks of the others, and the current one from `sp` up -/
def Host.guarded (boot : Region) (y : Host) (sp x : Nat) : Prop :=
  ∃ b q, y.sched.heap b = some q ∧ (home boot y.sched b q).has x ∧ (b = y.cur → sp ≤ x)

/-- code stays off the stacks of others; a call ends no protected process and misplaces none; the C
functions of a tick leave the stacks alone -/
def HostOp.ok (boot : Region) (sym : Symbols) : HostOp → Host → Prop
  | .work _ mem, y => ∀ b q x, y.sched.heap b = some q → b ≠ y.cur →
      (home boot y.sched b q).has x → mem x = y.cpu.mem x
  | .call o _ _ _, y => (o.allowed y.kernel = true ∧ o.settled y.kernel = true) ∧
      ∀ base, o.newStack = some base → ∀ b q, y.sched.heap b = some q →
        Region.apart ⟨base, base + processStackSize⟩ (home boot y.sched b q)
  | .tick _ dispatched scheduled, y => y.room boot ∧
      ∀ x, y.guarded boot (frameTop y.cpu.rsp - frameSize) x →
        dispatched.mem x = (pushState (y.cpu.interrupt sym.irq00Handler)).mem x ∧
        scheduled.mem x = dispatched.mem x

/-! ## the layout of the stacks -/

/-- the frame of a process that is not running -/
def savedFrame (p : Process) : Region := ⟨p.rsp, p.rsp + frameSize⟩

structure Stacked (boot : Region) (s : Sched) (cur : Nat) : Prop where
  fresh : ∀ a, s.next ≤ a → s.heap a = none
  idleOld : ∀ i, s.idle = some i → i < s.next
  young : cur < s.next
  apart : ∀ a b p q, s.heap a = some p → s.heap b = some q → a ≠ b →
    (home boot s a p).apart (home boot s b q)
  cpu : ∀ a, s.running = some a → a = cur
  alive : ∀ p, s.heap cur = some p → p.state ≠ .terminated → s.running = some cur
  parked : ∀ a p, s.heap a = some p → a ≠ cur → p.state ≠ .terminated →
    (savedFrame p).within (home boot s a p)

section
variable {boot : Region} {sym : Symbols} {s t u : Sched} {y y' : Host} {a b cur base : Nat}
  {p q : Process} {m : Machine}

theorem Stacked.lt_next (h : Stacked boot s cur) (hp : s.heap a = some p) : a < s.next := by
  by_contra hn
  rw [h.fresh a (Nat.le_of_not_lt hn)] at hp
  exact absurd hp (by simp)

theorem home_eq (hi : t.idle = s.idle) (hs : q.stackBase = p.stackBase) :
    home boot t a q = home boot s a p := by
  unfold home
  rw [hi, hs]

theorem Stacked.parks (h : Stacked boot s cur) (ht : Sched.Parks s t) : Stacked boot t cur := by
  refine ⟨fun a ha => ?_, fun i hi => ?_, ?_, fun a b q q' hq hq' hne => ?_, fun a ha => ?_,
    fun q hq hst => ?_, fun a q hq hne hst => ?_⟩
  · cases hq : t.heap a with
    | none => rfl
    | some q =>
      obtain ⟨p, hp, -⟩ := ht.kept a q hq
      rw [ht.next] at ha
      exact absurd (h.lt_next hp) (Nat.not_lt.mpr ha)
  · rw [ht.next]
    exact h.idleOld i (ht.idle.symm.trans hi)
  · rw [ht.next]
    exact h.young
  · obtain ⟨p, hp, hpq⟩ := ht.kept a q hq
    obtain ⟨p', hp', hpq'⟩ := ht.kept b q' hq'
    rw [home_eq ht.idle hpq.stack, home_eq ht.idle hpq'.stack]
    exact h.apart a b p p' hp hp' hne
  · rcases ht.running with hr | ⟨hr, -⟩
    · exact h.cpu a (hr.symm.trans ha)
    · exact absurd (hr.symm.trans ha) (by simp)
  · obtain ⟨p, hp, hpq⟩ := ht.kept cur q hq
    have hrun := h.alive p hp fun e => hst (hpq.dead e)
    rcases ht.running with hr | ⟨-, hdead⟩
    · exact hr.trans hrun
    · exact absurd (hdead cur q hrun hq) hst
  · obtain ⟨p, hp, hpq⟩ := ht.kept a q hq
    have hframe := h.parked a p hp hne fun e => hst (hpq.dead e)
    unfold savedFrame at hframe ⊢
    rw [home_eq ht.idle hpq.stack, hpq.rsp]
    exact hframe

theorem fresh_within (hp : Process.Fresh base p) :
    (savedFrame p).within ⟨base, base + processStackSize⟩ := by
  obtain ⟨-, hrsp, -⟩ := hp
  unfold savedFrame Region.within
  rw [hrsp]
  show base ≤ stackInit (base + processStackSize) ∧
    stackInit (base + processStackSize) + 160 ≤ base + processStackSize
  unfold stackInit processStackSize
  omega

theorem home_new (hi : ∀ i, s.idle = some i → i < s.next) (hp : Process.Fresh base p) :
    home boot (s.publish p) s.next p = ⟨base, base + processStackSize⟩ := by
  have hne : ¬ (s.publish p).idle = some s.next := fun e => Nat.lt_irrefl _ (hi s.next e)
  unfold home
  rw [if_neg hne, hp.1]

theorem publish_heap {x : Process} (hx : (s.publish p).heap a = some x) :
    (a = s.next ∧ x = p) ∨ (a ≠ s.next ∧ s.heap a = some x) := by
  have hx' : Function.update s.heap s.next (some p) a = some x := hx
  by_cases e : a = s.next
  · rw [e, Function.update_self] at hx'
    exact Or.inl ⟨e, (Option.some.inj hx').symm⟩
  · rw [Function.update_of_ne e] at hx'
    exact Or.inr ⟨e, hx'⟩

theorem Stacked.publish (h : Stacked boot s cur) (hp : Process.Fresh base p)
    (hroom : ∀ b q, s.heap b = some q →
      Region.apart ⟨base, base + processStackSize⟩ (home boot s b q)) :
    Stacked boot (s.publish p) cur := by
  have hnew : home boot (s.publish p) s.next p = ⟨base, base + processStackSize⟩ :=
    home_new h.idleOld hp
  have hold : ∀ b q, home boot (s.publish p) b q = home boot s b q := fun b q => rfl
  have hcur : cur ≠ s.next := Nat.ne_of_lt h.young
  refine ⟨fun a ha => ?_, fun i hi => Nat.lt_succ_of_lt (h.idleOld i hi), Nat.lt_succ_of_lt h.young,
    fun a b q q' hq hq' hne => ?_, h.cpu, fun q hq hst => ?_, fun a q hq hne hst => ?_⟩
  · have hle : s.next + 1 ≤ a := ha
    have hne : a ≠ s.next := by omega
    exact (Function.update_of_ne hne ..).trans (h.fresh a (by omega))
  · rcases publish_heap hq with ⟨rfl, rfl⟩ | ⟨hna, hqa⟩
    · rcases publish_heap hq' with ⟨rfl, -⟩ | ⟨-, hqb⟩
      · exact absurd rfl hne
      · rw [hnew, hold]
        exact hroom b q' hqb
    · rcases publish_heap hq' with ⟨rfl, rfl⟩ | ⟨-, hqb⟩
      · rw [hnew, hold]
        exact (hroom a q hqa).symm
      · exact h.apart a b q q' hqa hqb hne
  · rcases publish_heap hq with ⟨e, -⟩ | ⟨-, hq⟩
    · exact absurd e hcur
    · exact h.alive q hq hst
  · rcases publish_heap hq with ⟨rfl, rfl⟩ | ⟨-, hq⟩
    · rw [hnew]
      exact fresh_within hp
    · exact h.parked a q hq hne hst

theorem Stacked.born (h : Stacked boot s cur) (ht : Sched.Born base s t)
    (hroom : ∀ b q, s.heap b = some q →
      Region.apart ⟨base, base + processStackSize⟩ (home boot s b q)) : Stacked boot t cur := by
  obtain ⟨u, p, hu, hp, hut⟩ := ht
  refine ((h.parks hu).publish hp fun b q hq => ?_).parks hut
  obtain ⟨q', hq', hkept⟩ := hu.kept b q hq
  rw [home_eq hu.idle hkept.stack]
  exact hroom b q' hq'

/-- the tick, which saves the stack pointer `sp` of the current process -/
theorem Stacked.tick {sp r : Nat} (h : Stacked boot s cur)
    (hidle : ∀ i p, s.idle = some i → s.heap i = some p → p.state ≠ .terminated)
    (hframe : ∀ p, s.heap cur = some p → Region.within ⟨sp, sp + frameSize⟩ (home boot s cur p))
    (ht : Sched.Stays (Sched.saveRsp s.running sp) s t) (hr : Sched.Handed r t)
    (hcur : t.running = some b) : Stacked boot t b := by
  obtain ⟨b', q, hb', hq, -, hst⟩ := hr
  obtain rfl := Option.some.inj (hcur.symm.trans hb')
  have hold : ∀ a, s.next ≤ a → t.heap a = none := by
    intro a ha
    cases hx : t.heap a with
    | none => rfl
    | some x =>
      obtain ⟨p, hp, -⟩ := ht.kept a x hx
      exact absurd (h.lt_next hp) (Nat.not_lt.mpr ha)
  refine ⟨fun a ha => hold a (by rw [← ht.next]; exact ha), fun i hi => ?_, ?_,
    fun a c x x' hx hx' hne => ?_, fun a ha => (Option.some.inj (hcur.symm.trans ha)).symm,
    fun _ _ _ => hcur, fun a x hx hne hstx => ?_⟩
  · rw [ht.next]
    exact h.idleOld i (ht.idle.symm.trans hi)
  · by_contra hn
    rw [ht.next] at hn
    rw [hold b (Nat.le_of_not_lt hn)] at hq
    exact absurd hq (by simp)
  · obtain ⟨p, hp, ⟨hstack, -⟩, -⟩ := ht.kept a x hx
    obtain ⟨p', hp', ⟨hstack', -⟩, -⟩ := ht.kept c x' hx'
    rw [home_eq ht.idle hstack, home_eq ht.idle hstack']
    exact h.apart a c p p' hp hp' hne
  · obtain ⟨p, hp, ⟨hstack, hrsp⟩, hdead⟩ := ht.kept a x hx
    have hlive : p.state ≠ .terminated := by
      intro e
      rcases hdead e with hx' | hi
      · exact hstx hx'
      · exact hidle a p hi hp e
    unfold savedFrame
    rw [home_eq ht.idle hstack, hrsp]
    unfold Sched.saveRsp
    by_cases e : a = cur
    · subst e
      rw [if_pos (h.alive p hp hlive)]
      exact hframe p hp
    · rw [if_neg fun hra => e (h.cpu a hra)]
      exact h.parked a p hp e hlive

end

end Tp2So
