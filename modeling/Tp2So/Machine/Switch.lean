import Tp2So.Machine.Stacks

/-!
# The context switch

* `Put boot a m y`   process `a` was put away when the machine was `m`, and can go on from there;
* `put_work`, `put_call`, `put_kept`   every step of another process keeps it;
* `put_away`         the tick that takes the CPU from `a` establishes it;
* `irq00_leaves`     the tick that gives it back loads the registers that were put away;
* `resumes`          a process that gets the CPU back finds its registers and its stack as they were.
-/

set_option linter.unusedVariables false

namespace Tp2So

/-- `a` was put away when the machine was `m` -/
structure PutIn (boot : Region) (a : Nat) (m : Machine) (s : Sched) (mem : Nat → Nat) : Prop where
  old : a < s.next
  frame : ∀ p, s.heap a = some p → p.state ≠ .terminated → SavedAt m.toContext p.rsp mem
  stack : ∀ p x, s.heap a = some p → m.rsp ≤ x → (home boot s a p).has x → mem x = m.mem x

def Put (boot : Region) (a : Nat) (m : Machine) (y : Host) : Prop :=
  PutIn boot a m y.sched y.cpu.mem

section
variable {boot : Region} {sym : Symbols} {s t u : Sched} {y y' : Host} {a b cur base : Nat}
  {p q : Process} {m : Machine} {c : Context} {mem mem' : Nat → Nat} {d e : CReturn}

/-! ## steps of another process -/

theorem PutIn.congr (h : PutIn boot a m s mem) (hs : Stacked boot s cur) (hne : a ≠ cur)
    (hmem : ∀ p x, s.heap a = some p → (home boot s a p).has x → mem' x = mem x) :
    PutIn boot a m s mem' := by
  refine ⟨h.old, fun p hp hst => ?_, fun p x hp hx hin => ?_⟩
  · refine (h.frame p hp hst).congr fun x h1 h2 => ?_
    exact hmem p x hp ((hs.parked a p hp hne hst).has ⟨h1, h2⟩)
  · exact (hmem p x hp hin).trans (h.stack p x hp hx hin)

theorem PutIn.parks (h : PutIn boot a m s mem) (ht : Sched.Parks s t) : PutIn boot a m t mem := by
  refine ⟨by rw [ht.next]; exact h.old, fun q hq hst => ?_, fun q x hq hx hin => ?_⟩
  · obtain ⟨p, hp, hpq⟩ := ht.kept a q hq
    rw [hpq.rsp]
    exact h.frame p hp fun hd => hst (hpq.dead hd)
  · obtain ⟨p, hp, hpq⟩ := ht.kept a q hq
    rw [home_eq ht.idle hpq.stack] at hin
    exact h.stack p x hp hx hin

theorem PutIn.publish (h : PutIn boot a m s mem) : PutIn boot a m (s.publish q) mem := by
  have hne : a ≠ s.next := Nat.ne_of_lt h.old
  refine ⟨Nat.lt_succ_of_lt h.old, fun p hp hst => ?_, fun p x hp hx hin => ?_⟩
  · rcases publish_heap hp with ⟨he, -⟩ | ⟨-, hp⟩
    · exact absurd he hne
    · exact h.frame p hp hst
  · rcases publish_heap hp with ⟨he, -⟩ | ⟨-, hp⟩
    · exact absurd he hne
    · exact h.stack p x hp hx hin

theorem stackInitMem_outside (entry argc argv : Nat) {x : Nat}
    (hx : ¬ Region.has ⟨base, base + processStackSize⟩ x) :
    stackInitMem sym (base + processStackSize) entry argc argv mem x = mem x := by
  have hcases : x < stackInit (base + processStackSize) ∨ frameTop (base + processStackSize) ≤ x := by
    by_contra hn
    unfold stackInit frameTop processStackSize at hn
    have hin : base ≤ x ∧ x < base + 8192 := by omega
    exact hx hin
  have hbig : frameSize ≤ frameTop (base + processStackSize) := by
    unfold frameSize frameTop processStackSize
    omega
  exact stackInit_outside sym entry argc argv hbig mem hcases

theorem bornMem_parks (hs : Stacked boot s cur) (ht : Sched.Parks s t) (entry argc argv : Nat) :
    bornMem sym s t entry argc argv mem = mem := by
  unfold bornMem
  cases hq : t.heap s.next with
  | none => rfl
  | some q =>
    obtain ⟨p, hp, -⟩ := ht.kept s.next q hq
    exact absurd (hs.lt_next hp) (Nat.lt_irrefl _)

theorem Sched.Born.heap (ht : Sched.Born base s t) (hq : t.heap s.next = some q) :
    q.stackBase = base ∧ q.rsp = stackInit (base + processStackSize) := by
  obtain ⟨u, p, hu, hp, hut⟩ := ht
  obtain ⟨p', hp', hpq⟩ := hut.kept s.next q hq
  have hself : (u.publish p).heap s.next = some p := by
    rw [← hu.next]
    exact Function.update_self ..
  obtain rfl := Option.some.inj (hself.symm.trans hp')
  exact ⟨hpq.stack.trans hp.1, hpq.rsp.trans hp.2.1⟩

theorem bornMem_outside (ht : Sched.Born base s t) (entry argc argv : Nat) {x : Nat}
    (hx : ¬ Region.has ⟨base, base + processStackSize⟩ x) :
    bornMem sym s t entry argc argv mem x = mem x := by
  unfold bornMem
  cases hq : t.heap s.next with
  | none => rfl
  | some q =>
    show stackInitMem sym (q.stackBase + processStackSize) entry argc argv mem x = mem x
    rw [(ht.heap hq).1]
    exact stackInitMem_outside entry argc argv hx

theorem PutIn.born (h : PutIn boot a m s mem) (hs : Stacked boot s cur) (hne : a ≠ cur)
    (ht : Sched.Born base s t) (hroom : ∀ b q, s.heap b = some q →
      Region.apart ⟨base, base + processStackSize⟩ (home boot s b q)) (entry argc argv : Nat) :
    PutIn boot a m t (bornMem sym s t entry argc argv mem) := by
  have hmem : PutIn boot a m s (bornMem sym s t entry argc argv mem) := by
    refine h.congr hs hne fun p x hp hin => bornMem_outside ht entry argc argv fun hx => ?_
    exact (hroom a p hp).not_has hx hin
  obtain ⟨u, p, hu, hp, hut⟩ := ht
  exact ((hmem.parks hu).publish).parks hut

/-! ## the tick -/

theorem tick_parts {fuel : Nat} (he : execHost sym (.tick fuel d e) y = some y') :
    ∃ r t, schedule fuel (frameTop y.cpu.rsp - frameSize) y.sched = some (r, t) ∧
      t.running = some y'.cur ∧ y'.sched = t ∧
      y'.cpu = irq00Handler d (e.withRax r) (y.cpu.interrupt sym.irq00Handler) := by
  have hsp : (pushState (y.cpu.interrupt sym.irq00Handler)).rsp = frameTop y.cpu.rsp - frameSize := by
    rw [enter_eq]
  obtain ⟨⟨r, t⟩, hr, hrest⟩ := Option.bind_eq_some_iff.mp he
  obtain ⟨cur, hcur, rfl⟩ := Option.map_eq_some_iff.mp hrest
  rw [hsp] at hr
  exact ⟨r, t, hr, hcur, rfl, rfl⟩

/-- **Leaving the handler of the tick** loads the registers whose frame lies at the stack pointer that
`schedule` returned. -/
theorem irq00_leaves {r : Nat} (h : SavedAt c r e.mem) (m : Machine) :
    irq00Handler d (e.withRax r) m = { toContext := c, mem := e.mem } := by
  have hrax : (e.withRax r).gpr .rax = r := by
    show Function.update e.gpr Reg.rax r Reg.rax = r
    exact Function.update_self ..
  have hframe : SavedAt c ((e.withRax r).gpr .rax) e.mem := by
    rw [hrax]
    exact h
  unfold irq00Handler
  exact leave_eq (m := Machine.endOfInterrupt _) hframe

theorem irq00_mem (m : Machine) (r : Nat) : (irq00Handler d (e.withRax r) m).mem = e.mem := by
  unfold irq00Handler
  simp only [popState_eq]
  rfl

/-- the stacks of the others at the end of the tick -/
theorem tick_others {fuel : Nat} (hs : Stacked boot y.sched y.cur)
    (hok : (HostOp.tick fuel d e).ok boot sym y) {x : Nat} (hb : y.sched.heap b = some q)
    (hne : b ≠ y.cur) (hx : (home boot y.sched b q).has x) : e.mem x = y.cpu.mem x := by
  obtain ⟨⟨hbig, hin, hout⟩, hmem⟩ := hok
  obtain ⟨h1, h2⟩ := hmem x ⟨b, q, hb, hx, fun h => absurd h hne⟩
  rw [h2, h1]
  refine enter_outside _ hbig ?_
  have hapart : (nextFrame y.cpu).apart (home boot y.sched b q) := by
    cases hp : y.sched.heap y.cur with
    | none => exact hout hp b q hb
    | some p => exact (hs.apart y.cur b p q hp hb (Ne.symm hne)).of_within (hin p hp)
  have hnot : ¬ (frameTop y.cpu.rsp - frameSize ≤ x ∧ x < frameTop y.cpu.rsp) :=
    hapart.symm.not_has hx
  omega

/-- and that of the current process, from its new frame up -/
theorem tick_own {fuel : Nat} (hok : (HostOp.tick fuel d e).ok boot sym y) {x : Nat}
    (hb : y.sched.heap y.cur = some q) (hx : (home boot y.sched y.cur q).has x)
    (hsp : frameTop y.cpu.rsp - frameSize ≤ x) :
    e.mem x = (pushState (y.cpu.interrupt sym.irq00Handler)).mem x := by
  obtain ⟨-, hmem⟩ := hok
  obtain ⟨h1, h2⟩ := hmem x ⟨y.cur, q, hb, hx, fun _ => hsp⟩
  rw [h2, h1]

theorem alive_before {sp : Nat} (hidle : ∀ i p, s.idle = some i → s.heap i = some p →
    p.state ≠ .terminated) (ht : Sched.Stays (Sched.saveRsp s.running sp) s t)
    (hq : t.heap a = some q) (hst : q.state ≠ .terminated) : ∃ p, s.heap a = some p ∧
      p.state ≠ .terminated ∧ q.stackBase = p.stackBase ∧ q.rsp = Sched.saveRsp s.running sp a p.rsp := by
  obtain ⟨p, hp, ⟨hstack, hrsp⟩, hdead⟩ := ht.kept a q hq
  refine ⟨p, hp, fun e => ?_, hstack, hrsp⟩
  rcases hdead e with hd | hi
  · exact hst hd
  · exact hidle a p hi hp e

/-- **The tick keeps** the processes that are put away. -/
theorem put_kept {fuel : Nat} (h : Put boot a m y) (hs : Stacked boot y.sched y.cur)
    (hidle : ∀ i p, y.sched.idle = some i → y.sched.heap i = some p → p.state ≠ .terminated)
    (hok : (HostOp.tick fuel d e).ok boot sym y) (hne : a ≠ y.cur)
    (ht : Sched.Stays (Sched.saveRsp y.sched.running (frameTop y.cpu.rsp - frameSize)) y.sched t) :
    PutIn boot a m t e.mem := by
  have hmem : PutIn boot a m y.sched e.mem :=
    h.congr hs hne fun p x hp hx => tick_others hs hok hp hne hx
  have hsame : Sched.saveRsp y.sched.running (frameTop y.cpu.rsp - frameSize) a = fun n => n := by
    funext n
    exact if_neg fun hr => hne (hs.cpu a hr)
  refine ⟨by rw [ht.next]; exact h.old, fun q hq hst => ?_, fun q x hq hx hin => ?_⟩
  · obtain ⟨p, hp, hlive, -, hrsp⟩ := alive_before hidle ht hq hst
    rw [hrsp, hsame]
    exact hmem.frame p hp hlive
  · obtain ⟨p, hp, ⟨hstack, -⟩, -⟩ := ht.kept a q hq
    rw [home_eq ht.idle hstack] at hin
    exact hmem.stack p x hp hx hin

/-- **The tick puts away** the process that it takes the CPU from. -/
theorem put_away {fuel : Nat} (hs : Stacked boot y.sched y.cur)
    (hidle : ∀ i p, y.sched.idle = some i → y.sched.heap i = some p → p.state ≠ .terminated)
    (hok : (HostOp.tick fuel d e).ok boot sym y)
    (ht : Sched.Stays (Sched.saveRsp y.sched.running (frameTop y.cpu.rsp - frameSize)) y.sched t) :
    PutIn boot y.cur y.cpu t e.mem := by
  have hroom := hok.1
  obtain ⟨hbig, hin, -⟩ := hroom
  refine ⟨by rw [ht.next]; exact hs.young, fun q hq hst => ?_, fun q x hq hx hhome => ?_⟩
  · obtain ⟨p, hp, hlive, -, hrsp⟩ := alive_before hidle ht hq hst
    have hself : Sched.saveRsp y.sched.running (frameTop y.cpu.rsp - frameSize) y.cur p.rsp
        = frameTop y.cpu.rsp - frameSize := if_pos (hs.alive p hp hlive)
    rw [hrsp, hself]
    have hsaved := savedAt_enter (m := y.cpu) sym.irq00Handler hbig
    have hsp : (pushState (y.cpu.interrupt sym.irq00Handler)).rsp = frameTop y.cpu.rsp - frameSize := by
      rw [enter_eq]
    rw [hsp] at hsaved
    refine hsaved.congr fun x h1 h2 => tick_own hok hp ((hin p hp).has ⟨h1, ?_⟩) h1
    show x < frameTop y.cpu.rsp
    omega
  · obtain ⟨p, hp, ⟨hstack, -⟩, -⟩ := ht.kept y.cur q hq
    rw [home_eq ht.idle hstack] at hhome
    have htop : frameTop y.cpu.rsp ≤ x := Nat.le_trans (Nat.div_mul_le_self _ _) hx
    rw [tick_own hok hp hhome (by omega)]
    exact enter_outside _ hbig (Or.inr htop)

/-- **The tick gives back**: the process that gets the CPU has the registers it was put away with. -/
theorem put_back {r : Nat} (h : PutIn boot y'.cur m t e.mem) (hr : Sched.Handed r t)
    (hcur : t.running = some y'.cur)
    (hcpu : y'.cpu = irq00Handler d (e.withRax r) (y.cpu.interrupt sym.irq00Handler)) :
    y'.cpu.toContext = m.toContext := by
  obtain ⟨b, q, hb, hq, hrsp, hst⟩ := hr
  obtain rfl := Option.some.inj (hcur.symm.trans hb)
  have hsaved := h.frame q hq hst
  rw [hrsp] at hsaved
  rw [hcpu, irq00_leaves hsaved]

/-! ## runs -/

/-- the invariant of a host whose idle and init processes are `i` and `j` -/
structure Host.Inv (boot : Region) (i j base : Nat) (y : Host) : Prop where
  stacked : Stacked boot y.sched y.cur
  guarded : y.sched.Guarded i j base

variable {i j : Nat}

theorem Sched.Guarded.idle_alive (h : s.Guarded i j base) :
    ∀ i p, s.idle = some i → s.heap i = some p → p.state ≠ .terminated := by
  intro k p hk hp hst
  have hcases : s.idle = some i ∧ ∃ p, s.heap i = some p ∧ p.state.active := by
    rcases h with h | h
    · exact ⟨h.idle, h.idleProc⟩
    · exact ⟨h.idle, h.idleProc⟩
  obtain ⟨hidle, q, hq, hact⟩ := hcases
  obtain rfl := Option.some.inj (hidle.symm.trans hk)
  obtain rfl := Option.some.inj (hq.symm.trans hp)
  rw [hst] at hact
  exact hact.elim ProcessState.noConfusion ProcessState.noConfusion

theorem Sched.Guarded.assigned (h : s.Guarded i j base) :
    ∀ pid, assignPid s = some pid → pid ≠ 0 := fun _ hp =>
  h.elim (fun h => (h.assigned hp).1) fun h => (h.assigned hp).1

theorem call_parts {o : GuardOp} {entry argc argv : Nat} (hy : y.Inv boot i j base)
    (he : execHost sym (.call o entry argc argv) y = some y') :
    execGuard o y.kernel = some y'.kernel ∧ y'.cur = y.cur ∧ y'.cpu.toContext = y.cpu.toContext ∧
      y'.cpu.mem = bornMem sym y.sched y'.sched entry argc argv y.cpu.mem ∧
      (Sched.Parks y.sched y'.sched ∨ ∃ b, o.newStack = some b ∧ Sched.Born b y.sched y'.sched) := by
  have hno : ∀ fuel rsp, o ≠ .schedule fuel rsp := by
    rintro fuel rsp rfl
    exact absurd he (by simp [execHost])
  have hmap : execHost sym (.call o entry argc argv) y = (execGuard o y.kernel).map fun k =>
      { y with
        kernel := k
        cpu := { y.cpu with mem := bornMem sym y.sched k.sched entry argc argv y.cpu.mem } } := by
    cases o with
    | schedule fuel rsp => exact absurd rfl (hno fuel rsp)
    | _ => rfl
  rw [hmap] at he
  obtain ⟨k, hk, rfl⟩ := Option.map_eq_some_iff.mp he
  exact ⟨hk, rfl, rfl, rfl, Sched.parks_call hk hy.guarded.assigned hno⟩

/-- **One step** keeps the invariant. -/
theorem inv_execHost (o : HostOp) (y y' : Host) (hy : y.Inv boot i j base) (hok : o.ok boot sym y)
    (he : execHost sym o y = some y') : y'.Inv boot i j base := by
  cases o with
  | work c mem =>
    obtain rfl := Option.some.inj he
    exact ⟨hy.stacked, hy.guarded⟩
  | call o entry argc argv =>
    obtain ⟨hk, hcur, -, -, hsched⟩ := call_parts hy he
    have hguard := guarded_step o _ _ hy.guarded hok.1.1 hk
    refine ⟨?_, hguard⟩
    rw [hcur]
    rcases hsched with h | ⟨b, hb, h⟩
    · exact hy.stacked.parks h
    · exact hy.stacked.born h (hok.2 b hb)
  | tick fuel d e =>
    obtain ⟨r, t, hs, hcur, rfl, -⟩ := tick_parts he
    obtain ⟨hstays, hhanded⟩ := Sched.stays_schedule hs
    have hsize : frameTop y.cpu.rsp - frameSize + frameSize = frameTop y.cpu.rsp :=
      Nat.sub_add_cancel hok.1.1
    have hframe : ∀ p, y.sched.heap y.cur = some p →
        Region.within ⟨frameTop y.cpu.rsp - frameSize, frameTop y.cpu.rsp - frameSize + frameSize⟩
          (home boot y.sched y.cur p) := by
      rw [hsize]
      exact hok.1.2.1
    refine ⟨hy.stacked.tick hy.guarded.idle_alive hframe hstays hhanded hcur, ?_⟩
    refine Sched.guarded_schedule hy.guarded (fun hr => ?_) hs
    -- the init process runs on its own stack
    obtain rfl := hy.stacked.cpu j hr
    have hg := hy.guarded.cpu hr
    obtain ⟨p, hp, -, hb, -⟩ := hg.initProc
    have hne : ¬ y.sched.idle = some y.cur := fun h => hg.ne (Option.some.inj (hg.idle.symm.trans h))
    have hin := hframe p hp
    unfold home at hin
    rw [if_neg hne, hb] at hin
    obtain ⟨hlo, hhi⟩ := hin
    have hbig : 160 ≤ frameTop y.cpu.rsp := hok.1.1
    have hlo' : base ≤ frameTop y.cpu.rsp - 160 := hlo
    have hhi' : frameTop y.cpu.rsp - 160 + 160 ≤ base + processStackSize := hhi
    have hlt : frameTop y.cpu.rsp - 160 < base + processStackSize := by omega
    exact ⟨hlo', hlt⟩

/-- `a` was put away at `m`, and if it has the CPU back, then with its registers -/
def PutOrBack (boot : Region) (a : Nat) (m : Machine) (y : Host) : Prop :=
  Put boot a m y ∧ (y.cur = a → y.cpu.toContext = m.toContext)

/-- **One step of another process** keeps what was put away, and gives it back with the CPU. -/
theorem put_step (o : HostOp) (y y' : Host) (hy : y.Inv boot i j base) (h : Put boot a m y)
    (hok : o.ok boot sym y) (hne : y.cur ≠ a) (he : execHost sym o y = some y') :
    PutOrBack boot a m y' := by
  cases o with
  | work c mem =>
    obtain rfl := Option.some.inj he
    refine ⟨PutIn.congr h hy.stacked (Ne.symm hne) fun p x hp hx => ?_, fun hc => absurd hc hne⟩
    exact hok a p x hp (Ne.symm hne) hx
  | call o entry argc argv =>
    obtain ⟨-, hcur, -, hmem, hsched⟩ := call_parts hy he
    refine ⟨?_, fun hc => absurd (hcur.symm.trans hc) hne⟩
    unfold Put
    rw [hmem]
    rcases hsched with hs | ⟨b, hb, hs⟩
    · rw [bornMem_parks hy.stacked hs]
      exact PutIn.parks h hs
    · exact PutIn.born h hy.stacked (Ne.symm hne) hs (hok.2 b hb) entry argc argv
  | tick fuel d e =>
    obtain ⟨r, t, hs, hcur, rfl, hcpu⟩ := tick_parts he
    obtain ⟨hstays, hhanded⟩ := Sched.stays_schedule hs
    have hkept := put_kept h hy.stacked hy.guarded.idle_alive hok (Ne.symm hne) hstays
    have hmem : y'.cpu.mem = e.mem := by rw [hcpu, irq00_mem]
    refine ⟨?_, fun hc => ?_⟩
    · unfold Put
      rw [hmem]
      exact hkept
    · subst hc
      exact put_back hkept hhanded hcur hcpu

theorem put_tick {fuel : Nat} (hy : y.Inv boot i j base) (hok : (HostOp.tick fuel d e).ok boot sym y)
    (he : execHost sym (.tick fuel d e) y = some y') : PutOrBack boot y.cur y.cpu y' := by
  obtain ⟨r, t, hs, hcur, rfl, hcpu⟩ := tick_parts he
  obtain ⟨hstays, hhanded⟩ := Sched.stays_schedule hs
  have haway := put_away hy.stacked hy.guarded.idle_alive hok hstays
  have hmem : y'.cpu.mem = e.mem := by rw [hcpu, irq00_mem]
  refine ⟨?_, fun hc => ?_⟩
  · unfold Put
    rw [hmem]
    exact haway
  · rw [← hc] at haway
    exact put_back haway hhanded hcur hcpu

theorem put_run {os : List HostOp} (hy : y.Inv boot i j base) (h : PutOrBack boot a m y)
    (hrun : Runs (execHost sym) (fun o y => o.ok boot sym y ∧ y.cur ≠ a) os y y') :
    PutOrBack boot a m y' := by
  have hinv : y'.Inv boot i j base ∧ PutOrBack boot a m y' := by
    refine Runs.inv (I := fun y => y.Inv boot i j base ∧ PutOrBack boot a m y) ?_ hrun ⟨hy, h⟩
    intro o u u' hu hok he
    exact ⟨inv_execHost o u u' hu.1 hok.1 he, put_step o u u' hu.1 hu.2.1 hok.1 hok.2 he⟩
  exact hinv.2

/-! ## boot -/

/-- the host when `main` forces the first tick, on the boot stack -/
def bootHost (cpu : Machine) (idleStack : Nat) (idleRecycled : List Int) (initStack : Nat)
    (initRecycled : List Int) : Host where
  cpu := cpu
  kernel := bootKernel idleStack idleRecycled initStack initRecycled
  cur := 0

theorem bootSched_heap (idleStack : Nat) (idleRecycled : List Int) (hne : a ≠ 0) :
    (Sched.bootSched idleStack idleRecycled).heap a = none :=
  Function.update_of_ne (f := fun _ => none) hne ..

theorem stacked_bootSched (idleStack : Nat) (idleRecycled : List Int) :
    Stacked boot (Sched.bootSched idleStack idleRecycled) 0 := by
  have honly : ∀ a p, (Sched.bootSched idleStack idleRecycled).heap a = some p → a = 0 := by
    intro a p hp
    by_contra hne
    rw [bootSched_heap idleStack idleRecycled hne] at hp
    exact absurd hp (by simp)
  refine ⟨fun a ha => ?_, fun i hi => ?_, Nat.zero_lt_one, fun a b p q hp hq hne => ?_, fun a ha => ?_,
    fun _ _ _ => rfl, fun a p hp hne => absurd (honly a p hp) hne⟩
  · exact bootSched_heap idleStack idleRecycled (Nat.ne_of_gt ha)
  · obtain rfl := Option.some.inj hi
    exact Nat.zero_lt_one
  · exact absurd ((honly a p hp).trans (honly b q hq).symm) hne
  · exact (Option.some.inj ha).symm

theorem inv_bootHost (cpu : Machine) (idleStack : Nat) (idleRecycled : List Int) {initStack : Nat}
    (initRecycled : List Int)
    (hroom : Region.apart ⟨initStack, initStack + processStackSize⟩ boot) :
    (bootHost cpu idleStack idleRecycled initStack initRecycled).Inv boot 0 1 initStack := by
  refine ⟨?_, Or.inr (guard_boot idleStack idleRecycled initStack initRecycled)⟩
  obtain ⟨k, hk⟩ : ∃ k : Kernel, k = { initScheduler idleStack idleRecycled with
    sems := keyboardSemInit (initScheduler idleStack idleRecycled).sems } := ⟨_, rfl⟩
  have hsched : k.sched = Sched.bootSched idleStack idleRecycled := by
    rw [hk, Sched.initScheduler_eq]
  have hkernel : (bootHost cpu idleStack idleRecycled initStack initRecycled).sched
      = (createProcess k (bootArgs ['i', 'n', 'i', 't'] false initStack initRecycled)).2.sched := by
    rw [hk]
    rfl
  have hstacked : Stacked boot k.sched 0 := by
    rw [hsched]
    exact stacked_bootSched idleStack idleRecycled
  have hassign : ∀ pid, assignPid k.sched = some pid → pid ≠ 0 := by
    rw [hsched]
    intro pid hp
    have hone : assignPid (Sched.bootSched idleStack idleRecycled) = some 1 := rfl
    obtain rfl := Option.some.inj (hone.symm.trans hp)
    decide
  have hhome : ∀ b q, k.sched.heap b = some q → home boot k.sched b q = boot := by
    rw [hsched]
    intro b q hq
    have hb : b = 0 := by
      by_contra hne
      rw [bootSched_heap idleStack idleRecycled hne] at hq
      exact absurd hq (by simp)
    exact if_pos (congrArg some hb.symm)
  rw [hkernel]
  rcases Sched.born_createProcess (bootArgs ['i', 'n', 'i', 't'] false initStack initRecycled) hassign
    with h | h
  · exact hstacked.parks h
  · refine hstacked.born h fun b q hq => ?_
    rw [hhome b q hq]
    exact hroom

/-- **The context switch is transparent.**  In every run from boot, whatever the processes do, and
whatever settled calls they make: a process that is interrupted by the tick, and gets the CPU back for the first time after
that, finds every register as it was, and every word of its stack from its stack pointer up. -/
theorem resumes {cpu : Machine} {idleStack : Nat} {idleRecycled : List Int} {initStack : Nat}
    {initRecycled : List Int} {os os' : List HostOp} {y₁ y₂ y₃ : Host} {fuel : Nat}
    (hroom : Region.apart ⟨initStack, initStack + processStackSize⟩ boot)
    (h₁ : Runs (execHost sym) (fun o y => o.ok boot sym y) os
      (bootHost cpu idleStack idleRecycled initStack initRecycled) y₁)
    (hok : (HostOp.tick fuel d e).ok boot sym y₁)
    (h₂ : execHost sym (.tick fuel d e) y₁ = some y₂)
    (h₃ : Runs (execHost sym) (fun o y => o.ok boot sym y ∧ y.cur ≠ y₁.cur) os' y₂ y₃)
    (hback : y₃.cur = y₁.cur) :
    y₃.cpu.toContext = y₁.cpu.toContext ∧
      ∀ p x, y₃.sched.heap y₁.cur = some p → y₁.cpu.rsp ≤ x → (home boot y₃.sched y₁.cur p).has x →
        y₃.cpu.mem x = y₁.cpu.mem x := by
  have hboot : (bootHost cpu idleStack idleRecycled initStack initRecycled).Inv boot 0 1 initStack :=
    inv_bootHost cpu idleStack idleRecycled initRecycled hroom
  have hinv₁ : y₁.Inv boot 0 1 initStack :=
    Runs.inv (I := fun y : Host => y.Inv boot 0 1 initStack) inv_execHost h₁ hboot
  have hinv₂ := inv_execHost (HostOp.tick fuel d e) y₁ y₂ hinv₁ hok h₂
  obtain ⟨hput, hcontext⟩ := put_run hinv₂ (put_tick hinv₁ hok h₂) h₃
  exact ⟨hcontext hback, fun p x hp hx hin => PutIn.stack hput p x hp hx hin⟩

end

/-! ## a small run -/

/-- the boot stack of `lowHost` -/
def lowBoot : Region := ⟨0, 8192⟩

/-- `main` on its stack, with the stack of the init process above it -/
def lowHost : Host :=
  bootHost { lowMachine with mem := stackInitMem lowSymbols 16384 0 0 0 fun _ => 0 } 0 [] 8192 []

/-- a tick whose C functions write nothing -/
def quietTick (y : Host) : HostOp :=
  let c : CReturn := { gpr := fun _ => 0, rflags := 0
                       mem := (pushState (y.cpu.interrupt lowSymbols.irq00Handler)).mem }
  .tick 4 c c

def quiet (y : Host) : Host := (execHost lowSymbols (quietTick y) y).getD y

/-- the frame of the tick fits in the stack of the current process -/
def fits (y : Host) : Bool :=
  (y.sched.heap y.cur).any fun p =>
    decide (frameSize ≤ frameTop y.cpu.rsp ∧
      (home lowBoot y.sched y.cur p).lo ≤ frameTop y.cpu.rsp - frameSize ∧
      frameTop y.cpu.rsp ≤ (home lowBoot y.sched y.cur p).hi)

theorem ok_quietTick {y : Host} (h : fits y = true) : (quietTick y).ok lowBoot lowSymbols y := by
  unfold fits at h
  cases hp : y.sched.heap y.cur with
  | none =>
    rw [hp] at h
    exact absurd h Bool.false_ne_true
  | some p =>
    rw [hp] at h
    obtain ⟨hbig, hlo, hhi⟩ := of_decide_eq_true h
    refine ⟨⟨hbig, fun q hq => ?_, fun hn => ?_⟩, fun x _ => ⟨?_, rfl⟩⟩
    · obtain rfl := Option.some.inj (hp.symm.trans hq)
      exact ⟨hlo, hhi⟩
    · rw [hp] at hn
      exact absurd hn (by simp)
    · generalize pushState _ = u
      rfl

theorem quiet_step {y : Host} (h : (execHost lowSymbols (quietTick y) y).isSome = true) :
    execHost lowSymbols (quietTick y) y = some (quiet y) := by
  obtain ⟨y', hy'⟩ := Option.isSome_iff_exists.mp h
  unfold quiet
  rw [hy']
  rfl

/-- the init process creates another one -/
def lowCreate : HostOp := .call (.create (plainArgs ['p'] 16384)) 1000 2 3000

def lowTwo : Host := (execHost lowSymbols lowCreate (quiet lowHost)).getD lowHost

/-- no stack overlaps the one at `base` -/
def clear (base : Nat) (y : Host) : Bool :=
  (List.range y.sched.next).all fun b => (y.sched.heap b).all fun q =>
    decide (base + processStackSize ≤ (home lowBoot y.sched b q).lo ∨
      (home lowBoot y.sched b q).hi ≤ base)

theorem inv_lowHost : lowHost.Inv lowBoot 0 1 8192 :=
  inv_bootHost _ 0 [] [] (Or.inr (Nat.le_refl _))

theorem ok_lowHost : (quietTick lowHost).ok lowBoot lowSymbols lowHost :=
  ok_quietTick (by decide +kernel)

theorem step_lowHost : execHost lowSymbols (quietTick lowHost) lowHost = some (quiet lowHost) :=
  quiet_step (by decide +kernel)

theorem ok_lowCreate : lowCreate.ok lowBoot lowSymbols (quiet lowHost) := by
  have hinv := inv_execHost (quietTick lowHost) _ _ inv_lowHost ok_lowHost step_lowHost
  have hclear : clear 16384 (quiet lowHost) = true := by decide +kernel
  refine ⟨⟨by decide +kernel, rfl⟩, fun base hbase b q hq => ?_⟩
  have hbase' : base = 16384 := (Option.some.inj hbase).symm
  have hall := List.all_eq_true.mp hclear b (List.mem_range.mpr (hinv.stacked.lt_next hq))
  rw [hq, hbase'.symm] at hall
  simp only [Option.all_some, decide_eq_true_eq] at hall
  exact hall

theorem step_lowCreate : execHost lowSymbols lowCreate (quiet lowHost) = some lowTwo := by
  have hsome : (execHost lowSymbols lowCreate (quiet lowHost)).isSome = true := by decide +kernel
  obtain ⟨y', hy'⟩ := Option.isSome_iff_exists.mp hsome
  unfold lowTwo
  rw [hy']
  rfl

/-- the init process is interrupted, the other process runs, and the init process goes on -/
theorem resumes_init : (quiet lowTwo).cur = 2 ∧ (quiet (quiet lowTwo)).cur = 1 ∧
    (quiet (quiet lowTwo)).cpu.toContext = lowTwo.cpu.toContext := by
  have hback : (quiet (quiet lowTwo)).cur = lowTwo.cur := by decide +kernel
  have hrun₁ : Runs (execHost lowSymbols) (fun o y => o.ok lowBoot lowSymbols y)
      [quietTick lowHost, lowCreate] lowHost lowTwo :=
    ⟨ok_lowHost, _, step_lowHost, ok_lowCreate, _, step_lowCreate, rfl⟩
  have hrun₂ : Runs (execHost lowSymbols) (fun o y => o.ok lowBoot lowSymbols y ∧ y.cur ≠ lowTwo.cur)
      [quietTick (quiet lowTwo)] (quiet lowTwo) (quiet (quiet lowTwo)) :=
    ⟨⟨ok_quietTick (by decide +kernel), by decide +kernel⟩, _, quiet_step (by decide +kernel), rfl⟩
  exact ⟨by decide +kernel, by decide +kernel,
    (resumes (Or.inr (Nat.le_refl _)) hrun₁ (ok_quietTick (by decide +kernel))
      (quiet_step (by decide +kernel)) hrun₂ hback).1⟩

end Tp2So
