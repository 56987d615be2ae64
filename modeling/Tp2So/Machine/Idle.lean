import Tp2So.Machine.Switch
import Tp2So.Ready.Choice
import Tp2So.Ready.RoundRobin
import Tp2So.Ready.Waiting

/-!
# The idle process

`main` becomes the idle process, forces the first tick, and halts in a loop.  Quanta are one tick long
and the init process never leaves the scheduler, so that every tick finds somebody to run: `main` never
comes back from the tick that it forced, and the processor never halts there.

* `selectNext_finds`   with the init process in a queue, somebody is chosen;
* `Sched.Picks`        a process that was READY or running goes on, inside its stack;
* `schedule_runs`      if the queues are right and all saved stack pointers are good, `schedule` ends,
                       and does not fall back on the idle process;
* `savedIn`            they are good in every run;
* `tick_runs`          every tick has a result;
* `never_idle`         and no run comes back to the idle process.
-/

set_option linter.unusedVariables false

namespace Tp2So

namespace Sched
variable {i j base fuel rsp : Nat} {s t u : Sched} {a b : Nat} {p q : Process} {next : Option Nat}
  {c : Prop} {v w : Nat → Nat → Nat}

/-- the stack pointers, as `w` changes them, are inside the stacks -/
def SavedIn (w : Nat → Nat → Nat) (s : Sched) : Prop :=
  ∀ a p, s.heap a = some p → p.state ≠ .terminated → s.idle ≠ some a →
    p.stackBase ≤ w a p.rsp ∧ w a p.rsp < p.stackBase + processStackSize

theorem SavedIn.stays (h : SavedIn (fun a n => v a (w a n)) s) (ht : Stays w s t)
    (hidle : ∀ i p, s.idle = some i → s.heap i = some p → p.state ≠ .terminated) : SavedIn v t := by
  intro a q hq hst hi
  obtain ⟨p, hp, ⟨hstack, hrsp⟩, hdead⟩ := ht.kept a q hq
  have hlive : p.state ≠ .terminated := by
    intro e
    rcases hdead e with hd | hidle'
    · exact hst hd
    · exact hidle a p hidle' hp e
  rw [hstack, hrsp]
  exact h a p hp hlive fun e => hi (ht.idle.trans e)

/-- a process in a queue keeps the choice from coming back empty -/
theorem selectNext_finds (h : ∃ c, s.Guard i j base .queue c)
    (hsel : selectNext [3, 2, 1, 0] s = some (next, u)) : ∃ b p, next = some b ∧ b ≠ i ∧
      u.idle = some i ∧ u.heap b = some p ∧ p.state = .ready := by
  have hpicked := picked_selectNext _ h hsel
  cases next with
  | none =>
    obtain ⟨c, hg⟩ := hpicked
    obtain ⟨hempty, -⟩ := selectNext_none _ hsel
    have hzero : u.places j = 0 := by
      unfold places
      rw [hempty 0 (by decide), hempty 1 (by decide), hempty 2 (by decide), hempty 3 (by decide)]
      rfl
    exact absurd (hzero.symm.trans hg.init) Nat.zero_ne_one
  | some b =>
    obtain ⟨c, hne, -⟩ := hpicked
    obtain ⟨hheap, hidle, p, hp, hst, -⟩ := selectNext_some _ hsel
    obtain ⟨d, hg⟩ := h
    exact ⟨b, p, rfl, hne, by rw [hidle]; exact hg.idle, by rw [hheap]; exact hp, hst⟩

/-- `schedule` returns `r`, the stack pointer of process `b`, which was READY or running -/
structure Picks (s : Sched) (b r : Nat) (t : Sched) : Prop where
  running : t.running = some b
  other : t.idle ≠ some b
  was : ∃ p, s.heap b = some p ∧ (p.state = .ready ∨ (p.state = .running ∧ s.running = some b))
  now : ∃ q, t.heap b = some q ∧ q.state = .running ∧ q.rsp = r ∧
    q.stackBase ≤ r ∧ r < q.stackBase + processStackSize

theorem addToScheduler_others (s : Sched) (hne : b ≠ a) :
    (addToScheduler s a).heap b = s.heap b := by
  unfold addToScheduler
  split
  · rfl
  · simp only
    split
    · exact heapMod_of_ne _ _ hne
    · exact heapMod_of_ne _ _ hne

theorem preempt_others {x : Sched ⊕ Sched} (hx : preempt rsp s = some x)
    (hb : s.running ≠ some b) : (x.elim id id).heap b = s.heap b := by
  unfold preempt at hx
  split at hx
  · exact Option.some.inj hx ▸ rfl
  · rename_i a hrun
    have hne : b ≠ a := fun e => hb (by rw [hrun, e])
    have hmod : ∀ (u : Sched) (f : Process → Process), (u.modify a f).heap b = u.heap b :=
      fun u f => heapMod_of_ne _ _ hne
    split at hx
    · exact absurd hx (by simp)
    · simp only at hx
      split at hx
      · exact Option.some.inj hx ▸ hmod s _
      · exact Option.some.inj hx ▸ hmod s _
      · exact Option.some.inj hx ▸ hmod s _
      · have hquantum : ∀ n, ((s.modify a (Process.setRsp rsp)).modify a
            (Process.setQuantum n)).heap b = s.heap b := fun n => (hmod _ _).trans (hmod s _)
        split at hx
        · exact Option.some.inj hx ▸ hquantum _
        · refine Option.some.inj hx ▸ (addToScheduler_others _ hne).trans ?_
          rw [hmod, hmod]
          exact hquantum _

theorem preempt_self {x : Sched ⊕ Sched} (hx : preempt rsp s = some x) (ha : s.running = some a)
    (hp : s.heap a = some p) (hst : p.state = .blocked ∨ p.state = .terminated) :
    (x.elim id id).heap a = some (p.setRsp rsp) := by
  have hself : (s.modify a (Process.setRsp rsp)).heap a = some (p.setRsp rsp) :=
    modify_heap_self _ hp
  unfold preempt at hx
  simp only [ha, hp] at hx
  rcases hst with hst | hst
  · simp only [hst] at hx
    exact Option.some.inj hx ▸ hself
  · simp only [hst] at hx
    exact Option.some.inj hx ▸ hself

theorem preempt_ready (hok : s.Ok) (hx : preempt rsp s = some (.inr t)) (hq : t.heap b = some q)
    (hst : q.state = .ready) :
    ∃ p, s.heap b = some p ∧ (p.state = .ready ∨ (p.state = .running ∧ s.running = some b)) := by
  by_cases hb : s.running = some b
  · obtain ⟨p, hp, -, -⟩ := hok.running b hb
    refine ⟨p, hp, ?_⟩
    have hgone : p.state = .blocked ∨ p.state = .terminated → False := by
      intro hps
      obtain rfl := Option.some.inj ((preempt_self hx hb hp hps).symm.trans hq)
      have hsame : p.state = .ready := hst
      rw [hsame] at hps
      exact hps.elim ProcessState.noConfusion ProcessState.noConfusion
    cases hps : p.state with
    | ready => exact Or.inl rfl
    | running => exact Or.inr ⟨rfl, hb⟩
    | blocked => exact (hgone (Or.inl hps)).elim
    | terminated => exact (hgone (Or.inr hps)).elim
  · exact ⟨q, (preempt_others hx hb).symm.trans hq, Or.inl hst⟩

/-- **`schedule` finds a READY process**, other than the idle one, that can go on in its stack. -/
theorem schedule_runs (h : Guarded i j base s) (hsound : s.Sound)
    (hin : s.running = some j → base ≤ rsp ∧ rsp < base + processStackSize)
    (halive : ∀ i p, s.idle = some i → s.heap i = some p → p.state ≠ .terminated)
    (hsaved : SavedIn (saveRsp s.running rsp) s) {r : Nat × Sched}
    (hs : schedule fuel rsp s = some r) : ∃ b, s.Picks b r.1 r.2 ∧ b ≠ i := by
  obtain ⟨s₁, ha, hparts⟩ := schedule_parts hs
  have haged := agedAll_of hsound.ok ha
  obtain ⟨hstays, hrun⟩ := stays_applyAging ha
  have hg₁ : Guarded i j base s₁ := guarded_applyAging h ha
  rcases hparts with ⟨s₂, hp, -⟩ | ⟨s₂, next, u, hp, hsel, hd⟩
  · obtain ⟨x, hx, -⟩ := preempt_short (short_applyAging hsound.short ha) hp
    cases hx
  · have hqueued : ∃ c, s₂.Guard i j base .queue c :=
      guard_preempt hg₁ (by rw [hrun]; exact hin) hp
    have hput : Stays (saveRsp s₁.running rsp) s₁ s₂ := stays_preempt hp
    rw [hrun] at hput
    obtain ⟨b, p, rfl, hne, hidle, hb, hst⟩ := selectNext_finds hqueued hsel
    have hall : Stays (saveRsp s.running rsp) s u :=
      (hstays.trans hput).trans (stays_selectNext _ hsel)
    have hgood : SavedIn keepRsp u := SavedIn.stays hsaved hall halive
    have hi : u.idle ≠ some b := fun e => hne (Option.some.inj (e.symm.trans hidle))
    have hlive : p.state ≠ .terminated := by
      rw [hst]
      exact ProcessState.noConfusion
    have hstack : p.stackBase ≤ p.rsp ∧ p.rsp < p.stackBase + processStackSize :=
      hgood b p hb hlive hi
    have hnot : ¬ (p.rsp < p.stackBase ∨ p.stackBase + processStackSize ≤ p.rsp) := by
      omega
    rw [dispatch_ready hb hst hi, if_neg hnot] at hd
    obtain rfl := Option.some.inj hd
    -- where it comes from
    obtain ⟨hheap, -⟩ := selectNext_some _ hsel
    rw [hheap] at hb
    obtain ⟨p₁, hp₁, hst₁⟩ := preempt_ready (ok_applyAging hsound.ok ha) hp hb hst
    obtain ⟨p₀, hp₀, hsame, -⟩ := haged.heap_some hp₁
    have hself : (u.modify b onCpu).heap b = some (onCpu p) :=
      modify_heap_self _ (by rw [hheap]; exact hb)
    refine ⟨b, ⟨rfl, hi, ⟨p₀, hp₀, ?_⟩, ⟨onCpu p, hself, rfl, rfl, hstack⟩⟩, hne⟩
    rw [← hsame, ← hrun]
    exact hst₁

end Sched

section
variable {boot : Region} {sym : Symbols} {y y' : Host} {i j base fuel : Nat} {d e : CReturn}

/-- at every tick the saved stack pointers are good -/
theorem savedIn (hs : Stacked boot y.sched y.cur) (hroom : y.room boot) :
    Sched.SavedIn (Sched.saveRsp y.sched.running (frameTop y.cpu.rsp - frameSize)) y.sched := by
  obtain ⟨hbig, hin, -⟩ := hroom
  intro a p hp hst hi
  have hhome : home boot y.sched a p = ⟨p.stackBase, p.stackBase + processStackSize⟩ := if_neg hi
  unfold Sched.saveRsp
  by_cases hcur : a = y.cur
  · -- the frame that the tick pushes
    subst hcur
    rw [if_pos (hs.alive p hp hst)]
    have hframe := hin p hp
    rw [hhome] at hframe
    obtain ⟨hlo, hhi⟩ := hframe
    have hhi' : frameTop y.cpu.rsp ≤ p.stackBase + processStackSize := hhi
    have hpos : 0 < frameSize := by decide
    exact ⟨hlo, by omega⟩
  · -- a frame that an earlier tick pushed
    rw [if_neg fun hr => hcur (hs.cpu a hr)]
    have hframe := hs.parked a p hp hcur hst
    rw [hhome] at hframe
    obtain ⟨hlo, hhi⟩ := hframe
    have hhi' : p.rsp + 160 ≤ p.stackBase + processStackSize := hhi
    exact ⟨hlo, by omega⟩

/-- the invariants of the host and of the ready queues -/
def Host.Brisk (boot : Region) (i j base : Nat) (y : Host) : Prop :=
  y.Inv boot i j base ∧ y.sched.Sound

theorem brisk_step (o : HostOp) (y y' : Host) (hy : y.Brisk boot i j base) (hok : o.ok boot sym y)
    (he : execHost sym o y = some y') : y'.Brisk boot i j base := by
  obtain ⟨hinv, hsound⟩ := hy
  refine ⟨inv_execHost o y y' hinv hok he, ?_⟩
  cases o with
  | work c mem =>
    obtain rfl := Option.some.inj he
    exact hsound
  | call o entry argc argv =>
    obtain ⟨hk, -⟩ := call_parts hinv he
    exact Sched.sound_step o _ _ hsound hok.1.2 hk
  | tick fuel d e =>
    obtain ⟨r, t, hs, -, rfl, -⟩ := tick_parts he
    exact ⟨Sched.ok_schedule hsound.ok hs, Sched.short_schedule hsound.short hs⟩

/-- the stack pointer that the tick saves for the init process -/
theorem init_room (hinv : y.Inv boot i j base) (hroom : y.room boot) (hr : y.sched.running = some j) :
    base ≤ frameTop y.cpu.rsp - frameSize ∧
      frameTop y.cpu.rsp - frameSize < base + processStackSize := by
  have hg := hinv.guarded.cpu hr
  obtain ⟨p, hp, hst, hb, -⟩ := hg.initProc
  have hlive : p.state ≠ .terminated := by
    rw [hst]
    exact ProcessState.noConfusion
  have hi : y.sched.idle ≠ some j := fun e => hg.ne (Option.some.inj (hg.idle.symm.trans e))
  have hin := savedIn hinv.stacked hroom j p hp hlive hi
  have hself : Sched.saveRsp y.sched.running (frameTop y.cpu.rsp - frameSize) j p.rsp
      = frameTop y.cpu.rsp - frameSize := if_pos hr
  rw [hself, hb] at hin
  exact hin

/-- what `schedule` picks in a tick -/
theorem tick_picks (hy : y.Brisk boot i j base) (hroom : y.room boot) {r : Nat × Sched}
    (hs : schedule fuel (frameTop y.cpu.rsp - frameSize) y.sched = some r) :
    ∃ b, y.sched.Picks b r.1 r.2 ∧ b ≠ i :=
  Sched.schedule_runs hy.1.guarded hy.2 (init_room hy.1 hroom) hy.1.guarded.idle_alive
    (savedIn hy.1.stacked hroom) hs

/-- **Every tick has a result**: it goes on with somebody else than the idle process. -/
theorem tick_runs (hy : y.Brisk boot i j base) (hok : (HostOp.tick fuel d e).ok boot sym y)
    (hfuel : agingTurns y.sched ≤ fuel) : ∃ y', execHost sym (.tick fuel d e) y = some y' ∧
      (∃ r, y.sched.Picks y'.cur r y'.sched) ∧ y'.cur ≠ i := by
  obtain ⟨⟨r, t⟩, hs⟩ := schedule_of_ok hy.2.ok (frameTop y.cpu.rsp - frameSize) hfuel
  obtain ⟨b, hpicks, hne⟩ := tick_picks hy hok.1 hs
  refine ⟨{ cpu := irq00Handler d (e.withRax r) (y.cpu.interrupt sym.irq00Handler)
            kernel := y.kernel.setSched t, cur := b }, ?_, ⟨r, hpicks⟩, hne⟩
  have hsp : (pushState (y.cpu.interrupt sym.irq00Handler)).rsp = frameTop y.cpu.rsp - frameSize := by
    rw [enter_eq]
  show (schedule fuel (pushState (y.cpu.interrupt sym.irq00Handler)).rsp y.sched).bind _ = _
  rw [hsp, hs, Option.bind_some, hpicks.running]
  rfl

theorem tick_leaves (hy : y.Brisk boot i j base) (hok : (HostOp.tick fuel d e).ok boot sym y)
    (he : execHost sym (.tick fuel d e) y = some y') : y'.cur ≠ i := by
  obtain ⟨r, t, hs, hcur, rfl, -⟩ := tick_parts he
  obtain ⟨b, hpicks, hne⟩ := tick_picks hy hok.1 hs
  obtain rfl := Option.some.inj (hpicks.running.symm.trans hcur)
  exact hne

/-- somebody other than the idle process has the CPU -/
def Host.Busy (boot : Region) (i j base : Nat) (y : Host) : Prop :=
  y.Brisk boot i j base ∧ y.cur ≠ i

theorem busy_step (o : HostOp) (y y' : Host) (hy : y.Busy boot i j base) (hok : o.ok boot sym y)
    (he : execHost sym o y = some y') : y'.Busy boot i j base := by
  obtain ⟨hbrisk, hne⟩ := hy
  refine ⟨brisk_step o y y' hbrisk hok he, ?_⟩
  cases o with
  | work c mem =>
    obtain rfl := Option.some.inj he
    exact hne
  | call o entry argc argv =>
    obtain ⟨-, hcur, -⟩ := call_parts hbrisk.1 he
    rw [hcur]
    exact hne
  | tick fuel d e => exact tick_leaves hbrisk hok he

theorem brisk_bootHost (cpu : Machine) (idleStack : Nat) (idleRecycled : List Int) {initStack : Nat}
    (initRecycled : List Int)
    (hroom : Region.apart ⟨initStack, initStack + processStackSize⟩ boot) :
    (bootHost cpu idleStack idleRecycled initStack initRecycled).Brisk boot 0 1 initStack :=
  ⟨inv_bootHost cpu idleStack idleRecycled initRecycled hroom,
    Sched.sound_bootKernel idleStack idleRecycled initStack initRecycled⟩

theorem Host.Inv.idle_eq (h : y.Inv boot i j base) : y.sched.idle = some i :=
  h.guarded.elim (fun h => h.idle) fun h => h.idle

/-- **The idle process never runs again.**  In every run from boot, whatever settled calls the
processes make, kill, block and exit: the next tick ends, and hands the CPU to a process that was READY
or running, with its stack pointer in its stack; and from then on the code on the CPU is never that of
`main`, and `running_process` is never the idle process. -/
theorem never_idle {cpu : Machine} {idleStack : Nat} {idleRecycled : List Int} {initStack : Nat}
    {initRecycled : List Int} {os : List HostOp} {y₁ : Host}
    (hroom : Region.apart ⟨initStack, initStack + processStackSize⟩ boot)
    (h₁ : Runs (execHost sym) (fun o y => o.ok boot sym y) os
      (bootHost cpu idleStack idleRecycled initStack initRecycled) y₁)
    (hok : (HostOp.tick fuel d e).ok boot sym y₁) (hfuel : agingTurns y₁.sched ≤ fuel) :
    ∃ y₂, execHost sym (.tick fuel d e) y₁ = some y₂ ∧
      (∃ r, y₁.sched.Picks y₂.cur r y₂.sched) ∧
      ∀ os' y₃, Runs (execHost sym) (fun o y => o.ok boot sym y) os' y₂ y₃ →
        y₃.sched.idle ≠ some y₃.cur ∧ y₃.sched.running ≠ y₃.sched.idle := by
  have hboot : (bootHost cpu idleStack idleRecycled initStack initRecycled).Brisk boot 0 1 initStack :=
    brisk_bootHost cpu idleStack idleRecycled initRecycled hroom
  have hbrisk₁ : y₁.Brisk boot 0 1 initStack :=
    Runs.inv (I := fun y : Host => y.Brisk boot 0 1 initStack) brisk_step h₁ hboot
  obtain ⟨y₂, h₂, hpicks, hne₂⟩ := tick_runs hbrisk₁ hok hfuel
  refine ⟨y₂, h₂, hpicks, ?_⟩
  intro os' y₃ h₃
  have hbusy₂ : y₂.Busy boot 0 1 initStack :=
    ⟨brisk_step (HostOp.tick fuel d e) y₁ y₂ hbrisk₁ hok h₂, hne₂⟩
  obtain ⟨⟨hinv, -⟩, hne⟩ : y₃.Busy boot 0 1 initStack :=
    Runs.inv (I := fun y : Host => y.Busy boot 0 1 initStack) busy_step h₃ hbusy₂
  rw [hinv.idle_eq]
  refine ⟨fun e => hne (Option.some.inj e).symm, fun e => hne ?_⟩
  exact (hinv.stacked.cpu 0 e).symm

end

/-- the init process and another one have run: the next tick finds one of them -/
theorem never_idle_two : ∃ y, execHost lowSymbols (quietTick (quiet (quiet lowTwo)))
      (quiet (quiet lowTwo)) = some y ∧
    (∃ r, (quiet (quiet lowTwo)).sched.Picks y.cur r y.sched) ∧
    y.sched.running ≠ y.sched.idle := by
  have hrun : Runs (execHost lowSymbols) (fun o y => o.ok lowBoot lowSymbols y)
      [quietTick lowHost, lowCreate, quietTick lowTwo, quietTick (quiet lowTwo)] lowHost
      (quiet (quiet lowTwo)) :=
    ⟨ok_lowHost, _, step_lowHost, ok_lowCreate, _, step_lowCreate, ok_quietTick (by decide +kernel), _,
      quiet_step (by decide +kernel), ok_quietTick (by decide +kernel), _,
      quiet_step (by decide +kernel), rfl⟩
  have hroom : Region.apart ⟨8192, 8192 + processStackSize⟩ lowBoot := Or.inr (Nat.le_refl _)
  obtain ⟨y, hy, hpicks, hnever⟩ := never_idle hroom hrun (ok_quietTick (by decide +kernel))
    (by decide +kernel)
  exact ⟨y, hy, hpicks, (hnever [] y rfl).2⟩

end Tp2So
