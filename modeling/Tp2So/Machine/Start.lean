import Tp2So.Machine.Switch

/-!
# The first steps of a process

`create_process` leaves a frame for a process that has never run.  Its first tick loads that frame,
and the wrapper, which starts, calls the entry point of the process with `argc` in `rcx` and `argv` in
`r8`; the stubs of `entry_points.asm` move them to where a C function expects its arguments.

* `put_new`      a new process has been put away with its first frame;
* `Started`      what the registers are when a command starts, and what happens when it returns;
* `first_steps`  every process that is created starts like this.
-/

set_option linter.unusedVariables false

namespace Tp2So

/-- the machine has just been given to a new process: its wrapper calls the entry point, whose stub
calls the command with `argc` and `argv`; the command returns into the stub, the stub into the
wrapper, and the wrapper goes on to `process_terminator`, which has waited in `r13`, a register that C
functions keep -/
structure Started (sym : Symbols) (entry argc argv : Nat) (m : Machine) : Prop where
  entry : (processWrapper sym m).rip = entry
  args : ∀ command ret, (entryPoint command ret (processWrapper sym m)).rip = command ∧
    (entryPoint command ret (processWrapper sym m)).gpr .rdi = argc ∧
    (entryPoint command ret (processWrapper sym m)).gpr .rsi = argv
  returns : ∀ command ret, (entryPoint command ret (processWrapper sym m)).mem (m.rsp - 16) = ret ∧
    (entryPoint command ret (processWrapper sym m)).mem (m.rsp - 8) = sym.afterEntry ∧
    (entryPoint command ret (processWrapper sym m)).rsp = m.rsp - 16
  ends : ∀ m' : Machine, m'.gpr .r13 = (processWrapper sym m).gpr .r13 →
    (wrapperResume sym m').rip = sym.processTerminator

section
variable {boot : Region} {sym : Symbols} {y y' : Host} {i j base entry argc argv stackTop : Nat}
  {p : Process} {m : Machine} {d e : CReturn}

theorem processWrapper_gpr (sym : Symbols) (m : Machine) : (processWrapper sym m).gpr
    = Function.update (Function.update m.gpr .r12 (m.gpr .rdx)) .r13 (m.gpr .rbp) := by
  have hne : Reg.rbp ≠ Reg.r12 := by decide
  have hrbp : (m.setReg .r12 (m.gpr .rdx)).gpr .rbp = m.gpr .rbp := Machine.setReg_of_ne hne ..
  show Function.update (m.setReg .r12 (m.gpr .rdx)).gpr Reg.r13
    ((m.setReg .r12 (m.gpr .rdx)).gpr .rbp) = _
  rw [hrbp]
  rfl

theorem entryPoint_gpr (command ret : Nat) (m : Machine) : (entryPoint command ret m).gpr
    = Function.update (Function.update m.gpr .rdi (m.gpr .rcx)) .rsi (m.gpr .r8) := by
  have hne : Reg.r8 ≠ Reg.rdi := by decide
  have hr8 : (m.setReg .rdi (m.gpr .rcx)).gpr .r8 = m.gpr .r8 := Machine.setReg_of_ne hne ..
  show Function.update (m.setReg .rdi (m.gpr .rcx)).gpr Reg.rsi
    ((m.setReg .rdi (m.gpr .rcx)).gpr .r8) = _
  rw [hr8]
  rfl

/-- the wrapper moves the entry point and the terminator out of the way of the arguments -/
theorem started_initial (hm : m.toContext = initialContext sym stackTop entry argc argv)
    (hbig : 16 ≤ m.rsp) : Started sym entry argc argv m := by
  have hrdx : m.gpr .rdx = entry := congrFun (congrArg Context.gpr hm) .rdx
  have hrbp : m.gpr .rbp = sym.processTerminator := congrFun (congrArg Context.gpr hm) .rbp
  have hrcx : m.gpr .rcx = argc := congrFun (congrArg Context.gpr hm) .rcx
  have hr8 : m.gpr .r8 = argv := congrFun (congrArg Context.gpr hm) .r8
  have hgpr := processWrapper_gpr sym m
  have hother : ∀ r, r ≠ .r12 → r ≠ .r13 → (processWrapper sym m).gpr r = m.gpr r := by
    intro r h12 h13
    rw [hgpr, Function.update_of_ne h13, Function.update_of_ne h12]
  have hr12 : (processWrapper sym m).gpr .r12 = entry := by
    have hne : Reg.r12 ≠ Reg.r13 := by decide
    rw [hgpr, Function.update_of_ne hne, Function.update_self, hrdx]
  have hr13 : (processWrapper sym m).gpr .r13 = sym.processTerminator := by
    rw [hgpr, Function.update_self, hrbp]
  have hmem : ∀ command ret, (entryPoint command ret (processWrapper sym m)).mem
      = Function.update (Function.update m.mem (m.rsp - 8) sym.afterEntry) (m.rsp - 8 - 8) ret :=
    fun _ _ => rfl
  refine ⟨hr12, fun command ret => ⟨rfl, ?_, ?_⟩, fun command ret => ⟨?_, ?_, ?_⟩, fun m' h => ?_⟩
  · have hne : Reg.rdi ≠ Reg.rsi := by decide
    rw [entryPoint_gpr, Function.update_of_ne hne, Function.update_self,
      hother .rcx (by decide) (by decide), hrcx]
  · rw [entryPoint_gpr, Function.update_self, hother .r8 (by decide) (by decide), hr8]
  · have hcell : m.rsp - 16 = m.rsp - 8 - 8 := by omega
    rw [hmem, hcell, Function.update_self]
  · have hne : m.rsp - 8 ≠ m.rsp - 8 - 8 := by omega
    rw [hmem, Function.update_of_ne hne, Function.update_self]
  · show m.rsp - 8 - 8 = m.rsp - 16
    omega
  · exact h.trans hr13

/-- **A new process** has been put away with its first frame. -/
theorem put_new {o : GuardOp} (hy : y.Inv boot i j base)
    (he : execHost sym (.call o entry argc argv) y = some y')
    (hp : y'.sched.heap y.sched.next = some p) :
    Put boot y.sched.next { y'.cpu with
      toContext := initialContext sym (p.stackBase + processStackSize) entry argc argv } y' := by
  obtain ⟨-, -, -, hmem, hsched⟩ := call_parts hy he
  rcases hsched with hs | ⟨b, -, hs⟩
  · obtain ⟨q, hq, -⟩ := hs.kept y.sched.next p hp
    exact absurd (hy.stacked.lt_next hq) (Nat.lt_irrefl _)
  · obtain ⟨hstack, hrsp⟩ := hs.heap hp
    have hbig : frameSize ≤ frameTop (p.stackBase + processStackSize) := by
      unfold frameSize frameTop processStackSize
      omega
    have hborn : y'.cpu.mem
        = stackInitMem sym (p.stackBase + processStackSize) entry argc argv y.cpu.mem := by
      rw [hmem]
      unfold bornMem
      rw [hp]
    refine ⟨?_, fun q hq _ => ?_, fun _ _ _ _ _ => rfl⟩
    · obtain ⟨u, p', hu, -, hut⟩ := hs
      have hnext : y'.sched.next = y.sched.next + 1 := by
        rw [hut.next, ← hu.next]
        rfl
      rw [hnext]
      exact Nat.lt_succ_self _
    · obtain rfl := Option.some.inj (hp.symm.trans hq)
      rw [hrsp, ← hstack, hborn]
      exact savedAt_stackInit sym entry argc argv hbig y.cpu.mem

/-- **Every process starts with its arguments.**  In every run from boot, a process that a call creates
with an entry point, `argc` and `argv` gets the CPU for the first time in its wrapper, at the top of
its own stack, and goes on as `Started` says. -/
theorem first_steps {cpu : Machine} {idleStack : Nat} {idleRecycled : List Int} {initStack : Nat}
    {initRecycled : List Int} {os os' : List HostOp} {y₁ y₂ y₃ : Host} {o : GuardOp}
    (hroom : Region.apart ⟨initStack, initStack + processStackSize⟩ boot)
    (h₁ : Runs (execHost sym) (fun o y => o.ok boot sym y) os
      (bootHost cpu idleStack idleRecycled initStack initRecycled) y₁)
    (hok : (HostOp.call o entry argc argv).ok boot sym y₁)
    (h₂ : execHost sym (.call o entry argc argv) y₁ = some y₂)
    (hp : y₂.sched.heap y₁.sched.next = some p)
    (h₃ : Runs (execHost sym) (fun o y => o.ok boot sym y ∧ y.cur ≠ y₁.sched.next) os' y₂ y₃)
    (hcpu : y₃.cur = y₁.sched.next) :
    y₃.cpu.rip = sym.processWrapper ∧ y₃.cpu.rsp = frameTop (p.stackBase + processStackSize) ∧
      Started sym entry argc argv y₃.cpu := by
  have hboot : (bootHost cpu idleStack idleRecycled initStack initRecycled).Inv boot 0 1 initStack :=
    inv_bootHost cpu idleStack idleRecycled initRecycled hroom
  have hinv₁ : y₁.Inv boot 0 1 initStack :=
    Runs.inv (I := fun y : Host => y.Inv boot 0 1 initStack) inv_execHost h₁ hboot
  have hinv₂ := inv_execHost (HostOp.call o entry argc argv) y₁ y₂ hinv₁ hok h₂
  have hcur : y₂.cur ≠ y₁.sched.next := by
    rw [(call_parts hinv₁ h₂).2.1]
    exact Nat.ne_of_lt hinv₁.stacked.young
  obtain ⟨-, hcontext⟩ := put_run hinv₂ ⟨put_new hinv₁ h₂ hp, fun hc => absurd hc hcur⟩ h₃
  have hinitial := hcontext hcpu
  have hrsp : y₃.cpu.rsp = frameTop (p.stackBase + processStackSize) := congrArg Context.rsp hinitial
  refine ⟨congrArg Context.rip hinitial, hrsp, started_initial hinitial ?_⟩
  rw [hrsp]
  unfold frameTop processStackSize
  omega

end

/-- a process that is created with `argc` 2 and `argv` 3000 runs for the first time -/
theorem first_steps_two : (quiet lowTwo).cpu.rip = lowSymbols.processWrapper ∧
    Started lowSymbols 1000 2 3000 (quiet lowTwo).cpu := by
  have hrun₁ : Runs (execHost lowSymbols) (fun o y => o.ok lowBoot lowSymbols y)
      [quietTick lowHost] lowHost (quiet lowHost) :=
    ⟨ok_lowHost, _, step_lowHost, rfl⟩
  have hrun₂ : Runs (execHost lowSymbols)
      (fun o y => o.ok lowBoot lowSymbols y ∧ y.cur ≠ (quiet lowHost).sched.next)
      [quietTick lowTwo] lowTwo (quiet lowTwo) :=
    ⟨⟨ok_quietTick (by decide +kernel), by decide +kernel⟩, _, quiet_step (by decide +kernel), rfl⟩
  have hborn : (lowTwo.sched.heap (quiet lowHost).sched.next).isSome = true := by decide +kernel
  obtain ⟨p, hp⟩ := Option.isSome_iff_exists.mp hborn
  obtain ⟨hrip, -, hstarted⟩ := first_steps (Or.inr (Nat.le_refl _)) hrun₁ ok_lowCreate step_lowCreate
    hp hrun₂ (by decide +kernel)
  exact ⟨hrip, hstarted⟩

end Tp2So
