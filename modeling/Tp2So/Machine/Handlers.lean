import Tp2So.Machine.Frames

/-!
# System calls and keys leave the registers alone

`syscallDispatcher` and `irqDispatcher` are arbitrary C functions, which leave the frame of the
interrupted program as it is.

* `irq80_registers`   the `Registers` that `syscallDispatcher` gets are those of the caller;
* `irq80_returns`     the caller goes on with the result in `rax` and everything else as it was;
* `sysInt80_returns`  a wrapper of `libsys.asm` calls the dispatcher as a C function calls another;
* `irq01_returns`     a key changes no register, whether or not a snapshot is taken, and the snapshot
                      holds the registers.
-/

namespace Tp2So

section
variable {sym : Symbols} {m : Machine} {c : Context} {d : CReturn} {mem mem' : Nat → Nat}
  {handler f sp x : Nat}

/-! ## system calls -/

/-- the state in which `syscallDispatcher` is called -/
theorem irq80Enter_eq (handler : Nat) (m : Machine) : irq80Enter (m.interrupt handler) = { m with
    gpr := Function.update m.gpr .rdi (frameTop m.rsp - frameSize - 8 + 8)
    rsp := frameTop m.rsp - frameSize - 8, rip := handler, rflags := Machine.clearIf m.rflags
    mem := Function.update (pushAll 8 m.toContext.words (frameTop m.rsp) m.mem)
      (frameTop m.rsp - frameSize - 8) (m.gpr .rax) } := by
  unfold irq80Enter
  rw [enter_eq]
  generalize frameTop m.rsp - frameSize = sp
  generalize pushAll 8 m.toContext.words (frameTop m.rsp) m.mem = mem
  rfl

/-- on the way to `syscallDispatcher` only words below the stack pointer are written -/
theorem irq80Enter_above (handler : Nat) (hroom : frameSize + 8 ≤ frameTop m.rsp) (hx : m.rsp ≤ x) :
    (irq80Enter (m.interrupt handler)).mem x = m.mem x := by
  have htop : frameTop m.rsp ≤ m.rsp := Nat.div_mul_le_self ..
  have hne : x ≠ frameTop m.rsp - frameSize - 8 := by omega
  have hframe : frameSize ≤ frameTop m.rsp := by omega
  rw [irq80Enter_eq]
  show Function.update (pushAll 8 m.toContext.words (frameTop m.rsp) m.mem)
    (frameTop m.rsp - frameSize - 8) (m.gpr .rax) x = _
  rw [Function.update_of_ne hne]
  apply pushAll_words m.toContext hframe
  exact Or.inr (by omega)

/-- **The `Registers`** that `syscallDispatcher` gets are the registers of the caller, and its `rip`. -/
theorem irq80_registers (handler : Nat) (hroom : frameSize + 8 ≤ frameTop m.rsp) :
    readRegisters (irq80Enter (m.interrupt handler)).mem ((irq80Enter (m.interrupt handler)).gpr .rdi)
      = registersOrder.map m.gpr ++ [m.rip] := by
  have hsaved := savedAt_enter (m := m) handler (by omega)
  rw [enter_eq] at hsaved
  have hptr : frameTop m.rsp - frameSize - 8 + 8 = frameTop m.rsp - frameSize := by omega
  -- the copy of `rax` lies below the frame
  have hsame : SavedAt m.toContext (frameTop m.rsp - frameSize)
      (Function.update (pushAll 8 m.toContext.words (frameTop m.rsp) m.mem)
        (frameTop m.rsp - frameSize - 8) (m.gpr .rax)) := by
    refine SavedAt.congr hsaved fun x hx _ => ?_
    exact Function.update_of_ne (by omega) ..
  rw [irq80Enter_eq]
  show cells 8 16 (Function.update m.gpr .rdi (frameTop m.rsp - frameSize - 8 + 8) .rdi) _ = _
  rw [Function.update_self, hptr]
  exact hsame.registers_rip

/-- what is left to do for a handler whose frame lies above the copy of `rax` -/
theorem irq80Leave_eq (h : SavedAt c (m.rsp + 8) m.mem) : irq80Leave m
    = { toContext := { c with gpr := Function.update c.gpr .rax (m.gpr .rax) }, mem := m.mem } := by
  obtain ⟨hregs, hcontrol⟩ := h.split
  -- the result goes through `rbx`, and survives the end of the interrupt there
  have hne : Reg.rbx ≠ Reg.rax := by decide
  obtain ⟨u, hu⟩ : ∃ u, u = (m.setReg .rbx (m.gpr .rax)).endOfInterrupt := ⟨_, rfl⟩
  have hrbx : u.gpr .rbx = m.gpr .rax := by
    rw [hu]
    exact (Machine.setReg_of_ne hne ..).trans (Machine.setReg_self ..)
  have hleave : irq80Leave m
      = ((popStateButRAX ((u.setReg .rax (u.gpr .rbx)).addRsp 8)).addRsp 8).iretq := by
    rw [hu]
    rfl
  have hsp : (u.setReg .rax (m.gpr .rax)).addRsp 8 = { m with
      gpr := (u.setReg .rax (m.gpr .rax)).gpr, rsp := m.rsp + 8 } := by
    rw [hu]
    rfl
  have hrax : (u.setReg .rax (m.gpr .rax)).gpr .rax = m.gpr .rax := Machine.setReg_self ..
  rw [hleave, hrbx, hsp, popStateButRAX_of hregs]
  exact iretq_of (c := { c with gpr := Function.update c.gpr .rax (m.gpr .rax) })
    (congrArg (Function.update c.gpr .rax) hrax) hcontrol

/-- **A system call returns** with the result in `rax`, and every other register as it was. -/
theorem irq80_returns (handler : Nat) (hroom : frameSize + 8 ≤ frameTop m.rsp)
    (hd : ∀ x, frameTop m.rsp - frameSize ≤ x → x < frameTop m.rsp →
      d.mem x = (irq80Enter (m.interrupt handler)).mem x) :
    irq80Handler d (m.interrupt handler)
      = { m with gpr := Function.update m.gpr .rax (d.gpr .rax), mem := d.mem } := by
  have hsaved : SavedAt m.toContext (frameTop m.rsp - frameSize) d.mem := by
    have henter := savedAt_enter (m := m) handler (by omega)
    rw [enter_eq] at henter
    refine SavedAt.congr henter fun x h1 h2 => ?_
    have hne : x ≠ frameTop m.rsp - frameSize - 8 := by omega
    have hx := hd x h1 (by omega)
    rw [irq80Enter_eq] at hx
    simp only [Function.update_of_ne hne] at hx
    exact hx
  have hptr : frameTop m.rsp - frameSize - 8 + 8 = frameTop m.rsp - frameSize := by omega
  unfold irq80Handler
  rw [irq80Enter_eq]
  refine (irq80Leave_eq (c := m.toContext) ?_).trans rfl
  show SavedAt m.toContext (frameTop m.rsp - frameSize - 8 + 8) d.mem
  rw [hptr]
  exact hsaved

/-! ## wrappers -/

/-- what a wrapper leaves for the handler: the number in `rax`, and `rbp` at the top of the stack -/
def wrapperGpr (number : Nat) (m : Machine) : Reg → Nat :=
  Function.update (Function.update m.gpr .rbp (m.rsp - 8)) .rax number

/-- the wrapper when it interrupts itself -/
def wrapperEnter (number next : Nat) (m : Machine) : Machine :=
  { m with
    gpr := wrapperGpr number m, rsp := m.rsp - 8, rip := next
    mem := Function.update m.mem (m.rsp - 8) (m.gpr .rbp) }

/-- **A system call**, from the wrapper of `libsys.asm` to its `ret`, whatever the number and the
caller.  The dispatcher reads the caller's arguments from the registers of the C convention, and finds
the caller's stack as it was; the caller goes on with the result in `rax`, every other register and its
flags as they were, and the memory that the dispatcher left. -/
theorem sysInt80_returns (number next : Nat)
    (hroom : frameSize + 8 ≤ frameTop (m.rsp - 8))
    (hd : ∀ x, frameTop (m.rsp - 8) - frameSize ≤ x → x < m.rsp + 8 →
      d.mem x = (irq80Enter ((wrapperEnter number next m).interrupt sym.irq80Handler)).mem x) :
    readRegisters (irq80Enter ((wrapperEnter number next m).interrupt sym.irq80Handler)).mem
        ((irq80Enter ((wrapperEnter number next m).interrupt sym.irq80Handler)).gpr .rdi)
      = registersOrder.map (wrapperGpr number m) ++ [next] ∧
    (∀ x, m.rsp ≤ x →
      (irq80Enter ((wrapperEnter number next m).interrupt sym.irq80Handler)).mem x = m.mem x) ∧
    sysInt80 sym number next d m
      = { m with
          gpr := Function.update m.gpr .rax (d.gpr .rax), rsp := m.rsp + 8, rip := m.mem m.rsp
          mem := d.mem } := by
  obtain ⟨u, hu⟩ : ∃ u, u = wrapperEnter number next m := ⟨_, rfl⟩
  have hursp : u.rsp = m.rsp - 8 := by rw [hu]; rfl
  rw [← hu] at hd ⊢
  rw [← hursp] at hroom hd
  have htop : frameTop u.rsp ≤ u.rsp := Nat.div_mul_le_self ..
  have hreturns : irq80Handler d (u.interrupt sym.irq80Handler)
      = { u with gpr := Function.update u.gpr .rax (d.gpr .rax), mem := d.mem } :=
    irq80_returns sym.irq80Handler hroom fun x h1 h2 => hd x h1 (by omega)
  -- of the words above the frame the wrapper itself writes the lowest, `rbp`
  have hbig : 0 < m.rsp := by omega
  have hstack : ∀ x, m.rsp ≤ x → u.mem x = m.mem x := by
    intro x hx
    have hne : x ≠ m.rsp - 8 := by omega
    rw [hu]
    exact Function.update_of_ne hne ..
  refine ⟨?_, fun x hx => ?_, ?_⟩
  · rw [irq80_registers sym.irq80Handler hroom, hu]
    rfl
  · rw [irq80Enter_above sym.irq80Handler hroom (by omega), hstack x hx]
  have habove : ∀ x, u.rsp ≤ x → x < m.rsp + 8 → d.mem x = u.mem x := by
    intro x h1 h2
    rw [hd x (by omega) h2]
    exact irq80Enter_above sym.irq80Handler hroom h1
  have hbp : d.mem (m.rsp - 8) = m.gpr .rbp := by
    rw [habove (m.rsp - 8) (by omega) (by omega), hu]
    exact Function.update_self ..
  have hret : d.mem m.rsp = m.mem m.rsp := by
    rw [habove m.rsp (by omega) (by omega)]
    exact hstack m.rsp (Nat.le_refl _)
  have hgpr : Function.update (Function.update u.gpr .rax (d.gpr .rax)) .rbp (m.gpr .rbp)
      = Function.update m.gpr .rax (d.gpr .rax) := by
    have hne : Reg.rbp ≠ Reg.rax := by decide
    funext r
    by_cases hbp : r = .rbp
    · rw [hbp, Function.update_self, Function.update_of_ne hne]
    · rw [Function.update_of_ne hbp]
      by_cases hax : r = .rax
      · rw [hax, Function.update_self, Function.update_self]
      · rw [Function.update_of_ne hax, Function.update_of_ne hax, hu]
        exact (Function.update_of_ne hax ..).trans (Function.update_of_ne hbp ..)
  have hptr : Function.update u.gpr .rax (d.gpr .rax) .rbp = m.rsp - 8 := by
    have hne : Reg.rbp ≠ Reg.rax := by decide
    rw [Function.update_of_ne hne, hu]
    show Function.update (Function.update m.gpr .rbp (m.rsp - 8)) .rax number .rbp = _
    rw [Function.update_of_ne hne, Function.update_self]
  have hsp : m.rsp - 8 + 8 = m.rsp := by omega
  obtain ⟨v, hv⟩ : ∃ v, v = irq80Handler d (u.interrupt sym.irq80Handler) := ⟨_, rfl⟩
  have hwrapper : sysInt80 sym number next d m
      = ({ v with rsp := v.gpr .rbp }.popReg .rbp).ret := by
    rw [hv, hu]
    rfl
  rw [hwrapper, hv, hreturns]
  show ({ u with
    gpr := Function.update u.gpr .rax (d.gpr .rax)
    rsp := Function.update u.gpr .rax (d.gpr .rax) .rbp, mem := d.mem }.popReg .rbp).ret = _
  rw [hptr]
  show { u with
    gpr := Function.update (Function.update u.gpr .rax (d.gpr .rax)) .rbp (d.mem (m.rsp - 8))
    rsp := m.rsp - 8 + 8 + 8, rip := d.mem (m.rsp - 8 + 8), mem := d.mem } = _
  rw [hsp, hbp, hret, hgpr, hu]
  rfl

/-- `sys_get_pid` returns `1` -/
theorem sysInt80_returns_getPid :
    let d : CReturn := { gpr := fun _ => 1, rflags := 2
                         mem := (irq80Enter ((wrapperEnter 36 300 lowMachine).interrupt 80)).mem }
    (sysInt80 lowSymbols 36 300 d lowMachine).rip = 100 ∧
      (sysInt80 lowSymbols 36 300 d lowMachine).gpr .rax = 1 ∧
      (sysInt80 lowSymbols 36 300 d lowMachine).gpr .rbx = 5 := by
  intro d
  have h := (@sysInt80_returns lowSymbols lowMachine d 36 300 (by decide) fun x _ _ => rfl).2.2
  rw [h]
  decide

/-! ## keys -/

/-- the frame of a key: the flags of the handler lie between the registers and the rest -/
def KeySavedAt (c : Context) (f sp : Nat) (mem : Nat → Nat) : Prop :=
  cells 8 15 sp mem = registersOrder.map c.gpr ∧ mem (sp + 120) = f ∧
    cells 8 5 (sp + 128) mem = [c.rip, c.cs, c.rflags, c.rsp, c.ss]

abbrev keyFrameSize : Nat := 168

theorem KeySavedAt.congr (h : KeySavedAt c f sp mem)
    (heq : ∀ x, sp ≤ x → x < sp + 168 → mem' x = mem x) : KeySavedAt c f sp mem' := by
  obtain ⟨hregs, hflags, hcontrol⟩ := h
  have hregs' : cells 8 15 sp mem' = cells 8 15 sp mem :=
    cells_congr (fun x h1 h2 => heq x h1 (by omega)) (by decide)
  have hcontrol' : cells 8 5 (sp + 128) mem' = cells 8 5 (sp + 128) mem :=
    cells_congr (fun x h1 h2 => heq x (by omega) (by omega)) (by decide)
  exact ⟨hregs'.trans hregs, (heq _ (by omega) (by omega)).trans hflags, hcontrol'.trans hcontrol⟩

/-- the handler of a key after its `pushState` -/
def irq01Enter (m : Machine) : Machine := pushState (m.push m.rflags)

theorem irq01Enter_eq (handler : Nat) (m : Machine) : irq01Enter (m.interrupt handler) = { m with
    rsp := frameTop m.rsp - keyFrameSize, rip := handler, rflags := Machine.clearIf m.rflags
    mem := pushAll 8 ([m.ss, m.rsp, m.rflags, m.cs, m.rip, Machine.clearIf m.rflags]
      ++ pushOrder.map m.gpr) (frameTop m.rsp) m.mem } := by
  have hsp : frameTop m.rsp - 8 - 8 - 8 - 8 - 8 - 8 - 120 = frameTop m.rsp - keyFrameSize := by
    unfold keyFrameSize
    omega
  unfold irq01Enter
  rw [pushState_eq]
  show { m with
    rsp := frameTop m.rsp - 8 - 8 - 8 - 8 - 8 - 8 - 120, rip := _, rflags := _, mem := _ } = _
  rw [hsp, pushAll_append]
  rfl

theorem keySavedAt_enter (handler : Nat) (hroom : keyFrameSize ≤ frameTop m.rsp) :
    KeySavedAt m.toContext (Machine.clearIf m.rflags) (frameTop m.rsp - keyFrameSize)
      (irq01Enter (m.interrupt handler)).mem := by
  rw [irq01Enter_eq]
  obtain ⟨xs, hxs⟩ : ∃ xs, xs = [m.ss, m.rsp, m.rflags, m.cs, m.rip, Machine.clearIf m.rflags]
    ++ pushOrder.map m.gpr := ⟨_, rfl⟩
  have hlen : xs.length = 21 := by
    rw [hxs]
    rfl
  have hrev : xs.reverse = registersOrder.map m.gpr
      ++ (Machine.clearIf m.rflags :: [m.rip, m.cs, m.rflags, m.rsp, m.ss]) := by
    rw [hxs]
    rfl
  have hall : cells 8 xs.length (frameTop m.rsp - 8 * xs.length)
      (pushAll 8 xs (frameTop m.rsp) m.mem) = xs.reverse :=
    cells_pushAll (by rw [hlen]; exact hroom) (by decide)
  rw [hlen, hrev] at hall
  rw [← hxs]
  have hsplit := (cells_add 8 15 6 _ _).symm.trans hall
  obtain ⟨hregs, hrest⟩ := List.append_inj hsplit (cells_length ..)
  obtain ⟨hflags, hcontrol⟩ := List.cons.inj hrest
  exact ⟨hregs, hflags, hcontrol⟩

theorem irq01Leave_eq (h : KeySavedAt c f m.rsp m.mem) :
    ((popState m.endOfInterrupt).addRsp 8).iretq = { toContext := c, mem := m.mem } := by
  obtain ⟨hregs, -, hcontrol⟩ := h
  have hpop := popState_of (m := m.endOfInterrupt) hregs
  rw [hpop]
  exact iretq_of rfl hcontrol

/-- what the snapshot writes -/
def snapshotMem (sym : Symbols) (m : Machine) : Nat → Nat :=
  Function.update (writeAll 8 sym.registerSnapshot (pushOrder.map m.gpr
    ++ [m.rsp, m.mem (m.rsp + 128), m.mem (m.rsp + 120)]) m.mem) sym.registerSnapshotTaken 1

/-- the addresses of the snapshot do not lie in `[lo, hi)` -/
def Symbols.snapshotApart (sym : Symbols) (lo hi : Nat) : Prop :=
  (sym.registerSnapshot + 144 ≤ lo ∨ hi ≤ sym.registerSnapshot) ∧
    (sym.registerSnapshotTaken < lo ∨ hi ≤ sym.registerSnapshotTaken) ∧
    (sym.registerSnapshotTaken < sym.registerSnapshot ∨
      sym.registerSnapshot + 144 ≤ sym.registerSnapshotTaken)

theorem takeSnapshot_mem (h : sym.snapshotApart m.rsp (m.rsp + 168)) :
    (takeSnapshot sym m).mem = snapshotMem sym m ∧ (takeSnapshot sym m).rsp = m.rsp := by
  obtain ⟨hsnap, -, -⟩ := h
  obtain ⟨xs, hxs⟩ : ∃ xs, xs = pushOrder.map m.gpr ++ [m.rsp] := ⟨_, rfl⟩
  have hlen : xs.length = 16 := by
    rw [hxs]
    rfl
  obtain ⟨m₁, hm₁⟩ : ∃ m₁, m₁ = writeAll 8 sym.registerSnapshot xs m.mem := ⟨_, rfl⟩
  -- the words of the stack are read after the first sixteen are written
  have hfirst : m₁ (m.rsp + 128) = m.mem (m.rsp + 128) := by
    rw [hm₁]
    exact writeAll_outside (by omega) (by decide)
  have hsecond : Function.update m₁ (sym.registerSnapshot + 128) (m₁ (m.rsp + 128)) (m.rsp + 120)
      = m.mem (m.rsp + 120) := by
    have hne : m.rsp + 120 ≠ sym.registerSnapshot + 128 := by omega
    rw [Function.update_of_ne hne, hm₁]
    exact writeAll_outside (by omega) (by decide)
  have hmem : (takeSnapshot sym m).mem = Function.update (Function.update (Function.update m₁
      (sym.registerSnapshot + 128) (m₁ (m.rsp + 128))) (sym.registerSnapshot + 136)
      (Function.update m₁ (sym.registerSnapshot + 128) (m₁ (m.rsp + 128)) (m.rsp + 120)))
      sym.registerSnapshotTaken 1 := by
    rw [hm₁, hxs]
    unfold takeSnapshot
    simp only [Machine.setReg, Function.update_self]
  refine ⟨?_, rfl⟩
  have hwrite : writeAll 8 sym.registerSnapshot (pushOrder.map m.gpr
      ++ [m.rsp, m.mem (m.rsp + 128), m.mem (m.rsp + 120)]) m.mem
      = Function.update (Function.update m₁ (sym.registerSnapshot + 128) (m.mem (m.rsp + 128)))
        (sym.registerSnapshot + 136) (m.mem (m.rsp + 120)) := by
    have hlist : pushOrder.map m.gpr ++ [m.rsp, m.mem (m.rsp + 128), m.mem (m.rsp + 120)]
        = xs ++ [m.mem (m.rsp + 128)] ++ [m.mem (m.rsp + 120)] := by
      rw [hxs, List.append_assoc, List.append_assoc]
      rfl
    rw [hlist, writeAll_concat, writeAll_concat, List.length_append, hlen, hm₁]
    rfl
  unfold snapshotMem
  rw [hmem, hsecond, hfirst, hwrite]

theorem snapshotMem_outside {lo hi : Nat} (h : sym.snapshotApart lo hi) (hlo : lo ≤ x)
    (hhi : x < hi) : snapshotMem sym m x = m.mem x := by
  obtain ⟨hsnap, htaken, -⟩ := h
  have hne : x ≠ sym.registerSnapshotTaken := by omega
  refine (Function.update_of_ne hne ..).trans (writeAll_outside ?_ (by decide))
  show x < sym.registerSnapshot ∨ sym.registerSnapshot + 144 ≤ x
  omega

theorem cells_snapshotMem {lo hi : Nat} (h : sym.snapshotApart lo hi) :
    cells 8 18 sym.registerSnapshot (snapshotMem sym m)
      = pushOrder.map m.gpr ++ [m.rsp, m.mem (m.rsp + 128), m.mem (m.rsp + 120)] := by
  obtain ⟨-, -, hapart⟩ := h
  obtain ⟨xs, hxs⟩ : ∃ xs, xs = pushOrder.map m.gpr
    ++ [m.rsp, m.mem (m.rsp + 128), m.mem (m.rsp + 120)] := ⟨_, rfl⟩
  have hlen : xs.length = 18 := by
    rw [hxs]
    rfl
  have hcells : cells 8 xs.length sym.registerSnapshot
      (writeAll 8 sym.registerSnapshot xs m.mem) = xs := cells_writeAll (by decide)
  rw [hlen] at hcells
  unfold snapshotMem
  rw [← hxs]
  refine Eq.trans (cells_congr (fun x h1 h2 => ?_) (by decide)) hcells
  have hne : x ≠ sym.registerSnapshotTaken := by omega
  exact Function.update_of_ne hne ..

/-- the registers are taken from the frame and put back -/
theorem KeySavedAt.resave (h : KeySavedAt c f m.rsp m.mem) : ∃ mem',
    pushState (popState m) = { m with gpr := c.gpr, mem := mem' } ∧ KeySavedAt c f m.rsp mem' := by
  obtain ⟨hregs, hflags, hcontrol⟩ := h
  refine ⟨pushAll 8 (pushOrder.map c.gpr) (m.rsp + 120) m.mem, ?_, ?_, ?_, ?_⟩
  · rw [popState_of hregs, pushState_eq]
    rfl
  · have hcells : cells 8 (pushOrder.map c.gpr).length
        (m.rsp + 120 - 8 * (pushOrder.map c.gpr).length)
        (pushAll 8 (pushOrder.map c.gpr) (m.rsp + 120) m.mem) = (pushOrder.map c.gpr).reverse :=
      cells_pushAll (Nat.le_add_left ..) (by decide)
    exact hcells
  · exact (pushAll_outside (Or.inr (Nat.le_refl _)) (Nat.le_add_left ..) (by decide)).trans hflags
  · refine Eq.trans (cells_congr (fun x h1 _ => ?_) (by decide)) hcontrol
    exact pushAll_outside (Or.inr (by omega)) (Nat.le_add_left ..) (by decide)

/-- the handler after `irqDispatcher`, with the frame of the interrupted program on the stack -/
theorem irq01_rest (h : KeySavedAt c f m.rsp m.mem)
    (hapart : sym.snapshotApart m.rsp (m.rsp + 168)) : ∃ m',
    ((popState (if m.gpr .rax = snapshotScancode then takeSnapshot sym (pushState (popState m))
      else m).endOfInterrupt).addRsp 8).iretq = { toContext := c, mem := m' } ∧
    (m.gpr .rax ≠ snapshotScancode → m' = m.mem) ∧
    (m.gpr .rax = snapshotScancode → m' sym.registerSnapshotTaken = 1 ∧
      cells 8 18 sym.registerSnapshot m' = pushOrder.map c.gpr ++ [m.rsp, c.rip, f]) := by
  by_cases hkey : m.gpr .rax = snapshotScancode
  · rw [if_pos hkey]
    obtain ⟨mem', hsave, hframe⟩ := h.resave
    obtain ⟨u, hu⟩ : ∃ u, u = pushState (popState m) := ⟨_, rfl⟩
    rw [← hu] at hsave ⊢
    have hursp : u.rsp = m.rsp := by rw [hsave]
    have hugpr : u.gpr = c.gpr := by rw [hsave]
    have humem : u.mem = mem' := by rw [hsave]
    rw [← hursp] at hapart
    obtain ⟨hmem, hrsp⟩ := takeSnapshot_mem hapart
    have hkept : KeySavedAt c f u.rsp (snapshotMem sym u) := by
      rw [← hursp, ← humem] at hframe
      exact hframe.congr fun x h1 h2 => snapshotMem_outside hapart h1 h2
    have hleave : KeySavedAt c f (takeSnapshot sym u).rsp (takeSnapshot sym u).mem := by
      rw [hrsp, hmem]
      exact hkept
    refine ⟨snapshotMem sym u, ?_, fun hno => absurd hkey hno, fun _ => ⟨Function.update_self .., ?_⟩⟩
    · rw [irq01Leave_eq hleave, hmem]
    · obtain ⟨-, hflags, hcontrol⟩ := hframe
      have hrip : mem' (m.rsp + 128) = c.rip := (List.cons.inj hcontrol).1
      rw [cells_snapshotMem hapart, hugpr, hursp, humem, hflags, hrip]
  · rw [if_neg hkey]
    exact ⟨m.mem, irq01Leave_eq h, fun _ => rfl, fun hyes => absurd hyes hkey⟩

/-- **A key changes no register**, whether or not a snapshot is taken.  The snapshot holds the fifteen
registers and the `rip` of the interrupted program; its `rsp` and its flags are those of the handler. -/
theorem irq01_returns (handler : Nat) (hroom : keyFrameSize ≤ frameTop m.rsp)
    (hapart : sym.snapshotApart (frameTop m.rsp - keyFrameSize) (frameTop m.rsp))
    (hd : ∀ x, frameTop m.rsp - keyFrameSize ≤ x → x < frameTop m.rsp →
      d.mem x = (irq01Enter (m.interrupt handler)).mem x) :
    (irq01Handler sym d (m.interrupt handler)).toContext = m.toContext ∧
    (d.gpr .rax ≠ snapshotScancode → (irq01Handler sym d (m.interrupt handler)).mem = d.mem) ∧
    (d.gpr .rax = snapshotScancode →
      (irq01Handler sym d (m.interrupt handler)).mem sym.registerSnapshotTaken = 1 ∧
      cells 8 18 sym.registerSnapshot (irq01Handler sym d (m.interrupt handler)).mem
        = pushOrder.map m.gpr
          ++ [frameTop m.rsp - keyFrameSize, m.rip, Machine.clearIf m.rflags]) := by
  have htop : frameTop m.rsp - keyFrameSize + 168 = frameTop m.rsp := Nat.sub_add_cancel hroom
  obtain ⟨u, hu⟩ : ∃ u, u = ((irq01Enter (m.interrupt handler)).setReg .rdi 1).ccall d := ⟨_, rfl⟩
  have hrsp : u.rsp = frameTop m.rsp - keyFrameSize := by
    rw [hu, irq01Enter_eq]
    rfl
  have hgpr : u.gpr = d.gpr := by
    rw [hu]
    rfl
  have hmem : u.mem = d.mem := by
    rw [hu]
    rfl
  have hframe : KeySavedAt m.toContext (Machine.clearIf m.rflags) u.rsp u.mem := by
    rw [hrsp, hmem]
    refine (keySavedAt_enter handler hroom).congr fun x h1 h2 => ?_
    rw [htop] at h2
    exact hd x h1 h2
  have hapart' : sym.snapshotApart u.rsp (u.rsp + 168) := by
    rw [hrsp, htop]
    exact hapart
  obtain ⟨m', hend, hskip, hsnap⟩ := irq01_rest hframe hapart'
  have hhandler : irq01Handler sym d (m.interrupt handler) = { toContext := m.toContext, mem := m' } := by
    rw [← hend, hu]
    rfl
  rw [hgpr, hmem] at hskip
  rw [hgpr, hrsp] at hsnap
  rw [hhandler]
  exact ⟨rfl, hskip, hsnap⟩

/-- the snapshot key -/
theorem irq01_returns_snapshot :
    let d : CReturn := { gpr := fun _ => 0x58, rflags := 2
                         mem := (irq01Enter (lowMachine.interrupt 64)).mem }
    (irq01Handler lowSymbols d (lowMachine.interrupt 64)).toContext = lowMachine.toContext ∧
      cells 8 18 1048576 (irq01Handler lowSymbols d (lowMachine.interrupt 64)).mem
        = [5, 5, 5, 5, 5, 5, 5, 5, 5, 5, 5, 5, 5, 5, 5, 3928, 200, 2] := by
  intro d
  have hapart : lowSymbols.snapshotApart (frameTop lowMachine.rsp - keyFrameSize)
      (frameTop lowMachine.rsp) := ⟨Or.inr (by decide), Or.inr (by decide), Or.inr (by decide)⟩
  obtain ⟨hregs, -, hsnap⟩ := @irq01_returns lowSymbols lowMachine d 64 (by decide) hapart
    fun x _ _ => rfl
  exact ⟨hregs, (hsnap rfl).2⟩

end

end Tp2So
