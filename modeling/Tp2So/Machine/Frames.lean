import Tp2So.Kernel.Machine

/-!
# What the handlers put on the stack and take from it

An interrupt followed by `pushState` leaves twenty words on the stack, the frame of the interrupted
program; `popState` followed by `iretq` takes twenty words from it.

* `Context.words`      the words of a frame, in the order in which they are pushed;
* `SavedAt c sp mem`   the frame of `c` lies at `sp`;
* `savedAt_enter`      after `pushState` the frame of the interrupted program lies at `rsp`;
* `leave_eq`           the frame at `rsp` becomes the registers, all of them;
* `savedAt_stackInit`  what `stackInit` writes is the frame of a program that is about to start.
-/

namespace Tp2So

def Context.words (c : Context) : List Nat :=
  [c.ss, c.rsp, c.rflags, c.cs, c.rip] ++ pushOrder.map c.gpr

/-- the frame of `c` lies at `sp` -/
def SavedAt (c : Context) (sp : Nat) (mem : Nat → Nat) : Prop :=
  cells 8 20 sp mem = c.words.reverse

/-- the top of the frame that an interrupt pushes, and its size -/
def frameTop (rsp : Nat) : Nat := rsp / 16 * 16

abbrev frameSize : Nat := 160

section
variable {m : Machine} {c : Context} {mem mem' : Nat → Nat} {sp x : Nat}

theorem Context.words_length (c : Context) : c.words.length = 20 := rfl

theorem SavedAt.congr (h : SavedAt c sp mem)
    (heq : ∀ x, sp ≤ x → x < sp + frameSize → mem' x = mem x) : SavedAt c sp mem' :=
  (cells_congr heq (by decide)).trans h

/-! ## pushing -/

theorem savedAt_pushAll (c : Context) {top : Nat} (hroom : frameSize ≤ top) (mem : Nat → Nat) :
    SavedAt c (top - frameSize) (pushAll 8 c.words top mem) :=
  show cells 8 c.words.length (top - 8 * c.words.length) (pushAll 8 c.words top mem)
    = c.words.reverse from cells_pushAll hroom (by decide)

theorem pushAll_words (c : Context) {top : Nat} (hroom : frameSize ≤ top)
    (hx : x < top - frameSize ∨ top ≤ x) (mem : Nat → Nat) : pushAll 8 c.words top mem x = mem x := by
  have hsize : 8 * c.words.length = frameSize := by rw [c.words_length]
  refine pushAll_outside ?_ ?_ (by decide)
  · rw [hsize]
    exact hx
  · rw [hsize]
    exact hroom

theorem foldl_pushReg (rs : List Reg) (m : Machine) :
    rs.foldl Machine.pushReg m = { m with
      rsp := m.rsp - 8 * rs.length, mem := pushAll 8 (rs.map m.gpr) m.rsp m.mem } := by
  induction rs generalizing m with
  | nil => rfl
  | cons r rs ih =>
    have hsp : m.rsp - 8 - 8 * rs.length = m.rsp - 8 * (r :: rs).length := by
      rw [List.length_cons]
      omega
    rw [List.foldl_cons, ih]
    show { m with rsp := m.rsp - 8 - 8 * rs.length, mem := _ } = _
    rw [hsp]
    rfl

theorem pushState_eq (m : Machine) : pushState m = { m with
    rsp := m.rsp - 120, mem := pushAll 8 (pushOrder.map m.gpr) m.rsp m.mem } :=
  foldl_pushReg pushOrder m

theorem enter_eq (handler : Nat) (m : Machine) : pushState (m.interrupt handler) = { m with
    rsp := frameTop m.rsp - frameSize, rip := handler, rflags := Machine.clearIf m.rflags
    mem := pushAll 8 m.toContext.words (frameTop m.rsp) m.mem } := by
  have hsp : frameTop m.rsp - 8 - 8 - 8 - 8 - 8 - 120 = frameTop m.rsp - frameSize := by
    unfold frameSize
    omega
  rw [pushState_eq]
  show { m with rsp := frameTop m.rsp - 8 - 8 - 8 - 8 - 8 - 120, rip := _, rflags := _, mem := _ } = _
  rw [hsp]
  unfold Context.words
  rw [pushAll_append]
  rfl

/-- **The frame** of the interrupted program lies at `rsp`. -/
theorem savedAt_enter (handler : Nat) (hroom : frameSize ≤ frameTop m.rsp) :
    SavedAt m.toContext (pushState (m.interrupt handler)).rsp
      (pushState (m.interrupt handler)).mem := by
  rw [enter_eq]
  exact savedAt_pushAll m.toContext hroom m.mem

theorem enter_outside (handler : Nat) (hroom : frameSize ≤ frameTop m.rsp)
    (hx : x < frameTop m.rsp - frameSize ∨ frameTop m.rsp ≤ x) :
    (pushState (m.interrupt handler)).mem x = m.mem x := by
  rw [enter_eq]
  exact pushAll_words m.toContext hroom hx m.mem

/-! ## popping -/

theorem foldl_popReg (rs : List Reg) (m : Machine) :
    rs.foldl Machine.popReg m = { m with
      gpr := setAll rs (cells 8 rs.length m.rsp m.mem) m.gpr, rsp := m.rsp + 8 * rs.length } := by
  induction rs generalizing m with
  | nil => rfl
  | cons r rs ih =>
    have hsp : m.rsp + 8 + 8 * rs.length = m.rsp + 8 * (r :: rs).length := by
      rw [List.length_cons]
      omega
    rw [List.foldl_cons, ih]
    show { m with gpr := _, rsp := m.rsp + 8 + 8 * rs.length } = _
    rw [hsp]
    rfl

theorem popState_eq (m : Machine) : popState m = { m with
    gpr := setAll registersOrder (cells 8 15 m.rsp m.mem) m.gpr, rsp := m.rsp + 120 } :=
  foldl_popReg registersOrder m

theorem registersOrder_eq : registersOrder = pushOrder.reverse := rfl

theorem registersOrder_nodup : registersOrder.Nodup := by decide

theorem mem_registersOrder (r : Reg) : r ∈ registersOrder := by
  cases r <;> decide

theorem setAll_registers (f g : Reg → Nat) : setAll registersOrder (registersOrder.map f) g = f := by
  funext r
  exact setAll_map registersOrder_nodup f g (mem_registersOrder r)

theorem popState_of {f : Reg → Nat} (h : cells 8 15 m.rsp m.mem = registersOrder.map f) :
    popState m = { m with gpr := f, rsp := m.rsp + 120 } := by
  rw [popState_eq, h, setAll_registers]

theorem popStateButRAX_of {f : Reg → Nat} (h : cells 8 15 m.rsp m.mem = registersOrder.map f) :
    popStateButRAX m
      = { m with gpr := Function.update f .rax (m.gpr .rax), rsp := m.rsp + 112 } := by
  have hsplit : cells 8 14 m.rsp m.mem ++ [m.mem (m.rsp + 112)] = popOrder.map f ++ [f .rax] :=
    (cells_concat 8 14 m.rsp m.mem).symm.trans h
  have hcells := (List.append_inj hsplit (cells_length ..)).1
  have hgpr : setAll popOrder (popOrder.map f) m.gpr = Function.update f .rax (m.gpr .rax) := by
    funext r
    by_cases hr : r = .rax
    · rw [hr, Function.update_self]
      exact setAll_of_not_mem (by decide) _ _
    · have hmem : r ∈ popOrder := by
        cases r with
        | rax => exact absurd rfl hr
        | _ => decide
      rw [Function.update_of_ne hr]
      exact setAll_map (by decide) f m.gpr hmem
  unfold popStateButRAX
  rw [foldl_popReg, ← hgpr, ← hcells]
  rfl

/-- the five words that `iretq` takes -/
theorem iretq_of (hgpr : m.gpr = c.gpr)
    (h : cells 8 5 m.rsp m.mem = [c.rip, c.cs, c.rflags, c.rsp, c.ss]) :
    m.iretq = { toContext := c, mem := m.mem } := by
  simp only [cells, List.cons.injEq, and_true] at h
  obtain ⟨hrip, hcs, hflags, hrsp, hss⟩ := h
  show Machine.mk (Context.mk m.gpr (m.mem (m.rsp + 24)) (m.mem m.rsp) (m.mem (m.rsp + 16))
    (m.mem (m.rsp + 8)) (m.mem (m.rsp + 32))) m.mem = _
  rw [hgpr, hrip, hcs, hflags, hrsp, hss]

theorem Context.frame_eq (c : Context) : c.words.reverse
    = registersOrder.map c.gpr ++ [c.rip, c.cs, c.rflags, c.rsp, c.ss] := by
  unfold Context.words
  rw [List.reverse_append, ← List.map_reverse, ← registersOrder_eq]
  rfl

theorem SavedAt.split (h : SavedAt c sp mem) : cells 8 15 sp mem = registersOrder.map c.gpr ∧
    cells 8 5 (sp + 120) mem = [c.rip, c.cs, c.rflags, c.rsp, c.ss] := by
  have hsplit : cells 8 15 sp mem ++ cells 8 5 (sp + 120) mem
      = registersOrder.map c.gpr ++ [c.rip, c.cs, c.rflags, c.rsp, c.ss] :=
    (cells_add 8 15 5 sp mem).symm.trans (h.trans c.frame_eq)
  exact List.append_inj hsplit (cells_length ..)

theorem SavedAt.registers_rip (h : SavedAt c sp mem) :
    cells 8 16 sp mem = registersOrder.map c.gpr ++ [c.rip] := by
  obtain ⟨hregs, hcontrol⟩ := h.split
  have hrip : mem (sp + 120) = c.rip := (List.cons.inj hcontrol).1
  rw [cells_concat, hregs, ← hrip]

/-- **Leaving a handler** takes all registers from the frame. -/
theorem leave_eq (h : SavedAt c m.rsp m.mem) :
    (popState m).iretq = { toContext := c, mem := m.mem } := by
  obtain ⟨hregs, hcontrol⟩ := h.split
  rw [popState_of hregs]
  exact iretq_of rfl hcontrol

/-! ## the first frame -/

/-- a process that is about to start -/
def initialContext (sym : Symbols) (stackTop entry argc argv : Nat) : Context where
  gpr := fun r =>
    match r with
    | .rcx => argc
    | .rdx => entry
    | .rbp => sym.processTerminator
    | .r8 => argv
    | _ => 0
  rsp := frameTop stackTop
  rip := sym.processWrapper
  rflags := 0x202
  cs := 0x8
  ss := 0

theorem stackInitMem_eq (sym : Symbols) (stackTop entry argc argv : Nat) (mem : Nat → Nat) :
    stackInitMem sym stackTop entry argc argv mem
      = pushAll 8 (initialContext sym stackTop entry argc argv).words (frameTop stackTop) mem := rfl

theorem stackInit_eq (stackTop : Nat) : stackInit stackTop = frameTop stackTop - frameSize := rfl

/-- **What `stackInit` writes** is the frame of a process that is about to start. -/
theorem savedAt_stackInit (sym : Symbols) {stackTop : Nat} (entry argc argv : Nat)
    (hroom : frameSize ≤ frameTop stackTop) (mem : Nat → Nat) :
    SavedAt (initialContext sym stackTop entry argc argv) (stackInit stackTop)
      (stackInitMem sym stackTop entry argc argv mem) := by
  rw [stackInit_eq, stackInitMem_eq]
  exact savedAt_pushAll (initialContext sym stackTop entry argc argv) hroom mem

theorem stackInit_outside (sym : Symbols) {stackTop : Nat} (entry argc argv : Nat)
    (hroom : frameSize ≤ frameTop stackTop) (mem : Nat → Nat)
    (hx : x < stackInit stackTop ∨ frameTop stackTop ≤ x) :
    stackInitMem sym stackTop entry argc argv mem x = mem x := by
  rw [stackInitMem_eq]
  exact pushAll_words (initialContext sym stackTop entry argc argv) hroom hx mem

end

/-! ## a small machine -/

/-- addresses of the code, and of the snapshot, above all stacks -/
def lowSymbols : Symbols where
  processWrapper := 16
  processTerminator := 32
  irq00Handler := 48
  irq01Handler := 64
  irq80Handler := 80
  registerSnapshot := 1048576
  registerSnapshotTaken := 1048720
  afterEntry := 24
  afterTerminator := 28

/-- a program with an empty stack below 4096, and code at 100 to return to -/
def lowMachine : Machine where
  gpr := fun _ => 5
  rsp := 4096
  rip := 200
  rflags := 514
  cs := 8
  ss := 0
  mem := fun _ => 100

end Tp2So
