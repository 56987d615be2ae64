import Tp2So.Lib.Runs
import Mathlib.Logic.Function.Basic

/-!
# One CPU, interrupts and spinlocks

A context is a stack of frames, each with the instructions it still has to run; only those that
matter to locks are kept.  An interrupt can be taken between any two instructions while the
interrupt flag is set: it switches to another context (`timer`), or pushes a frame onto the current
one and clears the flag (`irq`).  `held` lists the locks that are taken, with the context that has
taken them; a context that finds a lock taken stays where it is.

* `Disciplined H c`    code that starts with the locks `H`: it asks for no lock it holds, gives all of
                       them back, and does not give the CPU away in between;
* `Cpu.LocksFree`      a lock that is asked for with the flag off is free;
* `CpuOp.polite`       no interrupt is taken while the current context holds a lock;
* `Cpu.Inv.step`       disciplined code and polite interrupts never meet a taken lock.
-/

set_option linter.unusedVariables false

namespace Tp2So

section
variable {L : Type}

inductive Instr (L : Type) where
  | lock (l : L)
  | unlock (l : L)
  | cli
  | sti
  | resched
  deriving DecidableEq

/-- a frame, with the flag that its return restores -/
structure Frame (L : Type) where
  code : List (Instr L)
  flag : Bool

/-- a context, with the flag it had when it was put away -/
structure Ctx (L : Type) where
  frames : List (Frame L)
  flag : Bool

structure Cpu (L : Type) where
  ctxs : Nat → Ctx L
  cur : Nat
  flag : Bool
  held : List (L × Nat)

inductive CpuOp (L : Type) where
  | step
  | resched (next : Nat)
  | ret
  | enter (code : List (Instr L)) (masked : Bool)
  | timer (next : Nat)
  | irq (code : List (Instr L))

namespace Cpu

def frames (c : Cpu L) : List (Frame L) := (c.ctxs c.cur).frames

/-- the current context with other frames -/
def setFrames (c : Cpu L) (fs : List (Frame L)) : Cpu L :=
  { c with ctxs := Function.update c.ctxs c.cur { c.ctxs c.cur with frames := fs } }

/-- put the current context away, and go on with another one -/
def switch (c : Cpu L) (next : Nat) : Cpu L :=
  let ctxs := Function.update c.ctxs c.cur { c.ctxs c.cur with flag := c.flag }
  { c with ctxs, cur := next, flag := (ctxs next).flag }

/-- a new frame; `flag` is what the flag becomes -/
def push (c : Cpu L) (code : List (Instr L)) (flag : Bool) : Cpu L :=
  { c.setFrames (⟨code, c.flag⟩ :: c.frames) with flag }

def locks (c : Cpu L) : List L := c.held.map Prod.fst

/-- the next instruction of the current context -/
def next (c : Cpu L) : Option (Instr L) := c.frames.head?.bind fun f => f.code.head?

@[simp] theorem setFrames_frames (c : Cpu L) (fs : List (Frame L)) :
    (c.setFrames fs).frames = fs := by
  have h : (c.setFrames fs).ctxs c.cur = { c.ctxs c.cur with frames := fs } :=
    Function.update_self ..
  exact congrArg Ctx.frames h

theorem setFrames_of_ne (c : Cpu L) (fs : List (Frame L)) {n : Nat} (hn : n ≠ c.cur) :
    (c.setFrames fs).ctxs n = c.ctxs n := Function.update_of_ne hn ..

theorem switch_frames (c : Cpu L) (n m : Nat) : ((c.switch n).ctxs m).frames = (c.ctxs m).frames := by
  by_cases e : m = c.cur
  · subst e
    have h : (c.switch n).ctxs c.cur = { c.ctxs c.cur with flag := c.flag } :=
      Function.update_self ..
    rw [h]
  · have h : (c.switch n).ctxs m = c.ctxs m := Function.update_of_ne e ..
    exact congrArg Ctx.frames h

end Cpu

variable [DecidableEq L]

/-- one instruction; a lock that is taken is asked for again -/
def execInstr (i : Instr L) (rest : Cpu L) (c : Cpu L) : Option (Cpu L) :=
  match i with
  | .lock l => if l ∈ c.locks then some c else some { rest with held := (l, c.cur) :: c.held }
  | .unlock l => some { rest with held := c.held.filter fun x => x.1 != l }
  | .cli => some { rest with flag := false }
  | .sti => some { rest with flag := true }
  | .resched => none

/-- code is entered from below every frame (`enter`), and interrupts need the flag -/
def execCpu : CpuOp L → Cpu L → Option (Cpu L)
  | .step, c =>
    match c.frames with
    | ⟨i :: code, flag⟩ :: fs => execInstr i (c.setFrames (⟨code, flag⟩ :: fs)) c
    | _ => none
  | .resched n, c =>
    match c.frames with
    | ⟨.resched :: code, flag⟩ :: fs => some ((c.setFrames (⟨code, flag⟩ :: fs)).switch n)
    | _ => none
  | .ret, c =>
    match c.frames with
    | ⟨[], flag⟩ :: fs => some { c.setFrames fs with flag }
    | _ => none
  | .enter code masked, c =>
    match c.frames with
    | [] => some (c.push code (if masked then false else c.flag))
    | _ => none
  | .timer n, c => if c.flag then some (c.switch n) else none
  | .irq code, c => if c.flag then some (c.push code false) else none

/-- the lock discipline of code that starts with the locks `H` -/
def Disciplined : List L → List (Instr L) → Prop
  | H, [] => H = []
  | H, .lock l :: code => l ∉ H ∧ Disciplined (l :: H) code
  | H, .unlock l :: code => Disciplined (H.filter fun x => x != l) code
  | H, .cli :: code => Disciplined H code
  | H, .sti :: code => Disciplined H code
  | H, .resched :: code => H = [] ∧ Disciplined [] code

/-- a lock that is asked for with the flag off is free -/
def Cpu.LocksFree (c : Cpu L) : Prop :=
  c.flag = false → ∀ l, c.next = some (.lock l) → l ∉ c.locks

/-- an interrupt is not taken while the current context holds a lock -/
def CpuOp.polite : CpuOp L → Cpu L → Bool
  | .timer _, c => c.held.all fun x => x.2 != c.cur
  | .irq _, c => c.held.all fun x => x.2 != c.cur
  | _, _ => true

/-- the code that the operation brings in -/
def CpuOp.code : CpuOp L → List (Instr L)
  | .enter code _ => code
  | .irq code => code
  | _ => []

theorem Disciplined.append {c d : List (Instr L)} (hd : Disciplined [] d) :
    ∀ {H : List L}, Disciplined H c → Disciplined H (c ++ d) := by
  induction c with
  | nil =>
    intro H hc
    obtain rfl : H = [] := hc
    exact hd
  | cons i c ih =>
    intro H hc
    cases i with
    | lock l => exact ⟨hc.1, ih hc.2⟩
    | unlock l => exact ih (H := H.filter fun x => x != l) hc
    | cli => exact ih (H := H) hc
    | sti => exact ih (H := H) hc
    | resched => exact ⟨hc.1, ih hc.2⟩

theorem Disciplined.flatMap {α : Type} {f : α → List (Instr L)} (hf : ∀ x, Disciplined [] (f x))
    (xs : List α) : Disciplined [] (xs.flatMap f) := by
  induction xs with
  | nil => rfl
  | cons x xs ih =>
    rw [List.flatMap_cons]
    exact ih.append (hf x)

/-! ## the invariant -/

/-- only the frame on top of the current context holds locks -/
structure Cpu.Inv (c : Cpu L) : Prop where
  owner : ∀ x ∈ c.held, x.2 = c.cur
  others : ∀ n, n ≠ c.cur → ∀ f ∈ (c.ctxs n).frames, Disciplined [] f.code
  below : ∀ f ∈ c.frames.tail, Disciplined [] f.code
  top : ∀ f, c.frames.head? = some f → Disciplined c.locks f.code
  user : c.frames = [] → c.held = []

variable {c c' : Cpu L}

theorem Cpu.Inv.locksFree (h : c.Inv) : c.LocksFree := by
  intro _ l hl
  obtain ⟨f, hf, hcode⟩ := Option.bind_eq_some_iff.mp hl
  have hd := h.top f hf
  cases hc : f.code with
  | nil =>
    rw [hc] at hcode
    exact absurd hcode (by simp)
  | cons i code =>
    rw [hc] at hcode hd
    obtain rfl := Option.some.inj hcode
    exact hd.1

/-- the frames of the contexts of `c`, all of them at rest -/
theorem Cpu.Inv.rest (h : c.Inv) (hheld : c.held = []) :
    ∀ n, ∀ f ∈ (c.ctxs n).frames, Disciplined [] f.code := by
  intro n f hf
  by_cases e : n = c.cur
  · subst e
    have hf' : f ∈ c.frames := hf
    cases hfs : c.frames with
    | nil =>
      rw [hfs] at hf'
      exact absurd hf' List.not_mem_nil
    | cons g gs =>
      rw [hfs] at hf'
      rcases List.mem_cons.mp hf' with rfl | hf'
      · have ht := h.top f (by rw [hfs]; rfl)
        unfold Cpu.locks at ht
        rwa [hheld] at ht
      · exact h.below f (by rw [hfs]; exact hf')
  · exact h.others n e f hf

/-- a state in which nothing is held and everything is at rest -/
theorem Cpu.inv_of_rest (hheld : c.held = [])
    (hrest : ∀ n, ∀ f ∈ (c.ctxs n).frames, Disciplined [] f.code) : c.Inv := by
  refine ⟨fun x hx => ?_, fun n _ => hrest n, fun f hf => hrest c.cur f (List.mem_of_mem_tail hf),
    fun f hf => ?_, fun _ => hheld⟩
  · rw [hheld] at hx
    exact absurd hx List.not_mem_nil
  · unfold Cpu.locks
    rw [hheld]
    exact hrest c.cur f (List.mem_of_mem_head? hf)

theorem Cpu.Inv.switch (h : c.Inv) (hheld : c.held = []) (n : Nat) : (c.switch n).Inv := by
  refine Cpu.inv_of_rest hheld fun m f hf => ?_
  rw [Cpu.switch_frames] at hf
  exact h.rest hheld m f hf

theorem Cpu.Inv.push (h : c.Inv) (hheld : c.held = []) {code : List (Instr L)}
    (hd : Disciplined [] code) (flag : Bool) : (c.push code flag).Inv := by
  refine Cpu.inv_of_rest hheld fun m f hf => ?_
  by_cases e : m = c.cur
  · subst e
    have hfs : ((c.push code flag).ctxs c.cur).frames = ⟨code, c.flag⟩ :: c.frames :=
      Cpu.setFrames_frames c _
    rw [hfs] at hf
    rcases List.mem_cons.mp hf with rfl | hf
    · exact hd
    · exact h.rest hheld c.cur f hf
  · have hm : (c.push code flag).ctxs m = c.ctxs m := Cpu.setFrames_of_ne c _ e
    rw [hm] at hf
    exact h.rest hheld m f hf

/-- a politely interrupted context holds nothing, and so nobody does -/
theorem Cpu.Inv.held_nil (h : c.Inv) (hp : (c.held.all fun x => x.2 != c.cur) = true) :
    c.held = [] := by
  refine List.eq_nil_iff_forall_not_mem.mpr fun x hx => ?_
  have hne := List.all_eq_true.mp hp x hx
  rw [h.owner x hx] at hne
  simp at hne

theorem Cpu.Inv.advance (h : c.Inv) {f g : Frame L} {fs : List (Frame L)} (hfs : c.frames = f :: fs)
    (held : List (L × Nat)) (flag : Bool) (howner : ∀ x ∈ held, x.2 = c.cur)
    (hd : Disciplined (held.map Prod.fst) g.code) :
    ({ c.setFrames (g :: fs) with held, flag } : Cpu L).Inv := by
  have hnew : ({ c.setFrames (g :: fs) with held, flag } : Cpu L).frames = g :: fs :=
    Cpu.setFrames_frames c _
  refine ⟨howner, fun n hn f' hf' => ?_, fun f' hf' => ?_, fun f' hf' => ?_, fun hnil => ?_⟩
  · have hctx : ({ c.setFrames (g :: fs) with held, flag } : Cpu L).ctxs n = c.ctxs n :=
      Cpu.setFrames_of_ne c _ hn
    rw [hctx] at hf'
    exact h.others n hn f' hf'
  · rw [hnew] at hf'
    exact h.below f' (by rw [hfs]; exact hf')
  · rw [hnew] at hf'
    obtain rfl := Option.some.inj hf'
    exact hd
  · rw [hnew] at hnil
    exact absurd hnil (by simp)

/-- **One step** of a machine with disciplined code and polite interrupts. -/
theorem Cpu.Inv.step {o : CpuOp L} (h : c.Inv) (hp : o.polite c = true)
    (hcode : Disciplined [] o.code) (he : execCpu o c = some c') : c'.Inv := by
  cases o with
  | step =>
    unfold execCpu at he
    simp only at he
    split at he
    · rename_i i code flag fs hfs
      have hd := h.top ⟨i :: code, flag⟩ (by rw [hfs]; rfl)
      cases i with
      | lock l =>
        unfold execInstr at he
        simp only [if_neg hd.1] at he
        obtain rfl := Option.some.inj he
        refine h.advance hfs ((l, c.cur) :: c.held) c.flag (fun x hx => ?_) hd.2
        rcases List.mem_cons.mp hx with rfl | hx
        · rfl
        · exact h.owner x hx
      | unlock l =>
        obtain rfl := Option.some.inj he
        refine h.advance hfs _ c.flag (fun x hx => h.owner x (List.mem_filter.mp hx).1) ?_
        have hmap : (c.held.filter fun x => x.1 != l).map Prod.fst = c.locks.filter fun x => x != l := by
          unfold Cpu.locks
          rw [List.filter_map]
          rfl
        rw [hmap]
        exact hd
      | cli =>
        obtain rfl := Option.some.inj he
        exact h.advance hfs c.held _ h.owner hd
      | sti =>
        obtain rfl := Option.some.inj he
        exact h.advance hfs c.held _ h.owner hd
      | resched => exact absurd he (by simp [execInstr])
    · exact absurd he (by simp)
  | resched n =>
    unfold execCpu at he
    simp only at he
    split at he
    · rename_i code flag fs hfs
      have hd := h.top ⟨.resched :: code, flag⟩ (by rw [hfs]; rfl)
      have hheld : c.held = [] := List.map_eq_nil_iff.mp hd.1
      obtain rfl := Option.some.inj he
      refine Cpu.Inv.switch (h.advance hfs c.held c.flag h.owner ?_) hheld n
      rw [hheld]
      exact hd.2
    · exact absurd he (by simp)
  | ret =>
    unfold execCpu at he
    simp only at he
    split at he
    · rename_i flag fs hfs
      have hd := h.top ⟨[], flag⟩ (by rw [hfs]; rfl)
      have hheld : c.held = [] := List.map_eq_nil_iff.mp hd
      obtain rfl := Option.some.inj he
      refine Cpu.inv_of_rest hheld fun m f hf => ?_
      by_cases e : m = c.cur
      · subst e
        have hnew : (({ c.setFrames fs with flag } : Cpu L).ctxs c.cur).frames = fs :=
          Cpu.setFrames_frames c fs
        rw [hnew] at hf
        exact h.below f (by rw [hfs]; exact hf)
      · have hctx : ({ c.setFrames fs with flag } : Cpu L).ctxs m = c.ctxs m :=
          Cpu.setFrames_of_ne c fs e
        rw [hctx] at hf
        exact h.others m e f hf
    · exact absurd he (by simp)
  | enter code masked =>
    unfold execCpu at he
    simp only at he
    split at he
    · rename_i hfs
      obtain rfl := Option.some.inj he
      exact h.push (h.user hfs) hcode _
    · exact absurd he (by simp)
  | timer n =>
    unfold execCpu at he
    simp only at he
    split at he
    · obtain rfl := Option.some.inj he
      exact h.switch (h.held_nil hp) n
    · exact absurd he (by simp)
  | irq code =>
    unfold execCpu at he
    simp only at he
    split at he
    · obtain rfl := Option.some.inj he
      exact h.push (h.held_nil hp) hcode false
    · exact absurd he (by simp)

end

end Tp2So
