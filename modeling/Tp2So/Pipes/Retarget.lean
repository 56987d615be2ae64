import Tp2So.Pipes.Books
import Tp2So.Pipes.Relief
import Mathlib.Logic.Function.Iterate

/-!
# Moving an end to another pipe, when it fails

A `set_target` call leaves the old pipe before it knows whether it can enter the new one.

* `Unchanged`                 targets, ends, existing pipes and semaphores are as they were;
* `Undisturbed`               a pipe that does not notice when an end is taken off;
* `unchanged_detach_iff`      leaving a pipe changes nothing exactly when it is undisturbed;
* `sysSetTarget_atomic_iff`   when a call that returns `-1` has changed nothing.
-/

set_option linter.unusedVariables false

namespace Tp2So

/-! ## both sides at once -/

def Pipe.unwait (p : Pipe) : Side → Pipe
  | .rd => { p with waitingToRead := false }
  | .wr => { p with waitingToWrite := false }

/-- the last end of one side wakes the other one -/
def wakeEnd (e : Side) (k : Kernel) (a : Nat) (p : Pipe) : Kernel :=
  if p.count e = 0 ∧ p.waiting e.other then
    (wakeAll k (p.sem e.other)).modPipe a fun p => p.unwait e.other
  else k

def detachEnd : Side → Kernel → Nat → Int → Kernel
  | .rd => detachReader
  | .wr => detachWriter

def attachEnd : Side → Kernel → Nat → Int × Kernel
  | .rd => attachReader
  | .wr => attachWriter

def sysSetTarget : Side → Kernel → Nat → Int × Kernel
  | .rd => sysSetReadTarget
  | .wr => sysSetWriteTarget

/-! ## what a call has to leave alone -/

def Process.targetByFd (p : Process) : Nat × Nat × Nat := (p.readTarget, p.writeTarget, p.errTarget)

def Pipe.counters (p : Pipe) : Nat × Nat × Nat := (p.readers, p.writers, p.attached)

/-- the targets of every process, the pipes that exist with their counters, and the semaphores -/
structure Unchanged (k k' : Kernel) : Prop where
  targets : ∀ a, (k'.sched.heap a).map Process.targetByFd = (k.sched.heap a).map Process.targetByFd
  pipes : ∀ i, (look k'.pipes i).map Pipe.counters = (look k.pipes i).map Pipe.counters
  sems : k'.sems = k.sems

/-- a failed call has changed nothing -/
def Atomic (e : Side) (k : Kernel) (id : Nat) : Prop :=
  (sysSetTarget e k id).1 = -1 → Unchanged k (sysSetTarget e k id).2

/-- the pipe has no end of this side and is not about to be deleted, nobody on the other side would be
woken, and the process is in neither queue -/
structure Undisturbed (e : Side) (k : Kernel) (p : Pipe) (pid : Int) : Prop where
  none : p.count e = 0
  kept : p.gone = false
  quiet : p.waiting e.other = true → semGetUsersCount k.sems (p.sem e.other) ≤ 0
  absent : ∀ s m, k.sems.heap (p.sem s) = some m → pid ∉ m.blockedProcesses.elems

/-- the new target can be entered once the old one is left -/
def Enterable (e : Side) (k : Kernel) (c : Process) (id : Nat) : Prop :=
  isPipe id = true → ∃ p, look k.pipes id = some p ∧
    (targetOf c.ends e = id → (dropEnd e p).gone = false)

/-- the call does not fail, or there is nothing to undo -/
def RetargetSafe (e : Side) (k : Kernel) (id : Nat) : Prop :=
  ∀ c, k.sched.running.bind k.sched.heap = some c → Enterable e k c id ∨
    (isPipe (targetOf c.ends e) = true → ∀ p, look k.pipes (targetOf c.ends e) = some p →
      Undisturbed e k p c.pid)

/-- the counters of a semaphore are 16-bit ones -/
def SemReg.Narrow (r : SemReg) : Prop :=
  ∀ a m, r.heap a = some m → m.value < 65536 ∧ m.users < 65536

section
variable {k k' : Kernel} {r : SemReg} {e : Side} {a b i id n : Nat} {p q : Pipe} {pid : Int} {m : Sem}

theorem detachEnd_eq (e : Side) (k : Kernel) (i : Nat) (pid : Int) :
    detachEnd e k i pid = detach k i pid (dropEnd e) (wakeEnd e) := by
  cases e <;> rfl

theorem sysSetTarget_eq (e : Side) (k : Kernel) (id : Nat) : sysSetTarget e k id
    = setTarget k id (fun c => targetOf c.ends e) (detachEnd e) (attachEnd e)
      (match e with
        | .rd => fun p => { p with readTarget := id }
        | .wr => fun p => { p with writeTarget := id }) := by
  cases e <;> rfl

theorem detachEnd_look (e : Side) (h : k.pipes.Sane) (i : Nat) (pid : Int) :
    (detachEnd e k i pid).pipes.Sane ∧ look (detachEnd e k i pid).pipes
      = Function.update (look k.pipes) i
        ((look k.pipes i).bind (Pipe.detached (dropEnd e) (quietEnd e))) := by
  cases e with
  | rd => exact detachReader_look h i pid
  | wr => exact detachWriter_look h i pid

theorem attachEnd_fails (e : Side) (h : look k.pipes id = none) : attachEnd e k id = (-1, k) := by
  have hg := look_none h
  cases e with
  | rd => exact attachReader_absent hg
  | wr => exact attachWriter_absent hg

theorem attachEnd_code (e : Side) (k : Kernel) (id : Nat) :
    (attachEnd e k id).1 < 0 ↔ look k.pipes id = none := by
  cases e with
  | rd => exact attachReader_code k id
  | wr => exact attachWriter_code k id

theorem dropEnd_none (h : p.count e = 0) : dropEnd e p = p := by
  cases e with
  | rd => exact if_neg (Nat.not_lt.mpr (Nat.le_of_eq h))
  | wr => exact if_neg (Nat.not_lt.mpr (Nat.le_of_eq h))

/-! ## the semaphores -/

/-- how many processes a semaphore holds -/
def SemReg.waits (r : SemReg) (b : Nat) : Nat :=
  (r.heap b).elim 0 fun m => m.blockedProcesses.elems.length

theorem SemReg.waits_eq (h : r.heap b = some m) : r.waits b = m.blockedProcesses.elems.length := by
  unfold SemReg.waits
  rw [h]
  rfl

theorem SemReg.waits_modify {f : Sem → Sem} (hf : ∀ m, (f m).blockedProcesses.elems.length
    ≤ m.blockedProcesses.elems.length) (a b : Nat) : (r.modify a f).waits b ≤ r.waits b := by
  unfold SemReg.waits
  rw [SemReg.modify_heap]
  by_cases e : b = a
  · rw [e, heapMod_self]
    cases r.heap a with
    | none => exact Nat.le_refl _
    | some m => exact hf m
  · have hsame : heapMod r.heap a f b = r.heap b := heapMod_of_ne _ _ e
    exact Nat.le_of_eq (by rw [hsame])

theorem waits_removeFromSemaphore (r : SemReg) (a b : Nat) (pid : Int) :
    (removeFromSemaphore r a pid).waits b ≤ r.waits b := by
  refine SemReg.waits_modify (fun m => ?_) a b
  rw [queueRemove_elems]
  exact List.length_eraseP_le

theorem waits_removeFromSemaphore_lt (hm : r.heap a = some m) (hp : pid ∈ m.blockedProcesses.elems) :
    (removeFromSemaphore r a pid).waits a < r.waits a := by
  have hnew : (removeFromSemaphore r a pid).heap a
      = some { m with blockedProcesses := queueRemove (· == ·) m.blockedProcesses pid } := by
    unfold removeFromSemaphore
    rw [SemReg.modify_heap, heapMod_self, hm]
    rfl
  have hlen : (m.blockedProcesses.elems.eraseP fun y => y == pid).length
      = m.blockedProcesses.elems.length - 1 :=
    List.length_eraseP_of_mem hp (beq_self_eq_true pid)
  have hpos := List.length_pos_of_mem hp
  rw [SemReg.waits_eq hnew, SemReg.waits_eq hm, queueRemove_elems, hlen]
  omega

theorem removeFromSemaphore_absent (h : ∀ m, r.heap a = some m → pid ∉ m.blockedProcesses.elems) :
    removeFromSemaphore r a pid = r := by
  cases hm : r.heap a with
  | none => exact SemReg.modify_of_none _ hm
  | some m =>
    have hidx : m.blockedProcesses.elems.findIdx? (fun y => y == pid) = none := by
      rw [List.findIdx?_eq_none_iff]
      intro y hy
      rw [beq_eq_false_iff_ne]
      rintro rfl
      exact h m hm hy
    have hq : queueRemove (· == ·) m.blockedProcesses pid = m.blockedProcesses := by
      unfold queueRemove
      rw [hidx]
    unfold removeFromSemaphore SemReg.modify heapMod
    rw [hm, Option.map_some, hq, Function.update_eq_self_iff.mpr hm.symm]

theorem semPosts_sems (a n : Nat) : ∀ {k : Kernel}, k.sems.Wf →
    (semPosts a n k).sems = k.sems.modify a (postSem^[n]) := by
  induction n with
  | zero =>
    intro k h
    have hid : heapMod k.sems.heap a (postSem^[0]) = k.sems.heap := by
      unfold heapMod
      rw [Function.iterate_zero, Option.map_id_fun]
      exact Function.update_eq_self a k.sems.heap
    unfold SemReg.modify
    rw [hid]
    rfl
  | succ n ih =>
    intro k h
    have hone := congrArg Kernel.sems (semPost_eq h a)
    have hwf : (semPost k a).2.sems.Wf := by
      rw [hone]
      exact h.modify a postSem_name
    show (semPosts a n (semPost k a).2).sems = _
    rw [ih hwf, hone]
    show (k.sems.modify a postSem).modify a _ = _
    unfold SemReg.modify
    rw [heapMod_heapMod]
    rfl

/-- `n` posts: they go to the queue first, and what is left is counted -/
theorem postSem_iterate (m : Sem) (hv : m.value < 65536) (n : Nat) :
    (postSem^[n] m).blockedProcesses.elems.length = m.blockedProcesses.elems.length - n ∧
    (postSem^[n] m).value = (m.value + (n - m.blockedProcesses.elems.length)) % 65536 := by
  induction n with
  | zero =>
    rw [Function.iterate_zero, Nat.zero_sub, Nat.add_zero, Nat.mod_eq_of_lt hv]
    exact ⟨rfl, rfl⟩
  | succ n ih =>
    obtain ⟨hlen, hval⟩ := ih
    rw [Function.iterate_succ_apply']
    cases hq : (postSem^[n] m).blockedProcesses.elems with
    | nil =>
      rw [hq, List.length_nil] at hlen
      rw [postSem_nil hq]
      show (postSem^[n] m).blockedProcesses.elems.length = _ ∧ inc16 (postSem^[n] m).value = _
      rw [hq, List.length_nil, hval]
      unfold inc16
      omega
    | cons pid rest =>
      rw [hq, List.length_cons] at hlen
      obtain ⟨hrest, hvalue⟩ := postSem_cons hq
      rw [hrest, hvalue, hval]
      refine ⟨by omega, ?_⟩
      rw [show n - m.blockedProcesses.elems.length = 0 by omega,
        show n + 1 - m.blockedProcesses.elems.length = 0 by omega]

/-- fewer posts than a counter has values do not come back to where they began -/
theorem postSem_iterate_ne (m : Sem) (hv : m.value < 65536) (h0 : 0 < n) (hn : n < 65536) :
    postSem^[n] m ≠ m := by
  intro he
  obtain ⟨hlen, hval⟩ := postSem_iterate m hv n
  rw [he] at hlen hval
  omega

theorem semPosts_changes (h : k.sems.Wf) (hm : k.sems.heap a = some m) (hv : m.value < 65536)
    (h0 : 0 < n) (hn : n < 65536) : (semPosts a n k).sems ≠ k.sems := by
  rw [semPosts_sems a n h]
  intro he
  have hheap : (k.sems.modify a (postSem^[n])).heap a = k.sems.heap a := by rw [he]
  rw [SemReg.modify_heap, heapMod_self, hm, Option.map_some] at hheap
  exact postSem_iterate_ne m hv h0 hn (Option.some.inj hheap)

theorem waits_semPosts (h : k.sems.Wf) (a b n : Nat) :
    (semPosts a n k).sems.waits b ≤ k.sems.waits b := by
  rw [semPosts_sems a n h]
  refine SemReg.waits_modify (fun m => ?_) a b
  have hshort : ∀ m, (postSem m).blockedProcesses.elems.length ≤ m.blockedProcesses.elems.length := by
    intro m
    cases hq : m.blockedProcesses.elems with
    | nil =>
      rw [postSem_nil hq]
      exact Nat.le_of_eq (congrArg List.length hq)
    | cons pid rest =>
      rw [(postSem_cons hq).1]
      exact Nat.le_succ _
  induction n with
  | zero => exact Nat.le_refl _
  | succ n ih =>
    rw [Function.iterate_succ_apply']
    exact Nat.le_trans (hshort _) ih

/-! ## leaving a pipe -/

/-- the process is in neither queue of the pipe -/
def forgotten (r : SemReg) (p : Pipe) (pid : Int) : SemReg :=
  removeFromSemaphore (removeFromSemaphore r p.canRead pid) p.canWrite pid

theorem forgotten_absent (h : ∀ s m, r.heap (p.sem s) = some m → pid ∉ m.blockedProcesses.elems) :
    forgotten r p pid = r := by
  have hread : removeFromSemaphore r p.canRead pid = r := removeFromSemaphore_absent (h .rd)
  have hwrite : removeFromSemaphore r p.canWrite pid = r := removeFromSemaphore_absent (h .wr)
  unfold forgotten
  rw [hread, hwrite]

theorem wf_forgotten (h : r.Wf) (p : Pipe) (pid : Int) : (forgotten r p pid).Wf := by
  have hone : ∀ {r : SemReg} (b : Nat), r.Wf → (removeFromSemaphore r b pid).Wf :=
    fun b h => h.modify b fun _ => rfl
  exact hone p.canWrite (hone p.canRead h)

theorem waits_forgotten_lt {s : Side} (hm : r.heap (p.sem s) = some m)
    (hp : pid ∈ m.blockedProcesses.elems) :
    (forgotten r p pid).waits (p.sem s) < r.waits (p.sem s) := by
  have hread : ∀ b, (removeFromSemaphore r p.canRead pid).waits b ≤ r.waits b := fun b =>
    waits_removeFromSemaphore r p.canRead b pid
  have hwrite : ∀ b, (forgotten r p pid).waits b ≤ (removeFromSemaphore r p.canRead pid).waits b :=
    fun b => waits_removeFromSemaphore _ p.canWrite b pid
  by_cases e : p.sem s = p.canRead
  · rw [e] at hm ⊢
    exact Nat.lt_of_le_of_lt (hwrite _) (waits_removeFromSemaphore_lt hm hp)
  · cases s with
    | rd => exact absurd rfl e
    | wr =>
      have hm' : (removeFromSemaphore r p.canRead pid).heap p.canWrite = some m :=
        (heapMod_of_ne _ _ e).trans hm
      exact Nat.lt_of_lt_of_le (waits_removeFromSemaphore_lt hm' hp) (hread _)

theorem detachEnd_kept (e : Side) (hg : getValidPipe k.pipes i = some a) (hp : k.pipes.heap a = some p)
    (hgone : (dropEnd e p).gone = false) (pid : Int) : detachEnd e k i pid
      = wakeEnd e ({ k with sems := forgotten k.sems p pid }.modPipe a (dropEnd e)) a (dropEnd e p) := by
  rw [detachEnd_eq]
  unfold detach
  rw [hg]
  simp only [hp]
  refine if_neg fun hz => ?_
  rw [(dropEnd e p).gone_iff.mpr hz] at hgone
  exact absurd hgone (by simp)

theorem wakeEnd_quiet (h : p.waiting e.other = true → semGetUsersCount k.sems (p.sem e.other) ≤ 0) :
    (wakeEnd e k a p).sched = k.sched ∧ (wakeEnd e k a p).sems = k.sems := by
  unfold wakeEnd
  split
  · rename_i hc
    have hzero : wakeAll k (p.sem e.other) = k := by
      unfold wakeAll
      rw [Int.toNat_of_nonpos (h hc.2)]
      rfl
    rw [hzero]
    exact ⟨rfl, rfl⟩
  · exact ⟨rfl, rfl⟩

/-- a semaphore with users, of which every one is posted -/
theorem wakeAll_changes (h : k.sems.Wf) (hn : k.sems.Narrow) (hu : 0 < semGetUsersCount k.sems a) :
    (wakeAll k a).sems ≠ k.sems := by
  have husers : ∃ m, k.sems.heap a = some m ∧ semGetUsersCount k.sems a = m.users := by
    unfold semGetUsersCount at hu ⊢
    split at hu
    · rename_i hv
      rw [if_pos hv]
      cases hm : k.sems.heap a with
      | none =>
        simp only [hm] at hu
        omega
      | some m => exact ⟨m, rfl, rfl⟩
    · omega
  obtain ⟨m, hm, he⟩ := husers
  obtain ⟨hv, h16⟩ := hn a m hm
  unfold wakeAll
  exact semPosts_changes h hm hv (by omega) (by omega)

theorem counters_quietEnd (e : Side) (p : Pipe) : (quietEnd e p).counters = p.counters := by
  cases e with
  | rd =>
    show p.noReader.counters = _
    unfold Pipe.noReader
    split <;> rfl
  | wr =>
    show p.noWriter.counters = _
    unfold Pipe.noWriter
    split <;> rfl

theorem count_of_counters (h : q.counters = p.counters) (e : Side) : q.count e = p.count e := by
  obtain ⟨hr, hrest⟩ := Prod.mk.inj h
  cases e with
  | rd => exact hr
  | wr => exact (Prod.mk.inj hrest).1

/-- **Leaving a pipe**: the others do not notice exactly when the pipe is undisturbed. -/
theorem unchanged_detach_iff (e : Side) (h : k.pipes.Sane) (hs : k.sems.Wf) (hn : k.sems.Narrow)
    (hl : look k.pipes i = some p) (pid : Int) :
    Unchanged k (detachEnd e k i pid) ↔ Undisturbed e k p pid := by
  obtain ⟨a, hg, ha, hp, hid⟩ := look_some hl
  have hlook := (detachEnd_look e h i pid).2
  rw [hl, Option.bind_some] at hlook
  constructor
  · intro hu
    -- the counters say that no end was there to be taken off
    have hi := hu.pipes i
    rw [hlook, Function.update_self, hl, Option.map_some] at hi
    unfold Pipe.detached at hi
    have hgone : (dropEnd e p).gone = false := by
      cases hz : (dropEnd e p).gone with
      | false => rfl
      | true =>
        rw [hz, if_pos rfl, Option.map_none] at hi
        exact absurd hi (by simp)
    rw [hgone, if_neg (by simp), Option.map_some, counters_quietEnd] at hi
    have hcount := count_of_counters (Option.some.inj hi) e
    rw [dropEnd_count, if_pos rfl] at hcount
    have hnone : p.count e = 0 := by omega
    have hdrop := dropEnd_none hnone
    have hsems := hu.sems
    rw [detachEnd_kept e hg hp hgone, hdrop] at hsems
    rw [hdrop] at hgone
    generalize hk : ({ k with sems := forgotten k.sems p pid }.modPipe a (dropEnd e)) = k₁ at hsems
    have hk₁ : k₁.sems = forgotten k.sems p pid := by rw [← hk]; rfl
    have hwf : k₁.sems.Wf := by
      rw [hk₁]
      exact wf_forgotten hs p pid
    have hless : ∀ b, (wakeEnd e k₁ a p).sems.waits b ≤ k₁.sems.waits b := by
      intro b
      unfold wakeEnd
      split
      · exact waits_semPosts hwf _ b _
      · exact Nat.le_refl _
    have habsent : ∀ s m, k.sems.heap (p.sem s) = some m → pid ∉ m.blockedProcesses.elems := by
      intro s m hm hmem
      have hlt := waits_forgotten_lt hm hmem
      have hle := hless (p.sem s)
      rw [hsems, hk₁] at hle
      omega
    refine ⟨hnone, hgone, fun hw => ?_, habsent⟩
    by_contra hpos
    have hsame : k₁.sems = k.sems := by rw [hk₁, forgotten_absent habsent]
    have hwake : (wakeEnd e k₁ a p).sems = (wakeAll k₁ (p.sem e.other)).sems := by
      unfold wakeEnd
      rw [if_pos ⟨hnone, hw⟩]
      rfl
    refine wakeAll_changes (a := p.sem e.other) hwf (by rw [hsame]; exact hn)
      (by rw [hsame]; omega) ?_
    rw [← hwake, hsems, hsame]
  · intro hu
    have hdrop := dropEnd_none hu.none
    have hsame := forgotten_absent hu.absent
    have hkept : detachEnd e k i pid = wakeEnd e ({ k with sems := k.sems }.modPipe a (dropEnd e)) a p := by
      rw [detachEnd_kept e hg hp (by rw [hdrop]; exact hu.kept), hdrop, hsame]
    have hquiet := wakeEnd_quiet (k := { k with sems := k.sems }.modPipe a (dropEnd e)) (a := a) hu.quiet
    refine ⟨fun b => ?_, fun j => ?_, ?_⟩
    · rw [hkept, hquiet.1]
      rfl
    · rw [hlook]
      by_cases ej : j = i
      · rw [ej, Function.update_self, hl]
        unfold Pipe.detached
        rw [hdrop, hu.kept, if_neg (by simp), Option.map_some, counters_quietEnd]
        rfl
      · rw [Function.update_of_ne ej]
    · rw [hkept, hquiet.2]
      rfl

/-! ## the calls -/

theorem Unchanged.refl (k : Kernel) : Unchanged k k := ⟨fun _ => rfl, fun _ => rfl, rfl⟩

theorem detachEnd_missing (e : Side) (hl : look k.pipes i = none) (pid : Int) :
    detachEnd e k i pid = k := by
  rw [detachEnd_eq]
  unfold detach
  rw [look_none hl]

variable {c : Process}

/-- the kernel once the old target is left -/
def leaveOld (e : Side) (k : Kernel) (c : Process) : Kernel :=
  if isPipe (targetOf c.ends e) then detachEnd e k (targetOf c.ends e) c.pid else k

theorem unchanged_leaveOld_iff (e : Side) (h : k.pipes.Sane) (hs : k.sems.Wf) (hn : k.sems.Narrow) :
    Unchanged k (leaveOld e k c) ↔ (isPipe (targetOf c.ends e) = true →
      ∀ p, look k.pipes (targetOf c.ends e) = some p → Undisturbed e k p c.pid) := by
  unfold leaveOld
  by_cases ho : isPipe (targetOf c.ends e) = true
  · rw [if_pos ho]
    cases hl : look k.pipes (targetOf c.ends e) with
    | none =>
      rw [detachEnd_missing e hl]
      exact iff_of_true (Unchanged.refl k) fun _ p hp => absurd hp (by simp)
    | some p =>
      rw [unchanged_detach_iff e h hs hn hl]
      refine ⟨fun hu _ q hq => ?_, fun hu => hu ho p rfl⟩
      rw [← Option.some.inj hq]
      exact hu
  · rw [if_neg ho]
    exact iff_of_true (Unchanged.refl k) fun hc => absurd hc ho

theorem enterable_iff (e : Side) (h : k.pipes.Sane) :
    Enterable e k c id ↔ (isPipe id = true → look (leaveOld e k c).pipes id ≠ none) := by
  unfold Enterable
  refine forall_congr' fun hid => ?_
  unfold leaveOld
  by_cases he : targetOf c.ends e = id
  · -- the old target is asked for again
    rw [he, if_pos hid, (detachEnd_look e h id c.pid).2, Function.update_self]
    cases hl : look k.pipes id with
    | none => simp
    | some p =>
      rw [Option.bind_some]
      unfold Pipe.detached
      cases hz : (dropEnd e p).gone <;> simp [hz]
  · have hsame : look (if isPipe (targetOf c.ends e) = true then
        detachEnd e k (targetOf c.ends e) c.pid else k).pipes id = look k.pipes id := by
      split
      · rw [(detachEnd_look e h _ c.pid).2, Function.update_of_ne (Ne.symm he)]
      · rfl
    rw [hsame]
    cases look k.pipes id with
    | none => simp
    | some p => simp [he]

theorem sysSetTarget_idle (e : Side) (h : k.sched.running.bind k.sched.heap = none) (id : Nat) :
    sysSetTarget e k id = (-1, k) := by
  rw [sysSetTarget_eq]
  unfold setTarget
  cases hr : k.sched.running with
  | none => rfl
  | some a =>
    rw [hr, Option.bind_some] at h
    simp only [h]

theorem sysSetTarget_fails (e : Side) (h : k.sched.running.bind k.sched.heap = some c)
    (hid : isPipe id = true) (hnone : look (leaveOld e k c).pipes id = none) :
    sysSetTarget e k id = (-1, leaveOld e k c) := by
  obtain ⟨a, hr, hc⟩ := Option.bind_eq_some_iff.mp h
  have hattach := attachEnd_fails e hnone
  unfold leaveOld at hattach ⊢
  rw [sysSetTarget_eq]
  unfold setTarget
  simp only [hr, hc, if_pos hid, hattach]
  exact if_pos (show (-1 : Int) < 0 by decide)

theorem sysSetTarget_succeeds (e : Side) (h : k.sched.running.bind k.sched.heap = some c)
    (hok : isPipe id = true → look (leaveOld e k c).pipes id ≠ none) :
    (sysSetTarget e k id).1 = 0 := by
  obtain ⟨a, hr, hc⟩ := Option.bind_eq_some_iff.mp h
  unfold leaveOld at hok
  rw [sysSetTarget_eq]
  unfold setTarget
  simp only [hr, hc]
  by_cases hid : isPipe id = true
  · rw [if_pos hid, if_neg fun hz => hok hid ((attachEnd_code e _ id).mp hz)]
  · rw [if_neg hid]
    rfl

/-- **A failed `set_target` call** has changed nothing exactly when it left nothing behind: it does not
fail, or the old target does not notice. -/
theorem sysSetTarget_atomic_iff (e : Side) (h : k.pipes.Sane) (hs : k.sems.Wf) (hn : k.sems.Narrow)
    (id : Nat) : Atomic e k id ↔ RetargetSafe e k id := by
  unfold Atomic RetargetSafe
  cases hc : k.sched.running.bind k.sched.heap with
  | none =>
    rw [sysSetTarget_idle e hc]
    exact iff_of_true (fun _ => Unchanged.refl k) fun c hc => absurd hc (by simp)
  | some c =>
    have hone : ∀ {P : Process → Prop}, (∀ c', some c = some c' → P c') ↔ P c := by
      intro P
      exact ⟨fun hp => hp c rfl, fun hp c' he => Option.some.inj he ▸ hp⟩
    rw [hone, enterable_iff e h, ← unchanged_leaveOld_iff e h hs hn]
    by_cases hok : isPipe id = true → look (leaveOld e k c).pipes id ≠ none
    · rw [sysSetTarget_succeeds e hc hok]
      exact iff_of_true (fun hz => absurd hz (by decide)) (Or.inl hok)
    · obtain ⟨hid, hnone⟩ := Classical.not_imp.mp hok
      rw [sysSetTarget_fails e hc hid (not_not.mp hnone)]
      exact ⟨fun hu => Or.inr (hu rfl), fun hu _ => hu.resolve_left hok⟩

end

/-- the first reader of the pipe `2` asks for a pipe that does not exist, and is a reader no more -/
theorem sysSetTarget_halfway : ∃ k, run execBook threeEnds (initScheduler 0 []) = some k ∧
    (sysSetReadTarget k 50).1 = -1 ∧ (look k.pipes 2).map Pipe.readers = some 2 ∧
    (look (sysSetReadTarget k 50).2.pipes 2).map Pipe.readers = some 1 ∧ ¬ Atomic .rd k 50 := by
  have hrun : (run execBook threeEnds (initScheduler 0 [])).map (fun k =>
      ((sysSetReadTarget k 50).1, (look k.pipes 2).map Pipe.counters,
        (look (sysSetReadTarget k 50).2.pipes 2).map Pipe.counters))
      = some (-1, some (2, 1, 3), some (1, 1, 2)) := by decide +kernel
  obtain ⟨k, hk, hv⟩ := Option.map_eq_some_iff.mp hrun
  simp only [Prod.mk.injEq] at hv
  obtain ⟨hcode, hbefore, hafter⟩ := hv
  have hreaders : ∀ {x : Option Pipe} {r w n : Nat}, x.map Pipe.counters = some (r, w, n) →
      x.map Pipe.readers = some r := by
    intro x r w n hx
    obtain ⟨p, rfl, hp⟩ := Option.map_eq_some_iff.mp hx
    exact congrArg some (Prod.mk.inj hp).1
  refine ⟨k, hk, hcode, hreaders hbefore, hreaders hafter, fun ha => ?_⟩
  have hsame := (ha hcode).pipes 2
  rw [hbefore] at hsame
  exact absurd (hafter.symm.trans hsame) (by decide)

/-! ### a writer of a pipe -/

theorem attachEnd_sems (e : Side) (k : Kernel) (i : Nat) : (attachEnd e k i).2.sems = k.sems := by
  cases e with
  | rd =>
    show (attachReader k i).2.sems = _
    unfold attachReader
    split <;> rfl
  | wr =>
    show (attachWriter k i).2.sems = _
    unfold attachWriter
    split <;> rfl

/-- a process with no pipe to leave disturbs neither the semaphores nor the storage -/
theorem sysSetTarget_enters {k : Kernel} {c : Process} (e : Side)
    (hc : k.sched.running.bind k.sched.heap = some c) (hold : isPipe (targetOf c.ends e) = false)
    (h : k.pipes.Sane) (id : Nat) :
    (sysSetTarget e k id).2.sems = k.sems ∧ (sysSetTarget e k id).2.pipes.Sane := by
  have hattach : (attachEnd e k id).2.pipes.Sane := by
    cases e with
    | rd => exact (attachReader_look h id).1
    | wr => exact (attachWriter_look h id).1
  have hnot : ¬ isPipe (targetOf c.ends e) = true := by
    rw [hold]
    exact Bool.false_ne_true
  obtain ⟨a, hr, hc⟩ := Option.bind_eq_some_iff.mp hc
  rw [sysSetTarget_eq]
  unfold setTarget
  simp only [hr, hc, if_neg hnot]
  by_cases hid : isPipe id = true
  · rw [if_pos hid]
    split
    · exact ⟨attachEnd_sems e k id, hattach⟩
    · exact ⟨attachEnd_sems e k id, hattach⟩
  · rw [if_neg hid]
    exact ⟨rfl, h⟩

/-- the counters that are in use are 16-bit ones -/
def SemReg.narrowBelow (r : SemReg) : Bool :=
  (List.range r.next).all fun a => (r.heap a).all fun m => m.value < 65536 && m.users < 65536

theorem SemReg.narrow_of_below {r : SemReg} (h : r.Wf) (hr : r.narrowBelow = true) : r.Narrow := by
  intro a m hm
  have hall := List.all_eq_true.mp hr a (List.mem_range.mpr (h.lt_next hm))
  rw [hm] at hall
  simpa using hall

/-- the kernel in which the running process has become the writer of a new pipe -/
def writerOf (k : Kernel) : Kernel := (sysSetTarget .wr (openPipe k fun _ => 0).2 2).2

/-- no pipe, and names for one that are free -/
def roomForPipe (k : Kernel) : Bool :=
  k.pipes.storage.isEmpty && (locateSemaphoreByName k.sems (buildSemName 2 'R')).isNone &&
    (locateSemaphoreByName k.sems (buildSemName 2 'W')).isNone

/-- it reads from the keyboard, and asks for a pipe that does not exist -/
theorem sysSetTarget_atomic_writer : ∃ k, (look k.pipes 2).map Pipe.counters = some (0, 1, 1) ∧
    (sysSetReadTarget k 50).1 = -1 ∧ Atomic .rd k 50 := by
  have hrun : ((runIf execSem SemOp.clean [.create (plainArgs ['i'] 8192),
      .create (plainArgs ['a'] 16384), .schedule 8 8, .schedule 8 8200] (SemSys.boot 0 [])).map fun t =>
      (roomForPipe t.k && (writerOf t.k).sems.narrowBelow &&
          (look (writerOf t.k).pipes 2).map Pipe.counters == some (0, 1, 1),
        (t.k.sched.running.bind t.k.sched.heap).map Process.ends,
        ((writerOf t.k).sched.running.bind (writerOf t.k).sched.heap).map Process.ends,
        (openPipe t.k fun _ => 0).1, (sysSetReadTarget (writerOf t.k) 50).1))
      = some (true, some (0, 1), some (0, 2), 2, -1) := by decide +kernel
  obtain ⟨t, ht, hv⟩ := Option.map_eq_some_iff.mp hrun
  simp only [Prod.mk.injEq, Bool.and_eq_true, roomForPipe, List.isEmpty_iff,
    Option.isNone_iff_eq_none, beq_iff_eq] at hv
  obtain ⟨⟨⟨⟨⟨hempty, hr⟩, hw⟩, hnarrow⟩, hcounters⟩, hbefore, hafter, hid, hcode⟩ := hv
  have hsound : t.k.Sound := sound_run (runs_of_runIf ht)
  have hsane : t.k.pipes.Sane := sane_of_nil hempty hsound.pipes.lo hsound.pipes.hi
  have hopen : openPipe t.k (fun _ => 0) = (((2 : Nat) : Int), (openPipe t.k fun _ => 0).2) :=
    Prod.ext hid rfl
  have hsane' : (openPipe t.k fun _ => 0).2.pipes.Sane := by
    rcases openPipe_look hsane fun _ => 0 with hp | ⟨-, -, -, -, -, hs, -⟩
    · rw [hp]
      exact hsane
    · exact hs
  rw [← Sched.openPipe_sched t.k fun _ => 0] at hbefore
  obtain ⟨c, hc, hends⟩ := Option.map_eq_some_iff.mp hbefore
  obtain ⟨hsems, hpipes⟩ := sysSetTarget_enters .wr hc (by rw [hends]; rfl) hsane' 2
  have hwf : (writerOf t.k).sems.Wf := by
    show (sysSetTarget .wr (openPipe t.k fun _ => 0).2 2).2.sems.Wf
    rw [hsems]
    exact (sound_openPipe hsound hr hw hopen).sems
  refine ⟨writerOf t.k, hcounters, hcode, (sysSetTarget_atomic_iff .rd hpipes hwf
    (SemReg.narrow_of_below hwf hnarrow) 50).mpr ?_⟩
  intro c' hc'
  right
  intro hp
  have hrunning : (writerOf t.k).sched.running.bind (writerOf t.k).sched.heap = some c' := hc'
  rw [hrunning] at hafter
  have hkeyboard : c'.ends = (0, 2) := Option.some.inj hafter
  rw [hkeyboard] at hp
  exact absurd hp (by decide)

end Tp2So
