import Tp2So.Kernel.Scarce
import Tp2So.Family.AllOrNothing
import Tp2So.Sync.Registry

/-!
# A semaphore that is not registered

`semOpen` makes four calls of `mm_alloc` for a new name.  It undoes the first two when they fail; when
`enqueue` fails it does not notice.

* `OpensSoundly`       the call has left no trace, or the semaphore is registered;
* `Served`             the names and the answers of the allocator for which this is so;
* `semOpen_sound_iff`  it is so for these exactly.
-/

set_option linter.unusedVariables false

namespace Tp2So

/-- NULL and nothing has changed, or a semaphore of that name which `semWait`, `semPost` and `semClose`
accept, with every lock released -/
def OpensSoundly (live : List Nat) (t : SemSpace) (name : List Char)
    (r : Option Nat × SemSpace × AllocLog) : Prop :=
  (r.1 = none ∧ r.2.1 = t ∧ ∀ x, r.2.2.heap.inUse live x ↔ x ∈ live) ∨
  ∃ a m, r.1 = some a ∧ isSemaphoreValid r.2.1.reg a = true ∧ r.2.1.reg.heap a = some m ∧
    m.name = name ∧ r.2.1.lock = false ∧ ∀ b, r.2.1.locks b = false

/-- the name is registered, or the semaphore or its queue cannot be allocated, or everything can -/
def Served (w : HeapAnswers) (t : SemSpace) (name : List Char) : Prop :=
  (locateSemaphoreByName t.reg name).isSome = true ∨ w.alloc 0 = none ∨ w.alloc 1 = none ∨
    ((w.alloc 2).isSome = true ∧ (w.alloc 3).isSome = true)

section
variable {w : HeapAnswers} {live : List Nat} {t : SemSpace} {name : List Char} {value : Nat}

theorem unlockRegistry_lock (hl : t.lock = false) :
    ({ t with lock := true } : SemSpace).unlockRegistry = t := by
  unfold SemSpace.unlockRegistry
  rw [← hl]

theorem semOpen_found (live : List Nat) {a : Nat} (hloc : locateSemaphoreByName t.reg name = some a)
    (hls : ∀ b, t.locks b = false) :
    ∃ r, (({ t with lock := true } : SemSpace).lockSem a).map (fun t =>
      (some a, ((t.setReg (t.reg.modify a fun m => { m with users := inc16 m.users })).unlockSem
        a).unlockRegistry, (⟨[], []⟩ : AllocLog))) = some r ∧ OpensSoundly live t name r := by
  have hmem := List.mem_of_find?_eq_some hloc
  obtain ⟨m, hm, hname⟩ := SemReg.locate_some hloc
  unfold SemSpace.lockSem
  rw [if_neg (by rw [hls a]; simp), Option.map_some]
  refine ⟨_, rfl, Or.inr ⟨a, { m with users := inc16 m.users }, rfl, ?_, ?_, hname, rfl, fun b => ?_⟩⟩
  · exact (isSemaphoreValid_iff _ a).mpr hmem
  · show heapMod t.reg.heap a _ a = _
    rw [heapMod_self, hm]
    rfl
  · show Function.update (Function.update t.locks a true) a false b = false
    rw [Function.update_idem]
    by_cases e : b = a
    · rw [e, Function.update_self]
    · rw [Function.update_of_ne e]
      exact hls b

theorem inUse_returned (hw : w.Fresh live) {n p : Nat} (hp : w.alloc n = some p) (x : Nat) :
    (⟨[some p, none], [p]⟩ : AllocLog).heap.inUse live x ↔ x ∈ live := by
  show (x ∈ live ∨ x ∈ [p]) ∧ x ∉ [p] ↔ x ∈ live
  rw [List.mem_singleton]
  constructor
  · rintro ⟨h | h, hne⟩
    · exact h
    · exact absurd h hne
  · intro h
    refine ⟨Or.inl h, ?_⟩
    rintro rfl
    exact hw.new n x hp h

/-- a new name: the four answers decide -/
theorem semCreate_sound_iff (hw : w.Fresh live) (hr : t.reg.Wf) (hl : t.lock = false)
    (hls : ∀ b, t.locks b = false) :
    OpensSoundly live t name (semCreateIn w { t with lock := true } name value) ↔
      w.alloc 0 = none ∨ w.alloc 1 = none ∨
        ((w.alloc 2).isSome = true ∧ (w.alloc 3).isSome = true) := by
  unfold semCreateIn
  cases h0 : w.alloc 0 with
  | none =>
    refine iff_of_true (Or.inl ⟨rfl, unlockRegistry_lock hl, fun x => ?_⟩) (Or.inl rfl)
    show (x ∈ live ∨ x ∈ []) ∧ x ∉ [] ↔ x ∈ live
    simp
  | some p =>
    simp only
    cases h1 : w.alloc 1 with
    | none =>
      exact iff_of_true (Or.inl ⟨rfl, unlockRegistry_lock hl, inUse_returned hw h0⟩) (Or.inr (Or.inl rfl))
    | some q =>
      have hlocks : ∀ b, Function.update t.locks t.reg.next false b = false := by
        intro b
        by_cases e : b = t.reg.next
        · rw [e, Function.update_self]
        · rw [Function.update_of_ne e]
          exact hls b
      -- a semaphore with a new pointer is not in the registry
      have hnew : t.reg.next ∉ t.reg.registry.elems := by
        intro hmem
        obtain ⟨m, hm⟩ := (hr.mem _).mp hmem
        rw [hr.fresh _ (Nat.le_refl _)] at hm
        exact absurd hm (by simp)
      have hlost : ∀ log : AllocLog, ¬ OpensSoundly live t name (some t.reg.next,
          ((({ t with lock := true, locks := Function.update t.locks t.reg.next false } :
            SemSpace).setReg (newSem t.reg name value)).unlockRegistry), log) := by
        rintro log (⟨hnone, -⟩ | ⟨a, m, ha, hvalid, -⟩)
        · exact absurd hnone (by simp)
        · obtain rfl := Option.some.inj ha
          exact hnew ((isSemaphoreValid_iff _ _).mp hvalid)
      cases h2 : w.alloc 2 with
      | none =>
        simp only [enqueueIn, h2]
        refine iff_of_false (hlost _) ?_
        simp
      | some node =>
        cases h3 : w.alloc 3 with
        | none =>
          simp only [enqueueIn, h2, h3]
          refine iff_of_false (hlost _) ?_
          simp
        | some data =>
          simp only [enqueueIn_some h2 h3]
          refine iff_of_true (Or.inr ⟨t.reg.next, _, rfl, ?_, Function.update_self .., rfl, rfl, hlocks⟩)
            (Or.inr (Or.inr ⟨rfl, rfl⟩))
          exact (isSemaphoreValid_iff _ _).mpr (List.mem_append_right _ (List.mem_singleton_self _))

/-- **`semOpen` when memory runs out**: a call with every lock free returns, and what it returns is
sound exactly when `enqueue` does not fail behind its back. -/
theorem semOpen_sound_iff (hw : w.Fresh live) (hr : t.reg.Wf) (hl : t.lock = false)
    (hls : ∀ b, t.locks b = false) (hname : name.length < maxSemLength) (value : Nat) :
    ∃ r, semOpenIn w t name value = some r ∧ (OpensSoundly live t name r ↔ Served w t name) := by
  unfold semOpenIn SemSpace.lockRegistry
  rw [if_neg (Nat.not_le.mpr hname), if_neg (by rw [hl]; simp), Option.bind_some]
  unfold Served
  simp only
  cases hloc : locateSemaphoreByName t.reg name with
  | some a =>
    obtain ⟨r, hrun, hsound⟩ := semOpen_found live hloc hls
    exact ⟨r, hrun, iff_of_true hsound (Or.inl rfl)⟩
  | none =>
    refine ⟨_, rfl, ?_⟩
    rw [semCreate_sound_iff hw hr hl hls]
    simp

end

/-- an empty registry, with every lock free -/
def noSems : SemSpace := ⟨initSemQueue, false, fun _ => false⟩

/-- memory for two blocks -/
def twoBlocks : HeapAnswers := ⟨fun n => if n < 2 then some (n + 1) else none, fun _ _ => 0, 0, 0⟩

theorem fresh_twoBlocks : twoBlocks.Fresh [] := by
  refine ⟨fun n x hx => ?_, fun m n x hm hn => ?_, fun n x hx => List.not_mem_nil⟩
  · simp only [twoBlocks] at hx
    split at hx
    · have := Option.some.inj hx
      omega
    · exact absurd hx (by simp)
  · simp only [twoBlocks] at hm hn
    split at hm
    · split at hn
      · have h1 := Option.some.inj hm
        have h2 := Option.some.inj hn
        omega
      · exact absurd hn (by simp)
    · exact absurd hm (by simp)

/-- there is no memory for the node in the registry: the semaphore is returned all the same, and the
two blocks are lost -/
theorem semOpen_unregistered : twoBlocks.Fresh [] ∧ ∃ r, semOpenIn twoBlocks noSems ['m'] 1 = some r ∧
    r.1 = some 0 ∧ isSemaphoreValid r.2.1.reg 0 = false ∧ r.2.2 = ⟨[some 1, some 2, none], []⟩ ∧
    ¬ OpensSoundly [] noSems ['m'] r := by
  refine ⟨fresh_twoBlocks, _, rfl, rfl, by decide, by decide, ?_⟩
  rintro (⟨hnone, -⟩ | ⟨a, m, ha, hvalid, -⟩)
  · exact absurd hnone (by decide)
  · obtain rfl := Option.some.inj ha
    exact absurd hvalid (by decide)

theorem semOpen_sound_noMemory : ∃ r, semOpenIn ⟨fun _ => none, fun _ _ => 0, 0, 0⟩ noSems ['m'] 1
    = some r ∧ OpensSoundly [] noSems ['m'] r := by
  have hfresh : HeapAnswers.Fresh ⟨fun _ => none, fun _ _ => 0, 0, 0⟩ [] :=
    ⟨fun n x hx => absurd hx (by simp), fun m n x hx => absurd hx (by simp),
      fun n x hx => absurd hx (by simp)⟩
  have hname : ['m'].length < maxSemLength := by decide
  obtain ⟨r, hr, hiff⟩ := semOpen_sound_iff (t := noSems) hfresh SemReg.wf_init rfl (fun _ => rfl)
    hname 1
  exact ⟨r, hr, hiff.mpr (Or.inr (Or.inl rfl))⟩

end Tp2So
