import Tp2So.Kernel.Sem
import Mathlib.Data.List.Nodup

/-!
# The semaphore registry

In a well-formed registry (`SemReg.Wf`) the registered semaphores are the ones that exist, no name is
used twice, and pointers not yet handed out are free.  On such a registry

* `semOpen_cases`, `semClose_cases`   opening and closing, up to the count of users;
* `semPost_eq`, `semWait_zero`, `semWait_pos`   posting and waiting, with what happens to the
  registry and what happens to the scheduler kept apart.

`Sem.Alike m m'` says that two semaphores differ in their count of users only.
-/

set_option linter.unusedVariables false

namespace Tp2So

structure SemReg.Wf (r : SemReg) : Prop where
  mem : ∀ a, a ∈ r.registry.elems ↔ ∃ m, r.heap a = some m
  nodup : r.registry.elems.Nodup
  fresh : ∀ a, r.next ≤ a → r.heap a = none
  names : ∀ a b m n, r.heap a = some m → r.heap b = some n → m.name = n.name → a = b

/-- equal but for the count of users -/
def Sem.Alike (m m' : Sem) : Prop :=
  m'.name = m.name ∧ m'.value = m.value ∧ m'.blockedProcesses = m.blockedProcesses

namespace SemReg
variable {r : SemReg} {a b : Nat} {m : Sem} {name : List Char} {v : Nat}

theorem Wf.valid_iff (h : r.Wf) : isSemaphoreValid r a = true ↔ ∃ m, r.heap a = some m :=
  (isSemaphoreValid_iff r a).trans (h.mem a)

theorem Wf.valid (h : r.Wf) (hm : r.heap a = some m) : isSemaphoreValid r a = true :=
  h.valid_iff.mpr ⟨m, hm⟩

theorem Wf.lt_next (h : r.Wf) (hm : r.heap a = some m) : a < r.next := by
  by_contra hlt
  rw [h.fresh a (by omega)] at hm
  exact absurd hm (by simp)

/-! ## keeping the registry well formed -/

theorem modify_of_none (f : Sem → Sem) (hm : r.heap a = none) : r.modify a f = r := by
  have : heapMod r.heap a f = r.heap := by
    unfold heapMod
    rw [hm]
    exact Function.update_eq_self_iff.mpr hm.symm
  unfold modify
  rw [this]

theorem Wf.modify (h : r.Wf) (a : Nat) {f : Sem → Sem} (hf : ∀ m, (f m).name = m.name) :
    (r.modify a f).Wf where
  mem b := by
    rw [modify_registry, modify_heap, h.mem b]
    constructor
    · rintro ⟨m, hm⟩
      exact ⟨_, heapMod_of_some a f hm⟩
    · rintro ⟨m, hm⟩
      obtain ⟨n, hn, -⟩ := heapMod_some hm
      exact ⟨n, hn⟩
  nodup := h.nodup
  fresh b hb := by
    by_cases e : b = a
    · subst e
      rw [modify_heap, heapMod_self, h.fresh b hb]
      rfl
    · rw [modify_heap, heapMod_of_ne _ _ e]
      exact h.fresh b hb
  names b c m n hm hn he := by
    obtain ⟨m', hm', rfl⟩ := heapMod_some hm
    obtain ⟨n', hn', rfl⟩ := heapMod_some hn
    have hname : ∀ (x : Nat) (y : Sem), (if x = a then f y else y).name = y.name := by
      intro x y
      split
      · exact hf y
      · rfl
    rw [hname, hname] at he
    exact h.names b c m' n' hm' hn' he

/-- the registry with a new semaphore -/
def add (r : SemReg) (m : Sem) : SemReg where
  heap := Function.update r.heap r.next (some m)
  next := r.next + 1
  registry := enqueue r.registry r.next

/-- the registry without the semaphore `a` -/
def drop (r : SemReg) (a : Nat) : SemReg :=
  { r with heap := Function.update r.heap a none
           registry := queueRemove (· == ·) r.registry a }

theorem add_heap {m' : Sem} (hm' : (r.add m).heap b = some m') :
    (b = r.next ∧ m' = m) ∨ (b ≠ r.next ∧ r.heap b = some m') := by
  by_cases e : b = r.next
  · subst e
    have hself : (r.add m).heap r.next = some m := Function.update_self ..
    exact Or.inl ⟨rfl, (Option.some.inj (hself.symm.trans hm')).symm⟩
  · exact Or.inr ⟨e, (Function.update_of_ne e ..).symm.trans hm'⟩

theorem Wf.add (h : r.Wf) (hname : ∀ a n, r.heap a = some n → n.name ≠ m.name) :
    (r.add m).Wf where
  mem b := by
    have hreg : (r.add m).registry.elems = r.registry.elems ++ [r.next] := rfl
    rw [hreg, List.mem_append, List.mem_singleton, h.mem b]
    constructor
    · rintro (⟨n, hn⟩ | rfl)
      · have hne : b ≠ r.next := Nat.ne_of_lt (h.lt_next hn)
        exact ⟨n, (Function.update_of_ne hne ..).trans hn⟩
      · exact ⟨m, Function.update_self ..⟩
    · rintro ⟨n, hn⟩
      rcases add_heap hn with ⟨hb, -⟩ | ⟨-, hb⟩
      · exact Or.inr hb
      · exact Or.inl ⟨n, hb⟩
  nodup := by
    refine List.nodup_append.mpr ⟨h.nodup, List.nodup_singleton _, ?_⟩
    rintro b hb c hc rfl
    obtain rfl := List.mem_singleton.mp hc
    obtain ⟨n, hn⟩ := (h.mem _).mp hb
    exact absurd (h.lt_next hn) (by omega)
  fresh b hb := by
    have hb' : r.next + 1 ≤ b := hb
    have hne : b ≠ r.next := by omega
    exact (Function.update_of_ne hne ..).trans (h.fresh b (by omega))
  names b c n n' hn hn' he := by
    rcases add_heap hn with ⟨rfl, rfl⟩ | ⟨-, hb⟩ <;> rcases add_heap hn' with ⟨rfl, rfl⟩ | ⟨-, hc⟩
    · rfl
    · exact absurd he.symm (hname c n' hc)
    · exact absurd he (hname b n hb)
    · exact h.names b c n n' hb hc he

theorem drop_heap {m' : Sem} (hm' : (r.drop a).heap b = some m') : b ≠ a ∧ r.heap b = some m' := by
  by_cases e : b = a
  · subst e
    have hself : (r.drop b).heap b = none := Function.update_self ..
    exact absurd (hself.symm.trans hm') (by simp)
  · exact ⟨e, (Function.update_of_ne e ..).symm.trans hm'⟩

theorem Wf.drop (h : r.Wf) (a : Nat) : (r.drop a).Wf := by
  have helems : (r.drop a).registry.elems = r.registry.elems.erase a :=
    queueRemove_elems_erase fun _ _ => rfl
  refine ⟨fun b => ?_, ?_, fun b hb => ?_, fun b c n n' hn hn' he => ?_⟩
  · rw [helems]
    constructor
    · intro hb
      obtain ⟨hne, hb⟩ := (h.nodup.mem_erase_iff).mp hb
      obtain ⟨n, hn⟩ := (h.mem b).mp hb
      exact ⟨n, (Function.update_of_ne hne ..).trans hn⟩
    · rintro ⟨n, hn⟩
      obtain ⟨hne, hn⟩ := drop_heap hn
      exact (h.nodup.mem_erase_iff).mpr ⟨hne, (h.mem b).mpr ⟨n, hn⟩⟩
  · rw [helems]
    exact h.nodup.erase a
  · by_cases e : b = a
    · subst e
      exact Function.update_self ..
    · exact (Function.update_of_ne e ..).trans (h.fresh b hb)
  · exact h.names b c n n' (drop_heap hn).2 (drop_heap hn').2 he

theorem wf_init : initSemQueue.Wf := by
  refine ⟨fun a => ?_, List.nodup_nil, fun _ _ => rfl, fun a b m n hm => ?_⟩
  · constructor
    · intro ha
      exact absurd ha List.not_mem_nil
    · intro ⟨m, hm⟩
      exact absurd hm (by simp [initSemQueue])
  · exact absurd hm (by simp [initSemQueue])

/-! ## opening and closing -/

theorem locate_some (h : locateSemaphoreByName r name = some a) :
    ∃ m, r.heap a = some m ∧ m.name = name := by
  unfold locateSemaphoreByName at h
  have hf := List.find?_some h
  cases hm : r.heap a with
  | none => rw [hm] at hf; exact absurd hf (by simp)
  | some m =>
    rw [hm] at hf
    exact ⟨m, rfl, of_decide_eq_true hf⟩

theorem Wf.locate_none (h : r.Wf) (hl : locateSemaphoreByName r name = none) (hm : r.heap a = some m) :
    m.name ≠ name := by
  intro he
  have hno := List.find?_eq_none.mp hl a ((h.mem a).mpr ⟨m, hm⟩)
  exact hno (by rw [hm]; exact decide_eq_true he)

theorem Wf.locate (h : r.Wf) (hm : r.heap a = some m) :
    locateSemaphoreByName r m.name = some a := by
  cases hl : locateSemaphoreByName r m.name with
  | none => exact absurd rfl (h.locate_none hl hm)
  | some b =>
    obtain ⟨n, hn, he⟩ := locate_some hl
    rw [h.names b a n m hn hm he]

/-- one more user -/
def moreUsers (m : Sem) : Sem := { m with users := inc16 m.users }
/-- one user less -/
def lessUsers (m : Sem) : Sem := { m with users := dec16 m.users }

theorem alike_moreUsers (m : Sem) : m.Alike (moreUsers m) := by
  unfold moreUsers
  exact ⟨rfl, rfl, rfl⟩

theorem alike_lessUsers (m : Sem) : m.Alike (lessUsers m) := by
  unfold lessUsers
  exact ⟨rfl, rfl, rfl⟩

/-- what `semOpen` creates -/
def fresh (name : List Char) (v : Nat) : Sem :=
  { name, value := v % 65536, users := 1, blockedProcesses := createQueue }

theorem semOpen_found (hlen : name.length < maxSemLength)
    (hl : locateSemaphoreByName r name = some a) :
    semOpen r name v = (some a, r.modify a moreUsers) := by
  unfold semOpen
  rw [if_neg (by omega), hl]
  rfl

theorem semOpen_new (hlen : name.length < maxSemLength)
    (hl : locateSemaphoreByName r name = none) :
    semOpen r name v = (some r.next, r.add (fresh name v)) := by
  unfold semOpen
  rw [if_neg (by omega), hl]
  rfl

theorem semOpen_long (hlen : ¬ name.length < maxSemLength) : semOpen r name v = (none, r) := by
  unfold semOpen
  rw [if_pos (by omega)]

theorem semOpen_name {r' : SemReg} (h : r.Wf) (ho : semOpen r name v = (some a, r')) :
    ∃ m, r'.heap a = some m ∧ m.name = name := by
  by_cases hlen : name.length < maxSemLength
  · cases hl : locateSemaphoreByName r name with
    | some b =>
      rw [semOpen_found hlen hl] at ho
      obtain ⟨hb, rfl⟩ := Prod.mk.inj ho
      obtain rfl := Option.some.inj hb
      obtain ⟨m, hm, hn⟩ := locate_some hl
      exact ⟨moreUsers m, by rw [modify_heap, heapMod_self, hm]; rfl, hn⟩
    | none =>
      rw [semOpen_new hlen hl] at ho
      obtain ⟨hb, rfl⟩ := Prod.mk.inj ho
      obtain rfl := Option.some.inj hb
      exact ⟨fresh name v, Function.update_self .., rfl⟩
  · rw [semOpen_long hlen] at ho
    exact absurd (Prod.mk.inj ho).1 (by simp)

theorem semClose_cases (h : r.Wf) : (semClose r a).2 = r ∨
    (semClose r a).2 = r.modify a lessUsers ∨ (semClose r a).2 = r.drop a := by
  unfold semClose
  split
  · split
    · exact Or.inl rfl
    · split
      · exact Or.inr (Or.inl rfl)
      · exact Or.inr (Or.inr rfl)
  · exact Or.inl rfl

/-- `r'` has the semaphores of `r` with the same names, values and waiters, perhaps fewer of them,
and perhaps a new one that is like `m` -/
structure Renews (r r' : SemReg) (m : Sem) : Prop where
  wf : r'.Wf
  next : r.next ≤ r'.next
  back : ∀ b n', r'.heap b = some n' →
    (∃ n, r.heap b = some n ∧ n.Alike n') ∨ (r.next ≤ b ∧ m.Alike n')

theorem Renews.refl (h : r.Wf) (m : Sem) : Renews r r m :=
  ⟨h, Nat.le_refl _, fun b n hn => Or.inl ⟨n, hn, rfl, rfl, rfl⟩⟩

theorem renews_modify (h : r.Wf) (a : Nat) {f : Sem → Sem} (hf : ∀ n : Sem, n.Alike (f n)) (m : Sem) :
    Renews r (r.modify a f) m := by
  refine ⟨h.modify a fun m => (hf m).1, Nat.le_refl _, fun b n' hn' => ?_⟩
  obtain ⟨n, hn, rfl⟩ := heapMod_some hn'
  refine Or.inl ⟨n, hn, ?_⟩
  split
  · exact hf n
  · exact ⟨rfl, rfl, rfl⟩

theorem renews_semOpen (h : r.Wf) (name : List Char) (v : Nat) :
    Renews r (semOpen r name v).2 (fresh name v) := by
  by_cases hlen : name.length < maxSemLength
  · cases hl : locateSemaphoreByName r name with
    | some a =>
      rw [semOpen_found hlen hl]
      exact renews_modify h a alike_moreUsers _
    | none =>
      rw [semOpen_new hlen hl]
      refine ⟨h.add fun a n hn => h.locate_none hl hn, Nat.le_succ _, fun b n' hn' => ?_⟩
      rcases add_heap hn' with ⟨rfl, rfl⟩ | ⟨-, hb⟩
      · exact Or.inr ⟨Nat.le_refl _, rfl, rfl, rfl⟩
      · exact Or.inl ⟨n', hb, rfl, rfl, rfl⟩
  · rw [semOpen_long hlen]
    exact .refl h _

theorem renews_semClose (h : r.Wf) (a : Nat) (m : Sem) : Renews r (semClose r a).2 m := by
  rcases semClose_cases h with e | e | e <;> rw [e]
  · exact .refl h m
  · exact renews_modify h a alike_lessUsers m
  · exact ⟨h.drop a, Nat.le_refl _, fun b n hn => Or.inl ⟨n, (drop_heap hn).2, rfl, rfl, rfl⟩⟩

end SemReg

/-! ## posting and waiting -/

/-- wake the process with this pid, if there is one -/
def wakePid (s : Sched) (pid : Int) : Sched :=
  match getProcess s pid with
  | none => s
  | some b => (unblockProcess s b).2

/-- the pid the next post will take out -/
def headWaiter (r : SemReg) (a : Nat) : Option Int :=
  (r.heap a).bind fun m => m.blockedProcesses.elems.head?

/-- what a post does to the semaphore -/
def postSem (m : Sem) : Sem :=
  match dequeue m.blockedProcesses with
  | some (_, q) => { m with blockedProcesses := q }
  | none => { m with value := inc16 m.value }

/-- what a wait that is not granted does to the semaphore -/
def queueSem (pid : Int) (m : Sem) : Sem :=
  { m with blockedProcesses := enqueue m.blockedProcesses pid }

/-- what a wait that is granted does to the semaphore -/
def takeSem (m : Sem) : Sem := { m with value := m.value - 1 }

theorem postSem_name (m : Sem) : (postSem m).name = m.name := by
  unfold postSem
  split <;> rfl

theorem postSem_nil {m : Sem} (hq : m.blockedProcesses.elems = []) :
    postSem m = { m with value := inc16 m.value } := by
  unfold postSem dequeue
  rw [hq]

theorem postSem_cons {m : Sem} {pid : Int} {rest : List Int}
    (hq : m.blockedProcesses.elems = pid :: rest) :
    (postSem m).blockedProcesses.elems = rest ∧ (postSem m).value = m.value := by
  unfold postSem dequeue
  rw [hq]
  exact ⟨rfl, rfl⟩

/-- **A post**, its effect on the registry and its effect on the scheduler. -/
theorem semPost_eq {k : Kernel} (h : k.sems.Wf) (a : Nat) :
    (semPost k a).2 = { k with
      sems := k.sems.modify a postSem
      sched := (headWaiter k.sems a).elim k.sched (wakePid k.sched) } := by
  have hmod : ∀ {f g : Sem → Sem} {m : Sem}, k.sems.heap a = some m → f m = g m →
      k.sems.modify a f = k.sems.modify a g := by
    intro f g m hm he
    unfold SemReg.modify heapMod
    rw [hm, Option.map_some, Option.map_some, he]
  cases hm : k.sems.heap a with
  | none =>
    have hnv : ¬ isSemaphoreValid k.sems a = true := by
      rw [h.valid_iff, hm]
      simp
    unfold semPost headWaiter
    rw [if_neg hnv, SemReg.modify_of_none _ hm, hm]
    rfl
  | some m =>
    unfold semPost headWaiter
    rw [if_pos (h.valid hm)]
    simp only [hm, Option.bind_some]
    cases hd : dequeue m.blockedProcesses with
    | none =>
      rw [dequeue_eq_none hd, hmod hm (show _ = postSem m by unfold postSem; rw [hd])]
      rfl
    | some x =>
      obtain ⟨pid, q⟩ := x
      rw [dequeue_eq_some hd]
      simp only [List.head?_cons, Option.elim_some]
      rw [hmod (f := fun m => { m with blockedProcesses := q }) hm
        (show _ = postSem m by unfold postSem; rw [hd])]
      unfold wakePid
      cases getProcess k.sched pid <;> rfl

theorem semPost_code {k : Kernel} (h : k.sems.Wf) {a : Nat} {m : Sem} (hm : k.sems.heap a = some m) :
    (semPost k a).1 = 0 := by
  unfold semPost
  rw [if_pos (h.valid hm)]
  simp only [hm]
  split
  · split <;> rfl
  · rfl

section
variable {k : Kernel} {a b : Nat} {m : Sem} {p : Process}

theorem semWait_zero (h : k.sems.Wf) (hm : k.sems.heap a = some m) (hv : m.value = 0)
    (hr : k.sched.running = some b) (hp : k.sched.heap b = some p) :
    semWait k a = (.suspended, { k with
      sems := k.sems.modify a (queueSem p.pid)
      sched := (blockProcess k.sched b).2 }) := by
  unfold semWait
  rw [if_pos (h.valid hm)]
  simp only [hm, hr, hp]
  rw [if_pos hv]
  rfl

theorem semWait_pos (h : k.sems.Wf) (hm : k.sems.heap a = some m) (hv : m.value ≠ 0) :
    semWait k a = (.granted, { k with sems := k.sems.modify a takeSem }) := by
  unfold semWait
  rw [if_pos (h.valid hm)]
  simp only [hm]
  rw [if_neg hv]
  rfl

theorem semWait_none (h : k.sems.Wf) (hm : k.sems.heap a = none) : semWait k a = (.error, k) := by
  have hnv : ¬ isSemaphoreValid k.sems a = true := by
    rw [h.valid_iff, hm]
    simp
  unfold semWait
  rw [if_neg hnv]

end

end Tp2So
