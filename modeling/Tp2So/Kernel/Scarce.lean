import Tp2So.Kernel.Create

/-!
# Calls when memory runs out

`enqueue`, `add_to_scheduler` and `semOpen` with the answers of `mm_alloc`.  Queues are named by their
pointers here: the table of the ready queues is an array of pointers, and `enqueue` returns one.

* `enqueueIn`           `enqueue`: the queue, or NULL;
* `ReadyTable`          `process_priority_table`, with the queues that its entries point to;
* `addToSchedulerIn`    `add_to_scheduler`;
* `semOpenIn`           `semOpen`, with its locks.
-/

set_option linter.unusedVariables false

namespace Tp2So

/-- what the calls of `mm_alloc` have returned, and the arguments of `mm_free` -/
structure AllocLog where
  answers : List (Option Nat)
  freed : List Nat
  deriving DecidableEq

/-- a call of `mm_alloc` has returned NULL -/
def AllocLog.failed (log : AllocLog) : Prop := none ∈ log.answers

def AllocLog.heap (log : AllocLog) : HeapLog := ⟨log.answers.filterMap id, log.freed⟩

/-! ## queues -/

section
variable {α : Type}

/-- `enqueue`, whose first call of `mm_alloc` is the one with the number `n`; `none` is NULL, and then
the queue is as it was -/
def enqueueIn (w : HeapAnswers) (n : Nat) (q : Queue α) (x : α) : Option (Queue α) × AllocLog :=
  match w.alloc n with
  | none => (none, ⟨[none], []⟩)
  | some node =>
    match w.alloc (n + 1) with
    | none => (none, ⟨[some node, none], [node]⟩)
    | some data => (some (enqueue q x), ⟨[some node, some data], []⟩)

/-- the array of `array.c`; `none` is NULL -/
def getElemByIndex (array : List α) (index : Nat) : Option α := array[index]?

def setElemByIndex (array : List α) (index : Nat) (x : α) : Option (List α) :=
  if index < array.length then some (array.set index x) else none

end

/-! ## `add_to_scheduler` -/

/-- `entries` is the array of the pointers, `none` for NULL; a pointer in it leads to its queue -/
structure ReadyTable where
  queues : Nat → Option (Queue Nat)
  entries : List (Option Nat)

def getPriorityQueue (t : ReadyTable) (priority : Nat) : Option Nat :=
  (getElemByIndex t.entries priority).join

/-- an index that is not in the array changes nothing -/
def setPriorityQueue (t : ReadyTable) (priority : Nat) (queue : Option Nat) : ReadyTable :=
  match setElemByIndex t.entries priority queue with
  | none => t
  | some entries => { t with entries }

/-- `add_to_scheduler`; the table takes the place of `ready`, and `none` is the `panic`, or a pointer
that leads nowhere -/
def addToSchedulerIn (w : HeapAnswers) (s : Sched) (t : ReadyTable) (p : Option Nat) :
    Option (Sched × ReadyTable × AllocLog) :=
  match p with
  | none => some (s, t, ⟨[], []⟩)
  | some a =>
    if s.idle = some a then some (s, t, ⟨[], []⟩)
    else
      let s := s.modify a (Process.setState .ready)
      match s.heap a with
      | none => none
      | some p =>
        match getPriorityQueue t p.priority with
        | none => none
        | some ptr =>
          match t.queues ptr with
          | none => none
          | some q =>
            match enqueueIn w 0 q a with
            | (none, log) => some (s, setPriorityQueue t p.priority none, log)
            | (some q', log) =>
              let t := { t with queues := Function.update t.queues ptr (some q') }
              some (s, setPriorityQueue t p.priority (some ptr), log)

/-- the queue of a priority, as the table has it -/
def ReadyTable.queueAt (t : ReadyTable) (priority : Nat) : Option (Queue Nat) :=
  (getPriorityQueue t priority).bind t.queues

/-- the table has the ready queues of `s`, at pointers of their own -/
structure ReadyTable.Holds (t : ReadyTable) (s : Sched) : Prop where
  queues : ∀ pr : Priority, t.queueAt pr = some (s.ready pr)
  apart : ∀ pr pr' : Priority, getPriorityQueue t pr = getPriorityQueue t pr' → pr = pr'

/-! ## `semOpen` -/

/-- the registry with its lock and the locks of the semaphores; `true` is a lock that is held -/
structure SemSpace where
  reg : SemReg
  lock : Bool
  locks : Nat → Bool

namespace SemSpace

/-- a held lock is waited for without end -/
def lockRegistry (t : SemSpace) : Option SemSpace :=
  if t.lock then none else some { t with lock := true }

def unlockRegistry (t : SemSpace) : SemSpace := { t with lock := false }

def lockSem (t : SemSpace) (a : Nat) : Option SemSpace :=
  if t.locks a then none else some { t with locks := Function.update t.locks a true }

def unlockSem (t : SemSpace) (a : Nat) : SemSpace :=
  { t with locks := Function.update t.locks a false }

def setReg (t : SemSpace) (reg : SemReg) : SemSpace := { t with reg }

end SemSpace

/-- the block of a new semaphore is filled in -/
def newSem (r : SemReg) (name : List Char) (value : Nat) : SemReg :=
  { r with
    heap := Function.update r.heap r.next
      (some { name, value := value % 65536, users := 1, blockedProcesses := createQueue })
    next := r.next + 1 }

/-- `semOpen` when there is no semaphore of that name; the registry's lock is held -/
def semCreateIn (w : HeapAnswers) (t : SemSpace) (name : List Char) (value : Nat) :
    Option Nat × SemSpace × AllocLog :=
  match w.alloc 0 with
  | none => (none, t.unlockRegistry, ⟨[none], []⟩)
  | some p =>
    -- `createQueue`
    match w.alloc 1 with
    | none => (none, t.unlockRegistry, ⟨[some p, none], [p]⟩)
    | some q =>
      let a := t.reg.next
      let t := { t with locks := Function.update t.locks a false }
      -- what `enqueue` returns is not looked at
      match enqueueIn w 2 t.reg.registry a with
      | (none, log) =>
        (some a, (t.setReg (newSem t.reg name value)).unlockRegistry,
          ⟨[some p, some q] ++ log.answers, log.freed⟩)
      | (some registry, log) =>
        (some a, (t.setReg { newSem t.reg name value with registry }).unlockRegistry,
          ⟨[some p, some q] ++ log.answers, log.freed⟩)

/-- `semOpen`; `none` stands for a call that waits for a lock without end -/
def semOpenIn (w : HeapAnswers) (t : SemSpace) (name : List Char) (value : Nat) :
    Option (Option Nat × SemSpace × AllocLog) :=
  if maxSemLength ≤ name.length then some (none, t, ⟨[], []⟩)
  else
    t.lockRegistry.bind fun t =>
      match locateSemaphoreByName t.reg name with
      | some a =>
        (t.lockSem a).map fun t =>
          let t := t.setReg (t.reg.modify a fun m => { m with users := inc16 m.users })
          (some a, (t.unlockSem a).unlockRegistry, ⟨[], []⟩)
      | none => some (semCreateIn w t name value)

/-! ## when nothing fails -/

section
variable {α : Type} {w : HeapAnswers} {n node data : Nat} {s : Sched} {t : ReadyTable} {a : Nat}

theorem enqueueIn_some (h0 : w.alloc n = some node) (h1 : w.alloc (n + 1) = some data) (q : Queue α)
    (x : α) : enqueueIn w n q x = (some (enqueue q x), ⟨[some node, some data], []⟩) := by
  unfold enqueueIn
  simp only [h0, h1]

theorem getPriorityQueue_set (t : ReadyTable) {pr pr' : Nat} (x : Option Nat)
    (h : pr < t.entries.length) : getPriorityQueue (setPriorityQueue t pr x) pr'
      = if pr' = pr then x else getPriorityQueue t pr' := by
  unfold setPriorityQueue setElemByIndex getPriorityQueue getElemByIndex
  rw [if_pos h]
  show (t.entries.set pr x)[pr']?.join = _
  by_cases e : pr' = pr
  · subst e
    rw [List.getElem?_set_self h, if_pos rfl]
    rfl
  · rw [List.getElem?_set_ne (Ne.symm e), if_neg e]

theorem lt_of_getPriorityQueue {pr ptr : Nat} (h : getPriorityQueue t pr = some ptr) :
    pr < t.entries.length := by
  unfold getPriorityQueue getElemByIndex at h
  by_contra hc
  rw [List.getElem?_eq_none (Nat.le_of_not_lt hc)] at h
  exact absurd h (by simp)

theorem setPriorityQueue_queues (t : ReadyTable) (pr : Nat) (x : Option Nat) :
    (setPriorityQueue t pr x).queues = t.queues := by
  unfold setPriorityQueue
  split <;> rfl

/-- **When no allocation fails**, the table has the ready queues of `addToScheduler`. -/
theorem addToSchedulerIn_eq {p : Process} (h : t.Holds s) (hp : s.heap a = some p)
    (h0 : w.alloc 0 = some node) (h1 : w.alloc 1 = some data) :
    ∃ s' t' log, addToSchedulerIn w s t (some a) = some (s', t', log) ∧ t'.Holds (addToScheduler s a) ∧
      s'.heap = (addToScheduler s a).heap := by
  unfold addToSchedulerIn addToScheduler
  by_cases hi : s.idle = some a
  · simp only [if_pos hi]
    exact ⟨s, t, _, rfl, h, rfl⟩
  · have hheap : (s.modify a (Process.setState .ready)).heap a = some (p.setState .ready) := by
      rw [Sched.modify_heap, heapMod_self, hp]
      rfl
    have hq := h.queues p.priority
    obtain ⟨ptr, hptr, hqueue⟩ := Option.bind_eq_some_iff.mp hq
    have hprio : (p.setState .ready).priority = p.priority := rfl
    simp only [if_neg hi, hheap, hprio, hptr, hqueue, enqueueIn_some h0 h1]
    generalize ht : ReadyTable.mk (Function.update t.queues ptr (some (enqueue (s.ready p.priority) a)))
      t.entries = t₁
    have hqueues : t₁.queues = Function.update t.queues ptr (some (enqueue (s.ready p.priority) a)) := by
      rw [← ht]
    have hptr₁ : ∀ pr : Nat, getPriorityQueue t₁ pr = getPriorityQueue t pr := by
      intro pr
      rw [← ht]
      rfl
    -- the pointer that is written back is the one that was there
    have hsame : ∀ pr : Nat, getPriorityQueue (setPriorityQueue t₁ p.priority (some ptr)) pr
        = getPriorityQueue t pr := by
      intro pr
      rw [getPriorityQueue_set t₁ _ (lt_of_getPriorityQueue ((hptr₁ _).trans hptr)), hptr₁]
      split
      · rename_i e
        rw [e, hptr]
      · rfl
    refine ⟨_, _, _, rfl, ⟨fun pr => ?_, fun pr pr' he => ?_⟩, rfl⟩
    · unfold ReadyTable.queueAt
      rw [hsame, setPriorityQueue_queues, hqueues]
      by_cases e : pr = p.priority
      · rw [e, hptr, Option.bind_some, Function.update_self, Sched.setQueue_self]
        rfl
      · obtain ⟨ptr', hptr', hqueue'⟩ := Option.bind_eq_some_iff.mp (h.queues pr)
        have hne : ptr' ≠ ptr := by
          rintro rfl
          exact e (h.apart pr p.priority (hptr'.trans hptr.symm))
        rw [hptr', Option.bind_some, Function.update_of_ne hne, hqueue', Sched.setQueue_of_ne _ _ _ e]
        rfl
    · rw [hsame, hsame] at he
      exact h.apart pr pr' he

/-- **When no allocation fails**, `semOpen` gives the semaphore and the registry of the model. -/
theorem semOpenIn_eq {u : SemSpace} {x y : Nat} (name : List Char) (value : Nat)
    (hl : u.lock = false) (hls : ∀ b, u.locks b = false) (h0 : w.alloc 0 = some x)
    (h1 : w.alloc 1 = some y) (h2 : w.alloc 2 = some node) (h3 : w.alloc 3 = some data) :
    ∃ r, semOpenIn w u name value = some r ∧ (r.1, r.2.1.reg) = semOpen u.reg name value := by
  unfold semOpenIn semOpen
  split
  · exact ⟨_, rfl, rfl⟩
  · unfold SemSpace.lockRegistry
    rw [hl, if_neg (by simp), Option.bind_some]
    simp only
    cases hloc : locateSemaphoreByName u.reg name with
    | some a =>
      simp only [SemSpace.lockSem, hls a, Bool.false_eq_true, if_false, Option.map_some]
      exact ⟨_, rfl, rfl⟩
    | none =>
      simp only [semCreateIn, h0, h1, enqueueIn_some h2 h3]
      exact ⟨_, rfl, rfl⟩

end

end Tp2So
