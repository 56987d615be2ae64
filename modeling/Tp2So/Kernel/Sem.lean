import Tp2So.Kernel.Sched

/-!
# `sem.c`

Named counting semaphores.  A post hands its token to the first pid of `blockedProcesses`, if there
is one, and counts it in `value` otherwise.  `semWait` is given up to the point where it returns or
gives the CPU away: `suspended` says that the caller is queued, and that the call returns `0` when
the process runs again, with no further test.
-/

namespace Tp2So

/-- a 16-bit counter plus one, minus one -/
def inc16 (n : Nat) : Nat := (n + 1) % 65536
def dec16 (n : Nat) : Nat := (n + 65535) % 65536

/-- how far a `semWait` gets before its caller stops running -/
inductive WaitResult where
  | error | granted | suspended
  deriving DecidableEq, Repr

/-! ## the registry -/

/-- the registry after `initSemQueue` -/
def initSemQueue : SemReg where
  heap := fun _ => none
  next := 0
  registry := createQueue

def locateSemaphoreByName (r : SemReg) (name : List Char) : Option Nat :=
  r.registry.elems.find? fun a => (r.heap a).any fun m => m.name = name

/-- the cursor that `queueElementExists` leaves in the registry is dropped: each of its users
starts a new turn -/
def isSemaphoreValid (r : SemReg) (a : Nat) : Bool :=
  queueElementExists (· == ·) r.registry a

def semOpen (r : SemReg) (name : List Char) (value : Nat) : Option Nat × SemReg :=
  if maxSemLength ≤ name.length then (none, r)
  else
    match locateSemaphoreByName r name with
    | some a => (some a, r.modify a fun m => { m with users := inc16 m.users })
    | none =>
      (some r.next,
        { heap := Function.update r.heap r.next
            (some { name, value := value % 65536, users := 1, blockedProcesses := createQueue })
          next := r.next + 1
          registry := enqueue r.registry r.next })

def semClose (r : SemReg) (a : Nat) : Int × SemReg :=
  if isSemaphoreValid r a then
    match r.heap a with
    | none => (-1, r)
    | some m =>
      if dec16 m.users ≠ 0 then (0, r.modify a fun m => { m with users := dec16 m.users })
      else
        (0, { r with heap := Function.update r.heap a none
                     registry := queueRemove (· == ·) r.registry a })
  else (-1, r)

/-- `-1` for a semaphore that is not registered -/
def semGetUsersCount (r : SemReg) (a : Nat) : Int :=
  if isSemaphoreValid r a then
    match r.heap a with
    | none => -1
    | some m => m.users
  else -1

/-- it does not ask whether the semaphore is registered -/
def removeFromSemaphore (r : SemReg) (a : Nat) (pid : Int) : SemReg :=
  r.modify a fun m =>
    { m with blockedProcesses := queueRemove (· == ·) m.blockedProcesses pid }

/-! ## waiting and posting -/

def semPost (k : Kernel) (a : Nat) : Int × Kernel :=
  if isSemaphoreValid k.sems a then
    match k.sems.heap a with
    | none => (-1, k)
    | some m =>
      match dequeue m.blockedProcesses with
      | some (pid, q) =>
        let k := { k with sems := k.sems.modify a fun m => { m with blockedProcesses := q } }
        match getProcess k.sched pid with
        | none => (0, k)
        | some b => (0, { k with sched := (unblockProcess k.sched b).2 })
      | none =>
        (0, { k with sems := k.sems.modify a fun m => { m with value := inc16 m.value } })
  else (-1, k)

def semWait (k : Kernel) (a : Nat) : WaitResult × Kernel :=
  if isSemaphoreValid k.sems a then
    match k.sems.heap a with
    | none => (.error, k)
    | some m =>
      if m.value = 0 then
        match k.sched.running with
        | none => (.error, k)
        | some b =>
          match k.sched.heap b with
          | none => (.error, k)
          | some p =>
            let k := { k with sems := k.sems.modify a fun m =>
              { m with blockedProcesses := enqueue m.blockedProcesses p.pid } }
            (.suspended, { k with sched := (blockProcess k.sched b).2 })
      else (.granted, { k with sems := k.sems.modify a fun m => { m with value := m.value - 1 } })
  else (.error, k)

/-- `n` posts in a row -/
def semPosts (a : Nat) : Nat → Kernel → Kernel
  | 0, k => k
  | n + 1, k => semPosts a n (semPost k a).2

/-! ## small facts -/

section
variable (r : SemReg) (a : Nat) (f : Sem → Sem)

@[simp] theorem SemReg.modify_heap : (r.modify a f).heap = heapMod r.heap a f := rfl
@[simp] theorem SemReg.modify_next : (r.modify a f).next = r.next := rfl
@[simp] theorem SemReg.modify_registry : (r.modify a f).registry = r.registry := rfl

theorem isSemaphoreValid_iff : isSemaphoreValid r a = true ↔ a ∈ r.registry.elems := by
  unfold isSemaphoreValid
  rw [queueElementExists_eq, List.any_eq_true]
  constructor
  · rintro ⟨b, hb, he⟩
    rwa [← beq_iff_eq.mp he]
  · exact fun h => ⟨a, h, beq_self_eq_true a⟩

end

end Tp2So
