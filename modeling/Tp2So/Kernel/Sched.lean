import Tp2So.Kernel.State

/-!
# `scheduler.c`

The ready queues, the aging pass and the choice of the next process.  `fuel` bounds the turns of the
aging loop, whose exit test the source skips on one branch; `none` stands for a loop that has not
ended, and for a read through the pointer of a freed process.

* `addToScheduler`, `removeProcessFromScheduler`, `blockProcess`, `unblockProcess`;
* `applyAging`    one pass over the queues below the highest priority;
* `schedule`      the tick: age, put the running process away, choose, dispatch.
-/

namespace Tp2So

/-- `compareProcesses` returns `0`: equal pids -/
def compareProcesses (s : Sched) (a b : Nat) : Bool :=
  match s.heap a, s.heap b with
  | some p, some q => p.pid == q.pid
  | _, _ => false

/-! ## entering and leaving a ready queue -/

/-- it looks only into the queue of the current priority -/
def removeFromAllPriorityQueues (s : Sched) (a : Nat) : Sched :=
  match s.heap a with
  | none => s
  | some p =>
    s.setQueue p.priority (queueRemove (compareProcesses s) (s.ready p.priority) a)

def addToScheduler (s : Sched) (a : Nat) : Sched :=
  if s.idle = some a then s
  else
    let s := s.modify a (Process.setState .ready)
    match s.heap a with
    | none => s
    | some p => s.setQueue p.priority (enqueue (s.ready p.priority) a)

def removeProcessFromScheduler (s : Sched) (a : Nat) : Sched :=
  if s.idle = some a then s
  else
    let s := removeFromAllPriorityQueues s a
    if s.running = some a then s.setRunning none else s

def resetAging (s : Sched) (a : Nat) : Sched :=
  if s.idle = some a then s else s.modify a (Process.setWaitTicks 0)

/-- `unblock_process`: the result code and the new state -/
def unblockProcess (s : Sched) (a : Nat) : Int × Sched :=
  match s.heap a with
  | none => (-1, s)
  | some p =>
    if s.idle = some a ∨ p.pid = 1 ∨ p.state ≠ .blocked then (-1, s)
    else (0, addToScheduler (s.modify a (Process.setState .ready)) a)

/-- `block_process`, up to the forced interrupt -/
def blockProcess (s : Sched) (a : Nat) : Int × Sched :=
  match s.heap a with
  | none => (-1, s)
  | some p =>
    if s.idle = some a ∨ p.pid = 1 ∨ p.state = .blocked ∨ p.state = .terminated then (-1, s)
    else
      let s := removeFromAllPriorityQueues s a
      let s := s.modify a (Process.setState .blocked)
      (0, resetAging s a)

/-! ## aging -/

/-- a process of queue `pr` that has waited long enough goes to the highest queue -/
def boost (s : Sched) (pr : Priority) (a : Nat) : Sched :=
  let s := s.modify a (Process.setPriority maxPriority)
  let s := s.setQueue pr (queueRemove (compareProcesses s) (s.ready pr) a)
  let s := s.setQueue maxPriority (enqueue (s.ready maxPriority) a)
  s.modify a (Process.setWaitTicks 0)

/-- what one turn of the aging loop does to a READY process -/
def ageProcess (s : Sched) (pr : Priority) (a : Nat) (p : Process) : Sched :=
  let s := s.modify a (Process.setWaitTicks (p.waitTicks + 1))
  if agingThreshold ≤ p.waitTicks + 1 then boost s pr a else s

/-- the loop over one queue; the `continue` of a process that is not READY skips the exit test -/
def agingLoop (pr : Priority) : Nat → Sched → Option Sched
  | 0, _ => none
  | fuel + 1, s =>
    match queueNextCyclicIter (s.ready pr) with
    | none => some s
    | some (a, q) =>
      let s := s.setQueue pr q
      match s.heap a with
      | none => none
      | some p =>
        if p.state ≠ .ready ∨ s.idle = some a then agingLoop pr fuel s
        else
          let s := ageProcess s pr a p
          if queueCyclicIterLooped (s.ready pr) then some s else agingLoop pr fuel s

def ageQueue (fuel : Nat) (pr : Priority) (s : Sched) : Option Sched :=
  if queueIsEmpty (s.ready pr) then some s
  else agingLoop pr fuel (s.setQueue pr (queueBeginCyclicIter (s.ready pr)))

/-- `apply_aging`: the queues `MIN_PRIORITY .. MAX_PRIORITY - AGING_BOOST` -/
def applyAging (fuel : Nat) (s : Sched) : Option Sched :=
  (ageQueue fuel 0 s).bind fun s => (ageQueue fuel 1 s).bind (ageQueue fuel 2)

/-! ## choosing the next process -/

/-- the inner loop over queue `pr`, which holds at most `n` processes -/
def selectFrom (pr : Priority) : Nat → Sched → Option (Option Nat × Sched)
  | 0, s => some (none, s)
  | n + 1, s =>
    match dequeue (s.ready pr) with
    | none => some (none, s)
    | some (a, q) =>
      let s := s.setQueue pr q
      match s.heap a with
      | none => none
      | some p =>
        if p.state = .ready ∧ s.idle ≠ some a then some (some a, s) else selectFrom pr n s

/-- the outer loop, over the queues `prs` in order -/
def selectNext : List Priority → Sched → Option (Option Nat × Sched)
  | [], s => some (none, s)
  | pr :: prs, s =>
    match selectFrom pr (queueSize (s.ready pr)) s with
    | none => none
    | some (some a, s) => some (some a, s)
    | some (none, s) => selectNext prs s

/-- hand the CPU to the idle process -/
def runIdle (s : Sched) : Option (Nat × Sched) :=
  match s.idle with
  | none => none
  | some i =>
    match s.heap i with
    | none => none
    | some p =>
      some (p.rsp, (s.modify i (Process.setState .running)).setRunning (some i))

/-- the end of `schedule`, with the process the loops have chosen -/
def dispatch (next : Option Nat) (s : Sched) : Option (Nat × Sched) :=
  match next with
  | none => runIdle s
  | some a =>
    match s.heap a with
    | none => none
    | some p =>
      if p.state ≠ .ready then runIdle s
      else
        let s := s.modify a (Process.setState .running)
        let s := s.modify a (Process.setQuantum defaultQuantum)
        let s := resetAging (s.setRunning (some a)) a
        if p.rsp < p.stackBase ∨ p.stackBase + processStackSize ≤ p.rsp then runIdle s
        else some (p.rsp, s)

/-- put the running process away; `.inl` when it keeps the CPU -/
def preempt (currentRsp : Nat) (s : Sched) : Option (Sched ⊕ Sched) :=
  match s.running with
  | none => some (.inr s)
  | some a =>
    match s.heap a with
    | none => none
    | some p =>
      let s := s.modify a (Process.setRsp currentRsp)
      match p.state with
      | .terminated => some (.inr (s.setRunning none))
      | .blocked => some (.inr (s.setRunning none))
      | .ready => some (.inr s)
      | .running =>
        let s := s.modify a (Process.setQuantum (p.quantumRemaining - 1))
        if 0 < p.quantumRemaining - 1 then some (.inl s)
        else
          let s := s.modify a (Process.setQuantum defaultQuantum)
          let s := s.modify a (Process.setState .ready)
          some (.inr (addToScheduler s a))

/-- `schedule`: the stack pointer to resume from and the new state -/
def schedule (fuel : Nat) (currentRsp : Nat) (s : Sched) : Option (Nat × Sched) :=
  match applyAging fuel s with
  | none => none
  | some s =>
    match preempt currentRsp s with
    | none => none
    | some (.inl s) => some (currentRsp, s)
    | some (.inr s) =>
      match selectNext [3, 2, 1, 0] s with
      | none => none
      | some (next, s) => dispatch next s

/-- what a tick is made of: the aging pass, the running process put away, and, unless it goes on, the
choice of the next one -/
theorem schedule_parts {fuel rsp : Nat} {s : Sched} {r : Nat × Sched} (h : schedule fuel rsp s = some r) :
    ∃ s₁, applyAging fuel s = some s₁ ∧
      ((∃ s₂, preempt rsp s₁ = some (.inl s₂) ∧ r = (rsp, s₂)) ∨
        ∃ s₂ next s₃, preempt rsp s₁ = some (.inr s₂) ∧
          selectNext [3, 2, 1, 0] s₂ = some (next, s₃) ∧ dispatch next s₃ = some r) := by
  unfold schedule at h
  cases ha : applyAging fuel s with
  | none =>
    simp only [ha] at h
    exact absurd h (by simp)
  | some s₁ =>
    refine ⟨s₁, rfl, ?_⟩
    simp only [ha] at h
    cases hp : preempt rsp s₁ with
    | none =>
      simp only [hp] at h
      exact absurd h (by simp)
    | some x =>
      simp only [hp] at h
      cases x with
      | inl s₂ => exact Or.inl ⟨s₂, rfl, (Option.some.inj h).symm⟩
      | inr s₂ =>
        cases hsel : selectNext [3, 2, 1, 0] s₂ with
        | none =>
          simp only [hsel] at h
          exact absurd h (by simp)
        | some y =>
          simp only [hsel] at h
          exact Or.inr ⟨s₂, y.1, y.2, rfl, hsel, h⟩

end Tp2So
