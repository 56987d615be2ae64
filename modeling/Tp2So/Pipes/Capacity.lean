import Tp2So.Pipes.Store
import Tp2So.Lib.Runs

/-!
# How many pipes can be opened

Ids are handed out in order and never again, so that it is not the pipes that exist which use up
`MAX_PIPES`, but the calls of `openPipe`.

* `StoreOp`, `execStore`     the calls on the pipe storage, in any order;
* `nextId_run`               the next id after a run;
* `openPipe_capacity_iff`    with capacity left, `openPipe` succeeds as long as fewer than
                             `MAX_PIPES - 2` calls were made.
-/

set_option linter.unusedVariables false

namespace Tp2So

/-- a call on the pipe storage -/
inductive StoreOp where
  | openPipe (recycled : Nat → UInt8)
  | attachReader (id : Nat)
  | attachWriter (id : Nat)
  | detachReader (id : Nat) (pid : Int)
  | detachWriter (id : Nat) (pid : Int)
  | closePipe (id : Nat)

def execStore : StoreOp → Kernel → Option Kernel
  | .openPipe recycled, k => some (openPipe k recycled).2
  | .attachReader id, k => some (attachReader k id).2
  | .attachWriter id, k => some (attachWriter k id).2
  | .detachReader id pid, k => some (detachReader k id pid)
  | .detachWriter id pid, k => some (detachWriter k id pid)
  | .closePipe id, k => some (closePipe k id).2

def StoreOp.isOpen : StoreOp → Bool
  | .openPipe _ => true
  | _ => false

/-- the calls of `openPipe` in a run -/
def openings (os : List StoreOp) : Nat := os.countP StoreOp.isOpen

def setNextId (k : Kernel) (id : Nat) : Kernel :=
  { k with pipes := { k.pipes with nextId := (id % 256 : Nat) } }

/-- the slots of the storage that are not NULL -/
def existing (t : PipeStore) : Nat := (t.storage.filterMap id).length

/-- `openPipe` succeeds, with an id that no pipe has -/
def OpensFresh (k : Kernel) : Prop :=
  ∀ recycled, (openPipe k recycled).1 ≠ -1 ∧
    ∀ a p, some a ∈ k.pipes.storage → k.pipes.heap a = some p → (p.id : Int) ≠ (openPipe k recycled).1

section
variable {k k' : Kernel} {t : PipeStore} {os : List StoreOp} {o : StoreOp}

/-! ## one call of `openPipe` -/

theorem semOpen_succeeds (r : SemReg) {name : List Char} (value : Nat)
    (hn : name.length < maxSemLength) : ∃ a r', semOpen r name value = (some a, r') := by
  unfold semOpen
  rw [if_neg (Nat.not_le.mpr hn)]
  split
  · exact ⟨_, _, rfl⟩
  · exact ⟨_, _, rfl⟩

/-- with memory, only the next id decides -/
theorem openPipe_result (hne : k.pipes.nextId ≠ maxPipes) (recycled : Nat → UInt8) :
    (openPipe k recycled).1 = (k.pipes.nextId % 256).toNat ∧
      (openPipe k recycled).2.pipes.nextId = k.pipes.nextId + 1 := by
  have hlen : ∀ id suffix, (buildSemName id suffix).length < maxSemLength := by
    intro id suffix
    show 10 < 32
    omega
  obtain ⟨canRead, r, hread⟩ := semOpen_succeeds k.sems 0 (hlen (k.pipes.nextId % 256).toNat 'R')
  obtain ⟨canWrite, r', hwrite⟩ := semOpen_succeeds r 0 (hlen (k.pipes.nextId % 256).toNat 'W')
  unfold openPipe
  rw [if_neg hne]
  simp only [hread, hwrite]
  exact ⟨trivial, trivial⟩

theorem openPipe_full (he : k.pipes.nextId = maxPipes) (recycled : Nat → UInt8) :
    openPipe k recycled = (-1, k) := if_pos he

theorem opensFresh_iff (h : k.pipes.Sane) : OpensFresh k ↔ k.pipes.nextId ≠ maxPipes := by
  constructor
  · intro hopen he
    apply (hopen fun _ => 0).1
    rw [openPipe_full he]
  · intro hne recycled
    rw [(openPipe_result hne recycled).1, h.wf.id_eq]
    have hlo := h.wf.lo
    refine ⟨by omega, fun a p ha hp => ?_⟩
    have hlt := h.wf.ids a p ha hp
    omega

/-! ## the next id along a run -/

theorem deletePipe_nextId (k : Kernel) (a : Nat) :
    (deletePipe k a).pipes.nextId = k.pipes.nextId := by
  unfold deletePipe
  split <;> rfl

theorem detach_nextId {dec : Pipe → Pipe} {wake : Kernel → Nat → Pipe → Kernel}
    (hw : ∀ (k : Kernel) a p, (wake k a p).pipes.nextId = k.pipes.nextId) (id : Nat) (pid : Int) :
    (detach k id pid dec wake).pipes.nextId = k.pipes.nextId := by
  unfold detach
  split
  · rfl
  · split
    · rfl
    · simp only
      split
      · rw [deletePipe_nextId]
        exact hw _ _ _
      · exact hw _ _ _

theorem detachReader_nextId (id : Nat) (pid : Int) :
    (detachReader k id pid).pipes.nextId = k.pipes.nextId := by
  refine detach_nextId (fun k a p => ?_) id pid
  split
  · show (wakeAll k p.canWrite).pipes.nextId = k.pipes.nextId
    rw [wakeAll_pipes]
  · rfl

theorem detachWriter_nextId (id : Nat) (pid : Int) :
    (detachWriter k id pid).pipes.nextId = k.pipes.nextId := by
  refine detach_nextId (fun k a p => ?_) id pid
  split
  · show (wakeAll k p.canRead).pipes.nextId = k.pipes.nextId
    rw [wakeAll_pipes]
  · rfl

theorem closePipe_nextId (id : Nat) : (closePipe k id).2.pipes.nextId = k.pipes.nextId := by
  unfold closePipe
  split
  · rfl
  · split
    · rfl
    · rename_i p _
      have hwake : (if (id ≠ stdin ∧ id ≠ stdout) ∧ p.attached ≤ 1 then
          wakeAll (wakeAll k p.canRead) p.canWrite else k).pipes = k.pipes := by
        split
        · rw [wakeAll_pipes, wakeAll_pipes]
        · rfl
      simp only
      split
      · rw [deletePipe_nextId, hwake]
      · rw [hwake]

theorem attach_nextId (id : Nat) : (attachReader k id).2.pipes.nextId = k.pipes.nextId ∧
    (attachWriter k id).2.pipes.nextId = k.pipes.nextId := by
  unfold attachReader attachWriter
  cases getValidPipe k.pipes id <;> exact ⟨rfl, rfl⟩

/-- **One call**: a call of `openPipe` uses up an id, until there is none; the others leave the next id
as it is. -/
theorem execStore_nextId (h : k.pipes.Sane) (he : execStore o k = some k') : k'.pipes.Sane ∧
    k'.pipes.nextId = min maxPipes (k.pipes.nextId + if o.isOpen then 1 else 0) := by
  have hhi := h.wf.hi
  have hsame : ∀ {n : Int}, n = k.pipes.nextId → n = min maxPipes (k.pipes.nextId + 0) := by
    intro n hn
    rw [hn]
    omega
  cases o with
  | openPipe recycled =>
    obtain rfl := Option.some.inj he
    by_cases hne : k.pipes.nextId = maxPipes
    · rw [openPipe_full hne]
      refine ⟨h, ?_⟩
      show k.pipes.nextId = min maxPipes (k.pipes.nextId + 1)
      omega
    · have hnext := (openPipe_result hne recycled).2
      refine ⟨?_, ?_⟩
      · rcases openPipe_look h recycled with hsame | ⟨id, r, w, -, -, hs, -⟩
        · rw [hsame]
          exact h
        · exact hs
      · rw [hnext]
        show k.pipes.nextId + 1 = min maxPipes (k.pipes.nextId + 1)
        omega
  | attachReader id =>
    obtain rfl := Option.some.inj he
    exact ⟨(attachReader_look h id).1, hsame (attach_nextId id).1⟩
  | attachWriter id =>
    obtain rfl := Option.some.inj he
    exact ⟨(attachWriter_look h id).1, hsame (attach_nextId id).2⟩
  | detachReader id pid =>
    obtain rfl := Option.some.inj he
    exact ⟨(detachReader_look h id pid).1, hsame (detachReader_nextId id pid)⟩
  | detachWriter id pid =>
    obtain rfl := Option.some.inj he
    exact ⟨(detachWriter_look h id pid).1, hsame (detachWriter_nextId id pid)⟩
  | closePipe id =>
    obtain rfl := Option.some.inj he
    exact ⟨(closePipe_look h id).1, hsame (closePipe_nextId id)⟩

theorem openings_cons (o : StoreOp) (os : List StoreOp) :
    (openings (o :: os) : Int) = openings os + if o.isOpen then 1 else 0 := by
  unfold openings
  rw [List.countP_cons]
  split <;> rfl

/-- **Runs**: the next id counts the calls of `openPipe`. -/
theorem nextId_run : ∀ {k : Kernel}, k.pipes.Sane → run execStore os k = some k' →
    k'.pipes.Sane ∧ k'.pipes.nextId = min maxPipes (k.pipes.nextId + openings os) := by
  induction os with
  | nil =>
    intro k h hr
    obtain rfl := Option.some.inj hr
    have hhi := h.wf.hi
    refine ⟨h, ?_⟩
    show k.pipes.nextId = min maxPipes (k.pipes.nextId + 0)
    omega
  | cons o os ih =>
    intro k h hr
    rw [run_cons] at hr
    obtain ⟨u, hu, hr⟩ := Option.bind_eq_some_iff.mp hr
    obtain ⟨hs, hnext⟩ := execStore_nextId h hu
    obtain ⟨hs', hnext'⟩ := ih hs hr
    refine ⟨hs', ?_⟩
    rw [hnext', hnext, openings_cons]
    split <;> omega

theorem sane_setNextId (h : k.pipes.storage = []) : (setNextId k 2).pipes.Sane := by
  have hstart : (setNextId k 2).pipes.nextId = 2 := rfl
  have hnil : (setNextId k 2).pipes.storage = [] := h
  apply sane_of_nil hnil
  · exact Int.le_of_eq hstart.symm
  · rw [hstart]
    decide

/-- **Capacity**: in a run from the empty storage that leaves fewer than `MAX_PIPES - 2` pipes, the next
`openPipe` succeeds with a new id exactly when fewer than `MAX_PIPES - 2` calls of it were made. -/
theorem openPipe_capacity_iff (h : k.pipes.storage = [])
    (hr : run execStore os (setNextId k 2) = some k')
    (hfew : (existing k'.pipes : Int) < maxPipes - 2) :
    OpensFresh k' ↔ (openings os : Int) < maxPipes - 2 := by
  obtain ⟨hs, hnext⟩ := nextId_run (sane_setNextId h) hr
  have hstart : (setNextId k 2).pipes.nextId = 2 := rfl
  rw [opensFresh_iff hs, hnext, hstart]
  omega

end

/-- pipes that are opened and closed again, one after the other -/
def openAndClose (n : Nat) : List StoreOp :=
  (List.range n).flatMap fun i => [.openPipe fun _ => 0, .closePipe (i + 2)]

/-- no pipe exists, and none can be opened -/
theorem openPipe_usedUp : ∃ k, run execStore (openAndClose 98) (setNextId emptyKernel 2) = some k ∧
    existing k.pipes = 0 ∧ (openPipe k fun _ => 0).1 = -1 ∧ ¬ OpensFresh k := by
  have hrun : (run execStore (openAndClose 98) (setNextId emptyKernel 2)).map
      (fun k => (existing k.pipes, (openPipe k fun _ => 0).1)) = some (0, -1) := by
    decide +kernel
  obtain ⟨k, hk, he⟩ := Option.map_eq_some_iff.mp hrun
  obtain ⟨hnone, hfail⟩ := Prod.mk.inj he
  exact ⟨k, hk, hnone, hfail, fun hopen => (hopen fun _ => 0).1 hfail⟩

theorem openPipe_capacity_second : ∃ k,
    run execStore (openAndClose 1) (setNextId emptyKernel 2) = some k ∧ existing k.pipes = 0 ∧
      OpensFresh k := by
  have hrun : (run execStore (openAndClose 1) (setNextId emptyKernel 2)).map
      (fun k => existing k.pipes) = some 0 := by
    decide +kernel
  obtain ⟨k, hk, hnone⟩ := Option.map_eq_some_iff.mp hrun
  exact ⟨k, hk, hnone, (openPipe_capacity_iff rfl hk (by rw [hnone]; decide)).mpr (by decide)⟩

end Tp2So
