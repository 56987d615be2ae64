import Tp2So.Pipes.Counts
import Tp2So.Kernel.Calls

/-!
# The ends of every pipe, accounted for

A run opens and closes pipes, creates processes with any targets, moves the ends of the running
process and takes processes down.  `Accounted` says that the counters of every stored pipe are the
numbers of live processes that have the pipe as a target.

* `Agree l f`        the counters of the pipes `l` are the numbers that the targets `f` give;
* `BookOp.fair`      nobody already aims at an id that is just being opened; a `set_target` call does
                     not give up an end for a pipe that does not exist; a process that is killed after
                     it has terminated has no end left to take off;
* `accounted_run`    in a run of fair steps `Accounted` holds in every state.
-/

set_option linter.unusedVariables false

namespace Tp2So

inductive BookOp where
  | openPipe (recycled : Nat → UInt8)
  | create (args : CreateArgs)
  | setReadTarget (id : Nat)
  | setWriteTarget (id : Nat)
  | closePipe (id : Nat)
  | kill (pid : Int)
  | terminate
  | schedule (fuel rsp : Nat)

/-- the idle process does not terminate -/
def execBook : BookOp → Kernel → Option Kernel
  | .openPipe recycled, k => some (openPipe k recycled).2
  | .create args, k => some (createProcess k args).2
  | .setReadTarget id, k => some (sysSetReadTarget k id).2
  | .setWriteTarget id, k => some (sysSetWriteTarget k id).2
  | .closePipe id, k => some (closePipe k id).2
  | .kill pid, k => some (killProcess k pid).2
  | .terminate, k => if k.sched.running = k.sched.idle then none else processTerminator k
  | .schedule fuel rsp, k => (schedule fuel rsp k.sched).map fun r => { k with sched := r.2 }

/-! ## the condition -/

/-- every counter is the number of targets -/
def Agree (l : Nat → Option Pipe) (f : Int → Option (Nat × Nat)) : Prop :=
  ∀ i p, l i = some p → 2 ≤ i ∧ (∀ e, p.count e = ends f e i) ∧ p.Sum

structure Kernel.Books (k : Kernel) : Prop where
  ok : k.sched.Ok
  sane : k.pipes.Sane
  agree : Agree (look k.pipes) k.sched.aims

section
variable {l l' : Nat → Option Pipe} {f : Int → Option (Nat × Nat)} {pid : Int} {k k' : Kernel}
  {i r w : Nat} {p q : Pipe} {e : Side}

theorem Agree.small (h : Agree l f) (hp : l i = some p) : p.Small 64 := by
  intro e
  obtain ⟨-, hc, -⟩ := h i p hp
  rw [hc e]
  exact ends_le f e i

theorem Agree.join (h : Agree l f) (h0 : 0 ≤ pid) (h1 : pid < maxProcesses) (hf : f pid = none)
    (hl : ∀ i, l' i = joinedPipe r w i (l i)) : Agree l' (Function.update f pid (some (r, w))) := by
  intro i q hq
  rw [hl i] at hq
  cases hp : l i with
  | none =>
    rw [hp] at hq
    simp only [joinedPipe, Option.map_none, ite_self] at hq
    exact absurd hq (by simp)
  | some p =>
    obtain ⟨h2, hc, hs⟩ := h i p hp
    rw [hp] at hq
    obtain ⟨hc', hs'⟩ := joinedPipe_counts h2 (Nat.le_refl 64) hs (h.small hp) hq
    refine ⟨h2, fun e => ?_, hs'⟩
    have hu := ends_update (f := f) (x := some (r, w)) (e := e) (i := i) h0 h1
    rw [hf, hits_none] at hu
    rw [hc', hc]
    omega

theorem Agree.leave (h : Agree l f) (h0 : 0 ≤ pid) (h1 : pid < maxProcesses)
    (hf : f pid = some (r, w)) (hl : ∀ i, l' i = leftPipe r w i (l i)) :
    Agree l' (Function.update f pid none) := by
  intro i q hq
  rw [hl i] at hq
  cases hp : l i with
  | none =>
    rw [hp] at hq
    simp only [leftPipe, Option.bind_none, ite_self] at hq
    exact absurd hq (by simp)
  | some p =>
    obtain ⟨h2, hc, hs⟩ := h i p hp
    rw [hp] at hq
    obtain ⟨hc', hs'⟩ := leftPipe_counts h2 hs hq
    refine ⟨h2, fun e => ?_, hs'⟩
    have hu := ends_update (f := f) (x := none) (e := e) (i := i) h0 h1
    rw [hf, hits_none] at hu
    rw [hc', hc]
    omega

/-- the ends of a process that is dead already: there is nothing to take off -/
theorem Agree.again (h : Agree l f) (hl : ∀ i, l' i = leftPipe r w i (l i))
    (hr : ∀ p, l r = some p → p.readers = 0) (hw : ∀ p, l w = some p → p.writers = 0) :
    Agree l' f := by
  intro i q hq
  rw [hl i] at hq
  cases hp : l i with
  | none =>
    rw [hp] at hq
    simp only [leftPipe, Option.bind_none, ite_self] at hq
    exact absurd hq (by simp)
  | some p =>
    obtain ⟨h2, hc, hs⟩ := h i p hp
    rw [hp] at hq
    obtain ⟨hc', hs'⟩ := leftPipe_counts h2 hs hq
    refine ⟨h2, fun e => ?_, hs'⟩
    rw [hc', ← hc, hits_some]
    cases e with
    | rd =>
      by_cases e : targetOf (r, w) .rd = i
      · have h0 : p.count .rd = 0 := hr p (by rw [show r = i from e]; exact hp)
        rw [h0, Nat.zero_sub]
      · rw [if_neg e, Nat.sub_zero]
    | wr =>
      by_cases e : targetOf (r, w) .wr = i
      · have h0 : p.count .wr = 0 := hw p (by rw [show w = i from e]; exact hp)
        rw [h0, Nat.zero_sub]
      · rw [if_neg e, Nat.sub_zero]

/-! ## a process moves an end -/

/-- the pipe `x` with the id `i`, when an end goes from `old` to `id` -/
def givenUp (e : Side) (old i : Nat) (x : Option Pipe) : Option Pipe :=
  if isPipe old ∧ i = old then x.bind (Pipe.detached (dropEnd e) (quietEnd e)) else x

def movedPipe (e : Side) (old id i : Nat) (x : Option Pipe) : Option Pipe :=
  if isPipe id ∧ i = id then (givenUp e old i x).map (joinEnd e) else givenUp e old i x

theorem givenUp_counts {old : Nat} (h2 : 2 ≤ i) (hs : p.Sum)
    (h : givenUp e old i (some p) = some q) :
    (∀ e', q.count e' = p.count e' - if e' = e ∧ old = i then 1 else 0) ∧ q.Sum := by
  unfold givenUp at h
  by_cases ei : i = old
  · rw [if_pos ⟨ei ▸ isPipe_of_le h2, ei⟩] at h
    obtain ⟨hc, hsum⟩ := detached_counts hs h
    refine ⟨fun e' => ?_, hsum⟩
    rw [hc, ei]
    simp
  · rw [if_neg fun hc => ei hc.2] at h
    obtain rfl := Option.some.inj h
    refine ⟨fun e' => ?_, hs⟩
    rw [if_neg fun hc => ei hc.2.symm]
    rfl

theorem givenUp_none (e : Side) (old i : Nat) : givenUp e old i none = none := by
  unfold givenUp
  split <;> rfl

theorem Agree.move {old id : Nat} {x x' : Nat × Nat} (h : Agree l f) (h0 : 0 ≤ pid)
    (h1 : pid < maxProcesses) (hf : f pid = some x) (hold : targetOf x e = old)
    (hx : ∀ e', targetOf x' e' = if e' = e then id else targetOf x e')
    (hl : ∀ i, l' i = movedPipe e old id i (l i)) : Agree l' (Function.update f pid (some x')) := by
  intro i q hq
  rw [hl i] at hq
  unfold movedPipe at hq
  cases hp : l i with
  | none =>
    rw [hp, givenUp_none] at hq
    simp only [Option.map_none, ite_self] at hq
    exact absurd hq (by simp)
  | some p =>
    obtain ⟨h2, hc, hs⟩ := h i p hp
    rw [hp] at hq
    cases hy : givenUp e old i (some p) with
    | none =>
      rw [hy] at hq
      simp only [Option.map_none, ite_self] at hq
      exact absurd hq (by simp)
    | some y =>
      obtain ⟨hcy, hsy⟩ := givenUp_counts h2 hs hy
      have hsmall : y.Small 64 := by
        intro e'
        have hle := h.small hp e'
        rw [hcy]
        omega
      rw [hy] at hq
      have hcq : (∀ e', q.count e' = y.count e' + if e' = e ∧ id = i then 1 else 0) ∧ q.Sum := by
        by_cases ei : i = id
        · rw [if_pos ⟨ei ▸ isPipe_of_le h2, ei⟩] at hq
          obtain rfl := Option.some.inj hq
          obtain ⟨hcj, hsj, -⟩ := joinEnd_counts e (by omega) hsy hsmall
          refine ⟨fun e' => ?_, hsj⟩
          rw [hcj, ei]
          simp
        · rw [if_neg fun hc => ei hc.2] at hq
          obtain rfl := Option.some.inj hq
          refine ⟨fun e' => ?_, hsy⟩
          rw [if_neg fun hc => ei hc.2.symm]
          rfl
      refine ⟨h2, fun e' => ?_, hcq.2⟩
      have hu := ends_update (f := f) (x := some x') (e := e') (i := i) h0 h1
      have hle := hits_le_ends (f := f) (e := e') (i := i) h0 h1
      rw [hf, hits_some] at hu hle
      rw [hits_some, hx] at hu
      rw [hcq.1, hcy, hc]
      by_cases ee : e' = e
      · subst ee
        rw [hold] at hu hle
        simp only [true_and, if_true] at hu ⊢
        omega
      · simp only [ee, false_and, if_false] at hu ⊢
        omega

/-- an answer that is `-1` for an invalid id, and `0` for a valid one -/
theorem attach_code {k : Kernel} {i : Nat} {r : Int} (hnone : getValidPipe k.pipes i = none → r = -1)
    (hsome : ∀ a, getValidPipe k.pipes i = some a → r = 0) : r < 0 ↔ look k.pipes i = none := by
  cases hg : getValidPipe k.pipes i with
  | none =>
    rw [hnone hg]
    refine iff_of_true (by decide) ?_
    unfold look
    rw [hg]
    rfl
  | some a =>
    rw [hsome a hg]
    refine iff_of_false (by decide) fun hn => ?_
    exact absurd (hg.symm.trans (look_none hn)) (by simp)

theorem attachReader_code (k : Kernel) (i : Nat) :
    (attachReader k i).1 < 0 ↔ look k.pipes i = none := by
  unfold attachReader
  exact attach_code (fun hg => by rw [hg]) fun a hg => by rw [hg]

theorem attachWriter_code (k : Kernel) (i : Nat) :
    (attachWriter k i).1 < 0 ↔ look k.pipes i = none := by
  unfold attachWriter
  exact attach_code (fun hg => by rw [hg]) fun a hg => by rw [hg]

/-- two readers and a writer of the pipe `2`; the first reader runs -/
def threeEnds : List BookOp :=
  [.create (plumbArgs ['i'] 8192 0 1), .openPipe fun _ => 0, .create (plumbArgs ['a'] 16384 2 1),
    .create (plumbArgs ['b'] 24576 2 1), .create (plumbArgs ['c'] 32768 0 2), .schedule 4 7,
    .schedule 4 8200]

end

end Tp2So
