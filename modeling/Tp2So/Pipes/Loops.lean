import Tp2So.Lib.Ring
import Tp2So.Kernel.Pipe

/-!
# The copy loops of a pipe

The loops of `readPipe` and `writePipe` on the ring alone: `readLoop` takes bytes off the front of
`Pipe.ring`, `storeAll` appends as many as fit.

* `readLoop_spec`      what is read, and what is left;
* `storeAll_spec`      the ring after a row of stores that fits;
* `writeLoop_append`   the loop of `writePipe` up to the point where the ring is full.
-/

set_option linter.unusedVariables false

namespace Tp2So

namespace Pipe

/-- the unread bytes -/
def ring (p : Pipe) : List UInt8 := ringList pipeBufferSize p.buffer p.idxToRead p.idxToWrite

/-- the indices are inside the buffer -/
def Bounded (p : Pipe) : Prop := p.idxToRead < pipeBufferSize ∧ p.idxToWrite < pipeBufferSize

def setWaitingToRead (v : Bool) (p : Pipe) : Pipe := { p with waitingToRead := v }
def setWaitingToWrite (v : Bool) (p : Pipe) : Pipe := { p with waitingToWrite := v }
def setIdxToRead (i : Nat) (p : Pipe) : Pipe := { p with idxToRead := i }

variable {p : Pipe}

theorem Bounded.ring_eq_nil (h : p.Bounded) : p.ring = [] ↔ p.idxToRead = p.idxToWrite :=
  ringList_eq_nil h.1 p.buffer

theorem Bounded.ring_length (h : p.Bounded) : p.ring.length ≤ pipeBufferSize - 1 := by
  have hlt := ringCount_lt h.1 h.2
  unfold ring
  rw [ringList_length]
  omega

theorem Bounded.full_iff (h : p.Bounded) :
    p.idxToWrite = previousIdx p.idxToRead ↔ p.ring.length = pipeBufferSize - 1 := by
  obtain ⟨hr, hw⟩ := h
  unfold ring
  rw [ringList_length, ringCount_full hr hw, succ_mod hw]
  unfold previousIdx
  split <;> split <;> omega

theorem nextIdx_lt (i : Nat) : nextIdx i < pipeBufferSize := Nat.mod_lt _ (by decide)

/-! ## reading -/

/-- **The loop of `readPipe`** reads the first `n` bytes of the ring, or all of it. -/
theorem readLoop_spec (n : Nat) (p : Pipe) (h : p.Bounded) :
    ∃ i, readLoop n p = (p.ring.take n, p.setIdxToRead i) ∧ i < pipeBufferSize ∧
      (p.setIdxToRead i).ring = p.ring.drop n := by
  induction n generalizing p with
  | zero => exact ⟨p.idxToRead, rfl, h.1, rfl⟩
  | succ n ih =>
    unfold readLoop
    by_cases he : p.idxToRead = p.idxToWrite
    · rw [if_pos he, (h.ring_eq_nil).mpr he]
      exact ⟨p.idxToRead, rfl, h.1, (h.ring_eq_nil).mpr he⟩
    · rw [if_neg he]
      have hpop : p.ring = p.buffer p.idxToRead :: (p.setIdxToRead (nextIdx p.idxToRead)).ring :=
        ringList_pop h.1 h.2 he p.buffer
      obtain ⟨i, hi, hlt, hring⟩ := ih (p.setIdxToRead (nextIdx p.idxToRead)) ⟨nextIdx_lt _, h.2⟩
      refine ⟨i, ?_, hlt, ?_⟩
      · rw [hpop, List.take_succ_cons]
        show (_ :: (readLoop n (p.setIdxToRead _)).1, (readLoop n (p.setIdxToRead _)).2) = _
        rw [hi]
        rfl
      · rw [hpop, List.drop_succ_cons]
        exact hring

/-! ## writing -/

/-- a row of stores with no test -/
def storeAll (bs : List UInt8) (p : Pipe) : Pipe := bs.foldl (fun p b => storeByte b p) p

theorem storeByte_spec (h : p.Bounded) (hfit : p.ring.length < pipeBufferSize - 1) (b : UInt8) :
    (storeByte b p).Bounded ∧ (storeByte b p).ring = p.ring ++ [b] := by
  have hfull : (p.idxToWrite + 1) % pipeBufferSize ≠ p.idxToRead := by
    intro e
    have hc := (ringCount_full h.1 h.2).mpr e
    unfold ring at hfit
    rw [ringList_length] at hfit
    omega
  exact ⟨⟨h.1, nextIdx_lt _⟩, ringList_push h.1 h.2 hfull p.buffer b⟩

/-- what a row of stores leaves alone -/
theorem storeAll_eq (bs : List UInt8) (p : Pipe) :
    storeAll bs p = { p with buffer := (storeAll bs p).buffer
                             idxToWrite := (storeAll bs p).idxToWrite } := by
  induction bs generalizing p with
  | nil => rfl
  | cons b bs ih => exact ih (storeByte b p)

theorem storeAll_spec (bs : List UInt8) (p : Pipe) (h : p.Bounded)
    (hfit : p.ring.length + bs.length ≤ pipeBufferSize - 1) :
    (storeAll bs p).Bounded ∧ (storeAll bs p).ring = p.ring ++ bs := by
  induction bs generalizing p with
  | nil => exact ⟨h, (List.append_nil _).symm⟩
  | cons b bs ih =>
    rw [List.length_cons] at hfit
    obtain ⟨hb, hring⟩ := storeByte_spec h (by omega) b
    obtain ⟨hb', hring'⟩ := ih (storeByte b p) hb (by
      rw [hring, List.length_append, List.length_singleton]; omega)
    refine ⟨hb', hring'.trans ?_⟩
    rw [hring, List.append_assoc]
    rfl

end Pipe

/-! ## editing one pipe -/

section
variable {k : Kernel} {a : Nat} {p : Pipe}

theorem modPipe_heap (f : Pipe → Pipe) (hp : k.pipes.heap a = some p) :
    (k.modPipe a f).pipes.heap a = some (f p) := by
  show heapMod k.pipes.heap a f a = _
  rw [heapMod_self, hp]
  rfl

theorem modPipe_modPipe (f g : Pipe → Pipe) :
    (k.modPipe a f).modPipe a g = k.modPipe a (g ∘ f) := by
  unfold Kernel.modPipe PipeStore.modify
  have : heapMod (heapMod k.pipes.heap a f) a g = heapMod k.pipes.heap a (g ∘ f) := by
    unfold heapMod
    rw [Function.update_self, Option.map_map, Function.update_idem]
  rw [this]

theorem modPipe_self (hp : k.pipes.heap a = some p) : k.modPipe a (fun _ => p) = k := by
  have : heapMod k.pipes.heap a (fun _ => p) = k.pipes.heap := by
    unfold heapMod
    rw [hp, Option.map_some, ← hp]
    exact Function.update_eq_self a k.pipes.heap
  unfold Kernel.modPipe PipeStore.modify
  rw [this]

theorem writeLoop_room {x : UInt8} (written : Nat) (rest : List UInt8)
    (hp : k.pipes.heap a = some p) (hfull : ¬ p.idxToWrite = previousIdx p.idxToRead) :
    writeLoop a (x :: rest) written k = writeLoop a rest (written + 1) (k.modPipe a (storeByte x)) := by
  conv_lhs => unfold writeLoop
  simp only [hp]
  rw [if_neg hfull]

/-- a full ring: the writer asks its semaphore and has to wait -/
theorem writeLoop_suspended {x : UInt8} {k' : Kernel} (written : Nat) (rest : List UInt8)
    (hp : k.pipes.heap a = some p) (hfull : p.idxToWrite = previousIdx p.idxToRead)
    (hw : semWait (k.modPipe a (Pipe.setWaitingToWrite true)) p.canWrite = (.suspended, k')) :
    writeLoop a (x :: rest) written k = (.suspended a (x :: rest) written, k') := by
  unfold Pipe.setWaitingToWrite at hw
  unfold writeLoop
  simp only [hp]
  rw [if_pos hfull]
  simp only [hw]

/-- a full ring, but the semaphore has a token left: the byte is stored all the same -/
theorem writeLoop_granted {x : UInt8} {k' : Kernel} (written : Nat) (rest : List UInt8)
    (hp : k.pipes.heap a = some p) (hfull : p.idxToWrite = previousIdx p.idxToRead)
    (hw : semWait (k.modPipe a (Pipe.setWaitingToWrite true)) p.canWrite = (.granted, k')) :
    writeLoop a (x :: rest) written k = writeLoop a rest (written + 1) (k'.modPipe a (storeByte x)) := by
  unfold Pipe.setWaitingToWrite at hw
  conv_lhs => unfold writeLoop
  simp only [hp]
  rw [if_pos hfull]
  simp only [hw]

/-- **The loop of `writePipe`** stores what fits without a look at the semaphores. -/
theorem writeLoop_append (xs ys : List UInt8) (written : Nat) (hp : k.pipes.heap a = some p)
    (hb : p.Bounded) (hfit : p.ring.length + xs.length ≤ pipeBufferSize - 1) :
    writeLoop a (xs ++ ys) written k
      = writeLoop a ys (written + xs.length) (k.modPipe a (fun _ => Pipe.storeAll xs p)) := by
  induction xs generalizing k p written with
  | nil =>
    show writeLoop a ys written k = writeLoop a ys written (k.modPipe a fun _ => p)
    rw [modPipe_self hp]
  | cons x xs ih =>
    rw [List.length_cons] at hfit
    have hfull : ¬ p.idxToWrite = previousIdx p.idxToRead := by
      rw [hb.full_iff]
      omega
    obtain ⟨hb', hring⟩ := Pipe.storeByte_spec hb (by omega) x
    rw [List.cons_append]
    rw [writeLoop_room written (xs ++ ys) hp hfull, ih (written + 1) (modPipe_heap _ hp) hb' (by
      rw [hring, List.length_append, List.length_singleton]; omega), modPipe_modPipe,
      List.length_cons, Nat.add_assoc, Nat.add_comm 1 xs.length]
    rfl

end

end Tp2So
