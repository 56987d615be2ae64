import Tp2So.Pipes.View

/-!
# `readPipe` and `writePipe` on the view of a pipe

Each call, up to the point where it returns or its caller is suspended, as a step of `PView`.

* `readResume_shows`, `readPipe_some`, `readPipe_eof`, `readPipe_sleeps`;
* `writeLoop_fits`, `writeLoop_sleeps`   a row of bytes that fits, and one that does not;
* `writeResume_eq`                       a woken writer, if there is room, is back in its loop.
-/

set_option linter.unusedVariables false

namespace Tp2So

namespace PView

/-- the view after a read that has moved the read index to `i`, and has read something or not -/
def afterRead (v : PView) (i : Nat) (got : Bool) : PView :=
  if got && v.pipe.waitingToWrite then
    (v.setPipe ((v.pipe.setIdxToRead i).setWaitingToWrite false)).post .wr
  else v.setPipe (v.pipe.setIdxToRead i)

/-- the view after a write call that has left the control block `p`, and has written something or not -/
def afterWrite (v : PView) (p : Pipe) (any : Bool) : PView :=
  if any && p.waitingToRead then (v.setPipe (p.setWaitingToRead false)).post .rd else v.setPipe p

/-- the caller sleeps as a reader -/
def readSleep (v : PView) (pid : Int) (b : Nat) : PView :=
  (v.setPipe (v.pipe.setWaitingToRead true)).sleep .rd pid b

/-- the caller sleeps as a writer, with the control block `p` -/
def writeSleep (v : PView) (p : Pipe) (pid : Int) (b : Nat) : PView :=
  (v.setPipe (p.setWaitingToWrite true)).sleep .wr pid b

end PView

section
variable {id a b n w : Nat} {k : Kernel} {v : PView} {p : Process} {bs : List UInt8}

/-! ## reading -/

theorem readResume_shows (h : Shows id a k v) (hb : v.pipe.Bounded) (n : Nat) :
    ∃ i k', i < pipeBufferSize ∧ (v.pipe.setIdxToRead i).ring = v.pipe.ring.drop n ∧
      readResume k a n = (.returned (v.pipe.ring.take n), k') ∧
      Shows id a k' (v.afterRead i (v.pipe.ring.take n != [])) := by
  obtain ⟨i, hl, hi, hring⟩ := Pipe.readLoop_spec n v.pipe hb
  have h1 : Shows id a (k.modPipe a fun _ => v.pipe.setIdxToRead i)
      (v.setPipe (v.pipe.setIdxToRead i)) := shows_modPipe h rfl fun s => by cases s <;> rfl
  have h2 : Shows id a
      ((k.modPipe a fun _ => v.pipe.setIdxToRead i).modPipe a (Pipe.setWaitingToWrite false))
      (v.setPipe ((v.pipe.setIdxToRead i).setWaitingToWrite false)) :=
    shows_modPipe h1 rfl fun s => by cases s <;> rfl
  unfold readResume
  simp only [h.pipe, hl]
  unfold PView.afterRead
  by_cases hc : v.pipe.ring.take n ≠ [] ∧ v.pipe.waitingToWrite = true
  · obtain ⟨hne, hw⟩ := hc
    have hgot : (v.pipe.ring.take n != []) = true := by simpa using hne
    obtain ⟨h3, hcode⟩ := shows_semPost h2 .wr
    refine ⟨i, _, hi, hring, ?_, by rw [hgot, hw]; exact h3⟩
    rw [if_pos ⟨hne, hw⟩]
    generalize hk' : semPost _ _ = r
    have hr : r.1 = 0 := by rw [← hk']; exact hcode
    have hr2 : r.2 = (semPost ((k.modPipe a fun _ => v.pipe.setIdxToRead i).modPipe a
      (Pipe.setWaitingToWrite false)) (Pipe.sem
        (v.setPipe ((v.pipe.setIdxToRead i).setWaitingToWrite false)).pipe .wr)).2 := by
      rw [← hk']
      rfl
    obtain ⟨r1, r2⟩ := r
    obtain rfl : r1 = 0 := hr
    obtain rfl := hr2
    rfl
  · have hcond : ((v.pipe.ring.take n != []) && v.pipe.waitingToWrite) = false := by
      rw [Bool.and_eq_false_iff]
      by_cases hne : v.pipe.ring.take n = []
      · exact Or.inl (by rw [hne]; rfl)
      · exact Or.inr (Bool.eq_false_iff.mpr fun hw => hc ⟨hne, hw⟩)
    refine ⟨i, _, hi, hring, if_neg hc, ?_⟩
    rw [hcond]
    exact h1

theorem readPipe_some (h : Shows id a k v) (hb : v.pipe.Bounded) (hr : v.pipe.ring ≠ []) (n : Nat) :
    readPipe k id n = readResume k a n := by
  have hne : ¬ v.pipe.idxToRead = v.pipe.idxToWrite := fun e => hr (hb.ring_eq_nil.mpr e)
  unfold readPipe
  simp only [h.valid, h.pipe]
  rw [if_neg hne]

theorem readPipe_eof (h : Shows id a k v) (hb : v.pipe.Bounded) (hr : v.pipe.ring = [])
    (hw : v.pipe.writers = 0 ∧ v.pipe.expWriters = 0) (n : Nat) :
    readPipe k id n = (.returned [], k) := by
  unfold readPipe
  simp only [h.valid, h.pipe]
  rw [if_pos (hb.ring_eq_nil.mp hr), if_pos hw]

theorem readPipe_sleeps (h : Shows id a k v) (hb : v.pipe.Bounded) (hr : v.pipe.ring = [])
    (hw : ¬ (v.pipe.writers = 0 ∧ v.pipe.expWriters = 0)) (hv : v.val .rd = 0)
    (hact : k.sched.actor = some (b, p)) (h2 : 2 ≤ p.pid) (n : Nat) :
    ∃ k', readPipe k id n = (.suspended a, k') ∧ Shows id a k' (v.readSleep p.pid b) := by
  have h1 : Shows id a (k.modPipe a (Pipe.setWaitingToRead true))
      (v.setPipe (v.pipe.setWaitingToRead true)) := shows_modPipe h rfl fun s => by cases s <;> rfl
  obtain ⟨k', hk', hs⟩ := shows_semWait h1 .rd hv hact h2
  refine ⟨k', ?_, hs⟩
  have hk'' : semWait (k.modPipe a fun p => { p with waitingToRead := true }) v.pipe.canRead
      = (.suspended, k') := hk'
  unfold readPipe
  simp only [h.valid, h.pipe]
  rw [if_pos (hb.ring_eq_nil.mp hr), if_neg hw]
  simp only [hk'']

/-! ## writing -/

theorem writeFinish_shows (h : Shows id a k v) (w : Nat) :
    ∃ k', writeFinish k a w = (.returned w, k') ∧
      Shows id a k' (v.afterWrite v.pipe (decide (0 < w))) := by
  have h1 : Shows id a (k.modPipe a (Pipe.setWaitingToRead false))
      (v.setPipe (v.pipe.setWaitingToRead false)) := shows_modPipe h rfl fun s => by cases s <;> rfl
  unfold writeFinish PView.afterWrite
  simp only [h.pipe]
  by_cases hc : 0 < w ∧ v.pipe.waitingToRead = true
  · obtain ⟨h3, hcode⟩ := shows_semPost h1 .rd
    refine ⟨_, ?_, by rw [decide_eq_true hc.1, hc.2]; exact h3⟩
    rw [if_pos hc]
    generalize hk' : semPost _ _ = r
    have hr : r.1 = 0 := by rw [← hk']; exact hcode
    have hr2 : r.2 = (semPost (k.modPipe a (Pipe.setWaitingToRead false))
      (Pipe.sem (v.setPipe (v.pipe.setWaitingToRead false)).pipe .rd)).2 := by
      rw [← hk']
      rfl
    obtain ⟨r1, r2⟩ := r
    obtain rfl : r1 = 0 := hr
    obtain rfl := hr2
    rfl
  · have hcond : (decide (0 < w) && v.pipe.waitingToRead) = false := by
      rw [Bool.and_eq_false_iff]
      by_cases hw : 0 < w
      · exact Or.inr (Bool.eq_false_iff.mpr fun hr => hc ⟨hw, hr⟩)
      · exact Or.inl (decide_eq_false hw)
    refine ⟨k, if_neg hc, ?_⟩
    rw [hcond]
    exact h

theorem sem_storeAll (bs : List UInt8) (p : Pipe) (s : Side) :
    (Pipe.storeAll bs p).sem s = p.sem s := by
  rw [Pipe.storeAll_eq]
  cases s <;> rfl

theorem shows_storeAll (h : Shows id a k v) (bs : List UInt8) :
    Shows id a (k.modPipe a fun _ => Pipe.storeAll bs v.pipe)
      (v.setPipe (Pipe.storeAll bs v.pipe)) :=
  shows_modPipe h (by rw [Pipe.storeAll_eq]) (sem_storeAll bs v.pipe)

/-- everything fits: the call returns, and may wake a reader -/
theorem writeLoop_fits (h : Shows id a k v) (hb : v.pipe.Bounded)
    (hfit : v.pipe.ring.length + bs.length ≤ pipeBufferSize - 1) (w : Nat) :
    ∃ k', writeLoop a bs w k = (.returned (w + bs.length), k') ∧
      Shows id a k' (v.afterWrite (Pipe.storeAll bs v.pipe) (decide (0 < w + bs.length))) := by
  have heq := writeLoop_append bs [] w h.pipe hb hfit
  rw [List.append_nil] at heq
  obtain ⟨k', hk', hs⟩ := writeFinish_shows (shows_storeAll h bs) (w + bs.length)
  refine ⟨k', ?_, hs⟩
  rw [heq]
  unfold writeLoop
  exact hk'

/-- the ring fills up: the caller sleeps, and nobody is told -/
theorem writeLoop_sleeps (h : Shows id a k v) (hb : v.pipe.Bounded)
    (hover : pipeBufferSize - 1 < v.pipe.ring.length + bs.length) (hv : v.val .wr = 0)
    (hact : k.sched.actor = some (b, p)) (h2 : 2 ≤ p.pid) (w : Nat) :
    let room := pipeBufferSize - 1 - v.pipe.ring.length
    ∃ k', writeLoop a bs w k = (.suspended a (bs.drop room) (w + room), k') ∧
      Shows id a k' (v.writeSleep (Pipe.storeAll (bs.take room) v.pipe) p.pid b) := by
  intro room
  have hroom := hb.ring_length
  have hlen : (bs.take room).length = room := by rw [List.length_take]; omega
  have hfit : v.pipe.ring.length + (bs.take room).length ≤ pipeBufferSize - 1 := by omega
  obtain ⟨hb', hring⟩ := Pipe.storeAll_spec (bs.take room) v.pipe hb hfit
  have hfull : (Pipe.storeAll (bs.take room) v.pipe).idxToWrite
      = previousIdx (Pipe.storeAll (bs.take room) v.pipe).idxToRead := by
    rw [hb'.full_iff, hring, List.length_append, hlen]
    omega
  obtain ⟨x, rest, hx⟩ : ∃ x rest, bs.drop room = x :: rest := by
    cases hd : bs.drop room with
    | nil => exact absurd (List.drop_eq_nil_iff.mp hd) (by omega)
    | cons x rest => exact ⟨x, rest, rfl⟩
  have h1 := shows_storeAll h (bs.take room)
  have h2' : Shows id a ((k.modPipe a fun _ => Pipe.storeAll (bs.take room) v.pipe).modPipe a
      (Pipe.setWaitingToWrite true))
      (v.setPipe ((Pipe.storeAll (bs.take room) v.pipe).setWaitingToWrite true)) :=
    shows_modPipe h1 rfl fun s => by cases s <;> rfl
  obtain ⟨k', hk', hs⟩ := shows_semWait h2' .wr hv hact h2
  refine ⟨k', ?_, hs⟩
  have heq := writeLoop_append (bs.take room) (bs.drop room) w h.pipe hb hfit
  rw [List.take_append_drop, hlen, hx] at heq
  rw [heq, hx]
  exact writeLoop_suspended (w + room) rest h1.pipe hfull hk'

/-- a woken writer that finds room goes on as if it had just looked -/
theorem writeResume_eq (h : Shows id a k v) (hb : v.pipe.Bounded)
    (hroom : v.pipe.ring.length < pipeBufferSize - 1) (rest : List UInt8) (w : Nat) :
    writeResume k a rest w = writeLoop a rest w k := by
  have hfull : ¬ v.pipe.idxToWrite = previousIdx v.pipe.idxToRead := by
    rw [hb.full_iff]
    omega
  cases rest with
  | nil => unfold writeResume writeLoop; rfl
  | cons x rest =>
    rw [writeLoop_room w rest h.pipe hfull]
    rfl

theorem writePipe_eq (h : Shows id a k v) (data : List UInt8) :
    writePipe k id data = writeLoop a (data.take (intBytes data.length)) 0 k := by
  unfold writePipe
  rw [h.valid]

end

end Tp2So
