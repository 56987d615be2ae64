import Tp2So.Pipes.Open

/-!
# Detaching an end, on the view of a pipe

* `PView.leaveReader`, `PView.leaveWriter`, `PView.closed`   what `detachReader`, `detachWriter` and
                      `closePipe` do to the view of a pipe that they do not delete;
* `detachReader_shows`, `detachWriter_shows`, `closePipe_shows`;
* `closePipe_deletes`   `closePipe` on a pipe with nobody attached: the id is not in use any more.
-/

set_option linter.unusedVariables false

namespace Tp2So

namespace PView

/-- the pid is taken out of both queues -/
def forget (v : PView) (pid : Int) : PView := (v.remove .rd pid).remove .wr pid

/-- one post for every user of the semaphore -/
def wake (v : PView) (s : Side) : PView := v.posts s (v.usr s)

def leaveReader (v : PView) (pid : Int) : PView :=
  if (dropReader v.pipe).readers = 0 ∧ (dropReader v.pipe).waitingToWrite then
    (((v.forget pid).setPipe (dropReader v.pipe)).wake .wr).setPipe
      ((dropReader v.pipe).setWaitingToWrite false)
  else (v.forget pid).setPipe (dropReader v.pipe)

def leaveWriter (v : PView) (pid : Int) : PView :=
  if (dropWriter v.pipe).writers = 0 ∧ (dropWriter v.pipe).waitingToRead then
    (((v.forget pid).setPipe (dropWriter v.pipe)).wake .rd).setPipe
      ((dropWriter v.pipe).setWaitingToRead false)
  else (v.forget pid).setPipe (dropWriter v.pipe)

def closed (v : PView) : PView := if v.pipe.attached ≤ 1 then (v.wake .rd).wake .wr else v

theorem posts_pipe (s : Side) (n : Nat) (v : PView) : (v.posts s n).pipe = v.pipe := by
  induction n generalizing v with
  | zero => rfl
  | succ n ih => exact (ih (v.post s)).trans (v.post_pipe s)

theorem wake_pipe (v : PView) (s : Side) : (v.wake s).pipe = v.pipe := posts_pipe s _ v

theorem closed_pipe (v : PView) : v.closed.pipe = v.pipe := by
  unfold closed
  split
  · rw [wake_pipe, wake_pipe]
  · rfl

end PView

section
variable {id a : Nat} {k : Kernel} {v : PView}

theorem sem_dropReader (p : Pipe) (s : Side) : (dropReader p).sem s = p.sem s := by
  unfold dropReader
  split <;> cases s <;> rfl

theorem sem_dropWriter (p : Pipe) (s : Side) : (dropWriter p).sem s = p.sem s := by
  unfold dropWriter
  split <;> cases s <;> rfl

theorem id_dropReader (p : Pipe) : (dropReader p).id = p.id := by
  unfold dropReader
  split <;> rfl

theorem id_dropWriter (p : Pipe) : (dropWriter p).id = p.id := by
  unfold dropWriter
  split <;> rfl

/-- the kernel without `pid` in the queues of the pipe `p` -/
def Kernel.forget (k : Kernel) (p : Pipe) (pid : Int) : Kernel :=
  { k with sems := removeFromSemaphore (removeFromSemaphore k.sems p.canRead pid) p.canWrite pid }

/-- the state in which `detach` asks whether somebody has to be woken -/
theorem shows_forget (h : Shows id a k v) (pid : Int) {dec : Pipe → Pipe}
    (hid : (dec v.pipe).id = v.pipe.id) (hsem : ∀ s, (dec v.pipe).sem s = v.pipe.sem s) :
    Shows id a ((k.forget v.pipe pid).modPipe a dec) ((v.forget pid).setPipe (dec v.pipe)) := by
  have h1 := shows_removeFromSemaphore h .rd pid
  have h2 := shows_removeFromSemaphore h1 .wr pid
  exact shows_modPipe h2 hid hsem

/-- an end that is not the last one -/
def Pipe.Kept (p : Pipe) : Prop :=
  ¬ (p.readers = 0 ∧ p.writers = 0 ∧ p.expReaders = 0 ∧ p.expWriters = 0)

/-- what `detachReader` has done when it asks whether the pipe is to be deleted -/
theorem detachReader_eq (pid : Int) (h : Shows id a k v) : ∃ k', Shows id a k' (v.leaveReader pid) ∧
    ((dropReader v.pipe).Kept → detachReader k id pid = k') ∧
    (¬ (dropReader v.pipe).Kept → detachReader k id pid = deletePipe k' a) := by
  have h1 := shows_forget h pid (id_dropReader v.pipe) (sem_dropReader v.pipe)
  unfold detachReader detach PView.leaveReader
  simp only [h.valid, h.pipe]
  split
  · have h2 := shows_wakeAll h1 .wr
    have h3 := shows_modPipe h2 (f := Pipe.setWaitingToWrite false) rfl fun s => by cases s <;> rfl
    rw [PView.posts_pipe] at h3
    exact ⟨_, h3, fun hk => if_neg hk, fun hk => if_pos (Decidable.not_not.mp hk)⟩
  · exact ⟨_, h1, fun hk => if_neg hk, fun hk => if_pos (Decidable.not_not.mp hk)⟩

theorem detachWriter_eq (pid : Int) (h : Shows id a k v) : ∃ k', Shows id a k' (v.leaveWriter pid) ∧
    ((dropWriter v.pipe).Kept → detachWriter k id pid = k') ∧
    (¬ (dropWriter v.pipe).Kept → detachWriter k id pid = deletePipe k' a) := by
  have h1 := shows_forget h pid (id_dropWriter v.pipe) (sem_dropWriter v.pipe)
  unfold detachWriter detach PView.leaveWriter
  simp only [h.valid, h.pipe]
  split
  · have h2 := shows_wakeAll h1 .rd
    have h3 := shows_modPipe h2 (f := Pipe.setWaitingToRead false) rfl fun s => by cases s <;> rfl
    rw [PView.posts_pipe] at h3
    exact ⟨_, h3, fun hk => if_neg hk, fun hk => if_pos (Decidable.not_not.mp hk)⟩
  · exact ⟨_, h1, fun hk => if_neg hk, fun hk => if_pos (Decidable.not_not.mp hk)⟩

theorem detachWriter_shows (pid : Int) (h : Shows id a k v) (hkept : (dropWriter v.pipe).Kept) :
    Shows id a (detachWriter k id pid) (v.leaveWriter pid) := by
  obtain ⟨k', hs, he, -⟩ := detachWriter_eq pid h
  rw [he hkept]
  exact hs

/-! ## closing -/

/-- the posts of `closePipe` on a pipe that is not one of the standard two -/
theorem shows_closing (h : Shows id a k v) (h2 : 2 ≤ id) :
    Shows id a (if (id ≠ stdin ∧ id ≠ stdout) ∧ v.pipe.attached ≤ 1 then
      wakeAll (wakeAll k v.pipe.canRead) v.pipe.canWrite else k) v.closed := by
  have hstd : id ≠ stdin ∧ id ≠ stdout := by
    constructor
    · show id ≠ 0
      omega
    · show id ≠ 1
      omega
  unfold PView.closed
  by_cases hat : v.pipe.attached ≤ 1
  · rw [if_pos ⟨hstd, hat⟩, if_pos hat]
    have h3 := shows_wakeAll h .rd
    have h4 := shows_wakeAll h3 .wr
    rw [PView.posts_pipe] at h4
    exact h4
  · rw [if_neg (fun hc => hat hc.2), if_neg hat]
    exact h

/-- what `closePipe` has done when it asks whether the pipe is to be deleted -/
theorem closePipe_eq (h : Shows id a k v) (h2 : 2 ≤ id) : ∃ k', Shows id a k' v.closed ∧
    (v.pipe.attached ≠ 0 → (closePipe k id).2 = k') ∧
    (v.pipe.attached = 0 → (closePipe k id).2 = deletePipe k' a) := by
  refine ⟨_, shows_closing h h2, fun hat => ?_, fun hat => ?_⟩
  · have hkeep : ¬ (v.pipe.attached = 0 ∨ ((id = stdin ∨ id = stdout) ∧ v.pipe.attached = 1)) := by
      rintro (hc | ⟨hc | hc, -⟩)
      · exact hat hc
      · have : id = 0 := hc
        omega
      · have : id = 1 := hc
        omega
    unfold closePipe
    simp only [h.valid, h.pipe]
    rw [if_neg hkeep]
  · unfold closePipe
    simp only [h.valid, h.pipe]
    rw [if_pos (Or.inl hat)]

theorem closePipe_shows (h : Shows id a k v) (h2 : 2 ≤ id) (hat : v.pipe.attached ≠ 0) :
    Shows id a (closePipe k id).2 v.closed := by
  obtain ⟨k', hs, he, -⟩ := closePipe_eq h h2
  rw [he hat]
  exact hs

/-! ## deleting -/

theorem getValidPipe_deletePipe (h : Shows id a k v) :
    getValidPipe (deletePipe k a).pipes id = none := by
  unfold deletePipe
  simp only [h.pipe]
  obtain ⟨l, r, hst, hl, hr⟩ := h.only.once
  have hst' : (k.pipes.storage.replace (some a) none) = l ++ none :: r := by
    rw [hst, List.replace_append_right hl, List.replace_cons_self]
  unfold getValidPipe
  refine List.findSome?_eq_none_iff.mpr fun e he => ?_
  have he' : e ∈ l ++ none :: r := hst' ▸ he
  cases e with
  | none => rfl
  | some c =>
    have hmem : some c ∈ l ++ r := by
      rcases List.mem_append.mp he' with hm | hm
      · exact List.mem_append_left _ hm
      · exact List.mem_append_right _ ((List.mem_cons.mp hm).resolve_left (by simp))
    have hne : c ≠ a := by
      rintro rfl
      rcases List.mem_append.mp hmem with hm | hm
      · exact hl hm
      · exact hr hm
    have hin : some c ∈ k.pipes.storage := by
      rw [hst]
      rcases List.mem_append.mp hmem with hm | hm
      · exact List.mem_append_left _ hm
      · exact List.mem_append_right _ (List.mem_cons_of_mem _ hm)
    refine Option.filter_eq_none_iff.mpr fun c' hc' hany => ?_
    obtain rfl := Option.some.inj hc'
    obtain ⟨x, hx, hid⟩ := (Option.any_eq_true _ _).mp hany
    have hx' : k.pipes.heap c = some x := by
      rw [← hx]
      exact (Function.update_of_ne hne ..).symm
    exact h.only.others c x hin hne hx' (of_decide_eq_true hid)

theorem closePipe_deletes (h : Shows id a k v) (h2 : 2 ≤ id) (hat : v.pipe.attached = 0) :
    getValidPipe (closePipe k id).2.pipes id = none := by
  obtain ⟨k', hs, -, he⟩ := closePipe_eq h h2
  rw [he hat]
  exact getValidPipe_deletePipe hs

theorem deletePipe_heap (h : Shows id a k v) :
    (deletePipe k a).pipes.heap a = none ∧ (deletePipe k a).sched = k.sched := by
  unfold deletePipe
  simp only [h.pipe]
  exact ⟨Function.update_self .., trivial⟩

end

end Tp2So
