import Tp2So.Pipes.Turns

/-!
# Several readers and writers

* `PipeSafe`          no unread byte is lost;
* `PipeOp.courteous`  a call leaves the last byte, or the last free cell, to a process of its side that
                      has been woken inside its own call and has not run yet;
* `pipeSafe_run`      in a run of courteous transfers the pipe is safe, and a read that asks for bytes
                      returns none of them only when there are no writers.

Neither function looks at the ring again after its `semWait`.  A reader that takes the byte for which
another one was woken sends that one away with nothing (`pipeSafe_fails`).
-/

set_option linter.unusedVariables false

namespace Tp2So

/-! ## the property -/

/-- the control block of the pipe opened as `id` -/
def PipeSys.pipe (id : Nat) (t : PipeSys) : Option Pipe :=
  (getValidPipe t.k.pipes id).bind t.k.pipes.heap

/-- what the ring holds from `idxToRead` to `idxToWrite` -/
def PipeSys.unread (id : Nat) (t : PipeSys) : List UInt8 := ((t.pipe id).map Pipe.ring).getD []

def PipeSys.writers (id : Nat) (t : PipeSys) : Nat := ((t.pipe id).map Pipe.writers).getD 0

/-- the bytes stored and not read are in the ring, and never more than it can hold -/
structure PipeSafe (id : Nat) (t : PipeSys) : Prop where
  kept : t.stored = t.fetched ++ t.unread id
  room : t.stored.length ≤ t.fetched.length + (pipeBufferSize - 1)

/-! ## the condition -/

/-- somebody other than `q` has been woken inside a call on this side, and has not run yet -/
def PipeSys.otherWoken (t : PipeSys) (q : Int) (s : Side) : Bool :=
  allPids.any fun q' =>
    decide (q' ≠ q) && decide ((t.cont q').side = some s) && !(t.k.sched.slot q').any Slot.blocked

def PipeOp.courteous (id : Nat) (o : PipeOp) (t : PipeSys) : Bool :=
  ((o.asks t).all fun x =>
    2 ≤ x.1 && (!t.otherWoken x.1 .rd || x.2 < (t.unread id).length)) &&
  ((o.offers t).all fun x =>
    2 ≤ x.1 && (!t.otherWoken x.1 .wr || (t.unread id).length + x.2.length < pipeBufferSize - 1))

section
variable {id a : Nat} {t t' : PipeSys} {v : PView} {o : PipeOp} {q : Int} {s : Side}

theorem Shows.pipe_eq (h : Shows id a t.k v) : t.pipe id = some v.pipe := by
  unfold PipeSys.pipe
  rw [h.valid]
  exact h.pipe

theorem Shows.unread_eq (h : Shows id a t.k v) : t.unread id = v.pipe.ring := by
  unfold PipeSys.unread
  rw [h.pipe_eq]
  rfl

theorem Flow.otherWoken (h : Flow id a t v) {q' : Int} (hne : q' ≠ q)
    (hs : (t.cont q').side = some s) (ha : v.asleep q' = false) : t.otherWoken q s = true := by
  obtain ⟨h2, h64⟩ := h.range q' s hs
  refine List.any_eq_true.mpr ⟨q', Sched.mem_allPids.mpr ⟨by omega, h64⟩, ?_⟩
  rw [h.shows.slot]
  simp only [Bool.and_eq_true, decide_eq_true_eq, Bool.not_eq_true']
  exact ⟨⟨hne, hs⟩, ha⟩

theorem Flow.allowed (h : Flow id a t v) (hc : o.courteous id t = true) : o.Allowed t v := by
  obtain ⟨hr, hw⟩ := Bool.and_eq_true_iff.mp hc
  rw [h.shows.unread_eq] at hr hw
  refine ⟨fun q n hq => ?_, fun q bs hq => ?_⟩
  · rw [hq] at hr
    obtain ⟨h2, hc⟩ := Bool.and_eq_true_iff.mp hr
    refine ⟨of_decide_eq_true h2, fun q' hne hs ha => ?_⟩
    rw [h.otherWoken hne hs ha, Bool.not_true, Bool.false_or] at hc
    exact of_decide_eq_true hc
  · rw [hq] at hw
    obtain ⟨h2, hc⟩ := Bool.and_eq_true_iff.mp hw
    refine ⟨of_decide_eq_true h2, fun q' hne hs ha => ?_⟩
    rw [h.otherWoken hne hs ha, Bool.not_true, Bool.false_or] at hc
    exact of_decide_eq_true hc

theorem Flow.safe (h : Flow id a t v) : PipeSafe id t := by
  have hle := h.bounded.ring_length
  refine ⟨by rw [h.shows.unread_eq]; exact h.stream, ?_⟩
  rw [h.stream, List.length_append]
  omega

/-- a read that asks for bytes and gets none -/
theorem Flow.eof (h : Flow id a t v) (hal : o.Allowed t v) {n : Nat}
    (hr : readOutcome id o t = some (n, [])) (hn : 0 < n) :
    v.pipe.ring = [] ∧ v.pipe.writers = 0 ∧ v.pipe.expWriters = 0 := by
  unfold readOutcome at hr
  split at hr
  · rename_i q m bs k hcall
    obtain ⟨rfl, rfl⟩ := Prod.mk.inj (Option.some.inj hr)
    obtain ⟨h2, hcourt⟩ := hal.asks q m (readCall_some hcall).1
    obtain ⟨-, -, -, heof⟩ := flow_readCall h hcall h2 hcourt
    exact heof rfl hn
  · exact absurd hr (by simp)

/-- **Safety over a run.**  In every run of courteous transfers of any number of readers and writers
no unread byte is lost, and end of file is never read while there are writers. -/
theorem pipeSafe_run {os : List PipeOp} (h₀ : t.Opened id)
    (h : Runs (execPipe id) (fun o t => o.transfers ∧ o.courteous id t) os t t') :
    PipeSafe id t' ∧ ∀ o n, o.courteous id t' → readOutcome id o t' = some (n, []) → 0 < n →
      t'.writers id = 0 := by
  obtain ⟨k, buffer, hflow⟩ := flow_opened h₀
  obtain ⟨v, hv⟩ : ∃ v, Flow id k.pipes.next t' v :=
    Runs.inv (I := fun t => ∃ v, Flow id k.pipes.next t v)
      (fun o t u ⟨v, hv⟩ ho he => by
        obtain ⟨v', hv', -⟩ := flow_step hv ho.1 (hv.allowed ho.2) he
        exact ⟨v', hv'⟩) h ⟨_, hflow⟩
  refine ⟨hv.safe, fun o n hc hr hn => ?_⟩
  unfold PipeSys.writers
  rw [hv.shows.pipe_eq]
  exact (hv.eof (hv.allowed hc) hr hn).2.1

end

/-! ## one byte, two readers -/

/-- three processes, with the pids `2`, `3` and `4` -/
def threeUsers : List SemOp :=
  [.create (plainArgs ['i'] 8192), .create (plainArgs ['a'] 16384), .create (plainArgs ['b'] 24576),
    .create (plainArgs ['c'] 32768)]

/-- `3` sleeps as a reader; `2` writes a byte, for which `3` is woken -/
def oneByte : List PipeOp :=
  [.attachWriter 2, .attachReader 3, .attachReader 4, .schedule 8 8, .schedule 8 8200,
    .schedule 8 16400, .read 1, .schedule 8 24600, .schedule 8 32800, .schedule 8 8200, .write [7],
    .schedule 8 16400]

theorem pipeSafe_run_oneByte : ∃ t t', t.Opened 2 ∧
    Runs (execPipe 2) (fun o t => o.transfers ∧ o.courteous 2 t)
      (oneByte ++ [.schedule 8 32800, .schedule 8 8200, .resume]) t t' ∧
    PipeSafe 2 t' ∧ t'.fetched = [7] := by
  have hrun : ((runIf execSem SemOp.clean threeUsers (SemSys.boot 0 [])).bind fun s =>
      (runIf (execPipe 2) (fun o t => o.transfers && o.courteous 2 t)
        (oneByte ++ [.schedule 8 32800, .schedule 8 8200, .resume]) (.start s.k fun _ => 0)).map
      fun t => (locateSemaphoreByName s.k.sems (buildSemName 2 'R'),
        locateSemaphoreByName s.k.sems (buildSemName 2 'W'), (openPipe s.k fun _ => 0).1,
        t.fetched)) = some (none, none, 2, [7]) := by decide +kernel
  obtain ⟨s, hs, hrun⟩ := Option.bind_eq_some_iff.mp hrun
  obtain ⟨t', ht, hv⟩ := Option.map_eq_some_iff.mp hrun
  simp only [Prod.mk.injEq] at hv
  obtain ⟨hr, hw, hid, hf⟩ := hv
  have hopen := opened_start (sound_run (runs_of_runIf hs)) hr hw hid
  have hruns := (runs_of_runIf ht).mono fun o t h => Bool.and_eq_true_iff.mp h
  exact ⟨_, t', hopen, hruns, (pipeSafe_run hopen hruns).1, hf⟩

/-- `4` takes the byte before `3` has run, so `3` reads end of file, with a writer attached -/
theorem pipeSafe_fails : ∃ t t', t.Opened 2 ∧
    Runs (execPipe 2) (fun o _ => o.transfers) (oneByte ++ [.read 1, .schedule 8 32800,
      .schedule 8 8200]) t t' ∧
    readOutcome 2 .resume t' = some (1, []) ∧ t'.writers 2 = 1 := by
  have hrun : ((runIf execSem SemOp.clean threeUsers (SemSys.boot 0 [])).bind fun s =>
      (runIf (execPipe 2) (fun o _ => o.transfers) (oneByte ++ [.read 1, .schedule 8 32800,
        .schedule 8 8200]) (.start s.k fun _ => 0)).map
      fun t => (locateSemaphoreByName s.k.sems (buildSemName 2 'R'),
        locateSemaphoreByName s.k.sems (buildSemName 2 'W'), (openPipe s.k fun _ => 0).1,
        decide (readOutcome 2 .resume t = some (1, []) ∧ t.writers 2 = 1)))
      = some (none, none, 2, true) := by decide +kernel
  obtain ⟨s, hs, hrun⟩ := Option.bind_eq_some_iff.mp hrun
  obtain ⟨t', ht, hv⟩ := Option.map_eq_some_iff.mp hrun
  simp only [Prod.mk.injEq] at hv
  obtain ⟨hr, hw, hid, ho⟩ := hv
  exact ⟨_, t', opened_start (sound_run (runs_of_runIf hs)) hr hw hid, runs_of_runIf ht,
    of_decide_eq_true ho⟩

end Tp2So
