import Tp2So.Pipes.Store
import Tp2So.Ready.Runs

/-!
# A pipe and the ends it still expects

`openPipe` expects one reader and one writer.  A run opens pipes, creates processes with any targets,
lets them read and write, and takes them down by `kill_process` or `process_terminator`.  `lost` lists
the pipes that a teardown has removed, or taken bytes from, while an end was still expected.

* `sparesEnds`         the dying process leaves somebody attached to each of its pipes, or that pipe
                       expects nobody;
* `lostBetween_leave`  a teardown loses nothing exactly when `sparesEnds` holds before it;
* `nothingLost_run`    in a run of such teardowns nothing is ever lost.

`detachReader` and `detachWriter` ask for the expected ends before they delete a pipe, but the
`closePipe` that follows asks for `attached` alone.
-/

set_option linter.unusedVariables false

namespace Tp2So

/-- an end that is still to come -/
def Pipe.expected (p : Pipe) : Bool := p.expReaders != 0 || p.expWriters != 0

/-- the pipes that expected an end before and are gone, or hold other bytes, after -/
def lostBetween (t t' : PipeStore) : List Nat :=
  (List.range 256).filter fun id => (look t id).any fun p =>
    p.expected && !(look t' id).any fun q => q.ring == p.ring

structure PlumbSys where
  k : Kernel
  lost : List Nat

inductive PlumbOp where
  | openPipe (recycled : Nat → UInt8)
  | create (args : CreateArgs)
  | read (id bytes : Nat)
  | readResume (pipe bytes : Nat)
  | write (id : Nat) (data : List UInt8)
  | writeResume (pipe : Nat) (rest : List UInt8) (written : Nat)
  | kill (pid : Int)
  | terminate
  | schedule (fuel rsp : Nat)

/-- the kernel after a teardown, with the pipes that it has lost -/
def PlumbSys.tornDown (t : PlumbSys) (k : Kernel) : PlumbSys where
  k := k
  lost := t.lost ++ lostBetween t.k.pipes k.pipes

def execPlumb : PlumbOp → PlumbSys → Option PlumbSys
  | .openPipe recycled, t => some { t with k := (openPipe t.k recycled).2 }
  | .create args, t => some { t with k := (createProcess t.k args).2 }
  | .read id n, t => some { t with k := (readPipe t.k id n).2 }
  | .readResume a n, t => some { t with k := (readResume t.k a n).2 }
  | .write id data, t => some { t with k := (writePipe t.k id data).2 }
  | .writeResume a rest n, t => some { t with k := (writeResume t.k a rest n).2 }
  | .kill pid, t => some (t.tornDown (killProcess t.k pid).2)
  | .terminate, t => (processTerminator t.k).map t.tornDown
  | .schedule fuel rsp, t =>
    (schedule fuel rsp t.k.sched).map fun r => { t with k := { t.k with sched := r.2 } }

def NothingLost (t : PlumbSys) : Prop := t.lost = []

/-! ## the condition -/

/-- without the end that `dec` takes off somebody is attached, or nobody is expected -/
def Pipe.spared (dec : Pipe → Pipe) (p : Pipe) : Bool := !p.expected || (dec p).attached != 0

def sparesEnds (t : PipeStore) (c : Process) : Bool :=
  (!isPipe c.readTarget || (look t c.readTarget).all (Pipe.spared dropReader)) &&
  (!isPipe c.writeTarget || c.writeTarget == c.readTarget ||
    (look t c.writeTarget).all (Pipe.spared dropWriter))

def PlumbOp.spares : PlumbOp → PlumbSys → Bool
  | .kill pid, t => (victim t.k pid).all (sparesEnds t.k.pipes)
  | .terminate, t => (t.k.sched.running.bind t.k.sched.heap).all (sparesEnds t.k.pipes)
  | _, _ => true

section
variable {t t' : PipeStore} {k : Kernel} {p : Pipe} {i : Nat}

/-! ## one end -/

/-- a pipe that expects an end is not deleted by the detach -/
theorem detached_expected {dec quiet : Pipe → Pipe} (he : (dec p).expected = true) :
    p.detached dec quiet = some (quiet (dec p)) := by
  unfold Pipe.detached
  refine if_neg fun hg => ?_
  obtain ⟨-, -, hr, hw⟩ := (dec p).gone_iff.mp hg
  unfold Pipe.expected at he
  rw [hr, hw] at he
  exact absurd he (by decide)

/-- the bytes of a pipe survive its end exactly when somebody else is attached -/
theorem left_expected {dec quiet : Pipe → Pipe} (he : (dec p).expected = true)
    (hatt : (quiet (dec p)).attached = (dec p).attached) : p.left dec quiet
      = if (dec p).attached = 0 then none else some (quiet (dec p)) := by
  unfold Pipe.left
  rw [detached_expected he, Option.filter_some, hatt]
  by_cases h0 : (dec p).attached = 0
  · rw [h0]
    rfl
  · rw [if_pos (by simpa using h0), if_neg h0]

theorem dropReader_keeps (p : Pipe) :
    (dropReader p).ring = p.ring ∧ (dropReader p).expected = p.expected := by
  unfold dropReader
  split <;> exact ⟨rfl, rfl⟩

theorem dropWriter_keeps (p : Pipe) :
    (dropWriter p).ring = p.ring ∧ (dropWriter p).expected = p.expected := by
  unfold dropWriter
  split <;> exact ⟨rfl, rfl⟩

theorem noReader_keeps (p : Pipe) :
    p.noReader.ring = p.ring ∧ p.noReader.attached = p.attached ∧
      p.noReader.expected = p.expected := by
  unfold Pipe.noReader
  split <;> exact ⟨rfl, rfl, rfl⟩

theorem noWriter_keeps (p : Pipe) :
    p.noWriter.ring = p.ring ∧ p.noWriter.attached = p.attached ∧
      p.noWriter.expected = p.expected := by
  unfold Pipe.noWriter
  split <;> exact ⟨rfl, rfl, rfl⟩

/-! ## one teardown -/

/-- the pipe is still there, with the same bytes -/
def Kept (x : Option Pipe) (p : Pipe) : Prop := ∃ q, x = some q ∧ q.ring = p.ring

theorem lostBetween_eq_nil (h : t.Sane) : lostBetween t t' = [] ↔
    ∀ i p, look t i = some p → p.expected = true → Kept (look t' i) p := by
  unfold lostBetween
  rw [List.filter_eq_nil_iff]
  constructor
  · intro hn i p hl he
    obtain ⟨-, hlt⟩ := h.look_lt hl
    have hhi : t.nextId ≤ 100 := h.wf.hi
    have hi := hn i (List.mem_range.mpr (by omega))
    rw [hl, Option.any_some, he, Bool.true_and, Bool.not_eq_true', Bool.not_eq_false,
      Option.any_eq_true] at hi
    obtain ⟨q, hq, hring⟩ := hi
    exact ⟨q, hq, eq_of_beq hring⟩
  · intro hk i _ hany
    obtain ⟨p, hl, hp⟩ := (Option.any_eq_true _ _).mp hany
    rw [Bool.and_eq_true, Bool.not_eq_true'] at hp
    obtain ⟨q, hq, hring⟩ := hk i p hl hp.1
    have hno := hp.2
    rw [hq, Option.any_some, hring, beq_self_eq_true] at hno
    exact absurd hno (by simp)

theorem kept_refl (p : Pipe) : Kept (some p) p := ⟨p, rfl, rfl⟩

/-- an expected pipe stays, with its ring, as long as somebody is attached -/
theorem kept_left {dec quiet : Pipe → Pipe} (he : (dec p).expected = true)
    (hatt : (quiet (dec p)).attached = (dec p).attached) (hring : (quiet (dec p)).ring = p.ring) :
    Kept (p.left dec quiet) p ↔ (dec p).attached ≠ 0 := by
  rw [left_expected he hatt]
  by_cases h0 : (dec p).attached = 0
  · rw [if_pos h0]
    exact ⟨fun ⟨q, hq, _⟩ => absurd hq (by simp), fun hn => absurd h0 hn⟩
  · rw [if_neg h0]
    exact ⟨fun _ => h0, fun _ => ⟨_, rfl, hring⟩⟩

theorem kept_reader (he : p.expected = true) :
    Kept (p.left dropReader Pipe.noReader) p ↔ (dropReader p).attached ≠ 0 := by
  obtain ⟨hring, hexp⟩ := dropReader_keeps p
  obtain ⟨hring', hatt, -⟩ := noReader_keeps (dropReader p)
  exact kept_left (hexp.trans he) hatt (hring'.trans hring)

theorem kept_writer (he : p.expected = true) :
    Kept (p.left dropWriter Pipe.noWriter) p ↔ (dropWriter p).attached ≠ 0 := by
  obtain ⟨hring, hexp⟩ := dropWriter_keeps p
  obtain ⟨hring', hatt, -⟩ := noWriter_keeps (dropWriter p)
  exact kept_left (hexp.trans he) hatt (hring'.trans hring)

/-- both ends on one pipe: the second one is detached and not closed -/
theorem kept_both (he : p.expected = true) :
    Kept ((p.left dropReader Pipe.noReader).bind (Pipe.detached dropWriter Pipe.noWriter)) p
      ↔ (dropReader p).attached ≠ 0 := by
  obtain ⟨hring, hexp⟩ := dropReader_keeps p
  obtain ⟨hring', hatt, hexp'⟩ := noReader_keeps (dropReader p)
  rw [left_expected (hexp.trans he) hatt]
  by_cases h0 : (dropReader p).attached = 0
  · rw [if_pos h0]
    exact ⟨fun ⟨q, hq, _⟩ => absurd hq (by simp), fun hn => absurd h0 hn⟩
  · rw [if_neg h0, Option.bind_some]
    obtain ⟨hr, hx⟩ := dropWriter_keeps (dropReader p).noReader
    obtain ⟨hr', -, -⟩ := noWriter_keeps (dropWriter (dropReader p).noReader)
    rw [detached_expected (hx.trans (hexp'.trans (hexp.trans he)))]
    exact ⟨fun _ => h0, fun _ => ⟨_, rfl, hr'.trans (hr.trans (hring'.trans hring))⟩⟩

theorem spared_iff {dec : Pipe → Pipe} (he : p.expected = true) :
    p.spared dec = true ↔ (dec p).attached ≠ 0 := by
  unfold Pipe.spared
  rw [he]
  simp

/-- **One teardown** loses nothing exactly when each of its ends leaves somebody attached, or a pipe
that expects nobody. -/
theorem lostBetween_leave (h : k.pipes.Sane) (c : Process) (pid : Int) :
    lostBetween k.pipes (leavePipes k c pid).pipes = [] ↔ sparesEnds k.pipes c = true := by
  obtain ⟨-, hl⟩ := leavePipes_look h c pid
  rw [lostBetween_eq_nil h]
  unfold sparesEnds
  generalize c.readTarget = r at hl
  generalize c.writeTarget = w at hl
  -- what becomes of each expected pipe
  have hkept : ∀ i p, look k.pipes i = some p → p.expected = true →
      (Kept (look (leavePipes k c pid).pipes i) p ↔
        (isPipe r = true → i = r → p.spared dropReader = true) ∧
        (isPipe w = true → i = w → w ≠ r → p.spared dropWriter = true)) := by
    intro i p hp he
    rw [hl i, hp]
    unfold leftPipe
    simp only
    by_cases hw : isPipe w = true ∧ i = w
    · obtain ⟨hwp, rfl⟩ := hw
      rw [if_pos ⟨hwp, rfl⟩]
      by_cases e : i = r
      · subst e
        rw [if_pos rfl, if_pos ⟨hwp, rfl⟩, Option.bind_some, kept_both he, ← spared_iff he]
        exact ⟨fun hs => ⟨fun _ _ => hs, fun _ _ hne => absurd rfl hne⟩, fun hs => hs.1 hwp rfl⟩
      · rw [if_neg e, if_neg (fun hc => e hc.2), Option.bind_some, kept_writer he, ← spared_iff he]
        exact ⟨fun hs => ⟨fun _ hir => absurd hir e, fun _ _ _ => hs⟩, fun hs => hs.2 hwp rfl e⟩
    · rw [if_neg hw]
      by_cases hr : isPipe r = true ∧ i = r
      · rw [if_pos hr, Option.bind_some, kept_reader he, ← spared_iff he]
        exact ⟨fun hs => ⟨fun _ _ => hs, fun hwp hiw _ => absurd ⟨hwp, hiw⟩ hw⟩,
          fun hs => hs.1 hr.1 hr.2⟩
      · rw [if_neg hr]
        exact ⟨fun _ => ⟨fun hrp hir => absurd ⟨hrp, hir⟩ hr,
          fun hwp hiw _ => absurd ⟨hwp, hiw⟩ hw⟩, fun _ => kept_refl p⟩
  have hnot : ∀ (dec : Pipe → Pipe) (p : Pipe), p.expected ≠ true → p.spared dec = true := by
    intro dec p he
    unfold Pipe.spared
    rw [Bool.eq_false_iff.mpr he]
    rfl
  rw [Bool.and_eq_true, Bool.or_eq_true, Bool.or_eq_true, Bool.or_eq_true, Bool.not_eq_true',
    Bool.not_eq_true', beq_iff_eq, Option.all_eq_true, Option.all_eq_true]
  constructor
  · intro hall
    constructor
    · by_cases hr : isPipe r = true
      · refine Or.inr fun p hp => ?_
        by_cases he : p.expected = true
        · exact ((hkept r p hp he).mp (hall r p hp he)).1 hr rfl
        · exact hnot _ p he
      · exact Or.inl (Bool.eq_false_iff.mpr hr)
    · by_cases hw : isPipe w = true
      · by_cases e : w = r
        · exact Or.inl (Or.inr e)
        · refine Or.inr fun p hp => ?_
          by_cases he : p.expected = true
          · exact ((hkept w p hp he).mp (hall w p hp he)).2 hw rfl e
          · exact hnot _ p he
      · exact Or.inl (Or.inl (Bool.eq_false_iff.mpr hw))
  · rintro ⟨hr, hw⟩ i p hp he
    refine (hkept i p hp he).mpr ⟨fun hrp hir => ?_, fun hwp hiw hne => ?_⟩
    · rw [hir] at hp
      exact (hr.resolve_left (by rw [hrp]; simp)) p hp
    · rw [hiw] at hp
      refine (hw.resolve_left fun hc => ?_) p hp
      exact hc.elim (by rw [hwp]; simp) hne

/-! ## runs -/

structure PlumbSys.Inv (t : PlumbSys) : Prop where
  sane : t.k.pipes.Sane
  none : t.lost = []

theorem inv_tornDown {t : PlumbSys} (h : t.Inv) {k : Kernel} {c : Process} {pid : Int}
    (hk : k.pipes = (leavePipes t.k c pid).pipes) (hs : sparesEnds t.k.pipes c = true) :
    (t.tornDown k).Inv := by
  have hl := (lostBetween_leave h.sane c pid).mpr hs
  refine ⟨?_, ?_⟩
  · show k.pipes.Sane
    rw [hk]
    exact (leavePipes_look h.sane c pid).1
  · show t.lost ++ lostBetween t.k.pipes k.pipes = []
    rw [h.none, hk, hl]
    rfl

theorem lostBetween_self (h : t.Sane) : lostBetween t t = [] :=
  (lostBetween_eq_nil h).mpr fun i p hp _ => hp ▸ kept_refl p

theorem inv_same {t : PlumbSys} (h : t.Inv) {k : Kernel} (hk : k.pipes = t.k.pipes) :
    (t.tornDown k).Inv := by
  refine ⟨?_, ?_⟩
  · show k.pipes.Sane
    rw [hk]
    exact h.sane
  · show t.lost ++ lostBetween t.k.pipes k.pipes = []
    rw [h.none, hk, lostBetween_self h.sane]
    rfl

theorem sane_createProcess (h : k.pipes.Sane) (args : CreateArgs) :
    (createProcess k args).2.pipes.Sane := by
  rw [createProcess_pipes]
  split
  · exact (joinPipes_look h _ _).1
  · exact h

/-- **One step.** -/
theorem plumb_step (o : PlumbOp) (t u : PlumbSys) (h : t.Inv) (hc : o.spares t = true)
    (he : execPlumb o t = some u) : u.Inv := by
  cases o with
  | openPipe recycled =>
    obtain rfl := Option.some.inj he
    rcases openPipe_look h.sane recycled with hp | ⟨id, r, w, -, -, hs, -⟩
    · refine ⟨?_, h.none⟩
      show (openPipe t.k recycled).2.pipes.Sane
      rw [hp]
      exact h.sane
    · exact ⟨hs, h.none⟩
  | create args => exact Option.some.inj he ▸ ⟨sane_createProcess h.sane args, h.none⟩
  | read id n => exact Option.some.inj he ▸ ⟨(readPipe_like t.k id n).sane h.sane, h.none⟩
  | readResume a n => exact Option.some.inj he ▸ ⟨(readResume_like t.k a n).sane h.sane, h.none⟩
  | write id data => exact Option.some.inj he ▸ ⟨(writePipe_like t.k id data).sane h.sane, h.none⟩
  | writeResume a rest n =>
    exact Option.some.inj he ▸ ⟨(writeResume_like t.k a rest n).sane h.sane, h.none⟩
  | kill pid =>
    obtain rfl := Option.some.inj he
    have hp := killProcess_pipes t.k pid
    have hall : (victim t.k pid).all (sparesEnds t.k.pipes) = true := hc
    cases hv : victim t.k pid with
    | none =>
      rw [hv] at hp
      exact inv_same h hp
    | some c =>
      rw [hv] at hp hall
      exact inv_tornDown h hp hall
  | terminate =>
    obtain ⟨k', hk, rfl⟩ := Option.map_eq_some_iff.mp he
    cases hr : t.k.sched.running with
    | none =>
      rw [Sched.processTerminator_none hr] at hk
      exact absurd hk (by simp)
    | some a =>
      have hall : (t.k.sched.running.bind t.k.sched.heap).all (sparesEnds t.k.pipes) = true := hc
      rw [hr, Option.bind_some] at hall
      cases hp : t.k.sched.heap a with
      | none =>
        unfold processTerminator terminatorNotify at hk
        simp only [hr, hp] at hk
        exact inv_same h (Option.some.inj hk ▸ rfl)
      | some c =>
        rw [hp] at hall
        exact inv_tornDown h (processTerminator_pipes hr hp hk) hall
  | schedule fuel rsp =>
    obtain ⟨r, -, rfl⟩ := Option.map_eq_some_iff.mp he
    exact ⟨h.sane, h.none⟩

def PlumbSys.boot (stackBase : Nat) (recycled : List Int) : PlumbSys where
  k := initScheduler stackBase recycled
  lost := []

theorem sane_boot (stackBase : Nat) (recycled : List Int) :
    (initScheduler stackBase recycled).pipes.Sane := by
  rw [Sched.initScheduler_eq]
  exact sane_empty

/-- **Nothing is lost.**  In a run in which every process that is taken down leaves somebody attached
to each of its pipes, or a pipe that expects nobody, no teardown removes a pipe that expects an end,
and each such pipe keeps its bytes. -/
theorem nothingLost_run {stackBase : Nat} {recycled : List Int} {os : List PlumbOp} {t : PlumbSys}
    (h : Runs execPlumb (fun o t => o.spares t) os (PlumbSys.boot stackBase recycled) t) :
    NothingLost t := by
  have hinv : t.Inv := Runs.inv (I := PlumbSys.Inv) plumb_step h ⟨sane_boot stackBase recycled, rfl⟩
  exact hinv.none

/-- the left process of a pipeline writes a byte before the right one is created -/
def writeEarly (more : List PlumbOp) : List PlumbOp :=
  [.create (plainArgs ['i'] 8192), .openPipe fun _ => 0, .create (plumbArgs ['l'] 16384 0 2)] ++ more
    ++ [.schedule 4 7, .schedule 4 8200, .write 2 [65], .terminate]

/-- a second writer is attached when the first one ends: the pipe waits for its reader -/
theorem nothingLost_run_second : ∃ t,
    Runs execPlumb (fun o t => o.spares t) (writeEarly [.create (plumbArgs ['m'] 24576 0 2)])
      (PlumbSys.boot 0 []) t ∧ (look t.k.pipes 2).map Pipe.ring = some [65] ∧ NothingLost t := by
  have hrun : (runIf execPlumb PlumbOp.spares (writeEarly [.create (plumbArgs ['m'] 24576 0 2)])
      (PlumbSys.boot 0 [])).map (fun t => (look t.k.pipes 2).map Pipe.ring)
      = some (some [65]) := by decide +kernel
  obtain ⟨t, ht, hring⟩ := Option.map_eq_some_iff.mp hrun
  have h := runs_of_runIf ht
  exact ⟨t, h, hring, nothingLost_run h⟩

/-- the left process ends before the right one is created: `closePipe` deletes the pipe with the byte -/
theorem nothingLost_early : ∃ t, run execPlumb (writeEarly []) (PlumbSys.boot 0 []) = some t ∧
    look t.k.pipes 2 = none ∧ ¬ NothingLost t := by
  have hrun : (run execPlumb (writeEarly []) (PlumbSys.boot 0 [])).map
      (fun t => ((look t.k.pipes 2).isNone, t.lost)) = some (true, [2]) := by decide +kernel
  obtain ⟨t, ht, hv⟩ := Option.map_eq_some_iff.mp hrun
  simp only [Prod.mk.injEq] at hv
  refine ⟨t, ht, Option.isNone_iff_eq_none.mp hv.1, fun hn => ?_⟩
  have hlost : t.lost = [] := hn
  rw [hv.2] at hlost
  exact absurd hlost (by simp)

end

end Tp2So
