import Tp2So.Family.Vitals
import Tp2So.Pipes.Store

/-!
# The targets of the live processes

`s.aims pid` is the pair of read and write target of the process in the slot `pid`, if there is one
that is not TERMINATED.

* `Calm.aims`, `Wakes.aims`, `aims_windUp`     steps that no target shows;
* `aims_killProcess`, `aims_terminatorLeave`   one slot is emptied;
* `aims_createProcess`                         one slot is filled;
* `aims_note`                                  a process gets another target.
-/

set_option linter.unusedVariables false

namespace Tp2So

/-- the targets of a live process -/
def Process.aim (p : Process) : Option (Nat × Nat) :=
  if p.state = .terminated then none else some p.ends

namespace Sched
variable {s t : Sched} {k : Kernel} {a b : Nat} {p : Process} {pid q : Int}

def aims (s : Sched) (pid : Int) : Option (Nat × Nat) :=
  (s.table pid).bind fun a => (s.heap a).bind Process.aim

theorem aims_ext (htab : t.table = s.table)
    (hheap : ∀ a, (t.heap a).bind Process.aim = (s.heap a).bind Process.aim) : t.aims = s.aims := by
  funext pid
  unfold aims
  rw [htab]
  cases s.table pid with
  | none => rfl
  | some a => exact hheap a

theorem aims_modify {f : Process → Process} (hf : ∀ p, s.heap a = some p → (f p).aim = p.aim) :
    (s.modify a f).aims = s.aims :=
  aims_ext rfl (modify_read (fun o => o.bind Process.aim) hf)

theorem Calm.aims (h : Calm s t) : t.aims = s.aims := by
  refine aims_ext h.table fun a => ?_
  have hm := h.mood a
  have he := h.ends a
  cases hs : s.heap a with
  | none =>
    rw [hs] at hm
    rw [Option.map_eq_none_iff.mp hm]
  | some p =>
    rw [hs] at hm he
    obtain ⟨p', hp', hmood⟩ := Option.map_eq_some_iff.mp hm
    rw [hp'] at he ⊢
    have hends : p'.ends = p.ends := Option.some.inj he
    have hdead : (p'.state == .terminated) = (p.state == .terminated) := congrArg Prod.snd hmood
    show p'.aim = p.aim
    unfold Process.aim
    rw [hends]
    by_cases hst : p.state = .terminated
    · rw [hst, beq_self_eq_true, beq_iff_eq] at hdead
      rw [if_pos hst, if_pos hdead]
    · rw [beq_false_of_ne hst] at hdead
      rw [if_neg hst, if_neg fun e => by rw [e] at hdead; exact absurd hdead (by decide)]

theorem aims_setState (st : ProcessState) (hst : st ≠ .terminated)
    (h : ∀ p, s.heap a = some p → p.state ≠ .terminated) :
    (s.modify a (Process.setState st)).aims = s.aims := by
  refine aims_modify fun p hp => ?_
  unfold Process.aim
  rw [Process.setState_state, if_neg hst, if_neg (h p hp)]
  rfl

theorem aims_addToScheduler (h : ∀ p, s.heap a = some p → p.state ≠ .terminated) :
    (addToScheduler s a).aims = s.aims := by
  unfold addToScheduler
  split
  · rfl
  · have hm := aims_setState .ready (by decide) h
    simp only
    split
    · exact hm
    · exact hm

theorem aims_unblockProcess (s : Sched) (a : Nat) : (unblockProcess s a).2.aims = s.aims := by
  rcases unblockProcess_cases s a with hun | ⟨p, hp, -, -, hst, hun⟩
  · rw [hun]
  · have hlive : ∀ q, s.heap a = some q → q.state ≠ .terminated := by
      intro q hq
      obtain rfl := Option.some.inj (hp.symm.trans hq)
      rw [hst]
      decide
    rw [hun]
    refine (aims_addToScheduler fun q hq => ?_).trans (aims_setState .ready (by decide) hlive)
    rw [modify_heap_self _ hp] at hq
    obtain rfl := Option.some.inj hq
    rw [Process.setState_state]
    decide

theorem Wakes.aims (h : Wakes s t) : t.aims = s.aims := by
  induction h with
  | refl s => rfl
  | wake hb _ ih => exact ih.trans (aims_unblockProcess _ _)

end Sched

end Tp2So
