import Mathlib.Data.List.Basic

/-!
# Runs of a guarded step function

A machine is a partial step function `exec : ο → σ → Option σ` on states `σ` and operations `ο`;
`none` says that the operation is not possible in that state, or does not return.

* `run exec os s`          the state after the operations `os`, if all of them return;
* `Runs exec ok os s t`    the run of `os` from `s` to `t`, every step of which meets `ok` in the
                           state it starts from;
* `runIf exec ok os s`     `Runs` as a function, for conditions that can be tested;
* `Runs.inv`               an invariant kept by every `ok` step holds at the end of every run.
-/

namespace Tp2So

section
variable {σ ο : Type*} (exec : ο → σ → Option σ)

/-- the state after the operations `os`, started at `s` -/
def run : List ο → σ → Option σ
  | [], s => some s
  | o :: os, s => (exec o s).bind (run os)

/-- a run from `s` to `t` all of whose steps meet `ok` before they are made -/
def Runs (ok : ο → σ → Prop) : List ο → σ → σ → Prop
  | [], s, t => s = t
  | o :: os, s, t => ok o s ∧ ∃ u, exec o s = some u ∧ Runs ok os u t

/-- the end of that run, for a condition that can be tested -/
def runIf (ok : ο → σ → Bool) : List ο → σ → Option σ
  | [], s => some s
  | o :: os, s => if ok o s then (exec o s).bind (runIf ok os) else none

variable {exec} {ok : ο → σ → Prop}

theorem run_cons (o : ο) (os : List ο) (s : σ) :
    run exec (o :: os) s = (exec o s).bind (run exec os) := rfl

theorem run_append (os os' : List ο) (s : σ) :
    run exec (os ++ os') s = (run exec os s).bind (run exec os') := by
  induction os generalizing s with
  | nil => rfl
  | cons o os ih =>
    rw [List.cons_append, run_cons, run_cons]
    cases exec o s with
    | none => rfl
    | some u => exact ih u

theorem Runs.run_eq {os : List ο} {s t : σ} (h : Runs exec ok os s t) :
    run exec os s = some t := by
  induction os generalizing s with
  | nil => exact congrArg some h
  | cons o os ih =>
    obtain ⟨_, u, hu, ht⟩ := h
    rw [run_cons, hu]
    exact ih ht

/-- without a condition on the steps, `Runs` is `run` -/
theorem runs_true_iff {os : List ο} {s t : σ} :
    Runs exec (fun _ _ => True) os s t ↔ run exec os s = some t := by
  refine ⟨Runs.run_eq, fun h => ?_⟩
  induction os generalizing s with
  | nil => exact Option.some.inj h
  | cons o os ih =>
    rw [run_cons] at h
    obtain ⟨u, hu, ht⟩ := Option.bind_eq_some_iff.mp h
    exact ⟨trivial, u, hu, ih ht⟩

theorem runs_of_runIf {ok : ο → σ → Bool} {os : List ο} {s t : σ}
    (h : runIf exec ok os s = some t) : Runs exec (fun o s => ok o s = true) os s t := by
  induction os generalizing s with
  | nil => exact Option.some.inj h
  | cons o os ih =>
    unfold runIf at h
    by_cases ho : ok o s = true
    · rw [if_pos ho] at h
      obtain ⟨u, hu, ht⟩ := Option.bind_eq_some_iff.mp h
      exact ⟨ho, u, hu, ih ht⟩
    · rw [if_neg ho] at h
      exact absurd h (by simp)

theorem Runs.mono {ok' : ο → σ → Prop} (hok : ∀ o s, ok o s → ok' o s) {os : List ο} {s t : σ}
    (h : Runs exec ok os s t) : Runs exec ok' os s t := by
  induction os generalizing s with
  | nil => exact h
  | cons o os ih =>
    obtain ⟨ho, u, hu, ht⟩ := h
    exact ⟨hok o s ho, u, hu, ih ht⟩

theorem Runs.append {os os' : List ο} {s t u : σ} (h : Runs exec ok os s t)
    (h' : Runs exec ok os' t u) : Runs exec ok (os ++ os') s u := by
  induction os generalizing s with
  | nil => rw [show s = t from h]; exact h'
  | cons o os ih =>
    obtain ⟨ho, v, hv, ht⟩ := h
    exact ⟨ho, v, hv, ih ht⟩

/-- **Invariant rule.**  What holds at the start and is kept by every step that meets `ok` holds
at the end of every run. -/
theorem Runs.inv {I : σ → Prop} (hstep : ∀ o s u, I s → ok o s → exec o s = some u → I u)
    {os : List ο} {s t : σ} (h : Runs exec ok os s t) (hs : I s) : I t := by
  induction os generalizing s with
  | nil => rw [← show s = t from h]; exact hs
  | cons o os ih =>
    obtain ⟨ho, u, hu, ht⟩ := h
    exact ih ht (hstep o s u hs ho hu)

end

end Tp2So
