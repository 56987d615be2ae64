import Mathlib.Logic.Function.Iterate

/-!
# Loops that run their body before they test

* `doWhile body again n s`     at most `n` turns of the loop; `none` when they do not suffice;
* `doWhile_isSome`             the turn that ends it;
* `doWhile_returns`            the loop ends.
-/

namespace Tp2So

section
variable {σ : Type*}

/-- `do body while (again)` -/
def doWhile (body : σ → σ) (again : σ → Bool) : Nat → σ → Option σ
  | 0, _ => none
  | n + 1, s => if again (body s) then doWhile body again n (body s) else some (body s)

variable {body : σ → σ} {again : σ → Bool} {s : σ}

theorem doWhile_isSome {n : Nat} :
    (doWhile body again n s).isSome = true ↔ ∃ k < n, again (body^[k + 1] s) = false := by
  induction n generalizing s with
  | zero =>
    refine ⟨fun h => absurd h Bool.false_ne_true, ?_⟩
    rintro ⟨k, hk, -⟩
    exact absurd hk (Nat.not_lt_zero k)
  | succ n ih =>
    unfold doWhile
    by_cases h : again (body s) = true
    · rw [if_pos h, ih]
      constructor
      · rintro ⟨k, hk, hend⟩
        exact ⟨k + 1, Nat.succ_lt_succ hk, hend⟩
      · rintro ⟨k, hk, hend⟩
        cases k with
        | zero =>
          rw [Function.iterate_one, h] at hend
          cases hend
        | succ k => exact ⟨k, Nat.lt_of_succ_lt_succ hk, hend⟩
    · rw [if_neg h]
      exact ⟨fun _ => ⟨0, Nat.succ_pos n, Bool.eq_false_iff.mpr h⟩, fun _ => rfl⟩

/-- the loop ends after some turn, and more of them change nothing -/
theorem doWhile_returns :
    (∃ N, ∀ n ≥ N, (doWhile body again n s).isSome = true) ↔ ∃ k, again (body^[k + 1] s) = false := by
  constructor
  · rintro ⟨N, h⟩
    obtain ⟨k, -, hend⟩ := doWhile_isSome.mp (h N (Nat.le_refl N))
    exact ⟨k, hend⟩
  · rintro ⟨k, hend⟩
    exact ⟨k + 1, fun n hn => doWhile_isSome.mpr ⟨k, hn, hend⟩⟩

end

end Tp2So
