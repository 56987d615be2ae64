import Mathlib
import Tp2So.Lib.Runs

/-!
# Accounts

* `total_update`      what a sum over a family becomes when one member changes;
* `exists_of_total`, `total_unique`   a sum that is not `0`, and one of zeros and ones that is at most `1`;
* `Runs.account`      a quantity to which every step adds what it says, in a run;
* `Runs.budget`       a measure that pays for some steps and that others raise.
-/

set_option linter.unusedSectionVars false

namespace Tp2So

section
variable {ι α M : Type*} [DecidableEq ι]

/-- the sum of `f` over the members -/
@[irreducible]
def total [AddCommMonoid M] (s : Finset ι) (f : α → M) (x : ι → α) : M := ∑ i ∈ s, f (x i)

theorem total_update [AddCommMonoid M] {s : Finset ι} {i : ι} (hi : i ∈ s) (f : α → M) (x : ι → α)
    (a : α) : total s f (Function.update x i a) + f (x i) = total s f x + f a := by
  have hrest : ∑ j ∈ s.erase i, f (Function.update x i a j) = ∑ j ∈ s.erase i, f (x j) := by
    apply Finset.sum_congr rfl
    intro j hj
    rw [Function.update_of_ne (Finset.ne_of_mem_erase hj)]
  have hself : f (Function.update x i a i) = f a := by rw [Function.update_self]
  unfold total
  rw [← Finset.add_sum_erase s _ hi, ← Finset.add_sum_erase s (fun j => f (x j)) hi, hrest, hself]
  rw [add_assoc, add_comm, add_comm (∑ j ∈ s.erase i, f (x j))]

theorem total_eq_zero [AddCommMonoid M] {s : Finset ι} {f : α → M} {x : ι → α}
    (h : ∀ i ∈ s, f (x i) = 0) : total s f x = 0 := by
  unfold total
  exact Finset.sum_eq_zero h

variable {s : Finset ι} {f g : α → Nat} {x : ι → α} {i j : ι}

theorem total_le (h : ∀ a, f a ≤ g a) : total s f x ≤ total s g x := by
  unfold total
  exact Finset.sum_le_sum fun i _ => h (x i)

theorem le_total (hi : i ∈ s) : f (x i) ≤ total s f x := by
  unfold total
  exact Finset.single_le_sum (f := fun i => f (x i)) (fun _ _ => Nat.zero_le _) hi

theorem total_le_card (h : ∀ a, f a ≤ 1) : total s f x ≤ s.card := by
  unfold total
  rw [Finset.card_eq_sum_ones]
  exact Finset.sum_le_sum fun i _ => h (x i)

theorem eq_zero_of_total (h : total s f x = 0) (hi : i ∈ s) : f (x i) = 0 :=
  Nat.le_zero.mp (h ▸ le_total hi)

theorem exists_of_total (h : 0 < total s f x) : ∃ i ∈ s, 0 < f (x i) := by
  by_contra hn
  have hzero : total s f x = 0 := by
    unfold total
    apply Finset.sum_eq_zero
    intro i hi
    by_contra hne
    exact hn ⟨i, hi, Nat.pos_of_ne_zero hne⟩
  omega

/-- two members with a one each do not fit into a sum of at most `1` -/
theorem total_unique (h : total s f x ≤ 1) (hi : i ∈ s) (hj : j ∈ s) (h1 : 0 < f (x i))
    (h2 : 0 < f (x j)) : i = j := by
  by_contra hne
  have hsum := Finset.add_sum_erase s (fun k => f (x k)) hi
  have hle : f (x j) ≤ ∑ k ∈ s.erase i, f (x k) :=
    Finset.single_le_sum (f := fun k => f (x k)) (fun _ _ => Nat.zero_le _)
      (Finset.mem_erase.mpr ⟨Ne.symm hne, hj⟩)
  unfold total at h
  omega

end

section
variable {σ ο M : Type*} [AddCommMonoid M] {exec : ο → σ → Option σ} {ok : ο → σ → Prop}

/-- what the steps of a run add up to -/
def amount (w : ο → M) : List ο → M
  | [] => 0
  | o :: os => w o + amount w os

/-- **Accounting rule.** -/
theorem Runs.account {I : σ → Prop} {m : σ → M} {w : ο → M}
    (hstep : ∀ o s u, I s → ok o s → exec o s = some u → I u ∧ m u = m s + w o)
    {os : List ο} {s t : σ} (h : Runs exec ok os s t) (hs : I s) : m t = m s + amount w os := by
  induction os generalizing s with
  | nil =>
    rw [← show s = t from h]
    exact (add_zero _).symm
  | cons o os ih =>
    obtain ⟨ho, u, hu, ht⟩ := h
    obtain ⟨hI, hm⟩ := hstep o s u hs ho hu
    have hrest := ih ht hI
    rw [hrest, hm, add_assoc]
    rfl

/-- **Budget rule.** -/
theorem Runs.budget {I : σ → Prop} {m : σ → Nat} {c g : ο → Nat}
    (hstep : ∀ o s u, I s → ok o s → exec o s = some u → I u ∧ m u + c o ≤ m s + g o)
    {os : List ο} {s t : σ} (h : Runs exec ok os s t) (hs : I s) :
    m t + amount c os ≤ m s + amount g os := by
  induction os generalizing s with
  | nil =>
    rw [← show s = t from h]
    exact Nat.le_refl _
  | cons o os ih =>
    obtain ⟨ho, u, hu, ht⟩ := h
    obtain ⟨hI, hle⟩ := hstep o s u hs ho hu
    have hrest := ih ht hI
    show m t + (c o + amount c os) ≤ m s + (g o + amount g os)
    omega

end

end Tp2So
