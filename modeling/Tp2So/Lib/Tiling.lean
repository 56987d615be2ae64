import Mathlib.Data.List.Perm.Basic
import Mathlib.Data.List.Pairwise
import Mathlib.Algebra.BigOperators.Group.List.Basic
import Mathlib.Algebra.GroupWithZero.Nat

/-!
# Tilings of an interval

A span is a start and a length.  `Tiling lo hi l` says that the spans `l`, in any order, fill the
interval from `lo` to `hi` with no gap and no overlap.

* `tiling_single`    one span;
* `tiling_cut`       a span is cut in two, or two neighbours are joined;
* `Tiling.perm`      the order does not matter;
* `Tiling.apart`     two spans at different places do not meet.
-/

set_option linter.unusedVariables false

namespace Tp2So

/-- one span ends before the other begins -/
def Apart (x y : Nat × Nat) : Prop := x.1 + x.2 ≤ y.1 ∨ y.1 + y.2 ≤ x.1

structure Tiling (lo hi : Nat) (l : List (Nat × Nat)) : Prop where
  pos : ∀ x ∈ l, 0 < x.2
  inside : ∀ x ∈ l, lo ≤ x.1 ∧ x.1 + x.2 ≤ hi
  apart : l.Pairwise Apart
  covers : ∀ i, lo ≤ i → i < hi → ∃ x ∈ l, x.1 ≤ i ∧ i < x.1 + x.2
  total : (l.map Prod.snd).sum = hi - lo

section
variable {lo hi a n k : Nat} {x y : Nat × Nat} {l r : List (Nat × Nat)}

theorem Apart.symm (h : Apart x y) : Apart y x := Or.symm h

theorem tiling_single (h : lo < hi) : Tiling lo hi [(lo, hi - lo)] := by
  refine ⟨?_, ?_, List.pairwise_singleton _ _, ?_, ?_⟩
  · intro x hx
    rw [List.mem_singleton.mp hx]
    show 0 < hi - lo
    omega
  · intro x hx
    rw [List.mem_singleton.mp hx]
    show lo ≤ lo ∧ lo + (hi - lo) ≤ hi
    omega
  · intro i h1 h2
    refine ⟨_, List.mem_singleton_self _, h1, ?_⟩
    show i < lo + (hi - lo)
    omega
  · rw [List.map_singleton, List.sum_singleton]

theorem Tiling.perm (h : Tiling lo hi l) (hp : l.Perm r) : Tiling lo hi r := by
  refine ⟨fun x hx => h.pos x (hp.mem_iff.mpr hx), fun x hx => h.inside x (hp.mem_iff.mpr hx),
    hp.pairwise h.apart Apart.symm, ?_, ?_⟩
  · intro i h1 h2
    obtain ⟨x, hx, hi⟩ := h.covers i h1 h2
    exact ⟨x, hp.mem_iff.mp hx, hi⟩
  · rw [← h.total]
    exact (hp.map Prod.snd).sum_eq.symm

theorem tiling_cut (hn : 0 < n) (hk : 0 < k) :
    Tiling lo hi ((a, n + k) :: l) ↔ Tiling lo hi ((a, n) :: (a + n, k) :: l) := by
  constructor
  · intro h
    obtain ⟨hself, hrest⟩ := List.pairwise_cons.mp h.apart
    obtain ⟨h1, h2⟩ := h.inside _ List.mem_cons_self
    refine ⟨?_, ?_, ?_, ?_, ?_⟩
    · intro x hx
      rcases List.mem_cons.mp hx with rfl | hx
      · exact hn
      rcases List.mem_cons.mp hx with rfl | hx
      · exact hk
      · exact h.pos x (List.mem_cons_of_mem _ hx)
    · intro x hx
      rcases List.mem_cons.mp hx with rfl | hx
      · exact ⟨h1, by omega⟩
      rcases List.mem_cons.mp hx with rfl | hx
      · exact ⟨by omega, by omega⟩
      · exact h.inside x (List.mem_cons_of_mem _ hx)
    · refine List.pairwise_cons.mpr ⟨?_, List.pairwise_cons.mpr ⟨?_, hrest⟩⟩
      · intro x hx
        rcases List.mem_cons.mp hx with rfl | hx
        · exact Or.inl (Nat.le_refl _)
        · rcases hself x hx with hx | hx
          · exact Or.inl (by omega)
          · exact Or.inr hx
      · intro x hx
        rcases hself x hx with hx | hx
        · exact Or.inl (by omega)
        · exact Or.inr (by omega)
    · intro i hi1 hi2
      obtain ⟨x, hx, hi3, hi4⟩ := h.covers i hi1 hi2
      rcases List.mem_cons.mp hx with rfl | hx
      · by_cases e : i < a + n
        · exact ⟨_, List.mem_cons_self, hi3, e⟩
        · refine ⟨_, List.mem_cons_of_mem _ List.mem_cons_self, by omega, ?_⟩
          show i < a + n + k
          omega
      · exact ⟨x, List.mem_cons_of_mem _ (List.mem_cons_of_mem _ hx), hi3, hi4⟩
    · rw [← h.total]
      simp only [List.map_cons, List.sum_cons]
      omega
  · intro h
    obtain ⟨hself, hrest⟩ := List.pairwise_cons.mp h.apart
    obtain ⟨hself', hrest⟩ := List.pairwise_cons.mp hrest
    obtain ⟨h1, h2⟩ := h.inside _ List.mem_cons_self
    obtain ⟨h3, h4⟩ := h.inside _ (List.mem_cons_of_mem _ List.mem_cons_self)
    refine ⟨?_, ?_, ?_, ?_, ?_⟩
    · intro x hx
      rcases List.mem_cons.mp hx with rfl | hx
      · show 0 < n + k
        omega
      · exact h.pos x (List.mem_cons_of_mem _ (List.mem_cons_of_mem _ hx))
    · intro x hx
      rcases List.mem_cons.mp hx with rfl | hx
      · exact ⟨h1, by omega⟩
      · exact h.inside x (List.mem_cons_of_mem _ (List.mem_cons_of_mem _ hx))
    · refine List.pairwise_cons.mpr ⟨?_, hrest⟩
      intro x hx
      have hp := h.pos x (List.mem_cons_of_mem _ (List.mem_cons_of_mem _ hx))
      have hx1 := hself x (List.mem_cons_of_mem _ hx)
      have hx2 := hself' x hx
      unfold Apart at *
      simp only at *
      omega
    · intro i hi1 hi2
      obtain ⟨x, hx, hi3, hi4⟩ := h.covers i hi1 hi2
      rcases List.mem_cons.mp hx with rfl | hx
      · refine ⟨_, List.mem_cons_self, hi3, ?_⟩
        show i < a + (n + k)
        omega
      rcases List.mem_cons.mp hx with rfl | hx
      · refine ⟨_, List.mem_cons_self, ?_, ?_⟩
        · show a ≤ i
          omega
        · show i < a + (n + k)
          omega
      · exact ⟨x, List.mem_cons_of_mem _ hx, hi3, hi4⟩
    · rw [← h.total]
      simp only [List.map_cons, List.sum_cons]
      omega

theorem Tiling.head_apart (h : Tiling lo hi (x :: l)) (hy : y ∈ l) : Apart x y :=
  (List.pairwise_cons.mp h.apart).1 y hy

theorem Tiling.apart_of_mem (h : Tiling lo hi l) (hx : x ∈ l) (hy : y ∈ l) (hne : x ≠ y) :
    Apart x y :=
  haveI : Std.Symm Apart := ⟨fun _ _ => Apart.symm⟩
  h.apart.forall hx hy hne

theorem Tiling.nodup (h : Tiling lo hi l) : (l.map Prod.fst).Nodup := by
  apply List.pairwise_map.mpr
  refine h.apart.imp_of_mem ?_
  intro x y hx hy hxy e
  have h1 := h.pos x hx
  have h2 := h.pos y hy
  unfold Apart at hxy
  omega

theorem Tiling.full (h : Tiling lo hi (x :: l)) (hx : x.2 = hi - lo) : l = [] := by
  cases l with
  | nil => rfl
  | cons y l =>
    have hp := h.pos y (List.mem_cons_of_mem _ List.mem_cons_self)
    have ht := h.total
    simp only [List.map_cons, List.sum_cons] at ht
    omega

end

end Tp2So
