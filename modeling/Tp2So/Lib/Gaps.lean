import Tp2So.Lib.Tiling
import Mathlib.Data.List.Nodup
import Mathlib.Order.Basic

/-!
# Gaps of a tiling

The spans `V` of a tiling are taken, the others `F` are free, and no two free ones touch.  Then the
free spans are the maximal gaps between the taken ones: they depend on these alone.

* `Gapped`              no two spans touch;
* `Tiling.gap`          an interval that meets no taken span lies in one free span;
* `Tiling.squeeze`, `Tiling.same_free`   the same taken spans leave the same free spans;
* `Tiling.length_le`    how many spans there are;
* `Tiling.before`, `Tiling.after`   what lies next to a free span is taken;
* `Tiling.aligned`      where every length is a multiple of `d`, so is every offset.
-/

set_option linter.unusedVariables false

namespace Tp2So

/-- no span begins where another one ends -/
def Gapped (F : List (Nat × Nat)) : Prop := ∀ x ∈ F, ∀ y ∈ F, x.1 + x.2 ≠ y.1

section
variable {lo hi a n d : Nat} {x y : Nat × Nat} {l V V' F F' : List (Nat × Nat)}

theorem Tiling.holder (h : Tiling lo hi (V ++ F)) {i : Nat} (h1 : lo ≤ i) (h2 : i < hi)
    (hV : ∀ x ∈ V, ¬ (x.1 ≤ i ∧ i < x.1 + x.2)) : ∃ x ∈ F, x.1 ≤ i ∧ i < x.1 + x.2 := by
  obtain ⟨x, hx, hi⟩ := h.covers i h1 h2
  rcases List.mem_append.mp hx with hx | hx
  · exact absurd hi (hV x hx)
  · exact ⟨x, hx, hi⟩

theorem Tiling.gap (h : Tiling lo hi (V ++ F)) (hg : Gapped F) (hn : 0 < n) (hlo : lo ≤ a)
    (hhi : a + n ≤ hi) (hV : ∀ x ∈ V, Apart x (a, n)) :
    ∃ x ∈ F, x.1 ≤ a ∧ a + n ≤ x.1 + x.2 := by
  have hfree : ∀ i, a ≤ i → i < a + n → ∃ x ∈ F, x.1 ≤ i ∧ i < x.1 + x.2 := by
    intro i h1 h2
    refine h.holder (by omega) (by omega) fun x hx hin => ?_
    have hap := hV x hx
    simp only [Apart] at hap
    omega
  obtain ⟨x, hx, hx1, hx2⟩ := hfree a (Nat.le_refl _) (by omega)
  refine ⟨x, hx, hx1, ?_⟩
  by_contra hlt
  -- the span that holds the end of `x` touches `x`
  obtain ⟨y, hy, hy1, hy2⟩ := hfree (x.1 + x.2) (by omega) (by omega)
  have hne : x ≠ y := by
    rintro rfl
    omega
  have hap := h.apart_of_mem (List.mem_append_right V hx) (List.mem_append_right V hy) hne
  have htouch := hg x hx y hy
  simp only [Apart] at hap
  omega

theorem Tiling.squeeze (h : Tiling lo hi (V ++ F))
    (hinto : ∀ x ∈ F, ∃ y ∈ F', y.1 ≤ x.1 ∧ x.1 + x.2 ≤ y.1 + y.2)
    (hback : ∀ y ∈ F', ∃ z ∈ F, z.1 ≤ y.1 ∧ y.1 + y.2 ≤ z.1 + z.2) (hx : x ∈ F) : x ∈ F' := by
  obtain ⟨y, hy, hy1, hy2⟩ := hinto x hx
  obtain ⟨z, hz, hz1, hz2⟩ := hback y hy
  have hpos := h.pos x (List.mem_append_right V hx)
  by_cases e : x = z
  · subst e
    have hxy : y = x := Prod.ext (by omega) (by omega)
    rw [← hxy]
    exact hy
  · have hap := h.apart_of_mem (List.mem_append_right V hx) (List.mem_append_right V hz) e
    simp only [Apart] at hap
    omega

theorem Tiling.free_apart (h : Tiling lo hi (V ++ F)) (hx : x ∈ F) (hy : y ∈ V) : Apart y x := by
  refine h.apart_of_mem (List.mem_append_left F hy) (List.mem_append_right V hx) ?_
  rintro rfl
  have hnd := List.Nodup.of_map _ h.nodup
  exact (List.nodup_append.mp hnd).2.2 y hy y hx rfl

/-- **The taken spans decide which spans are free.** -/
theorem Tiling.same_free (h : Tiling lo hi (V ++ F)) (h' : Tiling lo hi (V' ++ F')) (hg : Gapped F)
    (hg' : Gapped F') (hV : ∀ z, z ∈ V ↔ z ∈ V') (hx : x ∈ F) : x ∈ F' := by
  have hinto : ∀ {V V' F F' : List (Nat × Nat)}, Tiling lo hi (V ++ F) → Tiling lo hi (V' ++ F') →
      Gapped F' → (∀ z, z ∈ V' → z ∈ V) →
      ∀ x ∈ F, ∃ y ∈ F', y.1 ≤ x.1 ∧ x.1 + x.2 ≤ y.1 + y.2 := by
    intro V V' F F' h h' hg' hV x hx
    have hxm := List.mem_append_right V hx
    obtain ⟨h1, h2⟩ := h.inside x hxm
    exact h'.gap hg' (h.pos x hxm) h1 h2 fun z hz => h.free_apart hx (hV z hz)
  exact h.squeeze (hinto h h' hg' fun z => (hV z).mpr) (hinto h' h hg fun z => (hV z).mp) hx

theorem Tiling.length_le (h : Tiling lo hi l) : l.length ≤ hi - lo := by
  rw [← h.total]
  have hpos := h.pos
  clear h
  induction l with
  | nil => exact Nat.zero_le _
  | cons x l ih =>
    have hx := hpos x List.mem_cons_self
    have hl := ih fun y hy => hpos y (List.mem_cons_of_mem _ hy)
    rw [List.length_cons, List.map_cons, List.sum_cons]
    omega

/-- a free span that does not begin the interval begins where a taken one ends -/
theorem Tiling.before (h : Tiling lo hi (V ++ F)) (hg : Gapped F) (hx : x ∈ F) (hlt : lo < x.1) :
    ∃ y ∈ V, y.1 + y.2 = x.1 := by
  have hxm := List.mem_append_right V hx
  have hin := h.inside x hxm
  have hpos := h.pos x hxm
  obtain ⟨y, hy, h1, h2⟩ := h.covers (x.1 - 1) (by omega) (by omega)
  have hne : y ≠ x := by
    rintro rfl
    omega
  have hap := h.apart_of_mem hy hxm hne
  simp only [Apart] at hap
  rcases List.mem_append.mp hy with hy | hy
  · exact ⟨y, hy, by omega⟩
  · exact absurd (by omega) (hg y hy x hx)

/-- a free span that does not end the interval ends where a taken one begins -/
theorem Tiling.after (h : Tiling lo hi (V ++ F)) (hg : Gapped F) (hx : x ∈ F) (hlt : x.1 + x.2 < hi) :
    ∃ y ∈ V, x.1 + x.2 = y.1 := by
  have hxm := List.mem_append_right V hx
  have hin := h.inside x hxm
  obtain ⟨y, hy, h1, h2⟩ := h.covers (x.1 + x.2) (by omega) hlt
  have hne : x ≠ y := by
    rintro rfl
    omega
  have hap := h.apart_of_mem hxm hy hne
  simp only [Apart] at hap
  rcases List.mem_append.mp hy with hy | hy
  · exact ⟨y, hy, by omega⟩
  · exact absurd (by omega) (hg x hx y hy)

theorem Tiling.aligned (h : Tiling lo hi l) (hd : ∀ x ∈ l, d ∣ x.2) : ∀ x ∈ l, d ∣ x.1 - lo := by
  -- by induction on the offset: a span begins the interval, or where another one ends
  have hall : ∀ m, ∀ x ∈ l, x.1 - lo = m → d ∣ x.1 - lo := by
    intro m
    induction m using Nat.strongRecOn with
    | ind m ih =>
      intro x hx hm
      have hin := h.inside x hx
      by_cases e : x.1 = lo
      · rw [e, Nat.sub_self]
        exact Nat.dvd_zero d
      · have hpos := h.pos x hx
        obtain ⟨y, hy, h1, h2⟩ := h.covers (x.1 - 1) (by omega) (by omega)
        have hne : y ≠ x := by
          rintro rfl
          omega
        have hap := h.apart_of_mem hy hx hne
        simp only [Apart] at hap
        have hyin := (h.inside y hy).1
        have hstart := ih (y.1 - lo) (by omega) y hy rfl
        rw [show x.1 - lo = y.1 - lo + y.2 by omega]
        exact Nat.dvd_add hstart (hd y hy)
  exact fun x hx => hall _ x hx rfl

end

end Tp2So
