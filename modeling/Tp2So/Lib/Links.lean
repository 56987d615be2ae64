import Mathlib.Data.List.Nodup
import Mathlib.Logic.Function.Basic

/-!
# Linked cells

A store of linked cells is a function `nx` that gives the successor of a cell.  `Seg nx p l q` says
that whoever starts at `p` and follows the links goes through the cells `l` and arrives at `q`.  A
list that ends with a null cell `z` is a segment from its head to `z`; a ring is a segment from one of
its cells back to it.

* `seg_append`, `seg_middle`   a segment is cut at any of its cells;
* `Seg.start`                  where a segment starts;
* `Seg.congr`                  a segment depends on the links of its own cells only;
* `Seg.unlink`                 a cell is taken out;
* `Seg.rotate`                 a ring is a ring from each of its cells;
* `Seg.unique`                 the links decide which cells are passed.
-/

set_option linter.unusedVariables false

namespace Tp2So

def Seg {α : Type} (nx : α → α) : α → List α → α → Prop
  | p, [], q => p = q
  | p, a :: l, q => p = a ∧ Seg nx (nx a) l q

section
variable {α : Type} {nx nx' : α → α} {p q a b : α} {l r : List α}

theorem seg_append : Seg nx p (l ++ r) q ↔ ∃ x, Seg nx p l x ∧ Seg nx x r q := by
  induction l generalizing p with
  | nil => exact ⟨fun h => ⟨p, rfl, h⟩, fun ⟨x, hx, h⟩ => (show p = x from hx) ▸ h⟩
  | cons a l ih =>
    constructor
    · intro h
      obtain ⟨x, hl, hr⟩ := ih.mp h.2
      exact ⟨x, ⟨h.1, hl⟩, hr⟩
    · intro h
      obtain ⟨x, hl, hr⟩ := h
      exact ⟨hl.1, ih.mpr ⟨x, hl.2, hr⟩⟩

theorem seg_middle : Seg nx p (l ++ a :: r) q ↔ Seg nx p l a ∧ Seg nx (nx a) r q := by
  rw [seg_append]
  constructor
  · intro h
    obtain ⟨x, hl, hx, hr⟩ := h
    exact ⟨hx ▸ hl, hr⟩
  · intro h
    exact ⟨a, h.1, rfl, h.2⟩

theorem Seg.start (h : Seg nx p l q) : p = l.head?.getD q := by
  cases l with
  | nil => exact h
  | cons a l => exact h.1

theorem Seg.congr (h : Seg nx p l q) (hn : ∀ x ∈ l, nx' x = nx x) : Seg nx' p l q := by
  induction l generalizing p with
  | nil => exact h
  | cons a l ih =>
    obtain ⟨hp, hl⟩ := h
    refine ⟨hp, ?_⟩
    rw [hn a List.mem_cons_self]
    exact ih hl fun x hx => hn x (List.mem_cons_of_mem a hx)

theorem Seg.unlink (h : Seg nx p (l ++ a :: b :: r) q) (ha : nx' a = nx b)
    (hn : ∀ x ∈ l ++ r, nx' x = nx x) : Seg nx' p (l ++ a :: r) q := by
  obtain ⟨hl, hb, hr⟩ := seg_middle.mp h
  apply seg_middle.mpr
  refine ⟨hl.congr fun x hx => hn x (List.mem_append_left r hx), ?_⟩
  rw [ha]
  exact hr.congr fun x hx => hn x (List.mem_append_right l hx)

theorem Seg.rotate (h : Seg nx p (l ++ a :: r) p) : Seg nx a (a :: (r ++ l)) a := by
  obtain ⟨hl, hr⟩ := seg_middle.mp h
  exact ⟨rfl, seg_append.mpr ⟨p, hr, hl⟩⟩

/-- two segments with the same ends, which pass their last cell once, are one -/
theorem Seg.unique (h : Seg nx p l q) (h' : Seg nx p r q) (hl : q ∉ l) (hr : q ∉ r) : l = r := by
  induction l generalizing p r with
  | nil =>
    cases r with
    | nil => rfl
    | cons b r => exact absurd (List.mem_cons.mpr (Or.inl ((show p = q from h).symm.trans h'.1))) hr
  | cons a l ih =>
    cases r with
    | nil => exact absurd (List.mem_cons.mpr (Or.inl ((show p = q from h').symm.trans h.1))) hl
    | cons b r =>
      obtain rfl : a = b := h.1.symm.trans h'.1
      rw [ih h.2 h'.2 (fun hm => hl (List.mem_cons_of_mem _ hm))
        (fun hm => hr (List.mem_cons_of_mem _ hm))]

end

end Tp2So
