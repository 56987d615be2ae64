import Tp2So.Memory.FirstFitCalls

/-!
# `mm_free` of the first-fit manager

* `placeLoop_spec`, `Strung.fits_iff`   the walk stops behind the last header below the block;
* `joinUpper_spec`                      the block is joined with the one above it, or linked to it;
* `joinLower_linked`, `joinLower_joined`  the same with the one below;
* `mmFree_spec`                         the block of a live pointer is free afterwards, or a part of a
                                        larger free block.

The call returns with fuel for one step more than there are free blocks, and it leaves the memory of
the live blocks as it was.
-/

set_option linter.unusedVariables false

namespace Tp2So

namespace FirstFit

section
variable {s : FirstFit} {lo hi a p q n k bp fuel : Nat} {f V R A B : List (Nat × Nat)}
  {x y z : Nat × Nat}

/-! ## the walk -/

/-- where the loop of `mm_free` stops -/
def Fits (s : FirstFit) (bp p : Nat) : Prop :=
  (p < bp ∧ bp < s.ptr p) ∨ (s.ptr p ≤ p ∧ (p < bp ∨ bp < s.ptr p))

theorem placeLoop_spec (bp : Nat) (l : List Nat) : ∀ {p : Nat} (fuel : Nat), Seg s.ptr p l q →
    (∃ x ∈ l, Fits s bp x) →
    (placeLoop s bp fuel p = none ∧ fuel < l.length) ∨
      ∃ x ∈ l, Fits s bp x ∧ placeLoop s bp fuel p = some x := by
  induction l with
  | nil =>
    intro p fuel h hx
    obtain ⟨x, hx, -⟩ := hx
    exact absurd hx List.not_mem_nil
  | cons b l ih =>
    intro p fuel h hx
    obtain ⟨rfl, hl⟩ := h
    cases fuel with
    | zero => exact Or.inl ⟨rfl, Nat.succ_pos _⟩
    | succ fuel =>
      by_cases h1 : p < bp ∧ bp < s.ptr p
      · exact Or.inr ⟨p, List.mem_cons_self, Or.inl h1, if_pos h1⟩
      by_cases h2 : s.ptr p ≤ p ∧ (p < bp ∨ bp < s.ptr p)
      · exact Or.inr ⟨p, List.mem_cons_self, Or.inr h2, (if_neg h1).trans (if_pos h2)⟩
      · have hstep : placeLoop s bp (fuel + 1) p = placeLoop s bp fuel (s.ptr p) :=
          (if_neg h1).trans (if_neg h2)
        rw [hstep]
        obtain ⟨x, hx, hfit⟩ := hx
        have hx' : x ∈ l := by
          rcases List.mem_cons.mp hx with rfl | hx
          · exact absurd hfit (not_or.mpr ⟨h1, h2⟩)
          · exact hx
        rcases ih fuel hl ⟨x, hx', hfit⟩ with ⟨hr, hlt⟩ | ⟨x, hx, hfit, hr⟩
        · exact Or.inl ⟨hr, Nat.succ_lt_succ hlt⟩
        · exact Or.inr ⟨x, List.mem_cons_of_mem _ hx, hfit, hr⟩

theorem exists_place (bp : Nat) (l : List (Nat × Nat)) : ∀ x : Nat × Nat,
    (x :: l).Pairwise Before → x.1 < bp → (∀ z ∈ l, z.1 ≠ bp) →
    ∃ A y B, x :: l = A ++ y :: B ∧ y.1 < bp ∧ ∀ z ∈ B, bp < z.1 := by
  induction l with
  | nil =>
    intro x ho hx hne
    exact ⟨[], x, [], rfl, hx, fun z hz => absurd hz List.not_mem_nil⟩
  | cons y l ih =>
    intro x ho hx hne
    obtain ⟨hxl, ho'⟩ := List.pairwise_cons.mp ho
    have hy := hne y List.mem_cons_self
    by_cases hlt : y.1 < bp
    · obtain ⟨A, z, B, he, hz, hB⟩ := ih y ho' hlt fun z hz => hne z (List.mem_cons_of_mem _ hz)
      exact ⟨x :: A, z, B, by rw [he]; rfl, hz, hB⟩
    · refine ⟨[], x, y :: l, rfl, hx, ?_⟩
      intro z hz
      rcases List.mem_cons.mp hz with rfl | hz
      · omega
      · have hyz := (List.pairwise_cons.mp ho').1 z hz
        unfold Before at hyz
        omega

/-- the loop stops behind the last header below `bp`, and only there -/
theorem Strung.fits_iff (h : Strung s lo hi f R) (hf : nodes s.base f = A ++ x :: B)
    (hlo : lo ≤ bp) : Fits s bp x.1 ↔ x.1 < bp ∧ ∀ z ∈ B, bp < z.1 := by
  have hbelow := h.spread.below
  have ho := h.spread.order
  have hbase : s.base ≤ x.1 := by
    rcases List.mem_cons.mp (mem_nodes hf) with rfl | hmem
    · exact Nat.le_refl _
    · have := (h.spread.inside (List.mem_append_right R hmem)).1
      omega
  have hnext := (h.next hf).2
  rw [hf] at ho
  cases B with
  | nil =>
    have hptr : s.ptr x.1 = s.base := hnext
    unfold Fits
    rw [hptr]
    constructor
    · intro hfit
      exact ⟨by omega, fun z hz => absurd hz List.not_mem_nil⟩
    · intro hfit
      exact Or.inr ⟨hbase, Or.inl hfit.1⟩
  | cons b B =>
    have hptr : s.ptr x.1 = b.1 := hnext.1
    obtain ⟨hxB, hBB⟩ := List.pairwise_cons.mp (List.pairwise_append.mp ho).2.1
    have hxb := hxB b List.mem_cons_self
    unfold Before at hxb
    unfold Fits
    rw [hptr]
    constructor
    · intro hfit
      refine ⟨by omega, ?_⟩
      intro z hz
      rcases List.mem_cons.mp hz with rfl | hz
      · omega
      · have hbz := (List.pairwise_cons.mp hBB).1 z hz
        unfold Before at hbz
        omega
    · intro hfit
      exact Or.inl ⟨hfit.1, hfit.2 b List.mem_cons_self⟩

/-! ## the two sides -/

/-- the block `y` is linked to what follows it, `B`, but not yet to what is before it -/
structure Parted (s : FirstFit) (lo hi : Nat) (f A : List (Nat × Nat)) (x : Nat × Nat)
    (B : List (Nat × Nat)) (y : Nat × Nat) (V : List (Nat × Nat)) : Prop where
  spread : Spread s.base lo hi f (y :: V)
  cut : nodes s.base f = A ++ x :: B
  left : Seg s.ptr s.base (A.map Prod.fst) x.1
  right : Seg s.ptr (s.ptr y.1) (B.map Prod.fst) s.base
  sizes : ∀ z ∈ y :: V ++ nodes s.base f, s.size z.1 = z.2
  before : x.1 + x.2 * 16 ≤ y.1
  after : ∀ z ∈ B, Before y z

/-- the static variables but for `freep` are as they were, and so are the blocks `V` -/
structure Keeps (s s' : FirstFit) (V : List (Nat × Nat)) : Prop where
  base : s'.base = s.base
  total : s'.totalMemSize = s.totalMemSize
  freeMem : s'.freeMemSize = s.freeMemSize
  intact : ∀ x ∈ V, Intact s.mem s'.mem x

/-- the block `y` and the first block of `B` are one -/
theorem joinUpper_joined (h : Strung s lo hi f (y :: V)) (hf : nodes s.base f = A ++ x :: z :: B)
    (hx : x.1 < y.1) (hz : y.1 + y.2 * 16 = z.1) :
    ∃ f', Parted (joinUpper s x.1 y.1) lo hi f' A x B (y.1, y.2 + z.2) V ∧
      Keeps s (joinUpper s x.1 y.1) V := by
  obtain ⟨f', hf', hsp'⟩ := h.spread.take hf
  have hzpair : z = (y.1 + y.2 * 16, z.2) := Prod.ext hz.symm rfl
  have hy0 : 0 < y.2 := h.spread.pos List.mem_cons_self
  have hz0 : 0 < z.2 := hsp'.pos List.mem_cons_self
  have hsp : Spread s.base lo hi f' ((y.1, y.2 + z.2) :: V) := by
    have hswap := hsp'.perm (List.Perm.swap _ _ _)
    rw [hzpair] at hswap
    exact (spread_cut hy0 hz0).mpr hswap
  have hxm := mem_nodes hf'
  have hym : y ∈ y :: V ++ nodes s.base f := List.mem_cons_self
  have hzm : z ∈ y :: V ++ nodes s.base f := by
    rw [hf]
    simp
  obtain ⟨hleft, hright⟩ := h.next hf
  have hptr : s.ptr x.1 = z.1 := hright.1
  have hin : lo ≤ y.1 ∧ y.1 + (y.2 + z.2) * 16 ≤ hi := hsp.inside List.mem_cons_self
  have hbound := h.spread.bound
  have hsum : y.2 + z.2 < 18446744073709551616 := by omega
  have hyz : Far y.1 z.1 := h.spread.far hym hzm (by omega)
  have hstep : joinUpper s x.1 y.1
      = (s.setSize y.1 (y.2 + z.2)).setPtr y.1 (s.ptr z.1) := by
    have h1 : plus y.1 (s.size y.1) = s.ptr x.1 := by
      rw [h.sizes y hym, hptr, ← hz]
      exact wrap64_of_lt (show y.1 + y.2 * 16 < _ by omega)
    have h2 : wrap64 (s.size y.1 + s.size (s.ptr x.1)) = y.2 + z.2 := by
      rw [hptr, h.sizes y hym, h.sizes z hzm]
      exact wrap64_of_lt hsum
    have h3 : (s.setSize y.1 (y.2 + z.2)).ptr x.1 = z.1 := by
      rw [ptr_setSize (h.spread.eq_or_far hym (List.mem_append_right _ (by rw [hf]; simp)))]
      exact hptr
    have h4 : (s.setSize y.1 (y.2 + z.2)).ptr z.1 = s.ptr z.1 := ptr_setSize (Or.inr hyz)
    unfold joinUpper
    simp only [if_pos h1, h2, h3, h4]
  rw [hstep]
  have hjm : (y.1, y.2 + z.2) ∈ (y.1, y.2 + z.2) :: V ++ nodes s.base f' := List.mem_cons_self
  -- the links of the ring have not been touched
  have hlinks : ∀ w ∈ nodes s.base f',
      ((s.setSize y.1 (y.2 + z.2)).setPtr y.1 (s.ptr z.1)).ptr w.1 = s.ptr w.1 := by
    intro w hw
    have hfar := hsp.far hjm (List.mem_append_right _ hw) (hsp.ne List.mem_cons_self hw)
    rw [ptr_setPtr_far hfar, ptr_setSize (Or.inr hfar)]
  refine ⟨f', ⟨hsp, hf', ?_, ?_, ?_, ?_, ?_⟩, ⟨rfl, rfl, rfl, ?_⟩⟩
  · refine seg_congr hleft fun w hw => hlinks w ?_
    rw [hf']
    exact List.mem_append_left _ hw
  · show Seg _ (((s.setSize y.1 (y.2 + z.2)).setPtr y.1 (s.ptr z.1)).ptr y.1) _ _
    rw [ptr_setPtr (s.ptr_lt _)]
    refine seg_congr hright.2 fun w hw => hlinks w ?_
    rw [hf']
    exact List.mem_append_right _ (List.mem_cons_of_mem _ hw)
  · refine hsp.sizes_header hjm hsum fun w hw e => ?_
    rcases List.mem_cons.mp hw with rfl | hw
    · exact absurd rfl e
    · apply h.sizes
      exact (perm_blocks hf hf').mem_iff.mpr (List.mem_cons_of_mem _ (List.mem_cons_of_mem _ hw))
  · exact hsp.ends (List.mem_append_right _ hxm) hjm hx
  · intro w hw
    have ho := h.spread.order
    rw [hf] at ho
    have hzw := (List.pairwise_cons.mp (List.pairwise_cons.mp
      (List.pairwise_append.mp ho).2.1).2).1 w hw
    simp only [Before] at hzw ⊢
    omega
  · intro w hw
    exact hsp.intact_header hjm (List.mem_append_left _ (List.mem_cons_of_mem _ hw)) (hsp.head_ne hw)

theorem joinUpper_linked (h : Strung s lo hi f (y :: V)) (hf : nodes s.base f = A ++ x :: B)
    (hx : x.1 < y.1) (hB : ∀ z ∈ B, y.1 < z.1) (hnext : y.1 + y.2 * 16 ≠ s.ptr x.1) :
    Parted (joinUpper s x.1 y.1) lo hi f A x B y V ∧ Keeps s (joinUpper s x.1 y.1) V := by
  have hym : y ∈ y :: V ++ nodes s.base f := List.mem_cons_self
  have hxm := mem_nodes hf
  obtain ⟨hleft, hright⟩ := h.next hf
  have hin : lo ≤ y.1 ∧ y.1 + y.2 * 16 ≤ hi := h.spread.inside List.mem_cons_self
  have hbound := h.spread.bound
  have hstep : joinUpper s x.1 y.1 = s.setPtr y.1 (s.ptr x.1) := by
    have h1 : plus y.1 (s.size y.1) = y.1 + y.2 * 16 := by
      rw [h.sizes y hym]
      exact wrap64_of_lt (show y.1 + y.2 * 16 < _ by omega)
    unfold joinUpper
    rw [h1, if_neg hnext]
  rw [hstep]
  have hlinks : ∀ w ∈ nodes s.base f, (s.setPtr y.1 (s.ptr x.1)).ptr w.1 = s.ptr w.1 := by
    intro w hw
    exact ptr_setPtr_far (h.spread.far hym (List.mem_append_right _ hw)
      (h.spread.ne List.mem_cons_self hw))
  refine ⟨⟨h.spread, hf, ?_, ?_, ?_, ?_, ?_⟩, ⟨rfl, rfl, rfl, ?_⟩⟩
  · refine seg_congr hleft fun w hw => hlinks w ?_
    rw [hf]
    exact List.mem_append_left _ hw
  · rw [ptr_setPtr (s.ptr_lt _)]
    refine seg_congr hright fun w hw => hlinks w ?_
    rw [hf]
    exact List.mem_append_right _ (List.mem_cons_of_mem _ hw)
  · exact h.spread.sizes_setPtr hym h.sizes
  · exact h.spread.ends (List.mem_append_right _ hxm) hym hx
  · -- the first block of `B` begins behind a gap, and the others after it
    intro w hw
    have hends : ∀ z ∈ B, y.1 + y.2 * 16 ≤ z.1 := by
      intro z hz
      refine h.spread.ends hym (List.mem_append_right _ ?_) (hB z hz)
      rw [hf]
      exact List.mem_append_right _ (List.mem_cons_of_mem _ hz)
    have ho := h.spread.order
    rw [hf] at ho
    have hBB := (List.pairwise_cons.mp (List.pairwise_append.mp ho).2.1).2
    cases B with
    | nil => exact absurd hw List.not_mem_nil
    | cons b B =>
      have hb := hends b List.mem_cons_self
      have hptr : s.ptr x.1 = b.1 := hright.1
      rcases List.mem_cons.mp hw with rfl | hw
      · unfold Before
        omega
      · have hbw := (List.pairwise_cons.mp hBB).1 w hw
        unfold Before at hbw ⊢
        omega
  · intro w hw
    exact h.spread.intact_setPtr hym (List.mem_append_left _ (List.mem_cons_of_mem _ hw))
      (h.spread.head_ne hw)

theorem joinUpper_spec (h : Strung s lo hi f (y :: V)) (hf : nodes s.base f = A ++ x :: B)
    (hx : x.1 < y.1) (hB : ∀ z ∈ B, y.1 < z.1) :
    ∃ f' B' m, Parted (joinUpper s x.1 y.1) lo hi f' A x B' (y.1, m) V ∧
      Keeps s (joinUpper s x.1 y.1) V := by
  by_cases hnext : y.1 + y.2 * 16 = s.ptr x.1
  · have hright := (h.next hf).2
    cases B with
    | nil =>
      -- `base` is below the region
      have hptr : s.ptr x.1 = s.base := hright
      have h1 : lo ≤ y.1 := (h.spread.inside List.mem_cons_self).1
      have h2 := h.spread.below
      omega
    | cons z B =>
      have hptr : s.ptr x.1 = z.1 := hright.1
      obtain ⟨f', hp, hk⟩ := joinUpper_joined h hf hx (hnext.trans hptr)
      exact ⟨f', B, _, hp, hk⟩
  · obtain ⟨hp, hk⟩ := joinUpper_linked h hf hx hB hnext
    exact ⟨f, B, y.2, hp, hk⟩

/-- a header on the ring changes: its two sides stay linked -/
theorem Parted.sides {u : FirstFit} (h : Parted s lo hi f A x B y V)
    (hfar : ∀ q, Far x.1 q → u.ptr q = s.ptr q) :
    Seg u.ptr s.base (A.map Prod.fst) x.1 ∧ Seg u.ptr (s.ptr y.1) (B.map Prod.fst) s.base := by
  have hxm := mem_nodes h.cut
  have hlinks : ∀ w ∈ A ++ B, u.ptr w.1 = s.ptr w.1 := by
    intro w hw
    obtain ⟨hwm, hne⟩ := h.spread.others h.cut hw
    exact hfar _ (h.spread.far (List.mem_append_right _ hxm) (List.mem_append_right _ hwm) hne)
  constructor
  · exact seg_congr h.left fun w hw => hlinks w (List.mem_append_left _ hw)
  · exact seg_congr h.right fun w hw => hlinks w (List.mem_append_right _ hw)

theorem joinLower_linked (h : Parted s lo hi f A x B y V) (hne : x.1 + x.2 * 16 ≠ y.1) :
    ∃ f', Strung (joinLower s x.1 y.1) lo hi f' V ∧ Keeps s (joinLower s x.1 y.1) V := by
  have hbefore := h.before
  have hxm := mem_nodes h.cut
  have hxm' := List.mem_append_right (y :: V) hxm
  have hym : y ∈ y :: V ++ nodes s.base f := List.mem_cons_self
  have hxy : x.1 ≠ y.1 := (h.spread.ne List.mem_cons_self hxm).symm
  have hin : lo ≤ y.1 ∧ y.1 + y.2 * 16 ≤ hi := h.spread.inside List.mem_cons_self
  have hbound := h.spread.bound
  obtain ⟨f', hf', hsp⟩ := h.spread.put h.cut (by unfold Before; omega) h.after
  have hstep : joinLower s x.1 y.1 = { s.setPtr x.1 y.1 with freep := y.1 } := by
    have h1 : plus x.1 (s.size x.1) = x.1 + x.2 * 16 := by
      rw [h.sizes x hxm']
      exact wrap64_of_lt (show x.1 + x.2 * 16 < _ by omega)
    unfold joinLower
    rw [h1, if_neg hne]
  rw [hstep]
  obtain ⟨hleft, hright⟩ := h.sides (u := s.setPtr x.1 y.1) fun q hq => ptr_setPtr_far hq
  refine ⟨f', ⟨hsp, ?_, ?_, ?_⟩, ⟨rfl, rfl, rfl, ?_⟩⟩
  · show Seg (s.setPtr x.1 y.1).ptr s.base ((nodes s.base f').map Prod.fst) s.base
    rw [hf', List.map_append, List.map_cons, List.map_cons]
    refine seg_middle.mpr ⟨hleft, ?_, ?_⟩
    · exact ptr_setPtr (show y.1 < _ by omega)
    · rw [ptr_setPtr_far (h.spread.far hxm' hym hxy)]
      exact hright
  · intro w hw
    have hw' : w ∈ y :: V ++ nodes s.base f := (perm_blocks hf' h.cut).mem_iff.mp hw
    exact h.spread.sizes_setPtr hxm' h.sizes w hw'
  · apply List.mem_map_of_mem
    show y ∈ nodes s.base f'
    rw [hf']
    simp
  · intro w hw
    have hw' : w ∈ y :: V := List.mem_cons_of_mem _ hw
    exact h.spread.intact_setPtr hxm' (List.mem_append_left _ hw') (h.spread.ne hw' hxm).symm

/-- the blocks `x` and `y` are one -/
theorem joinLower_joined (h : Parted s lo hi f A x B y V) (he : x.1 + x.2 * 16 = y.1) :
    ∃ f', Strung (joinLower s x.1 y.1) lo hi f' V ∧ Keeps s (joinLower s x.1 y.1) V := by
  have hxm := mem_nodes h.cut
  have hxm' := List.mem_append_right (y :: V) hxm
  have hym : y ∈ y :: V ++ nodes s.base f := List.mem_cons_self
  have hxy : x.1 ≠ y.1 := (h.spread.ne List.mem_cons_self hxm).symm
  have hy0 : 0 < y.2 := h.spread.pos List.mem_cons_self
  have hbound := h.spread.bound
  have hypair : y = (x.1 + x.2 * 16, y.2) := Prod.ext he.symm rfl
  -- `x` is not `base`, so that another header is before it
  obtain ⟨A', w, rfl⟩ : ∃ A' w, A = A' ++ [w] := by
    rcases List.eq_nil_or_concat A with rfl | ⟨A', w, rfl⟩
    · have hx : (s.base, 0) = x := (List.cons.inj h.cut).1
      rw [← hx] at he hxy
      exact absurd (show s.base = y.1 by simpa using he) hxy
    · exact ⟨A', w, List.concat_eq_append⟩
  have hcut : nodes s.base f = A' ++ w :: x :: B := by
    rw [h.cut, List.append_assoc]
    rfl
  obtain ⟨f₁, hf₁, hsp₁⟩ := h.spread.take hcut
  have hx0 : 0 < x.2 := hsp₁.pos List.mem_cons_self
  have ho := h.spread.order
  rw [hcut] at ho
  have hwx : Before w x := (List.pairwise_cons.mp (List.pairwise_append.mp ho).2.1).1 x
    List.mem_cons_self
  have hsp₂ : Spread s.base lo hi f₁ ((x.1, x.2 + y.2) :: V) := by
    rw [hypair] at hsp₁
    exact (spread_cut hx0 hy0).mpr hsp₁
  have hafter : ∀ z ∈ B, Before (x.1, x.2 + y.2) z := by
    intro z hz
    have hyz := h.after z hz
    simp only [Before] at hyz ⊢
    omega
  have hin : lo ≤ x.1 ∧ x.1 + (x.2 + y.2) * 16 ≤ hi := hsp₂.inside List.mem_cons_self
  obtain ⟨f', hf', hsp⟩ := hsp₂.put hf₁ hwx hafter
  have hjm : (x.1, x.2 + y.2) ∈ nodes s.base f' := by
    rw [hf']
    simp
  have hjm' := List.mem_append_right V hjm
  have hfar : Far x.1 y.1 := h.spread.far hxm' hym hxy
  have hsum : x.2 + y.2 < 18446744073709551616 := by omega
  have hstep : joinLower s x.1 y.1
      = { (s.setSize x.1 (x.2 + y.2)).setPtr x.1 (s.ptr y.1) with freep := x.1 } := by
    have h1 : plus x.1 (s.size x.1) = y.1 := by
      rw [h.sizes x hxm', ← he]
      exact wrap64_of_lt (show x.1 + x.2 * 16 < _ by omega)
    have h2 : wrap64 (s.size x.1 + s.size y.1) = x.2 + y.2 := by
      rw [h.sizes x hxm', h.sizes y hym]
      exact wrap64_of_lt hsum
    have h3 : (s.setSize x.1 (x.2 + y.2)).ptr y.1 = s.ptr y.1 := ptr_setSize (Or.inr hfar)
    unfold joinLower
    simp only [if_pos h1, h2, h3]
  rw [hstep]
  obtain ⟨hleft, hright⟩ := h.sides (u := (s.setSize x.1 (x.2 + y.2)).setPtr x.1 (s.ptr y.1))
    fun q hq => (ptr_setPtr_far hq).trans (ptr_setSize (Or.inr hq))
  refine ⟨f', ⟨hsp, ?_, ?_, ?_⟩, ⟨rfl, rfl, rfl, ?_⟩⟩
  · show Seg ((s.setSize x.1 (x.2 + y.2)).setPtr x.1 (s.ptr y.1)).ptr s.base
      ((nodes s.base f').map Prod.fst) s.base
    have haddr : (nodes s.base f').map Prod.fst
        = (A' ++ [w]).map Prod.fst ++ x.1 :: B.map Prod.fst := by
      rw [hf']
      simp
    rw [haddr]
    refine seg_middle.mpr ⟨hleft, ?_⟩
    rw [ptr_setPtr (s.ptr_lt _)]
    exact hright
  · refine hsp.sizes_header hjm' hsum fun z hz e => ?_
    rcases List.mem_cons.mp ((perm_blocks hf' hf₁).mem_iff.mp hz) with rfl | hz
    · exact absurd rfl e
    · apply h.sizes
      exact (perm_blocks hcut hf₁).mem_iff.mpr (List.mem_cons_of_mem _ (List.mem_cons_of_mem _ hz))
  · apply List.mem_map_of_mem (f := Prod.fst) hjm
  · intro z hz
    exact hsp.intact_header hjm' (List.mem_append_left _ hz) (hsp.ne hz hjm).symm

theorem Keeps.trans {s s' s'' : FirstFit} (h : Keeps s s' V) (h' : Keeps s' s'' V) : Keeps s s'' V :=
  ⟨h'.base.trans h.base, h'.total.trans h.total, h'.freeMem.trans h.freeMem,
    fun x hx => (h.intact x hx).trans (h'.intact x hx)⟩

/-- **`mm_free`** of the live block `y`. -/
theorem mmFree_spec (fuel : Nat) (h : Strung s lo hi f (y :: V)) :
    (mmFree fuel s (y.1 + 16) = none ∧ fuel ≤ f.length) ∨
      ∃ s' f', mmFree fuel s (y.1 + 16) = some s' ∧ Strung s' lo hi f' V ∧
        Keeps { s with freeMemSize := wrap64 (s.freeMemSize + y.2 * 16) } s' V := by
  have hin : lo ≤ y.1 ∧ y.1 + y.2 * 16 ≤ hi := h.spread.inside List.mem_cons_self
  have hbound := h.spread.bound
  have hbelow := h.spread.below
  have hbp : wrap64 (y.1 + 16 + 18446744073709551616 - unitSize) = y.1 := by
    unfold wrap64 unitSize
    omega
  have hsize : s.size y.1 = y.2 := h.sizes y List.mem_cons_self
  have hstep : mmFree fuel s (y.1 + 16)
      = (placeLoop { s with freeMemSize := wrap64 (s.freeMemSize + y.2 * 16) } y.1 fuel s.freep).map
          fun p => joinLower (joinUpper { s with
            freeMemSize := wrap64 (s.freeMemSize + y.2 * 16) } p y.1) p y.1 := by
    unfold mmFree
    simp only [if_neg (Nat.succ_ne_zero (y.1 + 15)), hbp, hsize]
    rfl
  rw [hstep]
  generalize hs₁ : ({ s with freeMemSize := wrap64 (s.freeMemSize + y.2 * 16) } : FirstFit) = s₁
  have h₁ : Strung s₁ lo hi f (y :: V) := by
    rw [← hs₁]
    exact ⟨h.spread, h.ring, h.sizes, h.freep⟩
  have hfreep : s.freep = s₁.freep := by
    rw [← hs₁]
  rw [hfreep]
  obtain ⟨l, hl, hlen, -, hmem⟩ := h₁.around
  have hne : ∀ z ∈ f, z.1 ≠ y.1 := fun z hz =>
    (h₁.spread.ne List.mem_cons_self (List.mem_cons_of_mem _ hz)).symm
  -- the last header below the block
  have hbelow₁ := h₁.spread.below
  obtain ⟨A, x, B, hf, hx, hB⟩ := exists_place y.1 f (s₁.base, 0) h₁.spread.order
    (show s₁.base < y.1 by omega) hne
  have hfit : ∃ q ∈ s₁.freep :: l, Fits s₁ y.1 q := by
    refine ⟨x.1, (hmem _).mpr ?_, (h₁.fits_iff hf hin.1).mpr ⟨hx, hB⟩⟩
    exact List.mem_map_of_mem (mem_nodes (show nodes s₁.base f = A ++ x :: B from hf))
  rcases placeLoop_spec y.1 (s₁.freep :: l) fuel hl hfit with ⟨hr, hlt⟩ | ⟨q, hq, hfits, hr⟩
  · rw [hr]
    rw [List.length_cons] at hlt
    exact Or.inl ⟨rfl, by omega⟩
  · rw [hr]
    obtain ⟨x, hxm, rfl⟩ := List.mem_map.mp ((hmem q).mp hq)
    obtain ⟨A, B, hf⟩ := List.append_of_mem hxm
    obtain ⟨hx, hB⟩ := (h₁.fits_iff hf hin.1).mp hfits
    obtain ⟨f', B', m, hp, hk⟩ := joinUpper_spec h₁ hf hx hB
    have hlower : ∃ f'', Strung (joinLower (joinUpper s₁ x.1 y.1) x.1 y.1) lo hi f'' V ∧
        Keeps (joinUpper s₁ x.1 y.1) (joinLower (joinUpper s₁ x.1 y.1) x.1 y.1) V := by
      by_cases he : x.1 + x.2 * 16 = y.1
      · exact joinLower_joined (y := (y.1, m)) hp he
      · exact joinLower_linked (y := (y.1, m)) hp he
    obtain ⟨f'', hstr, hk'⟩ := hlower
    exact Or.inr ⟨_, f'', rfl, hstr, hk.trans hk'⟩

end

end FirstFit

end Tp2So
