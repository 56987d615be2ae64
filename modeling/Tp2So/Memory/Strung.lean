import Tp2So.Lib.Links
import Tp2So.Lib.Tiling
import Tp2So.Kernel.FirstFit
import Mathlib.Tactic.Ring

/-!
# How the blocks of the first-fit manager lie

A block is an address and a number of units.  The headers on the ring are those of the free blocks
`f`, in the order of their addresses, and `(base, 0)` before them.  The blocks `R` are not on the ring.

* `Far`                                         two headers that do not overlap;
* `Before`                                      a block ends before another one begins, with a gap;
* `Spread`                                      the layout alone: the blocks fill the region;
* `Spread.take`, `Spread.put`, `spread_cut`     a block leaves the ring, or comes to it; a block is cut
                                                in two, or two are joined;
* `Strung`                                      the memory says so.
-/

set_option linter.unusedVariables false

namespace Tp2So

namespace FirstFit

/-! ## headers -/

/-- two headers that do not overlap -/
def Far (p q : Nat) : Prop := p + 16 ≤ q ∨ q + 16 ≤ p

section
variable {s : FirstFit} {p q v a : Nat}

theorem ptr_setPtr (h : v < 18446744073709551616) : (s.setPtr p v).ptr p = v := load64_store64 h

theorem size_setSize (h : v < 18446744073709551616) : (s.setSize p v).size p = v := load64_store64 h

theorem ptr_setPtr_far (h : Far p q) : (s.setPtr p v).ptr q = s.ptr q := by
  apply load64_store64_of_disjoint
  unfold Far at h
  omega

theorem size_setSize_far (h : Far p q) : (s.setSize p v).size q = s.size q := by
  apply load64_store64_of_disjoint
  unfold Far at h
  omega

/-- the two fields of a header are apart -/
theorem size_setPtr (h : p = q ∨ Far p q) : (s.setPtr p v).size q = s.size q := by
  apply load64_store64_of_disjoint
  unfold Far at h
  omega

theorem ptr_setSize (h : p = q ∨ Far p q) : (s.setSize p v).ptr q = s.ptr q := by
  apply load64_store64_of_disjoint
  unfold Far at h
  omega

theorem Far.symm (h : Far p q) : Far q p := Or.symm h

end

/-! ## layout -/

/-- the memory of a block -/
def bytes (x : Nat × Nat) : Nat × Nat := (x.1, x.2 * 16)

/-- with a gap between the two -/
def Before (x y : Nat × Nat) : Prop := x.1 + x.2 * 16 < y.1

def unitsOf (B : List (Nat × Nat)) : Nat := (B.map Prod.snd).sum

/-- the headers on the ring -/
def nodes (base : Nat) (f : List (Nat × Nat)) : List (Nat × Nat) := (base, 0) :: f

structure Spread (base lo hi : Nat) (f R : List (Nat × Nat)) : Prop where
  tiling : Tiling lo hi ((R ++ f).map bytes)
  order : (nodes base f).Pairwise Before
  below : base + 16 ≤ lo
  bound : hi < 18446744073709551616

section
variable {base lo hi p n k : Nat} {f f' R R' A B : List (Nat × Nat)} {x y z : Nat × Nat}

theorem Spread.pos (h : Spread base lo hi f R) (hx : x ∈ R ++ f) : 0 < x.2 := by
  have hp : 0 < x.2 * 16 := h.tiling.pos (bytes x) (List.mem_map_of_mem hx)
  omega

theorem Spread.inside (h : Spread base lo hi f R) (hx : x ∈ R ++ f) :
    lo ≤ x.1 ∧ x.1 + x.2 * 16 ≤ hi :=
  h.tiling.inside (bytes x) (List.mem_map_of_mem hx)

theorem Spread.perm (h : Spread base lo hi f R) (hp : R.Perm R') : Spread base lo hi f R' :=
  ⟨h.tiling.perm ((hp.append_right f).map bytes), h.order, h.below, h.bound⟩

theorem mem_blocks : x ∈ R ++ nodes base f ↔ x = (base, 0) ∨ x ∈ R ++ f := by
  unfold nodes
  rw [List.mem_append, List.mem_cons, List.mem_append]
  exact or_left_comm

theorem Spread.nodup (h : Spread base lo hi f R) : ((R ++ nodes base f).map Prod.fst).Nodup := by
  have hnd := h.tiling.nodup
  rw [List.map_map] at hnd
  have hperm : (R ++ nodes base f).Perm ((base, 0) :: (R ++ f)) := List.perm_middle
  refine (hperm.map Prod.fst).nodup_iff.mpr (List.nodup_cons.mpr ⟨?_, hnd⟩)
  intro hm
  obtain ⟨x, hx, he⟩ := List.mem_map.mp hm
  have h1 := (h.inside hx).1
  have h2 := h.below
  have he' : x.1 = base := he
  omega

theorem Spread.same_start (h : Spread base lo hi f R) (hx : x ∈ R ++ nodes base f)
    (hy : y ∈ R ++ nodes base f) (he : x.1 = y.1) : x = y :=
  List.inj_on_of_nodup_map h.nodup hx hy he

theorem Spread.ne (h : Spread base lo hi f R) (hx : x ∈ R) (hy : y ∈ nodes base f) : x.1 ≠ y.1 := by
  have hnd := h.nodup
  rw [List.map_append] at hnd
  exact (List.nodup_append.mp hnd).2.2 x.1 (List.mem_map_of_mem hx) y.1 (List.mem_map_of_mem hy)

theorem Spread.clear (h : Spread base lo hi f R) (hx : x ∈ R ++ nodes base f) (hy : y ∈ R ++ f)
    (hne : x.1 ≠ y.1) : x.1 + 16 ≤ y.1 ∨ y.1 + y.2 * 16 ≤ x.1 := by
  rcases mem_blocks.mp hx with rfl | hx
  · have h1 := (h.inside hy).1
    have h2 := h.below
    exact Or.inl (by show base + 16 ≤ y.1; omega)
  · have hap : Apart (bytes x) (bytes y) :=
      h.tiling.apart_of_mem (List.mem_map_of_mem hx) (List.mem_map_of_mem hy)
        fun e => hne (Prod.mk.inj e).1
    have h1 := h.pos hx
    simp only [Apart, bytes] at hap
    omega

theorem Spread.far (h : Spread base lo hi f R) (hx : x ∈ R ++ nodes base f)
    (hy : y ∈ R ++ nodes base f) (hne : x.1 ≠ y.1) : Far x.1 y.1 := by
  have hwith : ∀ {x y : Nat × Nat}, x ∈ R ++ nodes base f → y ∈ R ++ f → x.1 ≠ y.1 →
      Far x.1 y.1 := by
    intro x y hx hy hne
    have h1 := h.clear hx hy hne
    have h2 := h.pos hy
    unfold Far
    omega
  rcases mem_blocks.mp hy with rfl | hy'
  · rcases mem_blocks.mp hx with rfl | hx'
    · exact absurd rfl hne
    · exact (hwith hy hx' hne.symm).symm
  · exact hwith hx hy' hne

theorem Spread.eq_or_far (h : Spread base lo hi f R) (hx : x ∈ R ++ nodes base f)
    (hy : y ∈ R ++ nodes base f) : x.1 = y.1 ∨ Far x.1 y.1 := by
  by_cases e : x.1 = y.1
  · exact Or.inl e
  · exact Or.inr (h.far hx hy e)

theorem Spread.head_ne (h : Spread base lo hi f (y :: R)) (hz : z ∈ R) : y.1 ≠ z.1 := by
  have hnd := h.nodup
  rw [List.cons_append, List.map_cons] at hnd
  intro e
  apply (List.nodup_cons.mp hnd).1
  rw [e]
  exact List.mem_map_of_mem (List.mem_append_left _ hz)

theorem Spread.ends (h : Spread base lo hi f R) (hx : x ∈ R ++ nodes base f) (hy : y ∈ R ++ nodes base f)
    (hlt : x.1 < y.1) : x.1 + x.2 * 16 ≤ y.1 := by
  rcases mem_blocks.mp hx with rfl | hx
  · exact Nat.le_of_lt hlt
  · have hc := h.clear hy hx (Nat.ne_of_gt hlt)
    omega

/-! ## the ring as a list -/

theorem mem_nodes (h : nodes base f = A ++ x :: B) : x ∈ nodes base f := by
  rw [h]
  exact List.mem_append_right _ List.mem_cons_self

theorem seg_congr {g g' : Nat → Nat} {q : Nat} (h : Seg g p (B.map Prod.fst) q)
    (hg : ∀ z ∈ B, g' z.1 = g z.1) : Seg g' p (B.map Prod.fst) q := by
  refine h.congr fun a ha => ?_
  obtain ⟨z, hz, rfl⟩ := List.mem_map.mp ha
  exact hg z hz

theorem perm_second : (A ++ x :: y :: B).Perm (y :: (A ++ x :: B)) := by
  rw [List.append_cons, List.append_cons A x B]
  exact List.perm_middle

theorem perm_blocks (hf : nodes base f = A ++ x :: y :: B) (hf' : nodes base f' = A ++ x :: B) :
    (R ++ nodes base f).Perm (y :: R ++ nodes base f') := by
  rw [hf, hf']
  exact (perm_second.append_left R).trans List.perm_middle

theorem nodes_take (h : nodes base f = A ++ x :: y :: B) :
    ∃ f', nodes base f' = A ++ x :: B ∧ f.Perm (y :: f') := by
  cases A with
  | nil =>
    obtain ⟨hx, hf⟩ := List.cons.inj h
    exact ⟨B, by rw [← hx]; rfl, by rw [hf]⟩
  | cons a A =>
    obtain ⟨ha, hf⟩ := List.cons.inj h
    refine ⟨A ++ x :: B, by rw [← ha]; rfl, ?_⟩
    rw [hf]
    exact perm_second

theorem nodes_put (y : Nat × Nat) (h : nodes base f = A ++ x :: B) :
    ∃ f', nodes base f' = A ++ x :: y :: B ∧ f'.Perm (y :: f) := by
  cases A with
  | nil =>
    obtain ⟨hx, hf⟩ := List.cons.inj h
    exact ⟨y :: B, by rw [← hx]; rfl, by rw [hf]⟩
  | cons a A =>
    obtain ⟨ha, hf⟩ := List.cons.inj h
    refine ⟨A ++ x :: y :: B, by rw [← ha]; rfl, ?_⟩
    rw [hf]
    exact perm_second

theorem Spread.others (h : Spread base lo hi f R) (hf : nodes base f = A ++ x :: B) (hz : z ∈ A ++ B) :
    z ∈ nodes base f ∧ x.1 ≠ z.1 := by
  have hperm : (nodes base f).Perm (x :: (A ++ B)) := by
    rw [hf]
    exact List.perm_middle
  refine ⟨hperm.mem_iff.mpr (List.mem_cons_of_mem _ hz), ?_⟩
  have hnd := h.nodup
  rw [List.map_append] at hnd
  have hnd' := (hperm.map Prod.fst).nodup_iff.mp (List.nodup_append.mp hnd).2.1
  intro e
  apply (List.nodup_cons.mp hnd').1
  rw [e]
  exact List.mem_map_of_mem hz

theorem Spread.take (h : Spread base lo hi f R) (hf : nodes base f = A ++ x :: y :: B) :
    ∃ f', nodes base f' = A ++ x :: B ∧ Spread base lo hi f' (y :: R) := by
  obtain ⟨f', hf', hp⟩ := nodes_take hf
  refine ⟨f', hf', ?_, ?_, h.below, h.bound⟩
  · have hperm : (R ++ f).Perm (y :: R ++ f') := (hp.append_left R).trans List.perm_middle
    exact h.tiling.perm (hperm.map bytes)
  · have ho := h.order
    rw [hf] at ho
    rw [hf']
    exact ho.sublist ((List.sublist_cons_self y B).cons_cons x |>.append_left A)

theorem Spread.put (h : Spread base lo hi f (y :: R)) (hf : nodes base f = A ++ x :: B)
    (hx : Before x y) (hB : ∀ z ∈ B, Before y z) :
    ∃ f', nodes base f' = A ++ x :: y :: B ∧ Spread base lo hi f' R := by
  obtain ⟨f', hf', hp⟩ := nodes_put y hf
  refine ⟨f', hf', ?_, ?_, h.below, h.bound⟩
  · have hperm : (y :: R ++ f).Perm (R ++ f') :=
      List.perm_middle.symm.trans (hp.symm.append_left R)
    exact h.tiling.perm (hperm.map bytes)
  · have ho := h.order
    rw [hf] at ho
    obtain ⟨hA, hrest, hAB⟩ := List.pairwise_append.mp ho
    obtain ⟨hxB, hBB⟩ := List.pairwise_cons.mp hrest
    rw [hf']
    refine List.pairwise_append.mpr ⟨hA, List.pairwise_cons.mpr ⟨?_, List.pairwise_cons.mpr
      ⟨hB, hBB⟩⟩, ?_⟩
    · intro z hz
      rcases List.mem_cons.mp hz with rfl | hz
      · exact hx
      · exact hxB z hz
    · intro a ha z hz
      have hax := hAB a ha x List.mem_cons_self
      rcases List.mem_cons.mp hz with rfl | hz
      · exact hax
      rcases List.mem_cons.mp hz with rfl | hz
      · -- `a` is before `x`, and `x` before the new block
        unfold Before at hax hx ⊢
        omega
      · exact hAB a ha z (List.mem_cons_of_mem _ hz)

theorem spread_cut (hn : 0 < n) (hk : 0 < k) :
    Spread base lo hi f ((p, n + k) :: R) ↔ Spread base lo hi f ((p, n) :: (p + n * 16, k) :: R) := by
  have hcut : Tiling lo hi ((p, n * 16 + k * 16) :: (R ++ f).map bytes) ↔
      Tiling lo hi ((p, n * 16) :: (p + n * 16, k * 16) :: (R ++ f).map bytes) :=
    tiling_cut (by omega) (by omega)
  rw [← Nat.add_mul] at hcut
  exact ⟨fun h => ⟨hcut.mp h.tiling, h.order, h.below, h.bound⟩,
    fun h => ⟨hcut.mpr h.tiling, h.order, h.below, h.bound⟩⟩

theorem unitsOf_bytes (B : List (Nat × Nat)) :
    ((B.map bytes).map Prod.snd).sum = unitsOf B * 16 := by
  induction B with
  | nil => rfl
  | cons x B ih =>
    unfold unitsOf at ih ⊢
    simp only [List.map_cons, List.sum_cons, bytes] at ih ⊢
    omega

theorem Spread.total (h : Spread base lo hi f R) : unitsOf R * 16 + unitsOf f * 16 = hi - lo := by
  rw [← h.tiling.total, List.map_append, List.map_append, List.sum_append, unitsOf_bytes,
    unitsOf_bytes]

end

/-! ## what the memory says -/

structure Strung (s : FirstFit) (lo hi : Nat) (f R : List (Nat × Nat)) : Prop where
  spread : Spread s.base lo hi f R
  ring : Seg s.ptr s.base ((nodes s.base f).map Prod.fst) s.base
  sizes : ∀ x ∈ R ++ nodes s.base f, s.size x.1 = x.2
  freep : s.freep ∈ (nodes s.base f).map Prod.fst

/-- the memory of a block is as it was -/
def Intact (m m' : Nat → UInt8) (x : Nat × Nat) : Prop :=
  ∀ i, x.1 ≤ i → i < x.1 + x.2 * 16 → m' i = m i

section
variable {s : FirstFit} {lo hi p v : Nat} {f R R' : List (Nat × Nat)} {x y : Nat × Nat}
  {m m' m'' : Nat → UInt8}

theorem Intact.trans (h : Intact m m' x) (h' : Intact m' m'' x) : Intact m m'' x :=
  fun i h1 h2 => (h' i h1 h2).trans (h i h1 h2)

theorem Strung.perm (h : Strung s lo hi f R) (hp : R.Perm R') : Strung s lo hi f R' :=
  ⟨h.spread.perm hp, h.ring, fun x hx => h.sizes x ((hp.append_right _).mem_iff.mpr hx), h.freep⟩

theorem Spread.intact_setPtr (h : Spread s.base lo hi f R) (hx : x ∈ R ++ nodes s.base f)
    (hy : y ∈ R ++ f) (hne : x.1 ≠ y.1) : Intact s.mem (s.setPtr x.1 v).mem y := by
  intro i h1 h2
  have hc := h.clear hx hy hne
  apply store64_of_disjoint
  omega

theorem Spread.intact_setSize (h : Spread s.base lo hi f R) (hx : x ∈ R ++ nodes s.base f)
    (hy : y ∈ R ++ f) (hne : x.1 ≠ y.1) : Intact s.mem (s.setSize x.1 v).mem y := by
  intro i h1 h2
  have hc := h.clear hx hy hne
  apply store64_of_disjoint
  omega

theorem Spread.sizes_setSize (h : Spread s.base lo hi f R) (hx : x ∈ R ++ nodes s.base f)
    (hv : x.2 < 18446744073709551616)
    (hs : ∀ z ∈ R ++ nodes s.base f, x.1 ≠ z.1 → s.size z.1 = z.2) :
    ∀ z ∈ R ++ nodes s.base f, (s.setSize x.1 x.2).size z.1 = z.2 := by
  intro z hz
  by_cases e : x.1 = z.1
  · obtain rfl := h.same_start hx hz e
    exact size_setSize hv
  · rw [size_setSize_far (h.far hx hz e)]
    exact hs z hz e

theorem Spread.sizes_setPtr (h : Spread s.base lo hi f R) (hx : x ∈ R ++ nodes s.base f)
    (hs : ∀ z ∈ R ++ nodes s.base f, s.size z.1 = z.2) :
    ∀ z ∈ R ++ nodes s.base f, (s.setPtr x.1 v).size z.1 = z.2 := by
  intro z hz
  rw [size_setPtr (h.eq_or_far hx hz)]
  exact hs z hz

theorem Spread.sizes_header {n : Nat} (h : Spread s.base lo hi f R)
    (hx : (p, n) ∈ R ++ nodes s.base f) (hn : n < 18446744073709551616)
    (hs : ∀ z ∈ R ++ nodes s.base f, p ≠ z.1 → s.size z.1 = z.2) :
    ∀ z ∈ R ++ nodes s.base f, ((s.setSize p n).setPtr p v).size z.1 = z.2 := by
  have h1 : ∀ z ∈ R ++ nodes s.base f, (s.setSize p n).size z.1 = z.2 :=
    h.sizes_setSize (x := (p, n)) hx hn hs
  exact Spread.sizes_setPtr (s := s.setSize p n) (x := (p, n)) h hx h1

theorem Spread.intact_header {n : Nat} (h : Spread s.base lo hi f R)
    (hx : (p, n) ∈ R ++ nodes s.base f) (hy : y ∈ R ++ f) (hne : p ≠ y.1) :
    Intact s.mem ((s.setSize p n).setPtr p v).mem y := by
  have h1 : Intact s.mem (s.setSize p n).mem y := h.intact_setSize (x := (p, n)) hx hy hne
  have h2 : Intact (s.setSize p n).mem ((s.setSize p n).setPtr p v).mem y :=
    Spread.intact_setPtr (s := s.setSize p n) (x := (p, n)) h hx hy hne
  exact h1.trans h2

end

end FirstFit

end Tp2So
