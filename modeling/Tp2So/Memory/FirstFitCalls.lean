import Tp2So.Memory.Strung

/-!
# `mm_alloc` of the first-fit manager

* `findLoop_spec`      the search, around the ring from `freep`, for any fuel;
* `takeUnits_exact`    a block leaves the ring;
* `takeUnits_split`    the upper part of a block is given, the rest stays on the ring;
* `mmAlloc_spec`       a call has no block to give, or has made one a live one.

The call returns with fuel for one step more than there are free blocks, and it leaves the memory of
the other live blocks as it was.
-/

set_option linter.unusedVariables false

namespace Tp2So

namespace FirstFit

section
variable {s : FirstFit} {lo hi a p q n k bp fuel : Nat} {f V R A B : List (Nat × Nat)}
  {x y z : Nat × Nat}

/-! ## walks -/

theorem Strung.next (h : Strung s lo hi f R) (hf : nodes s.base f = A ++ x :: B) :
    Seg s.ptr s.base (A.map Prod.fst) x.1 ∧ Seg s.ptr (s.ptr x.1) (B.map Prod.fst) s.base := by
  have hr := h.ring
  rw [hf, List.map_append, List.map_cons] at hr
  exact seg_middle.mp hr

theorem Strung.around (h : Strung s lo hi f R) :
    ∃ l, Seg s.ptr s.freep (s.freep :: l) s.freep ∧ l.length = f.length ∧ s.freep ∉ l ∧
      ∀ p, p ∈ s.freep :: l ↔ p ∈ (nodes s.base f).map Prod.fst := by
  obtain ⟨l, r, he⟩ := List.append_of_mem h.freep
  have hr := h.ring
  rw [he] at hr
  have hlen := congrArg List.length he
  have hnodes : ((nodes s.base f).map Prod.fst).length = f.length + 1 := by
    rw [List.length_map]
    rfl
  have hnd := h.spread.nodup
  rw [List.map_append, he] at hnd
  have hnd' := (List.nodup_middle.mp (List.nodup_append.mp hnd).2.1)
  refine ⟨r ++ l, hr.rotate, ?_, ?_, ?_⟩
  · rw [hnodes, List.length_append, List.length_cons] at hlen
    rw [List.length_append]
    omega
  · intro hm
    exact (List.nodup_cons.mp hnd').1 (List.mem_append.mpr (List.mem_append.mp hm).symm)
  · intro p
    rw [he]
    simp only [List.mem_cons, List.mem_append]
    tauto

/-- the search gives up when it is back at `freep`, past blocks that are all too small -/
theorem findLoop_spec (l : List Nat) : ∀ {prev p : Nat} (fuel : Nat), s.ptr prev = p →
    Seg s.ptr p (l ++ [s.freep]) q →
    (findLoop s n fuel prev p = none ∧ fuel ≤ l.length) ∨
      (findLoop s n fuel prev p = some (0, s) ∧
        (s.freep ∉ l → ∀ x ∈ s.freep :: l, s.size x < n)) ∨
      ∃ x, (x = prev ∨ x ∈ l) ∧ n ≤ s.size (s.ptr x) ∧
        findLoop s n fuel prev p = some (takeUnits s x (s.ptr x) n) := by
  induction l with
  | nil =>
    intro prev p fuel hp h
    cases fuel with
    | zero => exact Or.inl ⟨rfl, Nat.le_refl _⟩
    | succ fuel =>
      refine Or.inr ?_
      by_cases hn : n ≤ s.size p
      · refine Or.inr ⟨prev, Or.inl rfl, by rw [hp]; exact hn, ?_⟩
        rw [hp]
        exact if_pos hn
      · refine Or.inl ⟨(if_neg hn).trans (if_pos h.1), fun _ x hx => ?_⟩
        rw [List.mem_singleton.mp hx, ← h.1]
        exact Nat.lt_of_not_le hn
  | cons b l ih =>
    intro prev p fuel hp h
    obtain ⟨hb, hl⟩ := h
    cases fuel with
    | zero => exact Or.inl ⟨rfl, Nat.zero_le _⟩
    | succ fuel =>
      by_cases hn : n ≤ s.size p
      · refine Or.inr (Or.inr ⟨prev, Or.inl rfl, by rw [hp]; exact hn, ?_⟩)
        rw [hp]
        exact if_pos hn
      by_cases hf : p = s.freep
      · refine Or.inr (Or.inl ⟨(if_neg hn).trans (if_pos hf), fun hout => ?_⟩)
        rw [← hf, hb] at hout
        exact absurd List.mem_cons_self hout
      · have hstep : findLoop s n (fuel + 1) prev p = findLoop s n fuel p (s.ptr p) :=
          (if_neg hn).trans (if_neg hf)
        rw [hstep]
        rw [hb]
        rcases ih fuel rfl hl with ⟨hr, hle⟩ | ⟨hr, hsmall⟩ | ⟨x, hx, hsize, hr⟩
        · exact Or.inl ⟨hr, Nat.succ_le_succ hle⟩
        · refine Or.inr (Or.inl ⟨hr, fun hout => ?_⟩)
          have hall := hsmall fun hm => hout (List.mem_cons_of_mem _ hm)
          obtain ⟨hfirst, hrest⟩ := List.forall_mem_cons.mp hall
          refine List.forall_mem_cons.mpr ⟨hfirst, List.forall_mem_cons.mpr ⟨?_, hrest⟩⟩
          rw [← hb]
          exact Nat.lt_of_not_le hn
        · refine Or.inr (Or.inr ⟨x, Or.inr ?_, hsize, hr⟩)
          rcases hx with rfl | hx
          · exact List.mem_cons_self
          · exact List.mem_cons_of_mem _ hx

/-! ## `mm_alloc` -/

/-- the end of the call -/
def charge (s : FirstFit) (prevp n : Nat) : FirstFit :=
  { s with
    freep := prevp
    freeMemSize := wrap64 (s.freeMemSize + 18446744073709551616 - wrap64 (n * unitSize)) }

/-- a live block more, at the pointer that is returned -/
structure Given (s : FirstFit) (lo hi : Nat) (V : List (Nat × Nat)) (n : Nat) (r : Nat × FirstFit) :
    Prop where
  strung : ∃ b f, r.1 = b + 16 ∧ Strung r.2 lo hi f ((b, n) :: V)
  base : r.2.base = s.base
  total : r.2.totalMemSize = s.totalMemSize
  freeMem : r.2.freeMemSize = (s.charge 0 n).freeMemSize
  intact : ∀ x ∈ V, Intact s.mem r.2.mem x

theorem ptr_lt (s : FirstFit) (p : Nat) : s.ptr p < 18446744073709551616 := load64_lt _ _

theorem Spread.plus_one (h : Spread a lo hi f R) (hx : x ∈ R ++ f) : plus x.1 1 = x.1 + 16 := by
  have h1 := h.inside hx
  have h2 := h.pos hx
  have h3 := h.bound
  exact wrap64_of_lt (show x.1 + 1 * 16 < _ by omega)

theorem takeUnits_exact (h : Strung s lo hi f V) (hf : nodes s.base f = A ++ x :: y :: B)
    (hn : y.2 = n) : Given s lo hi V n (takeUnits s x.1 y.1 n) := by
  obtain ⟨f', hf', hsp⟩ := h.spread.take hf
  have hxm := mem_nodes hf'
  have hxm' := List.mem_append_right (y :: V) hxm
  have hym : y ∈ V ++ nodes s.base f := by
    rw [hf]
    simp
  have hne : y.1 ≠ x.1 := hsp.ne List.mem_cons_self hxm
  have hsize : s.size y.1 = n := (h.sizes y hym).trans hn
  have hptr : plus y.1 1 = y.1 + 16 := hsp.plus_one List.mem_cons_self
  have hstep : takeUnits s x.1 y.1 n = (y.1 + 16, (s.setPtr x.1 (s.ptr y.1)).charge x.1 n) := by
    unfold takeUnits
    simp only [if_pos hsize, hptr]
    rfl
  rw [hstep]
  have hperm := perm_blocks (R := V) hf hf'
  refine ⟨⟨y.1, f', rfl, hn ▸ hsp, ?_, ?_, List.mem_map_of_mem hxm⟩, rfl, rfl, rfl, ?_⟩
  · have hr := h.ring
    show Seg (s.setPtr x.1 (s.ptr y.1)).ptr s.base ((nodes s.base f').map Prod.fst) s.base
    rw [hf', List.map_append, List.map_cons]
    rw [hf, List.map_append, List.map_cons, List.map_cons] at hr
    refine hr.unlink (ptr_setPtr (s.ptr_lt _)) ?_
    intro q hq
    rw [← List.map_append] at hq
    obtain ⟨z, hz, rfl⟩ := List.mem_map.mp hq
    obtain ⟨hzm, hzx⟩ := hsp.others hf' hz
    exact ptr_setPtr_far (hsp.far hxm' (List.mem_append_right _ hzm) hzx)
  · rw [← hn]
    exact hsp.sizes_setPtr hxm' fun z hz => h.sizes z (hperm.mem_iff.mpr hz)
  · intro z hz
    have hz' : z ∈ y :: V := List.mem_cons_of_mem _ hz
    exact hsp.intact_setPtr hxm' (List.mem_append_left _ hz') (hsp.ne hz' hxm).symm

/-- the upper part of the block at `p` -/
theorem takeUnits_split (h : Strung s lo hi f V)
    (hf : nodes s.base f = A ++ x :: (p, k + n) :: B) (hk : 0 < k) (hn : 0 < n) :
    Given s lo hi V n (takeUnits s x.1 p n) := by
  obtain ⟨f₀, hf₀, hsp₀⟩ := h.spread.take hf
  have hmem : (p, k + n) ∈ V ++ nodes s.base f := by
    rw [hf]
    simp
  have hin : lo ≤ p ∧ p + (k + n) * 16 ≤ hi := hsp₀.inside List.mem_cons_self
  have hbound := h.spread.bound
  have ho := h.spread.order
  rw [hf] at ho
  obtain ⟨hx, hB⟩ := List.pairwise_cons.mp (List.pairwise_append.mp ho).2.1
  have hxp : Before x (p, k) := hx (p, k + n) List.mem_cons_self
  have hpB : ∀ z ∈ B, Before (p, k) z := by
    intro z hz
    have hpz := (List.pairwise_cons.mp hB).1 z hz
    simp only [Before] at hpz ⊢
    omega
  obtain ⟨f', hf', hsp⟩ := ((spread_cut hk hn).mp hsp₀).put hf₀ hxp hpB
  have hpm : (p, k) ∈ nodes s.base f' := by
    rw [hf']
    simp
  have hpm' := List.mem_append_right ((p + k * 16, n) :: V) hpm
  have hbm : (p + k * 16, n) ∈ (p + k * 16, n) :: V ++ nodes s.base f' := List.mem_cons_self
  have hsize : s.size p = k + n := h.sizes _ hmem
  have hstep : takeUnits s x.1 p n
      = (p + k * 16 + 16, ((s.setSize p k).setSize (p + k * 16) n).charge x.1 n) := by
    have h1 : wrap64 (s.size p + 18446744073709551616 - n) = k := by
      unfold wrap64
      omega
    have h2 : (s.setSize p k).size p = k := size_setSize (by omega)
    have h3 : plus p k = p + k * 16 := wrap64_of_lt (show p + k * 16 < _ by omega)
    have h4 : plus (p + k * 16) 1 = p + k * 16 + 16 :=
      hsp.plus_one (x := (p + k * 16, n)) List.mem_cons_self
    unfold takeUnits charge
    simp only [if_neg (show ¬ s.size p = n by omega), h1, h2, h3, h4]
  rw [hstep]
  -- the two parts have their sizes, and the others have been there before
  have hsizes : ∀ z ∈ (p + k * 16, n) :: V ++ nodes s.base f',
      ((s.setSize p k).setSize (p + k * 16) n).size z.1 = z.2 := by
    refine Spread.sizes_setSize (s := s.setSize p k) (x := (p + k * 16, n)) hsp hbm
      (show n < _ by omega) fun z hz hzb => ?_
    by_cases hzp : (p, k).1 = z.1
    · obtain rfl := hsp.same_start hpm' hz hzp
      exact size_setSize (show k < _ by omega)
    rw [size_setSize_far (hsp.far hpm' hz hzp)]
    have hz₁ : z ∈ (p + k * 16, n) :: V ++ nodes s.base f' := hz
    rcases List.mem_cons.mp ((perm_blocks hf' hf₀).mem_iff.mp hz₁) with rfl | hz₁
    · exact absurd rfl hzp
    rcases List.mem_cons.mp hz₁ with rfl | hz₁
    · exact absurd rfl hzb
    · exact h.sizes z ((perm_blocks hf hf₀).mem_iff.mpr (List.mem_cons_of_mem _ hz₁))
  refine ⟨⟨p + k * 16, f', rfl, hsp, ?_, ?_, ?_⟩, rfl, rfl, rfl, ?_⟩
  · show Seg ((s.setSize p k).setSize (p + k * 16) n).ptr s.base ((nodes s.base f').map Prod.fst) s.base
    have haddr : (nodes s.base f').map Prod.fst = (nodes s.base f).map Prod.fst := by
      rw [hf, hf']
      simp
    have hr := h.ring
    rw [← haddr] at hr
    refine seg_congr hr fun z hz => ?_
    have hz' := List.mem_append_right ((p + k * 16, n) :: V) hz
    rw [ptr_setSize (hsp.eq_or_far hbm hz'), ptr_setSize (hsp.eq_or_far hpm' hz')]
  · exact hsizes
  · exact List.mem_map_of_mem (mem_nodes hf')
  · intro z hz
    have hz' : z ∈ (p + k * 16, n) :: V := List.mem_cons_of_mem _ hz
    have hzb : (p + k * 16, n).1 ≠ z.1 := hsp.head_ne hz
    have h1 : Intact s.mem (s.setSize p k).mem z :=
      hsp.intact_setSize hpm' (List.mem_append_left _ hz') (hsp.ne hz' hpm).symm
    have h2 : Intact (s.setSize p k).mem ((s.setSize p k).setSize (p + k * 16) n).mem z :=
      Spread.intact_setSize (s := s.setSize p k) hsp hbm (List.mem_append_left _ hz') hzb
    exact h1.trans h2

theorem requestUnits_pos (nbytes : Nat) : 0 < requestUnits nbytes := by
  unfold requestUnits
  simp only
  split <;> omega

/-- **`mm_alloc`**: the call has not ended, there is no block that is large enough, or one has been
taken. -/
theorem mmAlloc_spec (fuel nbytes : Nat) (h : Strung s lo hi f V) :
    (mmAlloc fuel s nbytes = none ∧ fuel ≤ f.length) ∨
      (mmAlloc fuel s nbytes = some (0, s) ∧ (nbytes = 0 ∨ ∀ x ∈ f, x.2 < requestUnits nbytes)) ∨
      ∃ r, mmAlloc fuel s nbytes = some r ∧ Given s lo hi V (requestUnits nbytes) r := by
  by_cases h0 : nbytes = 0
  · exact Or.inr (Or.inl ⟨if_pos h0, Or.inl h0⟩)
  have hstep : mmAlloc fuel s nbytes
      = findLoop s (requestUnits nbytes) fuel s.freep (s.ptr s.freep) := if_neg h0
  rw [hstep]
  obtain ⟨l, hl, hlen, hout, hmem⟩ := h.around
  have hseg : Seg s.ptr (s.ptr s.freep) (l ++ [s.freep]) (s.ptr s.freep) :=
    seg_append.mpr ⟨s.freep, hl.2, rfl, rfl⟩
  have hpos := requestUnits_pos nbytes
  rcases findLoop_spec (n := requestUnits nbytes) l fuel rfl hseg with
    ⟨hr, hle⟩ | ⟨hr, hsmall⟩ | ⟨q, hq, hsize, hr⟩
  · exact Or.inl ⟨hr, by omega⟩
  · refine Or.inr (Or.inl ⟨hr, Or.inr fun x hx => ?_⟩)
    have hx' : x ∈ nodes s.base f := List.mem_cons_of_mem _ hx
    rw [← h.sizes x (List.mem_append_right _ hx')]
    exact hsmall hout x.1 ((hmem x.1).mpr (List.mem_map_of_mem hx'))
  · refine Or.inr (Or.inr ⟨_, hr, ?_⟩)
    have hq' : q ∈ s.freep :: l := List.mem_cons.mpr hq
    obtain ⟨x, hx, rfl⟩ := List.mem_map.mp ((hmem q).mp hq')
    obtain ⟨A, B, hf⟩ := List.append_of_mem hx
    have hnext := (h.next hf).2
    cases B with
    | nil =>
      -- `base` has no units to give
      have hptr : s.ptr x.1 = s.base := hnext
      have hbase : s.size s.base = 0 :=
        h.sizes (s.base, 0) (List.mem_append_right _ List.mem_cons_self)
      rw [hptr] at hsize
      omega
    | cons y B =>
      have hptr : s.ptr x.1 = y.1 := hnext.1
      have hy : s.size y.1 = y.2 := by
        apply h.sizes
        rw [hf]
        simp
      rw [hptr] at hsize ⊢
      by_cases he : y.2 = requestUnits nbytes
      · exact takeUnits_exact h hf he
      · have hsplit : y = (y.1, y.2 - requestUnits nbytes + requestUnits nbytes) :=
          Prod.ext rfl (by show y.2 = _; omega)
        rw [hsplit] at hf
        exact takeUnits_split h hf (by omega) hpos

end

end FirstFit

end Tp2So
