import Tp2So.Lib.Gaps
import Tp2So.Memory.FirstFitRequests

/-!
# The space of the first-fit manager

Joining on every `mm_free` keeps the free blocks apart from each other, so that they are the maximal
runs of units that no live block holds.

* `Spread.same_free`     the free blocks, in their order, depend on the live ones alone;
* `MaximalRun`           a run of units between live blocks, or the ends of the region;
* `Spread.run_iff`       these are the free blocks;
* `mmAlloc_fails_iff`    a call fails exactly when no such run is long enough.
-/

set_option linter.unusedVariables false

namespace Tp2So

namespace FirstFit

/-- the unit `u` of the region is in no block of `L` -/
def UnitFree (lo hi : Nat) (L : List (Nat × Nat)) (u : Nat) : Prop :=
  lo + (u + 1) * unitSize ≤ hi ∧
    ∀ x ∈ L, ¬ (x.1 ≤ lo + u * unitSize ∧ lo + u * unitSize < x.1 + x.2 * unitSize)

/-- the `k` units from `i` on are free, and the unit on either side is not -/
structure MaximalRun (lo hi : Nat) (L : List (Nat × Nat)) (i k : Nat) : Prop where
  pos : 0 < k
  free : ∀ u, i ≤ u → u < i + k → UnitFree lo hi L u
  below : i = 0 ∨ ¬ UnitFree lo hi L (i - 1)
  above : ¬ UnitFree lo hi L (i + k)

section
variable {s : FirstFit} {base lo hi start n nbytes i k : Nat} {f f' V V' L : List (Nat × Nat)}
  {x y : Nat × Nat} {t : Client FirstFit}

/-! ## the free blocks -/

theorem Spread.gapped (h : Spread base lo hi f V) : Gapped (f.map bytes) := by
  intro z hz w hw
  obtain ⟨x, hx, rfl⟩ := List.mem_map.mp hz
  obtain ⟨y, hy, rfl⟩ := List.mem_map.mp hw
  have hne := h.gaps hx hy
  exact hne

theorem Spread.tiling' (h : Spread base lo hi f V) : Tiling lo hi (V.map bytes ++ f.map bytes) := by
  rw [← List.map_append]
  exact h.tiling

theorem bytes_inj (h : bytes x = bytes y) : x = y := by
  obtain ⟨h1, h2⟩ := Prod.mk.inj h
  exact Prod.ext h1 (by omega)

theorem Spread.sorted (h : Spread base lo hi f V) : f.Pairwise fun x y => x.1 < y.1 := by
  refine (List.pairwise_cons.mp h.order).2.imp ?_
  intro x y hxy
  unfold Before at hxy
  omega

/-- **The live blocks decide what the ring is.** -/
theorem Spread.same_free (h : Spread base lo hi f V) (h' : Spread base lo hi f' V')
    (hV : ∀ z, z ∈ V ↔ z ∈ V') : f = f' := by
  have hone : ∀ {f f' V V' : List (Nat × Nat)}, Spread base lo hi f V → Spread base lo hi f' V' →
      (∀ z, z ∈ V ↔ z ∈ V') → ∀ x ∈ f, x ∈ f' := by
    intro f f' V V' h h' hV x hx
    have hmem : ∀ z, z ∈ V.map bytes ↔ z ∈ V'.map bytes := by
      intro z
      simp only [List.mem_map, hV]
    have hx' := h.tiling'.same_free h'.tiling' h.gapped h'.gapped hmem (List.mem_map_of_mem hx)
    obtain ⟨y, hy, he⟩ := List.mem_map.mp hx'
    rw [← bytes_inj he]
    exact hy
  have hnodup : ∀ {f V : List (Nat × Nat)}, Spread base lo hi f V → f.Nodup := by
    intro f V h
    refine h.sorted.imp ?_
    rintro x y hxy rfl
    exact Nat.lt_irrefl _ hxy
  have hperm : f.Perm f' := (List.perm_ext_iff_of_nodup (hnodup h) (hnodup h')).mpr fun x =>
    ⟨hone h h' hV x, hone h' h (fun z => (hV z).symm) x⟩
  refine hperm.eq_of_pairwise (fun x y _ _ h1 h2 => ?_) h.sorted h'.sorted
  exact absurd h1 (Nat.lt_asymm h2)

/-! ## runs of units -/

/-- blocks begin with a unit of the region -/
theorem Spread.aligned (h : Spread base lo hi f V) (hx : x ∈ V ++ f) : ∃ u, x.1 = lo + u * 16 := by
  have hin := h.inside hx
  have hdvd := h.tiling.aligned (d := 16) (by
    intro y hy
    obtain ⟨y, -, rfl⟩ := List.mem_map.mp hy
    exact ⟨y.2, Nat.mul_comm _ _⟩) (bytes x) (List.mem_map_of_mem hx)
  obtain ⟨u, hu⟩ := hdvd
  have hu' : x.1 - lo = 16 * u := hu
  exact ⟨u, by omega⟩

theorem Spread.run_inside (h : Spread base lo hi f V) (hk : 0 < k)
    (hfree : ∀ u, i ≤ u → u < i + k → UnitFree lo hi V u) :
    ∃ x ∈ f, x.1 ≤ lo + i * 16 ∧ lo + (i + k) * 16 ≤ x.1 + x.2 * 16 := by
  have hlast : lo + (i + k - 1 + 1) * 16 ≤ hi := (hfree (i + k - 1) (by omega) (by omega)).1
  have hgap := h.tiling'.gap h.gapped (a := lo + i * 16) (n := k * 16) (by omega) (by omega) (by omega) (by
    intro z hz
    obtain ⟨x, hx, rfl⟩ := List.mem_map.mp hz
    obtain ⟨v, hv⟩ := h.aligned (List.mem_append_left f hx)
    have hpos := h.pos (List.mem_append_left f hx)
    by_contra hap
    simp only [Apart, bytes] at hap
    -- the first unit of the run that the block holds
    have hin : ∃ u, i ≤ u ∧ u < i + k ∧ v ≤ u ∧ u < v + x.2 := by
      by_cases hle : i ≤ v
      · exact ⟨v, hle, by omega, Nat.le_refl _, by omega⟩
      · exact ⟨i, Nat.le_refl _, by omega, by omega, by omega⟩
    obtain ⟨u, h1, h2, h3, h4⟩ := hin
    refine (hfree u h1 h2).2 x hx ?_
    show x.1 ≤ lo + u * 16 ∧ lo + u * 16 < x.1 + x.2 * 16
    omega)
  obtain ⟨z, hz, h1, h2⟩ := hgap
  obtain ⟨x, hx, rfl⟩ := List.mem_map.mp hz
  have h1' : x.1 ≤ lo + i * 16 := h1
  have h2' : lo + i * 16 + k * 16 ≤ x.1 + x.2 * 16 := h2
  exact ⟨x, hx, h1', by omega⟩

theorem Spread.maximalRun (h : Spread base lo hi f V) (hx : x ∈ f) :
    ∃ i, x.1 = lo + i * 16 ∧ MaximalRun lo hi V i x.2 := by
  have hxm := List.mem_append_right V hx
  have hin := h.inside hxm
  have hpos := h.pos hxm
  obtain ⟨i, hi'⟩ := h.aligned hxm
  refine ⟨i, hi', hpos, fun u h1 h2 => ⟨?_, fun z hz hin' => ?_⟩, ?_, ?_⟩
  · show lo + (u + 1) * 16 ≤ hi
    omega
  · have hap := h.tiling'.free_apart (List.mem_map_of_mem hx) (List.mem_map_of_mem hz)
    have hin'' : z.1 ≤ lo + u * 16 ∧ lo + u * 16 < z.1 + z.2 * 16 := hin'
    simp only [Apart, bytes] at hap
    omega
  · by_cases h0 : i = 0
    · exact Or.inl h0
    · refine Or.inr fun hfree => ?_
      obtain ⟨z, hz, hend⟩ := h.tiling'.before h.gapped (List.mem_map_of_mem hx)
        (show lo < x.1 by omega)
      obtain ⟨y, hy, rfl⟩ := List.mem_map.mp hz
      have hypos := h.pos (List.mem_append_left f hy)
      have hend' : y.1 + y.2 * 16 = x.1 := hend
      refine hfree.2 y hy ?_
      show y.1 ≤ lo + (i - 1) * 16 ∧ lo + (i - 1) * 16 < y.1 + y.2 * 16
      omega
  · intro hfree
    have hle : lo + (i + x.2 + 1) * 16 ≤ hi := hfree.1
    obtain ⟨z, hz, hend⟩ := h.tiling'.after h.gapped (List.mem_map_of_mem hx)
      (show x.1 + x.2 * 16 < hi by omega)
    obtain ⟨y, hy, rfl⟩ := List.mem_map.mp hz
    have hypos := h.pos (List.mem_append_left f hy)
    have hend' : x.1 + x.2 * 16 = y.1 := hend
    refine hfree.2 y hy ?_
    show y.1 ≤ lo + (i + x.2) * 16 ∧ lo + (i + x.2) * 16 < y.1 + y.2 * 16
    omega

theorem Spread.run_iff (h : Spread base lo hi f V) :
    (∃ i k, MaximalRun lo hi V i k ∧ n ≤ k) ↔ ∃ x ∈ f, n ≤ x.2 := by
  constructor
  · rintro ⟨i, k, hr, hle⟩
    obtain ⟨x, hx, h1, h2⟩ := h.run_inside hr.pos hr.free
    exact ⟨x, hx, by omega⟩
  · rintro ⟨x, hx, hle⟩
    obtain ⟨i, -, hr⟩ := h.maximalRun hx
    exact ⟨i, x.2, hr, hle⟩

/-- the runs depend on which blocks are live, not on their order -/
theorem unitFree_congr (hV : ∀ z, z ∈ V ↔ z ∈ V') (u : Nat) :
    UnitFree lo hi V u ↔ UnitFree lo hi V' u := by
  unfold UnitFree
  simp only [hV]

theorem MaximalRun.congr (h : MaximalRun lo hi V i k) (hV : ∀ z, z ∈ V ↔ z ∈ V') :
    MaximalRun lo hi V' i k :=
  ⟨h.pos, fun u h1 h2 => (unitFree_congr hV u).mp (h.free u h1 h2),
    h.below.imp_right fun hn hf => hn ((unitFree_congr hV _).mpr hf),
    fun hf => h.above ((unitFree_congr hV _).mpr hf)⟩

/-! ## calls -/

/-- **A call fails only for lack of space**: it returns, and with NULL exactly when no maximal run of
free units has the units of the request, wherever `freep` stands. -/
theorem mmAlloc_fails_iff {os : List MemOp} (s : FirstFit) (hn : 16 ≤ n) (hb : s.base + 16 ≤ start)
    (hbound : start + n / 16 * 16 < 18446744073709551616)
    (h : Runs (execMem manager) (fun o _ => o.isCall) os (.start (s.mmInit start n)) t)
    (h0 : 0 < nbytes) (hs : nbytes + 15 < 18446744073709551616) :
    ∃ N, ∀ fuel, N ≤ fuel → ∃ r, mmAlloc fuel t.s nbytes = some r ∧
      (r.1 = 0 ↔ ¬ ∃ i k, MaximalRun start (start + n / 16 * 16) (liveBlocks t) i k ∧
        requestUnits nbytes ≤ k) := by
  obtain ⟨f, V, hh⟩ := held_run s hn hb hbound h
  have hstr := hh.strung
  have hmem : ∀ z, z ∈ V ↔ z ∈ liveBlocks t := fun z => hh.liveBlocks.mem_iff
  have hruns : (∃ i k, MaximalRun start (start + n / 16 * 16) (liveBlocks t) i k ∧
      requestUnits nbytes ≤ k) ↔ ∃ x ∈ f, requestUnits nbytes ≤ x.2 := by
    rw [← hstr.spread.run_iff]
    constructor
    · rintro ⟨i, k, hr, hle⟩
      exact ⟨i, k, hr.congr fun z => (hmem z).symm, hle⟩
    · rintro ⟨i, k, hr, hle⟩
      exact ⟨i, k, hr.congr hmem, hle⟩
  refine ⟨f.length + 1, fun fuel hf => ?_⟩
  rw [hruns]
  rcases mmAlloc_spec fuel nbytes hstr with ⟨-, hle⟩ | ⟨hr, hsmall⟩ | ⟨r, hr, hg⟩
  · omega
  · have hall := hsmall.resolve_left (Nat.pos_iff_ne_zero.mp h0)
    refine ⟨_, hr, fun _ hex => ?_, fun _ => rfl⟩
    obtain ⟨x, hx, hle⟩ := hex
    exact absurd (hall x hx) (Nat.not_lt.mpr hle)
  · refine ⟨r, hr, fun hz => ?_, fun hno => ?_⟩
    · have hge := hg.header.1
      omega
    · -- the units of the new block were in a free one
      obtain ⟨b, f', -, hstr'⟩ := hg.strung
      have hsp' := hstr'.spread
      have hbm : (b, requestUnits nbytes) ∈ (b, requestUnits nbytes) :: V ++ f' := List.mem_cons_self
      have hin := hsp'.inside hbm
      have hpos := requestUnits_pos nbytes
      obtain ⟨z, hz, h1, h2⟩ := hstr.spread.tiling'.gap hstr.spread.gapped (a := b)
        (n := requestUnits nbytes * 16) (by omega) hin.1 hin.2 (by
          intro z hz
          obtain ⟨v, hv, rfl⟩ := List.mem_map.mp hz
          exact (hsp'.tiling.head_apart (List.mem_map_of_mem (List.mem_append_left f' hv))).symm)
      obtain ⟨x, hx, rfl⟩ := List.mem_map.mp hz
      have h1' : x.1 ≤ b := h1
      have h2' : b + requestUnits nbytes * 16 ≤ x.1 + x.2 * 16 := h2
      exact absurd ⟨x, hx, by omega⟩ hno

end

/-- a call for no bytes gets NULL, with all sixteen units in one run -/
theorem mmAlloc_zero_fails :
    Runs (execMem manager) (fun o _ => o.isCall) [] (.start (blank.mmInit 4096 256))
      (.start (blank.mmInit 4096 256)) ∧
    (∀ fuel, (mmAlloc fuel (blank.mmInit 4096 256) 0).map Prod.fst = some 0) ∧
    ∃ i k, MaximalRun 4096 4352 (liveBlocks (.start (blank.mmInit 4096 256))) i k ∧
      requestUnits 0 ≤ k := by
  refine ⟨rfl, fun fuel => rfl, 0, 16, ⟨by decide, fun u h1 h2 => ⟨?_, ?_⟩, Or.inl rfl, ?_⟩, by decide⟩
  · show 4096 + (u + 1) * 16 ≤ 4352
    omega
  · exact fun x hx => absurd hx List.not_mem_nil
  · intro hfree
    exact absurd hfree.1 (by decide)

theorem mmAlloc_fails_threeBlocks : ∃ t, Runs (execMem manager) (fun o _ => o.isCall) threeBlocks
      (.start (blank.mmInit 4096 256)) t ∧
      ∃ N, ∀ fuel, N ≤ fuel → ∃ r, mmAlloc fuel t.s 100 = some r ∧
        (r.1 = 0 ↔ ¬ ∃ i k, MaximalRun 4096 4352 (liveBlocks t) i k ∧ requestUnits 100 ≤ k) := by
  have hrun : (runIf (execMem manager) (fun o _ => o.isCall) threeBlocks
      (.start (blank.mmInit 4096 256))).map (fun t => t.live) = some [] := by
    decide +kernel
  obtain ⟨t, ht, -⟩ := Option.map_eq_some_iff.mp hrun
  have h := runs_of_runIf ht
  have hpos : 0 < 100 := by decide
  exact ⟨t, h, mmAlloc_fails_iff blank (by decide) (by decide) (by decide) h hpos (by decide)⟩

end FirstFit

end Tp2So
