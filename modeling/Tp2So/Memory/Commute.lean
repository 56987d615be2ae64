import Tp2So.Memory.Inverse

/-!
# The order of `mm_free` calls

Two runs that give the same blocks back, in different orders, join different neighbours on the way.
They end with the same live blocks, and these decide which blocks are free.

* `Releases`           one `mm_free` of a live block, for any manager;
* `Releases.run`       many of them, in any order;
* `Buddy.Laid.same_free`, `FirstFit.Spread.same_free`   the free blocks are a function of the live ones;
* `Releases.commutes`   two orders, for blocks that are a function of the live ones;
* `mmFree_commutes`    both managers, in every run.
-/

set_option linter.unusedVariables false

namespace Tp2So

/-- the pointers `ps`, given back one after the other -/
def freeAll (fuel : Nat) (ps : List Nat) : List MemOp := ps.map (.free fuel)

/-- `H t V` says that the live blocks are `V`, each with its pointer `d` bytes on; fuel `N` is enough
for a call -/
structure Releases {σ : Type} (M : Manager σ) (d N : Nat)
    (H : Client σ → List (Nat × Nat) → Prop) : Prop where
  nodup : ∀ {t V}, H t V → (V.map Prod.fst).Nodup
  free : ∀ {t V y fuel}, H t V → y ∈ V → N ≤ fuel →
    ∃ t', execMem M (.free fuel (y.1 + d)) t = some t' ∧ H t' (V.erase y)

section
variable {σ : Type} {M : Manager σ} {d N fuel ptr : Nat} {H : Client σ → List (Nat × Nat) → Prop}
  {t : Client σ}

theorem execMem_free_some (hptr : ptr ∈ t.live.map Prod.fst)
    (hs : (M.free fuel t.s ptr).isSome = true) : ∃ t', execMem M (.free fuel ptr) t = some t' := by
  obtain ⟨x, hx, rfl⟩ := List.mem_map.mp hptr
  have hfind : (t.live.find? fun y => decide (y.1 = x.1)).isSome = true :=
    List.find?_isSome.mpr ⟨x, hx, decide_eq_true rfl⟩
  obtain ⟨y, hy⟩ := Option.isSome_iff_exists.mp hfind
  obtain ⟨s', hs'⟩ := Option.isSome_iff_exists.mp hs
  refine ⟨{ t with s := s', live := t.live.erase y }, ?_⟩
  show (t.live.find? _).bind _ = _
  rw [hy, Option.bind_some, hs']
  rfl

/-- **The live blocks after many calls** are those whose pointers were not given back. -/
theorem Releases.run (R : Releases M d N H) (hf : N ≤ fuel) (ps : List Nat) :
    ∀ {t : Client σ} {V : List (Nat × Nat)}, H t V → ps.Nodup →
    (∀ p ∈ ps, ∃ y ∈ V, y.1 + d = p) →
    ∃ t' V', Runs (execMem M) (fun o _ => o.isCall) (freeAll fuel ps) t t' ∧ H t' V' ∧
      ∀ z, z ∈ V' ↔ z ∈ V ∧ z.1 + d ∉ ps := by
  induction ps with
  | nil =>
    intro t V h hnd hps
    exact ⟨t, V, rfl, h, fun z => ⟨fun hz => ⟨hz, List.not_mem_nil⟩, fun hz => hz.1⟩⟩
  | cons p ps ih =>
    intro t V h hnd hps
    obtain ⟨hp, hnd'⟩ := List.nodup_cons.mp hnd
    obtain ⟨y, hy, rfl⟩ := hps p List.mem_cons_self
    obtain ⟨u, hu, hH⟩ := R.free h hy hf
    have hfst := R.nodup h
    have hV : V.Nodup := List.Nodup.of_map _ hfst
    -- a block is known by where it begins
    have hat : ∀ z ∈ V, z.1 = y.1 → z = y := fun z hz e =>
      List.inj_on_of_nodup_map hfst hz hy e
    obtain ⟨t', V', hrun, hH', hmem⟩ := ih hH hnd' fun q hq => by
      obtain ⟨z, hz, rfl⟩ := hps q (List.mem_cons_of_mem _ hq)
      have hne : z ≠ y := by
        rintro rfl
        exact hp hq
      exact ⟨z, (hV.mem_erase_iff).mpr ⟨hne, hz⟩, rfl⟩
    refine ⟨t', V', ⟨rfl, u, hu, hrun⟩, hH', fun z => ?_⟩
    rw [hmem, hV.mem_erase_iff, List.mem_cons, not_or]
    constructor
    · rintro ⟨⟨hne, hz⟩, hnot⟩
      exact ⟨hz, fun e => hne (hat z hz (by omega)), hnot⟩
    · rintro ⟨hz, hne, hnot⟩
      refine ⟨⟨?_, hz⟩, hnot⟩
      rintro rfl
      exact hne rfl

end

/-! ## the buddy system -/

namespace Buddy

/-- there is a free block of `size` bytes at `a` -/
def FreeBlock (s : Buddy) (a size : Nat) : Prop :=
  ∃ k l, k ≤ maxOrder ∧ Listed s k l ∧ a ∈ l ∧ size = blockSize k

section
variable {s s' : Buddy} {F F' : Nat → List Nat} {V V' : List (Nat × Nat)}
  {a base total size : Nat} {x : Nat × Nat} {t : Client Buddy}

theorem Laid.freeBlock_iff (h : Laid s F V []) :
    FreeBlock s a size ↔ ∃ x ∈ blocksOf F, span x = (a, size) := by
  constructor
  · rintro ⟨k, l, hk, hl, ha, rfl⟩
    rw [hl.unique (h.listed hk)] at ha
    exact ⟨(a, k), mem_blocksOf.mpr ⟨hk, ha⟩, rfl⟩
  · rintro ⟨x, hx, he⟩
    obtain ⟨rfl, rfl⟩ := Prod.mk.inj he
    obtain ⟨hk, hmem⟩ := mem_blocksOf.mp hx
    exact ⟨x.2, F x.2, hk, h.listed hk, hmem, rfl⟩

theorem Laid.tiling (h : Laid s F V []) :
    Tiling s.startAddr (s.startAddr + s.totalManagedBytes) (V.map span ++ (blocksOf F).map span) := by
  have ht := h.ground.tiling
  rw [List.nil_append, List.map_append] at ht
  exact ht

/-- a free block lies in a free block of any other state with the same live blocks -/
theorem Laid.inside (h : Laid s F V []) (h' : Laid s' F' V' []) (hr : s.SameRegion s')
    (hV : ∀ z, z ∈ V' → z ∈ V) : ∀ y ∈ (blocksOf F).map span,
    ∃ z ∈ (blocksOf F').map span, z.1 ≤ y.1 ∧ y.1 + y.2 ≤ z.1 + z.2 := by
  intro y hy
  obtain ⟨x, hx, rfl⟩ := List.mem_map.mp hy
  have hm : x ∈ [] ++ (V ++ blocksOf F) := List.mem_append_right V hx
  have hin := h.ground.inside hm
  obtain ⟨z, hz, h1, h2⟩ := h'.region x.2 (a := x.1)
    (by rw [hr.1, hr.2]; exact ⟨hin.1, hin.2, h.ground.aligned x hm⟩)
    (fun z hz => h.tiling.free_apart hy (List.mem_map_of_mem (hV z hz)))
  exact ⟨span z, List.mem_map_of_mem hz, h1, h2⟩

/-- **The live blocks decide which blocks are free.** -/
theorem Laid.same_free (h : Laid s F V []) (h' : Laid s' F' V' []) (hr : s.SameRegion s')
    (hV : ∀ z, z ∈ V ↔ z ∈ V') : FreeBlock s a size ↔ FreeBlock s' a size := by
  have hr' : s'.SameRegion s := ⟨hr.1.symm, hr.2.symm⟩
  have hto := h.inside h' hr fun z => (hV z).mpr
  have hback := h'.inside h hr' fun z => (hV z).mp
  rw [h.freeBlock_iff, h'.freeBlock_iff, ← List.mem_map, ← List.mem_map]
  exact ⟨h.tiling.squeeze hto hback, h'.tiling.squeeze hback hto⟩

theorem releases (base total : Nat) :
    Releases manager metadataSize (total + 1) fun t V => ∃ F, Held base total t F V := by
  constructor
  · rintro t V ⟨F, h⟩
    have hnd := h.laid.ground.nodup
    rw [List.nil_append, List.map_append] at hnd
    exact (List.nodup_append.mp hnd).1
  · rintro t V y fuel ⟨F, h⟩ hy hf
    have hlen : (blocksOf F).length ≤ total := by
      have hle := h.laid.tiling.length_le
      rw [List.length_append, List.length_map, List.length_map, h.total] at hle
      omega
    have hptr : y.1 + metadataSize ∈ t.live.map Prod.fst :=
      h.live.mem_iff.mp (List.mem_map_of_mem (f := fun x : Nat × Nat => x.1 + metadataSize) hy)
    obtain ⟨t', ht⟩ := execMem_free_some (M := manager) hptr
      ((mmFree_spec fuel h.laid (List.perm_cons_erase hy)).2 (by omega))
    obtain ⟨x, y', F', -, hx, hy', hyx, -, -, hh, -⟩ := h.free ht
    obtain rfl : y' = y :=
      h.laid.ground.same_start (h.laid.live_mem hy') (h.laid.live_mem hy) (by omega)
    exact ⟨t', ht, F', hh⟩

theorem Held.same_free {t' : Client Buddy} (h : Held base total t F V)
    (h' : Held base total t' F' V') (hV : ∀ z, z ∈ V ↔ z ∈ V') :
    FreeBlock t.s a size ↔ FreeBlock t'.s a size :=
  h.laid.same_free h'.laid ⟨h'.start.trans h.start.symm, h'.total.trans h.total.symm⟩ hV

theorem freeBlock_mmInit {n : Nat} (s : Buddy) (hn : minBlockSize ≤ n) (hb : 0 < base)
    (hbound : base + n ≤ 18446744073709551616) :
    FreeBlock (s.mmInit base n) a size ↔
      a = base ∧ size = (s.mmInit base n).totalManagedBytes := by
  obtain ⟨K, hK, -, htotal, -, hl⟩ := mmInit_spec s hn hb hbound
  rw [hl.freeBlock_iff, htotal]
  constructor
  · rintro ⟨x, hx, he⟩
    obtain ⟨rfl, rfl⟩ := Prod.mk.inj he
    have hmem := (mem_blocksOf.mp hx).2
    have hk : x.2 = K := by
      by_contra e
      rw [Function.update_of_ne e] at hmem
      exact absurd hmem List.not_mem_nil
    rw [hk, Function.update_self] at hmem
    rw [hk]
    exact ⟨List.mem_singleton.mp hmem, rfl⟩
  · rintro ⟨rfl, rfl⟩
    refine ⟨(a, K), mem_blocksOf.mpr ⟨hK, ?_⟩, rfl⟩
    show a ∈ Function.update (fun _ => []) K [a] K
    rw [Function.update_self]
    exact List.mem_singleton_self a

end

end Buddy

/-! ## the first-fit manager -/

namespace FirstFit

/-- there is a free block of `size` bytes at `a` -/
def FreeBlock (s : FirstFit) (a size : Nat) : Prop :=
  ∃ f n, Ring s f ∧ (a, n) ∈ f ∧ size = n * unitSize

section
variable {s s' : FirstFit} {f f' V V' : List (Nat × Nat)} {a base lo hi n start size : Nat}

theorem Strung.freeBlock_iff (h : Strung s lo hi f V) :
    FreeBlock s a size ↔ ∃ n, (a, n) ∈ f ∧ size = n * unitSize := by
  constructor
  · rintro ⟨f', n, hr, hm, hs⟩
    rw [hr.unique h.isRing] at hm
    exact ⟨n, hm, hs⟩
  · rintro ⟨n, hm, hs⟩
    exact ⟨f, n, h.isRing, hm, hs⟩

theorem Held.same_free {t t' : Client FirstFit} (h : Held base lo hi t f V)
    (h' : Held base lo hi t' f' V') (hV : ∀ z, z ∈ V ↔ z ∈ V') :
    FreeBlock t.s a size ↔ FreeBlock t'.s a size := by
  have hsp := h.strung.spread
  have hsp' := h'.strung.spread
  rw [h.base] at hsp
  rw [h'.base] at hsp'
  rw [h.strung.freeBlock_iff, h'.strung.freeBlock_iff, hsp.same_free hsp' hV]

theorem releases (base lo hi : Nat) :
    Releases manager 16 (hi - lo + 1) fun t V => ∃ f, Held base lo hi t f V := by
  have hnodup : ∀ {t : Client FirstFit} {f V : List (Nat × Nat)}, Held base lo hi t f V →
      (V.map Prod.fst).Nodup := by
    intro t f V h
    have hnd := h.strung.spread.nodup
    rw [List.map_append] at hnd
    exact (List.nodup_append.mp hnd).1
  constructor
  · rintro t V ⟨f, h⟩
    exact hnodup h
  · rintro t V y fuel ⟨f, h⟩ hy hf
    have hlen := h.strung.spread.tiling'.length_le
    rw [List.length_append, List.length_map, List.length_map] at hlen
    have hptr : y.1 + 16 ∈ t.live.map Prod.fst :=
      h.live.mem_iff.mp (List.mem_map_of_mem (f := fun x : Nat × Nat => x.1 + 16) hy)
    have hsome : (manager.free fuel t.s (y.1 + 16)).isSome = true := by
      rcases mmFree_spec fuel (h.strung.perm (List.perm_cons_erase hy)) with ⟨-, hle⟩ | ⟨s', f', hr, -⟩
      · omega
      · exact Option.isSome_iff_exists.mpr ⟨s', hr⟩
    obtain ⟨t', ht⟩ := execMem_free_some hptr hsome
    obtain ⟨x, y', f', -, hx, hy', hyx, -, -, hh, -⟩ := h.free ht
    obtain rfl : y' = y := List.inj_on_of_nodup_map (hnodup h) hy' hy (by omega)
    exact ⟨t', ht, f', hh⟩

theorem freeBlock_mmInit (s : FirstFit) (hn : 16 ≤ n) (hb : s.base + 16 ≤ start)
    (hbound : start + n / 16 * 16 < 18446744073709551616) :
    FreeBlock (s.mmInit start n) a size ↔ a = start ∧ size = n / 16 * unitSize := by
  have hh := held_start s hn hb hbound
  rw [Strung.freeBlock_iff (s := s.mmInit start n) hh.strung]
  constructor
  · rintro ⟨k, hm, rfl⟩
    obtain ⟨rfl, rfl⟩ := Prod.mk.inj (List.mem_singleton.mp hm)
    exact ⟨rfl, rfl⟩
  · rintro ⟨rfl, rfl⟩
    exact ⟨n / 16, List.mem_singleton_self _, rfl⟩

end

end FirstFit

/-! ## both managers -/

section
variable {σ : Type} {M : Manager σ} {d N fuel : Nat} {H : Client σ → List (Nat × Nat) → Prop}
  {t t₀ : Client σ} {V : List (Nat × Nat)} {B : σ → Nat → Nat → Prop}

/-- the blocks `B` of a manager that are a function of the live ones -/
theorem Releases.commutes (R : Releases M d N H)
    (hB : ∀ {t t' V V'}, H t V → H t' V' → (∀ z, z ∈ V ↔ z ∈ V') → ∀ a size, B t.s a size ↔ B t'.s a size)
    (h : H t V) (h₀ : H t₀ []) (hlive : (V.map fun x => x.1 + d).Perm (t.live.map Prod.fst))
    (hf : N ≤ fuel) {ps qs : List Nat} (hnd : ps.Nodup) (hps : ∀ p ∈ ps, p ∈ t.live.map Prod.fst)
    (hp : ps.Perm qs) :
    ∃ t₁ t₂, Runs (execMem M) (fun o _ => o.isCall) (freeAll fuel ps) t t₁ ∧
      Runs (execMem M) (fun o _ => o.isCall) (freeAll fuel qs) t t₂ ∧
      (∀ a size, B t₁.s a size ↔ B t₂.s a size) ∧
      ((∀ x ∈ t.live, x.1 ∈ ps) → ∀ a size, B t₁.s a size ↔ B t₀.s a size) := by
  have hV : ∀ p ∈ ps, ∃ y ∈ V, y.1 + d = p := fun p hp =>
    List.mem_map.mp (hlive.mem_iff.mpr (hps p hp))
  obtain ⟨t₁, V₁, hrun₁, h₁, hmem₁⟩ := R.run hf ps h hnd hV
  obtain ⟨t₂, V₂, hrun₂, h₂, hmem₂⟩ := R.run hf qs h (hp.nodup_iff.mp hnd)
    fun q hq => hV q (hp.mem_iff.mpr hq)
  refine ⟨t₁, t₂, hrun₁, hrun₂, hB h₁ h₂ fun z => ?_, fun hall => hB h₁ h₀ fun z => ?_⟩
  · rw [hmem₁, hmem₂, hp.mem_iff]
  · rw [hmem₁]
    refine ⟨fun hz => ?_, fun hz => absurd hz List.not_mem_nil⟩
    have hm := hlive.mem_iff.mp (List.mem_map_of_mem (f := fun x : Nat × Nat => x.1 + d) hz.1)
    obtain ⟨x, hx, he⟩ := List.mem_map.mp hm
    have hin := hall x hx
    rw [he] at hin
    exact absurd hin hz.2

end

/-- **`mm_free` calls commute**: live pointers that are given back in any two orders leave the same free
blocks.  When they are all the live pointers, that is the one block of `mm_init`. -/
theorem mmFree_commutes :
    (∀ (s : Buddy) (base n : Nat) (os : List MemOp) (t : Client Buddy) (ps qs : List Nat),
      minBlockSize ≤ n → 0 < base → base + n ≤ 18446744073709551616 →
      Runs (execMem Buddy.manager) (fun o _ => o.isCall) os (.start (s.mmInit base n)) t →
      ps.Nodup → (∀ p ∈ ps, p ∈ t.live.map Prod.fst) → ps.Perm qs →
      ∃ N, ∀ fuel, N ≤ fuel → ∃ t₁ t₂,
        Runs (execMem Buddy.manager) (fun o _ => o.isCall) (freeAll fuel ps) t t₁ ∧
        Runs (execMem Buddy.manager) (fun o _ => o.isCall) (freeAll fuel qs) t t₂ ∧
        (∀ a size, Buddy.FreeBlock t₁.s a size ↔ Buddy.FreeBlock t₂.s a size) ∧
        ((∀ x ∈ t.live, x.1 ∈ ps) → ∀ a size,
          (Buddy.FreeBlock t₁.s a size ↔ Buddy.FreeBlock (s.mmInit base n) a size) ∧
          (Buddy.FreeBlock t₁.s a size ↔
            a = base ∧ size = (s.mmInit base n).totalManagedBytes))) ∧
    (∀ (s : FirstFit) (start n : Nat) (os : List MemOp) (t : Client FirstFit) (ps qs : List Nat),
      16 ≤ n → s.base + 16 ≤ start → start + n / 16 * 16 < 18446744073709551616 →
      Runs (execMem FirstFit.manager) (fun o _ => o.isCall) os (.start (s.mmInit start n)) t →
      ps.Nodup → (∀ p ∈ ps, p ∈ t.live.map Prod.fst) → ps.Perm qs →
      ∃ N, ∀ fuel, N ≤ fuel → ∃ t₁ t₂,
        Runs (execMem FirstFit.manager) (fun o _ => o.isCall) (freeAll fuel ps) t t₁ ∧
        Runs (execMem FirstFit.manager) (fun o _ => o.isCall) (freeAll fuel qs) t t₂ ∧
        (∀ a size, FirstFit.FreeBlock t₁.s a size ↔ FirstFit.FreeBlock t₂.s a size) ∧
        ((∀ x ∈ t.live, x.1 ∈ ps) → ∀ a size,
          (FirstFit.FreeBlock t₁.s a size ↔ FirstFit.FreeBlock (s.mmInit start n) a size) ∧
          (FirstFit.FreeBlock t₁.s a size ↔ a = start ∧ size = n / 16 * unitSize))) := by
  constructor
  · intro s base n os t ps qs hn hb hbound h hnd hps hp
    obtain ⟨F, V, hh⟩ := Buddy.held_run s hn hb hbound h
    obtain ⟨K, -, -, -, hstart, hl⟩ := Buddy.mmInit_spec s hn hb hbound
    have h₀ : ∃ F, Buddy.Held base (s.mmInit base n).totalManagedBytes (.start (s.mmInit base n)) F [] :=
      ⟨_, hl, hstart, rfl, List.Perm.refl _⟩
    refine ⟨(s.mmInit base n).totalManagedBytes + 1, fun fuel hf => ?_⟩
    obtain ⟨t₁, t₂, h₁, h₂, hsame, hall⟩ := (Buddy.releases base _).commutes
      (B := Buddy.FreeBlock) (fun ⟨_, h⟩ ⟨_, h'⟩ hV a size => h.same_free h' hV) ⟨F, hh⟩
      h₀ hh.live hf hnd hps hp
    refine ⟨t₁, t₂, h₁, h₂, hsame, fun hlive a size => ⟨hall hlive a size, ?_⟩⟩
    rw [hall hlive a size]
    exact Buddy.freeBlock_mmInit s hn hb hbound
  · intro s start n os t ps qs hn hb hbound h hnd hps hp
    obtain ⟨f, V, hh⟩ := FirstFit.held_run s hn hb hbound h
    have h₀ : ∃ f, FirstFit.Held s.base start (start + n / 16 * 16) (.start (s.mmInit start n)) f [] :=
      ⟨_, FirstFit.held_start s hn hb hbound⟩
    refine ⟨start + n / 16 * 16 - start + 1, fun fuel hf => ?_⟩
    obtain ⟨t₁, t₂, h₁, h₂, hsame, hall⟩ := (FirstFit.releases s.base start _).commutes
      (B := FirstFit.FreeBlock) (fun ⟨_, h⟩ ⟨_, h'⟩ hV a size => h.same_free h' hV) ⟨f, hh⟩
      h₀ hh.live hf hnd hps hp
    refine ⟨t₁, t₂, h₁, h₂, hsame, fun hlive a size => ⟨hall hlive a size, ?_⟩⟩
    rw [hall hlive a size]
    exact FirstFit.freeBlock_mmInit s hn hb hbound

/-- two pages of four, and three blocks of sixteen units, in both orders -/
theorem mmFree_commutes_pages :
    (∃ t : Client Buddy, Runs (execMem Buddy.manager) (fun o _ => o.isCall)
        [.alloc 8 100, .alloc 8 100] (.start (Buddy.blank.mmInit 4096 16384)) t ∧
      t.live = [(8200, 100), (4104, 100)] ∧
      ∃ N, ∀ fuel, N ≤ fuel → ∃ t₁ t₂,
        Runs (execMem Buddy.manager) (fun o _ => o.isCall) (freeAll fuel [4104, 8200]) t t₁ ∧
        Runs (execMem Buddy.manager) (fun o _ => o.isCall) (freeAll fuel [8200, 4104]) t t₂ ∧
        (∀ a size, Buddy.FreeBlock t₁.s a size ↔ Buddy.FreeBlock t₂.s a size) ∧
        ((∀ x ∈ t.live, x.1 ∈ [4104, 8200]) → ∀ a size,
          (Buddy.FreeBlock t₁.s a size ↔
            Buddy.FreeBlock (Buddy.blank.mmInit 4096 16384) a size) ∧
          (Buddy.FreeBlock t₁.s a size ↔
            a = 4096 ∧ size = (Buddy.blank.mmInit 4096 16384).totalManagedBytes))) ∧
    (∃ t : Client FirstFit, Runs (execMem FirstFit.manager) (fun o _ => o.isCall)
        [.alloc 8 20, .alloc 8 40, .alloc 8 16] (.start (FirstFit.blank.mmInit 4096 256)) t ∧
      t.live = [(4224, 16), (4256, 40), (4320, 20)] ∧
      ∃ N, ∀ fuel, N ≤ fuel → ∃ t₁ t₂,
        Runs (execMem FirstFit.manager) (fun o _ => o.isCall) (freeAll fuel [4256, 4224]) t t₁ ∧
        Runs (execMem FirstFit.manager) (fun o _ => o.isCall) (freeAll fuel [4224, 4256]) t t₂ ∧
        (∀ a size, FirstFit.FreeBlock t₁.s a size ↔ FirstFit.FreeBlock t₂.s a size) ∧
        ((∀ x ∈ t.live, x.1 ∈ [4256, 4224]) → ∀ a size,
          (FirstFit.FreeBlock t₁.s a size ↔
            FirstFit.FreeBlock (FirstFit.blank.mmInit 4096 256) a size) ∧
          (FirstFit.FreeBlock t₁.s a size ↔ a = 4096 ∧ size = 256 / 16 * unitSize))) := by
  constructor
  · have hrun : (runIf (execMem Buddy.manager) (fun o _ => o.isCall) [.alloc 8 100, .alloc 8 100]
        (.start (Buddy.blank.mmInit 4096 16384))).map (fun t => t.live)
          = some [(8200, 100), (4104, 100)] := by
      decide +kernel
    obtain ⟨t, ht, hlive⟩ := Option.map_eq_some_iff.mp hrun
    have h := runs_of_runIf ht
    refine ⟨t, h, hlive, mmFree_commutes.1 Buddy.blank 4096 16384 _ t [4104, 8200] [8200, 4104]
      (by decide) (by decide) (by decide) h (by decide) ?_ (by decide)⟩
    rw [hlive]
    decide
  · have hrun : (runIf (execMem FirstFit.manager) (fun o _ => o.isCall)
        [.alloc 8 20, .alloc 8 40, .alloc 8 16]
        (.start (FirstFit.blank.mmInit 4096 256))).map (fun t => t.live)
          = some [(4224, 16), (4256, 40), (4320, 20)] := by
      decide +kernel
    obtain ⟨t, ht, hlive⟩ := Option.map_eq_some_iff.mp hrun
    have h := runs_of_runIf ht
    refine ⟨t, h, hlive, mmFree_commutes.2 FirstFit.blank 4096 256 _ t [4256, 4224] [4224, 4256]
      (by decide) (by decide) (by decide) h (by decide) ?_ (by decide)⟩
    rw [hlive]
    decide

end Tp2So
