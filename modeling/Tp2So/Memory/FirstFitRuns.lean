import Tp2So.Memory.FirstFitJoin
import Tp2So.Memory.Client

/-!
# The first-fit manager over whole runs

* `FirstFitSound`        the ring goes through the free blocks in the order of their addresses; they and
                         the live blocks fill the region, no two free blocks touch, the statistics are
                         exact, and both calls return;
* `firstFitSound_run`    after `mm_init`, in every run of calls.
-/

set_option linter.unusedVariables false

namespace Tp2So

namespace FirstFit

def manager : Manager FirstFit where
  alloc := mmAlloc
  free := mmFree
  read s a := s.mem a
  write s a v := { s with mem := Function.update s.mem a v }

/-- the block of every live pointer, with the size in its header -/
def liveBlocks (t : Client FirstFit) : List (Nat × Nat) :=
  t.live.map fun x => (x.1 - unitSize, t.s.size (x.1 - unitSize))

/-- `f` are the blocks on the ring behind `base`, as the links in the memory give them; the region is
from `lo` to `hi` -/
structure FirstFitSound (base lo hi : Nat) (t : Client FirstFit) (f : List (Nat × Nat)) : Prop where
  ring : Seg t.s.ptr base (base :: f.map Prod.fst) base
  increasing : (base :: f.map Prod.fst).Pairwise (· < ·)
  freep : t.s.freep ∈ base :: f.map Prod.fst
  sizes : ∀ x ∈ f, t.s.size x.1 = x.2
  tiling : Tiling lo hi ((liveBlocks t ++ f).map bytes)
  gaps : ∀ x ∈ f, ∀ y ∈ f, x.1 + x.2 * unitSize ≠ y.1
  freeMem : t.s.freeMemSize = unitSize * unitsOf f
  stats : mmGetStats t.s = ⟨hi - lo, unitSize * unitsOf f, unitSize * unitsOf (liveBlocks t)⟩
  allocs : ∀ size, ∃ N, ∀ fuel, N ≤ fuel → (mmAlloc fuel t.s size).isSome = true
  frees : ∀ x ∈ t.live, ∃ N, ∀ fuel, N ≤ fuel → (mmFree fuel t.s x.1).isSome = true

section
variable {s : FirstFit} {base lo hi start n fuel size ptr : Nat} {f V : List (Nat × Nat)}
  {t t' : Client FirstFit} {o : MemOp}

/-! ## the start -/

/-- **`mm_init`**: one free block. -/
theorem mmInit_spec (s : FirstFit) (hn : 16 ≤ n) (hb : s.base + 16 ≤ start)
    (hbound : start + n / 16 * 16 < 18446744073709551616) :
    Strung (s.mmInit start n) start (start + n / 16 * 16) [(start, n / 16)] [] ∧
      (s.mmInit start n).base = s.base ∧ (s.mmInit start n).totalMemSize = n / 16 * 16 ∧
      (s.mmInit start n).freeMemSize = n / 16 * 16 := by
  have hunits : 0 < n / 16 := Nat.div_pos hn (by omega)
  have hfar : Far s.base start := Or.inl hb
  have hsp : Spread s.base start (start + n / 16 * 16) [(start, n / 16)] [] := by
    refine ⟨?_, ?_, hb, hbound⟩
    · have ht := tiling_single (show start < start + n / 16 * 16 by omega)
      rw [Nat.add_sub_cancel_left] at ht
      exact ht
    · refine List.pairwise_pair.mpr ?_
      show s.base + 0 * 16 < start
      omega
  refine ⟨⟨hsp, ?_, ?_, List.mem_cons_self⟩, rfl, rfl, rfl⟩
  · refine ⟨rfl, ?_, ?_⟩
    · show ((((s.setSize start (n / 16)).setPtr s.base start).setSize s.base 0).setPtr start s.base).ptr
        s.base = start
      rw [ptr_setPtr_far hfar.symm, ptr_setSize (Or.inl rfl), ptr_setPtr (by omega)]
    · exact ptr_setPtr (show s.base < _ by omega)
  · intro x hx
    rcases List.mem_cons.mp hx with rfl | hx
    · show ((((s.setSize start (n / 16)).setPtr s.base start).setSize s.base 0).setPtr start s.base).size
        s.base = 0
      rw [size_setPtr (Or.inr hfar.symm), size_setSize (by omega)]
    · rw [List.mem_singleton.mp hx]
      show ((((s.setSize start (n / 16)).setPtr s.base start).setSize s.base 0).setPtr start s.base).size
        start = n / 16
      rw [size_setPtr (Or.inl rfl), size_setSize_far hfar, size_setPtr (Or.inr hfar),
        size_setSize (by omega)]

/-! ## steps -/

/-- the live blocks are those of the live pointers -/
structure Held (base lo hi : Nat) (t : Client FirstFit) (f V : List (Nat × Nat)) : Prop where
  strung : Strung t.s lo hi f V
  base : t.s.base = base
  total : t.s.totalMemSize = hi - lo
  freeMem : t.s.freeMemSize + unitsOf V * 16 = hi - lo
  live : (V.map fun x => x.1 + 16).Perm (t.live.map Prod.fst)

theorem unitsOf_cons (x : Nat × Nat) (B : List (Nat × Nat)) : unitsOf (x :: B) = x.2 + unitsOf B := by
  unfold unitsOf
  rw [List.map_cons, List.sum_cons]

theorem Held.mem (h : Held base lo hi t f V) {x : Nat × Nat} (hx : x ∈ t.live) :
    ∃ y ∈ V, y.1 + 16 = x.1 :=
  List.mem_map.mp (h.live.mem_iff.mpr (List.mem_map_of_mem hx))

theorem Held.alloc (h : Held base lo hi t f V)
    (he : execMem manager (.alloc fuel size) t = some t') :
    t' = t ∨ ∃ b f', t'.live = (b + 16, size) :: t.live ∧
      t'.written = (t.given t'.s (b + 16) size).written ∧
      Held base lo hi t' f' ((b, requestUnits size) :: V) ∧ ∀ x ∈ V, Intact t.s.mem t'.s.mem x := by
  obtain ⟨r, hr, hcase⟩ := execMem_alloc he
  replace hr : mmAlloc fuel t.s size = some r := hr
  rcases mmAlloc_spec fuel size h.strung with ⟨hnone, -⟩ | ⟨hz, -⟩ | ⟨r', hr', hg⟩
  · rw [hnone] at hr
    exact absurd hr (by simp)
  · rw [hz] at hr
    obtain rfl := Option.some.inj hr
    rcases hcase with ⟨-, rfl⟩ | ⟨h0, -⟩
    · exact Or.inl rfl
    · exact absurd rfl h0
  · obtain rfl : r' = r := Option.some.inj (hr'.symm.trans hr)
    obtain ⟨b, f', hptr, hstr⟩ := hg.strung
    rcases hcase with ⟨h0, -⟩ | ⟨-, rfl⟩
    · omega
    · refine Or.inr ⟨b, f', by rw [← hptr]; rfl, by rw [← hptr]; rfl, ⟨hstr, hg.base.trans h.base,
        hg.total.trans h.total, ?_, ?_⟩, hg.intact⟩
      · -- the region is smaller than the address space, so that nothing wraps
        have htotal := hstr.spread.total
        have hold := h.freeMem
        have hbound := hstr.spread.bound
        show r'.2.freeMemSize + _ = _
        rw [hg.freeMem]
        rw [unitsOf_cons] at htotal ⊢
        unfold charge wrap64 unitSize
        simp only at htotal ⊢
        omega
      · show ((b + 16) :: V.map _).Perm (r'.1 :: t.live.map Prod.fst)
        rw [hptr]
        exact h.live.cons _

theorem Held.free (h : Held base lo hi t f V)
    (he : execMem manager (.free fuel ptr) t = some t') :
    ∃ x y f', x ∈ t.live ∧ x.1 = ptr ∧ y ∈ V ∧ y.1 + 16 = x.1 ∧ t'.live = t.live.erase x ∧
      t'.written = t.written ∧ Held base lo hi t' f' (V.erase y) ∧
      ∀ z ∈ V.erase y, Intact t.s.mem t'.s.mem z := by
  obtain ⟨x, s', hx, rfl, hs, rfl⟩ := execMem_free he
  replace hs : mmFree fuel t.s x.1 = some s' := hs
  obtain ⟨y, hy, hyx⟩ := h.mem hx
  have hperm := List.perm_cons_erase hy
  rw [← hyx] at hs
  rcases mmFree_spec fuel (h.strung.perm hperm) with ⟨hnone, -⟩ | ⟨s'', f', hs', hstr, hk⟩
  · rw [hnone] at hs
    exact absurd hs (by simp)
  · obtain rfl : s'' = s' := Option.some.inj (hs'.symm.trans hs)
    refine ⟨x, y, f', hx, rfl, hy, hyx, rfl, rfl, ⟨hstr, hk.base.trans h.base,
      hk.total.trans h.total, ?_, ?_⟩, hk.intact⟩
    · have hunits : unitsOf V = y.2 + unitsOf (V.erase y) := by
        rw [← unitsOf_cons]
        exact (hperm.map Prod.snd).sum_eq
      have hold := h.freeMem
      have hbound := hstr.spread.bound
      show s''.freeMemSize + _ = _
      rw [hk.freeMem]
      unfold wrap64
      simp only
      omega
    · have h1 := hperm.map fun x => x.1 + 16
      have h2 := (List.perm_cons_erase hx).map Prod.fst
      have h3 := (h1.symm.trans h.live).trans h2
      rw [List.map_cons, List.map_cons, hyx] at h3
      exact h3.cons_inv

/-- **One call.** -/
theorem held_call (h : Held base lo hi t f V) (ho : o.isCall = true)
    (he : execMem manager o t = some t') : ∃ f' V', Held base lo hi t' f' V' := by
  cases o with
  | alloc fuel size =>
    rcases h.alloc he with rfl | ⟨b, f', -, -, h', -⟩
    · exact ⟨f, V, h⟩
    · exact ⟨f', _, h'⟩
  | free fuel ptr =>
    obtain ⟨x, y, f', -, -, -, -, -, -, h', -⟩ := h.free he
    exact ⟨f', _, h'⟩
  | store a v => cases ho

theorem Held.liveBlocks (h : Held base lo hi t f V) : V.Perm (liveBlocks t) := by
  have hp := h.live.map fun p => (p - unitSize, t.s.size (p - unitSize))
  rw [List.map_map, List.map_map] at hp
  have hid : V.map ((fun p => (p - unitSize, t.s.size (p - unitSize))) ∘ fun x => x.1 + 16) = V := by
    refine (List.map_congr_left fun x hx => ?_).trans (List.map_id V)
    show (x.1 + 16 - 16, t.s.size (x.1 + 16 - 16)) = x
    rw [Nat.add_sub_cancel, h.strung.sizes x (List.mem_append_left _ hx)]
  rw [hid] at hp
  exact hp

theorem Spread.gaps (h : Spread base lo hi f V) {x y : Nat × Nat} (hx : x ∈ f) (hy : y ∈ f) :
    x.1 + x.2 * 16 ≠ y.1 := by
  have hpos := h.pos (List.mem_append_right V hx)
  intro e
  obtain ⟨l, r, rfl⟩ := List.append_of_mem hy
  have ho := (List.pairwise_cons.mp h.order).2
  obtain ⟨-, hyr, hlr⟩ := List.pairwise_append.mp ho
  rcases List.mem_append.mp hx with hx | hx
  · have hxy := hlr x hx y List.mem_cons_self
    unfold Before at hxy
    omega
  rcases List.mem_cons.mp hx with rfl | hx
  · omega
  · have hyx := (List.pairwise_cons.mp hyr).1 x hx
    unfold Before at hyx
    omega

theorem Held.sound (h : Held base lo hi t f V) : FirstFitSound base lo hi t f := by
  have hp := h.liveBlocks
  have hstr := h.strung
  have hsp := hstr.spread
  have hunits : unitsOf V = unitsOf (FirstFit.liveBlocks t) := (hp.map Prod.snd).sum_eq
  have htotal := hsp.total
  have hfree := h.freeMem
  have hring := hstr.ring
  have hfreep := hstr.freep
  rw [h.base] at hring hfreep
  have hmem : t.s.freeMemSize = unitSize * unitsOf f := by
    unfold unitSize
    omega
  refine ⟨hring, ?_, hfreep, ?_, ?_, fun x hx y hy => hsp.gaps hx hy, hmem, ?_, ?_, ?_⟩
  · have ho := hsp.order
    rw [h.base] at ho
    have hlt : (nodes base f).Pairwise fun x y => x.1 < y.1 := by
      refine ho.imp ?_
      intro x y hxy
      unfold Before at hxy
      omega
    exact List.pairwise_map.mpr hlt
  · intro x hx
    exact hstr.sizes x (List.mem_append_right _ (List.mem_cons_of_mem _ hx))
  · exact hsp.tiling.perm ((hp.append_right f).map bytes)
  · have hocc : unitSize * unitsOf (FirstFit.liveBlocks t) = t.s.totalMemSize - t.s.freeMemSize := by
      rw [h.total]
      unfold unitSize
      omega
    have hle : t.s.freeMemSize ≤ t.s.totalMemSize := by
      rw [h.total]
      omega
    unfold mmGetStats
    rw [if_pos hle, ← hocc, hmem, h.total]
  · intro size
    refine ⟨f.length + 1, fun fuel hf => ?_⟩
    rcases mmAlloc_spec fuel size hstr with ⟨-, hle⟩ | ⟨hr, -⟩ | ⟨r, hr, -⟩
    · omega
    · rw [hr]
      rfl
    · rw [hr]
      rfl
  · intro x hx
    obtain ⟨y, hy, hyx⟩ := h.mem hx
    refine ⟨f.length + 1, fun fuel hf => ?_⟩
    rw [← hyx]
    rcases mmFree_spec fuel (hstr.perm (List.perm_cons_erase hy)) with ⟨-, hle⟩ | ⟨s', f', hr, -⟩
    · omega
    · rw [hr]
      rfl

theorem held_start (s : FirstFit) (hn : 16 ≤ n) (hb : s.base + 16 ≤ start)
    (hbound : start + n / 16 * 16 < 18446744073709551616) :
    Held s.base start (start + n / 16 * 16) (.start (s.mmInit start n)) [(start, n / 16)] [] := by
  obtain ⟨hstr, hbase, htotal, hfree⟩ := mmInit_spec s hn hb hbound
  refine ⟨hstr, hbase, ?_, ?_, List.Perm.refl _⟩
  · show (s.mmInit start n).totalMemSize = _
    omega
  · show (s.mmInit start n).freeMemSize + 0 * 16 = _
    omega

theorem held_run {os : List MemOp} (s : FirstFit) (hn : 16 ≤ n) (hb : s.base + 16 ≤ start)
    (hbound : start + n / 16 * 16 < 18446744073709551616)
    (h : Runs (execMem manager) (fun o _ => o.isCall) os (.start (s.mmInit start n)) t) :
    ∃ f V, Held s.base start (start + n / 16 * 16) t f V := by
  refine Runs.inv (I := fun t => ∃ f V, Held s.base start (start + n / 16 * 16) t f V)
    (fun o t u ht ho he => ?_) h ⟨_, _, held_start s hn hb hbound⟩
  obtain ⟨f, V, ht⟩ := ht
  exact held_call ht ho he

/-- **The first-fit manager is sound** after `mm_init`, in every run of `mm_alloc` calls and of
`mm_free` calls on live pointers. -/
theorem firstFitSound_run {os : List MemOp} (s : FirstFit) (hn : 16 ≤ n) (hb : s.base + 16 ≤ start)
    (hbound : start + n / 16 * 16 < 18446744073709551616)
    (h : Runs (execMem manager) (fun o _ => o.isCall) os (.start (s.mmInit start n)) t) :
    ∃ f, FirstFitSound s.base start (start + n / 16 * 16) t f := by
  obtain ⟨f, V, h⟩ := held_run s hn hb hbound h
  exact ⟨f, h.sound⟩

end

/-- before `mm_init` -/
def blank : FirstFit := ⟨fun _ => 0, 64, 0, 0, 0⟩

/-- three blocks from the top; the middle one comes back alone, then the two at its sides -/
def threeBlocks : List MemOp :=
  [.alloc 8 20, .alloc 8 40, .alloc 8 16, .free 8 4256, .free 8 4224, .free 8 4320]

theorem firstFitSound_run_threeBlocks : ∃ t, Runs (execMem manager) (fun o _ => o.isCall) threeBlocks
      (.start (blank.mmInit 4096 256)) t ∧ t.live = [] ∧
      ∃ f, FirstFitSound 64 4096 4352 t f := by
  have hrun : (runIf (execMem manager) (fun o _ => o.isCall) threeBlocks
      (.start (blank.mmInit 4096 256))).map (fun t => t.live) = some [] := by
    decide +kernel
  obtain ⟨t, ht, hlive⟩ := Option.map_eq_some_iff.mp hrun
  have h := runs_of_runIf ht
  exact ⟨t, h, hlive, firstFitSound_run blank (by decide) (by decide) (by decide) h⟩

end FirstFit

end Tp2So
