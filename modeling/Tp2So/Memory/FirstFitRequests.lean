import Tp2So.Memory.Contents

/-!
# Which requests the first-fit manager serves

* `requestUnits_wrapped`   the rounding of the largest sizes wraps, to one unit;
* `mmAlloc_covers_iff`     the sizes that `mm_alloc` handles.
-/

set_option linter.unusedVariables false

namespace Tp2So

namespace FirstFit

/-- a block that `mm_alloc(nbytes)` gives has room for `nbytes` bytes behind its header, and at least
two units were asked for; the header before the pointer holds the units of the block -/
def Covers (s : FirstFit) (nbytes : Nat) : Prop :=
  ∀ fuel r, mmAlloc fuel s nbytes = some r → r.1 ≠ 0 →
    nbytes ≤ (r.2.size (r.1 - unitSize) - 1) * unitSize ∧ 2 ≤ requestUnits nbytes

section
variable {s : FirstFit} {lo hi start n nbytes fuel : Nat} {f V : List (Nat × Nat)}
  {t : Client FirstFit}

theorem requestUnits_wrapped (h : 18446744073709551616 ≤ nbytes + 15)
    (hn : nbytes < 18446744073709551616) : requestUnits nbytes = 1 := by
  have hwrap : wrap64 (nbytes + unitSize - 1) / unitSize = 0 := by
    show (nbytes + 16 - 1) % 18446744073709551616 / 16 = 0
    omega
  unfold requestUnits
  rw [hwrap]
  rfl

theorem Given.header {r : Nat × FirstFit} (h : Given s lo hi V n r) :
    16 ≤ r.1 ∧ r.2.size (r.1 - unitSize) = n := by
  obtain ⟨b, f', hptr, hstr⟩ := h.strung
  refine ⟨by omega, ?_⟩
  rw [hptr]
  exact hstr.sizes (b, n) (List.mem_append_left _ List.mem_cons_self)

theorem Strung.covers (h : Strung s lo hi f V) (h0 : 0 < nbytes)
    (hn : nbytes + 15 < 18446744073709551616) : Covers s nbytes := by
  intro fuel r hr hne
  have hroom := room_of_units hn
  rcases mmAlloc_spec fuel nbytes h with ⟨hnone, -⟩ | ⟨hz, -⟩ | ⟨r', hr', hg⟩
  · rw [hnone] at hr
    exact absurd hr (by simp)
  · rw [hz] at hr
    rw [← Option.some.inj hr] at hne
    exact absurd rfl hne
  · obtain rfl : r' = r := Option.some.inj (hr'.symm.trans hr)
    rw [hg.header.2]
    unfold unitSize
    omega

/-- a size that wraps is served from any free block, and one unit is its header -/
theorem Strung.covers_wrapped_iff (h : Strung s lo hi f V)
    (hw : 18446744073709551616 ≤ nbytes + 15) (hn : nbytes < 18446744073709551616) :
    Covers s nbytes ↔ f = [] := by
  have hunits := requestUnits_wrapped hw hn
  constructor
  · intro hc
    by_contra hne
    obtain ⟨x, hx⟩ := List.exists_mem_of_ne_nil _ hne
    have hpos := h.spread.pos (List.mem_append_right V hx)
    rcases mmAlloc_spec (f.length + 1) nbytes h with ⟨-, hle⟩ | ⟨-, h0 | hsmall⟩ | ⟨r, hr, hg⟩
    · omega
    · omega
    · have hlt := hsmall x hx
      omega
    · have hge := hg.header.1
      have htwo := (hc _ r hr (by omega)).2
      omega
  · rintro rfl fuel r hr hne
    rcases mmAlloc_spec fuel nbytes h with ⟨hnone, -⟩ | ⟨hz, -⟩ | ⟨r', hr', hg⟩
    · rw [hnone] at hr
      exact absurd hr (by simp)
    · rw [hz] at hr
      rw [← Option.some.inj hr] at hne
      exact absurd rfl hne
    · -- the live blocks fill the region already
      obtain ⟨b, f', -, hstr⟩ := hg.strung
      have hbefore := h.spread.total
      have hafter := hstr.spread.total
      rw [unitsOf_cons] at hafter
      rw [hunits] at hafter
      simp only at hafter
      have hnil : unitsOf [] = 0 := rfl
      omega

/-- the ring has no free block when `base` is linked to itself -/
theorem Strung.ring_empty_iff (h : Strung s lo hi f V) : s.ptr s.base = s.base ↔ f = [] := by
  have hr : Seg s.ptr (s.ptr s.base) (f.map Prod.fst) s.base := h.ring.2
  cases f with
  | nil => exact ⟨fun _ => rfl, fun _ => hr⟩
  | cons x f =>
    have hx : s.ptr s.base = x.1 := hr.1
    have hin := (h.spread.inside (List.mem_append_right V List.mem_cons_self)).1
    have hbelow := h.spread.below
    refine ⟨fun he => ?_, fun he => absurd he (by simp)⟩
    omega

/-- **The sizes that `mm_alloc` handles**: those whose rounding does not wrap; the others get one unit,
unless nothing is free. -/
theorem mmAlloc_covers_iff {os : List MemOp} (s : FirstFit) (hn : 16 ≤ n) (hb : s.base + 16 ≤ start)
    (hbound : start + n / 16 * 16 < 18446744073709551616)
    (h : Runs (execMem manager) (fun o _ => o.isCall) os (.start (s.mmInit start n)) t)
    (h0 : 0 < nbytes) (hs : nbytes < 18446744073709551616) :
    Covers t.s nbytes ↔ nbytes + 15 < 18446744073709551616 ∨ t.s.ptr s.base = s.base := by
  obtain ⟨f, V, hh⟩ := held_run s hn hb hbound h
  have hstr := hh.strung
  by_cases hle : nbytes + 15 < 18446744073709551616
  · exact ⟨fun _ => Or.inl hle, fun _ => hstr.covers h0 hle⟩
  · rw [hstr.covers_wrapped_iff (Nat.le_of_not_lt hle) hs, ← hstr.ring_empty_iff, hh.base]
    exact ⟨Or.inr, fun hc => hc.resolve_left hle⟩

end

/-- after `mm_init` with sixteen units: a call for nearly all of the address space gets a header -/
theorem mmAlloc_uncovered :
    Runs (execMem manager) (fun o _ => o.isCall) [] (.start (blank.mmInit 4096 256))
      (.start (blank.mmInit 4096 256)) ∧
    ¬ Covers (blank.mmInit 4096 256) 18446744073709551615 ∧
    (mmAlloc 2 (blank.mmInit 4096 256) 18446744073709551615).map
      (fun r => (r.1, r.2.size (r.1 - unitSize))) = some (4352, 1) := by
  have hcall : (mmAlloc 2 (blank.mmInit 4096 256) 18446744073709551615).map
      (fun r => (r.1, r.2.size (r.1 - unitSize))) = some (4352, 1) := by
    decide +kernel
  refine ⟨rfl, fun hc => ?_, hcall⟩
  obtain ⟨r, hr, hblock⟩ := Option.map_eq_some_iff.mp hcall
  obtain ⟨hptr, hsize⟩ := Prod.mk.inj hblock
  have hroom := (hc 2 r hr (by omega)).1
  rw [hsize] at hroom
  omega

theorem mmAlloc_covers_threeBlocks : ∃ t, Runs (execMem manager) (fun o _ => o.isCall) threeBlocks
      (.start (blank.mmInit 4096 256)) t ∧ Covers t.s 100 := by
  have hrun : (runIf (execMem manager) (fun o _ => o.isCall) threeBlocks
      (.start (blank.mmInit 4096 256))).map (fun t => t.live) = some [] := by
    decide +kernel
  obtain ⟨t, ht, -⟩ := Option.map_eq_some_iff.mp hrun
  have h := runs_of_runIf ht
  have hpos : 0 < 100 := by decide
  exact ⟨t, h, (mmAlloc_covers_iff blank (by decide) (by decide) (by decide) h hpos
    (by decide)).mpr (Or.inl (by decide))⟩

end FirstFit

end Tp2So
