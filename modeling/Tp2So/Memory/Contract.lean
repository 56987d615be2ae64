import Tp2So.Memory.BuddyRequests
import Tp2So.Memory.Commute
import Tp2So.Memory.Contents

/-!
# What the clients of a memory manager count on

A program takes memory through the calls, and knows nothing of lists and headers.

* `Contract`            what holds in the states that `I` admits: the calls return with fuel `N`, the live
                        blocks are apart and read back what was stored, and the free blocks `B` of a
                        manager without live blocks are always the same;
* `Contract.run`        `I` holds along a run;
* `Buddy.contract`, `FirstFit.contract`   both managers keep it, for requests of up to `2 ^ 32` bytes.
-/

set_option linter.unusedVariables false

namespace Tp2So

/-- the sizes of the programs are of 32 bits -/
def maxRequest : Nat := 4294967296

structure Contract {σ : Type} (M : Manager σ) (N : Nat) (B : σ → Nat → Nat → Prop)
    (I : Client σ → Prop) : Prop where
  step : ∀ {o t t'}, I t → o.modestTo maxRequest = true → execMem M o t = some t' → I t'
  alloc : ∀ {t fuel size}, I t → size ≤ maxRequest → N ≤ fuel →
    (M.alloc fuel t.s size).isSome = true
  free : ∀ {t x fuel}, I t → x ∈ t.live → N ≤ fuel → (M.free fuel t.s x.1).isSome = true
  reads : ∀ {t}, I t → t.Reads M
  nodup : ∀ {t}, I t → (t.live.map Prod.fst).Nodup
  apart : ∀ {t x y}, I t → x ∈ t.live → y ∈ t.live → x ≠ y → Apart x y
  same : ∀ {t t'}, I t → I t' → t.live = [] → t'.live = [] → ∀ a n, B t.s a n ↔ B t'.s a n

section
variable {σ : Type} {M : Manager σ} {N a : Nat} {B : σ → Nat → Nat → Prop} {I : Client σ → Prop}
  {t : Client σ} {x y : Nat × Nat}

/-- a live block is known by its pointer -/
theorem Contract.same_pointer (C : Contract M N B I) (h : I t) (hx : x ∈ t.live) (hy : y ∈ t.live)
    (he : x.1 = y.1) : x = y :=
  List.inj_on_of_nodup_map (C.nodup h) hx hy he

/-- a byte is in one live block -/
theorem Contract.same_byte (C : Contract M N B I) (h : I t) (hx : x ∈ t.live) (hy : y ∈ t.live)
    (h1 : x.1 ≤ a ∧ a < x.1 + x.2) (h2 : y.1 ≤ a ∧ a < y.1 + y.2) : x = y := by
  by_contra hne
  have hap : x.1 + x.2 ≤ y.1 ∨ y.1 + y.2 ≤ x.1 := C.apart h hx hy hne
  omega

end

/-! ## the buddy system -/

namespace Buddy

section
variable {F : Nat → List Nat} {V : List (Nat × Nat)} {base total : Nat} {x y : Nat × Nat}
  {t : Client Buddy}

theorem Held.nodup (h : Held base total t F V) : (t.live.map Prod.fst).Nodup := by
  refine h.live.nodup_iff.mp ?_
  have hnd := h.laid.ground.nodup
  rw [List.nil_append, List.map_append] at hnd
  have hadd : Function.Injective fun a : Nat => a + metadataSize := fun a b e => Nat.add_right_cancel e
  have hmap := (List.nodup_append.mp hnd).1.map hadd
  rw [List.map_map] at hmap
  exact hmap

theorem Kept.apart (h : Kept base total t F V) (hx : x ∈ t.live) (hy : y ∈ t.live) (hne : x ≠ y) :
    Apart x y := by
  obtain ⟨z, hz, hzx, hrx⟩ := h.room x hx
  obtain ⟨w, hw, hwy, hry⟩ := h.room y hy
  have hzw : z ≠ w := by
    intro e
    rw [e] at hzx
    exact hne (List.inj_on_of_nodup_map h.held.nodup hx hy (hzx.symm.trans hwy))
  have hap := h.held.laid.ground.apart (h.held.laid.live_mem hz) (h.held.laid.live_mem hw) hzw
  simp only [Apart, span] at hap
  simp only [Apart]
  omega

theorem Held.live_nil (h : Held base total t F V) (hl : t.live = []) : V = [] := by
  have hperm := h.live
  rw [hl] at hperm
  exact List.map_eq_nil_iff.mp hperm.eq_nil

/-- **The buddy system keeps the contract.** -/
theorem contract (base total : Nat) :
    Contract manager (total + 52) FreeBlock fun t => ∃ F V, Kept base total t F V where
  step := by
    rintro o t t' ⟨F, V, h⟩ ho he
    cases o with
    | alloc fuel size =>
      have hsize : size ≤ 4294967296 := of_decide_eq_true ho
      exact h.alloc (by omega) he
    | free fuel ptr => exact h.free he
    | store a v => exact ⟨F, V, (h.store he).1⟩
  alloc := by
    rintro t fuel size - hsize hf
    have hsize' : size ≤ 4294967296 := hsize
    exact mmAlloc_returns t.s (by omega) (by omega)
  free := by
    rintro t x fuel ⟨F, V, h⟩ hx hf
    obtain ⟨y, hy, hyx⟩ := h.held.mem hx
    have hlen := h.held.laid.tiling.length_le
    rw [List.length_append, List.length_map, List.length_map, h.held.total] at hlen
    rw [← hyx]
    exact (mmFree_spec fuel h.held.laid (List.perm_cons_erase hy)).2 (by omega)
  reads := by
    rintro t ⟨F, V, h⟩
    exact h.reads
  nodup := by
    rintro t ⟨F, V, h⟩
    exact h.held.nodup
  apart := by
    rintro t x y ⟨F, V, h⟩
    exact h.apart
  same := by
    rintro t t' ⟨F, V, h⟩ ⟨F', V', h'⟩ hl hl' a n
    obtain rfl := h.held.live_nil hl
    obtain rfl := h'.held.live_nil hl'
    exact h.held.same_free h'.held fun z => Iff.rfl

end

end Buddy

/-! ## first fit -/

namespace FirstFit

section
variable {f V : List (Nat × Nat)} {base lo hi : Nat} {x y : Nat × Nat} {t : Client FirstFit}

theorem Held.nodup (h : Held base lo hi t f V) : (t.live.map Prod.fst).Nodup := by
  refine h.live.nodup_iff.mp ?_
  have hnd := h.strung.spread.nodup
  rw [List.map_append] at hnd
  have hadd : Function.Injective fun a : Nat => a + 16 := fun a b e => Nat.add_right_cancel e
  have hmap := (List.nodup_append.mp hnd).1.map hadd
  rw [List.map_map] at hmap
  exact hmap

theorem Kept.apart (h : Kept base lo hi t f V) (hx : x ∈ t.live) (hy : y ∈ t.live) (hne : x ≠ y) :
    Apart x y := by
  obtain ⟨z, hz, hzx, hrx⟩ := h.room x hx
  obtain ⟨w, hw, hwy, hry⟩ := h.room y hy
  have hzw : z.1 ≠ w.1 := by
    intro e
    exact hne (List.inj_on_of_nodup_map h.held.nodup hx hy (by omega))
  have hsp := h.held.strung.spread
  have hap := hsp.clear (List.mem_append_left _ hz) (List.mem_append_left _ hw) hzw
  have hap' := hsp.clear (List.mem_append_left _ hw) (List.mem_append_left _ hz) (Ne.symm hzw)
  simp only [Apart]
  omega

theorem Held.live_nil (h : Held base lo hi t f V) (hl : t.live = []) : V = [] := by
  have hperm := h.live
  rw [hl] at hperm
  exact List.map_eq_nil_iff.mp hperm.eq_nil

/-- **The first-fit manager keeps the contract.** -/
theorem contract (base lo hi : Nat) :
    Contract manager (hi - lo + 1) FreeBlock fun t => ∃ f V, Kept base lo hi t f V where
  step := by
    rintro o t t' ⟨f, V, h⟩ ho he
    cases o with
    | alloc fuel size =>
      have hsize : size ≤ 4294967296 := of_decide_eq_true ho
      exact h.alloc (by omega) he
    | free fuel ptr => exact h.free he
    | store a v => exact ⟨f, V, (h.store he).1⟩
  alloc := by
    rintro t fuel size ⟨f, V, h⟩ - hf
    have hlen := h.held.strung.spread.tiling'.length_le
    rw [List.length_append, List.length_map, List.length_map] at hlen
    rcases mmAlloc_spec fuel size h.held.strung with ⟨-, hle⟩ | ⟨hr, -⟩ | ⟨r, hr, -⟩
    · omega
    · exact Option.isSome_iff_exists.mpr ⟨_, hr⟩
    · exact Option.isSome_iff_exists.mpr ⟨_, hr⟩
  free := by
    rintro t x fuel ⟨f, V, h⟩ hx hf
    obtain ⟨y, hy, hyx⟩ := h.held.mem hx
    have hlen := h.held.strung.spread.tiling'.length_le
    rw [List.length_append, List.length_map, List.length_map] at hlen
    rw [← hyx]
    rcases mmFree_spec fuel (h.held.strung.perm (List.perm_cons_erase hy)) with
      ⟨-, hle⟩ | ⟨s', f', hr, -⟩
    · omega
    · exact Option.isSome_iff_exists.mpr ⟨s', hr⟩
  reads := by
    rintro t ⟨f, V, h⟩
    exact h.reads
  nodup := by
    rintro t ⟨f, V, h⟩
    exact h.held.nodup
  apart := by
    rintro t x y ⟨f, V, h⟩
    exact h.apart
  same := by
    rintro t t' ⟨f, V, h⟩ ⟨f', V', h'⟩ hl hl' a n
    obtain rfl := h.held.live_nil hl
    obtain rfl := h'.held.live_nil hl'
    exact h.held.same_free h'.held fun z => Iff.rfl

end

end FirstFit

end Tp2So
