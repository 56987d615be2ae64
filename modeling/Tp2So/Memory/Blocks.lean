import Tp2So.Lib.Links
import Tp2So.Lib.Tiling
import Tp2So.Kernel.Buddy
import Mathlib.Tactic.Ring

/-!
# Blocks, orders and buddies

A block is an address and an order.  `span` is the memory it takes; `blocksOf F` are the free blocks
when the list of every order is `F`.

* `buddyAt`                the buddy of a block, as an address: the `xor` of `mm_free`;
* `buddyAt_cases`          it is the block above or the block below, and together they are a block of
                           the next order;
* `blocksOf_update`        the free blocks when one leaves its list, or comes.
-/

set_option linter.unusedVariables false

namespace Tp2So

namespace Buddy

/-- the memory of a block -/
def span (x : Nat × Nat) : Nat × Nat := (x.1, blockSize x.2)

/-- the free blocks -/
def blocksOf (F : Nat → List Nat) : List (Nat × Nat) :=
  (List.range (maxOrder + 1)).flatMap fun k => (F k).map fun a => (a, k)

/-- the address that `mm_free` computes for the buddy, without the wrapping -/
def buddyAt (start a k : Nat) : Nat := start + ((a - start) ^^^ blockSize k)

section
variable {F : Nat → List Nat} {l : List Nat} {a b k c start : Nat} {x y : Nat × Nat}

/-! ## sizes -/

theorem blockSize_pos (k : Nat) : 0 < blockSize k :=
  Nat.mul_pos (by decide) (Nat.pow_pos (by decide))

theorem blockSize_succ (k : Nat) : blockSize (k + 1) = blockSize k + blockSize k := by
  show 4096 * 2 ^ (k + 1) = 4096 * 2 ^ k + 4096 * 2 ^ k
  rw [Nat.pow_succ]
  omega

theorem blockSize_eq (k : Nat) : blockSize k = 2 ^ (k + 12) := by
  show 4096 * 2 ^ k = 2 ^ (k + 12)
  rw [Nat.pow_add]
  omega

theorem blockSize_le (h : k ≤ c) : blockSize k ≤ blockSize c := by
  rw [blockSize_eq, blockSize_eq]
  exact Nat.pow_le_pow_right (by decide) (by omega)

theorem blockSize_lt (h : k < c) : blockSize k < blockSize c := by
  rw [blockSize_eq, blockSize_eq]
  exact Nat.pow_lt_pow_right (by decide) (by omega)

/-- every block has room for the link and for the header -/
theorem eight_le_blockSize (k : Nat) : 8 ≤ blockSize k := by
  have h := blockSize_le (Nat.zero_le k)
  have h0 : blockSize 0 = 4096 := rfl
  omega

theorem order_le_of_size (h : blockSize k ≤ blockSize c) : k ≤ c := by
  by_contra hc
  have := blockSize_lt (Nat.lt_of_not_le hc)
  omega

/-! ## buddies -/

theorem xor_blockSize (q k : Nat) :
    (blockSize k * q) ^^^ blockSize k = blockSize k * (q ^^^ 1) := by
  rw [blockSize_eq]
  have h1 : 2 ^ (k + 12) * q = q <<< (k + 12) := by rw [Nat.shiftLeft_eq, Nat.mul_comm]
  have h2 : 2 ^ (k + 12) = 1 <<< (k + 12) := by rw [Nat.shiftLeft_eq, Nat.one_mul]
  have h3 : 2 ^ (k + 12) * (q ^^^ 1) = (q ^^^ 1) <<< (k + 12) := by
    rw [Nat.shiftLeft_eq, Nat.mul_comm]
  rw [h3, Nat.shiftLeft_xor_distrib, ← h1, ← h2]

/-- **The buddy of an aligned block** is its upper or its lower neighbour; the lower one of the two is
aligned as a block of the next order. -/
theorem buddyAt_cases (hs : start ≤ a) (hd : blockSize k ∣ a - start) :
    (buddyAt start a k = a + blockSize k ∧ blockSize (k + 1) ∣ a - start) ∨
      (buddyAt start a k + blockSize k = a ∧ start ≤ buddyAt start a k ∧
        blockSize (k + 1) ∣ buddyAt start a k - start) := by
  obtain ⟨q, hq⟩ := hd
  have hb : buddyAt start a k = start + blockSize k * (q ^^^ 1) := by
    unfold buddyAt
    rw [hq, xor_blockSize]
  rcases Nat.even_or_odd q with he | ho
  · rw [Nat.xor_one_of_even he] at hb
    refine Or.inl ⟨?_, ?_⟩
    · rw [hb, Nat.mul_succ]
      omega
    · obtain ⟨r, rfl⟩ := he
      rw [hq, blockSize_succ]
      exact ⟨r, by ring⟩
  · rw [Nat.xor_one_of_odd ho] at hb
    obtain ⟨r, rfl⟩ := ho
    rw [Nat.add_sub_cancel] at hb
    refine Or.inr ⟨?_, ?_, ?_⟩
    · have : blockSize k * (2 * r + 1) = blockSize k * (2 * r) + blockSize k := by ring
      omega
    · omega
    · rw [hb, Nat.add_sub_cancel_left, blockSize_succ]
      exact ⟨r, by ring⟩

theorem buddyAt_buddyAt (hs : start ≤ a) : buddyAt start (buddyAt start a k) k = a := by
  unfold buddyAt
  rw [Nat.add_sub_cancel_left, Nat.xor_assoc, Nat.xor_self, Nat.xor_zero]
  omega

theorem buddyAt_lower (hs : start ≤ a) (hd : blockSize (k + 1) ∣ a - start) :
    buddyAt start a k = a + blockSize k := by
  obtain ⟨q, hq⟩ := hd
  have he : a - start = blockSize k * (2 * q) := by
    rw [hq, blockSize_succ]
    ring
  unfold buddyAt
  rw [he, xor_blockSize, Nat.xor_one_of_even (even_two_mul q), Nat.mul_succ]
  omega

/-- the upper half of a block is the buddy of the lower one -/
theorem buddyAt_upper (hs : start ≤ a) (hd : blockSize (k + 1) ∣ a - start) :
    buddyAt start (a + blockSize k) k = a := by
  rw [← buddyAt_lower hs hd]
  exact buddyAt_buddyAt hs

/-! ## the free blocks -/

theorem mem_blocksOf : x ∈ blocksOf F ↔ x.2 ≤ maxOrder ∧ x.1 ∈ F x.2 := by
  unfold blocksOf
  rw [List.mem_flatMap]
  constructor
  · intro h
    obtain ⟨k, hk, hx⟩ := h
    obtain ⟨a, ha, rfl⟩ := List.mem_map.mp hx
    have := List.mem_range.mp hk
    exact ⟨Nat.le_of_lt_succ this, ha⟩
  · intro h
    exact ⟨x.2, List.mem_range.mpr (Nat.lt_succ_of_le h.1), List.mem_map.mpr ⟨x.1, h.2, rfl⟩⟩

theorem flatMap_update (ks : List Nat) (hk : k ∈ ks) (hnd : ks.Nodup) (hF : (F k).Perm (a :: l)) :
    (ks.flatMap fun c => (F c).map fun b => (b, c)).Perm
      ((a, k) :: ks.flatMap fun c => (Function.update F k l c).map fun b => (b, c)) := by
  induction ks with
  | nil => exact absurd hk List.not_mem_nil
  | cons c ks ih =>
    obtain ⟨hc, hnd⟩ := List.nodup_cons.mp hnd
    rw [List.flatMap_cons, List.flatMap_cons]
    by_cases e : k = c
    · subst e
      have hrest : ∀ c ∈ ks, ((F c).map fun b => (b, c))
          = (Function.update F k l c).map fun b => (b, c) := by
        intro c hm
        have hne : c ≠ k := fun e => hc (e ▸ hm)
        rw [Function.update_of_ne hne]
      rw [List.flatMap_congr hrest, Function.update_self]
      exact (hF.map _).append_right _
    · have ih := ih ((List.mem_cons.mp hk).resolve_left e) hnd
      rw [Function.update_of_ne fun e' => e e'.symm]
      exact (ih.append_left _).trans List.perm_middle

theorem blocksOf_update (hk : k ≤ maxOrder) (hF : (F k).Perm (a :: l)) :
    (blocksOf F).Perm ((a, k) :: blocksOf (Function.update F k l)) :=
  flatMap_update _ (List.mem_range.mpr (Nat.lt_succ_of_le hk)) List.nodup_range hF

end

end Buddy

end Tp2So
