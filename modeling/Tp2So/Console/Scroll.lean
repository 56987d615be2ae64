import Tp2So.Kernel.Video
import Tp2So.Lib.Moves
import Mathlib.Algebra.Order.Group.Nat

/-!
# Scrolling the video memory in place

The loops of `scrollVideoMemoryUp` are assignments to ascending bytes, and none reads a byte below the one it
writes: each reads what was there before the first of them.

* `place_lt`          the colour bytes ascend with the row, the column and the colour;
* `scroll_eq`         the loops as one list of assignments;
* `scrolled_moves`    what they leave;
* `scroll_none`       a row so far on that its offset is no `int`.
-/

set_option linter.unusedVariables false

namespace Tp2So

namespace Video

/-- the `k`-th colour byte of a pixel -/
def VbeModeInfo.place (v : VbeModeInfo) (x y k : Nat) : Nat := x * v.bytes + y * v.pitch.toNat + k

/-- the `k`-th byte of a colour -/
def colourByte (c : UInt32) : Nat → UInt8
  | 0 => blue c
  | 1 => green c
  | _ => red c

/-- the rows were moved up by `scroll`, the last ones have the colour `c`, and nothing else was written -/
structure Scrolled (v : VbeModeInfo) (scroll : Nat) (c : UInt32) (fb fb' : Nat → UInt8) : Prop where
  moved : ∀ x < v.width.toNat, ∀ y < v.height.toNat - scroll, ∀ k < 3,
    fb' (v.place x y k) = fb (v.place x (y + scroll) k)
  filled : ∀ x < v.width.toNat, ∀ y < v.height.toNat, v.height.toNat - scroll ≤ y → ∀ k < 3,
    fb' (v.place x y k) = colourByte c k
  others : ∀ a, (∀ x < v.width.toNat, ∀ y < v.height.toNat, ∀ k < 3, a ≠ v.place x y k) → fb' a = fb a

/-! ## the assignments -/

/-- what goes to a byte: the one `scroll` rows below, or the colour -/
def byteSource (v : VbeModeInfo) (scroll : Nat) (c : UInt32) (x y k : Nat) : Source Nat UInt8 :=
  if y < v.height.toNat - scroll then .cell (v.place x (y + scroll) k) else .value (colourByte c k)

def pixelMoves (v : VbeModeInfo) (scroll : Nat) (c : UInt32) (y x : Nat) : List (Move Nat UInt8) :=
  (List.range 3).map fun k => ⟨v.place x y k, byteSource v scroll c x y k⟩

def rowMoves (v : VbeModeInfo) (scroll : Nat) (c : UInt32) (y : Nat) : List (Move Nat UInt8) :=
  (List.range v.width.toNat).flatMap (pixelMoves v scroll c y)

def screenMoves (v : VbeModeInfo) (scroll : Nat) (c : UInt32) (rows : List Nat) : List (Move Nat UInt8) :=
  rows.flatMap (rowMoves v scroll c)

section
variable {v : VbeModeInfo} {scroll : Nat} {c : UInt32} {fb : Nat → UInt8} {x x' y y' k k' n : Nat}
  {rows : List Nat} {t : Move Nat UInt8}

/-! ## the places ascend -/

theorem row_lt (hpitch : v.width.toNat * v.bytes ≤ v.pitch.toNat) (hbytes : 3 ≤ v.bytes) (hx : x < v.width.toNat)
    (hk : k < 3) (hy : y < y') : v.place x y k < v.place x' y' k' := by
  have hcolumn : (x + 1) * v.bytes ≤ v.width.toNat * v.bytes := Nat.mul_le_mul_right _ hx
  have hrow : (y + 1) * v.pitch.toNat ≤ y' * v.pitch.toNat := Nat.mul_le_mul_right _ hy
  rw [Nat.add_mul, Nat.one_mul] at hcolumn hrow
  unfold VbeModeInfo.place
  omega

theorem column_lt (hbytes : 3 ≤ v.bytes) (hk : k < 3) (hx : x < x') : v.place x y k < v.place x' y k' := by
  have hcolumn : (x + 1) * v.bytes ≤ x' * v.bytes := Nat.mul_le_mul_right _ hx
  rw [Nat.add_mul, Nat.one_mul] at hcolumn
  unfold VbeModeInfo.place
  omega

theorem place_le (v : VbeModeInfo) (scroll x y k : Nat) : v.place x y k ≤ v.place x (y + scroll) k := by
  have hrow : y * v.pitch.toNat ≤ (y + scroll) * v.pitch.toNat := Nat.mul_le_mul_right _ (Nat.le_add_right _ _)
  unfold VbeModeInfo.place
  omega

theorem mem_pixelMoves : t ∈ pixelMoves v scroll c y x ↔ ∃ k < 3, t = ⟨v.place x y k, byteSource v scroll c x y k⟩ := by
  unfold pixelMoves
  rw [List.mem_map]
  exact exists_congr fun k => and_congr List.mem_range eq_comm

theorem mem_rowMoves : t ∈ rowMoves v scroll c y ↔
    ∃ x < v.width.toNat, ∃ k < 3, t = ⟨v.place x y k, byteSource v scroll c x y k⟩ := by
  unfold rowMoves
  rw [List.mem_flatMap]
  exact exists_congr fun x => and_congr List.mem_range mem_pixelMoves

theorem mem_screenMoves : t ∈ screenMoves v scroll c rows ↔
    ∃ y ∈ rows, ∃ x < v.width.toNat, ∃ k < 3, t = ⟨v.place x y k, byteSource v scroll c x y k⟩ := by
  unfold screenMoves
  rw [List.mem_flatMap]
  exact exists_congr fun y => and_congr_right fun _ => mem_rowMoves

theorem screenMoves_ascending (hpitch : v.width.toNat * v.bytes ≤ v.pitch.toNat) (hbytes : 3 ≤ v.bytes)
    (hrows : rows.Pairwise (· < ·)) :
    (screenMoves v scroll c rows).Pairwise fun s t => s.target < t.target := by
  unfold screenMoves
  rw [List.pairwise_flatMap]
  refine ⟨fun y _ => ?_, hrows.imp fun hy s hs t ht => ?_⟩
  · unfold rowMoves
    rw [List.pairwise_flatMap]
    refine ⟨fun x _ => ?_, List.pairwise_lt_range.imp fun hx s hs t ht => ?_⟩
    · unfold pixelMoves
      rw [List.pairwise_map]
      exact List.pairwise_lt_range.imp fun hk => Nat.add_lt_add_left hk _
    · obtain ⟨k, hk, rfl⟩ := mem_pixelMoves.mp hs
      obtain ⟨k', -, rfl⟩ := mem_pixelMoves.mp ht
      exact column_lt hbytes hk hx
  · obtain ⟨x, hx, k, hk, rfl⟩ := mem_rowMoves.mp hs
    obtain ⟨x', -, k', -, rfl⟩ := mem_rowMoves.mp ht
    exact row_lt hpitch hbytes hx hk hy

/-- no assignment reads below the byte it writes -/
theorem screenMoves_read (ht : t ∈ screenMoves v scroll c rows) {a : Nat} (ha : t.source = .cell a) :
    t.target ≤ a := by
  obtain ⟨y, -, x, -, k, -, rfl⟩ := mem_screenMoves.mp ht
  dsimp only at ha ⊢
  unfold byteSource at ha
  by_cases hy : y < v.height.toNat - scroll
  · rw [if_pos hy] at ha
    obtain rfl := Source.cell.inj ha
    exact place_le v scroll x y k
  · rw [if_neg hy] at ha
    cases ha

/-- the bytes of all rows, after the assignments -/
theorem scrolled_moves (hpitch : v.width.toNat * v.bytes ≤ v.pitch.toNat) (hbytes : 3 ≤ v.bytes) :
    Scrolled v scroll c fb (runMoves (screenMoves v scroll c (List.range v.height.toNat)) fb) := by
  have hat : ∀ x < v.width.toNat, ∀ y < v.height.toNat, ∀ k < 3,
      runMoves (screenMoves v scroll c (List.range v.height.toNat)) fb (v.place x y k) =
        (byteSource v scroll c x y k).read fb := by
    intro x hx y hy k hk
    have hmem : (⟨v.place x y k, byteSource v scroll c x y k⟩ : Move Nat UInt8) ∈
        screenMoves v scroll c (List.range v.height.toNat) :=
      mem_screenMoves.mpr ⟨y, List.mem_range.mpr hy, x, hx, k, hk, rfl⟩
    exact runMoves_ascending (screenMoves_ascending hpitch hbytes List.pairwise_lt_range)
      (fun t ht a ha => screenMoves_read ht ha) hmem
  refine ⟨fun x hx y hy k hk => ?_, fun x hx y hy hlast k hk => ?_, fun a ha => ?_⟩
  · rw [hat x hx y (by omega) k hk]
    unfold byteSource
    rw [if_pos hy]
    rfl
  · rw [hat x hx y hy k hk]
    unfold byteSource
    rw [if_neg (Nat.not_lt.mpr hlast)]
    rfl
  · refine runMoves_other fun t ht htarget => ?_
    obtain ⟨y, hy, x, hx, k, hk, rfl⟩ := mem_screenMoves.mp ht
    exact ha x hx y (List.mem_range.mp hy) k hk htarget.symm

/-! ## the loops -/

theorem copyPixel_eq (hy : y < v.height.toNat - scroll) :
    copyPixel (x * v.bytes + y * v.pitch.toNat) (x * v.bytes + (y + scroll) * v.pitch.toNat) fb =
      runMoves (pixelMoves v scroll c y x) fb := by
  unfold pixelMoves byteSource
  simp only [if_pos hy]
  rfl

theorem fillPixel_eq (hy : ¬y < v.height.toNat - scroll) :
    fillPixel c (x * v.bytes + y * v.pitch.toNat) fb = runMoves (pixelMoves v scroll c y x) fb := by
  unfold pixelMoves byteSource
  simp only [if_neg hy]
  rfl

/-- each turn of a loop over a row makes the assignments of its pixel -/
theorem foldl_pixels {f : (Nat → UInt8) → Nat → Nat → UInt8}
    (h : ∀ fb x, f fb x = runMoves (pixelMoves v scroll c y x) fb) :
    (List.range v.width.toNat).foldl f fb = runMoves (rowMoves v scroll c y) fb := by
  unfold rowMoves
  rw [runMoves_flatMap]
  exact List.foldl_ext _ _ _ fun fb x _ => h fb x

theorem copyRow_eq (hy : y < v.height.toNat - scroll) :
    copyRow v (y * v.pitch.toNat) ((y + scroll) * v.pitch.toNat) fb = runMoves (rowMoves v scroll c y) fb :=
  foldl_pixels fun _ _ => copyPixel_eq hy

theorem fillRow_eq (hy : ¬y < v.height.toNat - scroll) :
    fillRow v c (y * v.pitch.toNat) fb = runMoves (rowMoves v scroll c y) fb :=
  foldl_pixels fun _ _ => fillPixel_eq hy

theorem intMul_some {a b : Nat} (h : a * b < 2147483648) : intMul a b = some (a * b) := if_pos h

theorem intMul_none {a b : Nat} (h : ¬a * b < 2147483648) : intMul a b = none := if_neg h

/-- each turn of a loop over rows makes the assignments of its row -/
theorem foldlM_rows {f : (Nat → UInt8) → Nat → Option (Nat → UInt8)}
    (h : ∀ y ∈ rows, ∀ fb, f fb y = some (runMoves (rowMoves v scroll c y) fb)) :
    rows.foldlM f fb = some (runMoves (screenMoves v scroll c rows) fb) := by
  induction rows generalizing fb with
  | nil => rfl
  | cons y rows ih =>
    obtain ⟨hy, hrows⟩ := List.forall_mem_cons.mp h
    rw [List.foldlM_cons, hy]
    show rows.foldlM f _ = _
    rw [ih hrows]
    unfold screenMoves
    rw [List.flatMap_cons, runMoves_append]

theorem foldlM_undefined {f : (Nat → UInt8) → Nat → Option (Nat → UInt8)} (hy : y ∈ rows)
    (h : ∀ fb, f fb y = none) : rows.foldlM f fb = none := by
  induction rows generalizing fb with
  | nil => exact absurd hy List.not_mem_nil
  | cons y' rows ih =>
    rw [List.foldlM_cons]
    rcases List.mem_cons.mp hy with rfl | hy
    · rw [h]
      rfl
    · cases f fb y' with
      | none => rfl
      | some fb' => exact ih hy

theorem screenMoves_split (n : Nat) (hn : n ≤ v.height.toNat) :
    screenMoves v scroll c (List.range v.height.toNat) =
      screenMoves v scroll c (List.range n) ++ screenMoves v scroll c (List.range' n (v.height.toNat - n)) := by
  have hrange : List.range v.height.toNat = List.range n ++ List.range' n (v.height.toNat - n) := by
    have happend := List.range'_append_1 (s := 0) (m := n) (n := v.height.toNat - n)
    rw [Nat.zero_add, Nat.add_sub_cancel' hn] at happend
    rw [List.range_eq_range', List.range_eq_range', happend]
  unfold screenMoves
  rw [hrange, List.flatMap_append]

end

section
variable {v : VbeModeInfo} {scroll : UInt16} {c : UInt32} {fb : Nat → UInt8} {y : Nat}

theorem row_offset (h : (v.height.toNat - 1) * v.pitch.toNat < 2147483648) (hy : y < v.height.toNat) :
    y * v.pitch.toNat < 2147483648 :=
  Nat.lt_of_le_of_lt (Nat.mul_le_mul_right _ (Nat.le_sub_one_of_lt hy)) h

theorem first_row (hscroll : scroll ≤ v.height) :
    (v.height - scroll).toNat = v.height.toNat - scroll.toNat := UInt16.toNat_sub_of_le _ _ hscroll

theorem scroll_eq (hscroll : scroll ≤ v.height) (h : (v.height.toNat - 1) * v.pitch.toNat < 2147483648) :
    scrollVideoMemoryUp v scroll c fb =
      some (runMoves (screenMoves v scroll.toNat c (List.range v.height.toNat)) fb) := by
  have hcopy : ∀ y ∈ List.range (v.height.toNat - scroll.toNat), ∀ fb,
      ((intMul y v.pitch.toNat).bind fun yoffset =>
        (intMul (y + scroll.toNat) v.pitch.toNat).bind fun ynoffset => some (copyRow v yoffset ynoffset fb)) =
          some (runMoves (rowMoves v scroll.toNat c y) fb) := by
    intro y hy fb
    have hlt := List.mem_range.mp hy
    rw [intMul_some (row_offset h (by omega)), Option.bind_some, intMul_some (row_offset h (by omega)),
      Option.bind_some, copyRow_eq hlt]
  have hfill : ∀ y ∈ List.range' (v.height.toNat - scroll.toNat)
      (v.height.toNat - (v.height.toNat - scroll.toNat)), ∀ fb,
      ((intMul y v.pitch.toNat).bind fun yoffset => some (fillRow v c yoffset fb)) =
        some (runMoves (rowMoves v scroll.toNat c y) fb) := by
    intro y hy fb
    have hrange := List.mem_range'_1.mp hy
    have hlt : y < v.height.toNat := by omega
    have hge : ¬y < v.height.toNat - scroll.toNat := Nat.not_lt.mpr hrange.1
    rw [intMul_some (row_offset h hlt), Option.bind_some, fillRow_eq hge]
  unfold scrollVideoMemoryUp
  dsimp only
  rw [first_row hscroll, foldlM_rows hcopy, Option.bind_some, foldlM_rows hfill,
    screenMoves_split _ (Nat.sub_le _ scroll.toNat), runMoves_append]

/-- the offset of the last row does not fit -/
theorem scroll_none (hscroll : scroll ≤ v.height) (h : ¬(v.height.toNat - 1) * v.pitch.toNat < 2147483648) :
    scrollVideoMemoryUp v scroll c fb = none := by
  have hpos : 0 < v.height.toNat := by
    by_contra hzero
    rw [Nat.eq_zero_of_not_pos hzero, Nat.zero_sub, Nat.zero_mul] at h
    exact h (by decide)
  unfold scrollVideoMemoryUp
  dsimp only
  rw [first_row hscroll]
  by_cases hzero : scroll.toNat = 0
  · -- the last row is moved
    rw [hzero, foldlM_undefined (y := v.height.toNat - 1) (List.mem_range.mpr (by omega)) fun fb => ?_]
    · rfl
    · rw [intMul_none h]
      rfl
  · -- it is filled
    cases List.foldlM (m := Option) _ fb (List.range (v.height.toNat - scroll.toNat)) with
    | none => rfl
    | some fb =>
      refine foldlM_undefined (y := v.height.toNat - 1) (List.mem_range'_1.mpr (by omega)) fun fb => ?_
      rw [intMul_none h]
      rfl

/-- **In-place scrolling.**  It is exact on every screen whose rows all begin at an offset that is an `int`, and
undefined on every other. -/
theorem scrollVideoMemoryUp_iff (v : VbeModeInfo) (scroll : UInt16) (c : UInt32) (fb : Nat → UInt8)
    (hbytes : 3 ≤ v.bytes) (hpitch : v.width.toNat * v.bytes ≤ v.pitch.toNat) (hscroll : scroll ≤ v.height) :
    (∃ fb', scrollVideoMemoryUp v scroll c fb = some fb' ∧ Scrolled v scroll.toNat c fb fb') ↔
      (v.height.toNat - 1) * v.pitch.toNat < 2147483648 := by
  constructor
  · rintro ⟨fb', hrun, -⟩
    by_contra h
    rw [scroll_none hscroll h] at hrun
    cases hrun
  · exact fun h => ⟨_, scroll_eq hscroll h, scrolled_moves hpitch hbytes⟩

theorem scrollVideoMemoryUp_vga :
    (∃ fb', scrollVideoMemoryUp ⟨1024, 768, 3072, 24⟩ 16 0 (fun _ => 0) = some fb' ∧
        Scrolled ⟨1024, 768, 3072, 24⟩ 16 0 (fun _ => 0) fb') ↔ (768 - 1) * 3072 < 2147483648 :=
  scrollVideoMemoryUp_iff ⟨1024, 768, 3072, 24⟩ 16 0 (fun _ => 0) (by decide) (by decide) (by decide)

/-- 32770 rows of 65535 bytes -/
theorem scrollVideoMemoryUp_tall :
    3 ≤ (⟨1024, 32770, 65535, 24⟩ : VbeModeInfo).bytes ∧
      1024 * (⟨1024, 32770, 65535, 24⟩ : VbeModeInfo).bytes ≤ 65535 ∧
      ¬∃ fb', scrollVideoMemoryUp ⟨1024, 32770, 65535, 24⟩ 16 0 (fun _ => 0) = some fb' ∧
        Scrolled ⟨1024, 32770, 65535, 24⟩ 16 0 (fun _ => 0) fb' := by
  refine ⟨by decide, by decide, ?_⟩
  rintro ⟨fb', hrun, -⟩
  rw [scroll_none (by decide) (by decide)] at hrun
  cases hrun

end

end Video

end Tp2So
