import Tp2So.Memory.BuddyRuns

/-!
# Which requests the buddy system serves

* `targetOrder_ends`, `targetOrder_never`   the loop that rounds a size ends up to `2 ^ 63`, and not
                                            beyond;
* `Laid.region`       a region of a block's size and alignment without a live block is inside a free
                      block, since no two buddies are free;
* `mmAlloc_handles_iff`   the sizes that `mm_alloc` handles;
* `mmAlloc_null_iff`      a call fails exactly when there is no such region.
-/

set_option linter.unusedVariables false

namespace Tp2So

namespace Buddy

section
variable {s : Buddy} {F : Nat → List Nat} {V : List (Nat × Nat)} {a b c k size fuel base n target : Nat}
  {x y : Nat × Nat} {t : Client Buddy}

/-! ## rounding a size -/

theorem blockSize_doubled (hk : k < 51) : wrap64 (blockSize k * 2) = blockSize (k + 1) := by
  have hbig := blockSize_le (show k + 1 ≤ 51 from hk)
  have h51 : blockSize 51 = 9223372036854775808 := rfl
  rw [blockSize_succ] at hbig ⊢
  unfold wrap64
  omega

/-- `2 ^ 63` is the size of a block of order `51` -/
theorem targetOrder_ends {required : Nat} (d : Nat) : ∀ {order : Nat} (fuel : Nat), order + d ≤ 51 →
    required ≤ blockSize (order + d) → d < fuel →
    ∃ target, targetOrder required fuel (blockSize order) order = some target := by
  induction d with
  | zero =>
    intro order fuel ho hr hf
    obtain ⟨fuel, rfl⟩ := Nat.exists_eq_succ_of_ne_zero (Nat.pos_iff_ne_zero.mp hf)
    exact ⟨order, if_neg (Nat.not_lt.mpr hr)⟩
  | succ d ih =>
    intro order fuel ho hr hf
    obtain ⟨fuel, rfl⟩ := Nat.exists_eq_succ_of_ne_zero (show fuel ≠ 0 by omega)
    by_cases hlt : blockSize order < required
    · have hstep : targetOrder required (fuel + 1) (blockSize order) order
          = targetOrder required fuel (blockSize (order + 1)) (order + 1) := by
        rw [← blockSize_doubled (show order < 51 by omega)]
        exact if_pos hlt
      rw [hstep]
      refine ih fuel (by omega) ?_ (by omega)
      rw [show order + 1 + d = order + (d + 1) by omega]
      exact hr
    · exact ⟨order, if_neg hlt⟩

theorem targetOrder_zero {required : Nat} (hr : 0 < required) (fuel : Nat) : ∀ order,
    targetOrder required fuel 0 order = none := by
  induction fuel with
  | zero => exact fun order => rfl
  | succ fuel ih =>
    intro order
    have hstep : targetOrder required (fuel + 1) 0 order
        = targetOrder required fuel 0 (order + 1) := if_pos hr
    rw [hstep]
    exact ih (order + 1)

theorem targetOrder_never {required : Nat} (hr : 9223372036854775808 < required) (fuel : Nat) :
    ∀ {order : Nat}, order ≤ 51 → targetOrder required fuel (blockSize order) order = none := by
  have h51 : blockSize 51 = 9223372036854775808 := rfl
  induction fuel with
  | zero => exact fun _ => rfl
  | succ fuel ih =>
    intro order ho
    have hle := blockSize_le ho
    have hstep : targetOrder required (fuel + 1) (blockSize order) order
        = targetOrder required fuel (wrap64 (blockSize order * 2)) (order + 1) :=
      if_pos (by omega)
    rw [hstep]
    by_cases e : order < 51
    · rw [blockSize_doubled e]
      exact ih e
    · obtain rfl : order = 51 := by omega
      have hzero : wrap64 (blockSize 51 * 2) = 0 := rfl
      rw [hzero]
      exact targetOrder_zero (by omega) fuel _

theorem targetOrder_more {required target : Nat} (fuel : Nat) : ∀ {size order : Nat} (more : Nat),
    targetOrder required fuel size order = some target → fuel ≤ more →
    targetOrder required more size order = some target := by
  induction fuel with
  | zero =>
    intro size order more h hle
    exact absurd h (by simp [targetOrder])
  | succ fuel ih =>
    intro size order more h hle
    obtain ⟨more, rfl⟩ := Nat.exists_eq_succ_of_ne_zero (show more ≠ 0 by omega)
    by_cases hlt : size < required
    · have hstep : ∀ n, targetOrder required (n + 1) size order
          = targetOrder required n (wrap64 (size * 2)) (order + 1) := fun n => if_pos hlt
      rw [hstep] at h ⊢
      exact ih more h (by omega)
    · have hstep : ∀ n, targetOrder required (n + 1) size order = some order := fun n => if_neg hlt
      rw [hstep] at h ⊢
      exact h

theorem requiredSpace_of_lt (h : size + 8 < 18446744073709551616) : requiredSpace size = size + 8 := by
  have hw : wrap64 (size + metadataSize) = size + 8 := wrap64_of_lt h
  unfold requiredSpace
  rw [hw]
  exact if_neg (show ¬ size + 8 < 8 by omega)

theorem requiredSpace_wrapped (h : 18446744073709551616 ≤ size + 8)
    (hs : size < 18446744073709551616) : requiredSpace size = 8 := by
  have hw : wrap64 (size + metadataSize) < 8 := by
    show (size + 8) % 18446744073709551616 < 8
    omega
  unfold requiredSpace
  exact if_pos hw

/-! ## which lists are searched -/

/-- the search fails exactly when the lists from the target on are empty -/
theorem takeBlock_zero_iff (h : Laid s F V []) (n : Nat) : ∀ {order : Nat},
    order + n = maxOrder + 1 →
    ((takeBlock target n order s).1 = 0 ↔ ∀ k, order ≤ k → k ≤ maxOrder → F k = []) := by
  induction n with
  | zero =>
    intro order hn
    exact ⟨fun _ k h1 h2 => absurd h1 (by omega), fun _ => rfl⟩
  | succ n ih =>
    intro order hn
    have hk : order ≤ maxOrder := by omega
    have hc := h.chain order hk
    cases hF : F order with
    | nil =>
      rw [hF] at hc
      have h0 : s.buddyLists order = 0 := hc
      have hstep : takeBlock target (n + 1) order s = takeBlock target n (order + 1) s :=
        if_neg (not_not_intro h0)
      rw [hstep, ih (by omega)]
      constructor
      · intro hall k h1 h2
        by_cases e : k = order
        · rw [e]
          exact hF
        · exact hall k (by omega) h2
      · intro hall k h1 h2
        exact hall k (by omega) h2
    | cons a l =>
      rw [hF] at hc
      have ha : s.buddyLists order = a := hc.1
      have hmem := h.free_mem hk (show a ∈ F order by rw [hF]; exact List.mem_cons_self)
      have hword := h.word hmem
      have h0 : s.buddyLists order ≠ 0 := by
        rw [ha]
        exact Nat.pos_iff_ne_zero.mp hword.1
      have hptr : (takeBlock target (n + 1) order s).1 = wrap64 (a + metadataSize) := by
        show (if s.buddyLists order ≠ 0 then _ else _ : Nat × Buddy).1 = _
        rw [if_pos h0, ha]
      have hin : a + blockSize order ≤ s.startAddr + s.totalManagedBytes := (h.ground.inside hmem).2
      have hbound := h.ground.bound
      have hsize := blockSize_le (Nat.zero_le order)
      have hfirst : blockSize 0 = 4096 := rfl
      have hwrap : wrap64 (a + metadataSize) = a + metadataSize :=
        wrap64_of_lt (show a + 8 < _ by omega)
      rw [hptr, hwrap]
      constructor
      · intro hz
        exact absurd hz (show ¬ a + 8 = 0 by omega)
      · intro hall
        have hnil := hall order (Nat.le_refl _) hk
        rw [hF] at hnil
        exact absurd hnil (by simp)

/-! ## regions -/

/-- `a` is where a block of order `k` could lie -/
def Fitting (start total a k : Nat) : Prop :=
  start ≤ a ∧ a + blockSize k ≤ start + total ∧ blockSize k ∣ a - start

theorem blockSize_dvd (h : k ≤ c) : blockSize k ∣ blockSize c := by
  rw [blockSize_eq, blockSize_eq]
  exact Nat.pow_dvd_pow 2 (by omega)

/-- an aligned region that begins in a block at least as large is inside it -/
theorem inside_of_begins {start : Nat} (hk : k ≤ c) (ha : blockSize k ∣ a - start)
    (hb : blockSize c ∣ b - start) (hsb : start ≤ b) (h1 : b ≤ a) (h2 : a < b + blockSize c) :
    a + blockSize k ≤ b + blockSize c := by
  obtain ⟨q, hq⟩ := ha
  obtain ⟨r, hr⟩ := Nat.dvd_trans (blockSize_dvd hk) hb
  obtain ⟨m, hm⟩ := blockSize_dvd hk
  have hlt : blockSize k * q < blockSize k * (r + m) := by
    rw [Nat.mul_add]
    omega
  have hle : q + 1 ≤ r + m := Nat.lt_of_mul_lt_mul_left hlt
  have hmul : blockSize k * (q + 1) ≤ blockSize k * (r + m) := Nat.mul_le_mul_left _ hle
  rw [Nat.mul_add, Nat.mul_add, Nat.mul_one] at hmul
  omega

/-- **No space is lost**: a region that no live block touches is inside a free block. -/
theorem Laid.region (h : Laid s F V []) (k : Nat) : ∀ {a : Nat},
    Fitting s.startAddr s.totalManagedBytes a k → (∀ x ∈ V, Apart (span x) (a, blockSize k)) →
    ∃ x ∈ blocksOf F, x.1 ≤ a ∧ a + blockSize k ≤ x.1 + blockSize x.2 := by
  -- a block that is at least as large and holds the first byte
  have hwhole : ∀ {x : Nat × Nat} {a k : Nat}, x ∈ blocksOf F →
      Fitting s.startAddr s.totalManagedBytes a k → k ≤ x.2 → x.1 ≤ a → a < x.1 + blockSize x.2 →
      a + blockSize k ≤ x.1 + blockSize x.2 := by
    intro x a k hx hfit hk h1 h2
    have hm : x ∈ [] ++ (V ++ blocksOf F) := List.mem_append_right V hx
    exact inside_of_begins hk hfit.2.2 (h.ground.aligned x hm) (h.ground.inside hm).1 h1 h2
  induction k with
  | zero =>
    intro a hfit hlive
    have hpos := blockSize_pos 0
    obtain ⟨y, hy, h1, h2⟩ := h.ground.tiling.covers a hfit.1 (by have := hfit.2.1; omega)
    obtain ⟨x, hx, rfl⟩ := List.mem_map.mp hy
    have hall : x ∈ V ++ blocksOf F := hx
    have h1' : x.1 ≤ a := h1
    have h2' : a < x.1 + blockSize x.2 := h2
    rcases List.mem_append.mp hall with hx | hx
    · -- a live block would touch the region
      have hap := hlive x hx
      simp only [Apart, span] at hap
      omega
    · exact ⟨x, hx, h1', hwhole hx hfit (Nat.zero_le _) h1' h2'⟩
  | succ k ih =>
    intro a hfit hlive
    obtain ⟨hlo, hhi, hdvd⟩ := hfit
    have hhalf : blockSize k ∣ a - s.startAddr := Nat.dvd_trans (blockSize_dvd (Nat.le_succ k)) hdvd
    have hsucc := blockSize_succ k
    have hpos := blockSize_pos k
    have hlower : Fitting s.startAddr s.totalManagedBytes a k := ⟨hlo, by omega, hhalf⟩
    have hupper : Fitting s.startAddr s.totalManagedBytes (a + blockSize k) k := by
      refine ⟨by omega, by omega, ?_⟩
      rw [Nat.sub_add_comm hlo]
      exact Nat.dvd_add hhalf (Nat.dvd_refl _)
    have hapart : ∀ x ∈ V, Apart (span x) (a, blockSize k) ∧
        Apart (span x) (a + blockSize k, blockSize k) := by
      intro x hx
      have hap := hlive x hx
      simp only [Apart, span] at hap ⊢
      omega
    obtain ⟨x, hx, hx1, hx2⟩ := ih hlower fun x hx => (hapart x hx).1
    obtain ⟨y, hy, hy1, hy2⟩ := ih hupper fun x hx => (hapart x hx).2
    have hxk : k ≤ x.2 := order_le_of_size (by omega)
    have hyk : k ≤ y.2 := order_le_of_size (by omega)
    by_cases hxlarge : k + 1 ≤ x.2
    · exact ⟨x, hx, hx1, hwhole hx ⟨hlo, hhi, hdvd⟩ hxlarge hx1 (by omega)⟩
    have hym : y ∈ [] ++ (V ++ blocksOf F) := List.mem_append_right V hy
    have hyin := (h.ground.inside hym).1
    by_cases hylarge : k + 1 ≤ y.2
    · -- the upper half lies in a block that is aligned to the next order
      have hy0 : y.1 ≤ a := by
        obtain ⟨q, hq⟩ := hdvd
        obtain ⟨r, hr⟩ := Nat.dvd_trans (blockSize_dvd hylarge)
          (h.ground.aligned y hym)
        by_contra hlt
        have hmul : blockSize (k + 1) * q < blockSize (k + 1) * r := by omega
        have hle : q + 1 ≤ r := Nat.lt_of_mul_lt_mul_left hmul
        have hmul' : blockSize (k + 1) * (q + 1) ≤ blockSize (k + 1) * r := Nat.mul_le_mul_left _ hle
        rw [Nat.mul_add, Nat.mul_one] at hmul'
        omega
      exact ⟨y, hy, hy0, hwhole hy ⟨hlo, hhi, hdvd⟩ hylarge hy0 (by omega)⟩
    · -- otherwise the two halves are free buddies
      have hxe : x.2 = k := by omega
      have hye : y.2 = k := by omega
      rw [hxe] at hx2
      rw [hye] at hy2
      obtain ⟨hk, hxF⟩ := mem_blocksOf.mp hx
      have hyF := (mem_blocksOf.mp hy).2
      rw [hxe, show x.1 = a by omega] at hxF
      rw [hye, show y.1 = a + blockSize k by omega] at hyF
      have hsingle := h.single k (by omega) _ hyF
      rw [buddyAt_upper hlo hdvd] at hsingle
      exact absurd hxF hsingle

/-! ## calls -/

theorem mmAlloc_target (h0 : 0 < size) (hle : target ≤ maxOrder)
    (ht : targetOrder (requiredSpace size) fuel minBlockSize 0 = some target) :
    mmAlloc fuel s size = some (takeBlock target (maxOrder + 1 - target) target s) := by
  unfold mmAlloc
  rw [if_neg (Nat.pos_iff_ne_zero.mp h0), ht, Option.map_some, if_neg (Nat.not_lt.mpr hle)]

/-- the heads of the lists say which of them are empty -/
theorem Laid.empty_iff (h : Laid s F V []) (hk : k ≤ maxOrder) : s.buddyLists k = 0 ↔ F k = [] := by
  have hc := h.chain k hk
  cases hF : F k with
  | nil =>
    rw [hF] at hc
    exact ⟨fun _ => rfl, fun _ => hc⟩
  | cons a l =>
    rw [hF] at hc
    have hne := h.free_ne_zero hk a (by rw [hF]; exact List.mem_cons_self)
    refine ⟨fun h0 => ?_, fun hnil => absurd hnil (by simp)⟩
    exact absurd (hc.1.symm.trans h0) hne

theorem Given.header {r : Nat × Buddy} (h : Given s V target r) :
    target ≤ maxOrder ∧ metadataSize ≤ r.1 ∧ (r.2.mem (r.1 - metadataSize)).toNat = target := by
  obtain ⟨a, F', hptr, hl⟩ := h.laid
  have hmem : (a, target) ∈ (a, target) :: V := List.mem_cons_self
  refine ⟨hl.ground.order_le (x := (a, target)) (hl.live_mem hmem), by omega, ?_⟩
  rw [hptr, Nat.add_sub_cancel]
  exact hl.header (a, target) hmem

/-- `mm_alloc(size)` returns, and a block that it gives has `size` bytes after the pointer; the header
before the pointer holds the order of the block -/
def Handles (s : Buddy) (size : Nat) : Prop :=
  (∃ N, ∀ fuel, N ≤ fuel → (mmAlloc fuel s size).isSome = true) ∧
  ∀ fuel r, mmAlloc fuel s size = some r → r.1 ≠ 0 →
    r.1 + size ≤ r.1 - metadataSize + blockSize (r.2.mem (r.1 - metadataSize)).toNat

theorem mmAlloc_returns (s : Buddy) (hle : size + 8 ≤ 9223372036854775808) (hf : 52 ≤ fuel) :
    (mmAlloc fuel s size).isSome = true := by
  have h51 : blockSize 51 = 9223372036854775808 := rfl
  have hreq : requiredSpace size = size + 8 := requiredSpace_of_lt (by omega)
  unfold mmAlloc
  split
  · rfl
  · have hends : ∃ target, targetOrder (requiredSpace size) fuel (blockSize 0) 0 = some target :=
      targetOrder_ends 51 fuel (by omega) (by rw [hreq]; exact hle) (by omega)
    obtain ⟨target, ht⟩ := hends
    have ht' : targetOrder (requiredSpace size) fuel minBlockSize 0 = some target := ht
    rw [ht']
    rfl

theorem Laid.handles (h : Laid s F V []) (hle : size + 8 ≤ 9223372036854775808) :
    Handles s size := by
  have hreq : requiredSpace size = size + 8 := requiredSpace_of_lt (by omega)
  refine ⟨⟨52, fun fuel hf => mmAlloc_returns s hle hf⟩, fun fuel r hr h0 => ?_⟩
  rcases mmAlloc_spec h hr with rfl | ⟨target, hfits, hg⟩
  · exact absurd rfl h0
  · obtain ⟨-, hptr, hhead⟩ := hg.header
    rw [hhead]
    rw [hreq] at hfits
    have hptr' : 8 ≤ r.1 := hptr
    show r.1 + size ≤ r.1 - 8 + blockSize target
    omega

/-- a size that wraps is served from any block -/
theorem Laid.handles_wrapped_iff (h : Laid s F V []) (hs : size < 18446744073709551616)
    (hw : 18446744073709551616 ≤ size + 8) :
    Handles s size ↔ ∀ k, k ≤ maxOrder → s.buddyLists k = 0 := by
  have hreq := requiredSpace_wrapped hw hs
  have hcall : ∀ fuel, 1 ≤ fuel → mmAlloc fuel s size = some (takeBlock 0 (maxOrder + 1 - 0) 0 s) := by
    intro fuel hf
    refine mmAlloc_target (by omega) (Nat.zero_le _) ?_
    rw [hreq]
    exact targetOrder_more 1 fuel rfl hf
  have hnull : (takeBlock 0 (maxOrder + 1) 0 s).1 = 0 ↔ ∀ k, 0 ≤ k → k ≤ maxOrder → F k = [] :=
    takeBlock_zero_iff h (maxOrder + 1) (by omega)
  constructor
  · intro hh k hk
    rw [h.empty_iff hk]
    by_contra hne
    have hr := hcall 1 (Nat.le_refl _)
    have h0 : (takeBlock 0 (maxOrder + 1 - 0) 0 s).1 ≠ 0 := by
      intro hz
      exact hne (hnull.mp hz k (Nat.zero_le _) hk)
    have hroom := hh.2 1 _ hr h0
    rcases mmAlloc_spec h hr with hz | ⟨target, -, hg⟩
    · rw [hz] at h0
      exact absurd rfl h0
    · obtain ⟨hle, hptr, hhead⟩ := hg.header
      rw [hhead] at hroom
      have hbig := blockSize_le hle
      have h16 : blockSize maxOrder = 268435456 := rfl
      omega
  · intro hall
    have hz : (takeBlock 0 (maxOrder + 1 - 0) 0 s).1 = 0 :=
      hnull.mpr fun k _ hk => (h.empty_iff hk).mp (hall k hk)
    refine ⟨⟨1, fun fuel hf => by rw [hcall fuel hf]; rfl⟩, fun fuel r hr h0 => ?_⟩
    cases fuel with
    | zero =>
      have hnone : mmAlloc 0 s size = none := by
        unfold mmAlloc
        rw [if_neg (show ¬ size = 0 by omega)]
        rfl
      rw [hnone] at hr
      exact absurd hr (by simp)
    | succ fuel =>
      rw [hcall (fuel + 1) (by omega)] at hr
      rw [← Option.some.inj hr] at h0
      exact absurd hz h0

theorem not_handles (hlo : 9223372036854775808 < size + 8) (hhi : size + 8 < 18446744073709551616) :
    ¬ Handles s size := by
  intro hh
  obtain ⟨N, hN⟩ := hh.1
  have hreq := requiredSpace_of_lt hhi
  have hnever : targetOrder (requiredSpace size) N (blockSize 0) 0 = none :=
    targetOrder_never (by rw [hreq]; exact hlo) N (Nat.zero_le 51)
  have hnever' : targetOrder (requiredSpace size) N minBlockSize 0 = none := hnever
  have hsome := hN N (Nat.le_refl _)
  unfold mmAlloc at hsome
  rw [if_neg (show ¬ size = 0 by omega), hnever'] at hsome
  exact absurd hsome (by simp)

/-- **The sizes that `mm_alloc` handles**: up to `2 ^ 63` bytes with the header; beyond, the rounding
does not end, and where the sum with the header wraps the block is too small, unless there is none. -/
theorem mmAlloc_handles_iff {os : List MemOp} (s : Buddy) (hn : minBlockSize ≤ n) (hb : 0 < base)
    (hbound : base + n ≤ 18446744073709551616)
    (h : Runs (execMem manager) (fun o _ => o.isCall) os (.start (s.mmInit base n)) t)
    (hs : size < 18446744073709551616) :
    Handles t.s size ↔ size + 8 ≤ 9223372036854775808 ∨
      (18446744073709551616 ≤ size + 8 ∧ ∀ k, k ≤ maxOrder → t.s.buddyLists k = 0) := by
  obtain ⟨F, V, hh⟩ := held_run s hn hb hbound h
  have hl := hh.laid
  by_cases hle : size + 8 ≤ 9223372036854775808
  · exact ⟨fun _ => Or.inl hle, fun _ => hl.handles hle⟩
  by_cases hw : 18446744073709551616 ≤ size + 8
  · rw [hl.handles_wrapped_iff hs hw]
    exact ⟨fun hall => Or.inr ⟨hw, hall⟩, fun hc => (hc.resolve_left hle).2⟩
  · refine ⟨fun hh => absurd hh (not_handles (by omega) (by omega)), fun hc => ?_⟩
    rcases hc with h1 | h1
    · exact absurd h1 hle
    · exact absurd h1.1 hw

/-- **A call fails only for lack of space**: it returns, and with NULL exactly when a live block touches
every region that a block of the order could have. -/
theorem mmAlloc_null_iff {os : List MemOp} (s : Buddy) (hn : minBlockSize ≤ n) (hb : 0 < base)
    (hbound : base + n ≤ 18446744073709551616)
    (h : Runs (execMem manager) (fun o _ => o.isCall) os (.start (s.mmInit base n)) t)
    (h0 : 0 < size) (ht : targetOrder (requiredSpace size) fuel minBlockSize 0 = some target)
    (hle : target ≤ maxOrder) :
    ∃ N, ∀ fuel, N ≤ fuel → ∃ r, mmAlloc fuel t.s size = some r ∧
      (r.1 = 0 ↔ ¬ ∃ a, Fitting base (s.mmInit base n).totalManagedBytes a target ∧
        ∀ x ∈ liveBlocks t, Apart (span x) (a, blockSize target)) := by
  obtain ⟨F, V, hh⟩ := held_run s hn hb hbound h
  have hl := hh.laid
  refine ⟨fuel, fun more hmore => ⟨_, mmAlloc_target h0 hle (targetOrder_more fuel more ht hmore), ?_⟩⟩
  rw [takeBlock_zero_iff hl (maxOrder + 1 - target) (by omega)]
  constructor
  · -- a region lies in a free block, whose list would not be empty
    rintro hall ⟨a, hfit, hapart⟩
    have hfit' : Fitting t.s.startAddr t.s.totalManagedBytes a target := by
      rw [hh.start, hh.total]
      exact hfit
    obtain ⟨x, hx, h1, h2⟩ := hl.region target hfit' fun x hx =>
      hapart x (hh.liveBlocks.mem_iff.mp hx)
    obtain ⟨hk, hxF⟩ := mem_blocksOf.mp hx
    have hnil := hall x.2 (order_le_of_size (by omega)) hk
    rw [hnil] at hxF
    exact absurd hxF List.not_mem_nil
  · -- the beginning of a free block is such a region
    intro hnone k hk1 hk2
    by_contra hne
    obtain ⟨a, ha⟩ := List.exists_mem_of_ne_nil _ hne
    refine hnone ⟨a, ?_, fun x hx => ?_⟩
    · have hmem := hl.free_mem hk2 ha
      obtain ⟨h1, h2⟩ := hl.ground.inside hmem
      have hal := hl.ground.aligned _ hmem
      rw [hh.start] at h1 h2 hal
      rw [hh.total] at h2
      have hsize := blockSize_le hk1
      have h1' : base ≤ a := h1
      have h2' : a + blockSize k ≤ base + (s.mmInit base n).totalManagedBytes := h2
      exact ⟨h1', by omega, Nat.dvd_trans (blockSize_dvd hk1) hal⟩
    · have hxV := hh.liveBlocks.mem_iff.mpr hx
      have hap := hl.ground.apart (hl.live_mem hxV) (hl.free_mem hk2 ha)
        (hl.free_ne hxV (mem_blocksOf.mpr ⟨hk2, ha⟩))
      have hsize := blockSize_le hk1
      simp only [Apart, span] at hap ⊢
      omega

end

/-- after `mm_init` with four pages: the first size never returns, the second gets one page -/
theorem mmAlloc_unhandled :
    Runs (execMem manager) (fun o _ => o.isCall) [] (.start (blank.mmInit 4096 16384))
      (.start (blank.mmInit 4096 16384)) ∧
    ¬ Handles (blank.mmInit 4096 16384) 9223372036854775808 ∧
    (∀ fuel, mmAlloc fuel (blank.mmInit 4096 16384) 9223372036854775808 = none) ∧
    ¬ Handles (blank.mmInit 4096 16384) 18446744073709551615 ∧
    (mmAlloc 1 (blank.mmInit 4096 16384) 18446744073709551615).map
      (fun r => (r.1, blockSize (r.2.mem (r.1 - metadataSize)).toNat)) = some (4104, 4096) := by
  have hnever : ¬ Handles (blank.mmInit 4096 16384) 9223372036854775808 :=
    not_handles (by decide) (by decide)
  have hsmall : (mmAlloc 1 (blank.mmInit 4096 16384) 18446744073709551615).map
      (fun r => (r.1, blockSize (r.2.mem (r.1 - metadataSize)).toNat)) = some (4104, 4096) := by
    decide +kernel
  refine ⟨rfl, hnever, fun fuel => ?_, fun hh => ?_, hsmall⟩
  · have hreq : requiredSpace 9223372036854775808 = 9223372036854775816 := rfl
    have hnone : targetOrder (requiredSpace 9223372036854775808) fuel minBlockSize 0 = none :=
      targetOrder_never (by rw [hreq]; decide) fuel (Nat.zero_le 51)
    unfold mmAlloc
    rw [if_neg (by decide), hnone]
    rfl
  · obtain ⟨r, hr, hblock⟩ := Option.map_eq_some_iff.mp hsmall
    obtain ⟨hptr, hsize⟩ := Prod.mk.inj hblock
    have hroom := hh.2 1 r hr (by omega)
    omega

theorem mmAlloc_handles_fourPages : ∃ t, Runs (execMem manager) (fun o _ => o.isCall) fourPages
      (.start (blank.mmInit 4096 16384)) t ∧ Handles t.s 100 := by
  have hrun : (runIf (execMem manager) (fun o _ => o.isCall) fourPages
      (.start (blank.mmInit 4096 16384))).map (fun t => t.live) = some [(12296, 5000)] := by
    decide +kernel
  obtain ⟨t, ht, -⟩ := Option.map_eq_some_iff.mp hrun
  have h := runs_of_runIf ht
  have hsize : 100 < 18446744073709551616 := by decide
  exact ⟨t, h, (mmAlloc_handles_iff blank (by decide) (by decide) (by decide) h hsize).mpr
    (Or.inl (by decide))⟩

/-- a call for no bytes gets NULL, with all pages free -/
theorem mmAlloc_zero_null :
    Runs (execMem manager) (fun o _ => o.isCall) [] (.start (blank.mmInit 4096 16384))
      (.start (blank.mmInit 4096 16384)) ∧
    targetOrder (requiredSpace 0) 1 minBlockSize 0 = some 0 ∧
    (∀ fuel, (mmAlloc fuel (blank.mmInit 4096 16384) 0).map Prod.fst = some 0) ∧
    ∃ a, Fitting 4096 (blank.mmInit 4096 16384).totalManagedBytes a 0 ∧
      ∀ x ∈ liveBlocks (.start (blank.mmInit 4096 16384)), Apart (span x) (a, blockSize 0) := by
  have htotal : (blank.mmInit 4096 16384).totalManagedBytes = 16384 := by decide +kernel
  refine ⟨rfl, rfl, fun fuel => rfl, 4096, ?_, fun x hx => absurd hx List.not_mem_nil⟩
  rw [htotal]
  exact ⟨Nat.le_refl _, by decide, by decide⟩

theorem mmAlloc_null_fourPages : ∃ t, Runs (execMem manager) (fun o _ => o.isCall) fourPages
      (.start (blank.mmInit 4096 16384)) t ∧
      ∃ N, ∀ fuel, N ≤ fuel → ∃ r, mmAlloc fuel t.s 8000 = some r ∧
        (r.1 = 0 ↔ ¬ ∃ a, Fitting 4096 (blank.mmInit 4096 16384).totalManagedBytes a 1 ∧
          ∀ x ∈ liveBlocks t, Apart (span x) (a, blockSize 1)) := by
  have hrun : (runIf (execMem manager) (fun o _ => o.isCall) fourPages
      (.start (blank.mmInit 4096 16384))).map (fun t => t.live) = some [(12296, 5000)] := by
    decide +kernel
  obtain ⟨t, ht, -⟩ := Option.map_eq_some_iff.mp hrun
  have h := runs_of_runIf ht
  have htarget : targetOrder (requiredSpace 8000) 2 minBlockSize 0 = some 1 := by decide
  exact ⟨t, h, mmAlloc_null_iff blank (by decide) (by decide) (by decide) h (by decide) htarget
    (by decide)⟩

end Buddy

end Tp2So
