import Tp2So.Memory.Blocks

/-!
# How the blocks lie

`Ground` is the layout alone: the blocks fill the region, each aligned to its own size.  `Laid` adds
what the memory says about it: the lists are linked through the free blocks `F`, the live blocks `V`
have their order in their first byte, and no two buddies are free.  The blocks `L` are in nobody's
hands: `mm_alloc` and `mm_free` have taken them from where they were.

* `Ground.cut`, `Ground.join`                   a block is halved, two buddies are joined;
* `Laid.pop`, `Laid.push`, `Laid.unlink`        a block leaves a list, or comes to one;
* `Laid.mark`, `Laid.unmark`                    a block becomes a live one, or ends as one.
-/

set_option linter.unusedVariables false

namespace Tp2So

namespace Buddy

structure Ground (start total : Nat) (B : List (Nat × Nat)) : Prop where
  tiling : Tiling start (start + total) (B.map span)
  aligned : ∀ x ∈ B, blockSize x.2 ∣ x.1 - start
  pos : 0 < start
  bound : start + total ≤ 18446744073709551616
  top : ∃ K, K ≤ maxOrder ∧ total = blockSize K

section
variable {start total a b c k : Nat} {B B' : List (Nat × Nat)} {x y : Nat × Nat}

theorem Ground.perm (h : Ground start total B) (hp : B.Perm B') : Ground start total B' :=
  ⟨h.tiling.perm (hp.map span), fun x hx => h.aligned x (hp.mem_iff.mpr hx), h.pos, h.bound, h.top⟩

theorem Ground.inside (h : Ground start total B) (hx : x ∈ B) :
    start ≤ x.1 ∧ x.1 + blockSize x.2 ≤ start + total :=
  h.tiling.inside (span x) (List.mem_map_of_mem hx)

theorem Ground.order_le (h : Ground start total B) (hx : x ∈ B) : x.2 ≤ maxOrder := by
  obtain ⟨K, hK, htop⟩ := h.top
  obtain ⟨h1, h2⟩ := h.inside hx
  have : x.2 ≤ K := order_le_of_size (by omega)
  omega

theorem Ground.same_start (h : Ground start total B) (hx : x ∈ B) (hy : y ∈ B) (he : x.1 = y.1) :
    x = y := by
  have hnd := h.tiling.nodup
  rw [List.map_map] at hnd
  exact List.inj_on_of_nodup_map hnd hx hy he

theorem Ground.apart (h : Ground start total B) (hx : x ∈ B) (hy : y ∈ B) (hne : x ≠ y) :
    Apart (span x) (span y) :=
  h.tiling.apart_of_mem (List.mem_map_of_mem hx) (List.mem_map_of_mem hy)
    fun e => hne (h.same_start hx hy (Prod.mk.inj e).1)

theorem Ground.head_apart (h : Ground start total (x :: B)) (hy : y ∈ B) :
    Apart (span x) (span y) :=
  h.tiling.head_apart (List.mem_map_of_mem hy)

theorem Ground.head_ne (h : Ground start total (x :: B)) (hy : y ∈ B) : y.1 ≠ x.1 := by
  intro e
  have hap := h.head_apart hy
  have h1 := blockSize_pos x.2
  have h2 := blockSize_pos y.2
  simp only [Apart, span] at hap
  omega

theorem Ground.nodup (h : Ground start total B) : (B.map Prod.fst).Nodup := by
  have := h.tiling.nodup
  rw [List.map_map] at this
  exact this

theorem Ground.cut (h : Ground start total ((a, k + 1) :: B)) :
    Ground start total ((a, k) :: (a + blockSize k, k) :: B) := by
  obtain ⟨hd, hrest⟩ := List.forall_mem_cons.mp h.aligned
  have hlo := (h.inside List.mem_cons_self).1
  have hdvd : blockSize k ∣ a - start := by
    rw [blockSize_succ] at hd
    exact Nat.dvd_trans ⟨2, by ring⟩ hd
  refine ⟨?_, ?_, h.pos, h.bound, h.top⟩
  · have ht := h.tiling
    rw [List.map_cons] at ht
    have hspan : span (a, k + 1) = (a, blockSize k + blockSize k) := by
      unfold span
      rw [blockSize_succ]
    rw [hspan] at ht
    exact (tiling_cut (blockSize_pos k) (blockSize_pos k)).mp ht
  · refine List.forall_mem_cons.mpr ⟨hdvd, List.forall_mem_cons.mpr ⟨?_, hrest⟩⟩
    have hlo' : start ≤ a := hlo
    rw [show a + blockSize k - start = a - start + blockSize k by omega]
    exact Nat.dvd_add hdvd (Nat.dvd_refl _)

theorem Ground.join (h : Ground start total ((a, k) :: (a + blockSize k, k) :: B))
    (hd : blockSize (k + 1) ∣ a - start) : Ground start total ((a, k + 1) :: B) := by
  obtain ⟨-, hrest⟩ := List.forall_mem_cons.mp h.aligned
  obtain ⟨-, hrest⟩ := List.forall_mem_cons.mp hrest
  refine ⟨?_, List.forall_mem_cons.mpr ⟨hd, hrest⟩, h.pos, h.bound, h.top⟩
  rw [List.map_cons]
  have hspan : span (a, k + 1) = (a, blockSize k + blockSize k) := by
    unfold span
    rw [blockSize_succ]
  rw [hspan]
  exact (tiling_cut (blockSize_pos k) (blockSize_pos k)).mpr h.tiling

theorem Ground.joinBuddy (h : Ground start total ((a, k) :: (buddyAt start a k, k) :: B)) :
    Ground start total ((if buddyAt start a k < a then buddyAt start a k else a, k + 1) :: B) := by
  have hlo : start ≤ a := (h.inside List.mem_cons_self).1
  have hd : blockSize k ∣ a - start := h.aligned _ List.mem_cons_self
  have hpos := blockSize_pos k
  rcases buddyAt_cases hlo hd with ⟨hup, hdvd⟩ | ⟨hdown, -, hdvd⟩
  · have hnot : ¬ buddyAt start a k < a := by omega
    rw [if_neg hnot]
    simp only [hup] at h
    exact h.join hdvd
  · have hlt : buddyAt start a k < a := by omega
    rw [if_pos hlt]
    have h' := h.perm (List.Perm.swap _ _ _)
    have hup : a = buddyAt start a k + blockSize k := hdown.symm
    generalize buddyAt start a k = b at *
    subst hup
    exact h'.join hdvd

/-- the buddy of a block that is not the whole region is inside the region -/
theorem Ground.buddy_inside (h : Ground start total B) (hx : (a, k) ∈ B)
    (hlt : blockSize k < total) :
    start ≤ buddyAt start a k ∧ buddyAt start a k + blockSize k ≤ start + total := by
  obtain ⟨K, hK, rfl⟩ := h.top
  obtain ⟨h1, h2⟩ := h.inside hx
  have hpos := blockSize_pos k
  have hkK : k < K := by
    by_contra hc
    have := blockSize_le (Nat.le_of_not_lt hc)
    omega
  have h1' : start ≤ a := h1
  have h2' : a + blockSize k ≤ start + blockSize K := h2
  have hd : blockSize k ∣ a - start := h.aligned _ hx
  rcases buddyAt_cases h1' hd with ⟨hup, hdvd⟩ | ⟨hdown, hle, -⟩
  · -- the block of the next order is in the region as a whole
    have hbig : blockSize (k + 1) ∣ blockSize K := by
      rw [blockSize_eq, blockSize_eq]
      exact Nat.pow_dvd_pow 2 (by omega)
    have hdvd' : blockSize (k + 1) ∣ blockSize K - (a - start) := Nat.dvd_sub hbig hdvd
    have hle := Nat.le_of_dvd (by omega) hdvd'
    rw [blockSize_succ] at hle
    omega
  · omega

theorem Ground.full (h : Ground start total (x :: B)) (hx : blockSize x.2 = total) : B = [] := by
  have ht := h.tiling
  rw [List.map_cons] at ht
  have := ht.full (by show blockSize x.2 = _; omega)
  exact List.map_eq_nil_iff.mp this

end

/-! ## what the memory says -/

structure Laid (s : Buddy) (F : Nat → List Nat) (V L : List (Nat × Nat)) : Prop where
  ground : Ground s.startAddr s.totalManagedBytes (L ++ (V ++ blocksOf F))
  chain : ∀ k, k ≤ maxOrder → Seg (load64 s.mem) (s.buddyLists k) (F k) 0
  header : ∀ x ∈ V, (s.mem x.1).toNat = x.2
  single : ∀ k, k ≤ maxOrder → ∀ a ∈ F k, buddyAt s.startAddr a k ∉ F k

/-- the memory of a block is as it was -/
def Intact (m m' : Nat → UInt8) (x : Nat × Nat) : Prop :=
  ∀ i, x.1 ≤ i → i < x.1 + blockSize x.2 → m' i = m i

section
variable {s : Buddy} {F : Nat → List Nat} {V V' L L' : List (Nat × Nat)} {a b c k v : Nat}
  {x y : Nat × Nat} {m m' m'' : Nat → UInt8} {l l₁ l₂ : List Nat}

theorem Intact.trans (h : Intact m m' x) (h' : Intact m' m'' x) : Intact m m'' x :=
  fun i h1 h2 => (h' i h1 h2).trans (h i h1 h2)

theorem Intact.load (h : Intact m m' x) : load64 m' x.1 = load64 m x.1 := by
  have h8 := eight_le_blockSize x.2
  apply load64_congr
  intro i h1 h2
  exact h i h1 (by omega)

theorem Intact.head (h : Intact m m' x) : m' x.1 = m x.1 :=
  h x.1 (Nat.le_refl _) (Nat.lt_add_of_pos_right (blockSize_pos x.2))

theorem intact_store64 (h : Apart (span x) (span y)) : Intact m (store64 m x.1 v) y := by
  intro i h1 h2
  have h8 := eight_le_blockSize x.2
  apply store64_of_disjoint
  simp only [Apart, span] at h
  omega

theorem intact_update {w : UInt8} (h : Apart (span x) (span y)) :
    Intact m (Function.update m x.1 w) y := by
  intro i h1 h2
  have hpos := blockSize_pos x.2
  apply Function.update_of_ne
  simp only [Apart, span] at h
  omega

theorem chain_intact {p : Nat} (h : Seg (load64 m) p l 0) (hi : ∀ a ∈ l, Intact m m' (a, k)) :
    Seg (load64 m') p l 0 :=
  h.congr fun a ha => (hi a ha).load

theorem Laid.free_mem (h : Laid s F V L) (hk : k ≤ maxOrder) (ha : a ∈ F k) :
    (a, k) ∈ L ++ (V ++ blocksOf F) :=
  List.mem_append_right _ (List.mem_append_right _ (mem_blocksOf.mpr ⟨hk, ha⟩))

theorem Laid.live_mem (h : Laid s F V L) (hx : x ∈ V) : x ∈ L ++ (V ++ blocksOf F) :=
  List.mem_append_right _ (List.mem_append_left _ hx)

theorem Laid.word (h : Laid s F V L) (hx : x ∈ L ++ (V ++ blocksOf F)) :
    0 < x.1 ∧ x.1 < 18446744073709551616 := by
  obtain ⟨h1, h2⟩ := h.ground.inside hx
  have h3 := h.ground.pos
  have h4 := h.ground.bound
  have h5 := blockSize_pos x.2
  omega

theorem Laid.head_word (h : Laid s F V L) (hk : k ≤ maxOrder) :
    s.buddyLists k < 18446744073709551616 := by
  have hc := h.chain k hk
  cases hF : F k with
  | nil =>
    rw [hF] at hc
    rw [show s.buddyLists k = 0 from hc]
    omega
  | cons a l =>
    rw [hF] at hc
    rw [show s.buddyLists k = a from hc.1]
    exact (h.word (h.free_mem hk (by rw [hF]; exact List.mem_cons_self))).2

theorem Laid.list_nodup (h : Laid s F V L) (hk : k ≤ maxOrder) : (F k).Nodup := by
  have hnd := h.ground.nodup
  rw [List.map_append, List.map_append] at hnd
  have hnd := (List.nodup_append.mp (List.nodup_append.mp hnd).2.1).2.1
  have hsub : (F k).Sublist ((blocksOf F).map Prod.fst) := by
    unfold blocksOf
    rw [List.map_flatMap]
    simp only [List.map_map, Function.comp_def, List.map_id']
    have hk' : k ∈ List.range (maxOrder + 1) := List.mem_range.mpr (Nat.lt_succ_of_le hk)
    obtain ⟨l₁, l₂, he⟩ := List.append_of_mem hk'
    rw [he, List.flatMap_append, List.flatMap_cons]
    exact (List.sublist_append_left _ _).trans (List.sublist_append_right _ _)
  exact hnd.sublist hsub

theorem Laid.free_ne (h : Laid s F V L) (hx : x ∈ L ++ V) (hy : y ∈ blocksOf F) : x ≠ y := by
  have hnd := List.Nodup.of_map _ h.ground.nodup
  rw [← List.append_assoc] at hnd
  exact (List.nodup_append.mp hnd).2.2 x hx y hy

theorem Laid.permL (h : Laid s F V L) (hp : L.Perm L') : Laid s F V L' :=
  ⟨h.ground.perm (hp.append_right _), h.chain, h.header, h.single⟩

theorem Laid.cut (h : Laid s F V ((a, k + 1) :: L)) :
    Laid s F V ((a, k) :: (a + blockSize k, k) :: L) :=
  ⟨h.ground.cut, h.chain, h.header, h.single⟩

theorem Laid.joinBuddy {start : Nat} (hs : s.startAddr = start)
    (h : Laid s F V ((a, k) :: (buddyAt start a k, k) :: L)) :
    Laid s F V ((if buddyAt start a k < a then buddyAt start a k else a, k + 1) :: L) := by
  subst hs
  exact ⟨h.ground.joinBuddy, h.chain, h.header, h.single⟩

theorem Laid.single_update (h : Laid s F V L) (hl : ∀ a ∈ l, a ∈ F k) :
    ∀ c, c ≤ maxOrder → ∀ a ∈ Function.update F k l c,
      buddyAt s.startAddr a c ∉ Function.update F k l c := by
  intro c hc a ha
  by_cases e : c = k
  · subst e
    rw [Function.update_self] at ha ⊢
    exact fun hb => h.single c hc a (hl a ha) (hl _ hb)
  · rw [Function.update_of_ne e] at ha ⊢
    exact h.single c hc a ha

theorem perm_taken (hk : k ≤ maxOrder) (hF : (F k).Perm (a :: l)) :
    (L ++ (V ++ blocksOf F)).Perm ((a, k) :: (L ++ (V ++ blocksOf (Function.update F k l)))) :=
  ((((blocksOf_update hk hF).append_left V).trans List.perm_middle).append_left L).trans
    List.perm_middle

/-- the first block of a list is taken -/
theorem Laid.pop (h : Laid s F V L) (hk : k ≤ maxOrder) (hF : F k = a :: l) :
    Laid { s with buddyLists := Function.update s.buddyLists k (load64 s.mem a) }
      (Function.update F k l) V ((a, k) :: L) := by
  refine ⟨h.ground.perm (perm_taken hk (by rw [hF])), ?_, h.header, ?_⟩
  · intro c hc
    show Seg (load64 s.mem) (Function.update s.buddyLists k _ c) (Function.update F k l c) 0
    by_cases e : c = k
    · subst e
      rw [Function.update_self, Function.update_self]
      have hc' := h.chain c hc
      rw [hF] at hc'
      exact hc'.2
    · rw [Function.update_of_ne e, Function.update_of_ne e]
      exact h.chain c hc
  · apply h.single_update
    intro b hb
    rw [hF]
    exact List.mem_cons_of_mem _ hb

/-- a block that nobody holds is put on the list of its order -/
theorem Laid.push (h : Laid s F V ((b, c) :: L)) (hb : buddyAt s.startAddr b c ∉ F c) :
    Laid (s.push b c) (Function.update F c (b :: F c)) V L ∧
      ∀ x ∈ L ++ V, Intact s.mem (s.push b c).mem x := by
  have hc : c ≤ maxOrder := h.ground.order_le List.mem_cons_self
  have hword := h.head_word hc
  have hintact : ∀ x ∈ L ++ (V ++ blocksOf F), Intact s.mem (s.push b c).mem x :=
    fun x hx => intact_store64 (x := (b, c)) (h.ground.head_apart hx)
  have hfree : ∀ k, k ≤ maxOrder → ∀ a ∈ F k, Intact s.mem (s.push b c).mem (a, k) := by
    intro k hk a ha
    apply hintact
    exact List.mem_append_right _ (List.mem_append_right _ (mem_blocksOf.mpr ⟨hk, ha⟩))
  have hlive : ∀ x ∈ L ++ V, Intact s.mem (s.push b c).mem x := by
    intro x hx
    apply hintact
    rw [← List.append_assoc]
    exact List.mem_append_left _ hx
  have hin : s.startAddr ≤ b := (h.ground.inside List.mem_cons_self).1
  refine ⟨⟨?_, ?_, ?_, ?_⟩, hlive⟩
  · have hp := perm_taken (V := V) (L := L) (F := Function.update F c (b :: F c)) (a := b) (l := F c)
      hc (by rw [Function.update_self])
    rw [Function.update_idem, Function.update_eq_self] at hp
    exact h.ground.perm hp.symm
  · intro k hk
    show Seg _ (Function.update s.buddyLists c b k) (Function.update F c (b :: F c) k) 0
    by_cases e : k = c
    · subst e
      rw [Function.update_self, Function.update_self]
      refine ⟨rfl, ?_⟩
      have hload : load64 (s.push b k).mem b = s.buddyLists k := load64_store64 hword
      rw [hload]
      exact chain_intact (h.chain k hk) (hfree k hk)
    · rw [Function.update_of_ne e, Function.update_of_ne e]
      exact chain_intact (h.chain k hk) (hfree k hk)
  · intro x hx
    rw [(hlive x (List.mem_append_right _ hx)).head]
    exact h.header x hx
  · intro k hk a ha
    show buddyAt s.startAddr a k ∉ _
    by_cases e : k = c
    · subst e
      rw [Function.update_self] at ha ⊢
      intro hm
      rcases List.mem_cons.mp ha with rfl | ha
      · -- a block is not its own buddy
        rcases List.mem_cons.mp hm with he | hm
        · have hd : blockSize k ∣ a - s.startAddr := h.ground.aligned _ List.mem_cons_self
          have hpos := blockSize_pos k
          rcases buddyAt_cases hin hd with ⟨hup, -⟩ | ⟨hdown, -⟩ <;> omega
        · exact hb hm
      · rcases List.mem_cons.mp hm with he | hm
        · have hle : s.startAddr ≤ a := (h.ground.inside (h.free_mem hk ha)).1
          rw [← he, buddyAt_buddyAt hle] at hb
          exact hb ha
        · exact h.single k hk a ha hm
    · rw [Function.update_of_ne e] at ha ⊢
      exact h.single k hk a ha

/-- a block that nobody holds becomes a live one -/
theorem Laid.mark (h : Laid s F V [(a, k)]) :
    Laid { s with mem := Function.update s.mem a (UInt8.ofNat k) } F ((a, k) :: V) [] ∧
      ∀ x ∈ V, Intact s.mem (Function.update s.mem a (UInt8.ofNat k)) x := by
  have hk : k ≤ maxOrder := h.ground.order_le List.mem_cons_self
  have hintact : ∀ x ∈ V ++ blocksOf F,
      Intact s.mem (Function.update s.mem a (UInt8.ofNat k)) x :=
    fun x hx => intact_update (x := (a, k)) (h.ground.head_apart hx)
  refine ⟨⟨h.ground, ?_, ?_, h.single⟩, fun x hx => hintact x (List.mem_append_left _ hx)⟩
  · intro c hc
    refine chain_intact (k := c) (h.chain c hc) fun b hb => ?_
    exact hintact _ (List.mem_append_right _ (mem_blocksOf.mpr ⟨hc, hb⟩))
  · refine List.forall_mem_cons.mpr ⟨?_, fun x hx => ?_⟩
    · show (Function.update s.mem a (UInt8.ofNat k) a).toNat = k
      rw [Function.update_self]
      have h16 : k ≤ 16 := hk
      exact (UInt8.toNat_ofNat).trans (Nat.mod_eq_of_lt (by omega))
    · show (Function.update s.mem a (UInt8.ofNat k) x.1).toNat = x.2
      rw [(hintact x (List.mem_append_left _ hx)).head]
      exact h.header x hx

/-- a live block is taken back -/
theorem Laid.unmark (h : Laid s F V []) (hp : V.Perm (x :: V')) : Laid s F V' [x] :=
  ⟨h.ground.perm (hp.append_right _), h.chain,
    fun y hy => h.header y (hp.mem_iff.mpr (List.mem_cons_of_mem _ hy)), h.single⟩

end

end Buddy

end Tp2So
