import Tp2So.Memory.Laid

/-!
# `mm_alloc` and `mm_free` of the buddy system

* `isBuddyFree_eq`, `removeFromList_eq`   the walks along a list, for any fuel;
* `mmAlloc_spec`   a call that returns has no block to give, or has made a free block a live one;
* `mmFree_spec`    the block of a live pointer is free afterwards, or a part of a larger free block;
* `mmFree_total`   the call returns, with fuel for as many steps as there are free blocks.

Both leave the memory of the other live blocks as it was.
-/

set_option linter.unusedVariables false

namespace Tp2So

namespace Buddy

section
variable {s : Buddy} {F : Nat → List Nat} {V L : List (Nat × Nat)} {a b c k p fuel order prev : Nat}
  {x : Nat × Nat} {m : Nat → UInt8} {l l₁ l₂ : List Nat}

/-! ## walks -/

/-- the walk finds the buddy when it is in the list, if it comes to an end -/
theorem isBuddyFree_eq (a : Nat) (l : List Nat) : ∀ {p : Nat} (fuel : Nat),
    Seg (load64 m) p l 0 → (∀ x ∈ l, x ≠ 0) →
    isBuddyFree m a fuel p = some (decide (a ∈ l)) ∨
      (isBuddyFree m a fuel p = none ∧ fuel ≤ l.length) := by
  induction l with
  | nil =>
    intro p fuel h h0
    have hp : p = 0 := h
    cases fuel with
    | zero => exact Or.inr ⟨rfl, Nat.le_refl _⟩
    | succ fuel =>
      refine Or.inl ?_
      show (if p = 0 then some false else _) = _
      rw [if_pos hp]
      rfl
  | cons b l ih =>
    intro p fuel h h0
    obtain ⟨hp, hl⟩ := h
    have hb : b ≠ 0 := h0 b List.mem_cons_self
    cases fuel with
    | zero => exact Or.inr ⟨rfl, Nat.zero_le _⟩
    | succ fuel =>
      have hstep : isBuddyFree m a (fuel + 1) p
          = if p = a then some true else isBuddyFree m a fuel (load64 m p) := by
        show (if p = 0 then some false else _) = _
        rw [if_neg (by omega)]
      rw [hstep, hp]
      by_cases e : b = a
      · rw [if_pos e]
        refine Or.inl ?_
        rw [e, decide_eq_true List.mem_cons_self]
      · rw [if_neg e]
        have hmem : decide (a ∈ b :: l) = decide (a ∈ l) :=
          decide_eq_decide.mpr ⟨fun hm => (List.mem_cons.mp hm).resolve_left fun e' => e e'.symm,
            fun hm => List.mem_cons_of_mem _ hm⟩
        rw [hmem]
        rcases ih fuel hl fun x hx => h0 x (List.mem_cons_of_mem _ hx) with
          hr | ⟨hr, hle⟩
        · exact Or.inl hr
        · exact Or.inr ⟨hr, Nat.succ_le_succ hle⟩

/-- a block is unlinked behind `prev`, or at the head of its list -/
def cutAfter (s : Buddy) (prev block order : Nat) : Buddy :=
  if prev = 0 then
    { s with buddyLists := Function.update s.buddyLists order (load64 s.mem block) }
  else { s with mem := store64 s.mem prev (load64 s.mem block) }

theorem removeLoop_eq (order : Nat) (l₁ : List Nat) : ∀ {p : Nat} (fuel prev : Nat),
    Seg (load64 s.mem) p (l₁ ++ a :: l₂) 0 → (∀ x ∈ l₁ ++ a :: l₂, x ≠ 0) → a ∉ l₁ →
    removeLoop s a order fuel prev p = some (s.cutAfter (l₁.getLastD prev) a order) ∨
      (removeLoop s a order fuel prev p = none ∧ fuel ≤ l₁.length) := by
  induction l₁ with
  | nil =>
    intro p fuel prev h h0 ha
    have hp : p = a := h.1
    have ha0 : a ≠ 0 := h0 a List.mem_cons_self
    cases fuel with
    | zero => exact Or.inr ⟨rfl, Nat.le_refl _⟩
    | succ fuel =>
      refine Or.inl ?_
      rw [hp]
      show (if a = 0 then some s else if a = a then _ else _) = _
      rw [if_neg ha0, if_pos rfl]
      show _ = some (s.cutAfter prev a order)
      unfold cutAfter
      split <;> rfl
  | cons b l₁ ih =>
    intro p fuel prev h h0 ha
    obtain ⟨hp, hl⟩ := h
    have hb : b ≠ 0 := h0 b List.mem_cons_self
    have hne : b ≠ a := fun e => ha (e ▸ List.mem_cons_self)
    cases fuel with
    | zero => exact Or.inr ⟨rfl, Nat.zero_le _⟩
    | succ fuel =>
      have hstep : removeLoop s a order (fuel + 1) prev p
          = removeLoop s a order fuel p (load64 s.mem p) := by
        show (if p = 0 then some s else if p = a then _ else _) = _
        rw [if_neg (by omega), if_neg (by omega)]
      rw [hstep, hp, List.getLastD_cons]
      rcases ih fuel b hl (fun x hx => h0 x (List.mem_cons_of_mem _ hx))
        (fun hm => ha (List.mem_cons_of_mem _ hm)) with hr | ⟨hr, hle⟩
      · exact Or.inl hr
      · exact Or.inr ⟨hr, Nat.succ_le_succ hle⟩

/-- **A free block is taken out of the middle of its list.** -/
theorem Laid.unlink (h : Laid s F V L) (hk : k ≤ maxOrder) (hF : F k = l₁ ++ a :: l₂) :
    Laid (s.cutAfter (l₁.getLastD 0) a k) (Function.update F k (l₁ ++ l₂)) V ((a, k) :: L) ∧
      ∀ x ∈ L ++ V, Intact s.mem (s.cutAfter (l₁.getLastD 0) a k).mem x := by
  rcases List.eq_nil_or_concat l₁ with rfl | ⟨l, b, rfl⟩
  · have he : s.cutAfter (List.getLastD [] 0) a k
        = { s with buddyLists := Function.update s.buddyLists k (load64 s.mem a) } := if_pos rfl
    rw [he]
    exact ⟨h.pop hk hF, fun x _ i _ _ => rfl⟩
  · -- the link of the block before, `b`, is changed
    rw [List.concat_eq_append] at hF ⊢
    have hb : b ∈ F k := by
      rw [hF]
      simp
    have hbm := h.free_mem hk hb
    have hb0 : b ≠ 0 := Nat.pos_iff_ne_zero.mp (h.word hbm).1
    have he : s.cutAfter ((l ++ [b]).getLastD 0) a k
        = { s with mem := store64 s.mem b (load64 s.mem a) } := by
      rw [List.getLastD_concat]
      exact if_neg hb0
    rw [he]
    have hnd := h.list_nodup hk
    rw [hF] at hnd
    have hintact : ∀ x ∈ L ++ (V ++ blocksOf F), x ≠ (b, k) →
        Intact s.mem (store64 s.mem b (load64 s.mem a)) x :=
      fun x hx hne => intact_store64 (x := (b, k)) (h.ground.apart hbm hx hne.symm)
    have hlive : ∀ x ∈ L ++ V, Intact s.mem (store64 s.mem b (load64 s.mem a)) x := by
      intro x hx
      refine hintact x ?_ (h.free_ne hx (mem_blocksOf.mpr ⟨hk, hb⟩))
      rw [← List.append_assoc]
      exact List.mem_append_left _ hx
    have hperm : (F k).Perm (a :: (l ++ [b] ++ l₂)) := by
      rw [hF]
      exact List.perm_middle
    refine ⟨⟨h.ground.perm (perm_taken hk hperm), ?_, ?_, ?_⟩, hlive⟩
    · intro c hc
      show Seg (load64 (store64 s.mem b _)) (s.buddyLists c) (Function.update F k _ c) 0
      by_cases e : c = k
      · subst e
        rw [Function.update_self]
        have hchain := h.chain c hc
        rw [hF, List.append_assoc] at hchain
        rw [List.append_assoc]
        refine hchain.unlink (load64_store64 (load64_lt _ _)) fun x hx => ?_
        have hxb : x ≠ b := by
          rintro rfl
          rw [List.append_assoc] at hnd
          have hnd' := List.nodup_middle.mp hnd
          refine (List.nodup_cons.mp hnd').1 ?_
          rcases List.mem_append.mp hx with hx | hx
          · exact List.mem_append_left _ hx
          · exact List.mem_append_right _ (List.mem_cons_of_mem _ hx)
        have hxF : x ∈ F c := by
          rw [hF]
          rcases List.mem_append.mp hx with hx | hx
          · simp [hx]
          · simp [hx]
        exact (hintact (x, c) (h.free_mem hc hxF) fun e => hxb (Prod.mk.inj e).1).load
      · rw [Function.update_of_ne e]
        refine chain_intact (k := c) (h.chain c hc) fun x hx => ?_
        exact hintact (x, c) (h.free_mem hc hx) fun e' => e (Prod.mk.inj e').2
    · intro x hx
      show (store64 s.mem b _ x.1).toNat = x.2
      rw [(hlive x (List.mem_append_right _ hx)).head]
      exact h.header x hx
    · apply h.single_update
      intro x hx
      exact hperm.mem_iff.mpr (List.mem_cons_of_mem _ hx)

theorem Laid.free_ne_zero (h : Laid s F V L) (hk : k ≤ maxOrder) : ∀ x ∈ F k, x ≠ 0 :=
  fun x hx => Nat.pos_iff_ne_zero.mp (h.word (h.free_mem hk hx)).1

theorem removeFromList_eq (fuel : Nat) (h : Laid s F V L) (hk : k ≤ maxOrder) (ha : a ∈ F k) :
    ∃ l₁ l₂, F k = l₁ ++ a :: l₂ ∧
      (removeFromList fuel s a k = some (s.cutAfter (l₁.getLastD 0) a k) ∨
        (removeFromList fuel s a k = none ∧ fuel ≤ (F k).length)) := by
  obtain ⟨l₁, l₂, hF⟩ := List.append_of_mem ha
  have hnd := h.list_nodup hk
  have h0 := h.free_ne_zero hk
  have hc := h.chain k hk
  rw [hF] at hnd h0 hc
  have hnot : a ∉ l₁ := fun hm =>
    (List.nodup_cons.mp (List.nodup_middle.mp hnd)).1 (List.mem_append_left _ hm)
  refine ⟨l₁, l₂, hF, ?_⟩
  rcases removeLoop_eq k l₁ fuel 0 hc h0 hnot with hr | ⟨hr, hle⟩
  · exact Or.inl hr
  · refine Or.inr ⟨hr, ?_⟩
    rw [hF, List.length_append]
    omega

/-! ## `mm_free` -/

/-- the region is the same -/
def SameRegion (s s' : Buddy) : Prop :=
  s'.startAddr = s.startAddr ∧ s'.totalManagedBytes = s.totalManagedBytes

theorem sameRegion_cutAfter (s : Buddy) (prev block order : Nat) :
    s.SameRegion (s.cutAfter prev block order) := by
  unfold cutAfter
  split <;> exact ⟨rfl, rfl⟩

theorem SameRegion.trans {s s' s'' : Buddy} (h : s.SameRegion s') (h' : s'.SameRegion s'') :
    s.SameRegion s'' :=
  ⟨h'.1.trans h.1, h'.2.trans h.2⟩

/-- inside the region nothing wraps -/
theorem Laid.buddyOf_eq (h : Laid s F V ((a, c) :: L)) (hlt : blockSize c < s.totalManagedBytes) :
    s.buddyOf a c = buddyAt s.startAddr a c := by
  have hm : (a, c) ∈ (a, c) :: L ++ (V ++ blocksOf F) := List.mem_cons_self
  obtain ⟨h1, h2⟩ := h.ground.buddy_inside hm hlt
  have h3 : s.startAddr ≤ a := (h.ground.inside hm).1
  have h4 := (h.word hm).2
  have h5 := h.ground.bound
  have h6 := blockSize_pos c
  have hsub : wrap64 (a + 18446744073709551616 - s.startAddr) = a - s.startAddr := by
    unfold wrap64
    omega
  unfold buddyOf
  rw [hsub, Nat.add_comm]
  exact wrap64_of_lt (show buddyAt s.startAddr a c < _ by omega)

theorem Laid.full_nil (h : Laid s F V [(a, c)]) (hc : c ≤ maxOrder)
    (hfull : ¬ blockSize c < s.totalManagedBytes) : F c = [] := by
  have hin := h.ground.inside (x := (a, c)) List.mem_cons_self
  have h1 : s.startAddr ≤ a := hin.1
  have h2 : a + blockSize c ≤ s.startAddr + s.totalManagedBytes := hin.2
  have hnil := h.ground.full (show blockSize c = _ by omega)
  cases hF : F c with
  | nil => rfl
  | cons b l =>
    have hm : (b, c) ∈ V ++ blocksOf F :=
      List.mem_append_right _ (mem_blocksOf.mpr ⟨hc, by rw [hF]; exact List.mem_cons_self⟩)
    have hm' : (b, c) ∈ ([] : List (Nat × Nat)) := hnil ▸ hm
    exact absurd hm' List.not_mem_nil

theorem length_le_blocksOf (hk : k ≤ maxOrder) : (F k).length ≤ (blocksOf F).length := by
  have hk' : k ∈ List.range (maxOrder + 1) := List.mem_range.mpr (Nat.lt_succ_of_le hk)
  obtain ⟨l₁, l₂, he⟩ := List.append_of_mem hk'
  unfold blocksOf
  rw [he, List.flatMap_append, List.flatMap_cons, List.length_append, List.length_append,
    List.length_map]
  omega

theorem Laid.top_nil (h : Laid s F V [(a, c)]) (hc : maxOrder ≤ c) : F c = [] := by
  refine h.full_nil (h.ground.order_le List.mem_cons_self) ?_
  obtain ⟨K, hK, he⟩ := h.ground.top
  have := blockSize_le (show K ≤ c by omega)
  omega

/-- what is left when the buddy of the block has been unlinked and the two are joined -/
structure Joined (s : Buddy) (F : Nat → List Nat) (V : List (Nat × Nat)) (a c : Nat) (l : List Nat)
    (s' : Buddy) : Prop where
  perm : (F c).Perm (buddyAt s.startAddr a c :: l)
  laid : Laid s' (Function.update F c l) V
    [(if buddyAt s.startAddr a c < a then buddyAt s.startAddr a c else a, c + 1)]
  region : s.SameRegion s'
  intact : ∀ x ∈ V, Intact s.mem s'.mem x

/-- **One round**: the free buddy is unlinked, and the two are joined. -/
theorem Laid.absorb (h : Laid s F V [(a, c)]) (fuel : Nat) (hc : c ≤ maxOrder)
    (hm : buddyAt s.startAddr a c ∈ F c) :
    (removeFromList fuel s (buddyAt s.startAddr a c) c = none ∧ fuel ≤ (F c).length) ∨
    ∃ s' l, removeFromList fuel s (buddyAt s.startAddr a c) c = some s' ∧ Joined s F V a c l s' := by
  obtain ⟨l₁, l₂, hF, hr⟩ := removeFromList_eq fuel h hc hm
  obtain ⟨hl, hintact⟩ := h.unlink hc hF
  have hregion := sameRegion_cutAfter s (l₁.getLastD 0) (buddyAt s.startAddr a c) c
  rcases hr with hr | hr
  · refine Or.inr ⟨_, l₁ ++ l₂, hr, ?_, (hl.permL (List.Perm.swap _ _ _)).joinBuddy hregion.1, hregion,
      ?_⟩
    · rw [hF]
      exact List.perm_middle
    · intro x hx
      exact hintact x (List.mem_append_right _ hx)
  · exact Or.inl hr

/-- one turn of the loop: the walk has not ended, the buddy is not free, or the two are joined -/
theorem mergeLoop_turn (h : Laid s F V [(a, c)]) (fuel n : Nat) (hlt : c < maxOrder) :
    (mergeLoop fuel (n + 1) a c s = none ∧ fuel ≤ (F c).length) ∨
    (mergeLoop fuel (n + 1) a c s = some (a, c, s) ∧ buddyAt s.startAddr a c ∉ F c) ∨
    ∃ s' l, Joined s F V a c l s' ∧ mergeLoop fuel (n + 1) a c s = mergeLoop fuel n
      (if buddyAt s.startAddr a c < a then buddyAt s.startAddr a c else a) (c + 1) s' := by
  have hc : c ≤ maxOrder := Nat.le_of_lt hlt
  have hstep : mergeLoop fuel (n + 1) a c s
      = (isBuddyFree s.mem (s.buddyOf a c) fuel (s.buddyLists c)).bind fun free =>
        if free then
          (removeFromList fuel s (s.buddyOf a c) c).bind fun s' =>
            mergeLoop fuel n (if s.buddyOf a c < a then s.buddyOf a c else a) (c + 1) s'
        else some (a, c, s) := if_pos hlt
  rw [hstep]
  rcases isBuddyFree_eq (s.buddyOf a c) (F c) fuel (h.chain c hc) (h.free_ne_zero hc) with
    hf | ⟨hf, hle⟩
  · rw [hf, Option.bind_some]
    by_cases hsize : blockSize c < s.totalManagedBytes
    · rw [h.buddyOf_eq hsize]
      by_cases hm : buddyAt s.startAddr a c ∈ F c
      · rw [decide_eq_true hm, if_pos rfl]
        rcases h.absorb fuel hc hm with ⟨hr, hle⟩ | ⟨s', l, hr, hj⟩
        · rw [hr]
          exact Or.inl ⟨rfl, hle⟩
        · rw [hr, Option.bind_some]
          exact Or.inr (Or.inr ⟨s', l, hj, rfl⟩)
      · rw [decide_eq_false hm, if_neg (by simp)]
        exact Or.inr (Or.inl ⟨rfl, hm⟩)
    · rw [h.full_nil hc hsize, decide_eq_false List.not_mem_nil, if_neg (by simp)]
      exact Or.inr (Or.inl ⟨rfl, List.not_mem_nil⟩)
  · rw [hf]
    exact Or.inl ⟨rfl, hle⟩

/-- what the joining leaves: one block, whose buddy is not free -/
structure Merged (s : Buddy) (V : List (Nat × Nat)) (r : Nat × Nat × Buddy) : Prop where
  laid : ∃ F, Laid r.2.2 F V [(r.1, r.2.1)] ∧ buddyAt r.2.2.startAddr r.1 r.2.1 ∉ F r.2.1
  region : s.SameRegion r.2.2
  intact : ∀ x ∈ V, Intact s.mem r.2.2.mem x

/-- **The loop of `mm_free`**: it leaves one block whose buddy is not free, and it ends when there is
fuel for the walks. -/
theorem mergeLoop_spec (fuel n : Nat) : ∀ {s : Buddy} {F : Nat → List Nat} {a c : Nat},
    Laid s F V [(a, c)] → maxOrder ≤ n + c →
    (∀ r, mergeLoop fuel n a c s = some r → Merged s V r) ∧
      ((blocksOf F).length < fuel → (mergeLoop fuel n a c s).isSome = true) := by
  have hstop : ∀ {s : Buddy} {F : Nat → List Nat} {a c : Nat}, Laid s F V [(a, c)] →
      buddyAt s.startAddr a c ∉ F c → ∀ r, some (a, c, s) = some r → Merged s V r := by
    intro s F a c h hb r hr
    obtain rfl := Option.some.inj hr
    exact ⟨⟨F, h, hb⟩, ⟨rfl, rfl⟩, fun x _ i _ _ => rfl⟩
  have htop : ∀ {s : Buddy} {F : Nat → List Nat} {a c : Nat}, Laid s F V [(a, c)] → maxOrder ≤ c →
      buddyAt s.startAddr a c ∉ F c := by
    intro s F a c h hc
    rw [h.top_nil hc]
    exact List.not_mem_nil
  induction n with
  | zero =>
    intro s F a c h hn
    exact ⟨hstop h (htop h (by omega)), fun _ => rfl⟩
  | succ n ih =>
    intro s F a c h hn
    by_cases hlt : c < maxOrder
    · have hlen := length_le_blocksOf (F := F) (Nat.le_of_lt hlt)
      rcases mergeLoop_turn h fuel n hlt with ⟨hr, hle⟩ | ⟨hr, hb⟩ | ⟨s', l, hj, hr⟩
      · rw [hr]
        exact ⟨fun r hr' => absurd hr' (by simp), fun hfuel => by omega⟩
      · rw [hr]
        exact ⟨hstop h hb, fun _ => rfl⟩
      · rw [hr]
        obtain ⟨hall, hsome⟩ := ih hj.laid (show maxOrder ≤ n + (c + 1) by omega)
        have hfewer := (blocksOf_update (Nat.le_of_lt hlt) hj.perm).length_eq
        rw [List.length_cons] at hfewer
        refine ⟨fun r hr' => ?_, fun hfuel => hsome (by omega)⟩
        obtain ⟨hlaid, hreg, hint⟩ := hall r hr'
        exact ⟨hlaid, hj.region.trans hreg, fun x hx => (hj.intact x hx).trans (hint x hx)⟩
    · have hstep : mergeLoop fuel (n + 1) a c s = some (a, c, s) := if_neg hlt
      rw [hstep]
      exact ⟨hstop h (htop h (Nat.le_of_not_lt hlt)), fun _ => rfl⟩

theorem mmFree_eq (fuel : Nat) (h : Laid s F V []) (hmem : (a, k) ∈ V) :
    mmFree fuel s (a + metadataSize)
      = (mergeLoop fuel maxOrder a k s).map fun r => r.2.2.push r.1 r.2.1 := by
  have hword : a < 18446744073709551616 := (h.word (h.live_mem hmem)).2
  have hblock : wrap64 (a + metadataSize + 18446744073709551616 - metadataSize) = a := by
    unfold wrap64
    omega
  have h0 : ¬ a + metadataSize = 0 := by
    show ¬ a + 8 = 0
    omega
  have horder : (s.mem a).toNat = k := h.header _ hmem
  unfold mmFree
  rw [if_neg h0]
  simp only [hblock, horder]

/-- **`mm_free`** of a live pointer. -/
theorem mmFree_spec {V' : List (Nat × Nat)} (fuel : Nat) (h : Laid s F V [])
    (hp : V.Perm ((a, k) :: V')) :
    (∀ s', mmFree fuel s (a + metadataSize) = some s' →
      (∃ F', Laid s' F' V' []) ∧ s.SameRegion s' ∧ ∀ x ∈ V', Intact s.mem s'.mem x) ∧
    ((blocksOf F).length < fuel → (mmFree fuel s (a + metadataSize)).isSome = true) := by
  have hl := h.unmark hp
  rw [mmFree_eq fuel h (hp.mem_iff.mpr List.mem_cons_self)]
  obtain ⟨hall, hsome⟩ := mergeLoop_spec fuel maxOrder hl (Nat.le_add_right _ _)
  constructor
  · intro s' hs
    obtain ⟨r, hr, rfl⟩ := Option.map_eq_some_iff.mp hs
    obtain ⟨⟨F', hl', hb⟩, hregion, hint⟩ := hall r hr
    obtain ⟨hl'', hint'⟩ := hl'.push hb
    exact ⟨⟨_, hl''⟩, hregion.trans ⟨rfl, rfl⟩, fun x hx => (hint x hx).trans (hint' x hx)⟩
  · intro hfuel
    rw [Option.isSome_map]
    exact hsome hfuel

/-! ## `mm_alloc` -/

theorem targetOrder_le {required target : Nat} (fuel : Nat) : ∀ {size order : Nat},
    targetOrder required fuel size order = some target → order ≤ target := by
  induction fuel with
  | zero =>
    intro size order h
    exact absurd h (by simp [targetOrder])
  | succ fuel ih =>
    intro size order h
    have hstep : (if size < required then
        targetOrder required fuel (wrap64 (size * 2)) (order + 1) else some order)
        = some target := h
    split at hstep
    · have := ih hstep
      omega
    · exact Nat.le_of_eq (Option.some.inj hstep)

theorem targetOrder_fits {required target : Nat} (fuel : Nat) : ∀ (order : Nat),
    targetOrder required fuel (blockSize order) order = some target → target ≤ maxOrder →
    order ≤ target ∧ required ≤ blockSize target := by
  induction fuel with
  | zero =>
    intro order h
    exact absurd h (by simp [targetOrder])
  | succ fuel ih =>
    intro order h ht
    have hstep : (if blockSize order < required then
        targetOrder required fuel (wrap64 (blockSize order * 2)) (order + 1) else some order)
        = some target := h
    split at hstep
    · by_cases hle : order ≤ maxOrder
      · -- below the last order the size is doubled without wrapping
        have hwrap : wrap64 (blockSize order * 2) = blockSize (order + 1) := by
          have hbig := blockSize_le (show order + 1 ≤ 17 from Nat.succ_le_succ hle)
          have h17 : blockSize 17 = 536870912 := rfl
          rw [blockSize_succ] at hbig ⊢
          unfold wrap64
          omega
        rw [hwrap] at hstep
        obtain ⟨h1, h2⟩ := ih (order + 1) hstep ht
        exact ⟨by omega, h2⟩
      · exact absurd (targetOrder_le fuel hstep) (by omega)
    · obtain rfl := Option.some.inj hstep
      exact ⟨Nat.le_refl _, by omega⟩

/-- the lists when a block of order `c` has been halved down to order `target` -/
def halved (F : Nat → List Nat) (a target c : Nat) : Nat → List Nat := fun k =>
  if target ≤ k ∧ k < c then (a + blockSize k) :: F k else F k

theorem halved_self (F : Nat → List Nat) (a c : Nat) : halved F a c c = F := by
  funext k
  exact if_neg (by omega)

theorem halved_succ {target : Nat} (F : Nat → List Nat) (a : Nat) (ht : target ≤ c) :
    halved (Function.update F c ((a + blockSize c) :: F c)) a target c = halved F a target (c + 1) := by
  funext k
  unfold halved
  by_cases e : k = c
  · subst e
    rw [if_neg (by omega), if_pos ⟨ht, Nat.lt_succ_self k⟩, Function.update_self]
  · rw [Function.update_of_ne e]
    by_cases hk : target ≤ k ∧ k < c
    · rw [if_pos hk, if_pos ⟨hk.1, by omega⟩]
    · rw [if_neg hk, if_neg (by omega)]

theorem splitLoop_spec {target : Nat} (c : Nat) : ∀ {s : Buddy} {F : Nat → List Nat},
    Laid s F V [(a, c)] → target ≤ c →
    Laid (splitLoop a target c s) (halved F a target c) V [(a, target)] ∧
      s.SameRegion (splitLoop a target c s) ∧
      ∀ x ∈ V, Intact s.mem (splitLoop a target c s).mem x := by
  induction c with
  | zero =>
    intro s F h ht
    obtain rfl : target = 0 := by omega
    rw [halved_self]
    exact ⟨h, ⟨rfl, rfl⟩, fun x _ i _ _ => rfl⟩
  | succ c ih =>
    intro s F h ht
    by_cases hlt : target < c + 1
    · have hm : (a, c + 1) ∈ [(a, c + 1)] ++ (V ++ blocksOf F) := List.mem_cons_self
      have hin := h.ground.inside hm
      have h1 : s.startAddr ≤ a := hin.1
      have h2 : a + blockSize (c + 1) ≤ s.startAddr + s.totalManagedBytes := hin.2
      have h3 := h.ground.bound
      have h4 := blockSize_pos c
      rw [blockSize_succ] at h2
      have hwrap : wrap64 (a + blockSize c) = a + blockSize c := wrap64_of_lt (by omega)
      have hstep : splitLoop a target (c + 1) s
          = splitLoop a target c (s.push (a + blockSize c) c) := by
        show (if target < c + 1 then _ else _) = _
        rw [if_pos hlt, hwrap]
      rw [hstep]
      -- the buddy of the upper half is the block itself, which is in no list
      have hbuddy : buddyAt s.startAddr (a + blockSize c) c ∉ F c := by
        rw [buddyAt_upper h1 (h.ground.aligned _ hm)]
        intro hmem
        have hc : c ≤ maxOrder := by
          have : c + 1 ≤ maxOrder := h.ground.order_le hm
          omega
        have hm' : (a, c) ∈ V ++ blocksOf F :=
          List.mem_append_right _ (mem_blocksOf.mpr ⟨hc, hmem⟩)
        exact h.ground.head_ne hm' rfl
      obtain ⟨hl, hint⟩ := (h.cut.permL (List.Perm.swap _ _ _)).push hbuddy
      obtain ⟨hl', hregion, hint'⟩ := ih hl (Nat.le_of_lt_succ hlt)
      rw [halved_succ F a (Nat.le_of_lt_succ hlt)] at hl'
      refine ⟨hl', SameRegion.trans ⟨rfl, rfl⟩ hregion, fun x hx => ?_⟩
      exact (hint x (List.mem_append_right _ hx)).trans (hint' x hx)
    · obtain rfl : target = c + 1 := by omega
      have hstep : splitLoop a (c + 1) (c + 1) s = s := if_neg hlt
      rw [hstep, halved_self]
      exact ⟨h, ⟨rfl, rfl⟩, fun x _ i _ _ => rfl⟩

/-- a live block more, at the pointer that is returned -/
structure Given (s : Buddy) (V : List (Nat × Nat)) (target : Nat) (r : Nat × Buddy) : Prop where
  laid : ∃ a F, r.1 = a + metadataSize ∧ Laid r.2 F ((a, target) :: V) []
  region : s.SameRegion r.2
  intact : ∀ x ∈ V, Intact s.mem r.2.mem x

/-- the block that was given is the first one of the list `order`, where the lists below had none; what
was not asked for is on these lists -/
structure Taken (s : Buddy) (F : Nat → List Nat) (V : List (Nat × Nat)) (target a order : Nat)
    (l : List Nat) (r : Nat × Buddy) : Prop where
  least : target ≤ order ∧ order ≤ maxOrder
  head : F order = a :: l
  below : ∀ k, target ≤ k → k < order → F k = []
  ptr : r.1 = a + metadataSize
  laid : Laid r.2 (halved (Function.update F order l) a target order) ((a, target) :: V) []
  region : s.SameRegion r.2
  intact : ∀ x ∈ V, Intact s.mem r.2.mem x

theorem takeBlock_spec {target : Nat} (n : Nat) : ∀ {order : Nat}, Laid s F V [] → target ≤ order →
    order + n = maxOrder + 1 → (∀ k, target ≤ k → k < order → F k = []) →
    takeBlock target n order s = (0, s) ∨
      ∃ a c l, Taken s F V target a c l (takeBlock target n order s) := by
  induction n with
  | zero =>
    intro order h ht hn hbelow
    exact Or.inl rfl
  | succ n ih =>
    intro order h ht hn hbelow
    have hk : order ≤ maxOrder := by omega
    have hc := h.chain order hk
    cases hF : F order with
    | nil =>
      rw [hF] at hc
      have h0 : s.buddyLists order = 0 := hc
      have hstep : takeBlock target (n + 1) order s = takeBlock target n (order + 1) s :=
        if_neg (not_not_intro h0)
      rw [hstep]
      refine ih h (by omega) (by omega) fun k h1 h2 => ?_
      by_cases e : k = order
      · rw [e]
        exact hF
      · exact hbelow k h1 (by omega)
    | cons a l =>
      rw [hF] at hc
      have ha : s.buddyLists order = a := hc.1
      have hmem : (a, order) ∈ [] ++ (V ++ blocksOf F) :=
        h.free_mem hk (by rw [hF]; exact List.mem_cons_self)
      have hword := h.word hmem
      have h0 : s.buddyLists order ≠ 0 := by
        rw [ha]
        exact Nat.pos_iff_ne_zero.mp hword.1
      obtain ⟨hl, hregion, hint⟩ := splitLoop_spec order (h.pop hk hF) ht
      obtain ⟨hl', hint'⟩ := hl.mark
      have hin := h.ground.inside hmem
      have h1 : a + blockSize order ≤ s.startAddr + s.totalManagedBytes := hin.2
      have h2 := h.ground.bound
      have h3 := blockSize_le (Nat.zero_le order)
      have h4 : blockSize 0 = 4096 := rfl
      have hptr : wrap64 (a + metadataSize) = a + metadataSize :=
        wrap64_of_lt (show a + 8 < _ by omega)
      refine Or.inr ⟨a, order, l, ?_⟩
      have hstep : takeBlock target (n + 1) order s
          = (wrap64 (a + metadataSize),
              { splitLoop a target order { s with
                  buddyLists := Function.update s.buddyLists order (load64 s.mem a) } with
                mem := Function.update (splitLoop a target order { s with
                  buddyLists := Function.update s.buddyLists order (load64 s.mem a) }).mem a
                  (UInt8.ofNat target) }) := by
        show (if s.buddyLists order ≠ 0 then _ else _) = _
        rw [if_pos h0, ha]
      rw [hstep]
      exact ⟨⟨ht, hk⟩, hF, hbelow, hptr, hl', SameRegion.trans ⟨rfl, rfl⟩ (hregion.trans ⟨rfl, rfl⟩),
        fun x hx => (hint x hx).trans (hint' x hx)⟩

/-- **`mm_alloc`**, when it returns: from which list the block comes. -/
theorem mmAlloc_taken {size : Nat} {r : Nat × Buddy} (h : Laid s F V [])
    (hr : mmAlloc fuel s size = some r) :
    r = (0, s) ∨ ∃ target a order l, requiredSpace size ≤ blockSize target ∧
      Taken s F V target a order l r := by
  unfold mmAlloc at hr
  split at hr
  · exact Or.inl (Option.some.inj hr).symm
  · obtain ⟨target, ht, rfl⟩ := Option.map_eq_some_iff.mp hr
    split
    · exact Or.inl rfl
    · rename_i hle
      have hle' : target ≤ maxOrder := Nat.le_of_not_lt hle
      have hfits := (targetOrder_fits fuel 0 ht hle').2
      rcases takeBlock_spec (maxOrder + 1 - target) h (Nat.le_refl target) (by omega)
        (fun k h1 h2 => absurd h1 (by omega)) with hz | ⟨a, c, l, hg⟩
      · exact Or.inl hz
      · exact Or.inr ⟨target, a, c, l, hfits, hg⟩

/-- **`mm_alloc`**, when it returns. -/
theorem mmAlloc_spec {size : Nat} {r : Nat × Buddy} (h : Laid s F V [])
    (hr : mmAlloc fuel s size = some r) :
    r = (0, s) ∨ ∃ target, requiredSpace size ≤ blockSize target ∧ Given s V target r := by
  rcases mmAlloc_taken h hr with hz | ⟨target, a, c, l, hfits, ht⟩
  · exact Or.inl hz
  · exact Or.inr ⟨target, hfits, ⟨a, _, ht.ptr, ht.laid⟩, ht.region, ht.intact⟩

end

end Buddy

end Tp2So
