import Tp2So.Memory.BuddyCalls
import Tp2So.Memory.Client

/-!
# The buddy system over whole runs

* `BuddySound`        the blocks in the lists and the live blocks fill the region, each aligned to its
                      size; none is listed twice, no two buddies are free, and the statistics are
                      exact;
* `buddySound_run`    after `mm_init`, in every run of calls.
-/

set_option linter.unusedVariables false

namespace Tp2So

namespace Buddy

def manager : Manager Buddy where
  alloc := mmAlloc
  free := mmFree
  read s a := s.mem a
  write s a v := { s with mem := Function.update s.mem a v }

/-- the block of every live pointer, with the order in its header -/
def liveBlocks (t : Client Buddy) : List (Nat × Nat) :=
  t.live.map fun x => (x.1 - metadataSize, (t.s.mem (x.1 - metadataSize)).toNat)

def bytesOf (B : List (Nat × Nat)) : Nat := (B.map fun x => blockSize x.2).sum

/-- `F` are the nodes of the lists, as the links in the memory give them; the region has `total`
bytes -/
structure BuddySound (base total : Nat) (t : Client Buddy) (F : Nat → List Nat) : Prop where
  lists : ∀ k, k ≤ maxOrder → Seg (load64 t.s.mem) (t.s.buddyLists k) (F k) 0
  tiling : Tiling base (base + total) ((liveBlocks t ++ blocksOf F).map span)
  aligned : ∀ x ∈ liveBlocks t ++ blocksOf F, blockSize x.2 ∣ x.1 - base
  once : (blocksOf F).Nodup
  single : ∀ k, k ≤ maxOrder → ∀ a ∈ F k, buddyAt base a k ∉ F k
  stats : ∃ N, ∀ fuel, N ≤ fuel → mmGetStats fuel t.s
    = some ⟨total, bytesOf (blocksOf F), bytesOf (liveBlocks t)⟩
  frees : ∀ x ∈ t.live, ∃ N, ∀ fuel, N ≤ fuel → (mmFree fuel t.s x.1).isSome = true

section
variable {s : Buddy} {F : Nat → List Nat} {V L : List (Nat × Nat)} {a b c k p fuel base n : Nat}
  {t t' : Client Buddy} {m : Nat → UInt8} {o : MemOp}

/-! ## statistics -/

theorem countNodes_eq (l : List Nat) : ∀ {p : Nat} (fuel : Nat), Seg (load64 m) p l 0 → (∀ x ∈ l, x ≠ 0) →
    l.length < fuel → countNodes m fuel p = some l.length := by
  induction l with
  | nil =>
    intro p fuel h h0 hf
    obtain ⟨fuel, rfl⟩ := Nat.exists_eq_succ_of_ne_zero (Nat.pos_iff_ne_zero.mp hf)
    exact if_pos (show p = 0 from h)
  | cons b l ih =>
    intro p fuel h h0 hf
    obtain ⟨hp, hl⟩ := h
    have hb : b ≠ 0 := h0 b List.mem_cons_self
    rw [List.length_cons] at hf ⊢
    obtain ⟨fuel, rfl⟩ := Nat.exists_eq_succ_of_ne_zero (show fuel ≠ 0 by omega)
    have hstep : countNodes m (fuel + 1) p
        = (countNodes m fuel (load64 m p)).map fun n => n + 1 := if_neg (by omega)
    rw [hstep, hp, ih fuel hl (fun x hx => h0 x (List.mem_cons_of_mem _ hx)) (by omega)]
    rfl

/-- the free blocks of the orders below `n` -/
def blocksBelow (F : Nat → List Nat) (n : Nat) : List (Nat × Nat) :=
  (List.range n).flatMap fun k => (F k).map fun a => (a, k)

theorem bytesOf_append (B B' : List (Nat × Nat)) : bytesOf (B ++ B') = bytesOf B + bytesOf B' := by
  unfold bytesOf
  rw [List.map_append, List.sum_append]

theorem bytesOf_row (l : List Nat) (k : Nat) :
    bytesOf (l.map fun a => (a, k)) = l.length * blockSize k := by
  unfold bytesOf
  rw [List.map_map]
  show (l.map fun _ => blockSize k).sum = _
  rw [List.map_const', List.sum_replicate_nat]

theorem bytesOf_below (F : Nat → List Nat) (n : Nat) :
    bytesOf (blocksBelow F (n + 1)) = bytesOf (blocksBelow F n) + (F n).length * blockSize n := by
  unfold blocksBelow
  rw [List.range_succ, List.flatMap_append, bytesOf_append, List.flatMap_singleton, bytesOf_row]

theorem bytesOf_span (B : List (Nat × Nat)) : ((B.map span).map Prod.snd).sum = bytesOf B := by
  unfold bytesOf
  rw [List.map_map]
  rfl

theorem Laid.bytes (h : Laid s F V []) :
    bytesOf V + bytesOf (blocksOf F) = s.totalManagedBytes := by
  have ht := h.ground.tiling.total
  rw [bytesOf_span, List.nil_append, bytesOf_append] at ht
  omega

theorem freeBytes_eq (h : Laid s F V []) (hfuel : (blocksOf F).length < fuel) : ∀ n,
    n ≤ maxOrder + 1 → bytesOf (blocksBelow F n) ≤ s.totalManagedBytes →
    freeBytes fuel s n = some (bytesOf (blocksBelow F n)) := by
  intro n
  induction n with
  | zero =>
    intro _ _
    rfl
  | succ n ih =>
    intro hn hle
    rw [bytesOf_below] at hle ⊢
    have hk : n ≤ maxOrder := by omega
    have hlen := length_le_blocksOf (F := F) hk
    have hcount := countNodes_eq (F n) fuel (h.chain n hk) (h.free_ne_zero hk) (by omega)
    have hb := h.ground.bound
    have hpos := h.ground.pos
    show (freeBytes fuel s n).bind _ = _
    rw [ih (by omega) (by omega), Option.bind_some, hcount, Option.map_some]
    rw [wrap64_of_lt (show bytesOf (blocksBelow F n) + (F n).length * blockSize n < _ by omega)]

theorem Laid.stats (h : Laid s F V []) (hfuel : (blocksOf F).length < fuel) :
    mmGetStats fuel s = some ⟨s.totalManagedBytes, bytesOf (blocksOf F), bytesOf V⟩ := by
  have hb := h.bytes
  have hfree : freeBytes fuel s (maxOrder + 1) = some (bytesOf (blocksOf F)) :=
    freeBytes_eq h hfuel (maxOrder + 1) (Nat.le_refl _)
      (show bytesOf (blocksOf F) ≤ _ by omega)
  unfold mmGetStats
  rw [hfree, Option.map_some, if_pos (by omega)]
  rw [show s.totalManagedBytes - bytesOf (blocksOf F) = bytesOf V by omega]

/-! ## the start -/

theorem countOrders_spec (total n : Nat) : ∀ k, (k = 0 ∨ blockSize (k - 1) ≤ total ∧ k ≤ 17) →
    countOrders total n k = 0 ∨
      blockSize (countOrders total n k - 1) ≤ total ∧ countOrders total n k ≤ 17 := by
  induction n with
  | zero =>
    intro k hk
    exact hk
  | succ n ih =>
    intro k hk
    by_cases hc : blockSize k ≤ total ∧ k ≤ maxOrder
    · have hstep : countOrders total (n + 1) k = countOrders total n (k + 1) := if_pos hc
      rw [hstep]
      exact ih (k + 1) (Or.inr ⟨hc.1, Nat.succ_le_succ hc.2⟩)
    · have hstep : countOrders total (n + 1) k = k := if_neg hc
      rw [hstep]
      exact hk

theorem le_countOrders (total n : Nat) : ∀ k, k ≤ countOrders total n k := by
  induction n with
  | zero =>
    intro k
    exact Nat.le_refl _
  | succ n ih =>
    intro k
    by_cases hc : blockSize k ≤ total ∧ k ≤ maxOrder
    · have hstep : countOrders total (n + 1) k = countOrders total n (k + 1) := if_pos hc
      have := ih (k + 1)
      omega
    · have hstep : countOrders total (n + 1) k = k := if_neg hc
      omega

/-- **`mm_init`**: one free block, the largest that fits. -/
theorem mmInit_spec (s : Buddy) (hn : minBlockSize ≤ n) (hb : 0 < base)
    (hbound : base + n ≤ 18446744073709551616) :
    ∃ K, K ≤ maxOrder ∧ blockSize K ≤ n ∧ (s.mmInit base n).totalManagedBytes = blockSize K ∧
      (s.mmInit base n).startAddr = base ∧
      Laid (s.mmInit base n) (Function.update (fun _ => []) K [base]) [] [] := by
  have hge : 1 ≤ countOrders n (maxOrder + 2) 0 := by
    have hstep : countOrders n (maxOrder + 2) 0 = countOrders n (maxOrder + 1) 1 :=
      if_pos ⟨hn, Nat.zero_le _⟩
    rw [hstep]
    exact le_countOrders n _ 1
  have hspec := (countOrders_spec n (maxOrder + 2) 0 (Or.inl rfl)).resolve_left (by omega)
  generalize hk : countOrders n (maxOrder + 2) 0 = k at *
  obtain ⟨K, rfl⟩ : ∃ K, k = K + 1 := ⟨k - 1, by omega⟩
  rw [Nat.add_sub_cancel] at hspec
  have hK : K ≤ maxOrder := Nat.le_of_succ_le_succ hspec.2
  have hpos := blockSize_pos K
  have hinit : s.mmInit base n = { mem := store64 s.mem base 0
                                   buddyLists := Function.update (fun _ => 0) K base
                                   startAddr := base
                                   totalManagedBytes := blockSize K } := by
    unfold mmInit
    simp only [hk, Nat.add_sub_cancel]
    exact if_neg (Nat.succ_ne_zero K)
  rw [hinit]
  have hblocks : (blocksOf (Function.update (fun _ => []) K [base])).Perm [(base, K)] := by
    have hp := blocksOf_update (F := Function.update (fun _ => []) K [base]) (a := base) (l := []) hK
      (by rw [Function.update_self])
    rw [Function.update_idem] at hp
    have hnil : blocksOf (Function.update (fun _ => []) K []) = [] := by
      rw [List.eq_nil_iff_forall_not_mem]
      intro x hx
      have hx' := (mem_blocksOf.mp hx).2
      by_cases e : x.2 = K
      · rw [e, Function.update_self] at hx'
        exact absurd hx' List.not_mem_nil
      · rw [Function.update_of_ne e] at hx'
        exact absurd hx' List.not_mem_nil
    rw [hnil] at hp
    exact hp
  refine ⟨K, hK, hspec.1, rfl, rfl, ?_, ?_, ?_, ?_⟩
  · have hone : Ground base (blockSize K) [(base, K)] := by
      refine ⟨?_, ?_, hb, by omega, K, hK, rfl⟩
      · have ht := tiling_single (show base < base + blockSize K by omega)
        rw [Nat.add_sub_cancel_left] at ht
        exact ht
      · intro x hx
        rw [List.mem_singleton.mp hx]
        show blockSize K ∣ base - base
        rw [Nat.sub_self]
        exact Nat.dvd_zero _
    exact hone.perm hblocks.symm
  · intro k hk'
    show Seg _ (Function.update (fun _ => 0) K base k) (Function.update (fun _ => []) K [base] k) 0
    by_cases e : k = K
    · rw [e, Function.update_self, Function.update_self]
      exact ⟨rfl, load64_store64 (by omega)⟩
    · rw [Function.update_of_ne e, Function.update_of_ne e]
      rfl
  · exact fun x hx => absurd hx List.not_mem_nil
  · intro k hk' a ha hb'
    have hkK : k = K := by
      by_contra e
      rw [Function.update_of_ne e] at ha
      exact absurd ha List.not_mem_nil
    subst hkK
    rw [Function.update_self] at ha hb'
    have ha' := List.mem_singleton.mp ha
    have hb'' : buddyAt base a k = base := List.mem_singleton.mp hb'
    rw [ha'] at hb''
    have hd : blockSize k ∣ base - base := by
      rw [Nat.sub_self]
      exact Nat.dvd_zero _
    rcases buddyAt_cases (Nat.le_refl base) hd with ⟨hup, -⟩ | ⟨hdown, -⟩ <;> omega

/-! ## steps -/

/-- the live blocks are those of the live pointers -/
structure Held (base total : Nat) (t : Client Buddy) (F : Nat → List Nat) (V : List (Nat × Nat)) :
    Prop where
  laid : Laid t.s F V []
  start : t.s.startAddr = base
  total : t.s.totalManagedBytes = total
  live : (V.map fun x => x.1 + metadataSize).Perm (t.live.map Prod.fst)

variable {total size ptr : Nat}

theorem Held.mem (h : Held base total t F V) {x : Nat × Nat} (hx : x ∈ t.live) :
    ∃ y ∈ V, y.1 + metadataSize = x.1 :=
  List.mem_map.mp (h.live.mem_iff.mpr (List.mem_map_of_mem hx))

theorem Held.alloc (h : Held base total t F V) (he : execMem manager (.alloc fuel size) t = some t') :
    (t' = t) ∨ ∃ a target F', requiredSpace size ≤ blockSize target ∧
      t'.live = (a + metadataSize, size) :: t.live ∧
      t'.written = (t.given t'.s (a + metadataSize) size).written ∧
      Held base total t' F' ((a, target) :: V) ∧ ∀ x ∈ V, Intact t.s.mem t'.s.mem x := by
  obtain ⟨r, hr, hcase⟩ := execMem_alloc he
  rcases mmAlloc_spec h.laid hr with rfl | ⟨target, hfits, ⟨a, F', hptr, hl⟩, hregion, hint⟩
  · rcases hcase with ⟨-, rfl⟩ | ⟨h0, -⟩
    · exact Or.inl rfl
    · exact absurd rfl h0
  · have h0 : r.1 ≠ 0 := by
      rw [hptr]
      show a + 8 ≠ 0
      omega
    rcases hcase with ⟨hz, -⟩ | ⟨-, rfl⟩
    · exact absurd hz h0
    · refine Or.inr ⟨a, target, F', hfits, by rw [← hptr]; rfl, by rw [← hptr]; rfl, ⟨hl,
        hregion.1.trans h.start, hregion.2.trans h.total, ?_⟩, hint⟩
      show ((a + metadataSize) :: V.map _).Perm (r.1 :: t.live.map Prod.fst)
      rw [hptr]
      exact h.live.cons _

theorem Held.free (h : Held base total t F V) (he : execMem manager (.free fuel ptr) t = some t') :
    ∃ x y F', x ∈ t.live ∧ x.1 = ptr ∧ y ∈ V ∧ y.1 + metadataSize = x.1 ∧ t'.live = t.live.erase x ∧
      t'.written = t.written ∧ Held base total t' F' (V.erase y) ∧
      ∀ z ∈ V.erase y, Intact t.s.mem t'.s.mem z := by
  obtain ⟨x, s', hx, rfl, hs, rfl⟩ := execMem_free he
  obtain ⟨y, hy, hyx⟩ := h.mem hx
  have hperm := List.perm_cons_erase hy
  rw [← hyx] at hs
  obtain ⟨⟨F', hl⟩, hregion, hint⟩ := (mmFree_spec fuel h.laid hperm).1 s' hs
  refine ⟨x, y, F', hx, rfl, hy, hyx, rfl, rfl, ⟨hl, hregion.1.trans h.start,
    hregion.2.trans h.total, ?_⟩, hint⟩
  have h1 := hperm.map fun x => x.1 + metadataSize
  have h2 := (List.perm_cons_erase hx).map Prod.fst
  have h3 := (h1.symm.trans h.live).trans h2
  rw [List.map_cons, List.map_cons, hyx] at h3
  exact h3.cons_inv

/-- **One call.** -/
theorem held_call (h : Held base total t F V) (ho : o.isCall = true)
    (he : execMem manager o t = some t') : ∃ F' V', Held base total t' F' V' := by
  cases o with
  | alloc fuel size =>
    rcases h.alloc he with rfl | ⟨a, target, F', -, -, -, h', -⟩
    · exact ⟨F, V, h⟩
    · exact ⟨F', _, h'⟩
  | free fuel ptr =>
    obtain ⟨x, y, F', -, -, -, -, -, -, h', -⟩ := h.free he
    exact ⟨F', _, h'⟩
  | store a v => cases ho

theorem Held.liveBlocks (h : Held base total t F V) : V.Perm (liveBlocks t) := by
  have hp := h.live.map fun p => (p - metadataSize, (t.s.mem (p - metadataSize)).toNat)
  rw [List.map_map, List.map_map] at hp
  have hid : V.map ((fun p => (p - metadataSize, (t.s.mem (p - metadataSize)).toNat)) ∘
      fun x => x.1 + metadataSize) = V := by
    refine (List.map_congr_left fun x hx => ?_).trans (List.map_id V)
    show (x.1 + metadataSize - metadataSize, (t.s.mem (x.1 + metadataSize - metadataSize)).toNat) = x
    rw [Nat.add_sub_cancel, h.laid.header x hx]
  rw [hid] at hp
  exact hp

theorem Held.sound (h : Held base total t F V) : BuddySound base total t F := by
  have hp := h.liveBlocks
  have hl := h.laid
  have hg : Ground base total (V ++ blocksOf F) := by
    have := hl.ground
    rw [h.start, h.total] at this
    exact this
  have hg' := hg.perm (hp.append_right _)
  have hsum : bytesOf V = bytesOf (Buddy.liveBlocks t) := (hp.map _).sum_eq
  refine ⟨hl.chain, hg'.tiling, hg'.aligned, ?_, ?_, ?_, ?_⟩
  · have hnd := List.Nodup.of_map _ hg.nodup
    exact (List.nodup_append.mp hnd).2.1
  · have := hl.single
    rw [h.start] at this
    exact this
  · refine ⟨(blocksOf F).length + 1, fun fuel hf => ?_⟩
    rw [hl.stats (show (blocksOf F).length < fuel by omega), h.total, hsum]
  · intro x hx
    obtain ⟨y, hy, hyx⟩ := h.mem hx
    refine ⟨(blocksOf F).length + 1, fun fuel hf => ?_⟩
    rw [← hyx]
    exact (mmFree_spec fuel hl (List.perm_cons_erase hy)).2 (by omega)

theorem held_start (s : Buddy) (hn : minBlockSize ≤ n) (hb : 0 < base)
    (hbound : base + n ≤ 18446744073709551616) :
    ∃ F V, Held base (s.mmInit base n).totalManagedBytes (.start (s.mmInit base n)) F V := by
  obtain ⟨K, -, -, -, hstart, hl⟩ := mmInit_spec s hn hb hbound
  exact ⟨_, [], hl, hstart, rfl, List.Perm.refl _⟩

theorem held_run {os : List MemOp} (s : Buddy) (hn : minBlockSize ≤ n) (hb : 0 < base)
    (hbound : base + n ≤ 18446744073709551616)
    (h : Runs (execMem manager) (fun o _ => o.isCall) os (.start (s.mmInit base n)) t) :
    ∃ F V, Held base (s.mmInit base n).totalManagedBytes t F V := by
  refine Runs.inv (I := fun t => ∃ F V, Held base (s.mmInit base n).totalManagedBytes t F V)
    (fun o t u ht ho he => ?_) h (held_start s hn hb hbound)
  obtain ⟨F, V, ht⟩ := ht
  exact held_call ht ho he

/-- **The buddy system is sound** after `mm_init`, in every run of `mm_alloc` calls that return and of
`mm_free` calls on live pointers. -/
theorem buddySound_run {os : List MemOp} (s : Buddy) (hn : minBlockSize ≤ n) (hb : 0 < base)
    (hbound : base + n ≤ 18446744073709551616)
    (h : Runs (execMem manager) (fun o _ => o.isCall) os (.start (s.mmInit base n)) t) :
    ∃ F, BuddySound base (s.mmInit base n).totalManagedBytes t F := by
  obtain ⟨F, V, h⟩ := held_run s hn hb hbound h
  exact ⟨F, h.sound⟩

end

/-- before `mm_init` -/
def blank : Buddy := ⟨fun _ => 0, fun _ => 0, 0, 0⟩

/-- four pages: the first is split off, the upper two are taken, the first comes back -/
def fourPages : List MemOp := [.alloc 8 100, .alloc 8 5000, .free 8 4104]

theorem buddySound_run_fourPages : ∃ t, Runs (execMem manager) (fun o _ => o.isCall) fourPages
      (.start (blank.mmInit 4096 16384)) t ∧ t.live = [(12296, 5000)] ∧
      ∃ F, BuddySound 4096 (blank.mmInit 4096 16384).totalManagedBytes t F := by
  have hrun : (runIf (execMem manager) (fun o _ => o.isCall) fourPages
      (.start (blank.mmInit 4096 16384))).map (fun t => t.live) = some [(12296, 5000)] := by
    decide +kernel
  obtain ⟨t, ht, hlive⟩ := Option.map_eq_some_iff.mp hrun
  have h := runs_of_runIf ht
  exact ⟨t, h, hlive, buddySound_run blank (by decide) (by decide) (by decide) h⟩

end Buddy

end Tp2So
