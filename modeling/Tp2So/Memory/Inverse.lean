import Tp2So.Memory.FirstFitSpace
import Tp2So.Memory.BuddyRequests

/-!
# `mm_free` undoes `mm_alloc`

A block that is given back at once goes to where it came from.  In the buddy system the halves that
were split off are the only blocks of their lists, so that the joining goes up to the order from which
the block was taken, and no further: there its buddy is not free.  In the first-fit manager the live
blocks are the same again, and they decide what the ring is.

* `Buddy.Listed`, `FirstFit.Ring`   a list of free blocks, as the memory has it;
* `Buddy.Taken.undone`              the lists are as they were, in their order;
* `mmFree_undoes`                   both managers, in every run.
-/

set_option linter.unusedVariables false

namespace Tp2So

namespace Buddy

/-- `buddy_lists[k]` is the list `l` -/
def Listed (s : Buddy) (k : Nat) (l : List Nat) : Prop :=
  Seg (load64 s.mem) (s.buddyLists k) l 0 ∧ 0 ∉ l

/-- the lists of the orders from `c` to `j` are empty -/
def emptied (F : Nat → List Nat) (c j : Nat) : Nat → List Nat := fun k =>
  if c ≤ k ∧ k < j then [] else F k

section
variable {s s' : Buddy} {F : Nat → List Nat} {V L : List (Nat × Nat)} {a c k fuel target order : Nat}
  {l : List Nat} {r : Nat × Buddy}

theorem Laid.listed (h : Laid s F V L) (hk : k ≤ maxOrder) : Listed s k (F k) := by
  refine ⟨h.chain k hk, fun hm => ?_⟩
  have hword := (h.word (h.free_mem hk hm)).1
  exact absurd hword (Nat.lt_irrefl 0)

theorem Listed.unique {l' : List Nat} (h : Listed s k l) (h' : Listed s k l') : l = l' :=
  h.1.unique h'.1 h.2 h'.2

theorem emptied_self (F : Nat → List Nat) (c : Nat) : emptied F c c = F := by
  funext k
  exact if_neg (by omega)

theorem emptied_succ (F : Nat → List Nat) {c j : Nat} (hlt : c < j) :
    emptied (Function.update F c []) (c + 1) j = emptied F c j := by
  funext k
  unfold emptied
  by_cases e : k = c
  · subst e
    rw [if_neg (by omega), if_pos ⟨Nat.le_refl k, hlt⟩, Function.update_self]
  · rw [Function.update_of_ne e]
    by_cases hk : c + 1 ≤ k ∧ k < j
    · rw [if_pos hk, if_pos ⟨by omega, hk.2⟩]
    · rw [if_neg hk, if_neg (by omega)]

/-- **The joining goes as far up as the lists hold just the upper halves**, and stops where the buddy
is not free. -/
theorem mergeLoop_halves {r : Nat × Nat × Buddy} (fuel d : Nat) : ∀ {s : Buddy} {F : Nat → List Nat}
    {c n : Nat}, Laid s F V [(a, c)] → c + d ≤ maxOrder → maxOrder ≤ n + c →
    (∀ k, c ≤ k → k < c + d → F k = [a + blockSize k]) → blockSize (c + d) ∣ a - s.startAddr →
    buddyAt s.startAddr a (c + d) ∉ F (c + d) → mergeLoop fuel n a c s = some r →
    r.1 = a ∧ r.2.1 = c + d ∧ r.2.2.startAddr = s.startAddr ∧
      Laid r.2.2 (emptied F c (c + d)) V [(a, c + d)] := by
  induction d with
  | zero =>
    intro s F c n h hd hn hF hdvd hb hr
    have hstop : mergeLoop fuel n a c s = some (a, c, s) := by
      cases n with
      | zero => rfl
      | succ n =>
        by_cases hlt : c < maxOrder
        · rcases mergeLoop_turn h fuel n hlt with ⟨hnone, -⟩ | ⟨hsome, -⟩ | ⟨s', l, hj, -⟩
          · rw [hnone] at hr
            exact absurd hr (by simp)
          · exact hsome
          · exact absurd (hj.perm.mem_iff.mpr List.mem_cons_self) hb
        · exact if_neg hlt
    obtain rfl := Option.some.inj (hstop.symm.trans hr)
    refine ⟨rfl, rfl, rfl, ?_⟩
    show Laid s (emptied F c c) V [(a, c)]
    rw [emptied_self]
    exact h
  | succ d ih =>
    intro s F c n h hd hn hF hdvd hb hr
    have hlo : s.startAddr ≤ a := (h.ground.inside (x := (a, c)) List.mem_cons_self).1
    have hdvd' : blockSize (c + 1) ∣ a - s.startAddr :=
      Nat.dvd_trans (blockSize_dvd (by omega)) hdvd
    have hbuddy := buddyAt_lower hlo hdvd'
    have hone : F c = [buddyAt s.startAddr a c] := by
      rw [hbuddy]
      exact hF c (Nat.le_refl _) (by omega)
    have hpos := blockSize_pos c
    obtain ⟨n, rfl⟩ : ∃ m, n = m + 1 := ⟨n - 1, by omega⟩
    rcases mergeLoop_turn h fuel n (by omega) with ⟨hnone, -⟩ | ⟨-, hnot⟩ | ⟨s', l, hj, hstep⟩
    · rw [hnone] at hr
      exact absurd hr (by simp)
    · rw [hone] at hnot
      exact absurd List.mem_cons_self hnot
    · -- the buddy was the only block of its list, and it lies above
      have hperm := hj.perm
      rw [hone] at hperm
      obtain rfl : l = [] := List.perm_nil.mp (List.perm_cons _ |>.mp hperm.symm)
      have hlaid := hj.laid
      have hsame : (if buddyAt s.startAddr a c < a then buddyAt s.startAddr a c else a) = a :=
        if_neg (by omega)
      rw [hsame] at hlaid hstep
      rw [hstep] at hr
      have hregion := hj.region.1
      have hnext : c + 1 + d = c + (d + 1) := by omega
      have hrest : ∀ k, c + 1 ≤ k → Function.update F c [] k = F k := fun k hk =>
        Function.update_of_ne (by omega) ..
      have := ih hlaid (by omega) (by omega)
        (fun k h1 h2 => (hrest k h1).trans (hF k (by omega) (by omega)))
        (by rw [hregion, hnext]; exact hdvd)
        (by rw [hregion, hnext, hrest _ (by omega)]; exact hb) hr
      rw [hnext, emptied_succ F (show c < c + (d + 1) by omega), hregion] at this
      exact this

theorem halved_emptied (hbelow : ∀ k, target ≤ k → k < order → F k = []) :
    emptied (halved (Function.update F order l) a target order) target order
      = Function.update F order l := by
  funext k
  unfold emptied halved
  by_cases hk : target ≤ k ∧ k < order
  · rw [if_pos hk, Function.update_of_ne (by omega)]
    exact (hbelow k hk.1 hk.2).symm
  · rw [if_neg hk, if_neg hk]

/-- **The lists are as they were**, when the block that was given is given back. -/
theorem Taken.undone (h : Laid s F V []) (ht : Taken s F V target a order l r)
    (hs : mmFree fuel r.2 r.1 = some s') : Laid s' F V [] := by
  obtain ⟨hlow, hhigh⟩ := ht.least
  have hmem : (a, order) ∈ [] ++ (V ++ blocksOf F) :=
    h.free_mem hhigh (by rw [ht.head]; exact List.mem_cons_self)
  have hstart := ht.region.1
  have hl := ht.laid.unmark (List.Perm.refl ((a, target) :: V))
  rw [ht.ptr, mmFree_eq fuel ht.laid List.mem_cons_self] at hs
  obtain ⟨q, hq, rfl⟩ := Option.map_eq_some_iff.mp hs
  have hF : ∀ k, target ≤ k → k < target + (order - target) →
      halved (Function.update F order l) a target order k = [a + blockSize k] := by
    intro k h1 h2
    have h3 : k < order := by omega
    unfold halved
    rw [if_pos ⟨h1, h3⟩, Function.update_of_ne (by omega), ht.below k h1 h3]
  have horder : target + (order - target) = order := by omega
  have hat : halved (Function.update F order l) a target order order = l := by
    unfold halved
    rw [if_neg (by omega), Function.update_self]
  have hbuddy : buddyAt s.startAddr a order ∉ l := by
    have hsingle := h.single order hhigh a (by rw [ht.head]; exact List.mem_cons_self)
    rw [ht.head] at hsingle
    exact fun hm => hsingle (List.mem_cons_of_mem _ hm)
  obtain ⟨h1, h2, h3, hl'⟩ := mergeLoop_halves fuel (order - target) hl (by omega) (by omega) hF
    (by rw [horder, hstart]; exact h.ground.aligned _ hmem)
    (by rw [horder, hstart, hat]; exact hbuddy) hq
  rw [horder, halved_emptied ht.below] at hl'
  rw [horder] at h2
  have hpush := (hl'.push (by rw [h3, hstart, Function.update_self]; exact hbuddy)).1
  rw [Function.update_self, Function.update_idem, ← ht.head, Function.update_eq_self] at hpush
  rw [h1, h2]
  exact hpush

theorem Held.undone {base total size : Nat} {t : Client Buddy} (h : Held base total t F V)
    (hr : t.s.mmAlloc fuel size = some r) (h0 : r.1 ≠ 0) :
    ∃ N, ∀ fuel', N ≤ fuel' → ∃ s', r.2.mmFree fuel' r.1 = some s' ∧
      ∀ k, k ≤ maxOrder → Listed t.s k (F k) ∧ Listed s' k (F k) := by
  rcases mmAlloc_taken h.laid hr with rfl | ⟨target, a, order, l, -, ht⟩
  · exact absurd rfl h0
  · have hsome := fun fuel' => (mmFree_spec fuel' ht.laid (List.Perm.refl ((a, target) :: V))).2
    rw [← ht.ptr] at hsome
    refine ⟨(blocksOf (halved (Function.update F order l) a target order)).length + 1,
      fun fuel' hle => ?_⟩
    obtain ⟨s', hs⟩ := Option.isSome_iff_exists.mp (hsome fuel' (Nat.lt_of_succ_le hle))
    have hl := ht.undone h.laid hs
    exact ⟨s', hs, fun k hk => ⟨h.laid.listed hk, hl.listed hk⟩⟩

end

end Buddy

namespace FirstFit

/-- the free blocks on the ring behind `base`, with their sizes -/
def Ring (s : FirstFit) (f : List (Nat × Nat)) : Prop :=
  Seg s.ptr (s.ptr s.base) (f.map Prod.fst) s.base ∧ s.base ∉ f.map Prod.fst ∧
    ∀ x ∈ f, s.size x.1 = x.2

section
variable {s : FirstFit} {lo hi : Nat} {f f' V : List (Nat × Nat)}

theorem Strung.isRing (h : Strung s lo hi f V) : Ring s f := by
  refine ⟨h.ring.2, fun hm => ?_, fun x hx => ?_⟩
  · obtain ⟨x, hx, he⟩ := List.mem_map.mp hm
    have hin := (h.spread.inside (List.mem_append_right V hx)).1
    have hbelow := h.spread.below
    omega
  · exact h.sizes x (List.mem_append_right _ (List.mem_cons_of_mem _ hx))

theorem Ring.unique (h : Ring s f) (h' : Ring s f') : f = f' := by
  have haddr := h.1.unique h'.1 h.2.1 h'.2.1
  have hself : ∀ {f : List (Nat × Nat)}, Ring s f →
      (f.map Prod.fst).map (fun a => (a, s.size a)) = f := by
    intro f h
    rw [List.map_map]
    refine (List.map_congr_left fun x hx => ?_).trans (List.map_id f)
    exact Prod.ext rfl (h.2.2 x hx)
  rw [← hself h, ← hself h', haddr]

/-- a call that has given a block, and the call that gives it back -/
theorem Held.undone {base nbytes fuel : Nat} {t : Client FirstFit} {r : Nat × FirstFit}
    (h : Held base lo hi t f V) (hr : t.s.mmAlloc fuel nbytes = some r) (h0 : r.1 ≠ 0) :
    ∃ N, ∀ fuel', N ≤ fuel' → ∃ s', r.2.mmFree fuel' r.1 = some s' ∧
      Ring t.s f ∧ Ring s' f ∧ s'.freeMemSize = t.s.freeMemSize := by
  rcases mmAlloc_spec fuel nbytes h.strung with ⟨hnone, -⟩ | ⟨hz, -⟩ | ⟨r', hr', hg⟩
  · rw [hnone] at hr
    exact absurd hr (by simp)
  · rw [hz] at hr
    obtain rfl := Option.some.inj hr
    exact absurd rfl h0
  · obtain rfl : r' = r := Option.some.inj (hr'.symm.trans hr)
    obtain ⟨b, f', hptr, hstr⟩ := hg.strung
    refine ⟨f'.length + 1, fun fuel' hle => ?_⟩
    rw [hptr]
    rcases mmFree_spec fuel' hstr with ⟨-, hless⟩ | ⟨s', f'', hs, hstr', hk⟩
    · omega
    · have hbase : s'.base = t.s.base := hk.base.trans hg.base
      have hsp := hstr'.spread
      rw [hbase] at hsp
      obtain rfl : f = f'' := h.strung.spread.same_free hsp fun z => Iff.rfl
      refine ⟨s', hs, h.strung.isRing, hstr'.isRing, ?_⟩
      -- what was charged for the block is paid back
      have htotal := hstr.spread.total
      have hbound := hstr.spread.bound
      have hfree := h.freeMem
      rw [unitsOf_cons] at htotal
      rw [hk.freeMem]
      show wrap64 (r'.2.freeMemSize + requestUnits nbytes * 16) = _
      rw [hg.freeMem]
      unfold charge wrap64 unitSize
      simp only at htotal ⊢
      omega

end

end FirstFit

/-- **`mm_free` undoes `mm_alloc`**: a block that is given back at once leaves the lists, or the ring
and the count of free bytes, as they were before the call. -/
theorem mmFree_undoes :
    (∀ (s : Buddy) (base n : Nat) (os : List MemOp) (t : Client Buddy) (size fuel : Nat)
      (r : Nat × Buddy), minBlockSize ≤ n → 0 < base → base + n ≤ 18446744073709551616 →
      Runs (execMem Buddy.manager) (fun o _ => o.isCall) os (.start (s.mmInit base n)) t →
      t.s.mmAlloc fuel size = some r → r.1 ≠ 0 →
      ∃ (F : Nat → List Nat) (N : Nat), ∀ fuel', N ≤ fuel' → ∃ s', r.2.mmFree fuel' r.1 = some s' ∧
        ∀ k, k ≤ maxOrder → Buddy.Listed t.s k (F k) ∧ Buddy.Listed s' k (F k)) ∧
    (∀ (s : FirstFit) (start n : Nat) (os : List MemOp) (t : Client FirstFit) (nbytes fuel : Nat)
      (r : Nat × FirstFit), 16 ≤ n → s.base + 16 ≤ start →
      start + n / 16 * 16 < 18446744073709551616 →
      Runs (execMem FirstFit.manager) (fun o _ => o.isCall) os (.start (s.mmInit start n)) t →
      t.s.mmAlloc fuel nbytes = some r → r.1 ≠ 0 →
      ∃ (f : List (Nat × Nat)) (N : Nat), ∀ fuel', N ≤ fuel' → ∃ s', r.2.mmFree fuel' r.1 = some s' ∧
        FirstFit.Ring t.s f ∧ FirstFit.Ring s' f ∧ s'.freeMemSize = t.s.freeMemSize) := by
  constructor
  · intro s base n os t size fuel r hn hb hbound h hr h0
    obtain ⟨F, V, hh⟩ := Buddy.held_run s hn hb hbound h
    exact ⟨F, hh.undone hr h0⟩
  · intro s start n os t nbytes fuel r hn hb hbound h hr h0
    obtain ⟨f, V, hh⟩ := FirstFit.held_run s hn hb hbound h
    exact ⟨f, hh.undone hr h0⟩

/-- a page is split off from the upper two of four and comes back; so do three units from the top of a
region that is free again -/
theorem mmFree_undoes_page :
    (∃ (t : Client Buddy) (r : Nat × Buddy), Runs (execMem Buddy.manager) (fun o _ => o.isCall)
        [.alloc 8 5000] (.start (Buddy.blank.mmInit 4096 16384)) t ∧
      t.s.mmAlloc 8 100 = some r ∧ r.1 = 12296 ∧
      ∃ (F : Nat → List Nat) (N : Nat), ∀ fuel', N ≤ fuel' → ∃ s', r.2.mmFree fuel' r.1 = some s' ∧
        ∀ k, k ≤ maxOrder → Buddy.Listed t.s k (F k) ∧ Buddy.Listed s' k (F k)) ∧
    (∃ (t : Client FirstFit) (r : Nat × FirstFit), Runs (execMem FirstFit.manager)
        (fun o _ => o.isCall) FirstFit.threeBlocks (.start (FirstFit.blank.mmInit 4096 256)) t ∧
      t.s.mmAlloc 8 20 = some r ∧ r.1 = 4320 ∧
      ∃ (f : List (Nat × Nat)) (N : Nat), ∀ fuel', N ≤ fuel' →
        ∃ s', r.2.mmFree fuel' r.1 = some s' ∧
          FirstFit.Ring t.s f ∧ FirstFit.Ring s' f ∧ s'.freeMemSize = t.s.freeMemSize) := by
  constructor
  · have hrun : ((runIf (execMem Buddy.manager) (fun o _ => o.isCall) [.alloc 8 5000]
        (.start (Buddy.blank.mmInit 4096 16384))).bind fun t => (t.s.mmAlloc 8 100).map Prod.fst)
          = some 12296 := by
      decide +kernel
    obtain ⟨t, ht, he⟩ := Option.bind_eq_some_iff.mp hrun
    obtain ⟨r, hr, hptr⟩ := Option.map_eq_some_iff.mp he
    have h := runs_of_runIf ht
    refine ⟨t, r, h, hr, hptr, mmFree_undoes.1 Buddy.blank 4096 16384 _ t 100 8 r (by decide)
      (by decide) (by decide) h hr ?_⟩
    rw [hptr]
    decide
  · have hrun : ((runIf (execMem FirstFit.manager) (fun o _ => o.isCall) FirstFit.threeBlocks
        (.start (FirstFit.blank.mmInit 4096 256))).bind fun t => (t.s.mmAlloc 8 20).map Prod.fst)
          = some 4320 := by
      decide +kernel
    obtain ⟨t, ht, he⟩ := Option.bind_eq_some_iff.mp hrun
    obtain ⟨r, hr, hptr⟩ := Option.map_eq_some_iff.mp he
    have h := runs_of_runIf ht
    refine ⟨t, r, h, hr, hptr, mmFree_undoes.2 FirstFit.blank 4096 256 _ t 20 8 r (by decide)
      (by decide) (by decide) h hr ?_⟩
    rw [hptr]
    decide

end Tp2So
