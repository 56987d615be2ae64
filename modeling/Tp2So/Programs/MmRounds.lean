import Tp2So.Lib.Runs
import Tp2So.Programs.MmOwners

/-!
# `_test_mm` never fails

* `other_alloc`, `other_free`, `other_store`   what the other programs do leaves the processes' blocks alone;
* `MmInv.owns`              what a process holds is its own;
* `mm_step`, `mm_run`       any step, and any run on a manager that keeps the contract;
* `test_mm_never_fails`     both managers.
-/

set_option linter.unusedVariables false

namespace Tp2So

/-! ## one step of another program -/

section
variable {σ : Type} {M : Manager σ} {N fuel size ptr a : Nat} {B : σ → Nat → Nat → Prop}
  {I : Client σ → Prop} {t t' : MmSys σ} {o : MemOp} {v : UInt8}

/-- the blocks of the processes are not the other programs' -/
theorem MmInv.apart (hi : MmInv I t) {x y : Nat × Nat} {pid : Int} (hx : x ∈ (t.proc pid).held)
    (hy : y.1 ∈ t.others) : x ≠ y := by
  rintro rfl
  exact (hi.mine pid x hx).2 hy

theorem other_alloc (C : Contract M N B I) (hi : MmInv I t) (hsize : size ≤ maxRequest)
    (he : execOther M (.alloc fuel size) t = some t') : MmInv I t' := by
  obtain ⟨⟨a, h⟩, hr, rfl⟩ := Option.map_eq_some_iff.mp he
  obtain ⟨hI, hframe⟩ := request_frame C hi.heap hsize hr
  have hfine : ∀ pid, (t.proc pid).Fine h.written := fun pid =>
    (hi.fine pid).congr fun x hx b hb => hframe x (hi.mine pid x hx).1 b hb
  obtain ⟨-, ⟨rfl, hlive, -⟩ | ⟨h0, hlive, -⟩⟩ := request_spec hr
  · refine ⟨hI, ?_, ?_, ?_, ?_, hi.once, hi.nodup, hfine⟩
    · exact hi.others
    · intro ptr hptr
      have hptr' : ptr ∈ t.others := hptr
      show ∃ x ∈ h.live, x.1 = ptr
      rw [hlive]
      exact hi.named ptr hptr'
    · intro x hx
      have hx' : x ∈ h.live := hx
      rw [hlive] at hx'
      exact hi.owned x hx'
    · intro pid x hx
      obtain ⟨h1, h2⟩ := hi.mine pid x hx
      exact ⟨by show x ∈ h.live; rw [hlive]; exact h1, h2⟩
  · have hfresh : a ∉ t.heap.live.map Prod.fst := by
      have hnd := C.nodup hI
      rw [hlive, List.map_cons] at hnd
      exact (List.nodup_cons.mp hnd).1
    simp only [if_neg h0]
    refine ⟨hI, ?_, ?_, ?_, ?_, hi.once, hi.nodup, hfine⟩
    · refine List.nodup_cons.mpr ⟨fun hm => ?_, hi.others⟩
      obtain ⟨x, hx, rfl⟩ := hi.named a hm
      exact hfresh (List.mem_map_of_mem hx)
    · intro ptr hptr
      show ∃ x ∈ h.live, x.1 = ptr
      rw [hlive]
      rcases List.mem_cons.mp hptr with rfl | hptr
      · exact ⟨_, List.mem_cons_self, rfl⟩
      · obtain ⟨x, hx, hxp⟩ := hi.named ptr hptr
        exact ⟨x, List.mem_cons_of_mem _ hx, hxp⟩
    · intro x hx
      have hx' : x ∈ h.live := hx
      rw [hlive] at hx'
      rcases List.mem_cons.mp hx' with rfl | hx'
      · exact Or.inl List.mem_cons_self
      · exact (hi.owned x hx').imp (List.mem_cons_of_mem _) id
    · intro pid x hx
      obtain ⟨h1, h2⟩ := hi.mine pid x hx
      refine ⟨by show x ∈ h.live; rw [hlive]; exact List.mem_cons_of_mem _ h1, fun hm => ?_⟩
      rcases List.mem_cons.mp hm with e | hm
      · rw [← e] at hfresh
        exact hfresh (List.mem_map_of_mem h1)
      · exact h2 hm

theorem other_free (C : Contract M N B I) (hi : MmInv I t)
    (he : execOther M (.free fuel ptr) t = some t') : MmInv I t' := by
  simp only [execOther] at he
  split at he
  · rename_i hptr
    obtain ⟨h, hs, rfl⟩ := Option.map_eq_some_iff.mp he
    obtain ⟨x, hx, rfl⟩ := hi.named ptr hptr
    obtain ⟨hI, hw, hl⟩ := free_frame C hi.heap hx hs
    have hmem : ∀ y, y ∈ h.live ↔ y ≠ x ∧ y ∈ t.heap.live := by
      intro y
      rw [hl, (C.live_nodup hi.heap).mem_erase_iff]
    have hothers : ∀ q, q ∈ t.others.erase x.1 ↔ q ≠ x.1 ∧ q ∈ t.others := fun q =>
      hi.others.mem_erase_iff
    refine ⟨hI, hi.others.erase _, ?_, ?_, ?_, hi.once, hi.nodup, fun pid => ?_⟩
    · intro q hq
      obtain ⟨hne, hq⟩ := (hothers q).mp hq
      obtain ⟨y, hy, rfl⟩ := hi.named q hq
      refine ⟨y, (hmem y).mpr ⟨?_, hy⟩, rfl⟩
      rintro rfl
      exact hne rfl
    · intro y hy
      obtain ⟨hne, hy⟩ := (hmem y).mp hy
      refine (hi.owned y hy).imp (fun ho => (hothers y.1).mpr ⟨fun e => ?_, ho⟩) id
      exact hne (C.same_pointer hi.heap hy hx e)
    · intro pid y hy
      obtain ⟨h1, h2⟩ := hi.mine pid y hy
      exact ⟨(hmem y).mpr ⟨hi.apart hy hptr, h1⟩, fun hm => h2 ((hothers _).mp hm).2⟩
    · show (t.proc pid).Fine h.written
      rw [hw]
      exact hi.fine pid
  · exact absurd he (by simp)

theorem other_store (C : Contract M N B I) (hi : MmInv I t)
    (he : execOther M (.store a v) t = some t') : MmInv I t' := by
  simp only [execOther] at he
  split at he
  · rename_i hforeign
    obtain ⟨h, hs, rfl⟩ := Option.map_eq_some_iff.mp he
    obtain ⟨x, hx, hin⟩ := List.any_eq_true.mp hforeign
    obtain ⟨hxo, h1, h2⟩ := of_decide_eq_true hin
    obtain ⟨hI, hl, -, hframe⟩ := store_frame C hi.heap hx h1 h2 hs
    refine ⟨hI, hi.others, ?_, ?_, ?_, hi.once, hi.nodup, fun pid => ?_⟩
    · intro q hq
      show ∃ y ∈ h.live, y.1 = q
      rw [hl]
      exact hi.named q hq
    · intro y hy
      have hy' : y ∈ h.live := hy
      rw [hl] at hy'
      exact hi.owned y hy'
    · intro pid y hy
      refine ⟨?_, (hi.mine pid y hy).2⟩
      show y ∈ h.live
      rw [hl]
      exact (hi.mine pid y hy).1
    · exact (hi.fine pid).congr fun y hy b hb =>
        hframe y (hi.mine pid y hy).1 (hi.apart hy hxo) b hb
  · exact absurd he (by simp)

/-- no request of the other programs wraps -/
def MmOp.modest : MmOp → Bool
  | .other o => o.modestTo maxRequest
  | _ => true

/-- **One step.** -/
theorem mm_step (C : Contract M N B I) {o : MmOp} (hi : MmInv I t) (ho : o.modest = true)
    (he : execMm M o t = some t') : MmInv I t' := by
  cases o with
  | start pid arg =>
    simp only [execMm] at he
    split at he
    · rename_i hoff
      obtain rfl := Option.some.inj he
      exact mm_begin hi hoff arg
    · exact absurd he (by simp)
  | step pid fuel uniform =>
    obtain ⟨⟨h, p⟩, hs, rfl⟩ := Option.map_eq_some_iff.mp he
    exact mm_turn C hi hs
  | other o =>
    cases o with
    | alloc fuel size => exact other_alloc C hi (of_decide_eq_true ho) he
    | free fuel ptr => exact other_free C hi he
    | store a v => exact other_store C hi he

theorem mmInv_start {s : σ} (hs : I (.start s)) : MmInv I (.start s) := by
  refine ⟨hs, List.nodup_nil, ?_, ?_, ?_, ?_, fun pid => List.nodup_nil, fun pid => ⟨?_, ?_, ?_, ?_⟩⟩
  · intro ptr hptr
    exact absurd hptr List.not_mem_nil
  · intro x hx
    exact absurd hx List.not_mem_nil
  · intro pid x hx
    exact absurd hx List.not_mem_nil
  · intro pid q x hx
    exact absurd hx List.not_mem_nil
  · intro e
    cases e
  · exact fun _ => rfl
  · intro x hx
    exact absurd hx List.not_mem_nil
  · intro k x b _ _ hc
    exact absurd hc id

theorem MmInv.owns (C : Contract M N B I) (hi : MmInv I t) {x : Nat × Nat} {pid : Int}
    (hx : x ∈ (t.proc pid).held) : t.Owns pid x := by
  obtain ⟨hlive, hothers⟩ := hi.mine pid x hx
  exact ⟨hlive, fun y hy => C.apart hi.heap hlive hy, hothers, fun q hq => hi.once q pid x hq hx⟩

/-- **Any manager that keeps the contract.** -/
theorem mm_run (C : Contract M N B I) {s : σ} (hs : I (.start s)) {os : List MmOp}
    (hrun : Runs (execMm M) (fun o _ => o.modest = true) os (.start s) t) :
    (∀ pid, (t.proc pid).pos ≠ .failed) ∧
    (∀ pid fuel uniform, (t.proc pid).pos ≠ .off → N ≤ fuel →
      (execMm M (.step pid fuel uniform) t).isSome = true) ∧
    (∀ pid x, (t.proc pid).rqs[(t.proc pid).i]? = some x → t.Owns pid x) ∧
    (t.others = [] → (∀ pid, (t.proc pid).held = []) →
      t.heap.live = [] ∧ ∀ a n, B t.heap.s a n ↔ B s a n) := by
  have hi : MmInv I t := Runs.inv (I := MmInv I) (fun o t u h ho he => mm_step C h ho he) hrun
    (mmInv_start hs)
  refine ⟨fun pid => (hi.fine pid).alive, fun pid fuel uniform hoff hf => ?_,
    fun pid x hx => hi.owns C (MmProc.at_held hx), fun ho hheld => ?_⟩
  · show ((mmStep M fuel uniform t.heap (t.proc pid)).map _).isSome = true
    rw [Option.isSome_map]
    exact mm_goes_on C hi hoff hf
  · have hlive : t.heap.live = [] := by
      refine List.eq_nil_iff_forall_not_mem.mpr fun x hx => ?_
      rcases hi.owned x hx with h | ⟨pid, h⟩
      · rw [ho] at h
        exact absurd h List.not_mem_nil
      · rw [hheld pid] at h
        exact absurd h List.not_mem_nil
    exact ⟨hlive, C.same hi.heap hs hlive rfl⟩

end

/-- **`test_mm` never fails**, on either manager: whatever `GetUniform` returns, however many of it run,
and whatever the other programs do with blocks of their own meanwhile, no process reports an error,
each can go on, the block that it fills, checks or frees is its own, and when every block has been given
back the free blocks are those of `mm_init`. -/
theorem test_mm_never_fails :
    (∀ (s : Buddy) (base n : Nat) (os : List MmOp) (t : MmSys Buddy), minBlockSize ≤ n →
      0 < base → base + n ≤ 18446744073709551616 →
      Runs (execMm Buddy.manager) (fun o _ => o.modest = true) os (.start (s.mmInit base n)) t →
      (∀ pid, (t.proc pid).pos ≠ .failed) ∧
      (∀ pid fuel uniform, (t.proc pid).pos ≠ .off →
        (s.mmInit base n).totalManagedBytes + 52 ≤ fuel →
        (execMm Buddy.manager (.step pid fuel uniform) t).isSome = true) ∧
      (∀ pid x, (t.proc pid).rqs[(t.proc pid).i]? = some x → t.Owns pid x) ∧
      (t.others = [] → (∀ pid, (t.proc pid).held = []) → ∀ a size,
        Buddy.FreeBlock t.heap.s a size ↔ a = base ∧ size = (s.mmInit base n).totalManagedBytes)) ∧
    (∀ (s : FirstFit) (start n : Nat) (os : List MmOp) (t : MmSys FirstFit), 16 ≤ n →
      s.base + 16 ≤ start → start + n / 16 * 16 < 18446744073709551616 →
      Runs (execMm FirstFit.manager) (fun o _ => o.modest = true) os (.start (s.mmInit start n)) t →
      (∀ pid, (t.proc pid).pos ≠ .failed) ∧
      (∀ pid fuel uniform, (t.proc pid).pos ≠ .off → n / 16 * 16 + 1 ≤ fuel →
        (execMm FirstFit.manager (.step pid fuel uniform) t).isSome = true) ∧
      (∀ pid x, (t.proc pid).rqs[(t.proc pid).i]? = some x → t.Owns pid x) ∧
      (t.others = [] → (∀ pid, (t.proc pid).held = []) → ∀ a size,
        FirstFit.FreeBlock t.heap.s a size ↔ a = start ∧ size = n / 16 * unitSize)) := by
  constructor
  · intro s base n os t hn hb hbound hrun
    obtain ⟨F, V, hh⟩ := Buddy.held_start s hn hb hbound
    have hk : Buddy.Kept base (s.mmInit base n).totalManagedBytes (.start (s.mmInit base n)) F V :=
      ⟨hh, fun x hx => absurd hx List.not_mem_nil, fun x hx => absurd hx List.not_mem_nil⟩
    obtain ⟨hfail, hon, hown, hfree⟩ := mm_run (Buddy.contract _ _) ⟨F, V, hk⟩ hrun
    refine ⟨hfail, hon, hown, fun ho hheld a size => ?_⟩
    rw [(hfree ho hheld).2]
    exact Buddy.freeBlock_mmInit s hn hb hbound
  · intro s start n os t hn hb hbound hrun
    have hk : FirstFit.Kept s.base start (start + n / 16 * 16) (.start (s.mmInit start n))
        [(start, n / 16)] [] :=
      ⟨FirstFit.held_start s hn hb hbound, fun x hx => absurd hx List.not_mem_nil,
        fun x hx => absurd hx List.not_mem_nil⟩
    obtain ⟨hfail, hon, hown, hfree⟩ := mm_run (FirstFit.contract _ _ _) ⟨_, _, hk⟩ hrun
    refine ⟨hfail, fun pid fuel uniform hoff hf => hon pid fuel uniform hoff (by omega), hown,
      fun ho hheld a size => ?_⟩
    rw [(hfree ho hheld).2]
    exact FirstFit.freeBlock_mmInit s hn hb hbound

/-- two processes and another program; one has filled its two blocks and looked at the first, the other is
between its `memset` and its `memcheck` -/
def mmTurns : List MmOp :=
  [.start 3 ['2'], .start 4 ['1'], .other (.alloc 64 40), .step 3 64 0, .step 4 64 0, .step 4 64 0,
    .step 4 64 0, .step 4 64 0, .step 4 64 0, .step 3 64 0, .step 3 64 0, .step 3 64 0, .step 3 64 0,
    .step 3 64 0, .step 3 64 0, .step 3 64 0, .step 3 64 0]

theorem test_mm_never_fails_two :
    (∃ t x, Runs (execMm Buddy.manager) (fun o _ => o.modest = true) mmTurns
        (.start (Buddy.blank.mmInit 4096 16384)) t ∧ (t.proc 3).pos = .checking ∧
      (t.proc 4).pos = .checking ∧ t.heap.live.length = 4 ∧
      (execMm Buddy.manager (.step 3 20000 0) t).isSome = true ∧
      (t.proc 3).rqs[(t.proc 3).i]? = some x ∧ t.Owns 3 x) ∧
    ∃ t x, Runs (execMm FirstFit.manager) (fun o _ => o.modest = true) mmTurns
        (.start (FirstFit.blank.mmInit 4096 256)) t ∧ (t.proc 3).pos = .checking ∧
      (t.proc 4).pos = .checking ∧ t.heap.live.length = 4 ∧
      (execMm FirstFit.manager (.step 3 300 0) t).isSome = true ∧
      (t.proc 3).rqs[(t.proc 3).i]? = some x ∧ t.Owns 3 x := by
  constructor
  · have hrun : (runIf (execMm Buddy.manager) (fun o _ => o.modest) mmTurns
        (.start (Buddy.blank.mmInit 4096 16384))).map
        (fun t => ((t.proc 3).pos, (t.proc 4).pos, t.heap.live.length,
          ((t.proc 3).rqs[(t.proc 3).i]?).isSome))
        = some (.checking, .checking, 4, true) := by
      decide +kernel
    obtain ⟨t, ht, he⟩ := Option.map_eq_some_iff.mp hrun
    simp only [Prod.mk.injEq] at he
    obtain ⟨h3, h4, hlive, hx⟩ := he
    obtain ⟨x, hx⟩ := Option.isSome_iff_exists.mp hx
    have hr := runs_of_runIf ht
    obtain ⟨-, hon, hown, -⟩ := test_mm_never_fails.1 Buddy.blank 4096 16384 mmTurns t (by decide)
      (by decide) (by decide) hr
    exact ⟨t, x, hr, h3, h4, hlive, hon 3 20000 0 (by rw [h3]; decide) (by decide), hx, hown 3 x hx⟩
  · have hrun : (runIf (execMm FirstFit.manager) (fun o _ => o.modest) mmTurns
        (.start (FirstFit.blank.mmInit 4096 256))).map
        (fun t => ((t.proc 3).pos, (t.proc 4).pos, t.heap.live.length,
          ((t.proc 3).rqs[(t.proc 3).i]?).isSome))
        = some (.checking, .checking, 4, true) := by
      decide +kernel
    obtain ⟨t, ht, he⟩ := Option.map_eq_some_iff.mp hrun
    simp only [Prod.mk.injEq] at he
    obtain ⟨h3, h4, hlive, hx⟩ := he
    obtain ⟨x, hx⟩ := Option.isSome_iff_exists.mp hx
    have hr := runs_of_runIf ht
    obtain ⟨-, hon, hown, -⟩ := test_mm_never_fails.2 FirstFit.blank 4096 256 mmTurns t (by decide)
      (by decide) (by decide) hr
    exact ⟨t, x, hr, h3, h4, hlive, hon 3 300 0 (by rw [h3]; decide) (by decide), hx, hown 3 x hx⟩

end Tp2So
