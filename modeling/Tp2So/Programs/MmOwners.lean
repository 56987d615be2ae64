import Tp2So.Memory.Contract
import Tp2So.Programs.TestMm
import Mathlib.Logic.Function.Basic

/-!
# Whose the live blocks are

Each live block is one process's or one of the other programs', so that nobody else writes to it.

* `MmSys.Owns`       what a block is to the process that holds it;
* `MmProc.covered`   the bytes of its blocks that a process has filled;
* `MmInv`            the invariant: whose the live blocks are, and what is in those of the processes;
* `MmInv.turn`       one step of a process, by what it does to the heap and to the process;
* `mm_turn`          every step of a process;
* `mm_goes_on`       its next step is always there.
-/

set_option linter.unusedVariables false

namespace Tp2So

/-- byte `b` of the block `x`, the `k`th one, holds `k` -/
def MmProc.covered (p : MmProc) (k : Nat) (x : Nat × Nat) (b : Nat) : Prop :=
  match p.pos with
  | .setting => k < p.i ∨ k = p.i ∧ x.2 ≤ b + p.j
  | .checking => True
  | _ => False

structure MmProc.Fine (w : Nat → Option UInt8) (p : MmProc) : Prop where
  alive : p.pos ≠ .failed
  idle : p.pos = .off → p.rqs = []
  some : ∀ x ∈ p.rqs, x.1 ≠ 0
  filled : ∀ k x b, p.rqs[k]? = .some x → b < x.2 → p.covered k x b →
    w (x.1 + b) = .some (UInt8.ofNat k)

/-- the block is live, apart from every other live block, and nobody's but the process's -/
def MmSys.Owns {σ : Type} (t : MmSys σ) (pid : Int) (x : Nat × Nat) : Prop :=
  x ∈ t.heap.live ∧ (∀ y ∈ t.heap.live, x ≠ y → Apart x y) ∧ x.1 ∉ t.others ∧
    ∀ q, x ∈ (t.proc q).held → q = pid

structure MmInv {σ : Type} (I : Client σ → Prop) (t : MmSys σ) : Prop where
  heap : I t.heap
  others : t.others.Nodup
  named : ∀ ptr ∈ t.others, ∃ x ∈ t.heap.live, x.1 = ptr
  owned : ∀ x ∈ t.heap.live, x.1 ∈ t.others ∨ ∃ pid, x ∈ (t.proc pid).held
  mine : ∀ pid, ∀ x ∈ (t.proc pid).held, x ∈ t.heap.live ∧ x.1 ∉ t.others
  once : ∀ pid q x, x ∈ (t.proc pid).held → x ∈ (t.proc q).held → pid = q
  nodup : ∀ pid, (t.proc pid).held.Nodup
  fine : ∀ pid, (t.proc pid).Fine t.heap.written

section
variable {σ : Type} {M : Manager σ} {N fuel size a pid : Nat} {B : σ → Nat → Nat → Prop}
  {I : Client σ → Prop} {h h' : Client σ} {p p' : MmProc} {x y : Nat × Nat} {w w' : Nat → Option UInt8}

/-! ## the heap -/

theorem request_spec (he : h.request M fuel size = some (a, h')) :
    execMem M (.alloc fuel size) h = some h' ∧
      ((a = 0 ∧ h'.live = h.live ∧ h'.written = h.written) ∨
        (a ≠ 0 ∧ h'.live = (a, size) :: h.live ∧
          ∀ b, ¬ (a ≤ b ∧ b < a + size) → h'.written b = h.written b)) := by
  obtain ⟨r, hr, hp⟩ := Option.map_eq_some_iff.mp he
  obtain ⟨rfl, rfl⟩ := Prod.mk.inj hp
  refine ⟨?_, ?_⟩
  · show (M.alloc fuel h.s size).map _ = _
    rw [hr]
    rfl
  · by_cases h0 : r.1 = 0
    · rw [if_pos h0]
      exact Or.inl ⟨h0, rfl, rfl⟩
    · rw [if_neg h0]
      exact Or.inr ⟨h0, rfl, fun b hb => if_neg hb⟩

theorem request_frame (C : Contract M N B I) (hh : I h) (hsize : size ≤ maxRequest)
    (he : h.request M fuel size = some (a, h')) : I h' ∧
    ∀ x ∈ h.live, ∀ b, b < x.2 → h'.written (x.1 + b) = h.written (x.1 + b) := by
  obtain ⟨hexec, hcase⟩ := request_spec he
  have hI : I h' := C.step (o := .alloc fuel size) hh (decide_eq_true hsize) hexec
  refine ⟨hI, fun x hx b hb => ?_⟩
  rcases hcase with ⟨-, -, hw⟩ | ⟨-, hlive, hw⟩
  · rw [hw]
  · apply hw
    intro hin
    have hnd := C.nodup hI
    rw [hlive, List.map_cons] at hnd
    have hnew : (a, size) ∈ h'.live := by
      rw [hlive]
      exact List.mem_cons_self
    have hold : x ∈ h'.live := by
      rw [hlive]
      exact List.mem_cons_of_mem _ hx
    have hsame := C.same_byte hI hnew hold hin ⟨by omega, by omega⟩
    have ha : a = x.1 := congrArg Prod.fst hsame
    have hmem : x.1 ∈ h.live.map Prod.fst := List.mem_map_of_mem hx
    rw [← ha] at hmem
    exact (List.nodup_cons.mp hnd).1 hmem

theorem store_frame (C : Contract M N B I) (hh : I h) {v : UInt8} (hx : x ∈ h.live)
    (h1 : x.1 ≤ a) (h2 : a < x.1 + x.2) (he : execMem M (.store a v) h = some h') :
    I h' ∧ h'.live = h.live ∧ h'.written = Function.update h.written a (some v) ∧
    ∀ y ∈ h.live, y ≠ x → ∀ b, b < y.2 → h'.written (y.1 + b) = h.written (y.1 + b) := by
  obtain ⟨-, rfl⟩ := execMem_store he
  refine ⟨C.step hh rfl he, rfl, rfl, fun y hy hne b hb => ?_⟩
  have hba : y.1 + b ≠ a := by
    intro e
    exact hne (C.same_byte (a := a) hh hy hx ⟨by omega, by omega⟩ ⟨h1, h2⟩)
  exact Function.update_of_ne hba _ _

theorem store_some {v : UInt8} (hx : x ∈ h.live) (h1 : x.1 ≤ a) (h2 : a < x.1 + x.2) :
    ∃ h', execMem M (.store a v) h = some h' := by
  have hown : h.owns a = true := List.any_eq_true.mpr ⟨x, hx, decide_eq_true ⟨h1, h2⟩⟩
  exact ⟨_, if_pos hown⟩

theorem free_frame (C : Contract M N B I) (hh : I h) (hx : x ∈ h.live)
    (he : execMem M (.free fuel x.1) h = some h') :
    I h' ∧ h'.written = h.written ∧ h'.live = h.live.erase x := by
  obtain ⟨y, s, hy, hyx, -, rfl⟩ := execMem_free he
  obtain rfl := C.same_pointer hh hy hx hyx
  exact ⟨C.step hh rfl he, rfl, rfl⟩

theorem Contract.live_nodup (C : Contract M N B I) (hh : I h) : h.live.Nodup :=
  List.Nodup.of_map _ (C.nodup hh)

/-! ## a process -/

theorem MmProc.held_of_ne (hp : p.pos ≠ .freeing) : p.held = p.rqs := by
  cases hpos : p.pos with
  | freeing => exact absurd hpos hp
  | _ => simp only [MmProc.held, hpos]

theorem MmProc.held_freeing (hp : p.pos = .freeing) : p.held = p.rqs.drop p.i := by
  simp only [MmProc.held, hp]

/-- the block that a loop is at has not been given back -/
theorem MmProc.at_held (hx : p.rqs[p.i]? = some x) : x ∈ p.held := by
  by_cases hp : p.pos = .freeing
  · rw [MmProc.held_freeing hp]
    apply List.mem_of_getElem? (i := 0)
    rw [List.getElem?_drop, Nat.add_zero]
    exact hx
  · rw [MmProc.held_of_ne hp]
    exact List.mem_of_getElem? hx

/-- only blocks that the process still has are filled -/
theorem MmProc.covered_held {k b : Nat} (hk : p.rqs[k]? = some x) (hc : p.covered k x b) :
    x ∈ p.held := by
  have hmem := List.mem_of_getElem? hk
  rw [MmProc.held_of_ne]
  · exact hmem
  · intro e
    simp only [MmProc.covered, e] at hc

theorem MmProc.Fine.congr (hf : p.Fine w)
    (hw : ∀ x ∈ p.held, ∀ b, b < x.2 → w' (x.1 + b) = w (x.1 + b)) : p.Fine w' :=
  ⟨hf.alive, hf.idle, hf.some, fun k x b hk hb hc =>
    (hw x (MmProc.covered_held hk hc) b hb).trans (hf.filled k x b hk hb hc)⟩

end

/-! ## one step of a process -/

section
variable {σ : Type} {M : Manager σ} {N fuel : Nat} {B : σ → Nat → Nat → Prop} {I : Client σ → Prop}
  {t : MmSys σ} {h' : Client σ} {p' : MmProc} {pid : Int} {uniform : BitVec 32} {x : Nat × Nat}

theorem MmInv.turn (hi : MmInv I t) (hI : I h')
    (hlive : ∀ x, x ∈ h'.live ↔ x ∈ t.heap.live ∧ x ∉ (t.proc pid).held ∨ x ∈ p'.held)
    (hnew : ∀ x ∈ p'.held, x ∈ (t.proc pid).held ∨ x.1 ∉ t.heap.live.map Prod.fst)
    (hnd : p'.held.Nodup)
    (hframe : ∀ x ∈ t.heap.live, x ∉ (t.proc pid).held → ∀ b, b < x.2 →
      h'.written (x.1 + b) = t.heap.written (x.1 + b))
    (hfine : p'.Fine h'.written) : MmInv I (t.set pid h' p') := by
  have hself : (t.set pid h' p').proc pid = p' := Function.update_self ..
  have hother : ∀ q, q ≠ pid → (t.set pid h' p').proc q = t.proc q := fun q hq =>
    Function.update_of_ne hq _ _
  -- a block of another process is there and is not the step's
  have hdistinct : ∀ q, q ≠ pid → ∀ x ∈ (t.proc q).held, x ∈ t.heap.live ∧ x ∉ (t.proc pid).held :=
    fun q hq x hx => ⟨(hi.mine q x hx).1, fun hp => hq (hi.once q pid x hx hp)⟩
  have hapart : ∀ q, q ≠ pid → ∀ x ∈ p'.held, x ∉ (t.proc q).held := by
    intro q hq x hx hxq
    obtain ⟨hl, hp⟩ := hdistinct q hq x hxq
    rcases hnew x hx with h | h
    · exact hp h
    · exact h (List.mem_map_of_mem hl)
  constructor
  · exact hI
  · exact hi.others
  · intro ptr hptr
    obtain ⟨x, hx, rfl⟩ := hi.named ptr hptr
    refine ⟨x, (hlive x).mpr (Or.inl ⟨hx, fun hp => (hi.mine pid x hp).2 hptr⟩), rfl⟩
  · intro x hx
    rcases (hlive x).mp hx with ⟨hl, hp⟩ | hp
    · rcases hi.owned x hl with ho | ⟨q, hq⟩
      · exact Or.inl ho
      · have hne : q ≠ pid := by
          rintro rfl
          exact hp hq
        exact Or.inr ⟨q, by rw [hother q hne]; exact hq⟩
    · exact Or.inr ⟨pid, by rw [hself]; exact hp⟩
  · intro q x hx
    by_cases hq : q = pid
    · rw [hq, hself] at hx
      refine ⟨(hlive x).mpr (Or.inr hx), ?_⟩
      rcases hnew x hx with h | h
      · exact (hi.mine pid x h).2
      · intro ho
        obtain ⟨y, hy, hyx⟩ := hi.named _ ho
        rw [← hyx] at h
        exact h (List.mem_map_of_mem hy)
    · rw [hother q hq] at hx
      exact ⟨(hlive x).mpr (Or.inl (hdistinct q hq x hx)), (hi.mine q x hx).2⟩
  · intro q r x hx hx'
    by_cases hq : q = pid
    · by_cases hr : r = pid
      · rw [hq, hr]
      · rw [hq, hself] at hx
        rw [hother r hr] at hx'
        exact absurd hx' (hapart r hr x hx)
    · rw [hother q hq] at hx
      by_cases hr : r = pid
      · rw [hr, hself] at hx'
        exact absurd hx (hapart q hq x hx')
      · rw [hother r hr] at hx'
        exact hi.once q r x hx hx'
  · intro q
    by_cases hq : q = pid
    · rw [hq, hself]
      exact hnd
    · rw [hother q hq]
      exact hi.nodup q
  · intro q
    by_cases hq : q = pid
    · rw [hq, hself]
      exact hfine
    · rw [hother q hq]
      refine (hi.fine q).congr fun x hx => ?_
      obtain ⟨hl, hp⟩ := hdistinct q hq x hx
      exact hframe x hl hp

theorem MmInv.stay (hi : MmInv I t) (hI : I h') (hlive : h'.live = t.heap.live)
    (hheld : p'.held = (t.proc pid).held)
    (hframe : ∀ x ∈ t.heap.live, x ∉ (t.proc pid).held → ∀ b, b < x.2 →
      h'.written (x.1 + b) = t.heap.written (x.1 + b))
    (hfine : p'.Fine h'.written) : MmInv I (t.set pid h' p') := by
  refine hi.turn hI (fun x => ?_) (fun x hx => Or.inl (by rw [← hheld]; exact hx)) ?_ hframe hfine
  · rw [hlive, hheld]
    constructor
    · intro hx
      by_cases hp : x ∈ (t.proc pid).held
      · exact Or.inr hp
      · exact Or.inl ⟨hx, hp⟩
    · rintro (hx | hx)
      · exact hx.1
      · exact (hi.mine pid x hx).1
  · rw [hheld]
    exact hi.nodup pid

theorem MmInv.goto (hi : MmInv I t) (hheld : p'.held = (t.proc pid).held)
    (hfine : p'.Fine t.heap.written) : MmInv I (t.set pid t.heap p') :=
  hi.stay hi.heap rfl hheld (fun x _ _ b _ => rfl) hfine

theorem mm_requesting (C : Contract M N B I) (hi : MmInv I t)
    (hpos : (t.proc pid).pos = .requesting) {a : Nat} {u : BitVec 32}
    (he : t.heap.request M fuel u.toNat = some (a, h')) :
    MmInv I (t.set pid h' ((t.proc pid).record a u)) := by
  have hsize : u.toNat ≤ maxRequest := Nat.le_of_lt u.isLt
  obtain ⟨hI, hframe⟩ := request_frame C hi.heap hsize he
  obtain ⟨-, ⟨rfl, hlive, hw⟩ | ⟨h0, hlive, -⟩⟩ := request_spec he
  · have hrec : (t.proc pid).record 0 u = t.proc pid := if_pos rfl
    rw [hrec]
    refine hi.stay hI hlive rfl (fun x hx _ => hframe x hx) ?_
    rw [hw]
    exact hi.fine pid
  · obtain ⟨q, hq⟩ : ∃ q, q = (t.proc pid).record a u := ⟨_, rfl⟩
    have hrec : q = { t.proc pid with
        rqs := (t.proc pid).rqs ++ [(a, u.toNat)], total := (t.proc pid).total + u } :=
      hq.trans (if_neg h0)
    have hqpos : q.pos = .requesting := by
      rw [hrec]
      exact hpos
    have hqrqs : q.rqs = (t.proc pid).rqs ++ [(a, u.toNat)] := by rw [hrec]
    have hold : (t.proc pid).held = (t.proc pid).rqs := MmProc.held_of_ne (by rw [hpos]; decide)
    have hheld : q.held = (t.proc pid).held ++ [(a, u.toNat)] := by
      rw [hold, MmProc.held_of_ne (by rw [hqpos]; decide), hqrqs]
    have hfresh : a ∉ t.heap.live.map Prod.fst := by
      have hnd := C.nodup hI
      rw [hlive, List.map_cons] at hnd
      exact (List.nodup_cons.mp hnd).1
    have hnot : (a, u.toNat) ∉ (t.proc pid).held := fun hm =>
      hfresh (List.mem_map_of_mem (f := Prod.fst) (hi.mine pid _ hm).1)
    rw [← hq]
    refine hi.turn hI (fun x => ?_) (fun x hx => ?_) ?_ (fun x hx _ => hframe x hx) ⟨?_, ?_, ?_, ?_⟩
    · rw [hlive, hheld, List.mem_cons, List.mem_append, List.mem_singleton]
      constructor
      · rintro (rfl | hx)
        · exact Or.inr (Or.inr rfl)
        · by_cases hp : x ∈ (t.proc pid).held
          · exact Or.inr (Or.inl hp)
          · exact Or.inl ⟨hx, hp⟩
      · rintro (hx | hx | rfl)
        · exact Or.inr hx.1
        · exact Or.inr (hi.mine pid x hx).1
        · exact Or.inl rfl
    · rw [hheld, List.mem_append, List.mem_singleton] at hx
      rcases hx with hx | rfl
      · exact Or.inl hx
      · exact Or.inr hfresh
    · rw [hheld]
      exact List.nodup_append.mpr ⟨hi.nodup pid, List.nodup_singleton _, fun x hx y hy e =>
        hnot (by rw [List.mem_singleton.mp hy] at e; rw [← e]; exact hx)⟩
    · rw [hqpos]
      decide
    · intro hoff
      rw [hqpos] at hoff
      exact absurd hoff (by decide)
    · intro x hx
      rw [hqrqs, List.mem_append, List.mem_singleton] at hx
      rcases hx with hx | rfl
      · exact (hi.fine pid).some x hx
      · exact h0
    · intro k x b _ _ hc
      simp only [MmProc.covered, hqpos] at hc

/-- a loop is entered whose blocks are those of the loop before -/
theorem mm_enter (hi : MmInv I t) {s : MmPos} (hold : (t.proc pid).pos ≠ .freeing)
    (hoff : (t.proc pid).pos ≠ .off)
    (hs : s = .setting ∨ (s = .checking ∧ ∀ k x b, (t.proc pid).rqs[k]? = some x → b < x.2 →
      (t.proc pid).covered k x b) ∨ s = .freeing) :
    MmInv I (t.set pid t.heap ((t.proc pid).enter s)) := by
  have hf := hi.fine pid
  have hheld : ((t.proc pid).enter s).held = (t.proc pid).held := by
    rw [MmProc.held_of_ne hold]
    rcases hs with rfl | ⟨rfl, -⟩ | rfl
    · rfl
    · rfl
    · show (t.proc pid).rqs.drop 0 = _
      exact List.drop_zero
  refine hi.goto hheld ⟨?_, ?_, hf.some, ?_⟩
  · show s ≠ .failed
    rcases hs with rfl | ⟨rfl, -⟩ | rfl <;> decide
  · intro e
    have e' : s = .off := e
    rcases hs with rfl | ⟨rfl, -⟩ | rfl <;> exact absurd e' (by decide)
  · intro k x b hk hb hc
    rcases hs with rfl | ⟨rfl, hall⟩ | rfl
    · -- nothing of the first block is filled
      rcases (show k < 0 ∨ k = 0 ∧ x.2 ≤ b + 0 from hc) with h | ⟨-, h⟩ <;> omega
    · exact hf.filled k x b hk hb (hall k x b hk hb)
    · exact absurd hc id

theorem MmProc.next_held {p : MmProc} (hp : p.pos ≠ .freeing) : p.next.held = p.held := by
  rw [MmProc.held_of_ne hp, MmProc.held_of_ne (p := p.next) hp]
  rfl

theorem mm_setting (C : Contract M N B I) (hi : MmInv I t) (hpos : (t.proc pid).pos = .setting)
    (hx : (t.proc pid).rqs[(t.proc pid).i]? = some x)
    (he : memsetStep M t.heap (t.proc pid) x = some (h', p')) : MmInv I (t.set pid h' p') := by
  have hf := hi.fine pid
  have hne : (t.proc pid).pos ≠ .freeing := by
    rw [hpos]
    decide
  have hheld := MmProc.held_of_ne hne
  have hmem : x ∈ (t.proc pid).held := by
    rw [hheld]
    exact List.mem_of_getElem? hx
  obtain ⟨p, hp⟩ : ∃ p, p = t.proc pid := ⟨_, rfl⟩
  rw [← hp] at he hf hx
  have hppos : p.pos = .setting := by
    rw [hp]
    exact hpos
  unfold memsetStep at he
  split at he
  · rename_i hj
    obtain ⟨h, hstore, hr⟩ := Option.map_eq_some_iff.mp he
    obtain ⟨rfl, rfl⟩ := Prod.mk.inj hr
    obtain ⟨hI, hlive, hw, hframe⟩ := store_frame C hi.heap (hi.mine pid x hmem).1
      (Nat.le_add_right _ _) (by omega) hstore
    refine hi.stay hI hlive (by rw [hp]; rfl) (fun y hy hyp => hframe y hy ?_) ⟨?_, ?_, hf.some, ?_⟩
    · rintro rfl
      exact hyp hmem
    · exact hf.alive
    · exact hf.idle
    · intro k y b hk hb hc
      have hk' : p.rqs[k]? = some y := hk
      have hc' : k < p.i ∨ k = p.i ∧ y.2 ≤ b + (p.j + 1) := by
        have hpos' : p.advance.pos = .setting := hppos
        simp only [MmProc.covered, hpos'] at hc
        exact hc
      have hym : y ∈ (t.proc pid).held := by
        rw [hheld, ← hp]
        exact List.mem_of_getElem? hk'
      by_cases hki : k = p.i
      · obtain rfl : y = x := by
          rw [hki, hx] at hk'
          exact (Option.some.inj hk').symm
        rw [hw]
        by_cases hb' : b = y.2 - 1 - p.j
        · rw [hb', hki]
          exact Function.update_self ..
        · rw [Function.update_of_ne (by omega)]
          refine hf.filled k y b hk' hb ?_
          simp only [MmProc.covered, hppos]
          omega
      · have hyx : y ≠ x := by
          intro e
          have hnd := hi.nodup pid
          rw [hheld, ← hp] at hnd
          rw [e, ← hx] at hk'
          have hlt : k < p.rqs.length := by
            by_contra hge
            rw [List.getElem?_eq_none (by omega), hx] at hk'
            exact absurd hk' (by simp)
          exact hki ((List.getElem?_inj hlt hnd).mp hk')
        rw [hframe y (hi.mine pid y hym).1 hyx b hb]
        refine hf.filled k y b hk' hb ?_
        simp only [MmProc.covered, hppos]
        omega
  · rename_i hj
    obtain ⟨rfl, rfl⟩ := Prod.mk.inj (Option.some.inj he)
    refine hi.goto (by rw [hp]; exact MmProc.next_held hne) ⟨hf.alive, hf.idle, hf.some, ?_⟩
    intro k y b hk hb hc
    have hk' : p.rqs[k]? = some y := hk
    have hpos' : p.next.pos = .setting := hppos
    have hc' : k < p.i + 1 ∨ k = p.i + 1 ∧ y.2 ≤ b + 0 := by
      simp only [MmProc.covered, hpos'] at hc
      exact hc
    refine hf.filled k y b hk' hb ?_
    simp only [MmProc.covered, hppos]
    by_cases hki : k = p.i
    · rw [hki, hx] at hk'
      obtain rfl := Option.some.inj hk'
      omega
    · omega

theorem mm_checking (C : Contract M N B I) (hi : MmInv I t) (hpos : (t.proc pid).pos = .checking)
    (hx : (t.proc pid).rqs[(t.proc pid).i]? = some x)
    (he : memcheckStep M t.heap (t.proc pid) x = some (h', p')) : MmInv I (t.set pid h' p') := by
  have hf := hi.fine pid
  have hne : (t.proc pid).pos ≠ .freeing := by
    rw [hpos]
    decide
  have hfilled : ∀ k x b, (t.proc pid).rqs[k]? = some x → b < x.2 →
      t.heap.written (x.1 + b) = some (UInt8.ofNat k) := by
    intro k x b hk hb
    refine hf.filled k x b hk hb ?_
    simp only [MmProc.covered, hpos]
  have hmem : x ∈ (t.proc pid).held := by
    rw [MmProc.held_of_ne hne]
    exact List.mem_of_getElem? hx
  unfold memcheckStep at he
  split at he
  · rename_i hj
    obtain ⟨v, hv, hr⟩ := Option.map_eq_some_iff.mp he
    -- what is read is what was stored
    have hread : v = UInt8.ofNat (t.proc pid).i := by
      have hvr : M.read t.heap.s (x.1 + (t.proc pid).j) = v := by
        unfold Client.load at hv
        split at hv
        · exact Option.some.inj hv
        · exact absurd hv (by simp)
      rw [← hvr]
      exact C.reads hi.heap x (hi.mine pid x hmem).1 _ (Nat.le_add_right _ _) (by omega) _
        (hfilled _ x _ hx hj)
    rw [if_neg (not_not.mpr hread)] at hr
    obtain ⟨rfl, rfl⟩ := Prod.mk.inj hr
    exact hi.goto rfl ⟨hf.alive, hf.idle, hf.some, fun k y b hk hb _ => hfilled k y b hk hb⟩
  · obtain ⟨rfl, rfl⟩ := Prod.mk.inj (Option.some.inj he)
    exact hi.goto (MmProc.next_held hne)
      ⟨hf.alive, hf.idle, hf.some, fun k y b hk hb _ => hfilled k y b hk hb⟩

theorem mm_freeing (C : Contract M N B I) (hi : MmInv I t) (hpos : (t.proc pid).pos = .freeing)
    (hx : (t.proc pid).rqs[(t.proc pid).i]? = some x)
    (he : execMem M (.free fuel x.1) t.heap = some h') :
    MmInv I (t.set pid h' (t.proc pid).next) := by
  have hf := hi.fine pid
  obtain ⟨q, hq⟩ : ∃ q, q = (t.proc pid).next := ⟨_, rfl⟩
  have hqpos : q.pos = .freeing := by
    rw [hq]
    exact hpos
  have hheld : (t.proc pid).held = x :: q.held := by
    rw [MmProc.held_freeing hpos, MmProc.held_freeing hqpos, hq]
    obtain ⟨hlt, hget⟩ := List.getElem?_eq_some_iff.mp hx
    rw [List.drop_eq_getElem_cons hlt, hget]
    rfl
  have hnd := hi.nodup pid
  rw [hheld] at hnd
  obtain ⟨hnot, hnd'⟩ := List.nodup_cons.mp hnd
  have hmem : x ∈ (t.proc pid).held := by
    rw [hheld]
    exact List.mem_cons_self
  have hlive := (hi.mine pid x hmem).1
  obtain ⟨hI, hw, hl⟩ := free_frame C hi.heap hlive he
  rw [← hq]
  refine hi.turn hI (fun y => ?_) (fun y hy => ?_) hnd' (fun y _ _ b _ => by rw [hw])
    ⟨?_, ?_, ?_, ?_⟩
  · rw [hl, (C.live_nodup hi.heap).mem_erase_iff, hheld, List.mem_cons, not_or]
    constructor
    · rintro ⟨hne, hy⟩
      by_cases hyq : y ∈ q.held
      · exact Or.inr hyq
      · exact Or.inl ⟨hy, hne, hyq⟩
    · rintro (⟨hy, hne, -⟩ | hy)
      · exact ⟨hne, hy⟩
      · refine ⟨?_, (hi.mine pid y (by rw [hheld]; exact List.mem_cons_of_mem _ hy)).1⟩
        rintro rfl
        exact hnot hy
  · rw [hheld]
    exact Or.inl (List.mem_cons_of_mem _ hy)
  · rw [hqpos]
    decide
  · intro e
    rw [hqpos] at e
    exact absurd e (by decide)
  · intro y hy
    rw [hq] at hy
    exact hf.some y hy
  · intro k y b _ _ hc
    simp only [MmProc.covered, hqpos] at hc

/-- a new round: everything has been given back -/
theorem mm_again (hi : MmInv I t) (hpos : (t.proc pid).pos = .freeing)
    (hx : (t.proc pid).rqs[(t.proc pid).i]? = none) :
    MmInv I (t.set pid t.heap (t.proc pid).again) := by
  refine hi.goto ?_ ⟨fun e => ?_, fun _ => rfl, ?_, ?_⟩
  · rw [MmProc.held_freeing hpos]
    exact (List.drop_eq_nil_of_le (List.getElem?_eq_none_iff.mp hx)).symm
  · cases e
  · intro x hx
    exact absurd hx List.not_mem_nil
  · intro k x b _ _ hc
    exact absurd hc id

theorem mm_begin (hi : MmInv I t) (hoff : (t.proc pid).pos = .off) (arg : List Char) :
    MmInv I (t.set pid t.heap (testMm arg)) := by
  have hrqs : (testMm arg).rqs = [] := by
    unfold testMm
    split <;> rfl
  have hpos : (testMm arg).pos = .off ∨ (testMm arg).pos = .requesting := by
    unfold testMm
    split
    · exact Or.inl rfl
    · exact Or.inr rfl
  have hheld : (testMm arg).held = [] := by
    rw [MmProc.held_of_ne, hrqs]
    rcases hpos with e | e <;> rw [e] <;> decide
  refine hi.goto ?_ ⟨?_, fun _ => hrqs, ?_, ?_⟩
  · rw [hheld, MmProc.held_of_ne (by rw [hoff]; decide), (hi.fine pid).idle hoff]
  · rcases hpos with e | e <;> rw [e] <;> decide
  · intro x hx
    rw [hrqs] at hx
    exact absurd hx List.not_mem_nil
  · intro k x b hk
    rw [hrqs] at hk
    exact absurd hk (by simp)

theorem mm_turn (C : Contract M N B I) (hi : MmInv I t)
    (he : mmStep M fuel uniform t.heap (t.proc pid) = some (h', p')) :
    MmInv I (t.set pid h' p') := by
  have hnonzero : ∀ {x}, (t.proc pid).rqs[(t.proc pid).i]? = some x → x.1 ≠ 0 := fun hx =>
    (hi.fine pid).some _ (List.mem_of_getElem? hx)
  unfold mmStep at he
  cases hpos : (t.proc pid).pos with
  | off =>
    simp only [hpos] at he
    exact absurd he (by simp)
  | failed => exact absurd hpos (hi.fine pid).alive
  | requesting =>
    simp only [hpos] at he
    split at he
    · obtain ⟨⟨a, h⟩, hr, hp⟩ := Option.map_eq_some_iff.mp he
      obtain ⟨rfl, rfl⟩ := Prod.mk.inj hp
      exact mm_requesting C hi hpos hr
    · obtain ⟨rfl, rfl⟩ := Prod.mk.inj (Option.some.inj he)
      exact mm_enter hi (by rw [hpos]; decide) (by rw [hpos]; decide) (Or.inl rfl)
  | setting =>
    simp only [hpos] at he
    cases hx : (t.proc pid).rqs[(t.proc pid).i]? with
    | none =>
      simp only [hx] at he
      obtain ⟨rfl, rfl⟩ := Prod.mk.inj (Option.some.inj he)
      refine mm_enter hi (by rw [hpos]; decide) (by rw [hpos]; decide)
        (Or.inr (Or.inl ⟨rfl, fun k x b hk _ => ?_⟩))
      -- the loop has passed every block
      obtain ⟨hlt, -⟩ := List.getElem?_eq_some_iff.mp hk
      have hle := List.getElem?_eq_none_iff.mp hx
      simp only [MmProc.covered, hpos]
      omega
    | some x =>
      simp only [hx] at he
      rw [if_pos (hnonzero hx)] at he
      exact mm_setting C hi hpos hx he
  | checking =>
    simp only [hpos] at he
    cases hx : (t.proc pid).rqs[(t.proc pid).i]? with
    | none =>
      simp only [hx] at he
      obtain ⟨rfl, rfl⟩ := Prod.mk.inj (Option.some.inj he)
      exact mm_enter hi (by rw [hpos]; decide) (by rw [hpos]; decide) (Or.inr (Or.inr rfl))
    | some x =>
      simp only [hx] at he
      rw [if_pos (hnonzero hx)] at he
      exact mm_checking C hi hpos hx he
  | freeing =>
    simp only [hpos] at he
    cases hx : (t.proc pid).rqs[(t.proc pid).i]? with
    | none =>
      simp only [hx] at he
      obtain ⟨rfl, rfl⟩ := Prod.mk.inj (Option.some.inj he)
      exact mm_again hi hpos hx
    | some x =>
      simp only [hx] at he
      rw [if_pos (hnonzero hx)] at he
      obtain ⟨h, hfree, hp⟩ := Option.map_eq_some_iff.mp he
      obtain ⟨rfl, rfl⟩ := Prod.mk.inj hp
      exact mm_freeing C hi hpos hx hfree

/-- **Nothing stops a process.**  With fuel for a call, its next step is there: what it touches is its
own. -/
theorem mm_goes_on (C : Contract M N B I) (hi : MmInv I t) (hoff : (t.proc pid).pos ≠ .off)
    (hf : N ≤ fuel) : (mmStep M fuel uniform t.heap (t.proc pid)).isSome = true := by
  have hheld : ∀ {x}, (t.proc pid).pos ≠ .freeing → (t.proc pid).rqs[(t.proc pid).i]? = some x →
      x ∈ t.heap.live := fun hne hx =>
    (hi.mine pid _ (by rw [MmProc.held_of_ne hne]; exact List.mem_of_getElem? hx)).1
  unfold mmStep
  cases hpos : (t.proc pid).pos with
  | off => exact absurd hpos hoff
  | failed => exact absurd hpos (hi.fine pid).alive
  | requesting =>
    simp only
    split
    · rw [Option.isSome_map, Client.request, Option.isSome_map]
      exact C.alloc hi.heap (Nat.le_of_lt (uniform + 1).isLt) hf
    · rfl
  | setting =>
    have hne : (t.proc pid).pos ≠ .freeing := by
      rw [hpos]
      decide
    cases hx : (t.proc pid).rqs[(t.proc pid).i]? with
    | none => rfl
    | some x =>
      simp only
      split
      · unfold memsetStep
        split
        · obtain ⟨h, hs⟩ := store_some (M := M) (v := UInt8.ofNat (t.proc pid).i) (hheld hne hx)
            (Nat.le_add_right x.1 (x.2 - 1 - (t.proc pid).j)) (by omega)
          rw [hs]
          rfl
        · rfl
      · rfl
  | checking =>
    have hne : (t.proc pid).pos ≠ .freeing := by
      rw [hpos]
      decide
    cases hx : (t.proc pid).rqs[(t.proc pid).i]? with
    | none => rfl
    | some x =>
      simp only
      split
      · unfold memcheckStep
        split
        · have hown : t.heap.owns (x.1 + (t.proc pid).j) = true := List.any_eq_true.mpr
            ⟨x, hheld hne hx, decide_eq_true ⟨Nat.le_add_right _ _, by omega⟩⟩
          rw [Option.isSome_map, Client.load, if_pos hown]
          rfl
        · rfl
      · rfl
  | freeing =>
    cases hx : (t.proc pid).rqs[(t.proc pid).i]? with
    | none => rfl
    | some x =>
      simp only
      split
      · have hmem : x ∈ (t.proc pid).held := by
          obtain ⟨hlt, hget⟩ := List.getElem?_eq_some_iff.mp hx
          rw [MmProc.held_freeing hpos, List.drop_eq_getElem_cons hlt, hget]
          exact List.mem_cons_self
        have hlive := (hi.mine pid x hmem).1
        obtain ⟨h, hs⟩ := execMem_free_some (M := M) (List.mem_map_of_mem (f := Prod.fst) hlive)
          (C.free hi.heap hlive hf)
        rw [hs]
        rfl
      · rfl

end

end Tp2So
