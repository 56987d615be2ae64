import Tp2So.Lib.Runs
import Mathlib.Logic.Function.Basic

/-!
# The clients of a memory manager

The clients of a manager take blocks, give them back and store bytes in them, in any order.

* `Manager`      what a manager offers, over a state of its own;
* `Client`       its state, the pointers that are live with the bytes that were asked for, and the last
                 value that a client has stored at an address of a live block;
* `execMem`      the steps;
* `Client.Reads`  what a client has stored is there.
-/

set_option linter.unusedVariables false

namespace Tp2So

/-- calls run on fuel, and the pointer `0` is NULL -/
structure Manager (σ : Type) where
  alloc : Nat → σ → Nat → Option (Nat × σ)
  free : Nat → σ → Nat → Option σ
  read : σ → Nat → UInt8
  write : σ → Nat → UInt8 → σ

structure Client (σ : Type) where
  s : σ
  live : List (Nat × Nat)
  written : Nat → Option UInt8

/-- nobody has asked for anything -/
def Client.start {σ : Type} (s : σ) : Client σ := ⟨s, [], fun _ => none⟩

inductive MemOp where
  | alloc (fuel size : Nat)
  | free (fuel ptr : Nat)
  | store (addr : Nat) (value : UInt8)

/-- not a store -/
def MemOp.isCall : MemOp → Bool
  | .store _ _ => false
  | _ => true

/-- no request is larger than the region -/
def MemOp.modestTo (total : Nat) : MemOp → Bool
  | .alloc _ size => size ≤ total
  | _ => true

/-- the address is one of the bytes that were asked for -/
def Client.owns {σ : Type} (t : Client σ) (a : Nat) : Bool :=
  t.live.any fun x => decide (x.1 ≤ a ∧ a < x.1 + x.2)

/-- a new block holds nothing that a client has stored -/
def Client.given {σ : Type} (t : Client σ) (s : σ) (ptr size : Nat) : Client σ where
  s := s
  live := (ptr, size) :: t.live
  written a := if ptr ≤ a ∧ a < ptr + size then none else t.written a

def execMem {σ : Type} (M : Manager σ) : MemOp → Client σ → Option (Client σ)
  | .alloc fuel size, t => (M.alloc fuel t.s size).map fun r =>
    if r.1 = 0 then { t with s := r.2 } else t.given r.2 r.1 size
  | .free fuel ptr, t => (t.live.find? fun x => x.1 = ptr).bind fun x =>
    (M.free fuel t.s ptr).map fun s => { t with s, live := t.live.erase x }
  | .store a v, t =>
    if t.owns a then
      some { t with s := M.write t.s a v, written := Function.update t.written a (some v) }
    else none

/-- every byte of a live block reads back the last value that a client has stored there -/
def Client.Reads {σ : Type} (M : Manager σ) (t : Client σ) : Prop :=
  ∀ x ∈ t.live, ∀ a, x.1 ≤ a → a < x.1 + x.2 → ∀ v, t.written a = some v → M.read t.s a = v

section
variable {σ : Type} {M : Manager σ} {t t' : Client σ} {fuel size ptr a : Nat} {v : UInt8} {o : MemOp}

theorem execMem_alloc (h : execMem M (.alloc fuel size) t = some t') :
    ∃ r, M.alloc fuel t.s size = some r ∧
      ((r.1 = 0 ∧ t' = { t with s := r.2 }) ∨ (r.1 ≠ 0 ∧ t' = t.given r.2 r.1 size)) := by
  obtain ⟨r, hr, he⟩ := Option.map_eq_some_iff.mp h
  refine ⟨r, hr, ?_⟩
  by_cases h0 : r.1 = 0
  · rw [if_pos h0] at he
    exact Or.inl ⟨h0, he.symm⟩
  · rw [if_neg h0] at he
    exact Or.inr ⟨h0, he.symm⟩

theorem execMem_free (h : execMem M (.free fuel ptr) t = some t') :
    ∃ x s, x ∈ t.live ∧ x.1 = ptr ∧ M.free fuel t.s ptr = some s ∧
      t' = { t with s, live := t.live.erase x } := by
  obtain ⟨x, hx, he⟩ := Option.bind_eq_some_iff.mp h
  obtain ⟨s, hs, rfl⟩ := Option.map_eq_some_iff.mp he
  have hptr : decide (x.1 = ptr) = true := 
    List.find?_some (p := fun x : Nat × Nat => decide (x.1 = ptr)) hx
  exact ⟨x, s, List.mem_of_find?_eq_some hx, of_decide_eq_true hptr, hs, rfl⟩

theorem execMem_store (h : execMem M (.store a v) t = some t') :
    (∃ x ∈ t.live, x.1 ≤ a ∧ a < x.1 + x.2) ∧
      t' = { t with s := M.write t.s a v, written := Function.update t.written a (some v) } := by
  simp only [execMem] at h
  split at h
  · rename_i hown
    obtain ⟨x, hx, hin⟩ := List.any_eq_true.mp hown
    exact ⟨⟨x, hx, of_decide_eq_true hin⟩, (Option.some.inj h).symm⟩
  · exact absurd h (by simp)

/-- a manager whose calls leave the bytes of the live blocks alone, and whose memory is one -/
theorem Client.Reads.step (h : t.Reads M) (he : execMem M o t = some t')
    (hw : ∀ a v b, M.read (M.write t.s a v) b = if b = a then v else M.read t.s b)
    (hk : o.isCall = true → ∀ x ∈ t'.live, x ∈ t.live → ∀ a, x.1 ≤ a → a < x.1 + x.2 →
      M.read t'.s a = M.read t.s a) : t'.Reads M := by
  intro x hx a h1 h2 v hv
  cases o with
  | alloc fuel size =>
    obtain ⟨r, -, ⟨-, rfl⟩ | ⟨-, rfl⟩⟩ := execMem_alloc he
    · rw [hk rfl x hx hx a h1 h2]
      exact h x hx a h1 h2 v hv
    · -- in the new block nothing has been stored yet
      have hnew : ¬ (r.1 ≤ a ∧ a < r.1 + size) := by
        intro hin
        have hnone : (t.given r.2 r.1 size).written a = none := if_pos hin
        rw [hnone] at hv
        exact absurd hv (by simp)
      have hold : (t.given r.2 r.1 size).written a = t.written a := if_neg hnew
      rw [hold] at hv
      rcases List.mem_cons.mp hx with rfl | hx'
      · exact absurd ⟨h1, h2⟩ hnew
      · rw [hk rfl x hx hx' a h1 h2]
        exact h x hx' a h1 h2 v hv
  | free fuel ptr =>
    obtain ⟨y, s, -, -, -, rfl⟩ := execMem_free he
    have hx' : x ∈ t.live := List.mem_of_mem_erase hx
    rw [hk rfl x hx hx' a h1 h2]
    exact h x hx' a h1 h2 v hv
  | store b w =>
    obtain ⟨-, rfl⟩ := execMem_store he
    show M.read (M.write t.s b w) a = v
    replace hv : Function.update t.written b (some w) a = some v := hv
    rw [hw]
    by_cases e : a = b
    · rw [if_pos e]
      rw [e, Function.update_self] at hv
      exact Option.some.inj hv
    · rw [if_neg e]
      rw [Function.update_of_ne e] at hv
      exact h x hx a h1 h2 v hv

end

end Tp2So
