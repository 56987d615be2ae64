import Mathlib.Data.List.Basic
import Mathlib.Logic.Function.Basic

/-!
# Byte strings in a memory, 32-bit words, copies

* `Holds m a bs`        the memory `m` holds the bytes `bs` from the address `a` on;
* `le32`, `load32`, `store32`   32-bit words, the low byte first;
* `copied m d s n`      the memory after `n` bytes have been copied from `s` to `d`;
* `copied_byte`, `copied_word`   one more byte, four more bytes, between regions that do not overlap;
* `store32_load32_eq`   a word is four bytes, if no byte of it is stored before it is loaded.
-/

set_option linter.unusedVariables false

namespace Tp2So

/-- the memory holds these bytes from `a` on -/
def Holds (m : Nat → UInt8) (a : Nat) (bs : List UInt8) : Prop := ∀ i b, bs[i]? = some b → m (a + i) = b

/-- the four bytes of a word -/
def le32 (n : Nat) : List UInt8 :=
  [UInt8.ofNat n, UInt8.ofNat (n / 256), UInt8.ofNat (n / 65536), UInt8.ofNat (n / 16777216)]

def load32 (m : Nat → UInt8) (a : Nat) : Nat :=
  (m a).toNat + 256 * ((m (a + 1)).toNat + 256 * ((m (a + 2)).toNat + 256 * (m (a + 3)).toNat))

def store32 (m : Nat → UInt8) (a v : Nat) : Nat → UInt8 := fun x =>
  if x = a then UInt8.ofNat v
  else if x = a + 1 then UInt8.ofNat (v / 256)
  else if x = a + 2 then UInt8.ofNat (v / 65536)
  else if x = a + 3 then UInt8.ofNat (v / 16777216)
  else m x

/-- the `i`-th byte at `s` goes to `d` -/
def moveByte (d s : Nat) (m : Nat → UInt8) (i : Nat) : Nat → UInt8 :=
  Function.update m (d + i) (m (s + i))

/-- two regions, each an address and a length, that have no byte in common -/
def Clear (a n b k : Nat) : Prop := n = 0 ∨ k = 0 ∨ a + n ≤ b ∨ b + k ≤ a

/-- the first `n` bytes at `d` are those at `s` -/
def copied (m : Nat → UInt8) (d s n : Nat) : Nat → UInt8 := fun x =>
  if d ≤ x ∧ x < d + n then m (s + (x - d)) else m x

section
variable {m m' : Nat → UInt8} {a d s n i x : Nat} {bs cs : List UInt8}

/-! ## byte strings -/

theorem holds_append : Holds m a (bs ++ cs) ↔ Holds m a bs ∧ Holds m (a + bs.length) cs := by
  constructor
  · intro h
    refine ⟨fun i b hb => h i b ?_, fun i b hb => ?_⟩
    · rw [List.getElem?_append_left (List.getElem?_eq_some_iff.mp hb).1]
      exact hb
    · have hget : (bs ++ cs)[bs.length + i]? = some b := by
        rw [List.getElem?_append_right (Nat.le_add_right _ _), Nat.add_sub_cancel_left]
        exact hb
      have hi := h (bs.length + i) b hget
      rw [← Nat.add_assoc] at hi
      exact hi
  · intro ⟨h1, h2⟩ i b hb
    by_cases hlt : i < bs.length
    · rw [List.getElem?_append_left hlt] at hb
      exact h1 i b hb
    · rw [List.getElem?_append_right (by omega)] at hb
      have hi := h2 (i - bs.length) b hb
      rw [show a + bs.length + (i - bs.length) = a + i by omega] at hi
      exact hi

theorem Holds.congr (h : Holds m a bs) (hm : ∀ x, a ≤ x → x < a + bs.length → m' x = m x) :
    Holds m' a bs := by
  intro i b hb
  have hi := (List.getElem?_eq_some_iff.mp hb).1
  rw [hm (a + i) (by omega) (by omega)]
  exact h i b hb

/-! ## words -/

theorem le32_length (n : Nat) : (le32 n).length = 4 := rfl

theorem load32_of_holds (h : Holds m a (le32 n)) (hn : n < 4294967296) : load32 m a = n := by
  have h0 : m a = UInt8.ofNat n := h 0 _ rfl
  have h1 : m (a + 1) = UInt8.ofNat (n / 256) := h 1 _ rfl
  have h2 : m (a + 2) = UInt8.ofNat (n / 65536) := h 2 _ rfl
  have h3 : m (a + 3) = UInt8.ofNat (n / 16777216) := h 3 _ rfl
  unfold load32
  rw [h0, h1, h2, h3]
  simp only [UInt8.toNat_ofNat']
  omega

/-- a word that is loaded and stored is four bytes copied -/
theorem store32_load32 (h1 : a ≤ x) (h2 : x < a + 4) : store32 m' a (load32 m s) x = m (s + (x - a)) := by
  have hb0 := (m s).toNat_lt
  have hb1 := (m (s + 1)).toNat_lt
  have hb2 := (m (s + 2)).toNat_lt
  have hb3 := (m (s + 3)).toNat_lt
  have hbyte : ∀ {v : Nat} {b : UInt8}, v % 256 = b.toNat → UInt8.ofNat v = b := by
    intro v b hv
    apply UInt8.toNat_inj.mp
    rw [UInt8.toNat_ofNat']
    exact hv
  unfold store32
  obtain e | e | e | e : x = a ∨ x = a + 1 ∨ x = a + 2 ∨ x = a + 3 := by omega
  · rw [if_pos e, e, Nat.sub_self, Nat.add_zero s]
    apply hbyte
    unfold load32
    omega
  · rw [if_neg (by omega), if_pos e, e, Nat.add_sub_cancel_left]
    apply hbyte
    unfold load32
    omega
  · rw [if_neg (by omega), if_neg (by omega), if_pos e, e, Nat.add_sub_cancel_left]
    apply hbyte
    unfold load32
    omega
  · rw [if_neg (by omega), if_neg (by omega), if_neg (by omega), if_pos e, e, Nat.add_sub_cancel_left]
    apply hbyte
    unfold load32
    omega

theorem store32_else (h : x < a ∨ a + 4 ≤ x) : store32 m a n x = m x := by
  unfold store32
  rw [if_neg (by omega), if_neg (by omega), if_neg (by omega), if_neg (by omega)]

/-- a word that is copied is its four bytes copied in turn, when none of them goes to one that is still
to be read -/
theorem store32_load32_eq (h : ∀ j k, k < j → j < 4 → s + j ≠ d + k) :
    store32 m d (load32 m s) = moveByte d s (moveByte d s (moveByte d s (moveByte d s m 0) 1) 2) 3 := by
  have h0 : ∀ {k}, k < 4 → 0 < k → moveByte d s m 0 (s + k) = m (s + k) := fun hk hpos =>
    Function.update_of_ne (h _ 0 hpos hk) ..
  have h1 : ∀ {k}, k < 4 → 1 < k → moveByte d s (moveByte d s m 0) 1 (s + k) = m (s + k) := fun hk hpos =>
    (Function.update_of_ne (h _ 1 hpos hk) ..).trans (h0 hk (by omega))
  have h2 : moveByte d s (moveByte d s (moveByte d s m 0) 1) 2 (s + 3) = m (s + 3) :=
    (Function.update_of_ne (h 3 2 (by omega) (by omega)) ..).trans (h1 (by omega) (by omega))
  show _ = Function.update (Function.update (Function.update (Function.update m (d + 0) (m (s + 0)))
    (d + 1) (moveByte d s m 0 (s + 1))) (d + 2) (moveByte d s (moveByte d s m 0) 1 (s + 2))) (d + 3)
    (moveByte d s (moveByte d s (moveByte d s m 0) 1) 2 (s + 3))
  rw [h0 (by omega) (by omega), h1 (by omega) (by omega), h2]
  funext x
  by_cases hx : d ≤ x ∧ x < d + 4
  · rw [store32_load32 hx.1 hx.2]
    obtain e | e | e | e : x = d ∨ x = d + 1 ∨ x = d + 2 ∨ x = d + 3 := by omega
    · rw [Function.update_of_ne (by omega), Function.update_of_ne (by omega),
        Function.update_of_ne (by omega), e, Nat.sub_self, Nat.add_zero, Nat.add_zero,
        Function.update_self]
    · rw [Function.update_of_ne (by omega), Function.update_of_ne (by omega), e, Function.update_self,
        Nat.add_sub_cancel_left]
    · rw [Function.update_of_ne (by omega), e, Function.update_self, Nat.add_sub_cancel_left]
    · rw [e, Function.update_self, Nat.add_sub_cancel_left]
  · rw [store32_else (by omega), Function.update_of_ne (by omega), Function.update_of_ne (by omega),
      Function.update_of_ne (by omega), Function.update_of_ne (by omega)]

/-! ## copies -/

theorem copied_zero : copied m d s 0 = m := by
  funext x
  apply if_neg
  omega

theorem copied_at (hi : i < n) : copied m d s n (d + i) = m (s + i) := by
  have h : copied m d s n (d + i) = m (s + (d + i - d)) := if_pos (by omega)
  rw [h, Nat.add_sub_cancel_left]

theorem copied_else (h : x < d ∨ d + n ≤ x) : copied m d s n x = m x := by
  apply if_neg
  omega

theorem copied_byte (hc : Clear d n s n) (hi : i < n) :
    Function.update (copied m d s i) (d + i) (copied m d s i (s + i)) = copied m d s (i + 1) := by
  have hsrc : copied m d s i (s + i) = m (s + i) := by
    apply copied_else
    unfold Clear at hc
    omega
  funext x
  by_cases e : x = d + i
  · rw [e, Function.update_self, hsrc, copied_at (Nat.lt_succ_self i)]
  · rw [Function.update_of_ne e]
    unfold copied
    by_cases hx : d ≤ x ∧ x < d + i
    · rw [if_pos hx, if_pos (by omega)]
    · rw [if_neg hx, if_neg (by omega)]

theorem load32_copied (hc : Clear d n s n) (hi : 4 * i + 4 ≤ n) :
    load32 (copied m d s (4 * i)) (s + 4 * i) = load32 m (s + 4 * i) := by
  unfold Clear at hc
  unfold load32
  rw [copied_else (by omega), copied_else (by omega), copied_else (by omega), copied_else (by omega)]

theorem copied_word (hc : Clear d n s n) (hi : 4 * i + 4 ≤ n) :
    store32 (copied m d s (4 * i)) (d + 4 * i) (load32 (copied m d s (4 * i)) (s + 4 * i))
      = copied m d s (4 * (i + 1)) := by
  rw [load32_copied hc hi]
  funext x
  by_cases hx : d + 4 * i ≤ x ∧ x < d + 4 * i + 4
  · rw [store32_load32 hx.1 hx.2]
    have h : copied m d s (4 * (i + 1)) x = m (s + (x - d)) := if_pos (by omega)
    rw [h, show s + 4 * i + (x - (d + 4 * i)) = s + (x - d) by omega]
  · have h : store32 (copied m d s (4 * i)) (d + 4 * i) (load32 m (s + 4 * i)) x
        = copied m d s (4 * i) x := store32_else (by omega)
    rw [h]
    unfold copied
    by_cases hy : d ≤ x ∧ x < d + 4 * i
    · rw [if_pos hy, if_pos (by omega)]
    · rw [if_neg hy, if_neg (by omega)]

theorem Holds.copied (h : Holds m s bs) : Holds (copied m d s bs.length) d bs := by
  intro i b hb
  have hi := (List.getElem?_eq_some_iff.mp hb).1
  rw [copied_at hi]
  exact h i b hb

end

end Tp2So
