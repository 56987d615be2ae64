import Mathlib.Data.Nat.Bitwise
import Mathlib.Logic.Function.Basic

/-!
# A byte memory

A memory gives a byte at every address.  `load64` reads eight bytes, the low one first, and `store64`
writes them.

* `load64_store64`        what is stored is read back;
* `store64_of_disjoint`   the other bytes stay;
* `load64_congr`          a word depends on its eight bytes only.
-/

set_option linter.unusedVariables false

namespace Tp2So

/-- arithmetic on 64-bit words -/
def wrap64 (n : Nat) : Nat := n % 18446744073709551616

theorem wrap64_of_lt {n : Nat} (h : n < 18446744073709551616) : wrap64 n = n := Nat.mod_eq_of_lt h

def load64 (m : Nat → UInt8) (a : Nat) : Nat :=
  (m a).toNat + 256 * ((m (a + 1)).toNat + 256 * ((m (a + 2)).toNat + 256 * ((m (a + 3)).toNat
    + 256 * ((m (a + 4)).toNat + 256 * ((m (a + 5)).toNat + 256 * ((m (a + 6)).toNat
    + 256 * (m (a + 7)).toNat))))))

def store64 (m : Nat → UInt8) (a v : Nat) : Nat → UInt8 := fun x =>
  if a ≤ x ∧ x < a + 8 then UInt8.ofNat (v / 256 ^ (x - a)) else m x

section
variable {m m' : Nat → UInt8} {a b v x : Nat}

/-- a byte in front of a number -/
theorem byte_add_lt {y n : Nat} (b : UInt8) (h : y < n) : b.toNat + 256 * y < 256 * n := by
  have hb := b.toNat_lt
  omega

theorem load64_lt (m : Nat → UInt8) (a : Nat) : load64 m a < 18446744073709551616 := by
  unfold load64
  apply byte_add_lt (n := 72057594037927936)
  apply byte_add_lt (n := 281474976710656)
  apply byte_add_lt (n := 1099511627776)
  apply byte_add_lt (n := 4294967296)
  apply byte_add_lt (n := 16777216)
  apply byte_add_lt (n := 65536)
  apply byte_add_lt (n := 256)
  exact (m (a + 7)).toNat_lt

theorem load64_congr (h : ∀ x, a ≤ x → x < a + 8 → m' x = m x) : load64 m' a = load64 m a := by
  unfold load64
  rw [h a (by omega) (by omega), h (a + 1) (by omega) (by omega), h (a + 2) (by omega) (by omega),
    h (a + 3) (by omega) (by omega), h (a + 4) (by omega) (by omega),
    h (a + 5) (by omega) (by omega), h (a + 6) (by omega) (by omega),
    h (a + 7) (by omega) (by omega)]

theorem store64_of_disjoint (h : x < a ∨ a + 8 ≤ x) : store64 m a v x = m x := by
  apply if_neg
  omega

theorem load64_store64_of_disjoint (h : a + 8 ≤ b ∨ b + 8 ≤ a) :
    load64 (store64 m b v) a = load64 m a := by
  apply load64_congr
  intro x h1 h2
  apply store64_of_disjoint
  omega

theorem store64_byte {i : Nat} (hi : i < 8) :
    (store64 m a v (a + i)).toNat = v / 256 ^ i % 256 := by
  have h : store64 m a v (a + i) = UInt8.ofNat (v / 256 ^ (a + i - a)) := if_pos (by omega)
  rw [h, Nat.add_sub_cancel_left]
  exact UInt8.toNat_ofNat

theorem byte_add_rest (v i : Nat) : v / 256 ^ i % 256 + 256 * (v / 256 ^ (i + 1)) = v / 256 ^ i := by
  rw [Nat.pow_succ, ← Nat.div_div_eq_div_mul]
  exact Nat.mod_add_div _ _

theorem load64_store64 (h : v < 18446744073709551616) : load64 (store64 m a v) a = v := by
  have h0 := store64_byte (m := m) (a := a) (v := v) (i := 0) (by omega)
  have h1 := store64_byte (m := m) (a := a) (v := v) (i := 1) (by omega)
  have h2 := store64_byte (m := m) (a := a) (v := v) (i := 2) (by omega)
  have h3 := store64_byte (m := m) (a := a) (v := v) (i := 3) (by omega)
  have h4 := store64_byte (m := m) (a := a) (v := v) (i := 4) (by omega)
  have h5 := store64_byte (m := m) (a := a) (v := v) (i := 5) (by omega)
  have h6 := store64_byte (m := m) (a := a) (v := v) (i := 6) (by omega)
  have h7 := store64_byte (m := m) (a := a) (v := v) (i := 7) (by omega)
  -- nothing is above the last byte
  have htop : v / 256 ^ 7 % 256 = v / 256 ^ 7 :=
    Nat.mod_eq_of_lt (Nat.div_lt_of_lt_mul (by rw [← Nat.pow_succ]; exact h))
  rw [Nat.add_zero] at h0
  unfold load64
  rw [h0, h1, h2, h3, h4, h5, h6, h7, htop, byte_add_rest v 6, byte_add_rest v 5, byte_add_rest v 4,
    byte_add_rest v 3, byte_add_rest v 2, byte_add_rest v 1, byte_add_rest v 0, Nat.pow_zero,
    Nat.div_one]

end

end Tp2So
