import Tp2So.Boot.Image
import Tp2So.Libc.Stdlib

/-!
# `memcpy` by words and by bytes

With everything aligned, the distance between the two regions is a multiple of four, and the bytes of a
word are not among those that the same word is copied to before they are read.  So a turn of the loop over
words is four turns of the loop over bytes, whatever the regions have in common.

* `copyWords_bytes`    the loops;
* `memcpy_paths`       both versions of `memcpy`.
-/

set_option linter.unusedVariables false

namespace Tp2So

section
variable {d s : Nat}

/-- four turns over bytes -/
theorem copyBytes_four (n i : Nat) (b : Bus) : copyBytes d s (4 + n) i b
    = copyBytes d s n (i + 4) (copyBytes d s 4 i b) := by
  rw [Nat.add_comm]
  rfl

/-- one turn over words -/
theorem copyWord_bytes (h : d % 4 = s % 4) (i : Nat) (b : Bus) :
    (b.read32 (s + 4 * i)).2.write32 (d + 4 * i) (b.read32 (s + 4 * i)).1
      = copyBytes d s 4 (4 * i) b := by
  have hne : ∀ j k, k < j → j < 4 → s + 4 * i + j ≠ d + 4 * i + k := by
    intro j k hk hj
    omega
  show Bus.mk (store32 b.mem (d + 4 * i) (load32 b.mem (s + 4 * i))) _ = _
  rw [store32_load32_eq hne]
  show Bus.mk _ _ = Bus.mk _ (b.reads ++ [s + 4 * i] ++ [s + 4 * i + 1] ++ [s + 4 * i + 2] ++ [s + 4 * i + 3])
  simp only [List.append_assoc, List.cons_append, List.nil_append]
  rfl

/-- **The loop over words is the loop over bytes.** -/
theorem copyWords_bytes (h : d % 4 = s % 4) (n : Nat) : ∀ (i : Nat) (b : Bus),
    copyWords d s n i b = copyBytes d s (4 * n) (4 * i) b := by
  induction n with
  | zero =>
    intro i b
    rfl
  | succ n ih =>
    intro i b
    have hstep : copyWords d s (n + 1) i b = copyWords d s n (i + 1)
        ((b.read32 (s + 4 * i)).2.write32 (d + 4 * i) (b.read32 (s + 4 * i)).1) := rfl
    rw [hstep, ih, copyWord_bytes h, show 4 * (n + 1) = 4 + 4 * n by omega, copyBytes_four]
    rfl

end

/-- **Both paths of `memcpy` agree**, in the kernel and in the library: when the path over words is taken,
the memory is that of the loop over bytes, and between regions that do not overlap the bytes are copied
and nothing else changes. -/
theorem memcpy_paths (destination source length : Nat) (b : Bus) (hd : destination % 4 = 0)
    (hs : source % 4 = 0) (hn : length % 4 = 0) :
    (memcpy destination source length b = copyWords destination source (length / 4) 0 b ∧
      Libc.memcpy destination source length b = copyWords destination source (length / 4) 0 b) ∧
    (copyWords destination source (length / 4) 0 b).mem = (copyBytes destination source length 0 b).mem ∧
    (Clear destination length source length →
      (copyBytes destination source length 0 b).mem = copied b.mem destination source length) := by
  have hwords := copyWords_bytes (hd.trans hs.symm) (length / 4) 0 b
  rw [Nat.mul_div_cancel' (Nat.dvd_of_mod_eq_zero hn), Nat.mul_zero] at hwords
  have hpath : memcpy destination source length b = copyWords destination source (length / 4) 0 b :=
    if_pos ⟨hd, hs, hn⟩
  refine ⟨⟨hpath, if_pos ⟨hd, hs, hn⟩⟩, congrArg Bus.mem hwords, fun hc => ?_⟩
  rw [← hwords, ← hpath, memcpy_eq hc]

/-- the regions overlap, and the first word goes into what is read later -/
theorem memcpy_paths_overlap :
    (copyWords 4 0 2 0 ⟨UInt8.ofNat, []⟩).mem = (copyBytes 4 0 8 0 ⟨UInt8.ofNat, []⟩).mem :=
  (memcpy_paths 4 0 8 ⟨UInt8.ofNat, []⟩ rfl rfl rfl).2.1

end Tp2So
