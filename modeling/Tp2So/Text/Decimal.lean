import Mathlib.Algebra.GroupWithZero.Nat
import Tp2So.Libc.Stdlib
import Tp2So.Text.Format

/-!
# Numbers as decimal text

Both writers, `uintToBase` and `itoa`, put the lowest digit first and turn the text round; both readers,
`vsscanf` and `atoi`, multiply by ten and add, modulo `2 ^ 32`.

* `Low l v`      the digits `l`, from the lowest on, are those of `v`;
* `digitLoop_low`, `itoaLoop_low`   the writers;
* `Low.scan`, `Low.atoi`   the readers, over the text turned round;
* `decimal_round_iff`   every `int` but the least comes back both ways.
-/

set_option linter.unusedVariables false

namespace Tp2So

namespace Libc

def digit (d : Nat) : UInt8 := UInt8.ofNat (d + 48)

inductive Low : List UInt8 → Nat → Prop where
  | one {d : Nat} (hd : d < 10) : Low [digit d] d
  | more {d v : Nat} {l : List UInt8} (hd : d < 10) (h : Low l v) : Low (digit d :: l) (v * 10 + d)

section
variable {fd n : Int32} {d v : Nat} {l rest : List UInt8}

/-! ## digits -/

theorem isDigit_digit : ∀ d, d < 10 → isDigit (digit d) = true := by decide

theorem charInt_digit : ∀ d, d < 10 → charInt (digit d) - charInt (ch '0') = Int32.ofNat d := by decide

theorem Low.digits (h : Low l v) : ∀ c ∈ l, isDigit c = true := by
  induction h with
  | one hd =>
    intro c hc
    rw [List.mem_singleton.mp hc]
    exact isDigit_digit _ hd
  | more hd h ih =>
    intro c hc
    rcases List.mem_cons.mp hc with rfl | hc
    · exact isDigit_digit _ hd
    · exact ih c hc

theorem Low.ne_nil (h : Low l v) : l ≠ [] := by
  cases h with
  | one hd => exact List.cons_ne_nil _ _
  | more hd h => exact List.cons_ne_nil _ _

theorem Low.nonul (h : Low l v) : 0 ∉ l := by
  intro hm
  exact absurd (h.digits 0 hm) (by decide)

theorem digitLoop_low (n : Nat) : ∀ {v : Nat}, v < 10 ^ n → 0 < n → Low (digitLoop 10 n v) v := by
  induction n with
  | zero =>
    intro v hv hn
    exact absurd hn (Nat.lt_irrefl 0)
  | succ n ih =>
    intro v hv hn
    have hd : v % 10 < 10 := Nat.mod_lt _ (by decide)
    have hsplit : v / 10 * 10 + v % 10 = v := by omega
    have hstep : digitLoop 10 (n + 1) v
        = digit (v % 10) :: if v / 10 = 0 then [] else digitLoop 10 n (v / 10) :=
      congrArg (· :: _) (if_pos hd)
    rw [hstep]
    by_cases h0 : v / 10 = 0
    · rw [if_pos h0]
      have hone := Low.one hd
      rw [show v % 10 = v by omega] at hone ⊢
      exact hone
    · rw [if_neg h0]
      have hlt : v / 10 < 10 ^ n := by
        rw [Nat.pow_succ] at hv
        omega
      have hn' : 0 < n := by
        by_contra hz
        rw [Nat.eq_zero_of_not_pos hz] at hlt
        exact h0 (Nat.lt_one_iff.mp hlt)
      have hmore := Low.more hd (ih hlt hn')
      rw [hsplit] at hmore
      exact hmore

theorem itoa_digit : ∀ d, d < 10 →
    (Int32.ofNat d + charInt (ch '0')).toInt8.toUInt8 = digit d ∧ Int32.ofNat d < 10 := by decide

theorem ofNat_eq_zero_iff (hv : v < 2 ^ 31) : Int32.ofNat v = 0 ↔ v = 0 := by
  have h0 : (0 : Int32).toInt = ((0 : Nat) : Int) := rfl
  rw [← Int32.toInt_inj, Int32.toInt_ofNat_of_lt hv, h0]
  exact Int.ofNat_inj

theorem itoaLoop_low (n : Nat) : ∀ {v : Nat}, v < 10 ^ n → 0 < v → v < 2 ^ 31 →
    Low (itoaLoop 10 n (Int32.ofNat v)) v := by
  induction n with
  | zero =>
    intro v hv hpos hlt
    exact absurd hpos (Nat.not_lt.mpr (Nat.le_of_lt_succ hv))
  | succ n ih =>
    intro v hv hpos hlt
    have hd : v % 10 < 10 := Nat.mod_lt _ (by decide)
    have hsplit : v / 10 * 10 + v % 10 = v := by omega
    obtain ⟨hdigit, hten⟩ := itoa_digit _ hd
    have hmod : Int32.ofNat v % 10 = Int32.ofNat (v % 10) := (Int32.ofNat_mod hlt (by decide)).symm
    have hdiv : Int32.ofNat v / 10 = Int32.ofNat (v / 10) := (Int32.ofNat_div hlt (by decide)).symm
    have hne : Int32.ofNat v ≠ 0 := fun e => by
      have := (ofNat_eq_zero_iff hlt).mp e
      omega
    have hstep : itoaLoop 10 (n + 1) (Int32.ofNat v)
        = digit (v % 10) :: itoaLoop 10 n (Int32.ofNat (v / 10)) := by
      have hturn : itoaLoop 10 (n + 1) (Int32.ofNat v)
          = (if Int32.ofNat v % 10 < 10 then (Int32.ofNat v % 10 + charInt (ch '0')).toInt8.toUInt8
              else (Int32.ofNat v % 10 - 10 + charInt (ch 'a')).toInt8.toUInt8)
            :: itoaLoop 10 n (Int32.ofNat v / 10) := if_pos hne
      rw [hturn, hmod, hdiv, if_pos hten, hdigit]
    rw [hstep]
    by_cases h0 : v / 10 = 0
    · have hnil : itoaLoop 10 n (Int32.ofNat 0) = [] := by
        cases n with
        | zero => rfl
        | succ n => exact if_neg (not_not_intro rfl)
      have hv0 : v % 10 = v := by omega
      have hone := Low.one hd
      rw [h0, hnil, hv0]
      rw [hv0] at hone
      exact hone
    · have hv' : v / 10 < 10 ^ n := by
        rw [Nat.pow_succ] at hv
        omega
      have hmore := Low.more hd (ih hv' (Nat.pos_of_ne_zero h0) (by omega))
      rw [hsplit] at hmore
      exact hmore

/-! ## reading -/

theorem ofNat_more (d v : Nat) : Int32.ofNat v * 10 + Int32.ofNat d = Int32.ofNat (v * 10 + d) := by
  rw [Int32.ofNat_add, Int32.ofNat_mul]
  rfl

theorem scanDigits_digit (hd : d < 10) (num : Int32) (read : Bool) :
    scanDigits (digit d :: rest) num read = scanDigits rest (num * 10 + Int32.ofNat d) true := by
  have hstep : scanDigits (digit d :: rest) num read
      = scanDigits rest (num * 10 + charInt (digit d) - charInt (ch '0')) true :=
    if_pos (isDigit_digit d hd)
  rw [hstep, ← charInt_digit d hd, Int32.sub_eq_add_neg, Int32.sub_eq_add_neg, Int32.add_assoc]

theorem atoiLoop_digit (hd : d < 10) (result : Int32) :
    atoiLoop (digit d :: rest) result = atoiLoop rest (result * 10 + Int32.ofNat d) := by
  have hstep : atoiLoop (digit d :: rest) result
      = atoiLoop rest (result * 10 + (charInt (digit d) - charInt (ch '0'))) :=
    if_pos (isDigit_digit d hd)
  rw [hstep, charInt_digit d hd]

/-- **`vsscanf` reads the digits back**, the highest first. -/
theorem Low.scan (h : Low l v) : ∀ rest,
    scanDigits (l.reverse ++ rest) 0 false = scanDigits rest (Int32.ofNat v) true := by
  induction h with
  | one hd =>
    intro rest
    rename_i d
    show scanDigits (digit d :: rest) 0 false = _
    rw [scanDigits_digit hd, Int32.zero_mul, Int32.zero_add]
  | more hd h ih =>
    intro rest
    rename_i d v l
    rw [List.reverse_cons, List.append_assoc, ih, List.singleton_append, scanDigits_digit hd, ofNat_more]

/-- **So does `atoi`.** -/
theorem Low.atoi (h : Low l v) : ∀ rest,
    atoiLoop (l.reverse ++ rest) 0 = atoiLoop rest (Int32.ofNat v) := by
  induction h with
  | one hd =>
    intro rest
    rename_i d
    show atoiLoop (digit d :: rest) 0 = _
    rw [atoiLoop_digit hd, Int32.zero_mul, Int32.zero_add]
  | more hd h ih =>
    intro rest
    rename_i d v l
    rw [List.reverse_cons, List.append_assoc, ih, List.singleton_append, atoiLoop_digit hd, ofNat_more]

/-! ## `printBase` and `vsscanf` -/

theorem strlen_append (h : 0 ∉ l) : strlen (l ++ [0]) = l.length := by
  induction l with
  | nil => rfl
  | cons c l ih =>
    obtain ⟨hc, h'⟩ := List.ne_and_not_mem_of_not_mem_cons h
    have hstep : strlen (c :: l ++ [0]) = strlen (l ++ [0]) + 1 := if_neg (Ne.symm hc)
    rw [hstep, ih h', List.length_cons]

/-- what `uintToBase` leaves in `buffer` -/
theorem uintToBase_eq (hv : v < 2 ^ 64) : ∃ l, Low l v ∧ (uintToBase v 10).1 = l.reverse ++ [0] :=
  ⟨digitLoop 10 64 v, digitLoop_low 64 (Nat.lt_trans hv (by decide)) (by decide),
    congrArg (· ++ [0]) (swapLoop_eq _)⟩

theorem writeNumber_eq (fd : Int32) (hv : v < 2 ^ 64) :
    ∃ l, Low l v ∧ writeNumber fd v 10 = .write fd l.reverse := by
  obtain ⟨l, hl, he⟩ := uintToBase_eq hv
  have hnonul : 0 ∉ l.reverse := fun hm => hl.nonul (List.mem_reverse.mp hm)
  refine ⟨l, hl, ?_⟩
  unfold writeNumber
  rw [he, strlen_append hnonul, List.take_left]

/-- the low half of the sign extension is the number -/
theorem ofNat_widened (n : Int32) : Int32.ofNat n.toInt64.toUInt64.toNat = n := by
  have h64 : Int64.ofNat n.toInt64.toUInt64.toNat = n.toInt64 := by
    rw [← UInt64.toInt64_ofNat']
    simp
  rw [← Int64.toInt32_ofNat', h64, Int32.toInt32_toInt64]

/-- **The text of a number** for `%d`. -/
theorem printBase_text (fd n : Int32) : ∃ l v, Low l v ∧
    ((Int32.ofNat v = -n ∧ written fd (printBase fd n 10) = ch '-' :: l.reverse) ∨
      (Int32.ofNat v = n ∧ written fd (printBase fd n 10) = l.reverse)) := by
  unfold printBase
  split
  · obtain ⟨l, hl, hw⟩ := writeNumber_eq fd (-n).toInt64.toUInt64.toNat_lt
    refine ⟨l, _, hl, Or.inl ⟨ofNat_widened (-n), ?_⟩⟩
    rw [hw, written_cons, written_cons, bytes_write, bytes_write]
    exact congrArg (ch '-' :: ·) (List.append_nil _)
  · obtain ⟨l, hl, hw⟩ := writeNumber_eq fd n.toInt64.toUInt64.toNat_lt
    refine ⟨l, _, hl, Or.inr ⟨ofNat_widened n, ?_⟩⟩
    rw [hw, written_cons, bytes_write]
    exact List.append_nil _

/-- **`%d` reads what `%d` has written**, for every `int`. -/
theorem scanInt_printBase {c : UInt8} {buffer : List UInt8} {cells : List Cell} {m : Int32}
    (hc : isDigit c = false) :
    scanInt (.int m :: cells) (written fd (printBase fd n 10) ++ c :: buffer)
      = .ok ⟨[.int n], cells, c :: buffer, 1⟩ := by
  have hend : ∀ v, scanDigits (c :: buffer) (Int32.ofNat v) true = .ok (Int32.ofNat v, true, c :: buffer) :=
    fun v => if_neg (by rw [hc]; exact Bool.false_ne_true)
  obtain ⟨l, v, hl, ⟨hv, hw⟩ | ⟨hv, hw⟩⟩ := printBase_text fd n
  · rw [hw]
    have hstep : scanInt (.int m :: cells) (ch '-' :: l.reverse ++ c :: buffer)
        = (scanDigits (l.reverse ++ c :: buffer) 0 false).bind fun r =>
            storeInt (r.1 * -1) (.int m :: cells) r.2.2 r.2.1.toNat := rfl
    rw [hstep, hl.scan, hend, hv]
    have hback : -n * -1 = n := by rw [Int32.neg_mul_neg, Int32.mul_one]
    show Except.ok (Scanned.mk [.int (-n * -1)] cells (c :: buffer) 1) = _
    rw [hback]
  · rw [hw]
    -- the first digit
    obtain ⟨e, l', he⟩ := List.exists_cons_of_ne_nil (mt List.reverse_eq_nil_iff.mp hl.ne_nil)
    have hdigit : isDigit e = true := hl.digits e (List.mem_reverse.mp (by rw [he]; exact List.mem_cons_self))
    have hminus : e ≠ ch '-' := by
      rintro rfl
      exact absurd hdigit (by decide)
    have hstep : scanInt (.int m :: cells) (l.reverse ++ c :: buffer)
        = (scanDigits (l.reverse ++ c :: buffer) 0 false).bind fun r =>
            storeInt (r.1 * 1) (.int m :: cells) r.2.2 r.2.1.toNat := by
      rw [he]
      exact (if_neg (fun h => absurd h.2 (by rw [hdigit]; exact Bool.noConfusion))).trans (if_neg hminus)
    rw [hstep, hl.scan, hend, hv]
    show Except.ok (Scanned.mk [.int (n * 1)] cells (c :: buffer) 1) = _
    rw [Int32.mul_one]

/-! ## `itoa` and `atoi` -/

theorem skipBlanks_cons {c : UInt8} {str : List UInt8} (h : c ≠ ch ' ' ∧ c ≠ ch '\t' ∧ c ≠ ch '\n') :
    skipBlanks (c :: str) = c :: str :=
  if_neg (fun hb => hb.elim h.1 fun hb => hb.elim h.2.1 h.2.2)

theorem atoi_digits (h : Low l v) : atoi l.reverse = Int32.ofNat v := by
  obtain ⟨e, l', he⟩ := List.exists_cons_of_ne_nil (mt List.reverse_eq_nil_iff.mp h.ne_nil)
  have hdigit : isDigit e = true := h.digits e (List.mem_reverse.mp (by rw [he]; exact List.mem_cons_self))
  have hne : ∀ c, isDigit c = false → e ≠ c := by
    rintro c hc rfl
    exact absurd hdigit (by rw [hc]; exact Bool.noConfusion)
  have hread := h.atoi []
  rw [List.append_nil, he] at hread
  unfold atoi
  rw [he, skipBlanks_cons ⟨hne _ (by decide), hne _ (by decide), hne _ (by decide)⟩]
  simp only
  rw [if_neg (hne _ (by decide)), if_neg (hne _ (by decide)), hread, Int32.one_mul]
  rfl

theorem atoi_minus (h : Low l v) : atoi (ch '-' :: l.reverse) = -Int32.ofNat v := by
  have hread := h.atoi []
  rw [List.append_nil] at hread
  unfold atoi
  rw [skipBlanks_cons ⟨by decide, by decide, by decide⟩]
  simp only [if_true]
  rw [hread]
  show -1 * Int32.ofNat v = _
  rw [Int32.neg_mul, Int32.one_mul]

theorem exists_ofNat (h : 0 < n) : ∃ v, n = Int32.ofNat v ∧ 0 < v ∧ v < 2 ^ 31 := by
  have hpos : 0 < n.toInt := Int32.lt_iff_toInt_lt.mp h
  have hlt : n.toInt < 2147483648 := n.toInt_lt
  refine ⟨n.toInt.toNat, ?_, by omega, by omega⟩
  rw [← Int32.ofInt_eq_ofNat, Int.toNat_of_nonneg (by omega), Int32.ofInt_toInt]

theorem atoi_itoa (h : n ≠ Int32.minValue) : (itoa n false 10).map atoi = some n := by
  have hbase : ¬ (false = true ∨ (10 : Int32) < 2 ∨ 36 < (10 : Int32)) := by decide
  have hbig : ∀ v, v < 2 ^ 31 → v < 10 ^ 32 := fun v hv => Nat.lt_trans hv (by decide)
  unfold itoa
  rw [if_neg hbase]
  by_cases h0 : n = 0
  · rw [if_pos h0, h0]
    decide
  rw [if_neg h0]
  by_cases hneg : n < 0
  · have hpos : 0 < -n := by
      have h1 : n.toInt < 0 := Int32.lt_iff_toInt_lt.mp hneg
      have h2 : -2147483648 ≤ n.toInt := n.le_toInt
      have h3 : n.toInt ≠ -2147483648 := fun e => h (Int32.toInt_inj.mp e)
      apply Int32.lt_iff_toInt_lt.mpr
      rw [Int32.toInt_neg]
      show 0 < (-n.toInt).bmod 4294967296
      rw [Int.bmod_eq_of_le (by omega) (by omega)]
      omega
    obtain ⟨v, hv, h1, h2⟩ := exists_ofNat hpos
    have hl := itoaLoop_low 32 (hbig v h2) h1 h2
    rw [← hv] at hl
    simp only [hneg, and_self, if_true]
    rw [swapLoop_eq, Option.map_some, List.reverse_append]
    show some (atoi (ch '-' :: (itoaLoop 10 32 (-n)).reverse)) = _
    rw [atoi_minus hl, ← hv, Int32.neg_neg]
  · have hpos : 0 < n := by
      have h1 : ¬ n.toInt < 0 := fun e => hneg (Int32.lt_iff_toInt_lt.mpr e)
      have h2 : n.toInt ≠ 0 := fun e => h0 (Int32.toInt_inj.mp e)
      exact Int32.lt_iff_toInt_lt.mpr (show (0 : Int) < n.toInt by omega)
    obtain ⟨v, hv, h1, h2⟩ := exists_ofNat hpos
    have hl := itoaLoop_low 32 (hbig v h2) h1 h2
    rw [← hv] at hl
    simp only [hneg, false_and, if_false]
    rw [swapLoop_eq, Option.map_some, atoi_digits hl, ← hv]

end

/-- the format `"%d"` -/
def percentD : CString := ⟨[ch '%', ch 'd'], by decide⟩

/-- `n` comes back from the bytes of `printBase(fd, n, 10)`, and from `itoa(n, buf, 10)` -/
def RoundTrip (fd n : Int32) : Prop :=
  (∀ m, vsscanf (written fd (printBase fd n 10) ++ [0]) percentD.chars [.int m] = .ok ([.int n], 1)) ∧
    (itoa n false 10).map atoi = some n

/-- `-value` wraps, and the digits of a negative number are no digits -/
theorem itoa_minValue : (itoa Int32.minValue false 10).map atoi = some 0 ∧
    ¬ RoundTrip 1 Int32.minValue := by
  have h : (itoa Int32.minValue false 10).map atoi = some 0 := by decide
  refine ⟨h, fun hr => ?_⟩
  have hback := hr.2
  rw [h] at hback
  exact absurd hback (by decide)

/-- **The decimal text of an `int`** is read back by `vsscanf` always, and by `atoi` unless it is the
least one. -/
theorem decimal_round_iff (fd n : Int32) : RoundTrip fd n ↔ n ≠ Int32.minValue := by
  have hscan : ∀ m, vsscanf (written fd (printBase fd n 10) ++ [0]) percentD.chars [.int m]
      = .ok ([.int n], 1) := by
    intro m
    have hstep : vsscanf (written fd (printBase fd n 10) ++ [0]) percentD.chars [.int m]
        = (scanInt [.int m] (written fd (printBase fd n 10) ++ [0])).bind fun r =>
            (vsscanf r.buffer [0] r.cells).map fun q => (r.stored ++ q.1, r.count + q.2) := rfl
    rw [hstep, scanInt_printBase (by decide)]
    rfl
  constructor
  · rintro ⟨-, hback⟩ rfl
    exact absurd hback (by decide)
  · exact fun hn => ⟨hscan, atoi_itoa hn⟩

end Libc

end Tp2So
