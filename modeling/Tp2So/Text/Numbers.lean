import Mathlib.Data.Nat.Digits.Lemmas
import Tp2So.Kernel.Numbers
import Tp2So.Kernel.Process
import Tp2So.Lib.Copy
import Tp2So.Text.Decimal

/-!
# The texts of the numbers of the kernel

`uintToBase` puts the digits into the buffer from the lowest on, and turns them round where they are;
`num_to_str` counts them first, and fills them in from the right.

* `Canonical`        the text of a number in a base;
* `low`              the digits from the lowest on, and `low_canonical`;
* `digitLoop_holds`, `reverseLoop_holds`, `fillLoop_holds`   the loops, on memory;
* `uintToBase_spec`, `numToStr_spec`   what is written, and where;
* `uintToBase_fits_iff`   the buffer of `printBase` is too small for one kind of number;
* `converters_agree`      the three converters write the same text in base 10.
-/

set_option linter.unusedVariables false

namespace Tp2So

namespace Ram

/-! ## the text of a number -/

/-- the value of a digit character -/
def charDigit (c : UInt8) : Nat := if c.toNat < 58 then c.toNat - 48 else c.toNat - 65 + 10

def evalText (base : Nat) (text : List UInt8) : Nat := text.foldl (fun v c => v * base + charDigit c) 0

/-- the digits of the value, the highest first, in capitals and with no zero in front -/
structure Canonical (base : Nat) (text : List UInt8) (value : Nat) : Prop where
  chars : ∀ c ∈ text, ∃ d < base, c = digitChar d
  eval : evalText base text = value
  nonempty : text ≠ []
  lead : text.head? = some (digitChar 0) → text = [digitChar 0]

/-- the digits, from the lowest on -/
def low (base value : Nat) : List UInt8 :=
  if value = 0 then [digitChar 0] else (Nat.digits base value).map digitChar

section
variable {base value d n p : Nat} {r : Ram}

theorem charDigit_digitChar : ∀ d < 36, charDigit (digitChar d) = d := by decide

theorem digitChar_ne : ∀ d < 36, digitChar d ≠ 0 ∧ (digitChar d = digitChar 0 → d = 0) := by decide

theorem evalText_reverse {ds : List Nat} (h : ∀ d ∈ ds, d < 36) :
    evalText base (ds.map digitChar).reverse = Nat.ofDigits base ds := by
  unfold evalText
  rw [List.foldl_reverse]
  induction ds with
  | nil => rfl
  | cons d ds ih =>
    rw [List.map_cons, List.foldr_cons, ih fun d hd => h d (List.mem_cons_of_mem _ hd), Nat.ofDigits_cons,
      charDigit_digitChar d (h d List.mem_cons_self), Nat.mul_comm, Nat.add_comm]

theorem low_canonical (hb : 1 < base) (hb' : base ≤ 36) (value : Nat) :
    Canonical base (low base value).reverse value := by
  unfold low
  by_cases h0 : value = 0
  · rw [if_pos h0, h0]
    refine ⟨fun c hc => ⟨0, by omega, ?_⟩, ?_, List.cons_ne_nil _ _, fun _ => rfl⟩
    · exact List.mem_singleton.mp hc
    · show 0 * base + charDigit (digitChar 0) = 0
      rw [charDigit_digitChar 0 (by omega), Nat.zero_mul]
  · rw [if_neg h0]
    have hlt : ∀ d ∈ Nat.digits base value, d < base := fun d hd => Nat.digits_lt_base hb hd
    have hne : Nat.digits base value ≠ [] := Nat.digits_ne_nil_iff_ne_zero.mpr h0
    refine ⟨fun c hc => ?_, ?_, ?_, fun hlead => ?_⟩
    · obtain ⟨d, hd, rfl⟩ := List.mem_map.mp (List.mem_reverse.mp hc)
      exact ⟨d, hlt d hd, rfl⟩
    · rw [evalText_reverse fun d hd => Nat.lt_of_lt_of_le (hlt d hd) hb']
      exact Nat.ofDigits_digits base value
    · exact fun h => hne (List.map_eq_nil_iff.mp (List.reverse_eq_nil_iff.mp h))
    · -- the highest digit is not zero
      rw [List.head?_reverse, List.getLast?_map, List.getLast?_eq_some_getLast hne] at hlead
      have hlast := Option.some.inj hlead
      have hbig := hlt _ (List.getLast_mem hne)
      exact absurd ((digitChar_ne _ (by omega)).2 hlast) (Nat.getLast_digit_ne_zero base h0)

theorem low_length (hb : 1 < base) (value : Nat) {k : Nat} (hk : 0 < k) :
    (low base value).length ≤ k ↔ value < base ^ k := by
  unfold low
  by_cases h0 : value = 0
  · rw [if_pos h0, h0, List.length_singleton]
    exact ⟨fun _ => Nat.pow_pos (by omega), fun _ => hk⟩
  · rw [if_neg h0, List.length_map]
    exact Nat.digits_length_le_iff hb value

theorem low_nonul (hb : 1 < base) (hb' : base ≤ 36) (value : Nat) : 0 ∉ low base value := by
  intro h
  obtain ⟨d, hd, he⟩ := (low_canonical hb hb' value).chars 0 (List.mem_reverse.mpr h)
  exact (digitChar_ne d (by omega)).1 he.symm

theorem low_cons (hb : 1 < base) (value : Nat) : low base value
    = digitChar (value % base) :: if value / base = 0 then [] else low base (value / base) := by
  by_cases h0 : value = 0
  · subst h0
    unfold low
    rw [if_pos rfl, Nat.zero_mod, Nat.zero_div, if_pos rfl]
  · have hd := Nat.digits_def' hb (Nat.pos_of_ne_zero h0)
    by_cases hq : value / base = 0
    · rw [if_pos hq]
      unfold low
      rw [if_neg h0, hd, hq, Nat.digits_zero]
      rfl
    · rw [if_neg hq]
      unfold low
      rw [if_neg h0, if_neg hq, hd]
      rfl

/-! ## the loops on memory -/

theorem holds_update {m : Nat → UInt8} {a i : Nat} {l : List UInt8} (h : Holds m a l) (c : UInt8) :
    Holds (Function.update m (a + i) c) a (l.set i c) := by
  intro j b hb
  by_cases hj : j = i
  · subst hj
    have hlt : j < l.length := by
      have hlen := (List.getElem?_eq_some_iff.mp hb).1
      rwa [List.length_set] at hlen
    rw [List.getElem?_set_self hlt] at hb
    rw [Function.update_self]
    exact Option.some.inj hb
  · rw [List.getElem?_set_ne (Ne.symm hj)] at hb
    rw [Function.update_of_ne (by omega)]
    exact h j b hb

/-- the memory after some more stores, all of them from `a` to `b` -/
def Within (a b : Nat) (r r' : Ram) : Prop :=
  (∀ x, x < a ∨ b ≤ x → r'.mem x = r.mem x) ∧ ∃ ws, r'.writes = r.writes ++ ws ∧ ∀ x ∈ ws, a ≤ x ∧ x < b

theorem Within.refl (a b : Nat) (r : Ram) : Within a b r r :=
  ⟨fun _ _ => rfl, [], (List.append_nil _).symm, fun _ hx => absurd hx List.not_mem_nil⟩

theorem Within.write {a b x : Nat} {r r' : Ram} (c : UInt8) (ha : a ≤ x) (hb : x < b)
    (h : Within a b (r.write x c) r') : Within a b r r' := by
  obtain ⟨hmem, ws, hws, hin⟩ := h
  refine ⟨fun y hy => ?_, x :: ws, ?_, fun y hy => ?_⟩
  · rw [hmem y hy]
    exact Function.update_of_ne (by omega) ..
  · rw [hws]
    exact List.append_assoc ..
  · rcases List.mem_cons.mp hy with rfl | hy
    · exact ⟨ha, hb⟩
    · exact hin y hy

theorem Within.mono {a b a' b' : Nat} {r r' : Ram} (h : Within a b r r') (ha : a' ≤ a) (hb : b ≤ b') :
    Within a' b' r r' := by
  obtain ⟨hmem, ws, hws, hin⟩ := h
  refine ⟨fun x hx => hmem x (by omega), ws, hws, fun x hx => ?_⟩
  have := hin x hx
  omega

theorem Within.trans {a b : Nat} {r r' r'' : Ram} (h : Within a b r r') (h' : Within a b r' r'') :
    Within a b r r'' := by
  obtain ⟨hmem, ws, hws, hin⟩ := h
  obtain ⟨hmem', ws', hws', hin'⟩ := h'
  refine ⟨fun x hx => (hmem' x hx).trans (hmem x hx), ws ++ ws', ?_, fun x hx => ?_⟩
  · rw [hws', hws, List.append_assoc]
  · exact (List.mem_append.mp hx).elim (hin x) (hin' x)

theorem digitLoop_spec (hb : 1 < base) (n : Nat) : ∀ (value p digits : Nat) (r : Ram),
    value < base ^ n → 0 < n → ∃ r', Ram.digitLoop base n value p digits r
        = (r', p + (low base value).length, digits + (low base value).length) ∧
      Holds r'.mem p (low base value) ∧ Within p (p + (low base value).length) r r' := by
  induction n with
  | zero =>
    intro value p digits r hv hn
    exact absurd hn (Nat.lt_irrefl 0)
  | succ n ih =>
    intro value p digits r hv hn
    unfold Ram.digitLoop
    dsimp only
    rw [low_cons hb value]
    by_cases hq : value / base = 0
    · rw [if_pos hq, if_pos hq]
      refine ⟨_, rfl, ?_, ?_⟩
      · intro j b hb'
        obtain ⟨hj, rfl⟩ := List.getElem?_eq_some_iff.mp hb'
        obtain rfl : j = 0 := Nat.lt_one_iff.mp hj
        exact Function.update_self ..
      · exact Within.write _ (Nat.le_refl p) (Nat.lt_succ_self p) (Within.refl _ _ _)
    · rw [if_neg hq, if_neg hq]
      have hlt : value / base < base ^ n := by
        rw [Nat.pow_succ] at hv
        exact Nat.div_lt_of_lt_mul (by rwa [Nat.mul_comm])
      have hn' : 0 < n := by
        by_contra hz
        rw [Nat.eq_zero_of_not_pos hz] at hlt
        exact hq (Nat.lt_one_iff.mp hlt)
      obtain ⟨r', hr', hholds, hwithin⟩ := ih _ (p + 1) (digits + 1)
        (r.write p (digitChar (value % base))) hlt hn'
      refine ⟨r', ?_, ?_, ?_⟩
      · rw [hr', List.length_cons]
        congr 2
        · omega
        · omega
      · show Holds r'.mem p ([digitChar (value % base)] ++ low base (value / base))
        refine holds_append.mpr ⟨fun j b hb' => ?_, hholds⟩
        obtain ⟨hj, rfl⟩ := List.getElem?_eq_some_iff.mp hb'
        obtain rfl : j = 0 := Nat.lt_one_iff.mp hj
        rw [hwithin.1 (p + 0) (by omega)]
        exact Function.update_self ..
      · rw [List.length_cons]
        exact Within.write _ (Nat.le_refl p) (by omega) (hwithin.mono (by omega) (by omega))

theorem reverseLoop_spec (n : Nat) : ∀ {a p q : Nat} {r : Ram} {l : List UInt8}, Holds r.mem a l →
    p < l.length → q < l.length → Holds (Ram.reverseLoop n (a + p) (a + q) r).mem a (swapLoop n p q l) ∧
      Within (a + p) (a + q + 1) r (Ram.reverseLoop n (a + p) (a + q) r) := by
  induction n with
  | zero => exact fun h _ _ => ⟨h, Within.refl _ _ _⟩
  | succ n ih =>
    intro a p q r l h hp hq
    unfold Ram.reverseLoop swapLoop
    by_cases hlt : p < q
    · rw [if_pos (by omega), if_pos hlt]
      have hget : ∀ i, i < l.length → r.mem (a + i) = l.getD i default := fun i hi =>
        h i _ (getElem?_getD_of_lt hi)
      have hset := holds_update (i := q) (holds_update (i := p) h (l.getD q default)) (l.getD p default)
      rw [← hget p hp, ← hget q hq] at hset ⊢
      have hlen : ((l.set p (r.mem (a + q))).set q (r.mem (a + p))).length = l.length := by
        rw [List.length_set, List.length_set]
      obtain ⟨hholds, hwithin⟩ := ih (a := a) (p := p + 1) (q := q - 1)
        (r := (r.write (a + p) (r.mem (a + q))).write (a + q) (r.mem (a + p))) hset
        (by rw [hlen]; omega) (by rw [hlen]; omega)
      rw [show a + q - 1 = a + (q - 1) by omega]
      refine ⟨hholds, ?_⟩
      have hin : Within (a + p) (a + q + 1) ((r.write (a + p) (r.mem (a + q))).write (a + q) (r.mem (a + p)))
          _ := hwithin.mono (by omega) (by omega)
      exact Within.write (x := a + p) _ (by omega) (by omega) (Within.write (x := a + q) _ (by omega)
        (by omega) hin)
    · rw [if_neg (by omega), if_neg hlt]
      exact ⟨h, Within.refl _ _ _⟩

/-- **What `uintToBase` writes.** -/
theorem uintToBase_spec (hb : 1 < base) (hv : value < base ^ 64) (buffer : Nat) (r : Ram) :
    ∃ r', uintToBase value buffer base r = (r', (low base value).length) ∧
      Holds r'.mem buffer ((low base value).reverse ++ [0]) ∧
      Within buffer (buffer + (low base value).length + 1) r r' ∧
      buffer + (low base value).length ∈ r'.writes := by
  obtain ⟨r₁, hr₁, hholds, hwithin⟩ :=
    digitLoop_spec hb 64 value buffer 0 r hv (by omega)
  have hpos : 0 < (low base value).length := by
    rw [low_cons hb]
    exact Nat.succ_pos _
  generalize hl : low base value = l at *
  have hend : Holds (r₁.write (buffer + l.length) 0).mem buffer l :=
    hholds.congr fun x _ hx => Function.update_of_ne (by omega) ..
  obtain ⟨hrev, hin⟩ := reverseLoop_spec l.length (a := buffer) (p := 0) (q := l.length - 1) hend hpos
    (by omega)
  rw [swapLoop_eq] at hrev
  have heq : uintToBase value buffer base r = (Ram.reverseLoop l.length (buffer + 0)
      (buffer + (l.length - 1)) (r₁.write (buffer + l.length) 0), l.length) := by
    unfold uintToBase
    rw [hr₁, Nat.zero_add]
    dsimp only
    rw [show buffer + l.length - 1 = buffer + (l.length - 1) by omega]
    rfl
  refine ⟨_, heq, holds_append.mpr ⟨hrev, fun j b hb' => ?_⟩, ?_, ?_⟩
  · obtain ⟨hj, rfl⟩ := List.getElem?_eq_some_iff.mp hb'
    obtain rfl : j = 0 := Nat.lt_one_iff.mp hj
    rw [List.length_reverse, hin.1 _ (by omega)]
    exact Function.update_self ..
  · refine (hwithin.mono (Nat.le_refl _) (by omega)).trans (Within.write 0 ?_ ?_ (hin.mono ?_ ?_)) <;> omega
  · obtain ⟨-, ws, hws, -⟩ := hin
    rw [hws]
    exact List.mem_append_left _ (List.mem_append_right _ List.mem_cons_self)

/-! ## `num_to_str` -/

theorem fill_low (h : value ≠ 0) : low 10 value = (Nat.digits 10 value).map digitChar := if_neg h

theorem countLoop_eq (n : Nat) : ∀ {aux len : Nat}, aux < 10 ^ n →
    countLoop n aux len = len + (Nat.digits 10 aux).length := by
  induction n with
  | zero =>
    intro aux len h
    obtain rfl : aux = 0 := Nat.lt_one_iff.mp h
    rfl
  | succ n ih =>
    intro aux len h
    unfold countLoop
    by_cases hpos : aux > 0
    · rw [if_pos hpos, ih (by rw [Nat.pow_succ] at h; omega), Nat.digits_def' (by omega) hpos,
        List.length_cons]
      omega
    · obtain rfl : aux = 0 := by omega
      rw [if_neg hpos]
      rfl

theorem numToStrLen_eq (hv : value < 10 ^ 20) : numToStrLen value = (low 10 value).length + 1 := by
  unfold numToStrLen
  by_cases h0 : value = 0
  · rw [if_pos h0, h0]
    rfl
  · rw [if_neg h0, countLoop_eq 20 hv, fill_low h0, List.length_map, Nat.zero_add]

/-- the digits that are left go to the front of the block -/
theorem fillLoop_spec (n : Nat) : ∀ (ans len num i : Nat) (r : Ram), num < 10 ^ n →
    i + (Nat.digits 10 num).length + 1 = len →
    Holds (fillLoop ans len n num i r).mem ans ((Nat.digits 10 num).map digitChar).reverse ∧
      Within ans (ans + (Nat.digits 10 num).length) r (fillLoop ans len n num i r) := by
  induction n with
  | zero =>
    intro ans len num i r h hlen
    obtain rfl : num = 0 := Nat.lt_one_iff.mp h
    exact ⟨fun j b hb => absurd hb (by simp), Within.refl _ _ _⟩
  | succ n ih =>
    intro ans len num i r h hlen
    unfold fillLoop
    by_cases hpos : num > 0
    · have hd : Nat.digits 10 num = num % 10 :: Nat.digits 10 (num / 10) := Nat.digits_def' (by omega) hpos
      rw [hd, List.length_cons] at hlen
      rw [if_pos hpos, hd, List.map_cons, List.reverse_cons, List.length_cons]
      -- the digit is written behind the ones that are left
      have hat : ans + len - i - 2 = ans + (Nat.digits 10 (num / 10)).length := by omega
      have hdigit : UInt8.ofNat (48 + num % 10) = digitChar (num % 10) := by
        rw [Nat.add_comm]
        exact (if_pos (Nat.mod_lt _ (by omega))).symm
      obtain ⟨hholds, hwithin⟩ := ih ans len (num / 10) (i + 1)
        (r.write (ans + len - i - 2) (UInt8.ofNat (48 + num % 10)))
        (by rw [Nat.pow_succ] at h; omega) (by omega)
      rw [hat, hdigit] at hholds hwithin ⊢
      refine ⟨holds_append.mpr ⟨hholds, fun j b hb => ?_⟩, ?_⟩
      · obtain ⟨hj, rfl⟩ := List.getElem?_eq_some_iff.mp hb
        obtain rfl : j = 0 := Nat.lt_one_iff.mp hj
        rw [List.length_reverse, List.length_map, hwithin.1 _ (by omega)]
        exact Function.update_self ..
      · exact Within.write (x := ans + (Nat.digits 10 (num / 10)).length) _ (by omega) (by omega)
          (hwithin.mono (by omega) (by omega))
    · obtain rfl : num = 0 := by omega
      rw [if_neg hpos]
      exact ⟨fun j b hb => absurd hb (by simp), Within.refl _ _ _⟩

/-- **What `num_to_str` writes**: the text and its NUL, over the whole block. -/
theorem numToStr_spec (hv : value < 10 ^ 20) (ans : Nat) (r : Ram) :
    Holds (numToStr value ans r).mem ans ((low 10 value).reverse ++ [0]) ∧
      Within ans (ans + numToStrLen value) r (numToStr value ans r) := by
  rw [numToStrLen_eq hv]
  unfold numToStr
  by_cases h0 : value = 0
  · rw [if_pos h0, h0]
    refine ⟨fun j b hb => ?_, ?_⟩
    · obtain ⟨hj, rfl⟩ := List.getElem?_eq_some_iff.mp hb
      obtain rfl | rfl : j = 0 ∨ j = 1 := by
        have : j < 2 := hj
        omega
      · exact (Function.update_of_ne (by omega) ..).trans (Function.update_self ..)
      · exact Function.update_self ..
    · have hlen : (low 10 0).length = 1 := rfl
      rw [hlen]
      exact Within.write (x := ans) _ (by omega) (by omega) (Within.write (x := ans + 1) _ (by omega)
        (by omega) (Within.refl _ _ _))
  · rw [if_neg h0, numToStrLen_eq hv, fill_low h0, List.length_map]
    dsimp only
    obtain ⟨hholds, hwithin⟩ := fillLoop_spec 20 ans ((Nat.digits 10 value).length + 1)
      value 0 r hv (by omega)
    have hat : ans + ((Nat.digits 10 value).length + 1) - 1 = ans + (Nat.digits 10 value).length := by omega
    rw [hat]
    refine ⟨holds_append.mpr ⟨?_, fun j b hb => ?_⟩, ?_⟩
    · refine hholds.congr fun x _ hx => Function.update_of_ne ?_ ..
      rw [List.length_reverse, List.length_map] at hx
      omega
    · obtain ⟨hj, rfl⟩ := List.getElem?_eq_some_iff.mp hb
      obtain rfl : j = 0 := Nat.lt_one_iff.mp hj
      rw [List.length_reverse, List.length_map]
      exact Function.update_self ..
    · exact (hwithin.mono (Nat.le_refl _) (by omega)).trans
        (Within.write (x := ans + (Nat.digits 10 value).length) 0 (by omega) (by omega) (Within.refl _ _ _))

/-! ## the other two -/

theorem libcDigitLoop_eq (hb : 1 < base) (n : Nat) : ∀ {value : Nat}, value < base ^ n → 0 < n →
    Libc.digitLoop base n value = low base value := by
  induction n with
  | zero =>
    intro value hv hn
    exact absurd hn (Nat.lt_irrefl 0)
  | succ n ih =>
    intro value hv hn
    rw [low_cons hb]
    unfold Libc.digitLoop
    by_cases hq : value / base = 0
    · rw [if_pos hq, if_pos hq]
      rfl
    · have hlt : value / base < base ^ n := by
        rw [Nat.pow_succ] at hv
        exact Nat.div_lt_of_lt_mul (by rwa [Nat.mul_comm])
      have hn' : 0 < n := by
        by_contra hz
        rw [Nat.eq_zero_of_not_pos hz] at hlt
        exact hq (Nat.lt_one_iff.mp hlt)
      rw [if_neg hq, if_neg hq, ih hlt hn']
      rfl

theorem libcUintToBase_eq (hb : 1 < base) (hv : value < base ^ 64) :
    Libc.uintToBase value base = ((low base value).reverse ++ [0], (low base value).length) := by
  unfold Libc.uintToBase
  rw [libcDigitLoop_eq hb 64 hv (by omega)]
  dsimp only
  rw [swapLoop_eq]

/-- a `char` as its byte -/
def charByte (c : Char) : UInt8 := UInt8.ofNat c.toNat

theorem fillDigits_eq (fuel : Nat) : ∀ {num : Nat} {acc : List Char}, num ≤ fuel →
    (fillDigits fuel num acc).map charByte
      = ((Nat.digits 10 num).map digitChar).reverse ++ acc.map charByte := by
  induction fuel with
  | zero =>
    intro num acc h
    obtain rfl : num = 0 := Nat.le_zero.mp h
    rfl
  | succ fuel ih =>
    intro num acc h
    unfold fillDigits
    by_cases h0 : num = 0
    · rw [if_pos h0, h0]
      rfl
    · have hbyte : ∀ d < 10, charByte (Char.ofNat ('0'.toNat + d)) = digitChar d := by decide
      rw [if_neg h0, ih (by omega), Nat.digits_def' (by omega) (Nat.pos_of_ne_zero h0), List.map_cons,
        List.map_cons, List.reverse_cons, List.append_assoc, hbyte _ (Nat.mod_lt _ (by omega))]
      rfl

/-- the names of the semaphores are made of the same text -/
theorem numToStr_bytes (num : Nat) : (Tp2So.numToStr num).map charByte = (low 10 num).reverse := by
  unfold Tp2So.numToStr
  by_cases h0 : num = 0
  · rw [if_pos h0, h0]
    rfl
  · rw [if_neg h0, fillDigits_eq num (Nat.le_refl num), fill_low h0]
    exact List.append_nil _

theorem pow_bound (hb : 1 < base) : 18446744073709551616 ≤ base ^ 64 :=
  (Nat.pow_le_pow_left (show 2 ≤ base from hb) 64 : 2 ^ 64 ≤ base ^ 64)

end

/-! ## `printBase` -/

/-- the buffer has the text of the value and its NUL, and the number of digits is returned -/
def Prints (value base buffer : Nat) (m : Nat → UInt8) : Prop :=
  ∃ text, Canonical base text value ∧
    Holds (uintToBase value buffer base ⟨m, []⟩).1.mem buffer (text ++ [0]) ∧
    (uintToBase value buffer base ⟨m, []⟩).2 = text.length

/-- all that is written is in the buffer -/
def Fits (value base buffer : Nat) (m : Nat → UInt8) : Prop :=
  ∀ a ∈ (uintToBase value buffer base ⟨m, []⟩).1.writes, buffer ≤ a ∧ a < buffer + printBufferSize

theorem fits_iff {value base : Nat} (hb : 1 < base) (hv : value < 18446744073709551616) (buffer : Nat)
    (m : Nat → UInt8) : Fits value base buffer m ↔ value < base ^ 63 := by
  obtain ⟨r', hr', -, ⟨-, ws, hws, hin⟩, hlast⟩ :=
    uintToBase_spec hb (Nat.lt_of_lt_of_le hv (pow_bound hb)) buffer ⟨m, []⟩
  have hsize : printBufferSize = 64 := rfl
  rw [← low_length hb value (by omega : 0 < 63)]
  unfold Fits
  rw [hr']
  constructor
  · intro h
    have := (h _ hlast).2
    omega
  · intro h a ha
    have ha' : a ∈ ws := by rw [hws] at ha; exact ha
    have := hin a ha'
    omega

theorem prints_all {value base : Nat} (hb : 1 < base) (hb' : base ≤ 36) (hv : value < 18446744073709551616)
    (buffer : Nat) (m : Nat → UInt8) : Prints value base buffer m := by
  obtain ⟨r', hr', hholds, -, -⟩ :=
    uintToBase_spec hb (Nat.lt_of_lt_of_le hv (pow_bound hb)) buffer ⟨m, []⟩
  refine ⟨(low base value).reverse, low_canonical hb hb' value, ?_, ?_⟩
  · rw [hr']
    exact hholds
  · rw [hr', List.length_reverse]

/-- **`printBase`** writes the text of every value, in each of its bases, and it fits into the buffer
unless the base is 2 and the highest bit is set. -/
theorem uintToBase_fits_iff (value : UInt64) (base buffer : Nat) (m : Nat → UInt8)
    (hb : base = 2 ∨ base = 10 ∨ base = 16) :
    (Prints value.toNat base buffer m ∧ Fits value.toNat base buffer m ↔
      ¬ (base = 2 ∧ 2 ^ 63 ≤ value.toNat)) ∧ Prints value.toNat base buffer m := by
  have hone : 1 < base := by omega
  have hlt : value.toNat < 18446744073709551616 := value.toNat_lt
  have hprints := prints_all hone (by omega) hlt buffer m
  refine ⟨?_, hprints⟩
  rw [and_iff_right hprints, fits_iff hone hlt]
  rcases hb with rfl | rfl | rfl
  · rw [and_iff_right rfl, Nat.not_le]
  · exact iff_of_true (Nat.lt_trans hlt (by decide)) (by omega)
  · exact iff_of_true (Nat.lt_trans hlt (by decide)) (by omega)

/-- `printBin(2 ^ 63 - 1)`, of 63 digits -/
theorem uintToBase_fits_binary :
    Prints 9223372036854775807 2 0 (fun _ => 0) ∧ Fits 9223372036854775807 2 0 fun _ => 0 :=
  (uintToBase_fits_iff 9223372036854775807 2 0 (fun _ => 0) (by omega)).1.mpr (by decide)

/-- the greatest value in base 2 needs 65 bytes -/
theorem uintToBase_overflow : ¬ Fits 18446744073709551615 2 0 fun _ => 0 := by
  rw [fits_iff (by omega) (by omega)]
  decide

/-! ## the three converters -/

/-- the text of a number in base 10 -/
def decimal (n : Nat) : List UInt8 := (low 10 n).reverse

theorem decimal_inj {n n' : Nat} (h : decimal n = decimal n') : n = n' := by
  have hn := (low_canonical (by omega : 1 < 10) (by omega) n).eval
  have hn' := (low_canonical (by omega : 1 < 10) (by omega) n').eval
  rw [← hn, ← hn']
  exact congrArg (evalText 10) h

/-- **The converters agree**: `num_to_str`, which stays in its block, and `uintToBase` of the kernel and of
the library; so the names of the semaphores of two processes are different. -/
theorem converters_agree : (∀ (n : UInt64) (ans buffer : Nat) (m : Nat → UInt8),
      Canonical 10 (decimal n.toNat) n.toNat ∧ 0 ∉ decimal n.toNat ∧
      Holds (numToStr n.toNat ans ⟨m, []⟩).mem ans (decimal n.toNat ++ [0]) ∧
      (∀ a ∈ (numToStr n.toNat ans ⟨m, []⟩).writes, ans ≤ a ∧ a < ans + numToStrLen n.toNat) ∧
      Holds (uintToBase n.toNat buffer 10 ⟨m, []⟩).1.mem buffer (decimal n.toNat ++ [0]) ∧
      (Libc.uintToBase n.toNat 10).1 = decimal n.toNat ++ [0] ∧
      (Tp2So.numToStr n.toNat).map charByte = decimal n.toNat) ∧
    (∀ n n' : UInt64, decimal n.toNat = decimal n'.toNat → n = n') ∧
    ∀ pid pid' : Int, ∀ name, buildWaitSemaphoreName pid = some name →
      buildWaitSemaphoreName pid' = some name → pid = pid' := by
  refine ⟨fun n ans buffer m => ?_, fun n n' h => UInt64.toNat_inj.mp (decimal_inj h),
    fun pid pid' name h h' => ?_⟩
  · have hlt : n.toNat < 18446744073709551616 := n.toNat_lt
    obtain ⟨hholds, -, ws, hws, hin⟩ :=
      numToStr_spec (Nat.lt_trans hlt (by decide)) ans ⟨m, []⟩
    obtain ⟨r', hr', hbuffer, -⟩ :=
      uintToBase_spec (by omega : 1 < 10) (Nat.lt_trans hlt (by decide)) buffer ⟨m, []⟩
    refine ⟨low_canonical (by omega) (by omega) _, ?_, hholds, fun a ha => ?_, ?_, ?_, numToStr_bytes _⟩
    · exact fun h => low_nonul (by omega) (by omega) _ (List.mem_reverse.mp h)
    · rw [hws] at ha
      exact hin a ha
    · rw [hr']
      exact hbuffer
    · rw [libcUintToBase_eq (by omega) (Nat.lt_trans hlt (by decide))]
      rfl
  · unfold buildWaitSemaphoreName at h h'
    split at h
    · cases h
    · split at h'
      · cases h'
      · have hname := List.append_cancel_left ((Option.some.inj h).trans (Option.some.inj h').symm)
        have hn := decimal_inj ((numToStr_bytes _).symm.trans
          ((congrArg (List.map charByte) hname).trans (numToStr_bytes _)))
        omega

end Ram

end Tp2So
