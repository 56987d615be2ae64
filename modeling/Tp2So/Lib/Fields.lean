import Tp2So.Lib.Bytes
import Tp2So.Lib.Copy

/-!
# Stores of one, four and eight bytes into one block

* `Store`, `runStores`     a row of stores, in order;
* `load32_runStores`, ...  the last store of a field is what is read;
* `runStores_of_beside`    stores beside a field do not show;
* `quads`, `load64_quads`  an array of 64-bit words that is filled from the front;
* `chars`, `holds_chars`   a string that is copied with its terminating zero.
-/

set_option linter.unusedVariables false

namespace Tp2So

/-- the value goes to the bytes from `a` on, the low one first -/
inductive Store where
  | byte (a v : Nat)
  | word (a v : Nat)
  | quad (a v : Nat)

def Store.run (m : Nat → UInt8) : Store → Nat → UInt8
  | .byte a v => Function.update m a (UInt8.ofNat v)
  | .word a v => store32 m a v
  | .quad a v => store64 m a v

def runStores (m : Nat → UInt8) (l : List Store) : Nat → UInt8 := l.foldl Store.run m

section
variable {m m' : Nat → UInt8} {a b v i j x : Nat}

/-! ## reading a word back -/

theorem load32_congr (h : ∀ x, a ≤ x → x < a + 4 → m' x = m x) : load32 m' a = load32 m a := by
  unfold load32
  rw [h a (by omega) (by omega), h (a + 1) (by omega) (by omega), h (a + 2) (by omega) (by omega),
    h (a + 3) (by omega) (by omega)]

theorem load32_store32 : load32 (store32 m a v) a = v % 4294967296 := by
  have h0 : store32 m a v a = UInt8.ofNat v := if_pos rfl
  have h1 : store32 m a v (a + 1) = UInt8.ofNat (v / 256) := by
    unfold store32
    rw [if_neg (by omega), if_pos rfl]
  have h2 : store32 m a v (a + 2) = UInt8.ofNat (v / 65536) := by
    unfold store32
    rw [if_neg (by omega), if_neg (by omega), if_pos rfl]
  have h3 : store32 m a v (a + 3) = UInt8.ofNat (v / 16777216) := by
    unfold store32
    rw [if_neg (by omega), if_neg (by omega), if_neg (by omega), if_pos rfl]
  unfold load32
  rw [h0, h1, h2, h3]
  simp only [UInt8.toNat_ofNat']
  omega

theorem store64_wrap : store64 m a v = store64 m a (wrap64 v) := by
  funext x
  unfold store64
  by_cases hx : a ≤ x ∧ x < a + 8
  · rw [if_pos hx, if_pos hx]
    apply UInt8.toNat_inj.mp
    rw [UInt8.toNat_ofNat', UInt8.toNat_ofNat']
    obtain ⟨i, hi, rfl⟩ : ∃ i, i < 8 ∧ x = a + i := ⟨x - a, by omega, by omega⟩
    rw [Nat.add_sub_cancel_left]
    unfold wrap64
    -- the bytes below the cut are those of the value
    have hcut : 18446744073709551616 = 256 ^ i * (256 * 256 ^ (7 - i)) := by
      rw [← Nat.pow_succ', ← Nat.pow_add, show i + (7 - i + 1) = 8 by omega]
    rw [hcut, Nat.mod_mul_right_div_self, Nat.mod_mul_right_mod]
  · rw [if_neg hx, if_neg hx]

theorem load64_store64_wrap : load64 (store64 m a v) a = wrap64 v := by
  rw [store64_wrap]
  exact load64_store64 (Nat.mod_lt _ (by omega))

/-! ## rows of stores -/

/-- the store does not touch the `n` bytes from `a` on -/
def Store.beside (a n : Nat) : Store → Bool
  | .byte b _ => a + n ≤ b || b + 1 ≤ a
  | .word b _ => a + n ≤ b || b + 4 ≤ a
  | .quad b _ => a + n ≤ b || b + 8 ≤ a

theorem Store.run_of_beside {s : Store} {n : Nat} (h : s.beside a n = true) (h1 : a ≤ x)
    (h2 : x < a + n) : s.run m x = m x := by
  cases s with
  | byte b v =>
    simp only [Store.beside, Bool.or_eq_true, decide_eq_true_eq] at h
    exact Function.update_of_ne (by omega) ..
  | word b v =>
    simp only [Store.beside, Bool.or_eq_true, decide_eq_true_eq] at h
    exact store32_else (by omega)
  | quad b v =>
    simp only [Store.beside, Bool.or_eq_true, decide_eq_true_eq] at h
    exact store64_of_disjoint (by omega)

theorem runStores_of_beside {l : List Store} {n : Nat} (h : l.all (Store.beside a n) = true)
    (h1 : a ≤ x) (h2 : x < a + n) : runStores m l x = m x := by
  induction l generalizing m with
  | nil => rfl
  | cons s l ih =>
    rw [List.all_cons, Bool.and_eq_true] at h
    exact (ih h.2).trans (Store.run_of_beside h.1 h1 h2)

theorem runStores_append (l l' : List Store) :
    runStores m (l ++ l') = runStores (runStores m l) l' := List.foldl_append ..

theorem load32_of_beside {l : List Store} (h : l.all (Store.beside a 4) = true) :
    load32 (runStores m l) a = load32 m a := by
  apply load32_congr
  intro x h1 h2
  exact runStores_of_beside h h1 h2

/-- a row up to its `i`-th store, that store, and the rest -/
theorem runStores_split {l : List Store} {s : Store} (hi : l[i]? = some s) :
    runStores m l = runStores (s.run (runStores m (l.take i))) (l.drop (i + 1)) := by
  obtain ⟨hlt, hs⟩ := List.getElem?_eq_some_iff.mp hi
  have hl : l = l.take i ++ s :: l.drop (i + 1) := by
    rw [← hs, ← List.drop_eq_getElem_cons hlt, List.take_append_drop]
  unfold runStores
  conv_lhs => rw [hl]
  exact List.foldl_append ..

/-- the last store of a field is what is read -/
theorem load32_runStores {l : List Store} (i : Nat) (hi : l[i]? = some (.word a v))
    (hl : (l.drop (i + 1)).all (Store.beside a 4) = true) :
    load32 (runStores m l) a = v % 4294967296 := by
  rw [runStores_split hi, load32_of_beside hl]
  exact load32_store32

theorem load64_runStores {l : List Store} (i : Nat) (hi : l[i]? = some (.quad a v))
    (hl : (l.drop (i + 1)).all (Store.beside a 8) = true) : load64 (runStores m l) a = wrap64 v := by
  rw [runStores_split hi, load64_congr fun x h1 h2 => runStores_of_beside hl h1 h2]
  exact load64_store64_wrap

theorem byte_runStores {l : List Store} (i : Nat) (hi : l[i]? = some (.byte a v))
    (hl : (l.drop (i + 1)).all (Store.beside a 1) = true) : runStores m l a = UInt8.ofNat v := by
  rw [runStores_split hi, runStores_of_beside hl (Nat.le_refl a) (Nat.lt_succ_self a)]
  exact Function.update_self ..

/-! ## an array of words -/

/-- the words `xs` from the `i`-th cell on -/
def quads : Nat → List Nat → List Store
  | _, [] => []
  | i, x :: xs => .quad (8 * i) x :: quads (i + 1) xs

theorem load64_quads_before (xs : List Nat) (h : j < i) :
    load64 (runStores m (quads i xs)) (8 * j) = load64 m (8 * j) := by
  induction xs generalizing i m with
  | nil => rfl
  | cons x xs ih =>
    show load64 (runStores (store64 m (8 * i) x) (quads (i + 1) xs)) (8 * j) = _
    rw [ih (by omega)]
    exact load64_store64_of_disjoint (by omega)

theorem load64_quads (xs : List Nat) (h : xs[j]? = some x) :
    load64 (runStores m (quads i xs)) (8 * (i + j)) = wrap64 x := by
  induction xs generalizing i j m with
  | nil => exact absurd h (by simp)
  | cons y xs ih =>
    show load64 (runStores (store64 m (8 * i) y) (quads (i + 1) xs)) (8 * (i + j)) = _
    cases j with
    | zero =>
      obtain rfl : y = x := by simpa using h
      rw [load64_quads_before _ (by omega)]
      exact load64_store64_wrap
    | succ j =>
      rw [show i + (j + 1) = i + 1 + j by omega]
      exact ih (by simpa using h)

/-! ## a string -/

/-- the characters `cs` from `i` on, and a zero behind them -/
def chars : Nat → List Nat → List Store
  | i, [] => [.byte i 0]
  | i, c :: cs => .byte i c :: chars (i + 1) cs

/-- the bytes of a string in memory -/
def cBytes (cs : List Nat) : List UInt8 := cs.map UInt8.ofNat ++ [0]

theorem chars_before (cs : List Nat) (h : x < i) : runStores m (chars i cs) x = m x := by
  induction cs generalizing i m with
  | nil => exact Function.update_of_ne (by omega) ..
  | cons c cs ih =>
    show runStores (Function.update m i (UInt8.ofNat c)) (chars (i + 1) cs) x = _
    rw [ih (by omega)]
    exact Function.update_of_ne (by omega) ..

theorem holds_chars (cs : List Nat) : Holds (runStores m (chars i cs)) i (cBytes cs) := by
  induction cs generalizing i m with
  | nil =>
    intro j b hb
    obtain ⟨hj, hb⟩ := List.getElem?_eq_some_iff.mp hb
    obtain rfl : j = 0 := Nat.lt_one_iff.mp hj
    rw [← hb]
    exact Function.update_self ..
  | cons c cs ih =>
    show Holds _ i ([UInt8.ofNat c] ++ cBytes cs)
    apply holds_append.mpr
    refine ⟨fun j b hb => ?_, ih⟩
    obtain ⟨hj, hb⟩ := List.getElem?_eq_some_iff.mp hb
    obtain rfl : j = 0 := Nat.lt_one_iff.mp hj
    rw [← hb]
    show runStores (Function.update m i (UInt8.ofNat c)) (chars (i + 1) cs) (i + 0) = _
    rw [chars_before _ (by omega)]
    exact Function.update_self ..

/-- the first `n` bytes of a block -/
def peek (m : Nat → UInt8) (n : Nat) : List UInt8 := (List.range n).map m

theorem peek_of_holds {bs : List UInt8} (h : Holds m 0 bs) : peek m bs.length = bs := by
  apply List.ext_getElem?
  intro j
  by_cases hj : j < bs.length
  · have hm := h j _ (List.getElem?_eq_getElem hj)
    rw [Nat.zero_add] at hm
    unfold peek
    rw [List.getElem?_map, List.getElem?_range hj, Option.map_some, hm, List.getElem?_eq_getElem hj]
  · rw [List.getElem?_eq_none (by unfold peek; rw [List.length_map, List.length_range]; omega),
      List.getElem?_eq_none (by omega)]

end

end Tp2So
