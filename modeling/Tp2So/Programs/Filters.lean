import Tp2So.Lib.Jobs
import Tp2So.Libc.Stdio
import Tp2So.Text.Format

/-!
# The commands `cat`, `filter` and `wc`

Each reads its standard input to the end of file.  A character that is read is an `unsigned char`, so
that none is mistaken for the end.

* `cat`, `filter`, `wc`   the commands, by what they read and write next;
* `cat_alone`, `filter_alone`, `wc_alone`   what they write for a text.

`cat` with arguments, which prints them and reads nothing, is left out.
-/

set_option linter.unusedVariables false

namespace Tp2So

namespace Commands

open Libc

def newline : UInt8 := ch '\n'

/-- `IS_VOWEL` -/
def isVowel (c : UInt8) : Bool :=
  c = ch 'a' || c = ch 'e' || c = ch 'i' || c = ch 'o' || c = ch 'u' ||
    c = ch 'A' || c = ch 'E' || c = ch 'I' || c = ch 'O' || c = ch 'U'

/-! ## `cat` -/

inductive CatState where
  | loop | put (c : UInt8) | done
  deriving DecidableEq

def cat : CatState → Action CatState UInt8 UInt8
  | .loop => .getchar fun
    | none => .done
    | some c => .put c
  | .put c => .print [c] .loop
  | .done => .exit

/-! ## `filter` -/

inductive FilterState where
  | start (args : List (List UInt8))
  | loop (printedAny : Bool)
  | put (c : UInt8)
  | ending (printedAny : Bool)
  | done
  deriving DecidableEq

/-- the arguments without their vowels, with blanks between them -/
def filterArgs : List (List UInt8) → List UInt8
  | [] => []
  | [a] => a.filter fun c => !isVowel c
  | a :: args => (a.filter fun c => !isVowel c) ++ ch ' ' :: filterArgs args

def filter : FilterState → Action FilterState UInt8 UInt8
  | .start [] => .print [] (.loop false)
  | .start args => .print (filterArgs args ++ [newline]) .done
  | .loop printedAny => .getchar fun
    | none => .ending printedAny
    | some c =>
      if c = newline then .put newline
      else if isVowel c then .loop printedAny
      else .put c
  | .put c => .print [c] (.loop true)
  -- the loop has ended with `c == EOF`
  | .ending printedAny => .print (if !printedAny || (printedAny && true) then [newline] else []) .done
  | .done => .exit

/-! ## `wc` -/

inductive WcState where
  | start (args : List (List UInt8))
  | loop (lines : UInt32) (sawChar : Bool)
  | ending (lines : UInt32) (sawChar : Bool)
  | done
  deriving DecidableEq

/-- `printf("Se registraron %d lineas por stdin\n", lines)` -/
def wcReport (lines : UInt32) : List UInt8 :=
  "Se registraron ".toList.map ch ++ written 1 (printBase 1 lines.toInt32 10) ++
    " lineas por stdin\n".toList.map ch

def wc : WcState → Action WcState UInt8 UInt8
  | .start [] => .print [] (.loop 0 false)
  | .start _ => .print ("Se registro 1 linea por stdin\n".toList.map ch) .done
  | .loop lines sawChar => .getchar fun
    | none => .ending lines sawChar
    | some c => .loop (if c = newline then lines + 1 else lines) true
  | .ending lines sawChar =>
    .print (wcReport (if sawChar && lines == 0 then 1 else lines)) .done
  | .done => .exit

/-! ## alone -/

section
variable {text : List UInt8}

theorem stream_zero (text : List UInt8) (i : Nat) : textStream text (0 + i) = text[i]? := by
  rw [Nat.zero_add]
  rfl

theorem stream_end (text : List UInt8) : textStream text (0 + text.length) = none := by
  rw [stream_zero]
  exact List.getElem?_eq_none (Nat.le_refl _)

/-- **`cat`** writes what it reads. -/
theorem cat_alone (text : List UInt8) :
    Job.Reaches cat (textStream text) (.start .loop) ⟨.done, [], text.length + 1, text⟩ := by
  have hturn : ∀ (r : Unit) c n (out : List UInt8), textStream text n = some c →
      Job.Reaches cat (textStream text) ⟨.loop, [], n, out⟩ ⟨.loop, [], n + 1, out ++ [c]⟩ := by
    intro _ c n out hc
    refine Relation.ReflTransGen.head (Job.step_getchar rfl rfl) ?_
    rw [hc]
    exact reaches_print (p := cat) (s := .put c) rfl (n + 1) out
  have hloop := reaches_text (e := fun _ : Unit => CatState.loop) (f := fun r _ => r)
    (g := fun _ c => [c]) hturn text () 0 [] (stream_zero text)
  have hout : ∀ t : List UInt8, outputs (fun (r : Unit) (_ : UInt8) => r) (fun _ c => [c]) () t = t := by
    intro t
    induction t with
    | nil => rfl
    | cons c t ih => exact congrArg (c :: ·) ih
  rw [hout, List.nil_append] at hloop
  refine hloop.tail ((Job.step_getchar rfl rfl).trans ?_)
  rw [stream_end]
  rw [Nat.zero_add]
  rfl

/-- **`filter`** writes what it reads without the vowels, and a newline. -/
theorem filter_alone (text : List UInt8) :
    Job.Reaches filter (textStream text) (.start (.start []))
      ⟨.done, [], text.length + 1, (text.filter fun c => !isVowel c) ++ [newline]⟩ := by
  have hnl : isVowel newline = false := by decide
  have hturn : ∀ (r : Bool) c n (out : List UInt8), textStream text n = some c →
      Job.Reaches filter (textStream text) ⟨.loop r, [], n, out⟩
        ⟨.loop (r || !isVowel c), [], n + 1, out ++ if isVowel c then [] else [c]⟩ := by
    intro r c n out hc
    refine Relation.ReflTransGen.head (Job.step_getchar rfl rfl) ?_
    rw [hc]
    by_cases hv : isVowel c = true
    · have hne : c ≠ newline := by
        rintro rfl
        rw [hnl] at hv
        exact absurd hv (by simp)
      simp only [Job.got, hne, hv, if_true, if_false, Bool.not_true, Bool.or_false, List.append_nil]
      exact Relation.ReflTransGen.refl
    · have hv' : isVowel c = false := Bool.eq_false_iff.mpr hv
      have hput : Job.Reaches filter (textStream text) ⟨.put c, [], n + 1, out⟩
          ⟨.loop true, [], n + 1, out ++ [c]⟩ :=
      reaches_print (p := filter) (s := .put c) rfl (n + 1) out
      by_cases hnl' : c = newline
      · simp only [Job.got, hv', if_pos hnl', Bool.not_false, Bool.or_true]
        rw [← hnl']
        exact hput
      · simp only [Job.got, hv', if_neg hnl', Bool.not_false, Bool.or_true]
        exact hput
  have hloop := reaches_text (e := FilterState.loop) (f := fun r c => r || !isVowel c)
    (g := fun _ c => if isVowel c then [] else [c]) hturn text false 0 [] (stream_zero text)
  have hout : ∀ (t : List UInt8) (r : Bool), outputs (fun (r : Bool) c => r || !isVowel c)
      (fun _ c => if isVowel c then [] else [c]) r t = t.filter fun c => !isVowel c := by
    intro t
    induction t with
    | nil => exact fun r => rfl
    | cons c t ih =>
      intro r
      show (if isVowel c then [] else [c]) ++ outputs _ _ _ t = _
      rw [ih, List.filter_cons]
      cases isVowel c <;> rfl
  rw [hout, List.nil_append] at hloop
  have hstart : Job.Reaches filter (textStream text) (.start (.start [])) ⟨.loop false, [], 0, []⟩ :=
    reaches_print (p := filter) (s := .start []) rfl 0 []
  refine (hstart.trans hloop).trans ?_
  refine Relation.ReflTransGen.head (Job.step_getchar rfl rfl) ?_
  rw [stream_end, Nat.zero_add]
  -- whatever was printed
  have hend : ∀ b : Bool, filter (.ending b) = .print [newline] .done := by
    intro b
    cases b <;> rfl
  exact reaches_print (p := filter) (hend _) _ _

/-- what `wc` reports -/
def wcLines (text : List UInt8) : UInt32 :=
  if text ≠ [] ∧ UInt32.ofNat (text.count newline) = 0 then 1 else UInt32.ofNat (text.count newline)

/-- **`wc`** reports the number of newlines, or one line where there is text and no newline. -/
theorem wc_alone (text : List UInt8) :
    Job.Reaches wc (textStream text) (.start (.start []))
      ⟨.done, [], text.length + 1, wcReport (wcLines text)⟩ := by
  have hturn : ∀ (r : UInt32 × Bool) c n (out : List UInt8), textStream text n = some c →
      Job.Reaches wc (textStream text) ⟨.loop r.1 r.2, [], n, out⟩
        ⟨.loop (if c = newline then r.1 + 1 else r.1) true, [], n + 1, out ++ []⟩ := by
    intro r c n out hc
    refine Relation.ReflTransGen.head (Job.step_getchar rfl rfl) ?_
    rw [hc, List.append_nil]
    exact Relation.ReflTransGen.refl
  have hloop := reaches_text (e := fun r : UInt32 × Bool => WcState.loop r.1 r.2)
    (f := fun r c => (if c = newline then r.1 + 1 else r.1, true)) (g := fun _ _ => []) hturn text
    (0, false) 0 [] (stream_zero text)
  have hout : ∀ (t : List UInt8) (r : UInt32 × Bool), outputs
      (fun r c => (if c = newline then r.1 + 1 else r.1, true)) (fun _ _ => ([] : List UInt8)) r t = [] := by
    intro t
    induction t with
    | nil => exact fun r => rfl
    | cons c t ih => exact fun r => ih _
  have hfold : ∀ (t : List UInt8) (r : UInt32 × Bool), t.foldl
      (fun r c => (if c = newline then r.1 + 1 else r.1, true)) r
        = (r.1 + UInt32.ofNat (t.count newline), r.2 || decide (t ≠ [])) := by
    intro t
    induction t with
    | nil =>
      intro r
      simp
    | cons c t ih =>
      intro r
      rw [List.foldl_cons, ih, List.count_cons]
      by_cases hc : c = newline
      · simp [hc, UInt32.ofNat_add, UInt32.add_assoc, UInt32.add_comm]
      · simp [hc]
  rw [hout, hfold, List.append_nil] at hloop
  have hstart : Job.Reaches wc (textStream text) (.start (.start [])) ⟨.loop 0 false, [], 0, []⟩ :=
    reaches_print (p := wc) (s := .start []) rfl 0 []
  refine (hstart.trans hloop).trans ?_
  refine Relation.ReflTransGen.head (Job.step_getchar rfl rfl) ?_
  rw [stream_end, Nat.zero_add]
  have hlines : (if (false || decide (text ≠ [])) && (0 + UInt32.ofNat (text.count newline) == 0) then 1
      else 0 + UInt32.ofNat (text.count newline)) = wcLines text := by
    unfold wcLines
    simp
  have hprint := reaches_print (p := wc) (x := textStream text)
    (s := .ending (0 + UInt32.ofNat (text.count newline)) (false || decide (text ≠ []))) rfl
    (text.length + 1) []
  rw [hlines] at hprint
  exact hprint

end

end Commands

end Tp2So
