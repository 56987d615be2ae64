import Tp2So.Shell.Prompt
import Mathlib.Data.List.TakeWhile

/-!
# The arrays of the shell

A word is copied to `command` whatever its length.
-/

set_option linter.unusedVariables false

namespace Tp2So.Shell

open Libc

section
variable {env : Env} {s : State} {line w : List UInt8}

/-- all writes of a line lie inside their arrays exactly where each word that is taken as a command fits into
`command` with its NUL -/
theorem allWrites_inside_iff (env : Env) (hs : Reachable s) (hline : line.length ≤ maxBufferSize - 2) :
    ∃ back s', handleLine env line s = some (back, s') ∧
      ((∀ w ∈ s'.allWrites, w.inside = true) ↔
        ∀ w ∈ commandWords env s.dim 0 0 (lineWords line), w.length < maxArgumentSize) := by
  obtain ⟨back, s', hrun, hhandled⟩ :=
    handleLine_spec env hs.ready (Nat.lt_of_le_of_lt hline (Nat.lt_succ_self _))
  exact ⟨back, s', hrun, hhandled.tidy⟩

/-- the writes of `echo ab c | wc -l` are inside -/
theorem allWrites_inside_echo :
    ∃ back s', handleLine ⟨fun _ => true, fun _ => true, 0⟩ echoToWc
        (State.start fun _ => ⟨0, 0, fun _ => none, false⟩) = some (back, s') ∧
      ∀ w ∈ s'.allWrites, w.inside = true := by
  obtain ⟨back, s', hrun, hiff⟩ := allWrites_inside_iff ⟨fun _ => true, fun _ => true, 0⟩
    (Reachable.start fun _ => ⟨0, 0, fun _ => none, false⟩)
    (by decide : echoToWc.length ≤ maxBufferSize - 2)
  refine ⟨back, s', hrun, hiff.mpr ?_⟩
  have hwords : commandWords ⟨fun _ => true, fun _ => true, 0⟩ 5 0 0 (lineWords echoToWc) =
      [['e', 'c', 'h', 'o'].map ch, ['w', 'c'].map ch] := by
    rw [commandWords_some parseWords_echoToWc, if_pos (by decide), commandWords_some (parseWords_wc _),
      if_pos (by decide), commandWords_none (parseWords_nil rfl)]
    decide
  intro w hw
  rcases List.mem_pair.mp (hwords ▸ hw) with rfl | rfl
  · decide
  · decide

theorem lineWords_word (hne : w ≠ []) (h : ∀ c ∈ w, c ≠ 0 ∧ c ∉ blank) : lineWords w = [w] := by
  have hkeep : w.takeWhile (· ≠ 0) = w := by
    rw [List.takeWhile_eq_self_iff]
    exact fun c hc => decide_eq_true (h c hc).1
  have hpiece : ∀ r : List UInt8, (∀ c ∈ r, c ∉ blank) → firstPiece blank r = (r, []) := by
    intro r hr
    induction r with
    | nil => rfl
    | cons c r ih =>
      rw [firstPiece_keep r (hr c List.mem_cons_self), ih fun d hd => hr d (List.mem_cons_of_mem c hd)]
  unfold lineWords wordsOf
  rw [hkeep, if_neg hne, pieces_eq blank hne, hpiece w fun c hc => (h c hc).2]
  rfl

/-- 256 letters: the NUL is written behind `command` -/
theorem longWord_outside :
    ∃ s', handleLine ⟨fun _ => true, fun _ => true, 0⟩ (List.replicate 256 (ch 'a'))
        (State.start fun _ => ⟨0, 0, fun _ => none, false⟩) = some (true, s') ∧
      ∃ w ∈ s'.allWrites, w.inside = false := by
  have hword : lineWords (List.replicate 256 (ch 'a')) = [List.replicate 256 (ch 'a')] := by
    refine lineWords_word (List.replicate_succ ▸ List.cons_ne_nil _ _) fun c hc => ?_
    obtain rfl := List.eq_of_mem_replicate hc
    decide
  have hpipe : List.replicate 256 (ch 'a') ≠ pipe := by
    intro h
    have hlen := congrArg List.length h
    rw [List.length_replicate] at hlen
    exact absurd hlen (by decide)
  obtain ⟨back, s', hrun, hhandled⟩ := handleLine_spec ⟨fun _ => true, fun _ => true, 0⟩
    (Ready.start fun _ => ⟨0, 0, fun _ => none, false⟩)
    (show (List.replicate 256 (ch 'a')).length < maxBufferSize - 1 by rw [List.length_replicate]; decide)
  obtain rfl := hhandled.back fun _ => rfl
  have hout : ¬s'.Tidy := by
    intro htidy
    have hfit := hhandled.tidy.mp htidy
    rw [hword] at hfit
    have hlong := hfit (List.replicate 256 (ch 'a')) (head_mem_commandWords _ _ _ _ _ _ (by
      rw [fromCommand_word [] hpipe]
      exact List.mem_singleton_self _))
    rw [List.length_replicate] at hlong
    exact absurd hlong (by decide)
  obtain ⟨w, hw⟩ := not_forall.mp hout
  obtain ⟨hw, hfalse⟩ := Classical.not_imp.mp hw
  exact ⟨s', hrun, w, hw, Bool.eq_false_iff.mpr hfalse⟩

end

end Tp2So.Shell
