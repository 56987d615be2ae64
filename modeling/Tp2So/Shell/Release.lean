import Tp2So.Shell.Prompt
import Mathlib.Algebra.Order.BigOperators.Group.List
import Mathlib.Algebra.Order.Group.Nat
import Mathlib.Data.List.Perm.Subperm
import Mathlib.Data.List.Nodup

/-!
# The argument strings of a line

An ampersand that is taken off is not freed: `main` overwrites the pointer to it.

* `placed_held`        the strings that the commands hold are those that were allocated;
* `taken_shorter`      a command holds one less when its ampersand is taken off;
* `freed_once_iff`     every string of a line is freed exactly once, unless an ampersand is taken off.
-/

set_option linter.unusedVariables false

namespace Tp2So.Shell

open Libc

/-- the field of `commands` -/
def builtIn (i : Nat) : Bool := ((commands[i]?).map Command.isBuiltIn).getD false

/-- the commands are given to `createProcess`, and one of them ends in `&` -/
def Strands (env : Env) (cs : List (Nat × List (List UInt8))) : Prop :=
  (cs.length = 1 ∨ cs.length = 2 ∧ 0 ≤ env.pipeOpen) ∧ (∀ c ∈ cs, builtIn c.1 = false) ∧
    ∃ c ∈ cs, c.2.getLast? = some ampersand

section
variable {env : Env} {s : State} {pc : Nat → ParsedCommand} {args : List (List UInt8)} {i k p m n : Nat}
  {cs : List (Nat × List (List UInt8))} {line : List UInt8}

/-! ## what a command holds -/

theorem wantsBackground_iff (h : ∀ a ∈ args, 0 ∉ a) :
    (parsedOf k i args).wantsBackground = true ↔ args.getLast? = some ampersand := by
  rcases List.eq_nil_or_concat args with rfl | ⟨front, a, rfl⟩
  · exact ⟨fun h => absurd (show false = true from h) Bool.false_ne_true, fun h => by cases h⟩
  · have ha : 0 ∉ a := h a (by simp)
    have hargc : (parsedOf k i (front.concat a)).argc = front.length + 2 := by
      show (front.concat a).length + 1 = _
      rw [List.length_concat]
    have hlast : (parsedOf k i (front.concat a)).argv (front.length + 1) = some ⟨k + front.length, a⟩ := by
      show argvOf k (front.concat a) (front.length + 1) = _
      rw [argvOf_succ, List.concat_eq_append, List.getElem?_concat_length]
      rfl
    unfold ParsedCommand.wantsBackground
    rw [hargc, Nat.add_succ_sub_one, hlast, List.concat_eq_append, List.getLast?_concat, Option.some_inj,
      ← strcmp_eq_zero ha (by decide), Bool.and_eq_true, decide_eq_true_iff, decide_eq_true_iff]
    exact and_iff_right (by omega)

theorem parsedOf_copies : (parsedOf k i args).copies = List.range' k args.length := argvOf_copies k i args _

theorem taken_shorter (h : (parsedOf k i args).wantsBackground = true) :
    (parsedOf k i args).taken.copies.length < (parsedOf k i args).copies.length := by
  have hpos : 0 < args.length := by
    unfold ParsedCommand.wantsBackground at h
    have hargc := of_decide_eq_true (Bool.and_eq_true_iff.mp h).1
    exact Nat.lt_of_succ_lt_succ hargc
  have hle : (parsedOf k i args).taken.copies.length ≤ args.length - 1 := by
    unfold ParsedCommand.taken
    rw [if_pos h]
    refine Nat.le_trans (List.length_filterMap_le _ _) ?_
    unfold argIndices
    rw [List.length_drop, List.length_range]
    exact Nat.le_refl _
  rw [parsedOf_copies, List.length_range']
  omega

theorem taken_of_not (c : ParsedCommand) (h : c.wantsBackground = false) : c.taken = c :=
  if_neg (Bool.eq_false_iff.mp h)

/-- the commands hold what was allocated, in its order -/
theorem placed_held (h : Placed pc p k cs) :
    (List.range' p cs.length).flatMap (fun q => (pc q).copies) = List.range' k (countArgs cs) := by
  induction cs generalizing p k with
  | nil => rfl
  | cons c cs ih =>
    obtain ⟨hc, hrest⟩ := h
    rw [List.length_cons, List.range'_succ, List.flatMap_cons, hc, parsedOf_copies, ih hrest,
      List.range'_append_1]
    rfl

/-! ## the words have no NUL -/

theorem pieces_noNul (d : List UInt8) {r : List UInt8} (h : 0 ∉ r) : ∀ w ∈ pieces d r, 0 ∉ w := by
  induction r with
  | nil => exact fun w hw => absurd hw List.not_mem_nil
  | cons c r ih =>
    obtain ⟨hc, hr⟩ := not_or.mp (mt List.mem_cons.mpr h)
    have hrest := ih hr
    unfold pieces
    by_cases hd : c ∈ d
    · rw [if_pos hd]
      exact List.forall_mem_cons.mpr ⟨List.not_mem_nil, hrest⟩
    · rw [if_neg hd]
      cases hp : pieces d r with
      | nil => exact List.forall_mem_singleton.mpr (mt List.mem_singleton.mp hc)
      | cons w ws =>
        rw [hp] at hrest
        obtain ⟨hw, hws⟩ := List.forall_mem_cons.mp hrest
        exact List.forall_mem_cons.mpr ⟨mt List.mem_cons.mp (not_or.mpr ⟨hc, hw⟩), hws⟩

theorem lineWords_noNul (line : List UInt8) : ∀ w ∈ lineWords line, 0 ∉ w := by
  unfold lineWords wordsOf
  by_cases hnil : line.takeWhile (· ≠ 0) = []
  · rw [if_pos hnil]
    exact List.forall_mem_singleton.mpr List.not_mem_nil
  · rw [if_neg hnil]
    exact pieces_noNul blank (takeWhile_split line []).1

/-! ## what the line holds when its commands were started -/

theorem starts_iff (h : Placed pc 0 0 cs) :
    Starts env cs.length pc ↔
      (cs.length = 1 ∨ cs.length = 2 ∧ 0 ≤ env.pipeOpen) ∧ ∀ c ∈ cs, builtIn c.1 = false := by
  refine and_congr_right fun _ => ⟨fun hall c hc => ?_, fun hall p hp => ?_⟩
  · obtain ⟨n, hn, k', hk'⟩ := h.mem_at hc
    have hbuilt := hall n hn
    rw [← Nat.zero_add n, hk'] at hbuilt
    exact hbuilt
  · obtain ⟨c, hc, k', hk'⟩ := h.at_mem hp
    rw [Nat.zero_add] at hk'
    rw [hk']
    exact hall c hc

theorem held_all (h : Placed s.parsedCommands 0 0 cs) (hnul : ∀ c ∈ cs, ∀ a ∈ c.2, 0 ∉ a)
    (hno : ¬Strands env cs) : (execute env cs.length s).held cs.length = List.range' 0 (countArgs cs) := by
  rw [← placed_held h, ← List.range_eq_range']
  unfold State.held
  refine List.flatMap_congr fun p hp => ?_
  have hlt := List.mem_range.mp hp
  rw [execute_command hlt]
  by_cases hstart : Starts env cs.length s.parsedCommands
  · obtain ⟨c, hc, k', hk'⟩ := h.at_mem hlt
    rw [Nat.zero_add] at hk'
    have hwants : (s.parsedCommands p).wantsBackground = false := by
      rw [hk', Bool.eq_false_iff, Ne, wantsBackground_iff (hnul c hc)]
      obtain ⟨h1, h2⟩ := (starts_iff h).mp hstart
      exact fun hlast => hno ⟨h1, h2, c, hc, hlast⟩
    rw [if_pos hstart, taken_of_not _ hwants]
  · rw [if_neg hstart]

theorem held_less (h : Placed s.parsedCommands 0 0 cs) (hnul : ∀ c ∈ cs, ∀ a ∈ c.2, 0 ∉ a)
    (hyes : Strands env cs) : ((execute env cs.length s).held cs.length).length < countArgs cs := by
  obtain ⟨h1, h2, c, hc, hlast⟩ := hyes
  have hstart : Starts env cs.length s.parsedCommands := (starts_iff h).mpr ⟨h1, h2⟩
  have hall : countArgs cs = ((List.range cs.length).flatMap fun p => (s.parsedCommands p).copies).length := by
    rw [List.range_eq_range', placed_held h, List.length_range']
  rw [hall]
  unfold State.held
  rw [List.length_flatMap, List.length_flatMap]
  refine List.sum_lt_sum _ _ (fun p hp => ?_) ?_
  · have hlt := List.mem_range.mp hp
    obtain ⟨c', hc', k', hk'⟩ := h.at_mem hlt
    rw [Nat.zero_add] at hk'
    rw [execute_command hlt, if_pos hstart, hk']
    by_cases hwants : (parsedOf k' c'.1 c'.2).wantsBackground = true
    · exact Nat.le_of_lt (taken_shorter hwants)
    · rw [taken_of_not _ (Bool.eq_false_iff.mpr hwants)]
  · obtain ⟨p, hp, k', hk'⟩ := h.mem_at hc
    rw [Nat.zero_add] at hk'
    refine ⟨p, List.mem_range.mpr hp, ?_⟩
    rw [execute_command hp, if_pos hstart, hk']
    exact taken_shorter ((wantsBackground_iff (hnul c hc)).mpr hlast)

/-! ## the line -/

/-- every string of the line was freed exactly once -/
def FreedOnce (s : State) : Prop := ∀ id < s.allocated, s.freed.count id = 1

theorem FreedOnce.length (h : FreedOnce s) : s.allocated ≤ s.freed.length := by
  have hsub : List.range s.allocated ⊆ s.freed := fun id hid =>
    List.count_pos_iff.mp (by rw [h id (List.mem_range.mp hid)]; exact Nat.one_pos)
  have hle := (List.nodup_range.subperm hsub).length_le
  rwa [List.length_range] at hle

theorem FreedOnce.of_range (h : s.freed.Perm (List.range s.allocated)) : FreedOnce s := by
  intro id hid
  rw [h.count_eq]
  exact List.count_eq_one_of_mem List.nodup_range (List.mem_range.mpr hid)

theorem short_freed_iff (env : Env) (line : List UInt8) (hs : Ready s) (hline : line.length < maxBufferSize - 1)
    (hgrow : ∀ d, env.grow d = true) :
    ∃ s', handleLine env line s = some (true, s') ∧
      (FreedOnce s' ↔ ¬Strands env (commandsOf env.alloc 0 (lineWords line))) := by
  obtain ⟨back, s', hrun, hhandled⟩ := handleLine_spec env hs hline
  obtain rfl := hhandled.back hgrow
  refine ⟨s', hrun, ?_⟩
  obtain ⟨s₁, m, hplaced, hallocated, hfreed⟩ := hhandled.freed rfl
  have hnul : ∀ c ∈ commandsOf env.alloc 0 (lineWords line), ∀ a ∈ c.2, 0 ∉ a := fun c hc a ha =>
    lineWords_noNul line a ((commandsOf_args env.alloc _ (Nat.le_refl _) c hc).2 a ha)
  constructor
  · intro honce hyes
    have hle := honce.length
    have hless := held_less hplaced hnul hyes
    rw [hallocated, hfreed, List.length_append, List.length_range'] at hle
    omega
  · intro hno
    refine FreedOnce.of_range ?_
    rw [hfreed, hallocated, held_all hplaced hnul hno, List.range_eq_range']
    refine List.perm_append_comm.trans (List.Perm.of_eq ?_)
    have happend := List.range'_append_1 (s := 0) (m := countArgs (commandsOf env.alloc 0 (lineWords line)))
      (n := m)
    rwa [Nat.zero_add] at happend

/-- where the array of the commands can be grown, the strings of a line are each freed exactly once unless the
line is one command, or two with a pipe, none of them built in and one of them with `&` as its last argument -/
theorem freed_once_iff (hs : Reachable s) (hgrow : ∀ d, env.grow d = true) :
    ∃ s', handleLine env line s = some (true, s') ∧
      ((∀ id < s'.allocated, s'.freed.count id = 1) ↔
        ¬(line.length < maxBufferSize - 1 ∧ Strands env (commandsOf env.alloc 0 (lineWords line)))) := by
  by_cases hline : line.length < maxBufferSize - 1
  · obtain ⟨s', hrun, hiff⟩ := short_freed_iff env line hs.ready hline hgrow
    exact ⟨s', hrun, hiff.trans (not_congr (and_iff_right hline).symm)⟩
  · obtain ⟨s', hrun, -, -, hallocated, -⟩ := handleLine_long env hs.ready (Nat.le_of_not_lt hline)
    refine ⟨s', hrun, iff_of_true (fun id hid => ?_) fun h => hline h.1⟩
    rw [hallocated] at hid
    exact absurd hid (Nat.not_lt_zero id)

/-- of `echo ab c | wc -l` every string is freed once -/
theorem freed_once_echo :
    ∃ s', handleLine ⟨fun _ => true, fun _ => true, 0⟩ echoToWc
        (State.start fun _ => ⟨0, 0, fun _ => none, false⟩) = some (true, s') ∧
      ∀ id < s'.allocated, s'.freed.count id = 1 := by
  obtain ⟨s', hrun, hiff⟩ := @freed_once_iff ⟨fun _ => true, fun _ => true, 0⟩ _ echoToWc
    (Reachable.start fun _ => ⟨0, 0, fun _ => none, false⟩) fun _ => rfl
  refine ⟨s', hrun, hiff.mpr ?_⟩
  rw [commandsOf_some parseWords_echoToWc, commandsOf_some (parseWords_wc _), commandsOf_none (parseWords_nil rfl)]
  -- no argument is `&`
  rintro ⟨-, -, -, c, hc, hlast⟩
  rcases List.mem_pair.mp hc with rfl | rfl
  · exact absurd hlast (by decide)
  · exact absurd hlast (by decide)

/-- `ps &` -/
theorem psInBackground_keeps :
    ∃ s', handleLine ⟨fun _ => true, fun _ => true, 0⟩ [ch 'p', ch 's', ch ' ', ch '&']
        (State.start fun _ => ⟨0, 0, fun _ => none, false⟩) = some (true, s') ∧
      ¬∀ id < s'.allocated, s'.freed.count id = 1 := by
  have hwords : parseWords (fun _ => true) 0 (lineWords [ch 'p', ch 's', ch ' ', ch '&']) =
      some (11, [ampersand], []) := by decide
  have hcs : commandsOf (fun _ => true) 0 (lineWords [ch 'p', ch 's', ch ' ', ch '&']) = [(11, [ampersand])] := by
    rw [commandsOf_some hwords, commandsOf_none (parseWords_nil rfl)]
  obtain ⟨s', hrun, hiff⟩ := short_freed_iff ⟨fun _ => true, fun _ => true, 0⟩ [ch 'p', ch 's', ch ' ', ch '&']
    (Ready.start fun _ => ⟨0, 0, fun _ => none, false⟩) (by decide) fun _ => rfl
  rw [hcs] at hiff
  refine ⟨s', hrun, fun honce => hiff.mp honce ⟨Or.inl rfl, ?_, (11, [ampersand]), List.mem_singleton_self _, rfl⟩⟩
  exact List.forall_mem_singleton.mpr (by decide)

end

end Tp2So.Shell
