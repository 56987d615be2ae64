import Tp2So.Shell.Calls

/-!
# The loop over the calls

`Looped env l parsed ws cw s s' r` says what the loop of `main` makes of the words `ws` from the state `s`:
`cw` are the words that it copies to `command`.  Every other write lies inside its array.

* `Looped.stop`, `Looped.cons`, `Looped.of_grown`, `Looped.no_room`    one turn;
* `parseLoop_spec`                the loop.
-/

set_option linter.unusedVariables false

namespace Tp2So.Shell

open Libc

/-- the commands lie in the array from `p` on, and their arguments are numbered from `k` on -/
def Placed (pc : Nat → ParsedCommand) : Nat → Nat → List (Nat × List (List UInt8)) → Prop
  | _, _, [] => True
  | p, k, c :: cs => pc p = parsedOf k c.1 c.2 ∧ Placed pc (p + 1) (k + c.2.length) cs

def countArgs : List (Nat × List (List UInt8)) → Nat
  | [] => 0
  | c :: cs => c.2.length + countArgs cs

/-- the words and their NUL fit into `command` -/
def Fit (ws : List (List UInt8)) : Prop := ∀ w ∈ ws, w.length < maxArgumentSize

structure Looped (env : Env) (l : List UInt8) (parsed : Nat) (ws cw : List (List UInt8)) (s s' : State)
    (r : Option Nat) : Prop where
  bufferDim : s'.bufferDim = s.bufferDim
  historyBuffer : s'.historyBuffer = s.historyBuffer
  historyLast : s'.historyLast = s.historyLast
  ahead : ∃ ws', Ahead s'.buffer l ws'
  dim : 5 ∣ s'.dim
  writes : ∃ W, s'.writes = s.writes ++ W ∧ ((∀ w ∈ W, w.inside = true) ↔ Fit cw)
  count : ∀ n, r = some n → n = parsed + (commandsOf env.alloc s.allocated ws).length ∧ n < s'.dim
  before : ∀ q < parsed, s'.parsedCommands q = s.parsedCommands q
  placed : ∀ n, r = some n → Placed s'.parsedCommands parsed s.allocated (commandsOf env.alloc s.allocated ws)
  freed : ∀ n, r = some n → ∃ m,
    s'.allocated = s.allocated + countArgs (commandsOf env.alloc s.allocated ws) + m ∧
    s'.freed = s.freed ++ List.range' (s.allocated + countArgs (commandsOf env.alloc s.allocated ws)) m
  back : (∀ d, env.grow d = true) → r ≠ none

section
variable {env : Env} {l : List UInt8} {parsed p k i : Nat} {ws cw args rest : List (List UInt8)}
  {s s₁ s' : State} {r : Option Nat}

/-! ## the writes of a call -/

theorem countArgs_cons (c : Nat × List (List UInt8)) (cs : List (Nat × List (List UInt8))) :
    countArgs (c :: cs) = c.2.length + countArgs cs := rfl

theorem inside_argv {dim j : Nat} (hp : p < dim) (hj : j < maxArgumentCount) :
    (Place.mk (.argv p dim) j).inside = true := by
  show decide (j < if p < dim then maxArgumentCount else 0) = true
  rw [if_pos hp]
  exact decide_eq_true hj

theorem Fit.append {ws ws' : List (List UInt8)} : Fit (ws ++ ws') ↔ Fit ws ∧ Fit ws' := by
  unfold Fit
  exact List.forall_mem_append

theorem commandCopy_inside (ws : List (List UInt8)) :
    (∀ w ∈ (commandCopy ws).map (Place.mk .command), w.inside = true) ↔ Fit (fromCommand ws).head?.toList := by
  unfold Fit commandCopy
  cases fromCommand ws with
  | nil => simp
  | cons w ws' =>
    simp only [List.mem_map, forall_exists_index, and_imp, forall_apply_eq_imp_iff₂, List.head?_cons,
      Option.toList_some, List.mem_singleton, forall_eq, List.mem_range]
    constructor
    · exact fun h => of_decide_eq_true (h w.length (Nat.lt_succ_self _))
    · exact fun h j hj => decide_eq_true (Nat.lt_of_le_of_lt (Nat.le_of_lt_succ hj) h)

theorem Call.writes_inside (h : Call s s' p ws) (hp : p < s.dim) :
    ∃ W, s'.writes = s.writes ++ W ∧ ((∀ w ∈ W, w.inside = true) ↔ Fit (fromCommand ws).head?.toList) := by
  obtain ⟨idx, hidx, hw⟩ := h.writes
  refine ⟨_, hw, ?_⟩
  rw [List.forall_mem_append, commandCopy_inside]
  refine and_iff_left fun w hw => ?_
  obtain ⟨j, hj, rfl⟩ := List.mem_map.mp hw
  exact inside_argv hp (hidx j hj)

/-! ## one turn -/

theorem Looped.stop (hdim : 5 ∣ s.dim) (hp : parsed < s.dim) (hcall : Call s s' parsed ws)
    (hwords : parseWords env.alloc s.allocated ws = none) (hno : Refused s s' l) :
    Looped env l parsed ws (fromCommand ws).head?.toList s s' (some parsed) := by
  refine
    { bufferDim := hcall.kept.bufferDim
      historyBuffer := hcall.kept.historyBuffer
      historyLast := hcall.kept.historyLast
      ahead := hno.ahead
      dim := hcall.kept.dim ▸ hdim
      writes := hcall.writes_inside hp
      count := ?_
      before := fun q _ => by rw [hno.commands]
      placed := ?_
      freed := ?_
      back := fun _ => Option.some_ne_none parsed }
  · intro n hn
    obtain rfl := Option.some.inj hn
    rw [commandsOf_none hwords, hcall.kept.dim]
    exact ⟨rfl, hp⟩
  · intro n hn
    rw [commandsOf_none hwords]
    exact trivial
  · intro n hn
    rw [commandsOf_none hwords]
    exact hno.freed

theorem Looped.cons (hp : parsed < s.dim) (hcall : Call s s₁ parsed ws)
    (hwords : parseWords env.alloc s.allocated ws = some (i, args, rest))
    (hstored : Stored s s₁ l parsed i args rest) (h : Looped env l (parsed + 1) rest cw s₁ s' r) :
    Looped env l parsed ws ((fromCommand ws).head?.toList ++ cw) s s' r := by
  refine
    { bufferDim := h.bufferDim.trans hcall.kept.bufferDim
      historyBuffer := h.historyBuffer.trans hcall.kept.historyBuffer
      historyLast := h.historyLast.trans hcall.kept.historyLast
      ahead := h.ahead
      dim := h.dim
      writes := ?_
      count := ?_
      before := ?_
      placed := ?_
      freed := ?_
      back := h.back }
  · obtain ⟨W, hW, hin⟩ := hcall.writes_inside hp
    obtain ⟨W', hW', hin'⟩ := h.writes
    refine ⟨W ++ W', by rw [hW', hW, List.append_assoc], ?_⟩
    rw [List.forall_mem_append, Fit.append, hin, hin']
  · intro n hn
    obtain ⟨hn, hlt⟩ := h.count n hn
    rw [hstored.allocated] at hn
    rw [commandsOf_some hwords, List.length_cons]
    exact ⟨by omega, hlt⟩
  · intro q hq
    rw [h.before q (Nat.lt_succ_of_lt hq), hstored.commands, Function.update_of_ne (Nat.ne_of_lt hq)]
  · intro n hn
    have hrest := h.placed n hn
    rw [hstored.allocated] at hrest
    rw [commandsOf_some hwords]
    refine ⟨?_, hrest⟩
    rw [h.before parsed (Nat.lt_succ_self _), hstored.commands, Function.update_self]
  · intro n hn
    obtain ⟨m, hall, hfreed⟩ := h.freed n hn
    rw [hstored.allocated] at hall hfreed
    rw [hstored.freed] at hfreed
    rw [commandsOf_some hwords, countArgs_cons, ← Nat.add_assoc]
    exact ⟨m, hall, hfreed⟩

theorem Looped.of_grown (h : Looped env l parsed ws cw s.grown s' r) : Looped env l parsed ws cw s s' r := by
  refine
    { bufferDim := h.bufferDim
      historyBuffer := h.historyBuffer
      historyLast := h.historyLast
      ahead := h.ahead
      dim := h.dim
      writes := ?_
      count := h.count
      before := h.before
      placed := h.placed
      freed := h.freed
      back := h.back }
  obtain ⟨W, hW, hin⟩ := h.writes
  refine ⟨((List.range s.dim).flatMap fun p =>
    (List.range maxArgumentCount).map (Place.mk (.argv p (s.dim + 5)))) ++ W, ?_, ?_⟩
  · rw [hW]
    exact List.append_assoc ..
  rw [List.forall_mem_append, hin]
  refine and_iff_right fun w hw => ?_
  obtain ⟨q, hq, hw⟩ := List.mem_flatMap.mp hw
  obtain ⟨j, hj, rfl⟩ := List.mem_map.mp hw
  exact inside_argv (Nat.lt_add_right 5 (List.mem_range.mp hq)) (List.mem_range.mp hj)

/-- the array of the commands is full, and `main` returns -/
theorem Looped.no_room (ids : List Nat) (hdim : 5 ∣ s.dim) (hgrow : ¬env.grow s.dim = true)
    (hahead : Ahead s.buffer l ws) : Looped env l parsed ws [] s (s.free ids) none := by
  refine
    { bufferDim := rfl
      historyBuffer := rfl
      historyLast := rfl
      ahead := ⟨ws, hahead⟩
      dim := hdim
      writes := ⟨[], (List.append_nil _).symm, by simp [Fit]⟩
      count := fun n hn => by cases hn
      before := fun q _ => rfl
      placed := fun n hn => by cases hn
      freed := fun n hn => by cases hn
      back := fun h => absurd (h s.dim) hgrow }

theorem parseLoop_succ (n parsed : Nat) (s : State) :
    parseLoop env (n + 1) parsed s =
      (parse_command env.alloc (parsed = 0) parsed s).bind fun r =>
        if r.1 then
          if (parsed + 1) % 5 = 0 ∧ parsed + 1 ≥ r.2.dim then
            if env.grow r.2.dim then parseLoop env n (parsed + 1) r.2.grown
            else
              some (none, r.2.free ((List.range (parsed + 1)).flatMap fun p => (r.2.parsedCommands p).copies))
          else parseLoop env n (parsed + 1) r.2
        else some (some parsed, r.2) := rfl

/-- where the array is full, the number of its commands is a multiple of five -/
theorem parseLoop_step (n : Nat) (hdim : 5 ∣ s₁.dim) (hp : parsed < s₁.dim)
    (hrun : parse_command env.alloc (parsed = 0) parsed s = some (true, s₁)) :
    parseLoop env (n + 1) parsed s =
      if parsed + 1 < s₁.dim then parseLoop env n (parsed + 1) s₁
      else if env.grow s₁.dim then parseLoop env n (parsed + 1) s₁.grown
      else some (none, s₁.free ((List.range (parsed + 1)).flatMap fun p => (s₁.parsedCommands p).copies)) := by
  have hfull : ((parsed + 1) % 5 = 0 ∧ parsed + 1 ≥ s₁.dim) ↔ ¬parsed + 1 < s₁.dim := by
    constructor
    · exact fun h => Nat.not_lt_of_ge h.2
    · intro h
      have heq : parsed + 1 = s₁.dim := by omega
      exact ⟨heq ▸ Nat.mod_eq_zero_of_dvd hdim, Nat.le_of_eq heq.symm⟩
  rw [parseLoop_succ, hrun, Option.bind_some, if_pos rfl]
  dsimp only
  by_cases hlt : parsed + 1 < s₁.dim
  · rw [if_neg (fun h => hfull.mp h hlt), if_pos hlt]
  · rw [if_pos (hfull.mpr hlt), if_neg hlt]

/-! ## the loop -/

theorem parseLoop_spec (env : Env) (n : Nat) : ∀ {p : Nat} {s : State} {tok : Option Nat} {b : Strtok}
    {l : List UInt8} {ws : List (List UInt8)},
    token (if (decide (p = 0)) then some 0 else none) s = some (tok, s.setTok b) → Held b l tok ws →
    ws.length ≤ maxBufferSize → ws.length < n → 5 ∣ s.dim → p < s.dim →
    ∃ r s', parseLoop env n p s = some (r, s') ∧
      Looped env l p ws (commandWords env s.dim p s.allocated ws) s s' r := by
  induction n with
  | zero => exact fun _ _ _ h => absurd h (Nat.not_lt_zero _)
  | succ n ih =>
    intro parsed s tok b l ws htok hheld hlen hn hdim hp
    obtain ⟨s₁, hcall, hanswer⟩ := parse_command_spec env.alloc (parsed = 0) parsed htok hheld hlen
    rcases hanswer with ⟨i, args, rest, hwords, hrun, hstored⟩ | ⟨hwords, hrun, hno⟩
    · have hdim₁ : 5 ∣ s₁.dim := hcall.kept.dim ▸ hdim
      have hp₁ : parsed < s₁.dim := hcall.kept.dim ▸ hp
      have hshort : rest.length < ws.length := parseWords_length hwords
      rw [parseLoop_step n hdim₁ hp₁ hrun, commandWords_some hwords, ← hcall.kept.dim, ← hstored.allocated]
      by_cases hroom : parsed + 1 < s₁.dim
      · rw [if_pos hroom, if_pos hroom]
        obtain ⟨tok', b', htok', hheld'⟩ := token_held hstored.ahead
        obtain ⟨r, s', hloop, hlooped⟩ := ih (p := parsed + 1) (s := s₁) htok' hheld'
          (by omega) (by omega) hdim₁ hroom
        exact ⟨r, s', hloop, Looped.cons hp hcall hwords hstored hlooped⟩
      · rw [if_neg hroom, if_neg hroom]
        by_cases hgrow : env.grow s₁.dim = true
        · rw [if_pos hgrow, if_pos hgrow]
          have hahead : Ahead s₁.grown.buffer l rest := hstored.ahead
          obtain ⟨tok', b', htok', hheld'⟩ := token_held hahead
          obtain ⟨r, s', hloop, hlooped⟩ := ih (p := parsed + 1) (s := s₁.grown) htok' hheld'
            (by omega) (by omega) ((Nat.dvd_add_right hdim₁).mpr (Nat.dvd_refl 5))
            (by show parsed + 1 < s₁.dim + 5; omega)
          exact ⟨r, s', hloop, Looped.cons hp hcall hwords hstored hlooped.of_grown⟩
        · rw [if_neg hgrow, if_neg hgrow]
          exact ⟨none, _, rfl, Looped.cons hp hcall hwords hstored
            (Looped.no_room _ hdim₁ hgrow hstored.ahead)⟩
    · rw [commandWords_none hwords]
      refine ⟨some parsed, s₁, ?_, Looped.stop hdim hp hcall hwords hno⟩
      rw [parseLoop_succ, hrun, Option.bind_some]
      exact if_neg Bool.false_ne_true

end

end Tp2So.Shell
