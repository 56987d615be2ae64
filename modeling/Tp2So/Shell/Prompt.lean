import Tp2So.Shell.Turn

/-!
# A line, from prompt to prompt

`Ready s` holds at every prompt.

* `execute_settled`, `execute_command`    the commands are started, and what that does to each;
* `handleLine_spec`          a line that fits into `buffer`;
* `Reachable.ready`          the invariant of the prompts.
-/

set_option linter.unusedVariables false

namespace Tp2So.Shell

open Libc

structure Ready (s : State) : Prop where
  length : s.buffer.text.length = maxBufferSize
  last : s.historyLast < historySize
  dim : 5 ∣ s.dim
  room : 0 < s.dim

/-- the commands are given to `createProcess` -/
def Starts (env : Env) (n : Nat) (pc : Nat → ParsedCommand) : Prop :=
  (n = 1 ∨ n = 2 ∧ 0 ≤ env.pipeOpen) ∧ ∀ p < n, (pc p).isBuiltIn = false

instance startsDecidable (env : Env) (n : Nat) (pc : Nat → ParsedCommand) : Decidable (Starts env n pc) :=
  inferInstanceAs (Decidable (_ ∧ _))

/-- the ampersand is taken off -/
def ParsedCommand.taken (c : ParsedCommand) : ParsedCommand :=
  if c.wantsBackground then { c with argv := Function.update c.argv (c.argc - 1) none, argc := c.argc - 1 }
  else c

section
variable {env : Env} {s s' : State} {pc : Nat → ParsedCommand} {l : List UInt8} {n p k : Nat}
  {ws : List (List UInt8)} {cs : List (Nat × List (List UInt8))} {c : Nat × List (List UInt8)}

/-! ## the commands of a line -/

theorem Placed.at_mem (h : Placed pc p k cs) (hp : n < cs.length) :
    ∃ c ∈ cs, ∃ k', pc (p + n) = parsedOf k' c.1 c.2 := by
  induction cs generalizing p k n with
  | nil => exact absurd hp (Nat.not_lt_zero n)
  | cons c cs ih =>
    obtain ⟨hc, hrest⟩ := h
    cases n with
    | zero => exact ⟨c, List.mem_cons_self, k, hc⟩
    | succ n =>
      obtain ⟨d, hd, k', hk'⟩ := ih hrest (Nat.lt_of_succ_lt_succ hp)
      rw [Nat.add_right_comm, Nat.add_assoc] at hk'
      exact ⟨d, List.mem_cons_of_mem c hd, k', hk'⟩

theorem Placed.mem_at (h : Placed pc p k cs) (hc : c ∈ cs) :
    ∃ n < cs.length, ∃ k', pc (p + n) = parsedOf k' c.1 c.2 := by
  induction cs generalizing p k with
  | nil => exact absurd hc List.not_mem_nil
  | cons d cs ih =>
    obtain ⟨hd, hrest⟩ := h
    rcases List.mem_cons.mp hc with rfl | hc
    · exact ⟨0, Nat.succ_pos _, k, hd⟩
    · obtain ⟨n, hn, k', hk'⟩ := ih hrest hc
      rw [Nat.add_right_comm, Nat.add_assoc] at hk'
      exact ⟨n + 1, Nat.succ_lt_succ hn, k', hk'⟩

theorem commandsOf_args (alloc : Nat → Bool) (m : Nat) : ∀ {k : Nat} {ws : List (List UInt8)},
    ws.length ≤ m → ∀ c ∈ commandsOf alloc k ws, c.2.length ≤ 8 ∧ ∀ a ∈ c.2, a ∈ ws := by
  induction m with
  | zero =>
    intro k ws hm
    obtain rfl := List.length_eq_zero_iff.mp (Nat.le_zero.mp hm)
    rw [commandsOf_none (parseWords_nil rfl)]
    exact fun c hc => absurd hc List.not_mem_nil
  | succ m ih =>
    intro k ws hm c hc
    rcases hwords : parseWords alloc k ws with - | ⟨i, args, rest⟩
    · rw [commandsOf_none hwords] at hc
      exact absurd hc List.not_mem_nil
    · rw [commandsOf_some hwords] at hc
      obtain ⟨w, ws', hfrom, -, -, hargs, -⟩ := parseWords_some hwords
      have hlen : rest.length < ws.length := parseWords_length hwords
      have hsub : ∀ a ∈ ws', a ∈ ws := fun a ha =>
        (List.dropWhile_suffix _).subset (hfrom ▸ List.mem_cons_of_mem w ha)
      obtain ⟨h8, hin, hin'⟩ := takeArgs_spec (maxArgumentCount - 2) ws'
      unfold arguments at hargs
      rw [hargs] at h8 hin hin'
      rcases List.mem_cons.mp hc with rfl | hc
      · exact ⟨h8, fun a ha => hsub a (hin a ha)⟩
      · obtain ⟨h1, h2⟩ := ih (by omega) c hc
        exact ⟨h1, fun a ha => hsub a (hin' a (h2 a ha))⟩

theorem Placed.argc_le {alloc : Nat → Bool} (h : Placed pc 0 k (commandsOf alloc k ws))
    (hp : p < (commandsOf alloc k ws).length) : (pc p).argc ≤ maxArgumentCount - 1 := by
  obtain ⟨c, hc, k', hk'⟩ := h.at_mem hp
  rw [Nat.zero_add] at hk'
  rw [hk']
  exact Nat.succ_le_succ (commandsOf_args alloc _ (Nat.le_refl _) c hc).1

/-! ## the commands are started -/

theorem taken_argc (c : ParsedCommand) : c.taken.argc ≤ c.argc := by
  unfold ParsedCommand.taken
  by_cases hwants : c.wantsBackground = true
  · rw [if_pos hwants]
    exact Nat.sub_le _ _
  · exact Nat.le_of_eq (congrArg ParsedCommand.argc (if_neg hwants))

theorem takeBackground_commands (p : Nat) (s : State) :
    (takeBackground p s).parsedCommands = Function.update s.parsedCommands p (s.parsedCommands p).taken := by
  unfold takeBackground ParsedCommand.taken
  dsimp only
  by_cases hwants : (s.parsedCommands p).wantsBackground = true
  · rw [if_pos hwants, if_pos hwants]
    rfl
  · rw [if_neg hwants, if_neg hwants, Function.update_eq_self]

theorem execute_one : execute env 1 s = if (s.parsedCommands 0).isBuiltIn then s else takeBackground 0 s := rfl

theorem execute_two :
    execute env 2 s =
      if (s.parsedCommands 0).isBuiltIn || (s.parsedCommands 1).isBuiltIn then s
      else if env.pipeOpen < 0 then s else takeBackground 1 (takeBackground 0 s) := rfl

theorem execute_other (h1 : n ≠ 1) (h2 : n ≠ 2) : execute env n s = s := by
  unfold execute
  rw [if_neg h1, if_neg h2]

/-- nothing is started, or each of the commands -/
theorem execute_cases (env : Env) (n : Nat) (s : State) :
    (¬Starts env n s.parsedCommands ∧ execute env n s = s) ∨
    (Starts env n s.parsedCommands ∧ n = 1 ∧ execute env n s = takeBackground 0 s) ∨
    (Starts env n s.parsedCommands ∧ n = 2 ∧ execute env n s = takeBackground 1 (takeBackground 0 s)) := by
  by_cases h1 : n = 1
  · subst h1
    rw [execute_one]
    by_cases hb : (s.parsedCommands 0).isBuiltIn = true
    · rw [if_pos hb]
      exact Or.inl ⟨fun h => Bool.false_ne_true ((h.2 0 Nat.one_pos).symm.trans hb), rfl⟩
    · rw [if_neg hb]
      refine Or.inr (Or.inl ⟨⟨Or.inl rfl, fun p hp => ?_⟩, rfl, rfl⟩)
      rw [Nat.lt_one_iff.mp hp]
      exact Bool.eq_false_iff.mpr hb
  · by_cases h2 : n = 2
    · subst h2
      rw [execute_two]
      by_cases hb : ((s.parsedCommands 0).isBuiltIn || (s.parsedCommands 1).isBuiltIn) = true
      · rw [if_pos hb]
        refine Or.inl ⟨fun h => ?_, rfl⟩
        rw [h.2 0 (by decide), h.2 1 (by decide)] at hb
        exact Bool.false_ne_true hb
      · rw [if_neg hb]
        by_cases hpipe : env.pipeOpen < 0
        · rw [if_pos hpipe]
          refine Or.inl ⟨fun h => ?_, rfl⟩
          rcases h.1 with h | ⟨-, h⟩
          · exact absurd h (by decide)
          · omega
        · rw [if_neg hpipe]
          obtain ⟨hb0, hb1⟩ := Bool.or_eq_false_iff.mp (Bool.eq_false_iff.mpr hb)
          refine Or.inr (Or.inr ⟨⟨Or.inr ⟨rfl, by omega⟩, fun p hp => ?_⟩, rfl, rfl⟩)
          rcases (by omega : p = 0 ∨ p = 1) with rfl | rfl
          · exact hb0
          · exact hb1
    · refine Or.inl ⟨fun h => ?_, execute_other h1 h2⟩
      rcases h.1 with h | ⟨h, -⟩
      · exact h1 h
      · exact h2 h

theorem execute_command (hp : p < n) :
    (execute env n s).parsedCommands p =
      if Starts env n s.parsedCommands then (s.parsedCommands p).taken else s.parsedCommands p := by
  rcases execute_cases env n s with ⟨hno, hrun⟩ | ⟨hyes, rfl, hrun⟩ | ⟨hyes, rfl, hrun⟩
  · rw [if_neg hno, hrun]
  · obtain rfl := Nat.lt_one_iff.mp hp
    rw [if_pos hyes, hrun, takeBackground_commands, Function.update_self]
  · rw [if_pos hyes, hrun, takeBackground_commands, takeBackground_commands]
    rcases (by omega : p = 0 ∨ p = 1) with rfl | rfl
    · rw [Function.update_of_ne (by decide), Function.update_self]
    · rw [Function.update_self, Function.update_of_ne (by decide)]

theorem execute_settled (env : Env) (hn : n < s.dim) (hargc : ∀ p < n, (s.parsedCommands p).argc ≤ maxArgumentCount) :
    Settled s (execute env n s) [] := by
  rcases execute_cases env n s with ⟨hno, hrun⟩ | ⟨hyes, rfl, hrun⟩ | ⟨hyes, rfl, hrun⟩
  · rw [hrun]
    exact Settled.refl s
  · rw [hrun]
    exact takeBackground_settled (Nat.lt_of_succ_lt hn) (hargc 0 Nat.one_pos)
  · rw [hrun]
    have h0 := takeBackground_settled (s := s) (p := 0) (by omega) (hargc 0 (by decide))
    refine h0.trans (takeBackground_settled (h0.dim.symm ▸ Nat.lt_of_succ_lt hn) ?_)
    rw [takeBackground_commands, Function.update_of_ne (by decide)]
    exact hargc 1 (by decide)

/-! ## the line -/

/-- what `main` does with a line that fits into `buffer`; `cs` are its commands, and `cw` the words that are
copied to `command` -/
structure Handled (env : Env) (cs : List (Nat × List (List UInt8))) (cw : List (List UInt8)) (s' : State)
    (back : Bool) : Prop where
  tidy : s'.Tidy ↔ Fit cw
  ready : back = true → Ready s'
  freed : back = true → ∃ s₁ m, Placed s₁.parsedCommands 0 0 cs ∧ s'.allocated = countArgs cs + m ∧
    s'.freed = List.range' (countArgs cs) m ++ (execute env cs.length s₁).held cs.length
  back : (∀ d, env.grow d = true) → back = true

theorem head_mem_commandWords (env : Env) (dim parsed k : Nat) (ws : List (List UInt8)) :
    ∀ w ∈ (fromCommand ws).head?.toList, w ∈ commandWords env dim parsed k ws := by
  intro w hw
  rcases hwords : parseWords env.alloc k ws with - | ⟨i, args, rest⟩
  · rw [commandWords_none hwords]
    exact hw
  · rw [commandWords_some hwords]
    exact List.mem_append_left _ hw

/-- the first word is a pipe, or it is taken as a command -/
theorem first_fits (env : Env) {dim : Nat} (h : Fit (commandWords env dim 0 0 (wordsOf l))) :
    (firstPiece blank l).1.length < maxArgumentSize := by
  rw [wordsOf_eq] at h
  by_cases hp : (firstPiece blank l).1 = pipe
  · rw [hp]
    decide
  · refine h _ (head_mem_commandWords env _ _ _ _ _ ?_)
    rw [fromCommand_word _ hp]
    exact List.mem_singleton_self _

theorem wordsOf_length (h : l.length < maxBufferSize) : (wordsOf l).length ≤ maxBufferSize := by
  unfold wordsOf
  by_cases hnil : l = []
  · rw [if_pos hnil]
    decide
  · rw [if_neg hnil]
    exact Nat.le_trans (pieces_length blank l) (Nat.le_of_lt h)

theorem parseLoop_line {line post : List UInt8} (env : Env) (htext : s.buffer.text = line ++ 0 :: post)
    (hlen : s.buffer.text.length = maxBufferSize) (htidy : s.Tidy) (hdim : 5 ∣ s.dim) (hroom : 0 < s.dim) :
    ∃ r s', parseLoop env (maxBufferSize + 1) 0 s = some (r, s') ∧
      Looped env (line.takeWhile (· ≠ 0)) 0 (lineWords line)
        (commandWords env s.dim 0 s.allocated (lineWords line)) s s' r := by
  obtain ⟨h0, post', hpost⟩ := takeWhile_split line post
  obtain ⟨tok, b, htok, hheld⟩ := token_first (htext.trans hpost) h0 hlen (tidy_iff.mp htidy).2
  have hshort : (line.takeWhile (· ≠ 0)).length < maxBufferSize := by
    rw [← hlen, htext.trans hpost, List.length_append, List.length_cons]
    omega
  have hwords := wordsOf_length hshort
  exact parseLoop_spec env (maxBufferSize + 1) htok hheld hwords (Nat.lt_succ_of_le hwords) hdim hroom

theorem Looped.tidy {cw : List (List UInt8)} {r : Option Nat} (h : Looped env l p ws cw s s' r)
    (htidy : s.Tidy) : s'.Tidy ↔ Fit cw := by
  obtain ⟨W, hW, hin⟩ := h.writes
  obtain ⟨ws', hahead⟩ := h.ahead
  rw [tidy_iff, hW, List.forall_mem_append, hin]
  constructor
  · exact fun ht => ht.1.2
  · exact fun hfit => ⟨⟨(tidy_iff.mp htidy).1, hfit⟩, hahead.cuts⟩

theorem release_settled (env : Env) (hn : n < s.dim) (hargc : ∀ p < n, (s.parsedCommands p).argc ≤ maxArgumentCount) :
    Settled s ((releaseAll n (execute env n s)).setBuffer 0 0) ((execute env n s).held n) := by
  have hexec := execute_settled env hn hargc
  have hargc' : ∀ p < n, ((execute env n s).parsedCommands p).argc ≤ maxArgumentCount := by
    intro p hp
    rw [execute_command hp]
    by_cases hstart : Starts env n s.parsedCommands
    · rw [if_pos hstart]
      exact Nat.le_trans (taken_argc _) (hargc p hp)
    · rw [if_neg hstart]
      exact hargc p hp
  have hrelease := (releaseAll_spec n (hexec.dim.symm ▸ Nat.le_of_lt hn) hargc').1
  have hall := (hexec.trans hrelease).trans (setBuffer_settled (i := 0) 0 (by decide))
  rw [List.append_nil] at hall
  exact hall

theorem finish_spec {cw : List (List UInt8)} (hlast : s.historyLast < historySize)
    (hbuf : s.bufferDim < maxBufferSize) (hempty : s.freed = []) (hzero : s.allocated = 0)
    (h0 : 0 ∉ l) (hfit : Fit cw → (firstPiece blank l).1.length < maxArgumentSize) (htidy : s.Tidy)
    (h : Looped env l 0 ws cw s s' (some n)) :
    ∃ s₂, (if n = 0 ∧ s'.bufferDim > 0 then invalidCommand s' else some s') = some s₂ ∧
      Handled env (commandsOf env.alloc 0 ws) cw
        ((releaseAll n (execute env n (if n ≠ 0 then remember s₂ else s₂))).setBuffer 0 0) true := by
  have hfits := h.tidy htidy
  have hcount := h.count n rfl
  have hplaced := h.placed n rfl
  have hfreed := h.freed n rfl
  rw [hzero, Nat.zero_add] at hcount hfreed
  rw [hzero] at hplaced
  obtain ⟨hn, hdim⟩ := hcount
  obtain ⟨ws', hahead⟩ := h.ahead
  obtain ⟨s₂, hinvalid, hset₂, hsame₂⟩ : ∃ s₂,
      (if n = 0 ∧ s'.bufferDim > 0 then invalidCommand s' else some s') = some s₂ ∧ Settled s' s₂ [] ∧
        (n ≠ 0 → s₂ = s') := by
    by_cases hno : n = 0 ∧ s'.bufferDim > 0
    · rw [if_pos hno]
      obtain ⟨s₂, hrun, hset⟩ := invalidCommand_spec hahead h0 (fun ht => hfit (hfits.mp ht))
      exact ⟨s₂, hrun, hset, fun hne => absurd hno.1 hne⟩
    · rw [if_neg hno]
      exact ⟨s', rfl, Settled.refl s', fun _ => rfl⟩
  refine ⟨s₂, hinvalid, ?_⟩
  obtain ⟨s₃, hs₃, hset₃, hplaced₃⟩ : ∃ s₃, s₃ = (if n ≠ 0 then remember s₂ else s₂) ∧ Settled s₂ s₃ [] ∧
      Placed s₃.parsedCommands 0 0 (commandsOf env.alloc 0 ws) := by
    by_cases hne : n ≠ 0
    · rw [if_pos hne, hsame₂ hne]
      exact ⟨_, rfl, remember_settled (h.historyLast.symm ▸ hlast) (h.bufferDim.symm ▸ hbuf), hplaced⟩
    · rw [if_neg hne]
      refine ⟨s₂, rfl, Settled.refl s₂, ?_⟩
      rw [List.length_eq_zero_iff.mp (hn.symm.trans (not_not.mp hne))]
      exact trivial
  rw [← hs₃]
  have hall := (hset₂.trans hset₃).trans (release_settled (n := n) env
    (by rw [hset₃.dim, hset₂.dim]; exact hdim)
    (fun p hp => Nat.le_succ_of_le (hplaced₃.argc_le (by rwa [← hn]))))
  rw [List.append_nil, List.nil_append] at hall
  refine
    { tidy := hall.tidy.trans hfits
      ready := fun _ =>
        { length := hall.length.trans hahead.length
          last := hall.history (h.historyLast.symm ▸ hlast)
          dim := hall.dim.symm ▸ h.dim
          room := hall.dim.symm ▸ Nat.lt_of_le_of_lt (Nat.zero_le n) hdim }
      freed := fun _ => ?_
      back := fun _ => rfl }
  obtain ⟨m, hm, hfreed⟩ := hfreed
  refine ⟨s₃, m, hplaced₃, hall.allocated.trans hm, ?_⟩
  rw [hall.freed, hfreed, hempty, List.nil_append, ← hn]

theorem readLine_spec (line : List UInt8) (hdim : s.bufferDim = 0) (hlen : s.buffer.text.length = maxBufferSize) :
    Settled s ((readLoop line s).setBuffer (readLoop line s).bufferDim 0) [] ∧
      ((readLoop line s).setBuffer (readLoop line s).bufferDim 0).bufferDim =
        (line.take (maxBufferSize - 1)).length ∧
      ∃ post, ((readLoop line s).setBuffer (readLoop line s).bufferDim 0).buffer.text =
        line.take (maxBufferSize - 1) ++ 0 :: post := by
  obtain ⟨tail, htext, hend, hset⟩ := readLoop_spec line (s := s) [] s.buffer.text rfl hdim
    (by rw [hdim]; exact Nat.zero_le _) hlen
  rw [List.length_nil, Nat.sub_zero, List.nil_append] at htext hend
  have hshort : (line.take (maxBufferSize - 1)).length ≤ maxBufferSize - 1 := List.length_take_le _ _
  have hin : (readLoop line s).bufferDim < maxBufferSize := by
    rw [hend]
    exact Nat.lt_of_le_of_lt hshort (by decide)
  have hlen' := hset.length.trans hlen
  obtain ⟨d, post, rfl⟩ : ∃ d post, tail = d :: post := by
    refine List.exists_cons_of_ne_nil fun hnil => ?_
    rw [htext, hnil, List.append_nil] at hlen'
    rw [hlen'] at hshort
    exact absurd hshort (by decide)
  refine ⟨hset.trans (setBuffer_settled 0 hin), hend, post, ?_⟩
  show (readLoop line s).buffer.text.set (readLoop line s).bufferDim 0 = _
  rw [htext, hend, List.set_append_right _ _ (Nat.le_refl _), Nat.sub_self, List.set_cons_zero]

/-- the state in which a line is read -/
def State.reset (s : State) : State :=
  { s with
    allocated := 0, freed := [], writes := [], buffer := { s.buffer with writes := [] }, bufferDim := 0 }

theorem reset_tidy (s : State) : s.reset.Tidy :=
  tidy_iff.mpr ⟨fun w hw => absurd hw List.not_mem_nil, fun i hi => absurd hi List.not_mem_nil⟩

theorem handleLine_long (env : Env) {line : List UInt8} (hs : Ready s) (h : maxBufferSize - 1 ≤ line.length) :
    ∃ s', handleLine env line s = some (true, s') ∧ Ready s' ∧ s'.Tidy ∧ s'.allocated = 0 ∧ s'.freed = [] := by
  obtain ⟨hset, hdim, post, htext⟩ := readLine_spec (s := s.reset) line rfl hs.length
  rw [List.length_take, Nat.min_eq_left h] at hdim
  have hall := hset.trans (setBuffer_settled (i := 0) 0 (by decide))
  refine ⟨_, if_pos (Nat.le_of_eq hdim.symm), ?_, hall.tidy.mpr (reset_tidy s), hall.allocated, hall.freed⟩
  exact
    { length := hall.length.trans hs.length
      last := hall.history hs.last
      dim := hall.dim.symm ▸ hs.dim
      room := hall.dim.symm ▸ hs.room }

/-- what `main` does behind the loop -/
def finish (env : Env) (r : Option Nat × State) : Option (Bool × State) :=
  match r.1 with
  | none => some (false, r.2)
  | some n =>
    (if n = 0 ∧ r.2.bufferDim > 0 then invalidCommand r.2 else some r.2).bind fun s =>
      some (true, (releaseAll n (execute env n (if n ≠ 0 then remember s else s))).setBuffer 0 0)

theorem handleLine_fits (env : Env) {line : List UInt8}
    (h : ((readLoop line s.reset).setBuffer (readLoop line s.reset).bufferDim 0).bufferDim < maxBufferSize - 1) :
    handleLine env line s =
      (parseLoop env (maxBufferSize + 1) 0
        ((readLoop line s.reset).setBuffer (readLoop line s.reset).bufferDim 0)).bind (finish env) :=
  if_neg (Nat.not_le_of_lt h)

theorem handleLine_spec (env : Env) {line : List UInt8} (hs : Ready s) (h : line.length < maxBufferSize - 1) :
    ∃ back s', handleLine env line s = some (back, s') ∧
      Handled env (commandsOf env.alloc 0 (lineWords line)) (commandWords env s.dim 0 0 (lineWords line))
        s' back := by
  obtain ⟨hset, hdim, post, htext⟩ := readLine_spec (s := s.reset) line rfl hs.length
  rw [List.take_of_length_le (Nat.le_of_lt h)] at hdim htext
  rw [handleLine_fits env (by rw [hdim]; exact h)]
  generalize (readLoop line s.reset).setBuffer (readLoop line s.reset).bufferDim 0 = s₁ at hset hdim htext ⊢
  have htidy : s₁.Tidy := hset.tidy.mpr (reset_tidy s)
  have hdim₁ : s₁.dim = s.dim := hset.dim
  have hzero : s₁.allocated = 0 := hset.allocated
  obtain ⟨r, s', hloop, hlooped⟩ := parseLoop_line env htext (hset.length.trans hs.length) htidy
    (hdim₁.symm ▸ hs.dim) (hdim₁.symm ▸ hs.room)
  rw [hdim₁, hzero] at hlooped
  rw [hloop, Option.bind_some]
  cases r with
  | none =>
    refine ⟨false, s', rfl, hlooped.tidy htidy, fun h => ?_, fun h => ?_, fun h => ?_⟩
    · cases h
    · cases h
    · exact absurd rfl (hlooped.back h)
  | some n =>
    obtain ⟨s₂, hinvalid, hhandled⟩ := finish_spec (hset.history hs.last)
      (by rw [hdim]; exact Nat.lt_trans h (by decide)) hset.freed hzero (takeWhile_split line []).1
      (first_fits env) htidy hlooped
    refine ⟨true, _, ?_, hhandled⟩
    unfold finish
    dsimp only
    rw [hinvalid]
    rfl

theorem Ready.start (pc : Nat → ParsedCommand) : Ready (State.start pc) :=
  ⟨List.length_replicate, Nat.succ_pos 9, Nat.dvd_refl 5, Nat.succ_pos 4⟩

theorem Reachable.ready (h : Reachable s) : Ready s := by
  induction h with
  | start pc => exact Ready.start pc
  | line env line h hrun ih =>
    by_cases hlong : maxBufferSize - 1 ≤ line.length
    · obtain ⟨s', hrun', hready, -⟩ := handleLine_long env ih hlong
      obtain ⟨-, rfl⟩ := Prod.mk.inj (Option.some.inj (hrun.symm.trans hrun'))
      exact hready
    · obtain ⟨back, s', hrun', hhandled⟩ := handleLine_spec env ih (Nat.lt_of_not_le hlong)
      obtain ⟨hback, rfl⟩ := Prod.mk.inj (Option.some.inj (hrun.symm.trans hrun'))
      exact hhandled.ready hback.symm

/-- `echo ab c | wc -l` -/
def echoToWc : List UInt8 :=
  ['e', 'c', 'h', 'o', ' ', 'a', 'b', ' ', 'c', ' ', '|', ' ', 'w', 'c', ' ', '-', 'l'].map ch

/-- its first command -/
theorem parseWords_echoToWc : parseWords (fun _ => true) 0 (lineWords echoToWc) =
    some (3, [['a', 'b'].map ch, [ch 'c']], [['w', 'c'].map ch, ['-', 'l'].map ch]) := by decide

/-- and its second -/
theorem parseWords_wc (k : Nat) : parseWords (fun _ => true) k [['w', 'c'].map ch, ['-', 'l'].map ch] =
    some (16, [['-', 'l'].map ch], []) := rfl

end

end Tp2So.Shell
