import Tp2So.Pipes.Aims

/-!
# Counting targets and counting ends

* `ends f e i`       how many live processes have the id `i` as their target on the side `e`;
* `ends_update`      how that number changes with one process;
* `Pipe.count`       the counter of a side, `Pipe.Sum` the sum of both;
* `leftPipe_counts`, `joinedPipe_counts`   what the ends of a dying and of a new process do to the
                     counters: one end less, one end more, on each side that aims at the pipe.
-/

set_option linter.unusedVariables false

namespace Tp2So

/-! ## counting targets -/

/-- the target of a side -/
def targetOf (x : Nat × Nat) : Side → Nat
  | .rd => x.1
  | .wr => x.2

/-- how many live processes have the target `i` on the side `e` -/
def ends (f : Int → Option (Nat × Nat)) (e : Side) (i : Nat) : Nat :=
  allPids.countP fun pid => (f pid).any fun x => targetOf x e == i

/-- what one process contributes -/
def hits (x : Option (Nat × Nat)) (e : Side) (i : Nat) : Nat :=
  if x.any (fun x => targetOf x e == i) then 1 else 0

theorem countP_update {l : List Int} (pid : Int) (f : Int → Option (Nat × Nat))
    (x : Option (Nat × Nat)) (g : Option (Nat × Nat) → Bool) (hnd : l.Nodup) :
    l.countP (fun q => g (Function.update f pid x q)) + (if pid ∈ l ∧ g (f pid) then 1 else 0)
      = l.countP (fun q => g (f q)) + if pid ∈ l ∧ g x then 1 else 0 := by
  induction l with
  | nil => simp
  | cons q l ih =>
    obtain ⟨hq, hl⟩ := List.nodup_cons.mp hnd
    have ih := ih hl
    rw [List.countP_cons, List.countP_cons]
    by_cases e : q = pid
    · subst e
      rw [Function.update_self]
      have hn : ∀ b : Bool, ¬ (q ∈ l ∧ b = true) := fun b hc => hq hc.1
      have hm : ∀ b : Bool, (q ∈ q :: l ∧ b = true) ↔ b = true :=
        fun b => ⟨And.right, fun hb => ⟨List.mem_cons_self, hb⟩⟩
      rw [if_neg (hn _), if_neg (hn _)] at ih
      simp only [hm]
      omega
    · have hm : ∀ b : Bool, (pid ∈ q :: l ∧ b = true) ↔ (pid ∈ l ∧ b = true) :=
        fun b => and_congr_left' ⟨fun h => (List.mem_cons.mp h).resolve_left (Ne.symm e),
          List.mem_cons_of_mem _⟩
      rw [Function.update_of_ne e]
      simp only [hm]
      omega

theorem nodup_allPids : allPids.Nodup :=
  List.nodup_range.map fun a b h => Int.ofNat.inj h

section
variable {f : Int → Option (Nat × Nat)} {x : Option (Nat × Nat)} {pid : Int} {e : Side} {i : Nat}

theorem ends_update (h0 : 0 ≤ pid) (h1 : pid < maxProcesses) :
    ends (Function.update f pid x) e i + hits (f pid) e i = ends f e i + hits x e i := by
  have hm : pid ∈ allPids := Sched.mem_allPids.mpr ⟨h0, h1⟩
  have hc := countP_update pid f x (fun y => y.any fun x => targetOf x e == i) nodup_allPids
  simp only [hm, true_and] at hc
  exact hc

theorem ends_le (f : Int → Option (Nat × Nat)) (e : Side) (i : Nat) : ends f e i ≤ 64 :=
  List.countP_le_length

theorem hits_some (x : Nat × Nat) : hits (some x) e i = if targetOf x e = i then 1 else 0 := by
  unfold hits
  rw [Option.any_some]
  simp only [beq_iff_eq]

theorem hits_none : hits none e i = 0 := rfl

theorem hits_le_ends (h0 : 0 ≤ pid) (h1 : pid < maxProcesses) : hits (f pid) e i ≤ ends f e i := by
  have h := ends_update (f := f) (x := none) (e := e) (i := i) h0 h1
  rw [hits_none] at h
  omega

end

/-! ## counting ends -/

def Pipe.count (p : Pipe) : Side → Nat
  | .rd => p.readers
  | .wr => p.writers

/-- the counter of all ends is the sum of the two -/
def Pipe.Sum (p : Pipe) : Prop := p.attached = p.readers + p.writers

def dropEnd : Side → Pipe → Pipe
  | .rd => dropReader
  | .wr => dropWriter

def quietEnd : Side → Pipe → Pipe
  | .rd => Pipe.noReader
  | .wr => Pipe.noWriter

def joinEnd : Side → Pipe → Pipe
  | .rd => Pipe.joinReader
  | .wr => Pipe.joinWriter

section
variable {p q : Pipe} {e e' : Side} {i r w : Nat}

theorem dropEnd_count (e e' : Side) (p : Pipe) :
    (dropEnd e p).count e' = p.count e' - if e' = e then 1 else 0 := by
  cases e <;> cases e' <;> simp only [dropEnd, Pipe.count, dropReader, dropWriter]
  all_goals
    split
    · simp
    · simp
      try omega

theorem dropEnd_sum (e : Side) (h : p.Sum) : (dropEnd e p).Sum := by
  have hsum : p.attached = p.readers + p.writers := h
  cases e with
  | rd =>
    show (dropReader p).Sum
    unfold dropReader
    split
    · show p.attached - 1 = p.readers - 1 + p.writers
      omega
    · exact h
  | wr =>
    show (dropWriter p).Sum
    unfold dropWriter
    split
    · show p.attached - 1 = p.readers + (p.writers - 1)
      omega
    · exact h

theorem quietEnd_counts (e : Side) (p : Pipe) :
    (∀ e', (quietEnd e p).count e' = p.count e') ∧ (p.Sum → (quietEnd e p).Sum) := by
  cases e with
  | rd =>
    show (∀ e', p.noReader.count e' = _) ∧ (p.Sum → p.noReader.Sum)
    unfold Pipe.noReader
    split
    · exact ⟨fun e' => by cases e' <;> rfl, id⟩
    · exact ⟨fun _ => rfl, id⟩
  | wr =>
    show (∀ e', p.noWriter.count e' = _) ∧ (p.Sum → p.noWriter.Sum)
    unfold Pipe.noWriter
    split
    · exact ⟨fun e' => by cases e' <;> rfl, id⟩
    · exact ⟨fun _ => rfl, id⟩

theorem detached_counts (hs : p.Sum) (h : p.detached (dropEnd e) (quietEnd e) = some q) :
    (∀ e', q.count e' = p.count e' - if e' = e then 1 else 0) ∧ q.Sum := by
  unfold Pipe.detached at h
  split at h
  · exact absurd h (by simp)
  · obtain rfl := Option.some.inj h
    obtain ⟨hc, hsum⟩ := quietEnd_counts e (dropEnd e p)
    exact ⟨fun e' => (hc e').trans (dropEnd_count e e' p), hsum (dropEnd_sum e hs)⟩

theorem left_counts (hs : p.Sum) (h : p.left (dropEnd e) (quietEnd e) = some q) :
    (∀ e', q.count e' = p.count e' - if e' = e then 1 else 0) ∧ q.Sum :=
  detached_counts hs (Option.filter_eq_some_iff.mp h).1

/-- no counter is near its bound: there are 64 processes -/
def Pipe.Small (p : Pipe) (n : Nat) : Prop := ∀ e, p.count e ≤ n

theorem joinEnd_counts (e : Side) {n : Nat} (hn : n ≤ 100) (hs : p.Sum) (hb : p.Small n) :
    (∀ e', (joinEnd e p).count e' = p.count e' + if e' = e then 1 else 0) ∧ (joinEnd e p).Sum ∧
      (joinEnd e p).Small (n + 1) := by
  have hr : p.readers ≤ n := hb .rd
  have hw : p.writers ≤ n := hb .wr
  unfold Pipe.Sum at hs
  have h16 : ∀ m, m ≤ n → inc16 m = m + 1 := fun m hm => Nat.mod_eq_of_lt (by omega)
  have h8 : inc8 p.attached = p.attached + 1 := Nat.mod_eq_of_lt (by omega)
  have hcount : ∀ e', (joinEnd e p).count e' = p.count e' + if e' = e then 1 else 0 := by
    intro e'
    cases e <;> cases e'
    · exact h16 _ hr
    · rfl
    · rfl
    · exact h16 _ hw
  refine ⟨hcount, ?_, fun e' => ?_⟩
  · have h1 := hcount .rd
    have h2 := hcount .wr
    show (joinEnd e p).attached = (joinEnd e p).count .rd + (joinEnd e p).count .wr
    have hat : (joinEnd e p).attached = p.attached + 1 := by cases e <;> exact h8
    rw [h1, h2, hat, hs]
    cases e <;> simp [Pipe.count] <;> omega
  · rw [hcount]
    have h := hb e'
    split <;> omega

theorem isPipe_of_le (h2 : 2 ≤ i) : isPipe i = true := by
  unfold isPipe
  have h0 : i ≠ stdin := by
    show i ≠ 0
    omega
  have h1 : i ≠ stdout := by
    show i ≠ 1
    omega
  simp [h0, h1]

theorem leftPipe_counts (h2 : 2 ≤ i) (hs : p.Sum) (h : leftPipe r w i (some p) = some q) :
    (∀ e, q.count e = p.count e - hits (some (r, w)) e i) ∧ q.Sum := by
  have hi := isPipe_of_le h2
  unfold leftPipe at h
  simp only at h
  generalize hX : (if isPipe r = true ∧ i = r then
    (some p).bind (Pipe.left dropReader Pipe.noReader) else some p) = X at h
  cases X with
  | none =>
    simp only [Option.bind_none, ite_self] at h
    exact absurd h (by simp)
  | some x => ?_
  -- the read end
  have hx : (∀ e, x.count e = p.count e - if e = .rd ∧ r = i then 1 else 0) ∧ x.Sum := by
    by_cases e : i = r
    · rw [if_pos ⟨e ▸ hi, e⟩] at hX
      obtain ⟨hc, hsum⟩ := left_counts (e := .rd) hs hX
      refine ⟨fun e' => ?_, hsum⟩
      rw [hc, e]
      simp
    · rw [if_neg fun hc => e hc.2] at hX
      obtain rfl := Option.some.inj hX
      refine ⟨fun e' => ?_, hs⟩
      rw [if_neg fun hc => e hc.2.symm]
      rfl
  -- the write end
  have hq : (∀ e, q.count e = x.count e - if e = .wr ∧ w = i then 1 else 0) ∧ q.Sum := by
    by_cases e : i = w
    · rw [if_pos ⟨e ▸ hi, e⟩] at h
      have hc : (∀ e', q.count e' = x.count e' - if e' = .wr then 1 else 0) ∧ q.Sum := by
        split at h
        · exact detached_counts (e := .wr) hx.2 h
        · exact left_counts (e := .wr) hx.2 h
      refine ⟨fun e' => ?_, hc.2⟩
      rw [hc.1, e]
      simp
    · rw [if_neg fun hc => e hc.2] at h
      obtain rfl := Option.some.inj h
      refine ⟨fun e' => ?_, hx.2⟩
      rw [if_neg fun hc => e hc.2.symm]
      rfl
  refine ⟨fun e => ?_, hq.2⟩
  rw [hq.1, hx.1, hits_some]
  cases e with
  | rd => by_cases hr : r = i <;> simp [targetOf, hr]
  | wr => by_cases hw : w = i <;> simp [targetOf, hw]

theorem joinedPipe_counts (h2 : 2 ≤ i) {n : Nat} (hn : n ≤ 64) (hs : p.Sum) (hb : p.Small n)
    (h : joinedPipe r w i (some p) = some q) :
    (∀ e, q.count e = p.count e + hits (some (r, w)) e i) ∧ q.Sum := by
  have hi := isPipe_of_le h2
  obtain ⟨x, hx, hcx, hsx, hbx⟩ : ∃ x, (if isPipe r = true ∧ i = r then
      (some p).map Pipe.joinReader else some p) = some x ∧
      (∀ e, x.count e = p.count e + if e = .rd ∧ r = i then 1 else 0) ∧ x.Sum ∧
        x.Small (n + 1) := by
    by_cases e : i = r
    · obtain ⟨hc, hsum, hsm⟩ := joinEnd_counts .rd (by omega) hs hb
      refine ⟨p.joinReader, by rw [if_pos ⟨e ▸ hi, e⟩]; rfl, fun e' => ?_, hsum, hsm⟩
      refine (hc e').trans ?_
      rw [e]
      simp
    · refine ⟨p, if_neg fun hc => e hc.2, fun e' => ?_, hs, fun e' => ?_⟩
      · rw [if_neg fun hc => e hc.2.symm]
        rfl
      · have := hb e'
        omega
  unfold joinedPipe at h
  simp only [hx] at h
  have hq : (∀ e, q.count e = x.count e + if e = .wr ∧ w = i then 1 else 0) ∧ q.Sum := by
    by_cases e : i = w
    · rw [if_pos ⟨e ▸ hi, e⟩] at h
      obtain rfl := Option.some.inj h
      obtain ⟨hc, hsum, -⟩ := joinEnd_counts .wr (by omega) hsx hbx
      refine ⟨fun e' => ?_, hsum⟩
      refine (hc e').trans ?_
      rw [e]
      simp
    · rw [if_neg fun hc => e hc.2] at h
      obtain rfl := Option.some.inj h
      refine ⟨fun e' => ?_, hsx⟩
      rw [if_neg fun hc => e hc.2.symm]
      rfl
  refine ⟨fun e => ?_, hq.2⟩
  rw [hq.1, hcx, hits_some]
  cases e with
  | rd => by_cases hr : r = i <;> simp [targetOf, hr]
  | wr => by_cases hw : w = i <;> simp [targetOf, hw]

end

end Tp2So
