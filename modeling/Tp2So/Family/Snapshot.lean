import Tp2So.Kernel.Ps

/-!
# When `ps` returns a snapshot

An entry of the array has 32 bytes for the name, and `my_strcpy` copies all of `argv[0]`, after the
fields behind it were set.

* `chars_beside`         a string does not touch what lies in front of it or behind its zero;
* `slot_above`, `slot_below`   the stores of a slot stay in its entry, the latter if the name fits;
* `entry_spec`           what an entry holds after its own stores;
* `ps_faithful_iff`      the snapshot is faithful if and only if every name fits.
-/

set_option linter.unusedVariables false

namespace Tp2So

/-- the store is in the `n` bytes from `a` on -/
def Store.inside (a n : Nat) : Store → Bool
  | .byte b _ => a ≤ b && b + 1 ≤ a + n
  | .word b _ => a ≤ b && b + 4 ≤ a + n
  | .quad b _ => a ≤ b && b + 8 ≤ a + n

/-- the entry at `e` shows the process `p` -/
structure EntryShows (m : Nat → UInt8) (e : Nat) (p : PsRecord) : Prop where
  pid : readInt m (e + Info.pid) = p.pid
  ppid : readInt m (e + Info.ppid) = p.ppid
  state : load32 m (e + Info.state) = p.state.code
  priority : readInt m (e + Info.priority) = p.priority
  ground : readInt m (e + Info.ground) = p.ground
  name : ∀ s, p.argv0 = some s → ∃ n, n < Info.maxProcessName ∧ n ≤ s.bytes.length ∧
    Holds m (e + Info.name) (s.bytes.take n ++ [0])

/-- a faithful snapshot, none of whose stores `l` is outside the array -/
def Snapshot (table : Nat → Option PsRecord) (info : Nat) (m : Nat → UInt8) (l : List Store) : Prop :=
  (∀ i < psSlots, (listed table i = none → readInt m (info + Info.size * i + Info.pid) = -1) ∧
    ∀ p, listed table i = some p → EntryShows m (info + Info.size * i) p) ∧
  l.all (Store.inside info (Info.size * psSlots)) = true

section
variable {table : Nat → Option PsRecord} {info i j x n : Nat} {m : Nat → UInt8} {p : PsRecord}

/-! ## where the stores go -/

theorem chars_beside (cs : List Nat) (h : i + cs.length + 1 ≤ x ∨ x + n ≤ i) :
    (chars i cs).all (Store.beside x n) = true := by
  induction cs generalizing i with
  | nil =>
    rw [List.length_nil] at h
    simp only [chars, List.all_cons, List.all_nil, Store.beside, Bool.and_true, Bool.or_eq_true,
      decide_eq_true_eq]
    omega
  | cons c cs ih =>
    rw [List.length_cons] at h
    simp only [chars, List.all_cons, Store.beside, Bool.and_eq_true, Bool.or_eq_true, decide_eq_true_eq]
    exact ⟨by omega, ih (by omega)⟩

theorem chars_inside (cs : List Nat) {a : Nat} (h : a ≤ i) (h' : i + cs.length + 1 ≤ a + n) :
    (chars i cs).all (Store.inside a n) = true := by
  induction cs generalizing i with
  | nil =>
    rw [List.length_nil] at h'
    simp only [chars, List.all_cons, List.all_nil, Store.inside, Bool.and_true, Bool.and_eq_true,
      decide_eq_true_eq]
    omega
  | cons c cs ih =>
    rw [List.length_cons] at h'
    simp only [chars, List.all_cons, Store.inside, Bool.and_eq_true, decide_eq_true_eq]
    exact ⟨by omega, ih (by omega) (by omega)⟩

theorem myStrcpy_beside {dest : Nat} {src : List UInt8} (h : dest + src.length + 1 ≤ x ∨ x + n ≤ dest) :
    (myStrcpy dest src).all (Store.beside x n) = true :=
  chars_beside _ (by rwa [List.length_map])

theorem slot_above (h : x + n ≤ info + Info.size * i) :
    (slotStores table info i).all (Store.beside x n) = true := by
  unfold slotStores
  cases listed table i with
  | none => rfl
  | some p =>
    simp only [entryStores, entryWords, List.all_append, List.all_cons, List.all_nil, Store.beside, Bool.and_eq_true,
      Bool.or_eq_true, decide_eq_true_eq, and_true, Info.pid, Info.ppid, Info.state, Info.rsp,
      Info.stackBase, Info.priority, Info.ground, Info.name]
    refine ⟨⟨?_, ?_, ?_, ?_, ?_, ?_, ?_⟩, myStrcpy_beside (Or.inr ?_)⟩ <;> omega

theorem slot_below (hfit : ∀ p, listed table i = some p → p.name.length < Info.maxProcessName)
    (h : info + Info.size * (i + 1) ≤ x) : (slotStores table info i).all (Store.beside x n) = true := by
  unfold slotStores
  cases hp : listed table i with
  | none => rfl
  | some p =>
    have hlen := hfit p hp
    simp only [Info.size, Info.maxProcessName] at h hlen
    simp only [entryStores, entryWords, List.all_append, List.all_cons, List.all_nil, Store.beside, Bool.and_eq_true,
      Bool.or_eq_true, decide_eq_true_eq, and_true, Info.pid, Info.ppid, Info.state, Info.rsp,
      Info.stackBase, Info.priority, Info.ground, Info.size, Info.name]
    refine ⟨⟨?_, ?_, ?_, ?_, ?_, ?_, ?_⟩, myStrcpy_beside (Or.inl ?_)⟩ <;> omega

theorem slot_inside (hi : i < psSlots)
    (hfit : ∀ p, listed table i = some p → p.name.length < Info.maxProcessName) :
    (slotStores table info i).all (Store.inside info (Info.size * psSlots)) = true := by
  unfold slotStores
  cases hp : listed table i with
  | none => rfl
  | some p =>
    have hlen := hfit p hp
    simp only [Info.maxProcessName, psSlots] at hi hlen
    simp only [entryStores, entryWords, List.all_append, List.all_cons, List.all_nil, Store.inside, Bool.and_eq_true,
      decide_eq_true_eq, and_true, Info.pid, Info.ppid, Info.state, Info.rsp, Info.stackBase,
      Info.priority, Info.ground, Info.size, Info.name, psSlots]
    refine ⟨⟨⟨?_, ?_⟩, ⟨?_, ?_⟩, ⟨?_, ?_⟩, ⟨?_, ?_⟩, ⟨?_, ?_⟩, ⟨?_, ?_⟩, ⟨?_, ?_⟩⟩,
      chars_inside _ ?_ ?_⟩ <;> (try rw [List.length_map]) <;> omega

theorem slots_beside {l : List Nat}
    (h : ∀ j ∈ l, (slotStores table info j).all (Store.beside x n) = true) :
    (l.flatMap (slotStores table info)).all (Store.beside x n) = true := by
  rw [List.all_eq_true]
  intro s hs
  obtain ⟨j, hj, hs⟩ := List.mem_flatMap.mp hs
  exact List.all_eq_true.mp (h j hj) s hs

/-! ## one entry -/

theorem readInt_of_word {a : Nat} {v : Int32} (h : load32 m a = intWord v % 4294967296) :
    readInt m a = v := by
  have hlt : intWord v < 4294967296 := v.toUInt32.toNat_lt
  unfold readInt
  rw [h, Nat.mod_eq_of_lt hlt]
  unfold intWord
  rw [UInt32.ofNat_toNat, Int32.toInt32_toUInt32]

theorem code_lt (s : ProcessState) : s.code < 4294967296 := by cases s <;> decide

theorem name_of_argv0 {t : Libc.CString} (h : p.argv0 = some t) : p.name = t.bytes := by
  unfold PsRecord.name
  rw [h]
  rfl

theorem holds_myStrcpy (dest : Nat) (src : List UInt8) :
    Holds (runStores m (myStrcpy dest src)) dest (src ++ [0]) := by
  have hbytes : cBytes (src.map UInt8.toNat) = src ++ [0] := by
    unfold cBytes
    rw [List.map_map]
    congr 1
    refine (List.map_congr_left fun b _ => ?_).trans (List.map_id src)
    exact UInt8.ofNat_toNat
  rw [← hbytes]
  exact holds_chars _

theorem entry_name (p : PsRecord) (e : Nat) (m : Nat → UInt8) :
    Holds (runStores m (entryStores p e)) (e + Info.name) (p.name ++ [0]) := by
  unfold entryStores
  rw [runStores_append]
  exact holds_myStrcpy _ _

/-- **What an entry holds after its own stores**, if the name fits. -/
theorem entry_shows (p : PsRecord) (e : Nat) (m : Nat → UInt8) (hfit : p.name.length < Info.maxProcessName) :
    EntryShows (runStores m (entryStores p e)) e p := by
  -- the copy of the name stays off the words around it
  have hword : ∀ {a v : Nat} (i : Nat), (entryWords p e)[i]? = some (.word a v) →
      (e + 40 ≤ a ∨ a + 4 ≤ e + 8) → ((entryWords p e).drop (i + 1)).all (Store.beside a 4) = true →
      load32 (runStores m (entryStores p e)) a = v % 4294967296 := by
    intro a v i hi ha hrest
    unfold entryStores
    rw [runStores_append, load32_of_beside]
    · exact load32_runStores i hi hrest
    · refine myStrcpy_beside ?_
      simp only [Info.name, Info.maxProcessName] at hfit ⊢
      omega
  have hname : ∀ s, p.argv0 = some s →
      Holds (runStores m (entryStores p e)) (e + Info.name) (s.bytes.take s.bytes.length ++ [0]) := by
    intro s hs
    rw [List.take_length, ← name_of_argv0 hs]
    exact entry_name p e m
  refine
    { pid := readInt_of_word (hword 0 rfl (Or.inr ?_) ?_)
      ppid := readInt_of_word (hword 1 rfl (Or.inr ?_) ?_)
      state := (hword 2 rfl (Or.inl ?_) ?_).trans (Nat.mod_eq_of_lt (code_lt _))
      priority := readInt_of_word (hword 5 rfl (Or.inl ?_) ?_)
      ground := readInt_of_word (hword 6 rfl (Or.inl ?_) rfl)
      name := fun s hs => ⟨s.bytes.length, name_of_argv0 hs ▸ hfit, Nat.le_refl _, hname s hs⟩ }
  all_goals
    simp only [entryWords, List.drop_succ_cons, List.drop_zero, List.all_cons, List.all_nil, Store.beside,
      Bool.and_true, Bool.and_eq_true, Bool.or_eq_true, decide_eq_true_eq, Info.pid, Info.ppid,
      Info.state, Info.rsp, Info.stackBase, Info.priority, Info.ground]
    omega

theorem EntryShows.congr {m' : Nat → UInt8} {e : Nat} (h : EntryShows m e p)
    (hm : ∀ x, e ≤ x → x < e + Info.size → m' x = m x) : EntryShows m' e p := by
  have hload : ∀ a, a + 4 ≤ Info.size → load32 m' (e + a) = load32 m (e + a) := by
    intro a ha
    exact load32_congr fun x h1 h2 => hm x (by omega) (by omega)
  have hread : ∀ a, a + 4 ≤ Info.size → readInt m' (e + a) = readInt m (e + a) := by
    intro a ha
    unfold readInt
    rw [hload a ha]
  refine
    { pid := (hread _ (by decide)).trans h.pid
      ppid := (hread _ (by decide)).trans h.ppid
      state := (hload _ (by decide)).trans h.state
      priority := (hread _ (by decide)).trans h.priority
      ground := (hread _ (by decide)).trans h.ground
      name := fun s hs => ?_ }
  obtain ⟨n, hn, hlen, hholds⟩ := h.name s hs
  refine ⟨n, hn, hlen, hholds.congr fun x h1 h2 => ?_⟩
  rw [List.length_append, List.length_take, List.length_singleton] at h2
  simp only [Info.name, Info.maxProcessName] at h1 h2 hn
  exact hm x (by omega) (by simp only [Info.size]; omega)

/-! ## the whole array -/

theorem range_split (hi : i < n) : ∃ l₁ l₂, List.range n = l₁ ++ i :: l₂ ∧ (∀ j ∈ l₁, j < i) ∧
    (∀ j ∈ l₂, i < j) := by
  obtain ⟨l₁, l₂, h⟩ := List.append_of_mem (List.mem_range.mpr hi)
  have hpair := h ▸ List.pairwise_lt_range (n := n)
  obtain ⟨-, hcons, hcross⟩ := List.pairwise_append.mp hpair
  exact ⟨l₁, l₂, h, fun j hj => hcross j hj i List.mem_cons_self, (List.pairwise_cons.mp hcons).1⟩

/-- the stores of the slot `i`, and what is stored before and after them -/
theorem ps_at (table : Nat → Option PsRecord) (info : Nat) (m : Nat → UInt8) (hi : i < psSlots) :
    ∃ m₁ post, runStores m (psStores table info) = runStores (runStores m₁ (slotStores table info i)) post ∧
      (∀ x n, x + n ≤ info + Info.size * (i + 1) → post.all (Store.beside x n) = true) ∧
      ((∀ j < i, ∀ p, listed table j = some p → p.name.length < Info.maxProcessName) →
        readInt m₁ (info + Info.size * i + Info.pid) = -1) := by
  obtain ⟨l₁, l₂, hl, hbefore, hbehind⟩ := range_split hi
  unfold psStores
  rw [hl, List.map_append, List.map_cons, List.flatMap_append, List.flatMap_cons, runStores_append,
    runStores_append, runStores_append]
  refine ⟨_, _, rfl, fun x n hx => slots_beside fun j hj => slot_above ?_, fun hfit => ?_⟩
  · have hij := hbehind j hj
    calc x + n ≤ info + Info.size * (i + 1) := hx
      _ ≤ info + Info.size * j := Nat.add_le_add_left (Nat.mul_le_mul_left _ hij) info
  · apply readInt_of_word
    rw [load32_of_beside (slots_beside fun j hj => slot_below (hfit j (hbefore j hj)) ?_),
      runStores_append]
    · show load32 (runStores (store32 (runStores m _) _ _) _) _ = _
      rw [load32_of_beside, load32_store32]
      rw [List.all_eq_true]
      intro s hs
      obtain ⟨j, hj, rfl⟩ := List.mem_map.mp hs
      have hij := hbehind j hj
      simp only [Store.beside, Bool.or_eq_true, decide_eq_true_eq, Info.pid, Info.size]
      omega
    · have hij := hbefore j hj
      simp only [Info.pid, Info.size]
      omega

theorem name_lt {p : PsRecord} (h : ∀ s, p.argv0 = some s → s.bytes.length < Info.maxProcessName) :
    p.name.length < Info.maxProcessName := by
  unfold PsRecord.name
  cases hs : p.argv0 with
  | none => decide
  | some s => exact h s hs

theorem firstLoop_inside (info : Nat) :
    ((List.range psSlots).map fun i => Store.word (info + Info.size * i + Info.pid) (intWord (-1))).all
      (Store.inside info (Info.size * psSlots)) = true := by
  rw [List.all_eq_true]
  intro s hs
  obtain ⟨j, hj, rfl⟩ := List.mem_map.mp hs
  have hlt := List.mem_range.mp hj
  simp only [psSlots] at hlt
  simp only [Store.inside, Bool.and_eq_true, decide_eq_true_eq, Info.pid, Info.size, psSlots]
  exact ⟨by omega, decide_eq_true (by omega)⟩

theorem snapshot_of_fit (table : Nat → Option PsRecord) (info : Nat) (m : Nat → UInt8)
    (hfit : ∀ i < psSlots, ∀ p, listed table i = some p → p.name.length < Info.maxProcessName) :
    Snapshot table info (runStores m (psStores table info)) (psStores table info) := by
  refine ⟨fun i hi => ?_, ?_⟩
  · obtain ⟨m₁, post, hrun, hpost, hfirst⟩ := ps_at table info m hi
    have hlast : ∀ x, info + Info.size * i ≤ x → x < info + Info.size * i + Info.size →
        runStores m (psStores table info) x = runStores m₁ (slotStores table info i) x := by
      intro x h1 h2
      rw [hrun]
      exact runStores_of_beside (hpost x 1 (by simp only [Info.size] at h2 ⊢; omega)) (Nat.le_refl x)
        (Nat.lt_succ_self x)
    constructor
    · intro hnone
      have hslot : slotStores table info i = [] := by
        unfold slotStores
        rw [hnone]
      rw [hslot] at hlast
      have hload : load32 (runStores m (psStores table info)) (info + Info.size * i + Info.pid) =
          load32 m₁ (info + Info.size * i + Info.pid) :=
        load32_congr fun x h1 h2 => hlast x h1 (by simp only [Info.size, Info.pid] at h2 ⊢; omega)
      have hpid := hfirst fun j hj => hfit j (Nat.lt_trans hj hi)
      unfold readInt at hpid ⊢
      rw [hload]
      exact hpid
    · intro p hp
      have hslot : slotStores table info i = entryStores p (info + Info.size * i) := by
        unfold slotStores
        rw [hp]
      rw [hslot] at hlast
      exact (entry_shows p _ m₁ (hfit i hi p hp)).congr hlast
  · unfold psStores
    rw [List.all_append, firstLoop_inside, Bool.true_and, List.all_eq_true]
    intro s hs
    obtain ⟨j, hj, hs⟩ := List.mem_flatMap.mp hs
    have hlt := List.mem_range.mp hj
    exact List.all_eq_true.mp (slot_inside hlt (hfit j hlt)) s hs

/-- a name of 32 characters or more leaves no zero in its field -/
theorem fit_of_shows (table : Nat → Option PsRecord) (info : Nat) (m : Nat → UInt8) (hi : i < psSlots)
    (hp : listed table i = some p)
    (hshow : EntryShows (runStores m (psStores table info)) (info + Info.size * i) p) {s : Libc.CString}
    (hs : p.argv0 = some s) : s.bytes.length < Info.maxProcessName := by
  obtain ⟨m₁, post, hrun, hpost, -⟩ := ps_at table info m hi
  obtain ⟨n, hn, hlen, hholds⟩ := hshow.name s hs
  by_contra hlong
  have hlt : n < s.bytes.length := Nat.lt_of_lt_of_le hn (Nat.le_of_not_lt hlong)
  have hslot : slotStores table info i = entryStores p (info + Info.size * i) := by
    unfold slotStores
    rw [hp]
  have hzero : runStores m (psStores table info) (info + Info.size * i + Info.name + n) = 0 := by
    refine hholds n 0 ?_
    rw [List.getElem?_append_right (by rw [List.length_take]; omega), List.length_take,
      Nat.min_eq_left hlen, Nat.sub_self]
    rfl
  have hchar : runStores m₁ (entryStores p (info + Info.size * i)) (info + Info.size * i + Info.name + n)
      = s.bytes[n] := by
    refine entry_name p _ m₁ n _ ?_
    rw [name_of_argv0 hs, List.getElem?_append_left hlt, List.getElem?_eq_getElem hlt]
  rw [hrun, hslot, runStores_of_beside (hpost _ 1 ?_) (Nat.le_refl _) (Nat.lt_succ_self _), hchar] at hzero
  · exact s.noNul (hzero ▸ List.getElem_mem hlt)
  · simp only [Info.size, Info.name, Info.maxProcessName] at hn ⊢
    omega

theorem ps_run (table : Nat → Option PsRecord) (info : Nat) (m : Nat → UInt8) :
    (ps table (some info) m).2 = runStores m (psStores table info) := by
  unfold ps
  dsimp only

/-- **When `ps` returns a faithful snapshot**: exactly when the name of every process that it lists is
shorter than `MAX_PROCESS_NAME`. -/
theorem ps_faithful_iff (table : Nat → Option PsRecord) (info : Nat) (m : Nat → UInt8) :
    Snapshot table info (ps table (some info) m).2 (psStores table info) ↔
      ∀ i < psSlots, ∀ p, listed table i = some p → ∀ s, p.argv0 = some s →
        s.bytes.length < Info.maxProcessName := by
  rw [ps_run]
  constructor
  · intro h i hi p hp s hs
    exact fit_of_shows table info m hi hp ((h.1 i hi).2 p hp) hs
  · intro h
    exact snapshot_of_fit table info m fun i hi p hp => name_lt (h i hi p hp)

/-- the process 1, READY, with a name of 32 times `a`, and no other -/
def longNamed (i : Nat) : Option PsRecord :=
  if i = 1 then
    some ⟨1, 0, .ready, 0, 0, 0, 1, 1, some (some ⟨List.replicate 32 97, by decide⟩)⟩
  else none

/-- the terminating zero falls into the field `state` -/
theorem ps_longNamed : ¬ Snapshot longNamed 0 (ps longNamed (some 0) fun _ => 0).2 (psStores longNamed 0) := by
  rw [ps_run]
  intro h
  have hi : 1 < psSlots := by decide
  have hlt := fit_of_shows longNamed 0 _ hi rfl ((h.1 1 hi).2 _ rfl) rfl
  exact absurd hlt (by decide)

end

end Tp2So
