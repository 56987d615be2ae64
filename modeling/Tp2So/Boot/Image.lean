import Tp2So.Kernel.Modules

/-!
# What the packer writes, the loader reads back

* `writeFile_eq`     copying a file in buffers appends its bytes;
* `packed`           a module in the image: its size and its bytes;
* `buildImage_eq`    the kernel, the count, the packed modules;
* `memcpy_eq`        both loops of `memcpy` copy, between regions that do not overlap;
* `loadLoop_spec`    the loop of the loader, by induction on the modules that are left;
* `image_round_trip` the loader, run on what follows the kernel, puts each module in its place.
-/

set_option linter.unusedVariables false

namespace Tp2So

/-! ## the packer -/

section
variable {target file kernel : List UInt8} {files modules : List (List UInt8)}

/-- the loop from a place in the file at which the flag is not set -/
theorem writeFileLoop_eq (fuel : Nat) : ∀ {target contents : List UInt8} {pos : Nat},
    pos ≤ contents.length → (contents.length - pos) / 128 + 2 ≤ fuel →
    writeFileLoop fuel target ⟨contents, pos, false⟩ = some (target ++ contents.drop pos) := by
  induction fuel with
  | zero =>
    intro target contents pos hpos hfuel
    omega
  | succ fuel ih =>
    intro target contents pos hpos hfuel
    have hlen : ((contents.drop pos).take 128).length = min 128 (contents.length - pos) := by
      rw [List.length_take, List.length_drop]
    have hstep : writeFileLoop (fuel + 1) target ⟨contents, pos, false⟩
        = writeFileLoop fuel (target ++ (contents.drop pos).take 128)
          ⟨contents, pos + ((contents.drop pos).take 128).length,
            decide (((contents.drop pos).take 128).length < 128)⟩ := rfl
    rw [hstep, hlen]
    by_cases hshort : contents.length - pos < 128
    · -- the rest fits into the buffer: the flag is set and the next turn is the last
      obtain ⟨fuel, rfl⟩ : ∃ n, fuel = n + 1 := ⟨fuel - 1, by omega⟩
      rw [decide_eq_true (by omega), List.take_of_length_le (by rw [List.length_drop]; omega)]
      rfl
    · rw [decide_eq_false (by omega), Nat.min_eq_left (by omega), ih (by omega) (by omega),
        List.append_assoc, ← List.drop_drop, List.take_append_drop]

/-- **`write_file`** -/
theorem writeFile_eq (target file : List UInt8) :
    writeFile target (fopen file) = some (target ++ file) := by
  have h : writeFile target (fopen file)
      = writeFileLoop (file.length / 128 + 2) target ⟨file, 0, false⟩ := rfl
  rw [h, writeFileLoop_eq _ (Nat.zero_le _) (by omega)]
  rfl

/-- a module in the image -/
def packed (file : List UInt8) : List UInt8 := le32 file.length ++ file

theorem packed_length (file : List UInt8) : (packed file).length = 4 + file.length := by
  unfold packed
  rw [List.length_append, le32_length]

theorem writeModules_eq (hsize : ∀ f ∈ files, f.length < 4294967296) :
    writeModules target files = some (target ++ files.flatMap packed) := by
  induction files generalizing target with
  | nil =>
    rw [List.flatMap_nil, List.append_nil]
    rfl
  | cons f files ih =>
    have hf : f.length % 4294967296 = f.length := Nat.mod_eq_of_lt (hsize f List.mem_cons_self)
    have hstep : writeModules target (f :: files)
        = (writeFile (writeSize target f) (fopen f)).bind fun t => writeModules t files := rfl
    rw [hstep, writeFile_eq, Option.bind_some, ih fun g hg => hsize g (List.mem_cons_of_mem _ hg)]
    unfold writeSize
    rw [hf, List.flatMap_cons]
    unfold packed
    rw [List.append_assoc, List.append_assoc, List.append_assoc]

/-- what follows the kernel in the image -/
def payload (modules : List (List UInt8)) : List UInt8 :=
  le32 modules.length ++ modules.flatMap packed

/-- **`buildImage`** -/
theorem buildImage_eq (hsize : ∀ f ∈ modules, f.length < 4294967296)
    (hcount : modules.length < 4294967296) :
    buildImage kernel modules = some (kernel ++ payload modules) := by
  unfold buildImage payload
  rw [writeFile_eq, List.nil_append, Option.bind_some]
  show writeModules (kernel ++ le32 (modules.length % 4294967296)) modules = _
  rw [Nat.mod_eq_of_lt hcount, writeModules_eq hsize, List.append_assoc]

end

/-! ## `memcpy` -/

section
variable {d s n i : Nat} {b : Bus} {m : Nat → UInt8}

theorem copyBytes_eq (k : Nat) : ∀ {i : Nat} (reads : List Nat), i + k = n → Clear d n s n →
    copyBytes d s k i ⟨copied m d s i, reads⟩
      = ⟨copied m d s n, reads ++ List.range' (s + i) k⟩ := by
  induction k with
  | zero =>
    intro i reads hi hc
    have hn : i = n := hi
    rw [hn, List.range'_zero, List.append_nil]
    rfl
  | succ k ih =>
    intro i reads hi hc
    have hstep : copyBytes d s (k + 1) i ⟨copied m d s i, reads⟩
        = copyBytes d s k (i + 1)
          ⟨Function.update (copied m d s i) (d + i) (copied m d s i (s + i)), reads ++ [s + i]⟩ := rfl
    rw [hstep, copied_byte hc (by omega), ih _ (by omega) hc, List.append_assoc, List.range'_succ]
    rfl

theorem copyWords_eq (k : Nat) : ∀ {i : Nat} (reads : List Nat), 4 * (i + k) = n → Clear d n s n →
    copyWords d s k i ⟨copied m d s (4 * i), reads⟩
      = ⟨copied m d s n, reads ++ List.range' (s + 4 * i) (4 * k)⟩ := by
  induction k with
  | zero =>
    intro i reads hi hc
    have hn : 4 * i = n := hi
    rw [hn, Nat.mul_zero, List.range'_zero, List.append_nil]
    rfl
  | succ k ih =>
    intro i reads hi hc
    have hstep : copyWords d s (k + 1) i ⟨copied m d s (4 * i), reads⟩
        = copyWords d s k (i + 1)
          ⟨store32 (copied m d s (4 * i)) (d + 4 * i) (load32 (copied m d s (4 * i)) (s + 4 * i)),
            reads ++ List.range' (s + 4 * i) 4⟩ := rfl
    rw [hstep, copied_word hc (by omega), ih _ (by omega) hc, List.append_assoc,
      show s + 4 * (i + 1) = s + 4 * i + 4 by omega, List.range'_append_1,
      show 4 + 4 * k = 4 * (k + 1) by omega]

/-- **`memcpy`** between regions that do not overlap -/
theorem memcpy_eq (hc : Clear d n s n) (b : Bus) :
    memcpy d s n b = ⟨copied b.mem d s n, b.reads ++ List.range' s n⟩ := by
  have hb : b = ⟨copied b.mem d s 0, b.reads⟩ := by rw [copied_zero]
  unfold memcpy
  by_cases hal : d % 4 = 0 ∧ s % 4 = 0 ∧ n % 4 = 0
  · rw [if_pos hal]
    have hn : 4 * (n / 4) = n := by omega
    have h := copyWords_eq (d := d) (s := s) (m := b.mem) (n / 4) (i := 0) b.reads (by omega)
      hc
    rw [Nat.mul_zero, Nat.add_zero, hn, ← hb] at h
    exact h
  · rw [if_neg hal]
    have h := copyBytes_eq (d := d) (s := s) (m := b.mem) n (i := 0) b.reads (by omega) hc
    rw [Nat.add_zero, ← hb] at h
    exact h

end

/-! ## the loader -/

section
variable {T : Nat → Nat} {start : Nat} {b : Bus} {kernel f : List UInt8}
  {files modules : List (List UInt8)}

theorem loadModule_eq {cur target : Nat} (hf : f.length < 4294967296)
    (hheld : Holds b.mem cur (packed f)) (hc : Clear target f.length cur (packed f).length) :
    loadModule cur target b = (cur + (packed f).length,
      ⟨copied b.mem target (cur + 4) f.length, b.reads ++ List.range' cur (packed f).length⟩) := by
  obtain ⟨hword, -⟩ := holds_append.mp hheld
  have hsize : load32 b.mem cur = f.length := load32_of_holds hword hf
  rw [packed_length] at hc ⊢
  have hclear : Clear target f.length (cur + 4) f.length := by
    unfold Clear at hc ⊢
    omega
  have hstep : loadModule cur target b = (cur + 4 + load32 b.mem cur,
      memcpy target (cur + 4) (load32 b.mem cur) ⟨b.mem, b.reads ++ List.range' cur 4⟩) := rfl
  rw [hstep, hsize, memcpy_eq hclear, List.append_assoc, List.range'_append_1, Nat.add_assoc]

/-- `x` is in none of the places of the modules `files`, the first of which is number `i` -/
def Outside (T : Nat → Nat) (files : List (List UInt8)) (i x : Nat) : Prop :=
  ∀ j f, files[j]? = some f → x < T (i + j) ∨ T (i + j) + f.length ≤ x

/-- **The loop of the loader**, by induction on the modules that are left. -/
theorem loadLoop_spec (files : List (List UInt8)) : ∀ {i cur : Nat} {b : Bus},
    (∀ f ∈ files, f.length < 4294967296) → Holds b.mem cur (files.flatMap packed) →
    (∀ j f, files[j]? = some f → Clear (T (i + j)) f.length cur (files.flatMap packed).length) →
    (∀ j k f g, files[j]? = some f → files[k]? = some g → j ≠ k →
      Clear (T (i + j)) f.length (T (i + k)) g.length) →
    ∃ b', loadLoop T files.length i cur b = (cur + (files.flatMap packed).length, b') ∧
      b'.reads = b.reads ++ List.range' cur (files.flatMap packed).length ∧
      (∀ j f, files[j]? = some f → Holds b'.mem (T (i + j)) f) ∧
      ∀ x, Outside T files i x → b'.mem x = b.mem x := by
  induction files with
  | nil =>
    intro i cur b _ _ _ _
    refine ⟨b, rfl, (List.append_nil _).symm, fun j f hj => absurd hj (by simp), fun x _ => rfl⟩
  | cons f files ih =>
    intro i cur b hsize hheld hclear hdis
    rw [List.flatMap_cons] at hheld hclear ⊢
    obtain ⟨hfirst, hrest⟩ := holds_append.mp hheld
    have hlen : (packed f ++ files.flatMap packed).length
        = (packed f).length + (files.flatMap packed).length := List.length_append
    have hc0 := hclear 0 f rfl
    rw [hlen, Nat.add_zero] at hc0
    have hload := loadModule_eq (hsize f List.mem_cons_self) hfirst
      (show Clear (T i) f.length cur (packed f).length by unfold Clear at hc0 ⊢; omega)
    -- the rest of the payload and the places of the other modules are not touched
    have hrest' : Holds (copied b.mem (T i) (cur + 4) f.length) (cur + (packed f).length)
        (files.flatMap packed) := by
      apply hrest.congr
      intro x h1 h2
      apply copied_else
      unfold Clear at hc0
      omega
    obtain ⟨b', hrun, hreads, hplaces, helse⟩ := ih (i := i + 1)
      (b := ⟨copied b.mem (T i) (cur + 4) f.length, b.reads ++ List.range' cur (packed f).length⟩)
      (fun g hg => hsize g (List.mem_cons_of_mem _ hg)) hrest'
      (fun j g hg => by
        have h := hclear (j + 1) g hg
        rw [hlen, show i + (j + 1) = i + 1 + j by omega] at h
        unfold Clear at h ⊢
        omega)
      (fun j k g g' hg hg' hne => by
        have h := hdis (j + 1) (k + 1) g g' hg hg' (by omega)
        rw [show i + (j + 1) = i + 1 + j by omega, show i + (k + 1) = i + 1 + k by omega] at h
        exact h)
    refine ⟨b', ?_, ?_, fun j g hg => ?_, fun x hx => ?_⟩
    · have hstep : loadLoop T (f :: files).length i cur b
          = loadLoop T files.length (i + 1) (loadModule cur (T i) b).1 (loadModule cur (T i) b).2 := rfl
      rw [hstep, hload, hrun, hlen, Nat.add_assoc]
    · rw [hreads, hlen, List.append_assoc, List.range'_append_1]
    · cases j with
      | zero =>
        obtain rfl := Option.some.inj hg
        have hcopy := (holds_append.mp hfirst).2.copied (d := T i)
        refine hcopy.congr fun x h1 h2 => helse x fun k g' hg' => ?_
        have h := hdis 0 (k + 1) f g' rfl hg' (by omega)
        rw [Nat.add_zero, show i + (k + 1) = i + 1 + k by omega] at h
        unfold Clear at h
        have h1' : T i ≤ x := h1
        omega
      | succ j =>
        have h := hplaces j g hg
        rw [show i + 1 + j = i + (j + 1) by omega] at h
        exact h
    · have h0 := hx 0 f rfl
      rw [Nat.add_zero] at h0
      rw [helse x fun k g' hg' => by
        have h := hx (k + 1) g' hg'
        rw [show i + (k + 1) = i + 1 + k by omega] at h
        exact h]
      exact copied_else h0

/-- **Round trip.**  The image that `buildImage` writes is the kernel followed by a payload.  The
loader, started on that payload anywhere in memory, copies the bytes of each module to its target,
writes nothing else, and reads the bytes of the payload, each once and in order. -/
theorem image_round_trip (kernel : List UInt8) (modules : List (List UInt8))
    (hsize : ∀ f ∈ modules, f.length < 4294967296) (hcount : modules.length < 2147483648) :
    ∃ image, buildImage kernel modules = some image ∧ image.take kernel.length = kernel ∧
      ∀ (m : Nat → UInt8) (start : Nat) (targets : Nat → Nat),
        Holds m start (image.drop kernel.length) →
        (∀ j f, modules[j]? = some f →
          Clear (targets j) f.length start (image.drop kernel.length).length) →
        (∀ j k f g, modules[j]? = some f → modules[k]? = some g → j ≠ k →
          Clear (targets j) f.length (targets k) g.length) →
        let b := (loadModules start targets ⟨m, []⟩).2
        (∀ j f, modules[j]? = some f → Holds b.mem (targets j) f) ∧
          (∀ x, Outside targets modules 0 x → b.mem x = m x) ∧
          b.reads = List.range' start (image.drop kernel.length).length := by
  refine ⟨kernel ++ payload modules, buildImage_eq hsize (by omega), List.take_left, ?_⟩
  intro m start targets hheld hclear hdis
  rw [List.drop_left] at hheld hclear ⊢
  unfold payload at hheld hclear ⊢
  obtain ⟨hword, hrest⟩ := holds_append.mp hheld
  rw [le32_length] at hrest
  have hlen : (le32 modules.length ++ modules.flatMap packed).length
      = 4 + (modules.flatMap packed).length := by rw [List.length_append, le32_length]
  rw [hlen] at hclear ⊢
  have hn : load32 m start = modules.length := load32_of_holds hword (by omega)
  obtain ⟨b', hrun, hreads, hplaces, helse⟩ := loadLoop_spec (T := targets) modules (i := 0)
    (b := ⟨m, List.range' start 4⟩) hsize hrest
    (fun j f hj => by
      have h := hclear j f hj
      rw [Nat.zero_add]
      unfold Clear at h ⊢
      omega)
    (fun j k f g hj hk hne => by
      rw [Nat.zero_add, Nat.zero_add]
      exact hdis j k f g hj hk hne)
  have hstep : loadModules start targets ⟨m, []⟩
      = loadLoop targets (load32 m start) 0 (start + 4) ⟨m, List.range' start 4⟩ := rfl
  rw [hstep, hn, hrun]
  refine ⟨fun j f hj => ?_, helse, ?_⟩
  · have h := hplaces j f hj
    rw [Nat.zero_add] at h
    exact h
  · rw [← List.range'_append_1]
    exact hreads

/-- two modules, the first of them copied by words -/
theorem image_round_trip_two : ∃ image, buildImage [9] [[1, 2, 3, 4], [5, 6, 7]] = some image ∧
    let b := (loadModules 100 (fun i => 200 + 100 * i)
      ⟨fun a => (image.drop 1).getD (a - 100) 0, []⟩).2
    Holds b.mem 200 [1, 2, 3, 4] ∧ Holds b.mem 300 [5, 6, 7] ∧ b.reads = List.range' 100 19 := by
  obtain ⟨image, himage, -, hload⟩ := image_round_trip [9] [[1, 2, 3, 4], [5, 6, 7]]
    (by decide) (by decide)
  have hbytes : buildImage [9] [[1, 2, 3, 4], [5, 6, 7]]
      = some [9, 2, 0, 0, 0, 4, 0, 0, 0, 1, 2, 3, 4, 3, 0, 0, 0, 5, 6, 7] := by decide
  obtain rfl := Option.some.inj (himage.symm.trans hbytes)
  have htwo : ∀ {j : Nat} {f : List UInt8}, [[1, 2, 3, 4], [5, 6, 7]][j]? = some f →
      (j = 0 ∧ f.length = 4) ∨ (j = 1 ∧ f.length = 3) := by
    intro j f hj
    match j, hj with
    | 0, hj => exact Or.inl ⟨rfl, congrArg List.length (Option.some.inj hj).symm⟩
    | 1, hj => exact Or.inr ⟨rfl, congrArg List.length (Option.some.inj hj).symm⟩
  obtain ⟨hplaces, -, hreads⟩ := hload
    (fun a => [2, 0, 0, 0, 4, 0, 0, 0, 1, 2, 3, 4, 3, 0, 0, 0, 5, 6, 7].getD (a - 100) 0) 100
    (fun i => 200 + 100 * i)
    (fun i b hb => by
      show List.getD _ (100 + i - 100) 0 = b
      rw [Nat.add_sub_cancel_left, List.getD_eq_getElem?_getD]
      exact congrArg (Option.getD · 0) hb)
    (fun j f hj => by
      show Clear (200 + 100 * j) f.length 100 19
      rcases htwo hj with ⟨rfl, hf⟩ | ⟨rfl, hf⟩
      · exact Or.inr (Or.inr (Or.inr (by decide)))
      · exact Or.inr (Or.inr (Or.inr (by decide))))
    (fun j k f g hj hk hne => by
      show Clear (200 + 100 * j) f.length (200 + 100 * k) g.length
      unfold Clear
      rcases htwo hj with ⟨rfl, hf⟩ | ⟨rfl, hf⟩ <;> rcases htwo hk with ⟨rfl, hg⟩ | ⟨rfl, hg⟩ <;> omega)
  exact ⟨_, himage, hplaces 0 _ rfl, hplaces 1 _ rfl, hreads⟩

end

end Tp2So
