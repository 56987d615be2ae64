import Tp2So.Lib.Links
import Tp2So.Queue.Pointers

/-!
# The chain behind a queue

An `Entry` is a node with its data block and the value in it.  `Chain m c es` says that the record
`c` describes the entries `es`: `head` leads through their nodes to `NULL`, no node and no data block
stands twice, `tail` is the last node and `elemCount` their number.

`Holds own m h c es cmp q` says that the queue at `h` is the list queue `q`, and that each block of it is
its own (`own`); `Moves own own' m m' h` that only blocks of the queue at `h` and fresh ones changed.

* `Chain.append`, `Chain.remove`   a node is linked in behind the last one, a node is taken out;
* `Holds.congr`, `Holds.frame`     what happens elsewhere does not matter;
* `Becomes`                        a heap in which the queue at `h` has become another list queue.
-/

namespace Tp2So.Pointers

structure Entry (α : Type) where
  node : Nat
  block : Nat
  value : α

section
variable {α : Type}

/-- the pointer behind `p->next` -/
def Blocks.succ (m : Blocks α) (p : Option Nat) : Option Nat :=
  p.bind fun a => (m.nodeAt a).bind Node.next

structure Chain (m : Blocks α) (c : QueueCDT α) (es : List (Entry α)) : Prop where
  node : ∀ e ∈ es, ∃ next, m e.node = some (.node ⟨next, e.block⟩)
  data : ∀ e ∈ es, m e.block = some (.data e.value)
  linked : Seg m.succ c.head (es.map fun e => some e.node) none
  nodes : (es.map Entry.node).Nodup
  blocks : (es.map Entry.block).Nodup
  tail : c.tail = es.getLast?.map Entry.node
  count : c.elemCount = es.length

structure Holds (own : Nat → Option Nat) (m : Blocks α) (h : Nat) (c : QueueCDT α)
    (es : List (Entry α)) (cmp : α → α → Bool) (q : Queue α) : Prop where
  record : m h = some (.cdt c)
  owned : own h = some h
  entries : ∀ e ∈ es, own e.node = some h ∧ own e.block = some h
  chain : Chain m c es
  cmp : c.cmp = some cmp
  elems : q.elems = es.map Entry.value
  cursor : c.cyclicIter = q.cyclicIter.bind fun i => es[i]?.map Entry.node
  inside : ∀ i, q.cyclicIter = some i → i < es.length

structure Moves (own own' : Nat → Option Nat) (m m' : Blocks α) (h : Nat) : Prop where
  blocks : ∀ a, own a ≠ some h → m a ≠ none → m' a = m a
  owners : ∀ a, own a ≠ some h → m a ≠ none → own' a = own a

/-! ## reading and writing blocks -/

@[simp] theorem store_self (m : Blocks α) (p : Nat) (b : Block α) : m.store p b p = some b :=
  Function.update_self ..

theorem store_of_ne {m : Blocks α} {p a : Nat} {b : Block α} (h : a ≠ p) : m.store p b a = m a :=
  Function.update_of_ne h ..

theorem mmFree_eq {m : Blocks α} {p : Nat} {b : Block α} (h : m p = some b) :
    m.mmFree p = some (Function.update m p none) := by
  unfold Blocks.mmFree
  rw [h]
  rfl

/-- a fresh block that is freed again leaves the heap as it was -/
theorem mmFree_store {m : Blocks α} {p : Nat} {b : Block α} (h : m p = none) :
    (m.store p b).mmFree p = some m := by
  rw [mmFree_eq (store_self m p b)]
  unfold Blocks.store
  rw [Function.update_idem, ← h, Function.update_eq_self]

theorem cdtAt_eq {m : Blocks α} {p : Nat} {c : QueueCDT α} (h : m p = some (.cdt c)) :
    m.cdtAt p = some c := by
  unfold Blocks.cdtAt
  rw [h]

theorem nodeAt_eq {m : Blocks α} {p : Nat} {n : Node} (h : m p = some (.node n)) :
    m.nodeAt p = some n := by
  unfold Blocks.nodeAt
  rw [h]

theorem dataAt_eq {m : Blocks α} {p : Nat} {x : α} (h : m p = some (.data x)) :
    m.dataAt p = some x := by
  unfold Blocks.dataAt
  rw [h]

theorem succ_eq {m : Blocks α} {p : Nat} {n : Node} (h : m p = some (.node n)) :
    m.succ (some p) = n.next := by
  show (m.nodeAt p).bind Node.next = n.next
  rw [nodeAt_eq h]
  rfl

theorem succ_congr {m m' : Blocks α} {p : Nat} (h : m' p = m p) : m'.succ (some p) = m.succ (some p) := by
  show (m'.nodeAt p).bind Node.next = (m.nodeAt p).bind Node.next
  unfold Blocks.nodeAt
  rw [h]

/-! ## the chain -/

section
variable {m m' : Blocks α} {c c' : QueueCDT α} {es l₁ l₂ : List (Entry α)} {e : Entry α}

theorem Chain.congr (h : Chain m c es)
    (hm : ∀ e ∈ es, m' e.node = m e.node ∧ m' e.block = m e.block) : Chain m' c es where
  node e he := by
    obtain ⟨next, hn⟩ := h.node e he
    exact ⟨next, (hm e he).1.trans hn⟩
  data e he := (hm e he).2.trans (h.data e he)
  linked := by
    refine h.linked.congr fun x hx => ?_
    obtain ⟨e, he, rfl⟩ := List.mem_map.mp hx
    exact succ_congr (hm e he).1
  nodes := h.nodes
  blocks := h.blocks
  tail := h.tail
  count := h.count

theorem seg_head {p : Option Nat} (h : Seg m.succ p (es.map fun e => some e.node) none) :
    p = es.head?.map Entry.node := by
  rw [h.start]
  cases es <;> rfl

theorem Chain.head (h : Chain m c es) : c.head = es.head?.map Entry.node := seg_head h.linked

theorem Chain.node_middle (h : Chain m c (l₁ ++ e :: l₂)) :
    m e.node = some (.node ⟨l₂.head?.map Entry.node, e.block⟩) := by
  obtain ⟨next, hn⟩ := h.node e (List.mem_append_right l₁ List.mem_cons_self)
  have hlinked := h.linked
  rw [List.map_append, List.map_cons, seg_middle] at hlinked
  rw [hn, ← seg_head hlinked.2, succ_eq hn]

theorem Chain.node_at (h : Chain m c es) {i : Nat} (hi : es[i]? = some e) :
    m e.node = some (.node ⟨es[i + 1]?.map Entry.node, e.block⟩) := by
  obtain ⟨hlt, rfl⟩ := List.getElem?_eq_some_iff.mp hi
  have hsplit : es = es.take i ++ es[i] :: es.drop (i + 1) := by
    rw [← List.drop_eq_getElem_cons hlt, List.take_append_drop]
  have hmid := Chain.node_middle (hsplit ▸ h)
  rwa [List.head?_drop] at hmid

theorem Chain.head_ne (h : Chain m c es) : c.head = none ↔ es = [] := by
  rw [h.head, Option.map_eq_none_iff, List.head?_eq_none_iff]

theorem Chain.node_inj (h : Chain m c es) {i j : Nat} {a : Nat}
    (hi : es[i]?.map Entry.node = some a) (hj : es[j]?.map Entry.node = some a) : i = j := by
  rw [← List.getElem?_map] at hi hj
  obtain ⟨hli, hi⟩ := List.getElem?_eq_some_iff.mp hi
  obtain ⟨hlj, hj⟩ := List.getElem?_eq_some_iff.mp hj
  exact (h.nodes.getElem_inj_iff).mp (hi.trans hj.symm)

theorem Chain.node_notMem (hc : Chain m c (l₁ ++ e :: l₂)) :
    ∀ f ∈ l₁ ++ l₂, f.node ≠ e.node := by
  have hnodes := hc.nodes
  rw [List.map_append, List.map_cons, List.nodup_middle, List.nodup_cons, ← List.map_append] at hnodes
  intro f hf heq
  exact hnodes.1 (heq ▸ List.mem_map_of_mem hf)

theorem Chain.block_notMem (hc : Chain m c (l₁ ++ e :: l₂)) :
    ∀ f ∈ l₁ ++ l₂, f.block ≠ e.block := by
  have hblocks := hc.blocks
  rw [List.map_append, List.map_cons, List.nodup_middle, List.nodup_cons, ← List.map_append] at hblocks
  intro f hf heq
  exact hblocks.1 (heq ▸ List.mem_map_of_mem hf)

theorem Chain.append {l : List (Entry α)} {t : Entry α} (hc : Chain m c (l ++ [t]))
    (ht : m' t.node = some (.node ⟨some e.node, t.block⟩))
    (he : m' e.node = some (.node ⟨none, e.block⟩)) (hd : m' e.block = some (.data e.value))
    (hl : ∀ f ∈ l, m' f.node = m f.node) (hb : ∀ f ∈ l ++ [t], m' f.block = m f.block)
    (hn : m e.node = none) (hf : m e.block = none) (hhead : c'.head = c.head)
    (htail : c'.tail = some e.node) (hcount : c'.elemCount = c.elemCount + 1) :
    Chain m' c' (l ++ [t] ++ [e]) where
  node f hmem := by
    rcases List.mem_append.mp hmem with hmem | hmem
    · rcases List.mem_append.mp hmem with hfl | hft
      · obtain ⟨next, hnext⟩ := hc.node f hmem
        exact ⟨next, (hl f hfl).trans hnext⟩
      · rw [List.mem_singleton.mp hft]
        exact ⟨_, ht⟩
    · rw [List.mem_singleton.mp hmem]
      exact ⟨_, he⟩
  data f hmem := by
    rcases List.mem_append.mp hmem with hmem | hmem
    · exact (hb f hmem).trans (hc.data f hmem)
    · rw [List.mem_singleton.mp hmem]
      exact hd
  linked := by
    have hlinked := hc.linked
    rw [List.map_append, List.map_cons, seg_middle] at hlinked
    rw [hhead, List.append_assoc, List.map_append, List.singleton_append, List.map_cons, seg_middle]
    refine ⟨hlinked.1.congr fun x hx => ?_, ?_⟩
    · obtain ⟨f, hfl, rfl⟩ := List.mem_map.mp hx
      exact succ_congr (hl f hfl)
    · exact ⟨succ_eq ht, succ_eq he⟩
  nodes := by
    rw [List.map_append, List.nodup_append]
    refine ⟨hc.nodes, List.nodup_singleton _, fun a ha b hb hab => ?_⟩
    obtain ⟨f, hfl, rfl⟩ := List.mem_map.mp ha
    obtain ⟨next, hnext⟩ := hc.node f hfl
    rw [hab, List.mem_singleton.mp hb, hn] at hnext
    cases hnext
  blocks := by
    rw [List.map_append, List.nodup_append]
    refine ⟨hc.blocks, List.nodup_singleton _, fun a ha b hb hab => ?_⟩
    obtain ⟨f, hfl, rfl⟩ := List.mem_map.mp ha
    have hval := hc.data f hfl
    rw [hab, List.mem_singleton.mp hb, hf] at hval
    cases hval
  tail := by rw [htail, List.getLast?_concat, Option.map_some]
  count := by
    rw [hcount, hc.count]
    simp only [List.length_append, List.length_singleton]

theorem Chain.remove (hc : Chain m c (l₁ ++ e :: l₂))
    (hprev : ∀ t, l₁.getLast? = some t →
      m' t.node = some (.node ⟨l₂.head?.map Entry.node, t.block⟩))
    (hn : ∀ f ∈ l₁ ++ l₂, some f.node ≠ l₁.getLast?.map Entry.node → m' f.node = m f.node)
    (hb : ∀ f ∈ l₁ ++ l₂, m' f.block = m f.block)
    (hhead : c'.head = (l₁ ++ l₂).head?.map Entry.node)
    (htail : c'.tail = (l₁ ++ l₂).getLast?.map Entry.node) (hcount : c'.elemCount = c.elemCount - 1) :
    Chain m' c' (l₁ ++ l₂) := by
  have hsub : List.Sublist (l₁ ++ l₂) (l₁ ++ e :: l₂) := (List.sublist_cons_self e l₂).append_left l₁
  have hnext : m.succ (some e.node) = l₂.head?.map Entry.node := succ_eq hc.node_middle
  refine
    { node := fun f hmem => ?_
      data := fun f hmem => (hb f hmem).trans (hc.data f (hsub.subset hmem))
      linked := ?_
      nodes := (hsub.map Entry.node).nodup hc.nodes
      blocks := (hsub.map Entry.block).nodup hc.blocks
      tail := htail
      count := ?_ }
  · by_cases hlast : some f.node = l₁.getLast?.map Entry.node
    · obtain ⟨t, ht, htf⟩ := Option.map_eq_some_iff.mp hlast.symm
      have hft : f = t := List.inj_on_of_nodup_map hc.nodes (hsub.subset hmem)
        (List.mem_append_left _ (List.mem_of_getLast? ht)) htf.symm
      rw [hft]
      exact ⟨_, hprev t ht⟩
    · obtain ⟨next, hnode⟩ := hc.node f (hsub.subset hmem)
      exact ⟨next, (hn f hmem hlast).trans hnode⟩
  · have hlinked := hc.linked
    rcases l₁.eq_nil_or_concat' with rfl | ⟨l, t, rfl⟩
    · rw [hhead, List.nil_append, ← hnext]
      refine hlinked.2.congr fun x hx => ?_
      obtain ⟨f, hf, rfl⟩ := List.mem_map.mp hx
      exact succ_congr (hn f hf (by simp))
    · have hp : c'.head = c.head := by rw [hhead, hc.head]; cases l <;> rfl
      have ht := hprev t List.getLast?_concat
      simp only [List.map_append, List.map_cons, List.append_assoc, List.singleton_append] at hlinked ⊢
      rw [hp]
      refine hlinked.unlink ((succ_eq ht).trans hnext.symm) fun x hx => ?_
      rw [← List.map_append] at hx
      obtain ⟨f, hf, rfl⟩ := List.mem_map.mp hx
      -- the nodes of the chain are distinct, so that `t` is none of the others
      have hne : f.node ≠ t.node := by
        have hcut : Chain m c (l ++ t :: (e :: l₂)) := by
          rwa [List.append_assoc, List.singleton_append] at hc
        refine hcut.node_notMem f ?_
        rcases List.mem_append.mp hf with hf | hf
        · exact List.mem_append_left _ hf
        · exact List.mem_append_right _ (List.mem_cons_of_mem e hf)
      have hmem : f ∈ l ++ [t] ++ l₂ := by
        rcases List.mem_append.mp hf with hf | hf
        · exact List.mem_append_left _ (List.mem_append_left _ hf)
        · exact List.mem_append_right _ hf
      refine succ_congr (hn f hmem fun heq => hne ?_)
      rw [List.getLast?_concat] at heq
      exact Option.some.inj heq
  · rw [hcount, hc.count, List.length_append, List.length_append, List.length_cons]
    omega

end

/-! ## the queues of a heap do not touch one another -/

section
variable {own own' : Nat → Option Nat} {m m' : Blocks α} {h k : Nat} {c : QueueCDT α}
  {es : List (Entry α)} {cmp : α → α → Bool} {q : Queue α}

theorem Holds.live (hq : Holds own m h c es cmp q) :
    m h ≠ none ∧ ∀ e ∈ es, m e.node ≠ none ∧ m e.block ≠ none := by
  rw [hq.record]
  refine ⟨Option.some_ne_none _, fun e he => ?_⟩
  obtain ⟨next, hn⟩ := hq.chain.node e he
  rw [hn, hq.chain.data e he]
  exact ⟨Option.some_ne_none _, Option.some_ne_none _⟩

theorem Holds.congr (hq : Holds own m h c es cmp q)
    (hm : ∀ a, own a = some h → m a ≠ none → m' a = m a ∧ own' a = own a) :
    Holds own' m' h c es cmp q := by
  have hrecord := hm h hq.owned hq.live.1
  have hnode : ∀ e ∈ es, m' e.node = m e.node ∧ own' e.node = own e.node :=
    fun e he => hm _ (hq.entries e he).1 (hq.live.2 e he).1
  have hblock : ∀ e ∈ es, m' e.block = m e.block ∧ own' e.block = own e.block :=
    fun e he => hm _ (hq.entries e he).2 (hq.live.2 e he).2
  exact
    { record := hrecord.1.trans hq.record
      owned := hrecord.2.trans hq.owned
      entries := fun e he => ⟨(hnode e he).2.trans (hq.entries e he).1,
        (hblock e he).2.trans (hq.entries e he).2⟩
      chain := hq.chain.congr fun e he => ⟨(hnode e he).1, (hblock e he).1⟩
      cmp := hq.cmp
      elems := hq.elems
      cursor := hq.cursor
      inside := hq.inside }

theorem Holds.frame (hq : Holds own m k c es cmp q) (hm : Moves own own' m m' h) (hk : k ≠ h) :
    Holds own' m' k c es cmp q := by
  refine hq.congr fun a ha hlive => ?_
  have hforeign : own a ≠ some h := fun hah => hk (Option.some.inj (ha.symm.trans hah))
  exact ⟨hm.blocks a hforeign hlive, hm.owners a hforeign hlive⟩

/-- the heap `m'`, in which the queue at `h` is the list queue `q` -/
def Becomes (own : Nat → Option Nat) (m : Blocks α) (h : Nat) (cmp : α → α → Bool) (q : Queue α)
    (m' : Blocks α) : Prop :=
  ∃ own' c es, Moves own own' m m' h ∧ Holds own' m' h c es cmp q

theorem Holds.becomes (hq : Holds own m h c es cmp q) : Becomes own m h cmp q m :=
  ⟨own, c, es, ⟨fun _ _ _ => rfl, fun _ _ _ => rfl⟩, hq⟩

theorem Moves.becomes (hm : Moves own own' m m' h) {m'' : Blocks α} {r : Queue α}
    (hb : Becomes own' m' h cmp r m'') : Becomes own m h cmp r m'' := by
  obtain ⟨own'', c, es, hm', hr⟩ := hb
  refine ⟨own'', c, es, ⟨fun a ha hlive => ?_, fun a ha hlive => ?_⟩, hr⟩
  · have hsame := hm.blocks a ha hlive
    exact (hm'.blocks a (by rwa [hm.owners a ha hlive]) (by rwa [hsame])).trans hsame
  · have hsame := hm.blocks a ha hlive
    exact (hm'.owners a (by rwa [hm.owners a ha hlive]) (by rwa [hsame])).trans (hm.owners a ha hlive)

theorem Holds.node_ne (hq : Holds own m h c es cmp q) {e : Entry α} (he : e ∈ es) : e.node ≠ h := by
  intro heq
  obtain ⟨next, hn⟩ := hq.chain.node e he
  rw [heq, hq.record] at hn
  cases hn

theorem Holds.block_ne (hq : Holds own m h c es cmp q) {e : Entry α} (he : e ∈ es) : e.block ≠ h := by
  intro heq
  have hd := hq.chain.data e he
  rw [heq, hq.record] at hd
  cases hd

theorem Chain.node_ne_block (hc : Chain m c es) {e f : Entry α} (he : e ∈ es) (hf : f ∈ es) :
    e.node ≠ f.block := by
  intro heq
  obtain ⟨next, hn⟩ := hc.node e he
  rw [heq, hc.data f hf] at hn
  cases hn

end

end

end Tp2So.Pointers
