import Profiling.Machine
import Profiling.RbTree.Heap.Walk

/-!
# Profiling.RbTree.Heap.Run

The life of a tree in memory: records are allocated and inserted, erased and
freed, in any order, and in the end the tree is released.

There are three levels of it, each with the same operations: what it is for is
a sequence of records in the order of their keys (`sequenceTree`), which
`functionalTree` keeps in a tree, and `heapTree` in the nodes in memory.

* `heapTree_functional` — the nodes in memory are the tree of the middle level
  after every run, and what is read from them is what is read from the tree;
* `heapTree_run` — they are the sequence, with no step that follows a pointer to
  a node that is not there;
* `heapTree_search` — a search finds a record if there is one;
* `heapTree_release` — nothing is leaked.
-/

namespace Profiling

variable {κ : Type} [LinearOrder κ]

/-- What a client does to its tree. -/
inductive TreeOp (κ : Type) where
  /-- a record with the key `k` is allocated, whatever its node holds, and inserted -/
  | insert (x : NodePtr) (k : κ) (n : RbNode)
  /-- a record is erased and freed -/
  | erase (x : NodePtr)

/-- The records in the order of their keys; one more comes behind its equals. -/
def sequenceTree : Machine (List (NodePtr × κ)) (TreeOp κ) where
  init l := l = []
  step l
    | .insert x k _ =>
        if x ∈ l.map Prod.fst then none else some (l.orderedInsert (fun a b => a.2 < b.2) (x, k))
    | .erase x => if x ∈ l.map Prod.fst then some (l.eraseP fun a => a.1 = x) else none

/-- The tree, and the keys of the records. -/
structure RecordTree (κ : Type) where
  tree : RbTree NodePtr
  key : NodePtr → κ

def functionalTree : Machine (RecordTree κ) (TreeOp κ) where
  init s := s.tree = .nil
  step s
    | .insert x k _ =>
        if x ∈ s.tree.toList then none
        else do
          let key := Function.update s.key x k
          return ⟨← RbTree.rbInsert key x s.tree, key⟩
    | .erase x => do
        return { s with tree := ← RbTree.rbErase (← RbTree.locate (fun a => a == x) s.tree []) }

/-- The nodes in memory, and the keys of the records they are in. -/
structure RecordHeap (κ : Type) where
  heap : RbHeap
  key : NodePtr → κ

/-- The tree in memory.  An address that is in use is not allocated again. -/
def heapTree (fuel : Nat) : Machine (RecordHeap κ) (TreeOp κ) where
  init s := s.heap.root = none ∧ ∀ a, s.heap.nodes a = none
  step s
    | .insert x k n =>
        if (s.heap.nodes x).isSome then none
        else do
          let key := Function.update s.key x k
          return ⟨← RbHeap.insertNode key fuel (s.heap.put x n) x, key⟩
    | .erase x => do return { s with heap := ← (← s.heap.rbErase fuel x).free x }

/-! ## The tree for the sequence -/

namespace RecordTree

/-- The sequence in a balanced tree. -/
structure Models (s : RecordTree κ) (l : List (NodePtr × κ)) : Prop where
  redBlack : RbTree.RedBlack s.tree
  sorted : s.tree.Sorted s.key
  nodup : s.tree.toList.Nodup
  records : s.tree.toList.map (fun a => (a, s.key a)) = l

variable {s : RecordTree κ} {l l' : List (NodePtr × κ)}

theorem orderedInsert_split {α : Type} {key : α → κ} {x : α} {as bs : List α}
    (has : ∀ a ∈ as, key a ≤ key x) (hbs : ∀ b ∈ bs, key x < key b) :
    (as ++ bs).orderedInsert (fun a b => key a < key b) x = as ++ x :: bs := by
  induction as with
  | nil =>
      cases bs with
      | nil => rfl
      | cons b bs => exact if_pos (hbs b (by simp))
  | cons a as ih =>
      rw [List.cons_append, List.orderedInsert_cons,
        if_neg (not_lt.mpr (has a (by simp))), ih fun b hb => has b (List.mem_cons_of_mem _ hb)]
      rfl

omit [LinearOrder κ] in
theorem map_fst_records (key : NodePtr → κ) (as : List NodePtr) :
    (as.map fun a => (a, key a)).map Prod.fst = as := by
  simp [Function.comp_def]

omit [LinearOrder κ] in
/-- The key of a record that is not there does not matter. -/
theorem map_update_records {key : NodePtr → κ} {x : NodePtr} {as : List NodePtr} (hx : x ∉ as)
    (k : κ) :
    (as.map fun a => (a, Function.update key x k a)) = as.map fun a => (a, key a) :=
  List.map_congr_left fun a ha => by
    rw [Function.update_of_ne (ne_of_mem_of_not_mem ha hx)]

theorem Models.mem_iff (h : s.Models l) (x : NodePtr) : x ∈ l.map Prod.fst ↔ x ∈ s.tree.toList := by
  rw [← h.records, map_fst_records]

theorem Models.length_eq (h : s.Models l) : s.tree.toList.length = l.length := by
  rw [← h.records, List.length_map]

/-- A new record comes into its place. -/
theorem Models.insert (h : s.Models l) {x : NodePtr} (hx : x ∉ s.tree.toList) (k : κ) (n : RbNode) :
    ∃ s', functionalTree.step s (.insert x k n) = some s' ∧
      s'.Models (l.orderedInsert (fun a b => a.2 < b.2) (x, k)) := by
  obtain ⟨ht, hsorted, hnodup, rfl⟩ := h
  let key := Function.update s.key x k
  have hkey : ∀ a ∈ s.tree.toList, key a = s.key a := fun a ha =>
    Function.update_of_ne (ne_of_mem_of_not_mem ha hx) _ _
  have hsorted₁ : s.tree.Sorted key := hsorted.imp_of_mem fun ha hb hab => by
    rwa [hkey _ ha, hkey _ hb]
  have hblack : s.tree.color = .black := ht.elim fun _ h => h.color_eq
  obtain ⟨t', as, bs, hins, -, hsorted', hlist, hlist', has, hbs⟩ :=
    RbTree.rbInsert_spec (x := x) hblack hsorted₁
  obtain ⟨t'', hins', ht'⟩ := RbTree.redBlack_rbInsert key x ht
  obtain rfl : t' = t'' := Option.some.inj (hins.symm.trans hins')
  refine ⟨⟨t', key⟩, ?_, ht', hsorted', ?_, ?_⟩
  · simp only [functionalTree, if_neg hx, Option.bind_eq_bind]
    change (RbTree.rbInsert key x s.tree).bind _ = _
    rw [hins]
    rfl
  · rw [hlist', List.nodup_middle, ← hlist]
    exact List.nodup_cons.mpr ⟨hx, hnodup⟩
  · have hkx : key x = k := Function.update_self ..
    change t'.toList.map (fun a => (a, key a)) = _
    rw [← map_update_records hx k, hlist, hlist', List.map_append, List.map_cons, List.map_append,
      orderedInsert_split, hkx]
    · simpa [hkx] using has
    · simpa [hkx] using hbs

/-- A record of the sequence is taken out of it. -/
theorem Models.erase (h : s.Models l) {x : NodePtr} (hx : x ∈ s.tree.toList) :
    ∃ s', functionalTree.step s (.erase x) = some s' ∧ s'.Models (l.eraseP fun a => a.1 = x) := by
  obtain ⟨ht, hsorted, hnodup, rfl⟩ := h
  obtain ⟨as, bs, hlist⟩ := List.append_of_mem hx
  rw [hlist] at hnodup
  have hnot : ∀ a ∈ as ++ bs, (a == x) = false := fun a ha =>
    beq_false_of_ne (ne_of_mem_of_not_mem ha (List.nodup_middle.mp hnodup).notMem)
  obtain ⟨p, hp, hwhole, -, hbefore, hafter⟩ := @RbTree.locate_of_split _ (fun a => a == x) _ _ _ _
    hlist (beq_self_eq_true x) (fun a ha => hnot a (List.mem_append_left _ ha))
    fun a ha => hnot a (List.mem_append_right _ ha)
  rw [← hwhole] at ht
  obtain ⟨t', herase, ht', hlist'⟩ := RbTree.rbErase_spec ht
  rw [List.append_assoc, List.append_assoc, hafter, ← List.append_assoc, hbefore] at hlist'
  refine ⟨{ s with tree := t' }, ?_, ht', ?_, ?_, ?_⟩
  · simp [functionalTree, hp, herase]
  · rw [RbTree.Sorted, hlist'] at *
    rw [hlist] at hsorted
    exact hsorted.sublist (List.Sublist.append_left (List.sublist_cons_self x bs) as)
  · rw [hlist']
    exact (List.nodup_middle.mp hnodup).of_cons
  · have hnot' : ∀ a ∈ as.map fun a => (a, s.key a), ¬decide (a.1 = x) = true := by
      rintro _ hmem
      obtain ⟨a, ha, rfl⟩ := List.mem_map.mp hmem
      simpa using hnot a (List.mem_append_left _ ha)
    rw [hlist', hlist, List.map_append, List.map_append, List.map_cons,
      List.eraseP_append_right _ hnot', List.eraseP_cons_of_pos (by simp)]

/-- One step of the sequence is one of the tree. -/
theorem Models.step {op : TreeOp κ} (h : s.Models l) (hstep : sequenceTree.step l op = some l') :
    ∃ s', functionalTree.step s op = some s' ∧ s'.Models l' := by
  cases op with
  | insert x k n =>
      simp only [sequenceTree, Option.ite_none_left_eq_some, Option.some.injEq] at hstep
      obtain ⟨hx, rfl⟩ := hstep
      exact h.insert (mt (h.mem_iff x).mpr hx) k n
  | erase x =>
      simp only [sequenceTree, Option.ite_none_right_eq_some, Option.some.injEq] at hstep
      obtain ⟨hx, rfl⟩ := hstep
      exact h.erase ((h.mem_iff x).mp hx)

theorem models_nil (hs : functionalTree.init s) : s.Models [] := by
  obtain ⟨t, key⟩ := s
  obtain rfl : t = .nil := hs
  exact ⟨RbTree.redBlack_nil, List.Pairwise.nil, List.nodup_nil, rfl⟩

theorem models_run {ops : List (TreeOp κ)} (hs : functionalTree.init s)
    (hrun : sequenceTree.run [] ops = some l) :
    ∃ s', functionalTree.run s ops = some s' ∧ s'.Models l :=
  sequenceTree.run_simulation functionalTree (R := fun _ s l => s.Models l)
    (fun _ _ _ _ _ h hstep => h.step hstep) (models_nil hs) hrun

end RecordTree

/-! ## The nodes for the tree -/

/-- Insertion adds its element, wherever that is. -/
theorem RbTree.rbInsert_perm {key : NodePtr → κ} {x : NodePtr} {t t' : RbTree NodePtr}
    (h : RbTree.rbInsert key x t = some t') : t'.toList.Perm (x :: t.toList) := by
  have hlist := RbTree.toList_insertColor h
  have hzip := congrArg RbTree.toList (RbTree.zip_linkPath key x t [])
  rw [RbTree.toList_zip] at hzip
  change _ = t.toList at hzip
  rw [hlist, ← hzip]
  simp [RbTree.toList]

namespace RecordHeap

/-- The heap holds this balanced tree, and nothing else. -/
structure Holds (s : RecordHeap κ) (f : RecordTree κ) : Prop where
  tree : s.heap.Represents f.tree
  redBlack : RbTree.RedBlack f.tree
  key : s.key = f.key
  allocated : ∀ a, (s.heap.nodes a).isSome ↔ a ∈ f.tree.toList

variable {s : RecordHeap κ} {f f' : RecordTree κ} {fuel : Nat}

/-- A new node in memory is a new entry of the tree. -/
theorem Holds.insert {x : NodePtr} {k : κ} {n : RbNode} (h : s.Holds f)
    (hstep : functionalTree.step f (.insert x k n) = some f')
    (hfuel : 2 * Nat.log 2 (f.tree.toList.length + 1) < fuel) :
    ∃ s', (heapTree fuel).step s (.insert x k n) = some s' ∧ s'.Holds f' ∧
      f'.tree.toList.length ≤ f.tree.toList.length + 1 := by
  obtain ⟨hm, ht, hkey, halloc⟩ := h
  simp only [functionalTree, Option.ite_none_left_eq_some, Option.bind_eq_bind,
    Option.bind_eq_some_iff] at hstep
  obtain ⟨hx, t', hins, hf⟩ := hstep
  obtain rfl := Option.some.inj hf
  let key := Function.update s.key x k
  rw [← hkey] at hins
  have hm₁ : (s.heap.put x n).Represents f.tree := ⟨hm.root_eq, hm.subtree.congr fun a ha =>
    RbHeap.nodes_put_of_ne (ne_of_mem_of_not_mem ha hx), hm.nodup⟩
  obtain ⟨t'', hins', ht'⟩ := RbTree.redBlack_rbInsert key x ht
  obtain rfl : t' = t'' := Option.some.inj (hins.symm.trans hins')
  obtain ⟨m', hrun, hm', hsame⟩ :=
    RbHeap.insertNode_spec key hm₁ RbHeap.nodes_put_self hx hins (ht.height_le.trans_lt hfuel)
  have hlist : ∀ a, a ∈ t'.toList ↔ a = x ∨ a ∈ f.tree.toList := fun a =>
    (RbTree.rbInsert_perm hins).mem_iff.trans List.mem_cons
  have hnew : (s.heap.nodes x).isSome = false := by
    rw [Bool.eq_false_iff, ne_eq, halloc]
    exact hx
  refine ⟨⟨m', key⟩, ?_, ⟨hm', ht', by rw [← hkey], fun a => ?_⟩, ?_⟩
  · simp only [heapTree, hnew, Bool.false_eq_true, if_false]
    change ((RbHeap.insertNode key fuel (s.heap.put x n) x).bind _) = _
    rw [hrun]
    rfl
  · by_cases ha : a ∈ t'.toList
    · exact iff_of_true (hm'.subtree.allocated ha) ha
    · have hne := mt (hlist a).mpr ha
      rw [hsame a ha, RbHeap.nodes_put_of_ne fun h => hne (.inl h), halloc]
      exact iff_of_false (fun h => hne (.inr h)) ha
  · exact (RbTree.rbInsert_perm hins).length_eq.le

/-- A node that is erased and freed is an entry less. -/
theorem Holds.erase {x : NodePtr} (h : s.Holds f)
    (hstep : functionalTree.step f (.erase x) = some f')
    (hfuel : 2 * Nat.log 2 (f.tree.toList.length + 1) < fuel) :
    ∃ s', (heapTree fuel).step s (.erase x) = some s' ∧ s'.Holds f' ∧
      f'.tree.toList.length ≤ f.tree.toList.length + 1 := by
  obtain ⟨hm, ht, hkey, halloc⟩ := h
  simp only [functionalTree, Option.bind_eq_bind, Option.bind_eq_some_iff] at hstep
  obtain ⟨p, hp, t', herase, hf⟩ := hstep
  obtain rfl := Option.some.inj hf
  obtain ⟨hwhole, hpx⟩ := RbTree.locate_eq_some hp
  obtain rfl : p.val = x := eq_of_beq hpx
  replace hwhole : RbTree.whole p = f.tree := hwhole
  rw [← hwhole] at hm ht hfuel halloc ⊢
  obtain ⟨m₁, t'', herase', hrun, hm₁, ht', hlist, hsame⟩ :=
    RbHeap.rbErase_redBlack hm ht (ht.height_le.trans_lt hfuel)
  obtain rfl : t' = t'' := Option.some.inj (herase.symm.trans herase')
  have hperm : (RbTree.whole p).toList.Perm (p.val :: t'.toList) := by
    rw [hlist, RbTree.whole, RbTree.toList_zip, RbTree.toList]
    simp only [List.append_assoc, List.cons_append]
    exact (List.Perm.append_left _ List.perm_middle).trans List.perm_middle
  have hnodup := List.nodup_cons.mp (hperm.nodup_iff.mp hm.nodup)
  have hx : (m₁.nodes p.val).isSome := by
    rw [hsame p.val hnodup.1, halloc, hperm.mem_iff]
    exact List.mem_cons_self
  obtain ⟨n, hn⟩ := Option.isSome_iff_exists.mp hx
  obtain ⟨m', hfree, hm', hnone, hsame'⟩ := RbHeap.free_spec hm₁ hn hnodup.1
  refine ⟨{ s with heap := m' }, ?_, ⟨hm', ht', hkey, fun a => ?_⟩, ?_⟩
  · simp [heapTree, hrun, hfree]
  · by_cases ha : a ∈ t'.toList
    · exact iff_of_true (hm'.subtree.allocated ha) ha
    · refine iff_of_false ?_ ha
      by_cases hax : a = p.val
      · simp [hax, hnone]
      · rw [hsame' a (mt List.mem_singleton.mp hax), hsame a ha, halloc, hperm.mem_iff,
          List.mem_cons]
        tauto
  · change t'.toList.length ≤ _
    rw [hperm.length_eq, List.length_cons]
    omega

/-- One step of the tree is one of the nodes. -/
theorem Holds.step {op : TreeOp κ} (h : s.Holds f) (hstep : functionalTree.step f op = some f')
    (hfuel : 2 * Nat.log 2 (f.tree.toList.length + 1) < fuel) :
    ∃ s', (heapTree fuel).step s op = some s' ∧ s'.Holds f' ∧
      f'.tree.toList.length ≤ f.tree.toList.length + 1 := by
  cases op with
  | insert x k n => exact h.insert hstep hfuel
  | erase x => exact h.erase hstep hfuel

/-- The heap has room for as many more records as there are steps to come. -/
def HoldsFor (size k : Nat) (s : RecordHeap κ) (f : RecordTree κ) : Prop :=
  s.Holds f ∧ f.tree.toList.length + k ≤ size

theorem HoldsFor.step {size : Nat} (hfuel : 2 * Nat.log 2 (size + 1) < fuel) (k : Nat)
    (s : RecordHeap κ) (f : RecordTree κ) (op : TreeOp κ) (f' : RecordTree κ)
    (h : HoldsFor size (k + 1) s f) (hstep : functionalTree.step f op = some f') :
    ∃ s', (heapTree fuel).step s op = some s' ∧ HoldsFor size k s' f' := by
  obtain ⟨hs, hlength⟩ := h
  have hlog : Nat.log 2 (f.tree.toList.length + 1) ≤ Nat.log 2 (size + 1) :=
    Nat.log_mono_right (by omega)
  obtain ⟨s', hs', h', hlength'⟩ := hs.step hstep (by omega : _ < fuel)
  exact ⟨s', hs', h', by omega⟩

theorem holds_nil (hs : (heapTree fuel).init s) : s.Holds ⟨.nil, s.key⟩ :=
  ⟨⟨hs.1, trivial, List.nodup_nil⟩, RbTree.redBlack_nil, rfl, fun a => by simp [hs.2 a, RbTree.toList]⟩

theorem holds_run {ops : List (TreeOp κ)} (hs : (heapTree fuel).init s)
    (hrun : functionalTree.run ⟨.nil, s.key⟩ ops = some f)
    (hfuel : 2 * Nat.log 2 (ops.length + 1) < fuel) :
    ∃ s', (heapTree fuel).run s ops = some s' ∧ s'.Holds f ∧ f.tree.toList.length ≤ ops.length :=
  functionalTree.run_simulation (heapTree fuel) (HoldsFor.step hfuel)
    ⟨holds_nil hs, by simp [RbTree.toList]⟩ hrun

/-- The three levels together. -/
theorem models_holds_run {l : List (NodePtr × κ)} {ops : List (TreeOp κ)}
    (hs : (heapTree fuel).init s) (hrun : sequenceTree.run [] ops = some l)
    (hfuel : 2 * Nat.log 2 (ops.length + 1) < fuel) :
    ∃ s' f, (heapTree fuel).run s ops = some s' ∧ s'.Holds f ∧ f.Models l ∧
      l.length ≤ ops.length := by
  have hinit : functionalTree.init ⟨.nil, s.key⟩ := rfl
  obtain ⟨f, hf, hmodels⟩ := RecordTree.models_run hinit hrun
  obtain ⟨s', hrun', h, hlength⟩ := holds_run hs hf hfuel
  exact ⟨s', f, hrun', h, hmodels, hmodels.length_eq ▸ hlength⟩

end RecordHeap

open RecordHeap RbHeap

variable {s : RecordHeap κ} {f : RecordTree κ} {l : List (NodePtr × κ)} {fuel : Nat}
  {ops : List (TreeOp κ)}

/-- **The nodes in memory are the tree** after every run, the shape and the colours included:
what `rb_first`, `rb_next` and the searches read from them is what they read from the tree.
No access fails, and no loop makes more steps than twice the binary logarithm of the
number of insertions. -/
theorem heapTree_functional (hs : (heapTree fuel).init s)
    (hrun : functionalTree.run ⟨.nil, s.key⟩ ops = some f)
    (hfuel : 2 * Nat.log 2 (ops.length + 1) < fuel) :
    ∃ s', (heapTree fuel).run s ops = some s' ∧ s'.heap.Represents f.tree ∧ s'.key = f.key ∧
      s'.heap.rbFirst fuel = some ((RbTree.rbFirst f.tree).map Place.val) ∧
      (∀ p, RbTree.whole p = f.tree →
        s'.heap.rbNext fuel p.val = some ((RbTree.rbNext p).map Place.val)) ∧
      ∀ cut, search cut fuel s'.heap s'.heap.root = some (RbTree.walk cut f.tree) := by
  obtain ⟨s', hrun', ⟨hm, ht, hkey, -⟩, hlength⟩ := holds_run hs hrun hfuel
  have hlog : Nat.log 2 (f.tree.toList.length + 1) ≤ Nat.log 2 (ops.length + 1) :=
    Nat.log_mono_right (by omega)
  have hheight : f.tree.height < fuel := by
    have := ht.height_le
    omega
  refine ⟨s', hrun', hm, hkey, ?_, fun p hp => ?_, fun cut => ?_⟩
  · rw [rbFirst_eq hm hheight.le, RbTree.rbFirst_val]
  · rw [← hp] at hm hheight
    rw [rbNext_eq hm hheight, RbTree.rbNext_val]
  · rw [hm.root_eq, search_eq cut hm.subtree hheight]

/-- Two records come, the second in front of the first, which then goes. -/
def threeOps : List (TreeOp Nat) :=
  let x : NodePtr := ⟨0x1000, by decide, by decide⟩
  [.insert x 1 ⟨0, none, none⟩, .insert ⟨0x2000, by decide, by decide⟩ 0 ⟨7, none, none⟩, .erase x]

def emptyRecordHeap : RecordHeap Nat := ⟨⟨fun _ => none, none⟩, fun _ => 0⟩

theorem init_emptyRecordHeap {fuel : Nat} : (heapTree fuel).init emptyRecordHeap :=
  ⟨rfl, fun _ => rfl⟩

theorem log_threeOps : 2 * Nat.log 2 (threeOps.length + 1) < 8 := by
  change 2 * Nat.log 2 4 < 8
  norm_num

theorem heapTree_functional_threeOps : ∃ s', (heapTree 8).run emptyRecordHeap threeOps = some s' ∧
    s'.heap.Represents (.node .black .nil ⟨0x2000, by decide, by decide⟩ .nil) := by
  obtain ⟨s', hrun, hm, -⟩ := heapTree_functional (f := ⟨_, _⟩) init_emptyRecordHeap
    (rfl : functionalTree.run ⟨.nil, fun _ => 0⟩ threeOps = some _) log_threeOps
  exact ⟨s', hrun, hm⟩

/-- **Every run of a tree in memory** is one of the sequence: the nodes are those of a balanced
tree in the order of their keys, and there are no others. -/
theorem heapTree_run (hs : (heapTree fuel).init s) (hrun : sequenceTree.run [] ops = some l)
    (hfuel : 2 * Nat.log 2 (ops.length + 1) < fuel) :
    ∃ s' t, (heapTree fuel).run s ops = some s' ∧ s'.heap.Represents t ∧ RbTree.RedBlack t ∧
      t.toList.map (fun a => (a, s'.key a)) = l ∧
      ∀ a, (s'.heap.nodes a).isSome ↔ a ∈ l.map Prod.fst := by
  obtain ⟨s', f, hrun', ⟨hm, ht, hkey, halloc⟩, hmodels, -⟩ := models_holds_run hs hrun hfuel
  refine ⟨s', f.tree, hrun', hm, ht, ?_, fun a => ?_⟩
  · rw [hkey, hmodels.records]
  · rw [halloc, hmodels.mem_iff]

theorem heapTree_run_threeOps : ∃ s' t, (heapTree 8).run emptyRecordHeap threeOps = some s' ∧
    s'.heap.Represents t ∧
    t.toList.map (fun a => (a, s'.key a)) = [(⟨0x2000, by decide, by decide⟩, 0)] := by
  obtain ⟨s', t, hrun, hm, -, hlist, -⟩ := heapTree_run init_emptyRecordHeap
    (rfl : sequenceTree.run [] threeOps = some _) log_threeOps
  exact ⟨s', t, hrun, hm, hlist⟩

/-- What a search may compare with: once it goes to the left, it does so at all greater keys,
and to the right at all smaller ones. -/
structure IsCut (cut : κ → Ordering) : Prop where
  lt_of_le : ∀ {k k'}, k ≤ k' → cut k = .lt → cut k' = .lt
  gt_of_le : ∀ {k k'}, k ≤ k' → cut k' = .gt → cut k = .gt

theorem IsCut.walk_isSome {cut : κ → Ordering} (hcut : IsCut cut) {key : NodePtr → κ}
    {t : RbTree NodePtr} {x : NodePtr} (ht : t.Sorted key) (hx : x ∈ t.toList)
    (heq : cut (key x) = .eq) : (RbTree.walk (fun a => cut (key a)) t).isSome := by
  induction t with
  | nil => simp [RbTree.toList] at hx
  | node c l a r ihl ihr =>
      obtain ⟨hl, hr, hla, har, -⟩ := RbTree.sorted_node.mp ht
      simp only [RbTree.toList, List.mem_append, List.mem_cons] at hx
      rw [RbTree.walk]
      cases hc : cut (key a) with
      | eq => rfl
      | lt =>
          obtain hx | rfl | hx := hx
          · exact ihl hl hx
          · simp [hc] at heq
          · simp [hcut.lt_of_le (har x hx) hc] at heq
      | gt =>
          obtain hx | rfl | hx := hx
          · simp [hcut.gt_of_le (hla x hx) hc] at heq
          · simp [hc] at heq
          · exact ihr hr hx

/-- **A search finds** a record that answers "here" after every run, if there is one. -/
theorem heapTree_search {cut : κ → Ordering} (hcut : IsCut cut) (hs : (heapTree fuel).init s)
    (hrun : sequenceTree.run [] ops = some l) (hfuel : 2 * Nat.log 2 (ops.length + 1) < fuel) :
    ∃ s' found, (heapTree fuel).run s ops = some s' ∧
      search (fun a => cut (s'.key a)) fuel s'.heap s'.heap.root = some found ∧
      (∀ a, found = some a → ∃ k, (a, k) ∈ l ∧ cut k = .eq) ∧
      (found = none → ∀ a k, (a, k) ∈ l → cut k ≠ .eq) := by
  obtain ⟨s', f, hrun', ⟨hm, ht, hkey, -⟩, hmodels, hlength⟩ := models_holds_run hs hrun hfuel
  have hlog : Nat.log 2 (f.tree.toList.length + 1) ≤ Nat.log 2 (ops.length + 1) :=
    Nat.log_mono_right (by rw [hmodels.length_eq]; omega)
  have hheight : f.tree.height < fuel := by
    have := ht.height_le
    omega
  refine ⟨s', _, hrun', by rw [hm.root_eq, search_eq _ hm.subtree hheight], fun a hfound => ?_,
    fun hnone a k hmem heq => ?_⟩
  · obtain ⟨hmem, heq⟩ := RbTree.walk_eq_some hfound
    exact ⟨s'.key a, by rw [← hmodels.records, hkey]; exact List.mem_map_of_mem hmem, heq⟩
  · rw [← hmodels.records] at hmem
    obtain ⟨x, hx, hak⟩ := List.mem_map.mp hmem
    obtain ⟨rfl, rfl⟩ := Prod.mk.inj hak
    have hsome := hcut.walk_isSome hmodels.sorted hx heq
    rw [hkey] at hnone
    simp [hnone] at hsome

theorem heapTree_search_threeOps : ∃ s' a, (heapTree 8).run emptyRecordHeap threeOps = some s' ∧
    search (fun a => compare 0 (s'.key a)) 8 s'.heap s'.heap.root = some (some a) := by
  have hcut : IsCut (fun k : Nat => compare 0 k) :=
    ⟨by simp only [Nat.compare_eq_lt]; omega, by simp only [Nat.compare_eq_gt]; omega⟩
  obtain ⟨s', found, hrun, hsearch, -, hnone⟩ := heapTree_search hcut init_emptyRecordHeap
    (rfl : sequenceTree.run [] threeOps = some _) log_threeOps
  cases found with
  | none => exact absurd (by decide) (hnone rfl ⟨0x2000, by decide, by decide⟩ 0 (by decide))
  | some a => exact ⟨s', a, hrun, hsearch⟩

/-- **Nothing is leaked**, whichever way the tree is released after a run, and nothing is freed
twice. -/
theorem heapTree_release (hs : (heapTree fuel).init s) (hrun : sequenceTree.run [] ops = some l)
    (hfuel : ops.length + 2 * Nat.log 2 (ops.length + 1) < fuel) :
    ∃ s' first, (heapTree fuel).run s ops = some s' ∧ s'.heap.rbFirst fuel = some first ∧
      (∃ m, freeLoop fuel s'.heap first = some m ∧ m.root = none ∧ ∀ a, m.nodes a = none) ∧
      ∃ m, freeVmaTree fuel s'.heap = some m ∧ m.root = none ∧ ∀ a, m.nodes a = none := by
  obtain ⟨s', f, hrun', ⟨hm, ht, -, halloc⟩, hmodels, hlength⟩ :=
    models_holds_run hs hrun (by omega : _ < fuel)
  rw [← hmodels.length_eq] at hlength
  have hlog : Nat.log 2 (f.tree.toList.length + 1) ≤ Nat.log 2 (ops.length + 1) :=
    Nat.log_mono_right (by omega)
  have hheight := ht.height_le
  have hall : ∀ m : RbHeap, (∀ a ∈ f.tree.toList, m.nodes a = none) →
      s'.heap.SameBut m f.tree.toList → ∀ a, m.nodes a = none := fun m hfreed hsame a => by
    by_cases ha : a ∈ f.tree.toList
    · exact hfreed a ha
    · rw [hsame a ha, ← Option.not_isSome_iff_eq_none, halloc]
      exact ha
  obtain ⟨m₁, hloop, hroot₁, hfreed₁, hsame₁⟩ := freeLoop_spec hm ht (by omega : _ < fuel)
  obtain ⟨m₂, htree, hroot₂, hfreed₂, hsame₂⟩ := freeVmaTree_spec hm (by omega : _ < fuel)
  exact ⟨s', _, hrun', rbFirst_eq hm (by omega), ⟨m₁, hloop, hroot₁, hall m₁ hfreed₁ hsame₁⟩,
    m₂, htree, hroot₂, hall m₂ hfreed₂ hsame₂⟩

theorem heapTree_release_threeOps : ∃ s' first m,
    (heapTree 16).run emptyRecordHeap threeOps = some s' ∧ s'.heap.rbFirst 16 = some first ∧
      freeLoop 16 s'.heap first = some m ∧ ∀ a, m.nodes a = none := by
  have hfuel : threeOps.length + 2 * Nat.log 2 (threeOps.length + 1) < 16 := by
    have := log_threeOps
    change 3 + _ < 16
    omega
  obtain ⟨s', first, hrun, hfirst, ⟨m, hloop, -, hm⟩, -⟩ := heapTree_release init_emptyRecordHeap
    (rfl : sequenceTree.run [] threeOps = some _) hfuel
  exact ⟨s', first, m, hrun, hfirst, hloop, hm⟩

end Profiling
