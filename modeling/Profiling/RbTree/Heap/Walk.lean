import Profiling.RbTree.Heap.Erase

/-!
# Profiling.RbTree.Heap.Walk

`rb_first`, `rb_next` and the callers' searches on nodes in memory, and how the
callers release their trees.

* `rbNext_eq` — the next node is the next of the in-order sequence;
* `search_eq` — a search in a tree that keeps the rules takes no more steps
  than twice the binary logarithm of its size;
* `freeLoop_spec`, `freeVmaTree_spec` — the two ways to release a tree free
  each of its nodes once, and follow no pointer to a node that is freed.
-/

namespace Profiling

namespace RbHeap

variable {m m' : RbHeap} {parent q : Option NodePtr} {a b : NodePtr} {c : Color}
  {t l r : RbTree NodePtr} {path : List (Frame NodePtr)} {fuel : Nat}

/-! ## Up and down -/

theorem leftmostLoop_eq (path) (h : m.Subtree q (.node c l a r)) (hfuel : l.height < fuel) :
    leftmostLoop fuel m a = some (RbTree.leftmost c l a r path).val := by
  induction fuel generalizing q c l a r path with
  | zero => exact absurd hfuel (Nat.not_lt_zero _)
  | succ fuel ih =>
      have hleft : m.getChild .left a = some l.ptr := getChild_eq h.1
      rw [leftmostLoop, hleft]
      cases l with
      | nil => rfl
      | node c' l' a' r' =>
          rw [RbTree.height] at hfuel
          exact ih _ h.2.1 (by omega)

/-- **`rb_first`** is the first node of the sequence. -/
theorem rbFirst_eq (hm : m.Represents t) (hfuel : t.height ≤ fuel) :
    m.rbFirst fuel = some t.toList.head? := by
  rw [rbFirst, hm.root_eq, ← RbTree.rbFirst_val]
  cases t with
  | nil => rfl
  | node c l a r =>
      rw [RbTree.height] at hfuel
      simp only [RbTree.ptr]
      rw [leftmostLoop_eq [] hm.subtree (by omega)]
      rfl

theorem climbLoop_eq (hm : m.Represents (RbTree.zip t path)) (ht : t.ptr = some a)
    (hfuel : path.length < fuel) :
    climbLoop fuel m a = some ((RbTree.climb t path).map Place.val) := by
  induction fuel generalizing t a path with
  | zero => exact absurd hfuel (Nat.not_lt_zero _)
  | succ fuel ih =>
      obtain ⟨hsub, haround, hnodup⟩ := represents_zip.mp hm
      have hparent : m.rbParent a = some (parentOf path) := by
        cases t with
        | nil => cases ht
        | node c l a' r =>
            obtain rfl := Option.some.inj ht
            exact rbParent_eq hsub.1
      rw [climbLoop, hparent]
      cases path with
      | nil => rfl
      | cons f path =>
          obtain ⟨hnode, -⟩ := haround
          obtain ⟨side, cf, b, s⟩ := f
          cases side with
          | left =>
              have hright : m.getChild .right b = some s.ptr := getChild_eq hnode
              have hne : some a ≠ s.ptr := fun heq => by
                have hs := mem_of_ptr heq.symm
                have := mem_of_ptr ht
                rw [above_cons] at hnodup
                grind
              simp [hright, hne, RbTree.climb]
          | right =>
              have hright : m.getChild .right b = some t.ptr := getChild_eq hnode
              simp only [parentOf_cons, Option.bind_eq_bind, Option.bind_some, hright, ht, if_pos]
              exact ih (t := .plug ⟨.right, cf, b, s⟩ t) hm rfl (by simpa using hfuel)

/-- **`rb_next`** is the next node of the sequence. -/
theorem rbNext_eq {p : Place NodePtr} (hm : m.Represents (RbTree.whole p))
    (hfuel : (RbTree.whole p).height < fuel) :
    m.rbNext fuel p.val = some (p.right.toList ++ RbTree.after p.path).head? := by
  rw [← RbTree.rbNext_val]
  obtain ⟨c, left, a, right, path⟩ := p
  have hheight := RbTree.length_add_height_le (.node c left a right) path
  rw [RbTree.height] at hheight
  change _ ≤ (RbTree.whole ⟨c, left, a, right, path⟩).height at hheight
  obtain ⟨⟨hnode, -, hright⟩, haround, hnodup⟩ := represents_zip.mp hm
  have hpc : m.getParentColor a = some (packed (parentOf path) c) := getParentColor_eq hnode
  have hchild : m.getChild .right a = some right.ptr := getChild_eq hnode
  -- no node in a tree is its own parent
  have hlinked : packed (parentOf path) c ≠ a.addr := fun heq => by
    have hself : parentOf path = some a := by
      rw [← rbParentOf_packed (parentOf path) c, heq, ← rbParentOf_packed (some a) .red, packed_red,
        ptrWord]
    cases path with
    | nil => cases hself
    | cons f path =>
        obtain rfl := Option.some.inj hself
        rw [above_cons, RbTree.toList] at hnodup
        grind
  simp only [rbNext, hpc, hchild, Option.bind_eq_bind, Option.bind_some, if_neg hlinked]
  cases right with
  | nil => exact climbLoop_eq hm rfl (by simp only at *; omega)
  | node cr rl b rr =>
      rw [RbTree.height.eq_2 cr] at hheight
      simp only [RbTree.ptr, RbTree.rbNext]
      rw [leftmostLoop_eq (⟨.right, c, a, left⟩ :: path) hright (by omega)]
      rfl

/-- **Searches** in memory find what `walk` does. -/
theorem search_eq (cut : NodePtr → Ordering) (h : m.Subtree q t) (hfuel : t.height < fuel) :
    search cut fuel m t.ptr = some (RbTree.walk cut t) := by
  induction fuel generalizing q t with
  | zero => exact absurd hfuel (Nat.not_lt_zero _)
  | succ fuel ih =>
      cases t with
      | nil => rfl
      | node c l a r =>
          have hleft : m.getChild .left a = some l.ptr := getChild_eq h.1
          have hright : m.getChild .right a = some r.ptr := getChild_eq h.1
          rw [RbTree.height] at hfuel
          simp only [RbTree.ptr, search, RbTree.walk, hleft, hright, Option.bind_eq_bind,
            Option.bind_some]
          cases cut a with
          | eq => rfl
          | lt => exact ih h.2.1 (by omega)
          | gt => exact ih h.2.2 (by omega)

/-! ## Releases -/

/-- A node is freed that is in no tree. -/
theorem free_spec {n : RbNode} (hm : m.Represents t) (hnode : m.nodes a = some n)
    (ha : a ∉ t.toList) :
    ∃ m', m.free a = some m' ∧ m'.Represents t ∧ m'.nodes a = none ∧ m.SameBut m' [a] := by
  let m' : RbHeap := { m with nodes := Function.update m.nodes a none }
  have hsame : m.SameBut m' [a] := fun x hx =>
    Function.update_of_ne (mt List.mem_singleton.mpr hx) _ _
  refine ⟨m', ?_, ⟨hm.root_eq, hm.subtree.congr fun x hx => hsame x ?_, hm.nodup⟩,
    Function.update_self .., hsame⟩
  · rw [free, hnode, Option.map_some]
  · exact mt List.mem_singleton.mp (ne_of_mem_of_not_mem hx ha)

/-- What is in a tree is allocated. -/
theorem Subtree.allocated (h : m.Subtree q t) (ha : a ∈ t.toList) : (m.nodes a).isSome := by
  induction t generalizing q with
  | nil => cases ha
  | node c l b r ihl ihr =>
      simp only [RbTree.toList, List.mem_append, List.mem_cons] at ha
      obtain ha | rfl | ha := ha
      · exact ihl h.2.1 ha
      · rw [h.1]
        rfl
      · exact ihr h.2.2 ha

/-- **The callers' release** of a balanced tree frees its nodes in their order, each one
after it has been erased, and leaves the empty tree. -/
theorem freeLoop_spec (hm : m.Represents t) (ht : RbTree.RedBlack t)
    (hfuel : t.toList.length + 2 * Nat.log 2 (t.toList.length + 1) < fuel) :
    ∃ m', freeLoop fuel m t.toList.head? = some m' ∧ m'.root = none ∧
      (∀ a ∈ t.toList, m'.nodes a = none) ∧ m.SameBut m' t.toList := by
  induction fuel generalizing m t with
  | zero => exact absurd hfuel (Nat.not_lt_zero _)
  | succ fuel ih =>
      cases hlist : t.toList with
      | nil =>
          have hroot : m.root = none := by
            rw [hm.root_eq]
            cases t with
            | nil => rfl
            | node c l a r => simp [RbTree.toList] at hlist
          exact ⟨m, rfl, hroot, fun x hx => absurd hx List.not_mem_nil, fun _ _ => rfl⟩
      | cons a rest =>
          have hlength : t.toList.length = rest.length + 1 := by rw [hlist]; rfl
          have hlog : Nat.log 2 (rest.length + 1) ≤ Nat.log 2 (t.toList.length + 1) :=
            Nat.log_mono_right (by omega)
          have hnodup := hm.nodup
          rw [hlist] at hnodup
          obtain ⟨ha, -⟩ := List.nodup_cons.mp hnodup
          -- the next node is looked up before the first is erased
          obtain ⟨p, -, hwhole, hval, -, hafter⟩ := RbTree.locate_of_split
            (List.nil_append _ ▸ hlist : t.toList = [] ++ a :: rest) (beq_self_eq_true a)
            (fun x hx => absurd hx List.not_mem_nil) (by simp; grind)
          have hnext : m.rbNext fuel a = some rest.head? := by
            have hheight := ht.height_le
            rw [← hwhole] at hm hheight
            rw [← hval, rbNext_eq hm (by rw [hwhole] at hheight ⊢; omega), hafter]
          obtain ⟨m₁, t', herase, hm₁, ht', hlist', hsame₁⟩ :=
            rbErase_split hm ht
              (List.nil_append _ ▸ hlist : t.toList = [] ++ a :: rest) (by omega : _ < fuel)
          rw [List.nil_append] at hlist'
          obtain ⟨n, hn⟩ := Option.isSome_iff_exists.mp
            (hm.subtree.allocated (a := a) (by simp [hlist]))
          obtain ⟨m₂, hfree, hm₂, hnone, hsame₂⟩ :=
            free_spec hm₁ ((hsame₁ a (hlist' ▸ ha)).trans hn) (hlist' ▸ ha)
          obtain ⟨m', hloop, hroot, hfreed, hsame⟩ := ih hm₂ ht' (by rw [hlist']; omega)
          rw [hlist'] at hloop hfreed hsame
          refine ⟨m', ?_, hroot, ?_, fun x hx => ?_⟩
          · simp [freeLoop, hnext, herase, hfree, hloop]
          · rintro x (_ | ⟨_, hx⟩)
            · rw [hsame a ha, hnone]
            · exact hfreed x hx
          · rw [List.mem_cons, not_or] at hx
            rw [hsame x hx.2, hsame₂ x (mt List.mem_singleton.mp hx.1),
              hsame₁ x (hlist' ▸ hx.2)]

/-- The recursion frees the nodes of a tree and no others. -/
theorem freeVmaNodes_spec (h : m.Subtree q t) (hnodup : t.toList.Nodup) (hfuel : t.height < fuel) :
    ∃ m', freeVmaNodes fuel m t.ptr = some m' ∧ (∀ a ∈ t.toList, m'.nodes a = none) ∧
      m.SameBut m' t.toList ∧ m'.root = m.root := by
  induction t generalizing m q fuel with
  | nil =>
      cases fuel with
      | zero => exact absurd hfuel (Nat.not_lt_zero _)
      | succ fuel => exact ⟨m, rfl, nofun, fun _ _ => rfl, rfl⟩
  | node c l a r ihl ihr =>
      cases fuel with
      | zero => exact absurd hfuel (Nat.not_lt_zero _)
      | succ fuel =>
          obtain ⟨hnode, hl, hr⟩ := h
          rw [RbTree.height] at hfuel
          rw [RbTree.toList] at hnodup ⊢
          -- a child is only entered if it is there
          have hguard : ∀ (m : RbHeap) (t : RbTree NodePtr), t.height < fuel →
              (if t.ptr.isSome then freeVmaNodes fuel m t.ptr else some m) =
                freeVmaNodes fuel m t.ptr := fun m t ht => by
            cases t with
            | nil =>
                cases fuel with
                | zero => exact absurd ht (Nat.not_lt_zero _)
                | succ fuel => rfl
            | node => rfl
          obtain ⟨m₁, hleft, hfreed₁, hsame₁, hroot₁⟩ := ihl hl (by grind) (by omega : _ < fuel)
          have hr₁ : m₁.Subtree (some a) r := hr.congr fun x hx => hsame₁ x (by grind)
          obtain ⟨m₂, hright, hfreed₂, hsame₂, hroot₂⟩ := ihr hr₁ (by grind) (by omega : _ < fuel)
          have hnode₁ : m₁.nodes a = some (.branch q c .left l.ptr r.ptr) :=
            (hsame₁ a (by grind)).trans hnode
          have hnode₂ : m₂.nodes a = some (.branch q c .left l.ptr r.ptr) :=
            (hsame₂ a (by grind)).trans hnode₁
          let m' : RbHeap := { m₂ with nodes := Function.update m₂.nodes a none }
          have hm' : ∀ x, x ≠ a → m'.nodes x = m₂.nodes x := fun x hx =>
            Function.update_of_ne hx _ _
          have hgetLeft : m.getChild .left a = some l.ptr := getChild_eq hnode
          have hgetRight : m₁.getChild .right a = some r.ptr := getChild_eq hnode₁
          have hfree : m₂.free a = some m' := by
            rw [free, hnode₂, Option.map_some]
          refine ⟨m', ?_, fun x hx => ?_, fun x hx => ?_, hroot₂.trans hroot₁⟩
          · simp only [RbTree.ptr, freeVmaNodes, hgetLeft, Option.bind_eq_bind, Option.bind_some]
            change (if l.ptr.isSome then freeVmaNodes fuel m l.ptr else some m).bind _ = _
            rw [hguard m l (by omega), hleft, Option.bind_some, hgetRight, Option.bind_some,
              hguard m₁ r (by omega), hright, Option.bind_some, hfree]
          · by_cases hxa : x = a
            · rw [hxa]
              exact Function.update_self ..
            · rw [hm' x hxa]
              by_cases hxr : x ∈ r.toList
              · exact hfreed₂ x hxr
              · rw [hsame₂ x hxr]
                exact hfreed₁ x (by grind)
          · rw [hm' x (by grind), hsame₂ x (by grind), hsame₁ x (by grind)]

/-- **`free_vma_tree`** frees the nodes of the tree and no others, and resets the root. -/
theorem freeVmaTree_spec (hm : m.Represents t) (hfuel : t.height < fuel) :
    ∃ m', freeVmaTree fuel m = some m' ∧ m'.root = none ∧ (∀ a ∈ t.toList, m'.nodes a = none) ∧
      m.SameBut m' t.toList := by
  obtain ⟨m', hrun, hfreed, hsame, -⟩ := freeVmaNodes_spec hm.subtree hm.nodup hfuel
  refine ⟨{ m' with root := none }, ?_, rfl, hfreed, hsame⟩
  rw [freeVmaTree, hm.root_eq]
  cases t with
  | nil =>
      obtain ⟨fuel, rfl⟩ : ∃ k, fuel = k + 1 := ⟨fuel - 1, by simp only [RbTree.height] at hfuel; omega⟩
      obtain rfl := Option.some.inj hrun
      rfl
  | node c l a r => simp only [RbTree.ptr, Option.isSome_some, if_true] at hrun ⊢; rw [hrun]; rfl

end RbHeap

end Profiling
