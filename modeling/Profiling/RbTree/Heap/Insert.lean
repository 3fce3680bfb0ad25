import Profiling.RbTree.Heap
import Profiling.RbTree.Height

/-!
# Profiling.RbTree.Heap.Insert

`rb_link_node` and `rb_insert_color` of `src/utils/rbtree.c` on nodes in memory
compute the insertion of `Profiling.RbTree`.
-/

namespace Profiling

namespace RbHeap

variable {m m' : RbHeap} {parent p q hole : Option NodePtr} {a b : NodePtr} {c d : Color}
  {side : Side} {t s u v : RbTree NodePtr} {path rest : List (Frame NodePtr)}

/-! ## The rotations -/

/-- Case 3: the parent `a`, with `t` and `s` under it, takes the place of the grandparent `g`. -/
theorem rotateGparent_spec {g : NodePtr} {x y : Option NodePtr}
    (ha : m.nodes a = some (.branch p .red side t.ptr y))
    (hg : m.nodes g = some (.branch (parentOf rest) c side x u.ptr))
    (ht : m.Subtree (some a) t) (hs : m.Subtree q s) (hu : m.Subtree (some g) u)
    (hrest : m.Around rest (some g))
    (hnodup : (t.toList ++ a :: (s.toList ++ g :: (u.toList ++ above rest))).Nodup) :
    ∃ m', insertRotate.rotateGparent side g m a s.ptr = some m' ∧
      m'.Subtree (parentOf rest) (.branch side c t a (.branch side .red s.setBlack g u)) ∧
      m'.Around rest (some a) ∧
      m.SameBut m' (t.toList ++ a :: (s.toList ++ g :: (u.toList ++ above rest))) := by
  have hga : g ≠ a := by grind
  let m₁ := m.put g (.branch (parentOf rest) c side s.ptr u.ptr)
  have hg₁ : m₁.nodes g = some (.branch (parentOf rest) c side s.ptr u.ptr) := nodes_put_self
  have ha₁ : m₁.nodes a = some (.branch p .red side t.ptr y) := (nodes_put_of_ne hga.symm).trans ha
  let m₂ := m₁.put a (.branch p .red side t.ptr (some g))
  have hsame₂ : m.SameBut m₂ [a, g] := fun x hx => by
    simp only [List.mem_cons, List.not_mem_nil, or_false, not_or] at hx
    exact (nodes_put_of_ne hx.1).trans (nodes_put_of_ne hx.2)
  have hs₂ : m₂.Subtree q s := hs.congr fun x hx => hsame₂ x (by grind)
  obtain ⟨m₃, hset, hs₃, hsame₃, hroot₃⟩ := hs₂.setParentColorIf (p := some g) (by grind)
  have hg₃ : m₃.nodes g = some (.branch (parentOf rest) c side s.ptr u.ptr) := by
    rw [hsame₃ g (by grind), nodes_put_of_ne hga, hg₁]
  have ha₃ : m₃.nodes a = some (.branch p .red side t.ptr (some g)) := by
    rw [hsame₃ a (by grind), nodes_put_self]
  have hrest₃ : m₃.Around rest (some g) := hrest.congr hroot₃ fun x hx => by
    rw [hsame₃ x (by grind), hsame₂ x (by grind)]
  obtain ⟨m', hrotate, hrest', hg', ha', hsame'⟩ :=
    hrest₃.rbRotateSetParents hg₃ ha₃ (by grind) .red
  have hkeep : ∀ x, x ∉ s.toList → x ∉ a :: g :: above rest → m'.nodes x = m.nodes x :=
    fun x hxs hx => by rw [hsame' x (by grind), hsame₃ x hxs, hsame₂ x (by grind)]
  refine ⟨m', ?_, ?_, hrest', fun x hx => hkeep x (by grind) (by grind)⟩
  · simp only [insertRotate.rotateGparent, setChild_eq hg, RbNode.setChild_branch,
      Option.bind_eq_bind, Option.bind_some]
    change (m₁.setChild side.other a (some g)).bind _ = _
    rw [setChild_eq ha₁, RbNode.setChild_branch_other, Option.bind_some]
    change (m₂.setParentColorIf s.ptr (some g) .black).bind _ = _
    rw [hset, Option.bind_some, hrotate]
  · rw [subtree_branch, subtree_branch, RbTree.ptr_branch]
    refine ⟨ha', ht.congr fun x hx => hkeep x (by grind) (by grind), ?_, ?_, ?_⟩
    · rw [hg', RbTree.ptr_setBlack]
    · refine hs₃.congr fun x hx => hsame' x ?_
      rw [RbTree.toList_setBlack] at hx
      grind
    · exact hu.congr fun x hx => hkeep x (by grind) (by grind)

/-- Cases 2 and 3: the node `a`, the red parent `b` and the grandparent `g`, where `a` is on
the same side of `b` as `b` of `g`. -/
theorem insertRotate_same {g : NodePtr}
    (ha : m.Subtree (some b) (.branch side .red t a s))
    (hb : m.nodes b = some (.branch (some g) .red side (some a) v.ptr))
    (hv : m.Subtree (some b) v)
    (hg : m.nodes g = some (.branch (parentOf rest) c side (some b) u.ptr))
    (hu : m.Subtree (some g) u) (hrest : m.Around rest (some g))
    (hnodup : (t.toList ++ a :: (s.toList ++ b :: (v.toList ++ g :: (u.toList ++ above rest)))).Nodup) :
    ∃ m', m.insertRotate side a b g = some m' ∧
      m'.Subtree (parentOf rest)
        (.branch side c (.branch side .red t a s) b (.branch side .red v.setBlack g u)) ∧
      m'.Around rest (some b) ∧
      m.SameBut m' (t.toList ++ a :: (s.toList ++ b :: (v.toList ++ g :: (u.toList ++ above rest)))) := by
  have hva : v.ptr ≠ some a := fun h => by
    have := mem_of_ptr h
    grind
  have hperm : ((RbTree.branch side .red t a s).toList ++
      b :: (v.toList ++ g :: (u.toList ++ above rest))).Perm
        (t.toList ++ a :: (s.toList ++ b :: (v.toList ++ g :: (u.toList ++ above rest)))) := by
    have h := (toList_branch_perm side .red t a s).append_right
      (b :: (v.toList ++ g :: (u.toList ++ above rest)))
    rwa [List.append_assoc, List.cons_append] at h
  obtain ⟨m', hrotate, hsub, haround, hsame⟩ := rotateGparent_spec (q := some b) (s := v)
    (t := .branch side .red t a s) (by simpa using hb) hg ha hv hu hrest (hperm.nodup_iff.mpr hnodup)
  refine ⟨m', ?_, hsub, haround, fun x hx => hsame x fun h => hx (hperm.subset h)⟩
  simp only [insertRotate, getChild_eq hb, RbNode.child_branch_other, Option.bind_eq_bind,
    Option.bind_some, if_neg hva]
  exact hrotate

/-- Case 2: the node `a` takes the place of the parent `b`, with case 3 to come.  Its parent
pointer is that from before. -/
theorem rotateParent_spec {g : NodePtr}
    (ha : m.Subtree (some b) (.branch side .red t a s))
    (hb : m.nodes b = some (.branch p .red side v.ptr (some a)))
    (hv : m.Subtree (some b) v) (hnodup : (t.toList ++ a :: (s.toList ++ b :: v.toList)).Nodup) :
    ∃ m', m.insertRotate side a b g = insertRotate.rotateGparent side g m' a s.ptr ∧
      m'.nodes a = some (.branch (some b) .red side (some b) s.ptr) ∧
      m'.Subtree (some a) (.branch side .red v b t.setBlack) ∧
      m.SameBut m' (a :: b :: t.toList) ∧ m'.root = m.root := by
  obtain ⟨hnode, ht, -⟩ := subtree_branch.mp ha
  have hab : a ≠ b := by grind
  let m₁ := m.put b (.branch p .red side v.ptr t.ptr)
  have hnode₁ : m₁.nodes a = some (.branch (some b) .red side t.ptr s.ptr) :=
    (nodes_put_of_ne hab).trans hnode
  let m₂ := m₁.put a (.branch (some b) .red side (some b) s.ptr)
  have hsame₂ : m.SameBut m₂ [a, b] := fun x hx => by
    simp only [List.mem_cons, List.not_mem_nil, or_false, not_or] at hx
    exact (nodes_put_of_ne hx.1).trans (nodes_put_of_ne hx.2)
  have ht₂ : m₂.Subtree (some a) t := ht.congr fun x hx => hsame₂ x (by grind)
  obtain ⟨m₃, hset, ht₃, hsame₃, hroot₃⟩ := ht₂.setParentColorIf (p := some b) (by grind)
  have hb₃ : m₃.nodes b = some (.branch p .red side v.ptr t.ptr) := by
    rw [hsame₃ b (by grind), nodes_put_of_ne hab.symm, nodes_put_self]
  let m' := m₃.put b (.branch (some a) .red side v.ptr t.ptr)
  have ha' : m'.nodes a = some (.branch (some b) .red side (some b) s.ptr) := by
    rw [nodes_put_of_ne hab, hsame₃ a (by grind), nodes_put_self]
  have hsame' : m.SameBut m' (a :: b :: t.toList) := fun x hx => by
    rw [nodes_put_of_ne (by grind), hsame₃ x (by grind), hsame₂ x (by grind)]
  refine ⟨m', ?_, ha', subtree_branch.mpr ⟨?_, ?_, ?_⟩, hsame', hroot₃⟩
  · simp only [insertRotate, getChild_eq hb, RbNode.child_branch_other, Option.bind_eq_bind,
      Option.bind_some, if_pos, getChild_eq hnode, RbNode.child_branch, setChild_eq hb,
      RbNode.setChild_branch_other]
    change (m₁.setChild side a (some b)).bind _ = _
    rw [setChild_eq hnode₁, RbNode.setChild_branch, Option.bind_some]
    change (m₂.setParentColorIf t.ptr (some b) .black).bind _ = _
    rw [hset, Option.bind_some, rbSetParentColor_eq hb₃, Option.bind_some]
    change (m'.getChild side.other a).bind _ = _
    rw [getChild_eq ha', RbNode.child_branch_other, Option.bind_some]
    rfl
  · rw [nodes_put_self, RbTree.ptr_setBlack]
  · exact hv.congr fun x hx => hsame' x (by grind)
  · refine ht₃.congr fun x hx => nodes_put_of_ne ?_
    rw [RbTree.toList_setBlack] at hx
    grind

/-- Where `a` is on the other side, `a` comes to the top. -/
theorem insertRotate_other {g : NodePtr}
    (ha : m.Subtree (some b) (.branch side .red t a s))
    (hb : m.nodes b = some (.branch (some g) .red side v.ptr (some a)))
    (hv : m.Subtree (some b) v)
    (hg : m.nodes g = some (.branch (parentOf rest) c side (some b) u.ptr))
    (hu : m.Subtree (some g) u) (hrest : m.Around rest (some g))
    (hnodup : (t.toList ++ a :: (s.toList ++ b :: (v.toList ++ g :: (u.toList ++ above rest)))).Nodup) :
    ∃ m', m.insertRotate side a b g = some m' ∧
      m'.Subtree (parentOf rest)
        (.branch side c (.branch side .red v b t.setBlack) a (.branch side .red s.setBlack g u)) ∧
      m'.Around rest (some a) ∧
      m.SameBut m' (t.toList ++ a :: (s.toList ++ b :: (v.toList ++ g :: (u.toList ++ above rest)))) := by
  obtain ⟨m₁, hfirst, ha₁, hb₁, hsame₁, hroot₁⟩ := rotateParent_spec (g := g) ha hb hv (by grind)
  have hperm := toList_branch_perm side .red v b t.setBlack
  rw [RbTree.toList_setBlack] at hperm
  have hnodup₁ : ((RbTree.branch side .red v b t.setBlack).toList ++
      a :: (s.toList ++ g :: (u.toList ++ above rest))).Nodup := by
    refine ((hperm.append_right _).trans (List.perm_iff_count.mpr fun x => ?_)).nodup_iff.mpr hnodup
    simp only [List.count_append, List.count_cons]
    ring
  obtain ⟨-, -, hs⟩ := subtree_branch.mp ha
  obtain ⟨m', hrotate, hsub, haround, hsame⟩ := rotateGparent_spec (q := some a) (c := c) (s := s)
    (u := u) (g := g) (t := .branch side .red v b t.setBlack) (by simpa using ha₁)
    (by rw [hsame₁ g (by grind), hg]) hb₁ (hs.congr fun x hx => hsame₁ x (by grind))
    (hu.congr fun x hx => hsame₁ x (by grind))
    (hrest.congr hroot₁ fun x hx => hsame₁ x (by grind)) hnodup₁
  refine ⟨m', hfirst.trans hrotate, hsub, haround, fun x hx => ?_⟩
  rw [hsame x (by grind), hsame₁ x (by grind)]

/-- Case 1: the parent and the uncle turn black, and the grandparent red. -/
theorem colorFlips_spec {g : NodePtr} (htp : t.ptr = some b) (hup : u.ptr = some a)
    (ht : m.Subtree (some g) t) (hu : m.Subtree (some g) u)
    (hg : m.nodes g = some (.branch (parentOf rest) c side t.ptr u.ptr))
    (hrest : m.Around rest (some g))
    (hnodup : (t.toList ++ g :: (u.toList ++ above rest)).Nodup) :
    ∃ m₁ m₂ m', m.rbSetParentColor a (some g) .black = some m₁ ∧
      m₁.rbSetParentColor b (some g) .black = some m₂ ∧
      m₂.rbParent g = some (parentOf rest) ∧
      m₂.rbSetParentColor g (parentOf rest) .red = some m' ∧
      m'.Subtree (parentOf rest) (.branch side .red t.setBlack g u.setBlack) ∧
      m'.Around rest (some g) ∧ m.SameBut m' (t.toList ++ g :: u.toList) := by
  obtain ⟨m₁, hset₁, hu₁, hsame₁, hroot₁⟩ := hu.setParentColorIf (p := some g) (by grind)
  have ht₁ : m₁.Subtree (some g) t := ht.congr fun x hx => hsame₁ x (by grind)
  obtain ⟨m₂, hset₂, ht₂, hsame₂, hroot₂⟩ := ht₁.setParentColorIf (p := some g) (by grind)
  have hsame : m.SameBut m₂ (t.toList ++ u.toList) := fun x hx => by
    rw [hsame₂ x (by grind), hsame₁ x (by grind)]
  have hg₂ : m₂.nodes g = some (.branch (parentOf rest) c side t.ptr u.ptr) :=
    (hsame g (by grind)).trans hg
  have hset := rbSetParentColor_eq (p := parentOf rest) (c := .red) hg₂
  rw [hup] at hset₁
  rw [htp] at hset₂
  refine ⟨m₁, m₂, _, hset₁, hset₂, rbParent_eq hg₂, hset, ?_, ?_, fun x hx => ?_⟩
  · refine subtree_branch.mpr ⟨?_, ?_, ?_⟩
    · rw [nodes_put_self, RbNode.with_parentColor_branch, RbTree.ptr_setBlack, RbTree.ptr_setBlack]
    · refine ht₂.congr fun x hx => nodes_put_of_ne ?_
      rw [RbTree.toList_setBlack] at hx
      grind
    · refine hu₁.congr fun x hx => ?_
      rw [RbTree.toList_setBlack] at hx
      rw [nodes_put_of_ne (by grind), hsame₂ x (by grind)]
  · exact hrest.congr (hroot₂.trans hroot₁) fun x hx => by
      rw [nodes_put_of_ne (by grind), hsame x (by grind)]
  · rw [nodes_put_of_ne (by grind), hsame x (by grind)]

/-! ## The loop -/

/-- The rotations of `insertColor` with both halves of the loop's body in one. -/
theorem insertColor_rotate {l r : RbTree NodePtr} {f g : Frame NodePtr} (hf : f.color ≠ .black)
    (hu : g.sibling.color ≠ .red) :
    RbTree.insertColor l a r (f :: g :: rest) = some (RbTree.zip
      (if f.side = g.side then
        .branch g.side g.color (.node .red l a r) f.val
          (.branch g.side .red f.sibling.setBlack g.val g.sibling)
      else
        .branch g.side g.color
          (.branch g.side .red f.sibling f.val (g.side.pick l r).setBlack) a
          (.branch g.side .red (g.side.pick r l).setBlack g.val g.sibling)) rest) := by
  rw [RbTree.insertColor, if_neg hf, if_neg hu]
  cases hg : g.side <;> cases hf : f.side <;> rfl

theorem insertColor_flip {l r : RbTree NodePtr} {f g : Frame NodePtr} (hf : f.color ≠ .black)
    (hu : g.sibling.color = .red) :
    RbTree.insertColor l a r (f :: g :: rest) =
      RbTree.insertColor
        (g.side.pick (RbTree.plug f (.node .red l a r)).setBlack g.sibling.setBlack) g.val
        (g.side.pick g.sibling.setBlack (RbTree.plug f (.node .red l a r)).setBlack) rest := by
  rw [RbTree.insertColor, if_neg hf, if_pos hu]
  cases hg : g.side <;> rfl

theorem toList_insertColor_zip {l r t' : RbTree NodePtr}
    (h : RbTree.insertColor l a r path = some t') :
    t'.toList = (RbTree.zip (.node .red l a r) path).toList := by
  rw [RbTree.toList_insertColor h, RbTree.toList_zip, RbTree.toList]

theorem toList_branch_setBlack (side : Side) (t s : RbTree NodePtr) (g : NodePtr) :
    (RbTree.branch side d t.setBlack g s.setBlack).toList = (RbTree.branch side c t g s).toList := by
  cases side <;> simp [RbTree.branch, RbTree.toList]

theorem branch_eq_node (side : Side) :
    RbTree.branch side c t a s = .node c (side.pick t s) a (side.pick s t) := by
  cases side <;> rfl

/-- What replaces a tree in its place, with the same sequence, leaves a tree. -/
theorem represents_of_same (hm : m.Represents (RbTree.zip t rest))
    (hsub : m'.Subtree (parentOf rest) u) (haround : m'.Around rest u.ptr)
    (hlist : u.toList = t.toList) : m'.Represents (RbTree.zip u rest) := by
  refine represents_zip.mpr ⟨hsub, haround, ?_⟩
  rw [hlist]
  exact (represents_zip.mp hm).2.2

/-- The body of the loop under a red parent `b`: its side is found, and the uncle's colour. -/
theorem rbInsertLoop_red {fuel : Nat} {g : NodePtr} {side' : Side} {x y : Option NodePtr}
    (hb : m.nodes b = some (.branch (some g) .red side' x y))
    (hg : m.nodes g = some (.branch q c side (some b) u.ptr)) (hu : m.Subtree (some g) u)
    (hne : u.ptr ≠ some b) :
    rbInsertLoop (fuel + 1) m a (some b) =
      if u.color = .red then do
        let m ← m.rbSetParentColor (← u.ptr) (some g) .black
        let m ← m.rbSetParentColor b (some g) .black
        let up ← m.rbParent g
        let m ← m.rbSetParentColor g up .red
        rbInsertLoop fuel m g up
      else m.insertRotate side a b g := by
  have hcolor : m.rbColor b = some .red := rbColor_eq hb
  have hgparent : m.rbRedParent b = some (some g) := rbRedParent_eq hb
  have hside : (if some b ≠ (RbNode.branch q c side (some b) u.ptr).child .right then Side.left
      else Side.right) = side := by
    cases side with
    | left => exact if_pos (Ne.symm hne)
    | right => exact if_neg (by simp [RbNode.child, RbNode.branch, Side.pick])
  rw [rbInsertLoop]
  simp only [hcolor, hgparent, getChild_eq hg, hside, RbNode.child_branch_other, hu.isRed,
    Option.bind_eq_bind, Option.bind_some, reduceCtorEq, if_false, beq_iff_eq]

/-- The last round, under a red parent with a black uncle. -/
theorem rbInsertLoop_rotate {fuel : Nat} {l r t' : RbTree NodePtr} {f g : Frame NodePtr}
    (hm : m.Represents (RbTree.zip (.node .red l a r) (f :: g :: rest)))
    (h : RbTree.insertColor l a r (f :: g :: rest) = some t') (hf : f.color ≠ .black)
    (hu : g.sibling.color ≠ .red) :
    ∃ m', rbInsertLoop (fuel + 1) m a (some f.val) = some m' ∧ m'.Represents t' ∧
      m.SameBut m' (RbTree.zip (.node .red l a r) (f :: g :: rest)).toList := by
  obtain ⟨fside, fc, b, v⟩ := f
  obtain ⟨side, c, g, u⟩ := g
  obtain rfl : fc = .red := by cases fc <;> simp_all
  rw [insertColor_rotate (by simp) hu] at h
  obtain rfl := Option.some.inj h
  simp only [RbTree.node_eq_branch side (c := .red) (l := l) (a := a) (r := r)] at hm ⊢
  generalize side.pick l r = t at hm ⊢
  generalize side.pick r l = s at hm ⊢
  have hperm : (RbTree.zip (.branch side .red t a s)
      (⟨fside, .red, b, v⟩ :: ⟨side, c, g, u⟩ :: rest)).toList.Perm
        (t.toList ++ a :: (s.toList ++ b :: (v.toList ++ g :: (u.toList ++ above rest)))) := by
    refine (toList_zip_perm _ _).trans (((toList_branch_perm ..).append_right _).trans ?_)
    simp
  have hnodup := hperm.nodup_iff.mp hm.nodup
  obtain ⟨hsub, ⟨hb, hv, hg, hus, hrest⟩, -⟩ := represents_zip.mp hm
  have hne : u.ptr ≠ some b := fun heq => by
    have := mem_of_ptr heq
    grind
  simp only [parentOf_cons, RbTree.ptr_branch] at hb hv hg hus hrest hsub
  rw [rbInsertLoop_red hb hg hus hne, if_neg hu]
  by_cases hside : fside = side
  · obtain rfl := hside
    obtain ⟨m', hrotate, hsub', haround', hsame⟩ :=
      insertRotate_same hsub hb hv hg hus hrest hnodup
    rw [if_pos rfl]
    refine ⟨m', hrotate, represents_of_same (t := .plug ⟨fside, c, g, u⟩ (.plug ⟨fside, .red, b, v⟩
      (.branch fside .red t a s))) hm hsub' (by simpa using haround') ?_, fun x hx => ?_⟩
    · cases fside <;> simp [RbTree.branch, RbTree.plug, RbTree.toList]
    · exact hsame x fun hmem => hx (hperm.mem_iff.mpr hmem)
  · obtain rfl : fside = side.other := by cases fside <;> cases side <;> simp_all [Side.other]
    rw [RbNode.branch_other] at hb
    obtain ⟨m', hrotate, hsub', haround', hsame⟩ :=
      insertRotate_other hsub hb hv hg hus hrest hnodup
    rw [if_neg hside]
    refine ⟨m', hrotate, represents_of_same (t := .plug ⟨side, c, g, u⟩ (.plug
      ⟨side.other, .red, b, v⟩ (.branch side .red t a s))) hm hsub' (by simpa using haround') ?_,
      fun x hx => ?_⟩
    · cases side <;> simp [RbTree.branch, RbTree.plug, RbTree.toList, Side.other]
    · exact hsame x fun hmem => hx (hperm.mem_iff.mpr hmem)

/-- A round under a red parent with a red uncle goes on at the grandparent. -/
theorem rbInsertLoop_flip (fuel : Nat) {l r : RbTree NodePtr} {f g : Frame NodePtr}
    (hm : m.Represents (RbTree.zip (.node .red l a r) (f :: g :: rest))) (hf : f.color ≠ .black)
    (hu : g.sibling.color = .red) :
    ∃ m', rbInsertLoop (fuel + 1) m a (some f.val) =
        rbInsertLoop fuel m' g.val (parentOf rest) ∧
      m'.Represents (RbTree.zip (.branch g.side .red (RbTree.plug f (.node .red l a r)).setBlack
        g.val g.sibling.setBlack) rest) ∧
      m.SameBut m' (RbTree.zip (.node .red l a r) (f :: g :: rest)).toList := by
  obtain ⟨fside, fc, b, v⟩ := f
  obtain ⟨side, c, g, u⟩ := g
  obtain rfl : fc = .red := by cases fc <;> simp_all
  cases u with
  | nil => cases hu
  | node cu ul d ur =>
      let t := RbTree.plug ⟨fside, .red, b, v⟩ (.node .red l a r)
      have htp : t.ptr = some b := by cases fside <;> rfl
      have hm' : m.Represents (RbTree.zip t (⟨side, c, g, .node cu ul d ur⟩ :: rest)) := hm
      have hperm := toList_zip_perm t (⟨side, c, g, .node cu ul d ur⟩ :: rest)
      have hnodup := hperm.nodup_iff.mp hm'.nodup
      rw [above_cons] at hperm hnodup
      obtain ⟨hsub, ⟨hg, hus, hrest⟩, -⟩ := represents_zip.mp hm'
      obtain ⟨-, ⟨hb, -⟩, -⟩ := represents_zip.mp hm
      have hne : (RbTree.node cu ul d ur).ptr ≠ some b := fun heq => by
        have := mem_of_ptr heq
        have := mem_of_ptr htp
        grind
      obtain ⟨m₁, m₂, m', h₁, h₂, hup, h₃, hsub', hrest', hsame⟩ :=
        colorFlips_spec htp rfl hsub hus hg hrest hnodup
      refine ⟨m', ?_, represents_of_same (t := .plug ⟨side, c, g, .node cu ul d ur⟩ t) hm' hsub'
        (by simpa using hrest') ?_, fun x hx => ?_⟩
      · simp only [parentOf_cons, htp] at hb hg
        rw [rbInsertLoop_red hb hg hus hne, if_pos hu]
        simp [RbTree.ptr, h₁, h₂, hup, h₃]
      · rw [RbTree.plug_eq_branch]
        exact toList_branch_setBlack side t _ g
      · exact hsame x fun hmem => hx (hperm.mem_iff.mpr (by grind))

/-- **The loop of `__rb_insert`** repairs the tree in memory as `insertColor` does, and writes
to its nodes only. -/
theorem rbInsertLoop_spec {fuel : Nat} {l r t' : RbTree NodePtr}
    (hm : m.Represents (RbTree.zip (.node .red l a r) path))
    (h : RbTree.insertColor l a r path = some t') (hfuel : path.length < fuel) :
    ∃ m', rbInsertLoop fuel m a (parentOf path) = some m' ∧ m'.Represents t' ∧
      m.SameBut m' t'.toList := by
  induction fuel generalizing m l a r path with
  | zero => exact absurd hfuel (Nat.not_lt_zero _)
  | succ fuel ih =>
      obtain ⟨hsub, haround, hnodup⟩ := represents_zip.mp hm
      match path with
      | [] =>
          obtain rfl := Option.some.inj h
          have hb : a ∉ l.toList ∧ a ∉ r.toList := by
            rw [RbTree.toList] at hnodup
            grind
          refine ⟨_, rbSetParentColor_eq hsub.1, ⟨haround, hsub.put_top hb, hm.nodup⟩,
            fun x hx => nodes_put_of_ne ?_⟩
          rintro rfl
          exact hx (by simp [RbTree.toList])
      | [f] =>
          rw [RbTree.insertColor] at h
          split at h
          · next hf =>
            obtain rfl := Option.some.inj h
            refine ⟨m, ?_, hm, fun _ _ => rfl⟩
            simp [rbInsertLoop, rbColor_eq haround.1, hf]
          · cases h
      | f :: g :: rest =>
          obtain ⟨hf, hfs, hg, hgs, hrest⟩ := haround
          by_cases hblack : f.color = .black
          · rw [RbTree.insertColor, if_pos hblack] at h
            obtain rfl := Option.some.inj h
            refine ⟨m, ?_, hm, fun _ _ => rfl⟩
            simp [rbInsertLoop, rbColor_eq hf, hblack]
          · have hlist := toList_insertColor_zip h
            rw [parentOf_cons]
            by_cases hu : g.sibling.color = .red
            · obtain ⟨m₁, hstep, hm₁, hsame₁⟩ := rbInsertLoop_flip fuel hm hblack hu
              rw [insertColor_flip hblack hu] at h
              simp only [List.length_cons] at hfuel
              have hrest : rest.length < fuel := by omega
              obtain ⟨m', hloop, hm', hsame⟩ := ih (by simpa [branch_eq_node] using hm₁) h hrest
              exact ⟨m', hstep.trans hloop, hm', fun x hx =>
                (hsame x hx).trans (hsame₁ x (hlist ▸ hx))⟩
            · rw [hlist]
              exact rbInsertLoop_rotate hm h hblack hu

/-! ## A new node -/

/-- `rb_link_node` hangs the new node, red and without children, into the empty place. -/
theorem rbLinkNode_spec {x : NodePtr} {n : RbNode} (hm : m.Represents (RbTree.zip .nil path))
    (hnode : m.nodes x = some n) (hx : x ∉ above path) :
    ∃ m', m.rbLinkNode x (parentOf path) (linkOf path) = some m' ∧
      m'.Represents (RbTree.zip (.node .red .nil x .nil) path) ∧
      m.SameBut m' (x :: above path) := by
  obtain ⟨-, haround, hnodup⟩ := represents_zip.mp hm
  rw [RbTree.toList, List.nil_append] at hnodup
  let m₁ := m.put x { n with parentColor := ptrWord (parentOf path) }
  let m₂ := m₁.put x { n with parentColor := ptrWord (parentOf path), right := none }
  let m₃ := m₂.put x (.branch (parentOf path) .red .left none none)
  have hsame : ∀ y, y ≠ x → m₃.nodes y = m.nodes y := fun y hy =>
    (nodes_put_of_ne hy).trans ((nodes_put_of_ne hy).trans (nodes_put_of_ne hy))
  have haround₃ : m₃.Around path none :=
    haround.congr rfl fun y hy => hsame y (ne_of_mem_of_not_mem hy hx)
  obtain ⟨m', hstore, haround', hsame'⟩ := haround₃.store hnodup (some x)
  have hlast : m₂.setChild .left x none = some m₃ := by
    rw [setChild_eq nodes_put_self]
    simp only [m₃, RbNode.setChild, RbNode.branch, packed_red]
    rfl
  refine ⟨m', ?_, represents_zip.mpr ⟨⟨(hsame' x hx).trans nodes_put_self, trivial, trivial⟩,
    haround', ?_⟩, fun y hy => ?_⟩
  · rw [rbLinkNode, setPc_eq hnode, Option.bind_eq_bind, Option.bind_some]
    change (m₁.setChild .right x none).bind _ = _
    rw [setChild_eq nodes_put_self, Option.bind_some]
    change (m₂.setChild .left x none).bind _ = _
    rw [hlast, Option.bind_some]
    exact hstore
  · simpa [RbTree.toList] using ⟨hx, hnodup⟩
  · rw [List.mem_cons, not_or] at hy
    exact (hsame' y hy.2).trans (hsame y hy.1)

section Descent

variable {κ : Type} [LinearOrder κ] (key : NodePtr → κ)

/-- The callers' search ends where `linkPath` does. -/
theorem descend_eq (x : NodePtr) {fuel : Nat} (hm : m.Represents (RbTree.zip t path))
    (hfuel : t.height < fuel) :
    descend key x fuel m (linkOf path) (parentOf path) =
      some (linkOf (RbTree.linkPath key x t path), parentOf (RbTree.linkPath key x t path)) := by
  induction fuel generalizing t path with
  | zero => exact absurd hfuel (Nat.not_lt_zero _)
  | succ fuel ih =>
      obtain ⟨-, haround, -⟩ := represents_zip.mp hm
      rw [descend, haround.load]
      cases t with
      | nil => rfl
      | node c l a r =>
          rw [RbTree.height] at hfuel
          rw [RbTree.linkPath]
          simp only [RbTree.ptr, Option.bind_eq_bind, Option.bind_some]
          split
          · exact ih (show m.Represents (RbTree.zip l (⟨.left, c, a, r⟩ :: path)) from hm) (by omega)
          · exact ih (show m.Represents (RbTree.zip r (⟨.right, c, a, l⟩ :: path)) from hm) (by omega)

/-- **Insertion in memory** is `rbInsert`, and writes to the nodes of the tree only. -/
theorem insertNode_spec {fuel : Nat} {x : NodePtr} {n : RbNode} {t' : RbTree NodePtr}
    (hm : m.Represents t) (hnode : m.nodes x = some n) (hx : x ∉ t.toList)
    (h : RbTree.rbInsert key x t = some t') (hfuel : t.height < fuel) :
    ∃ m', insertNode key fuel m x = some m' ∧ m'.Represents t' ∧ m.SameBut m' t'.toList := by
  let path := RbTree.linkPath key x t []
  have hzip : RbTree.zip .nil path = t := RbTree.zip_linkPath key x t []
  have hperm : t.toList.Perm (above path) := by
    have := toList_zip_perm .nil path
    rwa [hzip] at this
  obtain ⟨m₁, hlink, hm₁, hsame₁⟩ := rbLinkNode_spec (hzip ▸ hm : m.Represents (RbTree.zip .nil path)) hnode
    fun hmem => hx (hperm.mem_iff.mpr hmem)
  have hlength : path.length < fuel := by
    have hle : path.length ≤ t.height := RbTree.length_linkPath_le key x t []
    omega
  obtain ⟨m', hloop, hm', hsame⟩ := rbInsertLoop_spec hm₁ h hlength
  have hlist : ∀ y, y ∈ t'.toList ↔ y ∈ x :: above path := fun y => by
    rw [toList_insertColor_zip h, (toList_zip_perm _ path).mem_iff]
    rfl
  refine ⟨m', ?_, hm', fun y hy => (hsame y hy).trans (hsame₁ y fun hmem => hy ((hlist y).mpr hmem))⟩
  have hnode₁ := (represents_zip.mp hm₁).1.1
  have hdescend := descend_eq key x (show m.Represents (RbTree.zip t []) from hm) hfuel
  simp only [insertNode, Option.bind_eq_bind]
  change ((descend key x fuel m (linkOf []) (parentOf [])).bind _) = _
  rw [hdescend, Option.bind_some, hlink, Option.bind_some, rbInsertColor, rbRedParent_eq hnode₁]
  exact hloop

end Descent

end RbHeap

end Profiling
