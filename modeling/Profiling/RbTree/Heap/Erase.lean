import Profiling.RbTree.Heap.Insert

/-!
# Profiling.RbTree.Heap.Erase

`rb_erase` of `src/utils/rbtree.c` on nodes in memory computes the removal of
`Profiling.RbTree.Erase`.
-/

namespace Profiling

namespace RbHeap

variable {m m' : RbHeap} {parent p q q' hole : Option NodePtr} {a b g : NodePtr} {c d : Color}
  {side : Side} {t s u v near far : RbTree NodePtr} {path rest : List (Frame NodePtr)}

/-! ## The rotations -/

/-- Case 4: the sibling `a` takes the place of the parent `b`. -/
theorem eraseRotate_spec {f : NodePtr}
    (hb : m.nodes b = some (.branch (parentOf rest) c side t.ptr q))
    (ha : m.nodes a = some (.branch p d side near.ptr far.ptr)) (hfar : far.ptr = some f)
    (ht : m.Subtree (some b) t) (hnear : m.Subtree q' near) (hfs : m.Subtree hole far)
    (hrest : m.Around rest (some b))
    (hnodup : (t.toList ++ b :: (near.toList ++ a :: (far.toList ++ above rest))).Nodup) :
    ∃ m', m.eraseRotate side b a far.ptr = some m' ∧
      m'.Subtree (parentOf rest)
        (.branch side c (.branch side .black t b near) a far.setBlack) ∧
      m'.Around rest (some a) ∧
      m.SameBut m' (t.toList ++ b :: (near.toList ++ a :: (far.toList ++ above rest))) := by
  have hab : a ≠ b := by grind
  let m₁ := m.put b (.branch (parentOf rest) c side t.ptr near.ptr)
  have ha₁ : m₁.nodes a = some (.branch p d side near.ptr far.ptr) := (nodes_put_of_ne hab).trans ha
  let m₂ := m₁.put a (.branch p d side (some b) far.ptr)
  have hsame₂ : m.SameBut m₂ [a, b] := fun x hx => by
    simp only [List.mem_cons, List.not_mem_nil, or_false, not_or] at hx
    exact (nodes_put_of_ne hx.1).trans (nodes_put_of_ne hx.2)
  -- the far child turns black
  have hfar₂ : m₂.Subtree hole far := hfs.congr fun x hx => hsame₂ x (by grind)
  obtain ⟨m₃, hset₃, hfar₃, hsame₃, hroot₃⟩ := hfar₂.setParentColorIf (p := some a) (by grind)
  -- the near child gets another parent
  have hnear₃ : m₃.Subtree q' near := hnear.congr fun x hx => by
    rw [hsame₃ x (by grind), hsame₂ x (by grind)]
  obtain ⟨m₄, hset₄, hnear₄, hsame₄, hroot₄⟩ := hnear₃.setParentIf (p := some b) (by grind)
  have hb₄ : m₄.nodes b = some (.branch (parentOf rest) c side t.ptr near.ptr) := by
    rw [hsame₄ b (by grind), hsame₃ b (by grind), nodes_put_of_ne hab.symm, nodes_put_self]
  have ha₄ : m₄.nodes a = some (.branch p d side (some b) far.ptr) := by
    rw [hsame₄ a (by grind), hsame₃ a (by grind), nodes_put_self]
  have hrest₄ : m₄.Around rest (some b) := hrest.congr (hroot₄.trans hroot₃) fun x hx => by
    rw [hsame₄ x (by grind), hsame₃ x (by grind), hsame₂ x (by grind)]
  obtain ⟨m', hrotate, hrest', hb', ha', hsame'⟩ :=
    hrest₄.rbRotateSetParents hb₄ ha₄ (by grind) .black
  have hkeep : ∀ x, x ∉ near.toList → x ∉ far.toList → x ∉ b :: a :: above rest →
      m'.nodes x = m.nodes x := fun x hxn hxf hx => by
    rw [hsame' x hx, hsame₄ x hxn, hsame₃ x hxf, hsame₂ x (by grind)]
  refine ⟨m', ?_, ?_, hrest', fun x hx => hkeep x (by grind) (by grind) (by grind)⟩
  · rw [hfar] at hset₃
    simp only [eraseRotate, getChild_eq ha, RbNode.child_branch, Option.bind_eq_bind,
      Option.bind_some, setChild_eq hb, RbNode.setChild_branch_other]
    change (m₁.setChild side a (some b)).bind _ = _
    rw [setChild_eq ha₁, RbNode.setChild_branch, Option.bind_some]
    change (far.ptr.bind fun f => (m₂.rbSetParentColor f (some a) .black).bind _) = _
    rw [hfar, Option.bind_some]
    change (m₂.setParentColorIf (some f) (some a) .black).bind _ = _
    rw [hset₃, Option.bind_some, hset₄, Option.bind_some, hrotate]
  · rw [subtree_branch, subtree_branch, RbTree.ptr_branch, RbTree.ptr_setBlack]
    refine ⟨ha', ⟨hb', ?_, ?_⟩, ?_⟩
    · exact ht.congr fun x hx => hkeep x (by grind) (by grind) (by grind)
    · exact hnear₄.congr fun x hx => hsame' x (by grind)
    · refine hfar₃.congr fun x hx => ?_
      rw [RbTree.toList_setBlack] at hx
      rw [hsame' x (by grind), hsame₄ x (by grind)]

/-- Case 3: the near child `g` of the sibling `a` comes between it and the parent `b`.  The
parent pointers of the two are those from before; case 4 writes them. -/
theorem eraseRotateSibling_spec
    (hb : m.nodes b = some (.branch parent c side t.ptr q))
    (ha : m.nodes a = some (.branch (some b) .black side (some g) far.ptr))
    (hg : m.nodes g = some (.branch p d side u.ptr v.ptr)) (hv : m.Subtree q' v)
    (hfar : m.Subtree (some a) far)
    (hnodup : (b :: g :: (v.toList ++ a :: far.toList)).Nodup) :
    ∃ m', m.eraseRotateSibling side b a (some g) = some m' ∧
      m'.nodes b = some (.branch parent c side t.ptr (some g)) ∧
      m'.nodes g = some (.branch p d side u.ptr (some a)) ∧
      m'.Subtree (some b) (.branch side .black v.setBlack a far) ∧
      m.SameBut m' (b :: g :: a :: v.toList) ∧ m'.root = m.root := by
  have hne : b ≠ g ∧ b ≠ a ∧ g ≠ a := by grind
  let m₁ := m.put a (.branch (some b) .black side v.ptr far.ptr)
  have hg₁ : m₁.nodes g = some (.branch p d side u.ptr v.ptr) := (nodes_put_of_ne hne.2.2).trans hg
  let m₂ := m₁.put g (.branch p d side u.ptr (some a))
  have hb₂ : m₂.nodes b = some (.branch parent c side t.ptr q) :=
    (nodes_put_of_ne hne.1).trans ((nodes_put_of_ne hne.2.1).trans hb)
  let m₃ := m₂.put b (.branch parent c side t.ptr (some g))
  have hsame₃ : m.SameBut m₃ [b, g, a] := fun x hx => by
    simp only [List.mem_cons, List.not_mem_nil, or_false, not_or] at hx
    exact (nodes_put_of_ne hx.1).trans ((nodes_put_of_ne hx.2.1).trans (nodes_put_of_ne hx.2.2))
  have hv₃ : m₃.Subtree q' v := hv.congr fun x hx => hsame₃ x (by grind)
  obtain ⟨m', hset, hv', hsame, hroot⟩ := hv₃.setParentColorIf (p := some a) (by grind)
  have ha₃ : m₃.nodes a = some (.branch (some b) .black side v.ptr far.ptr) :=
    (nodes_put_of_ne hne.2.1.symm).trans ((nodes_put_of_ne hne.2.2.symm).trans nodes_put_self)
  refine ⟨m', ?_, ?_, ?_, subtree_branch.mpr ⟨?_, hv', ?_⟩, fun x hx => ?_, hroot⟩
  · simp only [eraseRotateSibling, Option.bind_eq_bind, Option.bind_some, getChild_eq hg,
      RbNode.child_branch_other, setChild_eq ha, RbNode.setChild_branch]
    change (m₁.setChild side.other g (some a)).bind _ = _
    rw [setChild_eq hg₁, RbNode.setChild_branch_other, Option.bind_some]
    change (m₂.setChild side.other b (some g)).bind _ = _
    rw [setChild_eq hb₂, RbNode.setChild_branch_other, Option.bind_some]
    exact hset
  · rw [hsame b (by grind), nodes_put_self]
  · rw [hsame g (by grind), nodes_put_of_ne hne.1.symm, nodes_put_self]
  · rw [hsame a (by grind), ha₃, RbTree.ptr_setBlack]
  · exact hfar.congr fun x hx => by rw [hsame x (by grind), hsame₃ x (by grind)]
  · rw [hsame x (by grind), hsame₃ x (by grind)]

/-- What a round reads of the sibling `a`. -/
theorem getChild_sibling (hs : m.Subtree p (.branch side d near a far)) :
    m.getChild side.other a = some far.ptr ∧ m.getChild side a = some near.ptr ∧
      m.isRed far.ptr = some (far.color == .red) ∧
      m.isRed near.ptr = some (near.color == .red) := by
  obtain ⟨ha, hnear, hfar⟩ := subtree_branch.mp hs
  rw [getChild_eq ha, getChild_eq ha, RbNode.child_branch_other, RbNode.child_branch]
  exact ⟨rfl, rfl, hfar.isRed, hnear.isRed⟩

/-- Case 4: the far child is red. -/
theorem eraseBlackSibling_far
    (hb : m.nodes b = some (.branch (parentOf rest) c side t.ptr (some a)))
    (ht : m.Subtree (some b) t) (hs : m.Subtree (some b) (.branch side .black near a far))
    (hrest : m.Around rest (some b)) (hcf : far.color = .red)
    (hnodup : (t.toList ++ b :: (near.toList ++ a :: (far.toList ++ above rest))).Nodup) :
    ∃ m', m.eraseBlackSibling side b a = some (m', none) ∧
      m'.Subtree (parentOf rest)
        (.branch side c (.branch side .black t b near) a far.setBlack) ∧
      m'.Around rest (some a) ∧
      m.SameBut m' (t.toList ++ b :: (near.toList ++ a :: (far.toList ++ above rest))) := by
  obtain ⟨ha, hnear, hfar⟩ := subtree_branch.mp hs
  obtain ⟨f, hf⟩ : ∃ f, far.ptr = some f := by
    cases far with
    | nil => cases hcf
    | node cf fl f fr => exact ⟨f, rfl⟩
  obtain ⟨m', hrotate, hsub, haround, hsame⟩ :=
    eraseRotate_spec hb ha hf ht hnear hfar hrest hnodup
  refine ⟨m', ?_, hsub, haround, hsame⟩
  obtain ⟨hgetFar, -, hredFar, -⟩ := getChild_sibling hs
  simp only [eraseBlackSibling, hgetFar, hredFar, hcf, Option.bind_eq_bind, Option.bind_some,
    hrotate]
  rfl

/-- Cases 3 and 4: the near child `g` of the sibling is red, and takes the place of the
parent. -/
theorem eraseBlackSibling_near
    (hb : m.nodes b = some (.branch (parentOf rest) c side t.ptr (some a)))
    (ht : m.Subtree (some b) t)
    (hs : m.Subtree (some b) (.branch side .black (.branch side .red u g v) a far))
    (hrest : m.Around rest (some b)) (hcf : far.color = .black)
    (hnodup : (t.toList ++
      b :: (u.toList ++ g :: (v.toList ++ a :: (far.toList ++ above rest)))).Nodup) :
    ∃ m', m.eraseBlackSibling side b a = some (m', none) ∧
      m'.Subtree (parentOf rest)
        (.branch side c (.branch side .black t b u) g (.branch side .black v.setBlack a far)) ∧
      m'.Around rest (some g) ∧
      m.SameBut m' (t.toList ++
        b :: (u.toList ++ g :: (v.toList ++ a :: (far.toList ++ above rest)))) := by
  obtain ⟨ha, hnear, hfar⟩ := subtree_branch.mp hs
  obtain ⟨hg, hu, hv⟩ := subtree_branch.mp hnear
  rw [RbTree.ptr_branch] at ha
  obtain ⟨m₁, hfirst, hb₁, hg₁, hs₁, hsame₁, hroot₁⟩ :=
    eraseRotateSibling_spec hb ha hg hv hfar (by grind)
  have hperm := toList_branch_perm side .black v.setBlack a far
  rw [RbTree.toList_setBlack] at hperm
  have hnodup₁ : (t.toList ++ b :: (u.toList ++
      g :: ((RbTree.branch side .black v.setBlack a far).toList ++ above rest))).Nodup := by
    refine List.Perm.nodup_iff (List.Perm.append_left _ (List.Perm.cons _
      (List.Perm.append_left _ (List.Perm.cons _ ?_)))) |>.mpr hnodup
    have h := hperm.append_right (above rest)
    rwa [List.append_assoc, List.cons_append] at h
  obtain ⟨m', hsecond, hsub, haround, hsame⟩ :=
    eraseRotate_spec hb₁ (show m₁.nodes g = some (.branch _ _ side u.ptr
        (RbTree.branch side .black v.setBlack a far).ptr) by simpa using hg₁)
      (RbTree.ptr_branch ..) (ht.congr fun x hx => hsame₁ x (by grind))
      (hu.congr fun x hx => hsame₁ x (by grind)) hs₁
      (hrest.congr hroot₁ fun x hx => hsame₁ x (by grind)) hnodup₁
  rw [RbTree.ptr_branch] at hsecond
  refine ⟨m', ?_, by simpa using hsub, haround, fun x hx => ?_⟩
  · obtain ⟨hgetFar, hgetNear, hredFar, hredNear⟩ := getChild_sibling hs
    rw [RbTree.ptr_branch] at hgetNear hredNear
    simp only [eraseBlackSibling, hgetFar, hgetNear, hredFar, hredNear, hcf, RbTree.color_branch,
      Option.bind_eq_bind, Option.bind_some, hfirst, hsecond]
    rfl
  · have hx' : x ∉ (RbTree.branch side .black v.setBlack a far).toList := fun hmem => hx (by
      have := hperm.mem_iff.mp hmem
      grind)
    rw [hsame x (by grind), hsame₁ x (by grind)]

/-- Case 2: the sibling `a` turns red, and the parent `b` is black in the end. -/
theorem eraseBlackSibling_flip
    (hb : m.nodes b = some (.branch (parentOf rest) c side t.ptr (some a)))
    (ht : m.Subtree (some b) t) (hs : m.Subtree (some b) (.branch side d near a far))
    (hrest : m.Around rest (some b)) (hcf : far.color = .black) (hcn : near.color = .black)
    (hnodup : (t.toList ++ b :: (near.toList ++ a :: (far.toList ++ above rest))).Nodup) :
    ∃ m', m.eraseBlackSibling side b a =
        some (m', if c = .black then parentOf rest else none) ∧
      m'.Subtree (parentOf rest) (.branch side .black t b (.branch side .red near a far)) ∧
      m'.Around rest (some b) ∧ m.SameBut m' [a, b] := by
  obtain ⟨ha, hnear, hfar⟩ := subtree_branch.mp hs
  have hab : a ≠ b := by grind
  let m₁ := m.put a (.branch (some b) .red side near.ptr far.ptr)
  have hb₁ : m₁.nodes b = some (.branch (parentOf rest) c side t.ptr (some a)) :=
    (nodes_put_of_ne hab.symm).trans hb
  let m' := m₁.put b (.branch (parentOf rest) .black side t.ptr (some a))
  have hsame : m.SameBut m' [a, b] := fun x hx => by
    simp only [List.mem_cons, List.not_mem_nil, or_false, not_or] at hx
    exact (nodes_put_of_ne hx.2).trans (nodes_put_of_ne hx.1)
  refine ⟨m', ?_, subtree_branch.mpr ⟨?_, ht.congr fun x hx => hsame x (by grind),
    subtree_branch.mpr ⟨?_, ?_, ?_⟩⟩, ?_, hsame⟩
  · obtain ⟨hgetFar, hgetNear, hredFar, hredNear⟩ := getChild_sibling hs
    have hset : m.rbSetParentColor a (some b) .red = some m₁ := rbSetParentColor_eq ha
    simp only [eraseBlackSibling, hgetFar, hgetNear, hredFar, hredNear, hcf, hcn,
      Option.bind_eq_bind, Option.bind_some, hset, rbColor_eq hb₁]
    cases c with
    | red =>
        have hset' : m₁.rbSetBlack b = some m' := rbSetBlack_eq hb₁
        simp [hset']
    | black =>
        -- the parent is black already
        have hself : m' = m₁ := put_eq_self hb₁
        simp [rbParent_eq hb₁, hself]
  · rw [nodes_put_self, RbTree.ptr_branch]
  · rw [nodes_put_of_ne hab, nodes_put_self]
  · exact hnear.congr fun x hx => hsame x (by grind)
  · exact hfar.congr fun x hx => hsame x (by grind)
  · exact hrest.congr rfl fun x hx => hsame x (by grind)

/-! ## The loop -/

theorem toList_sibling_perm (t : RbTree NodePtr) (rest : List (Frame NodePtr)) (b a : NodePtr) (d : Color) (side : Side)
    (l r : RbTree NodePtr) :
    (t.toList ++ b :: ((RbTree.node d l a r).toList ++ above rest)).Perm
      (t.toList ++ b :: ((side.pick l r).toList ++ a :: ((side.pick r l).toList ++ above rest))) := by
  refine List.Perm.append_left _ (List.Perm.cons _ ?_)
  rw [RbTree.node_eq_branch side]
  have h := (toList_branch_perm side d (side.pick l r) a (side.pick r l)).append_right (above rest)
  rwa [List.append_assoc, List.cons_append] at h

/-- **One round with a black sibling** is `repairSibling`. -/
theorem eraseBlackSibling_spec {w : RbTree NodePtr × Bool}
    (h : RbTree.repairSibling t ⟨side, c, b, s⟩ = some w) (hsp : s.ptr = some a)
    (hblack : s.color = .black)
    (hb : m.nodes b = some (.branch (parentOf rest) c side t.ptr s.ptr))
    (ht : m.Subtree (some b) t) (hs : m.Subtree (some b) s) (hrest : m.Around rest (some b))
    (hnodup : (t.toList ++ b :: (s.toList ++ above rest)).Nodup) :
    ∃ m', m.eraseBlackSibling side b a = some (m', if w.2 then parentOf rest else none) ∧
      m'.Subtree (parentOf rest) w.1 ∧ m'.Around rest w.1.ptr ∧
      m.SameBut m' (t.toList ++ b :: (s.toList ++ above rest)) := by
  cases s with
  | nil => cases hsp
  | node cs l a' r =>
      obtain rfl := Option.some.inj hsp
      obtain rfl : cs = .black := hblack
      have hperm := toList_sibling_perm t rest b a' .black side l r
      rw [hperm.nodup_iff] at hnodup
      have hmem : ∀ x, x ∉ t.toList ++ b :: ((RbTree.node .black l a' r).toList ++ above rest) ↔
          x ∉ t.toList ++
            b :: ((side.pick l r).toList ++ a' :: ((side.pick r l).toList ++ above rest)) :=
        fun x => not_congr hperm.mem_iff
      simp only [SameBut, hmem]
      rw [RbTree.node_eq_branch side] at hb hs
      rw [RbTree.ptr_branch] at hb
      simp only [RbTree.repairSibling] at h
      generalize side.pick l r = near at *
      generalize side.pick r l = far at *
      by_cases hcf : far.color = .black
      · rw [if_pos hcf] at h
        by_cases hcn : near.color = .black
        · rw [if_pos hcn] at h
          obtain rfl := Option.some.inj h
          obtain ⟨m', hround, hsub, haround, hsame⟩ :=
            eraseBlackSibling_flip hb ht hs hrest hcf hcn hnodup
          exact ⟨m', by simpa using hround, hsub, by simpa using haround,
            fun x hx => hsame x (by grind)⟩
        · rw [if_neg hcn] at h
          cases near with
          | nil => cases h
          | node cn nl n nr =>
              obtain rfl : cn = .red := by cases cn <;> simp_all [RbTree.color]
              obtain rfl := Option.some.inj h
              have hperm := (toList_branch_perm side .red (side.pick nl nr) n
                (side.pick nr nl)).append_right (a' :: (far.toList ++ above rest))
              rw [← RbTree.node_eq_branch side, List.append_assoc, List.cons_append] at hperm
              have hperm := (hperm.cons b).append_left t.toList
              rw [RbTree.node_eq_branch side] at hs
              obtain ⟨m', hround, hsub, haround, hsame⟩ :=
                eraseBlackSibling_near hb ht hs hrest hcf (hperm.nodup_iff.mp hnodup)
              exact ⟨m', hround, hsub, by simpa using haround, fun x hx =>
                hsame x fun hmem => hx (hperm.mem_iff.mpr hmem)⟩
      · rw [if_neg hcf] at h
        obtain rfl := Option.some.inj h
        have hcf : far.color = .red := by
          cases hcolor : far.color with
          | red => rfl
          | black => exact absurd hcolor hcf
        obtain ⟨m', hround, hsub, haround, hsame⟩ :=
          eraseBlackSibling_far hb ht hs hrest hcf hnodup
        exact ⟨m', hround, hsub, by simpa using haround, hsame⟩

/-- One round with a black sibling, in the whole tree. -/
theorem eraseBlackSibling_represents {w : RbTree NodePtr × Bool}
    (hm : m.Represents (RbTree.zip t (⟨side, c, b, s⟩ :: rest)))
    (h : RbTree.repairSibling t ⟨side, c, b, s⟩ = some w) (hsp : s.ptr = some a)
    (hblack : s.color = .black) :
    ∃ m', m.eraseBlackSibling side b a = some (m', if w.2 then parentOf rest else none) ∧
      m'.Represents (RbTree.zip w.1 rest) ∧
      m.SameBut m' (RbTree.zip t (⟨side, c, b, s⟩ :: rest)).toList := by
  obtain ⟨ht, ⟨hb, hs, hrest⟩, hnodup⟩ := represents_zip.mp hm
  obtain ⟨m', hround, hsub, haround, hsame⟩ :=
    eraseBlackSibling_spec h hsp hblack hb ht hs hrest hnodup
  have hperm := toList_zip_perm t (⟨side, c, b, s⟩ :: rest)
  exact ⟨m', hround, represents_of_same (t := .plug ⟨side, c, b, s⟩ t) hm hsub haround
    (RbTree.toList_repairSibling h), fun x hx => hsame x fun hmem => hx (hperm.mem_iff.mpr hmem)⟩

/-- Case 1: the red sibling `a` takes the place of the parent `b`, whose new sibling is black. -/
theorem eraseRedSibling_represents
    (hm : m.Represents (RbTree.zip t (⟨side, c, b, .branch side .red near a far⟩ :: rest)))
    (hnear : near.ptr = some g) :
    ∃ m', m.eraseRedSibling side b a = some (m', g) ∧
      m'.Represents
        (RbTree.zip t (⟨side, .red, b, near.setBlack⟩ :: ⟨side, c, a, far⟩ :: rest)) ∧
      m.SameBut m' (RbTree.zip t (⟨side, c, b, .branch side .red near a far⟩ :: rest)).toList := by
  have hperm : (RbTree.zip t (⟨side, c, b, .branch side .red near a far⟩ :: rest)).toList.Perm
      (t.toList ++ b :: (near.toList ++ a :: (far.toList ++ above rest))) := by
    refine (toList_zip_perm ..).trans (List.Perm.append_left _ (List.Perm.cons _ ?_))
    have h := (toList_branch_perm side .red near a far).append_right (above rest)
    rwa [List.append_assoc, List.cons_append] at h
  have hnodup := hperm.nodup_iff.mp hm.nodup
  obtain ⟨ht, ⟨hb, hs, hrest⟩, -⟩ := represents_zip.mp hm
  obtain ⟨ha, hnearSub, hfar⟩ := subtree_branch.mp hs
  simp only [parentOf_cons, RbTree.ptr_branch] at ht hb ha hnearSub hfar hrest
  have hab : a ≠ b := by grind
  let m₁ := m.put b (.branch (parentOf rest) c side t.ptr near.ptr)
  have ha₁ : m₁.nodes a = some (.branch (some b) .red side near.ptr far.ptr) :=
    (nodes_put_of_ne hab).trans ha
  let m₂ := m₁.put a (.branch (some b) .red side (some b) far.ptr)
  have hsame₂ : m.SameBut m₂ [a, b] := fun x hx => by
    simp only [List.mem_cons, List.not_mem_nil, or_false, not_or] at hx
    exact (nodes_put_of_ne hx.1).trans (nodes_put_of_ne hx.2)
  have hnear₂ : m₂.Subtree (some a) near := hnearSub.congr fun x hx => hsame₂ x (by grind)
  obtain ⟨m₃, hset, hnear₃, hsame₃, hroot₃⟩ := hnear₂.setParentColorIf (p := some b) (by grind)
  have hb₃ : m₃.nodes b = some (.branch (parentOf rest) c side t.ptr near.ptr) := by
    rw [hsame₃ b (by grind), nodes_put_of_ne hab.symm, nodes_put_self]
  have ha₃ : m₃.nodes a = some (.branch (some b) .red side (some b) far.ptr) := by
    rw [hsame₃ a (by grind), nodes_put_self]
  have hrest₃ : m₃.Around rest (some b) := hrest.congr hroot₃ fun x hx => by
    rw [hsame₃ x (by grind), hsame₂ x (by grind)]
  obtain ⟨m', hrotate, hrest', hb', ha', hsame'⟩ :=
    hrest₃.rbRotateSetParents hb₃ ha₃ (by grind) .red
  have hkeep : ∀ x, x ∉ near.toList → x ∉ b :: a :: above rest → m'.nodes x = m.nodes x :=
    fun x hxn hx => by rw [hsame' x hx, hsame₃ x hxn, hsame₂ x (by grind)]
  refine ⟨m', ?_, represents_zip.mpr ⟨?_, ⟨?_, ?_, ?_, ?_, hrest'⟩, ?_⟩, fun x hx => ?_⟩
  · rw [hnear] at hset
    simp only [eraseRedSibling, getChild_eq ha, RbNode.child_branch, Option.bind_eq_bind,
      Option.bind_some, setChild_eq hb, RbNode.setChild_branch_other]
    change (m₁.setChild side a (some b)).bind _ = _
    rw [setChild_eq ha₁, RbNode.setChild_branch, Option.bind_some]
    change (near.ptr.bind fun n => (m₂.rbSetParentColor n (some b) .black).bind _) = _
    rw [hnear, Option.bind_some]
    change (m₂.setParentColorIf (some g) (some b) .black).bind _ = _
    rw [hset, Option.bind_some, hrotate]
    rfl
  · exact ht.congr fun x hx => hkeep x (by grind) (by grind)
  · rw [RbTree.ptr_setBlack]
    exact hb'
  · refine hnear₃.congr fun x hx => hsame' x ?_
    rw [RbTree.toList_setBlack] at hx
    grind
  · exact ha'
  · exact hfar.congr fun x hx => hkeep x (by grind) (by grind)
  · simp only [above_cons, RbTree.toList_setBlack]
    exact hnodup
  · have hx' := mt hperm.mem_iff.mpr hx
    exact hkeep x (by grind) (by grind)

theorem toList_redSibling (side : Side) (t near : RbTree NodePtr) :
    (RbTree.zip t (⟨side, .red, b, near.setBlack⟩ :: ⟨side, c, a, far⟩ :: rest)).toList =
      (RbTree.zip t (⟨side, c, b, .branch side .red near a far⟩ :: rest)).toList := by
  refine @RbTree.toList_zip_congr _ (.plug ⟨side, c, a, far⟩ (.plug ⟨side, .red, b, near.setBlack⟩ t))
    (.plug ⟨side, c, b, .branch side .red near a far⟩ t) rest ?_
  cases side <;> simp [RbTree.plug, RbTree.branch, RbTree.toList]

/-- Under a red parent nothing stays short, and what stays short has the parent on top. -/
theorem repairSibling_up {w : RbTree NodePtr × Bool}
    (h : RbTree.repairSibling t ⟨side, c, b, s⟩ = some w) :
    (c = .red → w.2 = false) ∧ (w.2 = true → w.1.ptr = some b) := by
  cases s with
  | nil => cases h
  | node cs l a r =>
      simp only [RbTree.repairSibling] at h
      generalize side.pick l r = near at h
      generalize side.pick r l = far at h
      split at h
      · split at h
        · obtain rfl := Option.some.inj h
          exact ⟨fun hc => by simp [hc], fun _ => RbTree.ptr_branch ..⟩
        · cases near with
          | nil => cases h
          | node cn nl n nr =>
              obtain rfl := Option.some.inj h
              exact ⟨fun _ => rfl, fun hshort => absurd hshort Bool.false_ne_true⟩
      · obtain rfl := Option.some.inj h
        exact ⟨fun _ => rfl, fun hshort => absurd hshort Bool.false_ne_true⟩

/-- The side of the parent that a tree is on is read off its right child. -/
theorem side_of_sibling (parent) (c : Color) (side : Side) (hsib : s.ptr ≠ none)
    (hdisj : ∀ x ∈ t.toList, x ∉ s.toList) :
    (if t.ptr ≠ (RbNode.branch parent c side t.ptr s.ptr).child .right then Side.left
      else Side.right) = side := by
  cases side with
  | right => exact if_neg (by simp [RbNode.child, RbNode.branch, Side.pick])
  | left =>
      refine if_pos fun heq => ?_
      change t.ptr = s.ptr at heq
      cases hs : s.ptr with
      | none => exact hsib hs
      | some x => exact hdisj x (mem_of_ptr (heq.trans hs)) (mem_of_ptr hs)

/-- A round of the loop with the sibling `a`: case 1 gives way to a black sibling. -/
theorem rbEraseColor_succ (fuel : Nat) {cs : Color} {l r : RbTree NodePtr}
    (hm : m.Represents (RbTree.zip t (⟨side, c, b, .node cs l a r⟩ :: rest))) :
    rbEraseColor (fuel + 1) m t.ptr b =
      (if cs = .red then m.eraseRedSibling side b a else some (m, a)).bind fun red =>
        (red.1.eraseBlackSibling side b red.2).bind fun black =>
          black.2.elim (some black.1) (rbEraseColor fuel black.1 (some b)) := by
  obtain ⟨-, ⟨hb, hs, -⟩, hnodup⟩ := represents_zip.mp hm
  rw [above_cons] at hnodup
  have hside := side_of_sibling (parentOf rest) c side (s := .node cs l a r)
    (t := t) (Option.some_ne_none a) (by grind)
  simp only [rbEraseColor, getChild_eq hb, hside, RbNode.child_branch_other, Option.bind_eq_bind,
    Option.bind_some]
  simp only [RbTree.ptr, Option.bind_some, rbColor_eq hs.1]
  cases cs with
  | red =>
      refine congrArg (Option.bind _) (funext fun red => ?_)
      refine congrArg (Option.bind _) (funext fun black => ?_)
      obtain ⟨m', _ | up⟩ := black <;> rfl
  | black =>
      refine congrArg (Option.bind _) (funext fun black => ?_)
      obtain ⟨m', _ | up⟩ := black <;> rfl

/-- The sibling is red: the parent is red after case 1, so that one round is enough. -/
theorem rbEraseColor_red (fuel : Nat) {l r t' : RbTree NodePtr}
    (hm : m.Represents (RbTree.zip t (⟨side, c, b, .node .red l a r⟩ :: rest)))
    (h : RbTree.eraseColor t (⟨side, c, b, .node .red l a r⟩ :: rest) = some t') :
    ∃ m', rbEraseColor (fuel + 1) m t.ptr b = some m' ∧ m'.Represents t' ∧
      m.SameBut m' (RbTree.zip t (⟨side, c, b, .node .red l a r⟩ :: rest)).toList := by
  rw [rbEraseColor_succ fuel hm]
  simp only [RbTree.eraseColor] at h
  rw [RbTree.node_eq_branch side] at hm ⊢
  generalize side.pick l r = near at *
  generalize side.pick r l = far at *
  cases near with
  | nil => cases h
  | node cn nl n nr =>
      obtain ⟨w, hw, rfl⟩ := Option.map_eq_some_iff.mp h
      obtain ⟨m₁, hred, hm₁, hsame₁⟩ := eraseRedSibling_represents hm rfl
      obtain ⟨m', hround, hm', hsame⟩ := eraseBlackSibling_represents hm₁ hw rfl rfl
      rw [(repairSibling_up hw).1 rfl] at hround
      refine ⟨m', ?_, hm', fun x hx => (hsame x ?_).trans (hsame₁ x hx)⟩
      · simp only [if_pos, hred, Option.bind_some, hround]
        rfl
      · rw [toList_redSibling]
        exact hx

/-- **The loop of `____rb_erase_color`** repairs the tree in memory as `eraseColor` does, and
writes to its nodes only. -/
theorem rbEraseColor_spec {fuel : Nat} {f : Frame NodePtr} {t' : RbTree NodePtr}
    (hm : m.Represents (RbTree.zip t (f :: rest)))
    (h : RbTree.eraseColor t (f :: rest) = some t') (hfuel : rest.length < fuel) :
    ∃ m', rbEraseColor fuel m t.ptr f.val = some m' ∧ m'.Represents t' ∧
      m.SameBut m' (RbTree.zip t (f :: rest)).toList := by
  induction fuel generalizing m t f rest with
  | zero => exact absurd hfuel (Nat.not_lt_zero _)
  | succ fuel ih =>
      obtain ⟨side, c, b, s⟩ := f
      cases s with
      | nil => cases h
      | node cs l a r =>
          cases cs with
          | red => exact rbEraseColor_red fuel hm h
          | black =>
              rw [rbEraseColor_succ fuel hm]
              simp only [RbTree.eraseColor] at h
              cases hw : RbTree.repairSibling t ⟨side, c, b, .node .black l a r⟩ with
              | none =>
                  rw [hw] at h
                  cases h
              | some w =>
                  rw [hw] at h
                  simp only at h
                  obtain ⟨m₁, hround, hm₁, hsame₁⟩ := eraseBlackSibling_represents hm hw rfl rfl
                  simp only [reduceCtorEq, if_false, Option.bind_some, hround]
                  have hlist : (RbTree.zip w.1 rest).toList =
                      (RbTree.zip t (⟨side, c, b, .node .black l a r⟩ :: rest)).toList :=
                    RbTree.toList_zip_congr (RbTree.toList_repairSibling hw)
                  by_cases hshort : w.2 = true
                  · rw [if_pos hshort] at h ⊢
                    cases rest with
                    | nil =>
                        obtain rfl := Option.some.inj h
                        exact ⟨m₁, rfl, hm₁, hsame₁⟩
                    | cons f rest =>
                        obtain ⟨m', hloop, hm', hsame⟩ := ih hm₁ h (by simpa using hfuel)
                        rw [(repairSibling_up hw).2 hshort] at hloop
                        exact ⟨m', hloop, hm', fun x hx =>
                          (hsame x (hlist ▸ hx)).trans (hsame₁ x hx)⟩
                  · rw [if_neg hshort] at h ⊢
                    obtain rfl := Option.some.inj h
                    exact ⟨m₁, rfl, hm₁, hsame₁⟩

/-! ## The successor -/

/-- The nodes of a path that ends at `parent`, with `hole` for the child at its other end. -/
def Segment (m : RbHeap) (parent : Option NodePtr) : List (Frame NodePtr) → Option NodePtr → Prop
  | [], _ => True
  | f :: path, hole =>
      m.nodes f.val =
          some (.branch ((parentOf path).or parent) f.color f.side hole f.sibling.ptr) ∧
        m.Subtree (some f.val) f.sibling ∧ m.Segment parent path (some f.val)

theorem Segment.congr (h : m.Segment parent path hole)
    (hsame : ∀ a ∈ above path, m'.nodes a = m.nodes a) : m'.Segment parent path hole := by
  induction path generalizing hole with
  | nil => trivial
  | cons f path ih =>
      simp only [above_cons, List.mem_cons, List.mem_append] at hsame
      obtain ⟨hnode, hsibling, hpath⟩ := h
      exact ⟨(hsame f.val (.inl rfl)).trans hnode,
        hsibling.congr fun b hb => hsame b (.inr (.inl hb)),
        ih hpath fun b hb => hsame b (.inr (.inr hb))⟩

theorem subtree_zip : m.Subtree parent (RbTree.zip t path) ↔
    m.Subtree ((parentOf path).or parent) t ∧ m.Segment parent path t.ptr := by
  induction path generalizing t with
  | nil => exact ⟨fun h => ⟨h, trivial⟩, fun h => h.1⟩
  | cons f path ih =>
      rw [RbTree.zip_cons, ih, RbTree.plug_eq_branch, subtree_branch,
        RbTree.ptr_branch, Segment, parentOf_cons, Option.some_or]
      tauto

theorem parentOf_append (path rest : List (Frame NodePtr)) :
    parentOf (path ++ rest) = (parentOf path).or (parentOf rest) := by
  cases path <;> rfl

/-- The top of a path does not depend on what is at its end. -/
theorem ptr_zip (h : t.ptr = s.ptr ∨ path ≠ []) :
    (RbTree.zip t path).ptr = (RbTree.zip s path).ptr := by
  induction path generalizing t s with
  | nil => exact h.resolve_right fun hne => hne rfl
  | cons f path ih =>
      rw [RbTree.zip_cons, RbTree.zip_cons]
      refine ih (.inl ?_)
      simp only [RbTree.plug_eq_branch, RbTree.ptr_branch]

/-- A tree at the end of a path that hangs under the node of another one. -/
theorem represents_zip_append {f : Frame NodePtr}
    (hsub : m.Subtree ((parentOf path).or (some f.val)) t)
    (hseg : m.Segment (some f.val) path t.ptr)
    (haround : m.Around (f :: rest) (RbTree.zip t path).ptr)
    (hnodup : (t.toList ++ above path ++ above (f :: rest)).Nodup) :
    m.Represents (RbTree.zip t (path ++ f :: rest)) := by
  rw [RbTree.zip, List.foldl_append, ← RbTree.zip, ← RbTree.zip]
  refine represents_zip.mpr ⟨subtree_zip.mpr ⟨hsub, hseg⟩, haround, ?_⟩
  exact ((toList_zip_perm t path).append_right _).nodup_iff.mpr hnodup

/-- Another child takes the place at the end of a path. -/
theorem Segment.setHole {f : Frame NodePtr} (h : m.Segment parent (f :: path) hole)
    (hnodup : (above (f :: path)).Nodup) (new : Option NodePtr) :
    ∃ m', m.setChild f.side f.val new = some m' ∧ m'.Segment parent (f :: path) new ∧
      m.SameBut m' (above (f :: path)) ∧ m'.root = m.root := by
  obtain ⟨hnode, hsibling, hpath⟩ := h
  rw [above_cons] at hnodup ⊢
  refine ⟨_, setChild_eq hnode, ⟨by simp, ?_, ?_⟩, fun x hx => nodes_put_of_ne (by grind), rfl⟩
  · exact hsibling.congr fun x hx => nodes_put_of_ne (by grind)
  · exact hpath.congr fun x hx => nodes_put_of_ne (by grind)

/-- The other end of a path comes under another node. -/
theorem Segment.setTop (h : m.Segment parent path t.ptr) (hne : path ≠ [])
    (htop : (RbTree.zip t path).ptr = some b) (hnodup : (above path).Nodup)
    (q : Option NodePtr) :
    ∃ m', m.rbSetParent b q = some m' ∧ m'.Segment q path t.ptr ∧ m.SameBut m' (above path) ∧
      m'.root = m.root := by
  induction path generalizing t with
  | nil => exact absurd rfl hne
  | cons f path ih =>
      obtain ⟨hnode, hsibling, hpath⟩ := h
      rw [above_cons] at hnodup ⊢
      rw [RbTree.zip_cons] at htop
      have hplug : (RbTree.plug f t).ptr = some f.val := by
        rw [RbTree.plug_eq_branch, RbTree.ptr_branch]
      cases path with
      | nil =>
          obtain rfl : f.val = b := Option.some.inj (hplug.symm.trans htop)
          refine ⟨_, rbSetParent_eq hnode, ⟨nodes_put_self, ?_, trivial⟩, fun x hx => ?_, rfl⟩
          · exact hsibling.congr fun x hx => nodes_put_of_ne (by grind)
          · exact nodes_put_of_ne (by grind)
      | cons g path =>
          rw [← hplug] at hpath
          obtain ⟨m', hset, hpath', hsame, hroot⟩ := ih hpath (by simp) htop (by grind)
          rw [hplug] at hpath'
          refine ⟨m', hset, ⟨(hsame f.val (by grind)).trans hnode, ?_, hpath'⟩,
            fun x hx => hsame x (by grind), hroot⟩
          exact hsibling.congr fun x hx => hsame x (by grind)

/-- The loop down to the successor ends at the leftmost node, with its parent. -/
theorem successorLoop_eq {fuel : Nat} {l r : RbTree NodePtr} (path : List (Frame NodePtr))
    (h : m.Subtree q (.node c l a r))
    (hfuel : l.height < fuel) (hpath : parentOf path = some b) :
    ∃ b', successorLoop fuel m b a = some (b', (RbTree.leftmost c l a r path).val) ∧
      parentOf (RbTree.leftmost c l a r path).path = some b' := by
  induction fuel generalizing q c l a r path b with
  | zero => exact absurd hfuel (Nat.not_lt_zero _)
  | succ fuel ih =>
      rw [successorLoop, getChild_eq h.1]
      cases l with
      | nil => exact ⟨b, rfl, hpath⟩
      | node c' l' a' r' =>
          rw [RbTree.height] at hfuel
          exact ih (⟨.left, c, a, r⟩ :: path) h.2.1 (by omega) rfl

theorem side_leftmost {l r : RbTree NodePtr} (path : List (Frame NodePtr)) (h : ∀ f ∈ path, f.side = .left) :
    ∀ f ∈ (RbTree.leftmost c l a r path).path, f.side = .left := by
  fun_induction RbTree.leftmost c l a r path with
  | case1 => exact h
  | case2 c a r path c' l' a' r' ih => exact ih (List.forall_mem_cons.mpr ⟨rfl, h⟩)

/-- The leftmost node, back in its place. -/
theorem zip_of_leftmost {sc : Color} {l r sr : RbTree NodePtr} {s : NodePtr}
    (hp : RbTree.leftmost c l a r [] = ⟨sc, .nil, s, sr, path⟩) :
    RbTree.zip (.node sc .nil s sr) path = .node c l a r := by
  have h := RbTree.whole_leftmost c l a r []
  rw [hp] at h
  exact h

theorem perm_of_leftmost {sc : Color} {l r sr : RbTree NodePtr} {s : NodePtr}
    (hp : RbTree.leftmost c l a r [] = ⟨sc, .nil, s, sr, path⟩) :
    (RbTree.node c l a r).toList.Perm (s :: (sr.toList ++ above path)) := by
  rw [← zip_of_leftmost hp]
  exact toList_zip_perm ..

/-- **The successor `s`** leaves its place to its right child, and gets the right child `b` of
the node that is erased. -/
theorem detachSuccessor_spec {fuel : Nat} {sc cr : Color} {sr rl rr : RbTree NodePtr}
    {s : NodePtr} (hsub : m.Subtree (some a) (.node cr rl b rr))
    (hp : RbTree.leftmost cr rl b rr [] = ⟨sc, .nil, s, sr, path⟩)
    (hnodup : (s :: (sr.toList ++ above path)).Nodup) (hfuel : rl.height < fuel) :
    ∃ m' b', m.detachSuccessor fuel b = some (m', b', s, sr.ptr) ∧
      (parentOf path).or (some s) = some b' ∧ m'.Segment (some s) path sr.ptr ∧
      (∃ q, m'.nodes s = some (.branch q sc .right (RbTree.zip sr path).ptr none)) ∧
      m'.Subtree (some s) sr ∧ m.SameBut m' (s :: above path) ∧ m'.root = m.root := by
  have hwhole := zip_of_leftmost hp
  have hzip := hsub
  rw [← hwhole, subtree_zip] at hzip
  obtain ⟨hs, hseg⟩ := hzip
  cases rl with
  | nil =>
      obtain ⟨rfl, -, rfl, rfl, rfl⟩ := Place.mk.injEq .. ▸ hp
      refine ⟨m, b, ?_, rfl, trivial, ⟨_, hs.1⟩, hs.2.2, fun _ _ => rfl, rfl⟩
      simp [detachSuccessor, getChild_eq hsub.1, RbNode.child, RbNode.branch, Side.pick, RbTree.ptr]
  | node cl ll l lr =>
      rw [RbTree.height] at hfuel
      rw [RbTree.leftmost] at hp
      obtain ⟨b', hloop, hb'⟩ := successorLoop_eq [⟨.left, cr, b, rr⟩] hsub.2.1
        (by omega : _ < fuel) rfl
      have hside := side_leftmost (c := cl) (l := ll) (a := l) (r := lr)
        [⟨.left, cr, b, rr⟩] (by simp)
      rw [hp] at hloop hb' hside
      cases path with
      | nil => cases hb'
      | cons f rest =>
          obtain rfl := Option.some.inj hb'
          obtain ⟨m₁, hset₁, hseg₁, hsame₁, hroot₁⟩ := hseg.setHole (by grind) sr.ptr
          rw [hside f (by simp)] at hset₁
          have hs₁ : m₁.nodes s = some (.branch (some f.val) sc .left none sr.ptr) :=
            (hsame₁ s (by grind)).trans hs.1
          let m₂ := m₁.put s (.branch (some f.val) sc .left none (some b))
          have hseg₂ : m₂.Segment (some a) (f :: rest) sr.ptr :=
            hseg₁.congr fun x hx => nodes_put_of_ne (by grind)
          have htop : (RbTree.zip sr (f :: rest)).ptr = some b := by
            rw [ptr_zip (s := .node sc .nil s sr) (.inr (by simp)), hwhole]
            rfl
          obtain ⟨m', hset, hseg', hsame, hroot⟩ :=
            hseg₂.setTop (by simp) htop (by grind) (some s)
          refine ⟨m', f.val, ?_, rfl, hseg', ⟨some f.val, ?_⟩, ?_, fun x hx => ?_, ?_⟩
          · have hleft : m.getChild .left b = some (some l) := getChild_eq hsub.1
            have hright : m.getChild .right s = some sr.ptr := getChild_eq hs.1
            have hset₂ : m₁.setChild .right s (some b) = some m₂ := setChild_eq hs₁
            simp only [detachSuccessor, hleft, hloop, hright, hset₁, hset₂, hset,
              Option.bind_eq_bind, Option.bind_some]
            rfl
          · rw [hsame s (by grind), nodes_put_self, htop]
            rfl
          · exact hs.2.2.congr fun x hx => by
              rw [hsame x (by grind), nodes_put_of_ne (by grind), hsame₁ x (by grind)]
          · rw [hsame x (by grind), nodes_put_of_ne (by grind), hsame₁ x (by grind)]
          · exact hroot.trans hroot₁

/-! ## The removal -/

theorem above_perm (path : List (Frame NodePtr)) :
    (above path).Perm (RbTree.before path ++ RbTree.after path) := by
  have h := toList_zip_perm .nil path
  rw [RbTree.toList_zip] at h
  simpa [RbTree.toList] using h.symm

/-- The end of `rb_erase`, where a node of the colour `c` has left an empty place. -/
theorem rebalance_spec {fuel : Nat} {t' : RbTree NodePtr} (hm : m.Represents (RbTree.zip .nil path))
    (h : RbTree.eraseLeaf c path = some t') (hfuel : path.length ≤ fuel) :
    ∃ m', (match if c = .black then parentOf path else none with
        | none => some m
        | some parent => rbEraseColor fuel m none parent) = some m' ∧
      m'.Represents t' ∧ m.SameBut m' (above path) := by
  rw [RbTree.eraseLeaf] at h
  by_cases hc : c = .black
  · rw [if_pos hc] at h ⊢
    cases path with
    | nil =>
        obtain rfl := Option.some.inj h
        exact ⟨m, rfl, hm, fun _ _ => rfl⟩
    | cons f path =>
        obtain ⟨m', hloop, hm', hsame⟩ := rbEraseColor_spec hm h (by simpa using hfuel)
        exact ⟨m', hloop, hm', fun x hx =>
          hsame x fun hmem => hx ((toList_zip_perm _ _).mem_iff.mp hmem)⟩
  · rw [if_neg hc] at h ⊢
    obtain rfl := Option.some.inj h
    exact ⟨m, rfl, hm, fun _ _ => rfl⟩

/-- A node without children. -/
theorem rbErase_leaf {fuel : Nat} {t' : RbTree NodePtr}
    (hm : m.Represents (RbTree.zip (.node c .nil a .nil) path))
    (h : RbTree.eraseLeaf c path = some t') (hfuel : path.length ≤ fuel) :
    ∃ m', m.rbErase fuel a = some m' ∧ m'.Represents t' ∧ m.SameBut m' (above path) := by
  obtain ⟨⟨hnode, -⟩, haround, hnodup⟩ := represents_zip.mp hm
  simp only [RbTree.toList, List.nil_append, List.cons_append, List.nodup_cons] at hnodup
  obtain ⟨m₁, hchange, haround₁, hsame₁⟩ := haround.rbChangeChild hnodup.2 hnodup.1 none
  have hm₁ : m₁.Represents (RbTree.zip .nil path) :=
    represents_zip.mpr ⟨trivial, haround₁, hnodup.2⟩
  obtain ⟨m', hend, hm', hsame⟩ := rebalance_spec hm₁ h hfuel
  refine ⟨m', ?_, hm', fun x hx => (hsame x hx).trans (hsame₁ x hx)⟩
  have hchild : m.getChild .right a = some none := getChild_eq hnode
  have htmp : m.getChild .left a = some none := getChild_eq hnode
  simp only [rbErase, rbEraseAugmented, hchild, htmp, getParentColor_eq hnode,
    RbNode.parentColor_branch, rbParentOf_packed, rbColorOf_packed, hchange, Option.bind_eq_bind,
    Option.bind_some]
  exact hend

/-- The only child takes the place and the colour of its parent. -/
theorem rbErase_only (fuel : Nat) (side : Side) {l r : RbTree NodePtr}
    (hm : m.Represents (RbTree.zip (.branch side c .nil a (.node d l b r)) path)) :
    ∃ m', m.rbErase fuel a = some m' ∧ m'.Represents (RbTree.zip (.node c l b r) path) ∧
      m.SameBut m' ((RbTree.node d l b r).toList ++ above path) := by
  have hperm : (RbTree.zip (.branch side c .nil a (.node d l b r)) path).toList.Perm
      (a :: ((RbTree.node d l b r).toList ++ above path)) :=
    (toList_zip_perm ..).trans ((toList_branch_perm ..).append_right _)
  have hnodup := hperm.nodup_iff.mp hm.nodup
  obtain ⟨hsub, haround, -⟩ := represents_zip.mp hm
  obtain ⟨hnode, -, hb⟩ := subtree_branch.mp hsub
  have hbt : b ∈ (RbTree.node d l b r).toList := by simp [RbTree.toList]
  have hlr : b ∉ l.toList ∧ b ∉ r.toList := by
    rw [RbTree.toList] at hnodup
    grind
  rw [RbTree.ptr_branch] at haround
  have hrep : ∀ m' : RbHeap, m'.Subtree (parentOf path) (.node c l b r) →
      m'.Around path (some b) → m'.Represents (RbTree.zip (.node c l b r) path) :=
    fun m' hsub' haround' => represents_zip.mpr ⟨hsub', haround', (List.nodup_cons.mp hnodup).2⟩
  have hpc := getParentColor_eq hnode
  rw [RbNode.parentColor_branch] at hpc
  cases side with
  | left =>
      -- the right child: the parent is written first
      obtain ⟨m₁, hchange, haround₁, hsame₁⟩ :=
        haround.rbChangeChild (by grind) (by grind) (some b)
      have hb₁ : m₁.Subtree (some a) (.node d l b r) := hb.congr fun x hx => hsame₁ x (by grind)
      refine ⟨_, ?_, hrep _ (hb₁.put_top hlr)
        (haround₁.congr rfl fun x hx => nodes_put_of_ne (by grind)), fun x hx => ?_⟩
      · have hchild : m.getChild .right a = some (some b) := getChild_eq hnode
        have htmp : m.getChild .left a = some none := getChild_eq hnode
        simp only [rbErase, rbEraseAugmented, hchild, htmp, hpc, rbParentOf_packed, hchange,
          setPc_eq hb₁.1, Option.bind_eq_bind, Option.bind_some]
        rfl
      · rw [nodes_put_of_ne (by grind), hsame₁ x (by grind)]
  | right =>
      let m₁ := m.put b (.branch (parentOf path) c .left l.ptr r.ptr)
      have hset : m.setPc b (packed (parentOf path) c) = some m₁ := setPc_eq hb.1
      have haround' : m₁.Around path (some a) :=
        haround.congr rfl fun x hx => nodes_put_of_ne (by grind)
      obtain ⟨m', hchange, haround₁, hsame₁⟩ :=
        haround'.rbChangeChild (by grind) (by grind) (some b)
      refine ⟨m', ?_, hrep m' ((hb.put_top hlr).congr fun x hx => hsame₁ x ?_) haround₁,
        fun x hx => ?_⟩
      · have hchild : m.getChild .right a = some none := getChild_eq hnode
        have htmp : m.getChild .left a = some (some b) := getChild_eq hnode
        simp only [rbErase, rbEraseAugmented, hchild, htmp, hpc, rbParentOf_packed, hchange, hset,
          Option.bind_eq_bind, Option.bind_some]
        rfl
      · have : x ∈ (RbTree.node d l b r).toList := hx
        grind
      · rw [hsame₁ x (by grind), nodes_put_of_ne (by grind)]

/-- The successor `s` has left its place, and takes over the children of the node `a`. -/
theorem adoptChildren_spec {fuel : Nat} {sc cr : Color} {sr rl rr left : RbTree NodePtr}
    {s la : NodePtr} (hleft : m.Subtree (some a) left) (hla : left.ptr = some la)
    (hright : m.Subtree (some a) (.node cr rl b rr))
    (hp : RbTree.leftmost cr rl b rr [] = ⟨sc, .nil, s, sr, path⟩) (hfuel : rl.height < fuel)
    (hnodup : (left.toList ++ a :: (s :: (sr.toList ++ above path))).Nodup) :
    ∃ m₁ m₂ m' b' q, m.detachSuccessor fuel b = some (m₁, b', s, sr.ptr) ∧
      m₁.nodes a = m.nodes a ∧ m₁.setChild .left s (some la) = some m₂ ∧
      m₂.rbSetParent la (some s) = some m' ∧ (parentOf path).or (some s) = some b' ∧
      m'.Segment (some s) path sr.ptr ∧
      m'.nodes s = some (.branch q sc .right (RbTree.zip sr path).ptr left.ptr) ∧
      m'.Subtree (some s) sr ∧ m'.Subtree (some s) left ∧
      m.SameBut m' (s :: above path ++ left.toList) ∧ m'.root = m.root := by
  obtain ⟨m₁, b', hdetach, hb', hseg₁, ⟨q, hs₁⟩, hsr₁, hsame₁, hroot₁⟩ :=
    detachSuccessor_spec hright hp (by grind) hfuel
  let m₂ := m₁.put s (.branch q sc .right (RbTree.zip sr path).ptr left.ptr)
  have hleft₂ : m₂.Subtree (some a) left := hleft.congr fun x hx => by
    rw [nodes_put_of_ne (by grind), hsame₁ x (by grind)]
  obtain ⟨m', hset, hleft', hsame', hroot'⟩ := hleft₂.setParentIf (p := some s) (by grind)
  have hset₂ : m₁.setChild .left s left.ptr = some m₂ := setChild_eq hs₁
  rw [hla] at hset hset₂
  have hkeep : ∀ x, x ≠ s → x ∉ left.toList → m'.nodes x = m₁.nodes x := fun x hxs hx =>
    (hsame' x hx).trans (nodes_put_of_ne hxs)
  refine ⟨m₁, m₂, m', b', q, hdetach, hsame₁ a (by grind), hset₂, hset, hb', ?_, ?_, ?_, hleft',
    fun x hx => ?_, hroot'.trans hroot₁⟩
  · exact hseg₁.congr fun x hx => hkeep x (by grind) (by grind)
  · rw [hsame' s (by grind), nodes_put_self]
  · exact hsr₁.congr fun x hx => hkeep x (by grind) (by grind)
  · rw [hkeep x (by grind) (by grind), hsame₁ x (by grind)]

/-- The successor `s`, once it has left its own place, takes the place and the colour of the
node `a`; its right child comes under the successor's old parent. -/
theorem rbEraseAugmented_two {fuel : Nat} {sc cr : Color} {sr rl rr left : RbTree NodePtr}
    {s la : NodePtr} {path₁ : List (Frame NodePtr)}
    (hm : m.Represents (RbTree.zip (.node c left a (.node cr rl b rr)) path))
    (hla : left.ptr = some la)
    (hp : RbTree.leftmost cr rl b rr [] = ⟨sc, .nil, s, sr, path₁⟩) (hfuel : rl.height < fuel) :
    ∃ m', m.rbEraseAugmented fuel a = some (m',
        if sr = .nil ∧ sc = .black then parentOf (path₁ ++ ⟨.right, c, s, left⟩ :: path) else none) ∧
      m'.Represents (RbTree.zip sr.setBlack (path₁ ++ ⟨.right, c, s, left⟩ :: path)) ∧
      m.SameBut m' (s :: (sr.toList ++ above path₁) ++ (left.toList ++ above path)) := by
  obtain ⟨⟨hnode, hleft, hright⟩, haround, hnodup⟩ := represents_zip.mp hm
  have hnodup : (left.toList ++ a :: (s :: (sr.toList ++ above path₁) ++ above path)).Nodup := by
    refine List.Perm.nodup_iff ?_ |>.mp hnodup
    rw [RbTree.toList, List.append_assoc, List.cons_append]
    exact List.Perm.append_left _ (List.Perm.cons _ ((perm_of_leftmost hp).append_right _))
  obtain ⟨m₁, m₂, m₃, b', q, hdetach, ha₁, hset₂, hset₃, hb', hseg₃, hs₃, hsr₃, hleft₃, hsame₃,
    hroot₃⟩ := adoptChildren_spec hleft hla hright hp hfuel (by grind)
  -- the node's own place
  have haround₃ : m₃.Around path (some a) :=
    haround.congr hroot₃ fun x hx => hsame₃ x (by grind)
  have ha₃ : m₃.nodes a = m.nodes a := hsame₃ a (by grind)
  obtain ⟨m₄, hchange, haround₄, hsame₄⟩ :=
    haround₃.rbChangeChild (by grind) (by grind) (some s)
  have hs₄ : m₄.nodes s = some (.branch q sc .right (RbTree.zip sr path₁).ptr left.ptr) :=
    (hsame₄ s (by grind)).trans hs₃
  let m₅ := m₄.put s (.branch (parentOf path) c .right (RbTree.zip sr path₁).ptr left.ptr)
  have hsame₅ : ∀ x, x ≠ s → x ∉ above path → m₅.nodes x = m₃.nodes x := fun x hxs hxp =>
    (nodes_put_of_ne hxs).trans (hsame₄ x hxp)
  have hsr₅ : m₅.Subtree (some s) sr := hsr₃.congr fun x hx => hsame₅ x (by grind) (by grind)
  -- the successor's right child
  obtain ⟨m', hset, hsr', hsame', hroot'⟩ := hsr₅.setParentColorIf (p := some b') (by grind)
  have hkeep : ∀ x, x ≠ s → x ∉ sr.toList → x ∉ above path → m'.nodes x = m₃.nodes x :=
    fun x hxs hxsr hxp => (hsame' x hxsr).trans (hsame₅ x hxs hxp)
  have hparent : parentOf (path₁ ++ ⟨.right, c, s, left⟩ :: path) = some b' := by
    rw [parentOf_append]
    exact hb'
  have hrun : m.rbEraseAugmented fuel a = some (m',
      if sr = .nil ∧ sc = .black then some b' else none) := by
    have hchild : m.getChild .right a = some (some b) := getChild_eq hnode
    have htmp : m.getChild .left a = some left.ptr := getChild_eq hnode
    have htmp₁ : m₁.getChild .left a = some left.ptr := getChild_eq (ha₁.trans hnode)
    have hpc : m₃.getParentColor a = some (packed (parentOf path) c) :=
      getParentColor_eq (ha₃.trans hnode)
    have hpc₂ : m₄.getParentColor s = some (packed q sc) := getParentColor_eq hs₄
    have hset₅ : m₄.setPc s (packed (parentOf path) c) = some m₅ := setPc_eq hs₄
    rw [hla] at htmp htmp₁
    simp only [rbEraseAugmented, hchild, htmp, hdetach, htmp₁, hset₂, hset₃, hpc, hchange,
      rbParentOf_packed, Option.bind_eq_bind, Option.bind_some]
    cases sr with
    | nil =>
        obtain rfl : m₅ = m' := Option.some.inj hset
        simp [RbTree.ptr, hpc₂, hset₅]
    | node csr srl d srr =>
        have hset' : m₅.rbSetParentColor d (some b') .black = some m' := hset
        simp [RbTree.ptr, hset₅, hset']
  refine ⟨m', hparent ▸ hrun, represents_zip_append ?_ ?_ ⟨?_, ?_, ?_⟩ ?_, fun x hx => ?_⟩
  · exact hb'.symm ▸ hsr'
  · rw [RbTree.ptr_setBlack]
    exact hseg₃.congr fun x hx => hkeep x (by grind) (by grind) (by grind)
  · rw [hsame' s (by grind), nodes_put_self,
      ptr_zip (t := sr.setBlack) (s := sr) (.inl (RbTree.ptr_setBlack _))]
  · exact hleft₃.congr fun x hx => hkeep x (by grind) (by grind) (by grind)
  · exact haround₄.congr hroot' fun x hx => by
      rw [hsame' x (by grind), nodes_put_of_ne (by grind)]
  · rw [RbTree.toList_setBlack, above_cons]
    refine List.Perm.nodup_iff (List.perm_iff_count.mpr fun x => ?_) |>.mp
      (List.nodup_middle.mp hnodup).of_cons
    simp only [List.count_append, List.count_cons]
    ring
  · rw [hkeep x (by grind) (by grind) (by grind), hsame₃ x (by grind)]

/-- The node has two children: its successor takes its place. -/
theorem rbErase_two {fuel : Nat} {c cl cr : Color} {ll lr rl rr : RbTree NodePtr}
    {a b la : NodePtr} {path : List (Frame NodePtr)} {t' : RbTree NodePtr}
    (hm : m.Represents (RbTree.whole ⟨c, .node cl ll la lr, a, .node cr rl b rr, path⟩))
    (h : RbTree.rbErase ⟨c, .node cl ll la lr, a, .node cr rl b rr, path⟩ = some t')
    (hheight : path.length + (max (RbTree.node cl ll la lr).height
      (RbTree.node cr rl b rr).height + 1) < fuel) :
    ∃ m', m.rbErase fuel a = some m' ∧ m'.Represents t' ∧
      m.SameBut m' ((RbTree.node cl ll la lr).toList ++ (RbTree.node cr rl b rr).toList ++
        above path) := by
  cases hp : RbTree.leftmost cr rl b rr [] with
  | mk sc sl s sr path₁ =>
      obtain rfl : sl = .nil := by
        have := RbTree.leftmost_left cr rl b rr []
        rwa [hp] at this
      have hheight₁ := RbTree.length_add_height_le (.node sc .nil s sr) path₁
      rw [zip_of_leftmost hp, RbTree.height] at hheight₁
      have hrl : rl.height < (RbTree.node cr rl b rr).height := by
        rw [RbTree.height]
        omega
      obtain ⟨m₁, hrun, hm₁, hsame₁⟩ := rbEraseAugmented_two hm rfl hp (by omega : _ < fuel)
      have hmem : ∀ x, x ∉ (RbTree.node cl ll la lr).toList ++ (RbTree.node cr rl b rr).toList ++
          above path → x ∉ s :: (sr.toList ++ above path₁) ++
            ((RbTree.node cl ll la lr).toList ++ above path) := fun x hx hmem => hx (by
        have := (perm_of_leftmost hp).mem_iff (a := x)
        simp only [List.mem_append, List.mem_cons] at this hmem ⊢
        tauto)
      simp only [RbTree.rbErase, hp] at h
      cases sr with
      | nil =>
          have hlength : (path₁ ++ ⟨.right, c, s, .node cl ll la lr⟩ :: path).length ≤ fuel := by
            rw [List.length_append, List.length_cons]
            omega
          obtain ⟨m', hend, hm', hsame⟩ := rebalance_spec hm₁ h hlength
          refine ⟨m', ?_, hm', fun x hx => ?_⟩
          · simp only [rbErase, hrun, Option.bind_eq_bind, Option.bind_some, true_and]
            exact hend
          · have hx₁ := hmem x hx
            refine (hsame x ?_).trans (hsame₁ x hx₁)
            rw [above_append, above_cons]
            grind
      | node csr srl d srr =>
          obtain rfl := Option.some.inj h
          refine ⟨m₁, ?_, hm₁, fun x hx => hsame₁ x (hmem x hx)⟩
          simp [rbErase, hrun]

/-- **`rb_erase` in memory** is `rbErase`, and writes to the nodes that stay in the tree only. -/
theorem rbErase_represents {fuel : Nat} {p : Place NodePtr} {t' : RbTree NodePtr}
    (hm : m.Represents (RbTree.whole p)) (h : RbTree.rbErase p = some t')
    (hfuel : (RbTree.whole p).height < fuel) :
    ∃ m', m.rbErase fuel p.val = some m' ∧ m'.Represents t' ∧
      m.SameBut m' (p.left.toList ++ p.right.toList ++ above p.path) := by
  obtain ⟨c, left, a, right, path⟩ := p
  have hheight := RbTree.length_add_height_le (.node c left a right) path
  rw [RbTree.height] at hheight
  change _ ≤ (RbTree.whole ⟨c, left, a, right, path⟩).height at hheight
  have hlength : path.length ≤ fuel := by omega
  cases left with
  | nil =>
      cases right with
      | nil =>
          obtain ⟨m', hrun, hm', hsame⟩ := rbErase_leaf hm h hlength
          exact ⟨m', hrun, hm', hsame⟩
      | node cr l b r =>
          obtain rfl := Option.some.inj h
          obtain ⟨m', hrun, hm', hsame⟩ := rbErase_only fuel .left hm
          exact ⟨m', hrun, hm', hsame⟩
  | node cl l b r =>
      cases right with
      | nil =>
          obtain rfl := Option.some.inj h
          obtain ⟨m', hrun, hm', hsame⟩ := rbErase_only fuel .right hm
          exact ⟨m', hrun, hm', by simpa [RbTree.toList] using hsame⟩
      | node cr rl d rr => exact rbErase_two hm h (hheight.trans_lt hfuel)

/-- In a balanced tree `rb_erase` does not fail, and the tree stays balanced. -/
theorem rbErase_redBlack {fuel : Nat} {p : Place NodePtr} (hm : m.Represents (RbTree.whole p))
    (ht : RbTree.RedBlack (RbTree.whole p)) (hfuel : (RbTree.whole p).height < fuel) :
    ∃ m' t', RbTree.rbErase p = some t' ∧ m.rbErase fuel p.val = some m' ∧ m'.Represents t' ∧
      RbTree.RedBlack t' ∧
      t'.toList = RbTree.before p.path ++ (p.left.toList ++ p.right.toList) ++ RbTree.after p.path ∧
      m.SameBut m' t'.toList := by
  obtain ⟨t', herase, ht', hlist⟩ := RbTree.rbErase_spec ht
  obtain ⟨m', hrun, hm', hsame⟩ := rbErase_represents hm herase hfuel
  refine ⟨m', t', herase, hrun, hm', ht', hlist, fun x hx => hsame x fun hmem => hx ?_⟩
  have := (above_perm p.path).mem_iff (a := x)
  rw [hlist]
  simp only [List.mem_append] at this hmem ⊢
  tauto

/-- A node of a balanced tree is taken out of the sequence. -/
theorem rbErase_split {fuel : Nat} {as bs : List NodePtr} (hm : m.Represents t)
    (ht : RbTree.RedBlack t) (hlist : t.toList = as ++ a :: bs)
    (hfuel : 2 * Nat.log 2 (t.toList.length + 1) < fuel) :
    ∃ m' t', m.rbErase fuel a = some m' ∧ m'.Represents t' ∧ RbTree.RedBlack t' ∧
      t'.toList = as ++ bs ∧ m.SameBut m' t'.toList := by
  have hnodup := hm.nodup
  rw [hlist] at hnodup
  obtain ⟨p, -, hwhole, hval, hbefore, hafter⟩ := RbTree.locate_of_split
    hlist (beq_self_eq_true a) (by simp; grind) (by simp; grind)
  subst hwhole
  obtain rfl : p.val = a := hval
  obtain ⟨m', t', -, hrun, hm', ht', hlist', hsame⟩ :=
    rbErase_redBlack hm ht (ht.height_le.trans_lt hfuel)
  rw [List.append_assoc, List.append_assoc, hafter, ← List.append_assoc, hbefore] at hlist'
  exact ⟨m', t', hrun, hm', ht', hlist', hsame⟩

end RbHeap

end Profiling
