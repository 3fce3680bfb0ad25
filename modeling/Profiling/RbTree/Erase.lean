import Profiling.RbTree.Balance

/-!
# Profiling.RbTree.Erase

`rb_erase`, `rb_first` and `rb_next` of `src/utils/rbtree.c`.

A `struct rb_node *` is a place in the tree: the node, and through its parent
pointers the path to the root.  As for insertion, `none` stands for a
dereference of `NULL`.

The two halves of `____rb_erase_color`, for a missing node on the left and on
the right, mirror each other, and so do the callers' two directions; `Side`
says which one is meant.

* `rbErase_spec` — in a balanced tree the removal never meets `NULL`, leaves a
  balanced tree, and the in-order sequence loses exactly the one element;
* `rbNext_val` — the next node is the next element of the sequence.
-/

namespace Profiling

/-- Of two children, the one on the given side. -/
def Side.pick : Side → β → β → β
  | .left, a, _ => a
  | .right, _, b => b

/-- A node in its place. -/
structure Place (α : Type) where
  color : Color
  left : RbTree α
  val : α
  right : RbTree α
  path : List (Frame α)

namespace RbTree

/-- A node with the child `t` on the given side and `s` on the other. -/
def branch (side : Side) (c : Color) (t : RbTree α) (a : α) (s : RbTree α) : RbTree α :=
  match side with
  | .left => node c t a s
  | .right => node c s a t

/-- The tree around a place. -/
def whole (p : Place α) : RbTree α := zip (node p.color p.left p.val p.right) p.path

/-! ## The operations -/

/-- Cases 2 to 4 of `____rb_erase_color`: the sibling is black.  Returns what
the parent becomes, and whether the paths through it are still one black node
short. -/
def repairSibling (t : RbTree α) (parent : Frame α) : Option (RbTree α × Bool) :=
  match parent.sibling with
  | nil => none
  | node _ l s r =>
      let near := parent.side.pick l r
      let far := parent.side.pick r l
      if far.color = .black then
        if near.color = .black then
          -- case 2: sibling color flip; a red parent turns black
          some (branch parent.side .black t parent.val (branch parent.side .red near s far),
            parent.color = .black)
        else
          match near with
          | nil => none
          | node _ nl n nr =>
              -- case 3: rotate at the sibling, then case 4
              some (branch parent.side parent.color
                (branch parent.side .black t parent.val (parent.side.pick nl nr)) n
                (branch parent.side .black (parent.side.pick nr nl).setBlack s far), false)
      else
        -- case 4: rotate at the parent
        some (branch parent.side parent.color (branch parent.side .black t parent.val near) s
          far.setBlack, false)

/-- `____rb_erase_color`: all paths through `t` are one black node short. -/
def eraseColor (t : RbTree α) : List (Frame α) → Option (RbTree α)
  | [] => some t
  | parent :: rest =>
      match parent.sibling with
      | nil => none
      | node .red l s r =>
          -- case 1: rotate at the parent
          match parent.side.pick l r with
          | nil => none
          | node _ nl n nr =>
              -- the parent is red now, so that nothing stays short
              (repairSibling t ⟨parent.side, .red, parent.val, node .black nl n nr⟩).map fun u =>
                zip u.1 (⟨parent.side, parent.color, s, parent.side.pick r l⟩ :: rest)
      | node .black _ _ _ =>
          match repairSibling t parent with
          | none => none
          | some u => if u.2 then eraseColor u.1 rest else some (zip u.1 rest)

/-- Down to the left as far as it goes. -/
def leftmost (c : Color) (l : RbTree α) (a : α) (r : RbTree α) (path : List (Frame α)) : Place α :=
  match l with
  | nil => ⟨c, nil, a, r, path⟩
  | node c' l' a' r' => leftmost c' l' a' r' (⟨.left, c, a, r⟩ :: path)

/-- A node without children is gone; `rebalance` is its parent. -/
def eraseLeaf (c : Color) (path : List (Frame α)) : Option (RbTree α) :=
  if c = .black then eraseColor nil path else some (zip nil path)

/-- The successor leaves its own place to its right child, which turns black. -/
def unlinkSuccessor (c : Color) (path : List (Frame α)) : RbTree α → Option (RbTree α)
  | nil => eraseLeaf c path
  | node _ l a r => some (zip (node .black l a r) path)

/-- `rb_erase` -/
def rbErase (p : Place α) : Option (RbTree α) :=
  match p.left, p.right with
  | nil, nil => eraseLeaf p.color p.path
  -- case 1: the child takes the node's colour
  | nil, node _ l a r => some (zip (node p.color l a r) p.path)
  | node _ l a r, nil => some (zip (node p.color l a r) p.path)
  | node cl ll la lr, node c l a r =>
      -- cases 2 and 3: the successor takes the node's place and colour
      let successor := leftmost c l a r []
      let path := successor.path ++
        ⟨.right, p.color, successor.val, node cl ll la lr⟩ :: p.path
      unlinkSuccessor successor.color path successor.right

/-- `rb_first` -/
def rbFirst : RbTree α → Option (Place α)
  | nil => none
  | node c l a r => some (leftmost c l a r [])

/-- Up to the first ancestor that has the node on its left. -/
def climb (t : RbTree α) : List (Frame α) → Option (Place α)
  | [] => none
  | f :: path =>
      match f.side with
      | .left => some ⟨f.color, t, f.val, f.sibling, path⟩
      | .right => climb (plug f t) path

/-- `rb_next` -/
def rbNext (p : Place α) : Option (Place α) :=
  match p.right with
  | node c l a r => some (leftmost c l a r (⟨.right, p.color, p.val, p.left⟩ :: p.path))
  | nil => climb (node p.color p.left p.val p.right) p.path

/-- The place of the node that a pointer points to. -/
def locate (pointsTo : α → Bool) : RbTree α → List (Frame α) → Option (Place α)
  | nil, _ => none
  | node c l a r, path =>
      if pointsTo a then some ⟨c, l, a, r, path⟩
      else
        match locate pointsTo l (⟨.left, c, a, r⟩ :: path) with
        | some p => some p
        | none => locate pointsTo r (⟨.right, c, a, l⟩ :: path)

/-- A write to the record that a pointer points to. -/
def update (pointsTo : α → Bool) (f : α → α) : RbTree α → RbTree α
  | nil => nil
  | node c l a r => node c (l.update pointsTo f) (if pointsTo a then f a else a) (r.update pointsTo f)

/-! ## The repair -/

section Branch

variable {side : Side} {c c' : Color} {t s l r : RbTree α} {a : α} {n : Nat}

theorem plug_eq_branch (f : Frame α) (t : RbTree α) :
    plug f t = branch f.side f.color t f.val f.sibling := by
  obtain ⟨side, c, a, s⟩ := f
  cases side <;> rfl

theorem node_eq_branch (side : Side) :
    node c l a r = branch side c (side.pick l r) a (side.pick r l) := by
  cases side <;> rfl

theorem Balanced.branch_red (ht : Balanced t .black n) (hs : Balanced s .black n) :
    Balanced (branch side .red t a s) .red n := by
  cases side with
  | left => exact .red ht hs
  | right => exact .red hs ht

theorem Balanced.branch_black (ht : Balanced t c n) (hs : Balanced s c' n) :
    Balanced (branch side .black t a s) .black (n + 1) := by
  cases side with
  | left => exact .black ht hs
  | right => exact .black hs ht

theorem Balanced.pick (side : Side) (hl : Balanced l c n) (hr : Balanced r c' n) :
    ∃ c, Balanced (side.pick l r) c n := by
  cases side with
  | left => exact ⟨_, hl⟩
  | right => exact ⟨_, hr⟩

theorem Balanced.pick_same (side : Side) (hl : Balanced l c n) (hr : Balanced r c n) :
    Balanced (side.pick l r) c n := by
  cases side with
  | left => exact hl
  | right => exact hr

/-- A tree of the full height takes the parent's colour and its place. -/
theorem BalancedPath.redBlack_branch {f : Frame α} {path : List (Frame α)}
    (h : BalancedPath (f :: path) .black n) (ht : Balanced t .black n) (hs : Balanced s .black n) :
    RedBlack (zip (branch side f.color t a s) path) := by
  rw [redBlack_zip]
  cases h with
  | red hf _ hpath =>
      rw [hf]
      exact ⟨_, _, ht.branch_red hs, hpath⟩
  | black hf _ hpath =>
      rw [hf]
      exact ⟨_, _, ht.branch_black hs, hpath⟩

end Branch

theorem toList_repairSibling {t : RbTree α} {parent : Frame α} {u : RbTree α × Bool}
    (h : repairSibling t parent = some u) : u.1.toList = (plug parent t).toList := by
  obtain ⟨side, c, b, sibling⟩ := parent
  cases sibling with
  | nil => cases h
  | node cs l s r =>
      rw [plug_eq_branch, node_eq_branch side]
      simp only [repairSibling] at h ⊢
      generalize side.pick l r = near at *
      generalize side.pick r l = far at *
      by_cases hfar : far.color = .black
      · rw [if_pos hfar] at h
        by_cases hnear : near.color = .black
        · rw [if_pos hnear] at h
          obtain rfl := Option.some.inj h
          cases side <;> simp [branch, toList]
        · rw [if_neg hnear] at h
          cases near with
          | nil => cases h
          | node cn nl n nr =>
              obtain rfl := Option.some.inj h
              cases side <;> simp [branch, toList, Side.pick]
      · rw [if_neg hfar] at h
        obtain rfl := Option.some.inj h
        cases side <;> simp [branch, toList]

/-- **One round of the repair.**  The parent has a black sibling of the missing
height for the tree that is short.  Either the parent is short now, in a place
for a black node, or everything is balanced. -/
theorem repairSibling_spec {t : RbTree α} (parent : Frame α) (path : List (Frame α)) {n : Nat}
    (ht : Balanced t .black n) (hs : Balanced parent.sibling .black (n + 1))
    (hpath : BalancedPath (parent :: path) .black (n + 1)) :
    ∃ u, repairSibling t parent = some u ∧
      (u.2 = true → parent.color = .black ∧ Balanced u.1 .black (n + 1) ∧
        BalancedPath path .black (n + 2)) ∧
      (u.2 = false → RedBlack (zip u.1 path)) := by
  obtain ⟨side, c, b, sibling⟩ := parent
  cases hs with
  | @black l r s _ _ _ hl hr =>
      obtain ⟨cn, hnear⟩ := hl.pick side hr
      obtain ⟨cf, hfar⟩ := hr.pick side hl
      simp only [repairSibling]
      generalize side.pick l r = near at *
      generalize side.pick r l = far at *
      by_cases hblack : far.color = .black
      · rw [if_pos hblack]
        obtain rfl := hfar.color_eq.symm.trans hblack
        by_cases hblack' : near.color = .black
        · rw [if_pos hblack']
          obtain rfl := hnear.color_eq.symm.trans hblack'
          have hflip : Balanced (branch side .black t b (branch side .red near s far)) .black (n + 1) :=
            ht.branch_black (hnear.branch_red hfar)
          refine ⟨_, rfl, fun hshort => ⟨of_decide_eq_true hshort, hflip, ?_⟩, fun hdone => ?_⟩
          · cases hpath with
            | red hf => exact absurd (hf.symm.trans (of_decide_eq_true hshort)) (by simp)
            | black _ _ hrest => exact hrest
          · cases hpath with
            | red _ _ hrest => exact redBlack_zip.mpr ⟨_, _, hflip, hrest.of_red⟩
            | black hf => exact absurd hf (of_decide_eq_false hdone)
        · rw [if_neg hblack']
          cases hnear with
          | nil => exact absurd rfl hblack'
          | black => exact absurd rfl hblack'
          | @red nl nr m _ hnl hnr =>
              have hnear' := hnl.pick_same side hnr
              have hfar' := (hnr.pick_same side hnl).setBlack
              exact ⟨_, rfl, nofun, fun _ =>
                hpath.redBlack_branch (ht.branch_black hnear') (hfar'.branch_black hfar)⟩
      · rw [if_neg hblack]
        have hred : Balanced far .red n := by
          cases cf with
          | red => exact hfar
          | black => exact absurd hfar.color_eq hblack
        exact ⟨_, rfl, nofun, fun _ =>
          hpath.redBlack_branch (ht.branch_black hnear) hred.setBlack_red⟩

theorem toList_zip_congr {s t : RbTree α} {path : List (Frame α)} (h : s.toList = t.toList) :
    (zip s path).toList = (zip t path).toList := by
  rw [toList_zip, toList_zip, h]

/-- Case 1: under its red sibling's place, the parent is red and has a black
sibling, so that one round is enough. -/
theorem eraseColor_redSibling {t l r : RbTree α} {side : Side} {b s : α} {rest : List (Frame α)}
    {n : Nat} (ht : Balanced t .black n) (hl : Balanced l .black (n + 1))
    (hr : Balanced r .black (n + 1)) (hrest : BalancedPath rest .black (n + 2)) :
    ∃ t', eraseColor t (⟨side, .black, b, node .red l s r⟩ :: rest) = some t' ∧ RedBlack t' ∧
      t'.toList = (zip (plug ⟨side, .black, b, node .red l s r⟩ t) rest).toList := by
  simp only [eraseColor]
  rw [plug_eq_branch, node_eq_branch side (l := l)]
  have hnear := hl.pick_same side hr
  have hfar := hr.pick_same side hl
  generalize side.pick l r = near at *
  generalize side.pick r l = far at *
  cases hnear with
  | @black nl nr nv _ _ _ hnl hnr =>
      have hsib : Balanced (node .black nl nv nr) .black (n + 1) := .black hnl hnr
      obtain ⟨u, hu, hshort, hdone⟩ := repairSibling_spec
        ⟨side, .red, b, node .black nl nv nr⟩ (⟨side, .black, s, far⟩ :: rest) ht hsib
        (.red rfl hsib (.black rfl hfar hrest))
      have hfalse : u.2 = false := by
        by_contra htrue
        exact absurd (hshort (by simpa using htrue)).1 (by simp)
      simp only [hu, Option.map_some]
      refine ⟨_, rfl, hdone hfalse, ?_⟩
      rw [zip, List.foldl_cons, ← zip]
      refine toList_zip_congr ?_
      have hlist := toList_repairSibling hu
      cases side <;> simp_all [plug, branch, toList]

/-- **The repair.**  A black tree that is one black node short of its place is
repaired, and the in-order sequence stays. -/
theorem eraseColor_spec {t : RbTree α} {path : List (Frame α)} {n : Nat}
    (ht : Balanced t .black n) (hpath : BalancedPath path .black (n + 1)) :
    ∃ t', eraseColor t path = some t' ∧ RedBlack t' ∧ t'.toList = (zip t path).toList := by
  induction path generalizing t n with
  | nil => exact ⟨t, rfl, ⟨n, ht⟩, rfl⟩
  | cons parent rest ih =>
      rw [zip, List.foldl_cons, ← zip]
      obtain ⟨cs, hs⟩ : ∃ cs, Balanced parent.sibling cs (n + 1) := by
        cases hpath with
        | red _ hs => exact ⟨_, hs⟩
        | black _ hs => exact ⟨_, hs⟩
      obtain ⟨side, c, b, sibling⟩ := parent
      cases hs with
      | @red l r s _ hl hr =>
          cases hpath with
          | red _ hs => cases hs
          | black hc _ hrest =>
              obtain rfl : c = .black := hc
              exact eraseColor_redSibling ht hl hr hrest
      | @black l r s _ _ _ hl hr =>
          obtain ⟨u, hu, hshort, hdone⟩ := repairSibling_spec _ rest ht (.black hl hr) hpath
          have hlist := toList_repairSibling hu
          simp only [eraseColor, hu]
          cases hcase : u.2 with
          | true =>
              obtain ⟨-, hbal, hrest⟩ := hshort hcase
              obtain ⟨t', ht', hrb, hlist'⟩ := ih hbal hrest
              exact ⟨t', ht', hrb, hlist'.trans (toList_zip_congr hlist)⟩
          | false => exact ⟨_, rfl, hdone hcase, toList_zip_congr hlist⟩

/-! ## The removal -/

@[simp] theorem toList_whole (p : Place α) :
    (whole p).toList = before p.path ++ (p.left.toList ++ p.val :: p.right.toList) ++ after p.path :=
  toList_zip _ _

section Leftmost

variable (c : Color) (l : RbTree α) (a : α) (r : RbTree α) (path rest : List (Frame α))

theorem leftmost_left : (leftmost c l a r path).left = nil := by
  fun_induction leftmost c l a r path with
  | case1 => rfl
  | case2 c a r path c' l' a' r' ih => exact ih

theorem whole_leftmost : whole (leftmost c l a r path) = zip (node c l a r) path := by
  fun_induction leftmost c l a r path with
  | case1 => rfl
  | case2 c a r path c' l' a' r' ih => exact ih

/-- Nothing on the way down comes before the leftmost node. -/
theorem before_leftmost : before (leftmost c l a r path).path = before path := by
  fun_induction leftmost c l a r path with
  | case1 => rfl
  | case2 c a r path c' l' a' r' ih => exact ih

/-- The descent does not look at the path it has come by. -/
theorem leftmost_append :
    leftmost c l a r (path ++ rest) =
      { leftmost c l a r path with path := (leftmost c l a r path).path ++ rest } := by
  fun_induction leftmost c l a r path with
  | case1 => rfl
  | case2 c a r path c' l' a' r' ih => exact ih

/-- The leftmost node is the first of the sequence. -/
theorem leftmost_cons :
    (leftmost c l a r path).val ::
        ((leftmost c l a r path).right.toList ++ after (leftmost c l a r path).path) =
      (node c l a r).toList ++ after path := by
  have h := congrArg toList (whole_leftmost c l a r path)
  simpa [toList_zip, before_leftmost, leftmost_left, toList] using h

end Leftmost

/-- A black leaf leaves its place one black node short; a red one does not. -/
theorem eraseLeaf_spec {c c' : Color} {a : α} {path : List (Frame α)} {n : Nat}
    (hnode : Balanced (node c nil a nil) c' n) (hpath : BalancedPath path c' n) :
    ∃ t', eraseLeaf c path = some t' ∧ RedBlack t' ∧ t'.toList = before path ++ after path := by
  have hlist : (zip nil path : RbTree α).toList = before path ++ after path := by
    simp [toList_zip, toList]
  cases hnode with
  | red hl hr =>
      cases hl
      exact ⟨_, rfl, redBlack_zip.mpr ⟨_, _, .nil, hpath.of_red⟩, hlist⟩
  | black hl hr =>
      cases hl
      obtain ⟨t', ht', hrb, hlist'⟩ := eraseColor_spec .nil hpath
      exact ⟨t', ht', hrb, hlist'.trans hlist⟩

/-- An only child is a red leaf, under a black node. -/
theorem Balanced.only_child {c c' cr : Color} {l r : RbTree α} {a b : α} {n : Nat} (side : Side)
    (h : Balanced (branch side c RbTree.nil a (node cr l b r)) c' n) :
    c' = .black ∧ c = .black ∧ Balanced (node .black l b r) .black n := by
  cases side with
  | left =>
      cases h with
      | red hl hr =>
          cases hl
          cases hr
      | black hl hr =>
          cases hl
          cases hr with
          | red hll hlr => exact ⟨rfl, rfl, .black hll hlr⟩
  | right =>
      cases h with
      | red hl hr =>
          cases hr
          cases hl
      | black hl hr =>
          cases hr
          cases hl with
          | red hll hlr => exact ⟨rfl, rfl, .black hll hlr⟩

theorem unlinkSuccessor_spec {c c' : Color} {a : α} {r : RbTree α} {path : List (Frame α)} {n : Nat}
    (hnode : Balanced (node c nil a r) c' n) (hpath : BalancedPath path c' n) :
    ∃ t', unlinkSuccessor c path r = some t' ∧ RedBlack t' ∧
      t'.toList = before path ++ (r.toList ++ after path) := by
  cases r with
  | nil => simpa [unlinkSuccessor, toList] using eraseLeaf_spec hnode hpath
  | node cr rl b rr =>
      obtain ⟨rfl, rfl, hchild⟩ := Balanced.only_child .left hnode
      exact ⟨_, rfl, redBlack_zip.mpr ⟨_, _, hchild, hpath⟩, by simp [toList_zip, toList]⟩

/-- **The removal.**  In a balanced tree it never meets `NULL`, leaves a
balanced tree, and the sequence loses the one element. -/
theorem rbErase_spec {p : Place α} (h : RedBlack (whole p)) :
    ∃ t', rbErase p = some t' ∧ RedBlack t' ∧
      t'.toList = before p.path ++ (p.left.toList ++ p.right.toList) ++ after p.path := by
  obtain ⟨c, left, a, right, path⟩ := p
  obtain ⟨c', n, hnode, hpath⟩ := redBlack_zip.mp h
  simp only at hnode hpath ⊢
  cases left with
  | nil =>
      cases right with
      | nil => simpa [rbErase, toList] using eraseLeaf_spec hnode hpath
      | node cr rl b rr =>
          obtain ⟨rfl, rfl, hchild⟩ := Balanced.only_child .left hnode
          exact ⟨_, rfl, redBlack_zip.mpr ⟨_, _, hchild, hpath⟩, by simp [toList_zip, toList]⟩
  | node cl ll la lr =>
      cases right with
      | nil =>
          obtain ⟨rfl, rfl, hchild⟩ := Balanced.only_child .right hnode
          exact ⟨_, rfl, redBlack_zip.mpr ⟨_, _, hchild, hpath⟩, by simp [toList_zip, toList]⟩
      | node cr rl b rr =>
          -- the successor, once its value stands in the place of the node
          let successor := leftmost cr rl b rr []
          let rest := ⟨.right, c, successor.val, node cl ll la lr⟩ :: path
          have hplace : leftmost cr rl b rr rest = { successor with path := successor.path ++ rest } :=
            leftmost_append cr rl b rr [] rest
          have hwhole : RedBlack (whole (leftmost cr rl b rr rest)) := by
            rw [whole_leftmost]
            change RedBlack (zip (node c (node cl ll la lr) successor.val (node cr rl b rr)) path)
            exact redBlack_zip.mpr ⟨_, _, hnode.with_val successor.val, hpath⟩
          obtain ⟨c'', k, hsucc, hpath'⟩ := redBlack_zip.mp hwhole
          have hbefore := before_leftmost cr rl b rr rest
          have hcons := leftmost_cons cr rl b rr rest
          rw [leftmost_left] at hsucc
          rw [hplace] at hsucc hpath' hbefore hcons
          obtain ⟨t', ht', hrb, hlist⟩ := unlinkSuccessor_spec hsucc hpath'
          refine ⟨t', ht', hrb, ?_⟩
          rw [hlist, hbefore]
          simp only [rest, before, after] at hcons ⊢
          simp [hcons]

/-! ## Places -/

/-- A place that a pointer leads to is one of the tree, with the node. -/
theorem locate_eq_some {pointsTo : α → Bool} {t : RbTree α} {path : List (Frame α)} {p : Place α}
    (h : locate pointsTo t path = some p) : whole p = zip t path ∧ pointsTo p.val = true := by
  induction t generalizing path with
  | nil => cases h
  | node c l a r ihl ihr =>
      rw [locate] at h
      split at h
      · next hit =>
        obtain rfl := Option.some.inj h
        exact ⟨rfl, hit⟩
      · cases hl : locate pointsTo l (⟨.left, c, a, r⟩ :: path) with
        | some q =>
            rw [hl] at h
            obtain rfl := Option.some.inj h
            exact ihl hl
        | none =>
            rw [hl] at h
            exact ihr h

theorem locate_isSome {pointsTo : α → Bool} {t : RbTree α} (path : List (Frame α)) {a : α}
    (ha : a ∈ t.toList) (hit : pointsTo a = true) : (locate pointsTo t path).isSome := by
  induction t generalizing path with
  | nil => simp [toList] at ha
  | node c l b r ihl ihr =>
      rw [locate]
      split
      · rfl
      · next hne =>
        cases hl : locate pointsTo l (⟨.left, c, b, r⟩ :: path) with
        | some q => rfl
        | none =>
            simp only [toList, List.mem_append, List.mem_cons] at ha
            obtain ha | rfl | ha := ha
            · simpa [hl] using ihl (⟨.left, c, b, r⟩ :: path) ha
            · exact absurd hit hne
            · exact ihr _ ha

/-- **Pointers.**  A pointer to one node only leads to the place that splits
the sequence at this node. -/
theorem locate_of_split {pointsTo : α → Bool} {t : RbTree α} {as bs : List α} {a : α}
    (h : t.toList = as ++ a :: bs) (hit : pointsTo a = true) (has : ∀ b ∈ as, pointsTo b = false)
    (hbs : ∀ b ∈ bs, pointsTo b = false) :
    ∃ p, locate pointsTo t [] = some p ∧ whole p = t ∧ p.val = a ∧
      before p.path ++ p.left.toList = as ∧ p.right.toList ++ after p.path = bs := by
  have ha : a ∈ t.toList := by simp [h]
  obtain ⟨p, hp⟩ := Option.isSome_iff_exists.mp (locate_isSome [] ha hit)
  obtain ⟨hwhole, hpit⟩ := locate_eq_some hp
  have hnot : ∀ l : List α, (∀ b ∈ l, pointsTo b = false) → p.val ∉ l := fun l hl hmem => by
    simp [hl _ hmem] at hpit
  have hlist := (toList_whole p).symm.trans ((congrArg toList hwhole).trans h)
  rw [← List.append_assoc, List.append_assoc, List.cons_append] at hlist
  obtain ⟨hbefore, hval, hafter⟩ :=
    (List.append_cons_inj_of_notMem (hnot as has) (hnot bs hbs)).mp hlist.symm
  exact ⟨p, hp, hwhole, hval.symm, hbefore.symm, hafter.symm⟩

theorem rbFirst_val (t : RbTree α) : (rbFirst t).map Place.val = t.toList.head? := by
  cases t with
  | nil => rfl
  | node c l a r =>
      have h := leftmost_cons c l a r []
      rw [after, List.append_nil] at h
      rw [rbFirst, ← h]
      rfl

theorem climb_val (t : RbTree α) (path : List (Frame α)) :
    (climb t path).map Place.val = (after path).head? := by
  induction path generalizing t with
  | nil => rfl
  | cons f path ih =>
      obtain ⟨side, c, a, s⟩ := f
      cases side with
      | left => rfl
      | right => exact ih _

/-- **`rb_next`** is the next element of the sequence. -/
theorem rbNext_val (p : Place α) :
    (rbNext p).map Place.val = (p.right.toList ++ after p.path).head? := by
  obtain ⟨c, l, a, right, path⟩ := p
  cases right with
  | nil => exact climb_val _ path
  | node cr rl b rr =>
      have h := leftmost_cons cr rl b rr (⟨.right, c, a, l⟩ :: path)
      simp only [after] at h
      rw [← h]
      rfl

/-! ## Writes -/

theorem toList_update (pointsTo : α → Bool) (f : α → α) (t : RbTree α) :
    (t.update pointsTo f).toList = t.toList.map fun a => if pointsTo a then f a else a := by
  induction t with
  | nil => rfl
  | node c l a r ihl ihr => simp [update, toList, ihl, ihr]

theorem RedBlack.update {pointsTo : α → Bool} {f : α → α} {t : RbTree α} (h : RedBlack t) :
    RedBlack (t.update pointsTo f) := by
  obtain ⟨n, ht⟩ := h
  refine ⟨n, ?_⟩
  generalize Color.black = c at ht
  induction ht with
  | nil => exact .nil
  | red _ _ ihl ihr => exact .red ihl ihr
  | black _ _ ihl ihr => exact .black ihl ihr

end RbTree

end Profiling
