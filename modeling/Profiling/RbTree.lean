import Mathlib

/-!
# Profiling.RbTree

The intrusive red-black tree of `src/utils/rbtree.c`, as far as the program
uses it: insertion and searches.

`rb_link_node` hangs a new red node into the empty place that the caller's
descent has found, and `rb_insert_color` repairs the colours on the way back
to the root.  The parent pointers it follows are the path of the descent, the
innermost frame first; `none` stands for following a `NULL` grandparent.

* `rbInsert_spec` — with a black root the repair never meets `NULL`, and the
  in-order sequence gains exactly the new element, at its place;
* `walk_of_split` — a descent finds the element that its comparison is for.
-/

namespace Profiling

/-- `RB_RED` and `RB_BLACK` -/
inductive Color where
  | red
  | black
  deriving DecidableEq, Repr

/-- A tree of `struct rb_node`s with the records they are embedded in. -/
inductive RbTree (α : Type) where
  | nil
  | node (color : Color) (left : RbTree α) (val : α) (right : RbTree α)
  deriving DecidableEq, Repr

/-- Which child of a node the descent went to. -/
inductive Side where
  | left
  | right
  deriving DecidableEq, Repr

/-- A node on the path back to the root: the child that is missing, and the
rest of the node. -/
structure Frame (α : Type) where
  side : Side
  color : Color
  val : α
  sibling : RbTree α

namespace RbTree

/-- The colour of the root; `NULL` counts as black. -/
def color : RbTree α → Color
  | nil => .black
  | node c _ _ _ => c

/-- `rb_set_parent_color(tmp, …, RB_BLACK)`, where `tmp` is not `NULL`. -/
def setBlack : RbTree α → RbTree α
  | nil => nil
  | node _ l a r => node .black l a r

/-- The in-order sequence. -/
def toList : RbTree α → List α
  | nil => []
  | node _ l a r => l.toList ++ a :: r.toList

/-- The node of a frame with its missing child filled in. -/
def plug (f : Frame α) (t : RbTree α) : RbTree α :=
  match f.side with
  | .left => node f.color t f.val f.sibling
  | .right => node f.color f.sibling f.val t

/-- The whole tree around `t`. -/
def zip (t : RbTree α) (path : List (Frame α)) : RbTree α :=
  path.foldl (fun t f => plug f t) t

/-- `__rb_insert`: `node` is red, with children `l` and `r`; the path holds
its ancestors. -/
def insertColor (l : RbTree α) (a : α) (r : RbTree α) : List (Frame α) → Option (RbTree α)
  | [] => some (node .black l a r)
  | [p] => if p.color = .black then some (plug p (node .red l a r)) else none
  | p :: g :: rest =>
      if p.color = .black then some (zip (node .red l a r) (p :: g :: rest))
      else if g.sibling.color = .red then
        -- case 1: the uncle is red, go on at the grandparent
        let parent := (plug p (node .red l a r)).setBlack
        match g.side with
        | .left => insertColor parent g.val g.sibling.setBlack rest
        | .right => insertColor g.sibling.setBlack g.val parent rest
      else
        match g.side, p.side with
        | .left, .left =>
            -- case 3: right rotate at the grandparent
            some <| zip (node g.color (node .red l a r) p.val
              (node .red p.sibling.setBlack g.val g.sibling)) rest
        | .left, .right =>
            -- case 2: left rotate at the parent first
            some <| zip (node g.color (node .red p.sibling p.val l.setBlack) a
              (node .red r.setBlack g.val g.sibling)) rest
        | .right, .right =>
            some <| zip (node g.color (node .red g.sibling g.val p.sibling.setBlack) p.val
              (node .red l a r)) rest
        | .right, .left =>
            some <| zip (node g.color (node .red g.sibling g.val l.setBlack) a
              (node .red r.setBlack p.val p.sibling)) rest

section Insert

variable {κ : Type} [LinearOrder κ] (key : α → κ)

/-- The callers' descent: left of a greater key, else right. -/
def linkPath (x : α) : RbTree α → List (Frame α) → List (Frame α)
  | nil, path => path
  | node c l a r, path =>
      if key x < key a then linkPath x l (⟨.left, c, a, r⟩ :: path)
      else linkPath x r (⟨.right, c, a, l⟩ :: path)

/-- The descent, `rb_link_node` and `rb_insert_color`. -/
def rbInsert (x : α) (t : RbTree α) : Option (RbTree α) :=
  insertColor nil x nil (linkPath key x t [])

end Insert

/-- The callers' searches: `cut` says whether the record looked for is this
one, to its left, or to its right. -/
def walk (cut : α → Ordering) : RbTree α → Option α
  | nil => none
  | node _ l a r =>
      match cut a with
      | .eq => some a
      | .lt => walk cut l
      | .gt => walk cut r

/-- A write to the record that a search finds. -/
def modify (cut : α → Ordering) (f : α → α) : RbTree α → RbTree α
  | nil => nil
  | node c l a r =>
      match cut a with
      | .eq => node c l (f a) r
      | .lt => node c (l.modify cut f) a r
      | .gt => node c l a (r.modify cut f)

/-! ## The in-order sequence of a path -/

/-- What comes before the hole of a path. -/
def before : List (Frame α) → List α
  | [] => []
  | f :: path =>
      match f.side with
      | .left => before path
      | .right => before path ++ (f.sibling.toList ++ [f.val])

/-- What comes after it. -/
def after : List (Frame α) → List α
  | [] => []
  | f :: path =>
      match f.side with
      | .left => f.val :: f.sibling.toList ++ after path
      | .right => after path

@[simp] theorem toList_setBlack (t : RbTree α) : t.setBlack.toList = t.toList := by
  cases t <;> rfl

@[simp] theorem toList_plug_left (c : Color) (a : α) (s t : RbTree α) :
    (plug ⟨.left, c, a, s⟩ t).toList = t.toList ++ a :: s.toList := rfl

@[simp] theorem toList_plug_right (c : Color) (a : α) (s t : RbTree α) :
    (plug ⟨.right, c, a, s⟩ t).toList = s.toList ++ a :: t.toList := rfl

theorem toList_zip (t : RbTree α) (path : List (Frame α)) :
    (zip t path).toList = before path ++ t.toList ++ after path := by
  induction path generalizing t with
  | nil => simp [zip, before, after]
  | cons f path ih =>
      obtain ⟨side, c, a, s⟩ := f
      rw [zip, List.foldl_cons, ← zip, ih]
      cases side <;> simp [before, after]

/-! ## The repair -/

/-- The path leads to a black root. -/
def BlackRoot : List (Frame α) → Prop
  | [] => True
  | [f] => f.color = .black
  | _ :: path => BlackRoot path

/-- The root of a tree around a path is the path's last node. -/
theorem color_zip {t : RbTree α} {path : List (Frame α)} (h : BlackRoot path)
    (ht : path = [] → t.color = .black) : (zip t path).color = .black := by
  induction path generalizing t with
  | nil => exact ht rfl
  | cons f path ih =>
      rw [zip, List.foldl_cons, ← zip]
      cases path with
      | nil =>
          obtain ⟨side, c, a, s⟩ := f
          cases side <;> simpa [zip, plug, color, BlackRoot] using h
      | cons g path => exact ih h (fun hnil => by simp at hnil)

theorem BlackRoot.tail {f : Frame α} {path : List (Frame α)} (h : BlackRoot (f :: path)) :
    BlackRoot path := by
  cases path with
  | nil => trivial
  | cons g path => exact h

/-- The last frame of a path is black. -/
theorem BlackRoot.last {p g : Frame α} {rest : List (Frame α)} (h : BlackRoot (p :: g :: rest))
    (hnil : rest = []) : g.color = .black := by
  subst hnil
  exact h

/-- What the repair returns has the in-order sequence of the tree around the path. -/
theorem toList_insertColor {l : RbTree α} {a : α} {r : RbTree α} {path : List (Frame α)}
    {t : RbTree α} (h : insertColor l a r path = some t) :
    t.toList = before path ++ (l.toList ++ a :: r.toList) ++ after path := by
  fun_induction insertColor l a r path with
  | case1 l a r =>
      obtain rfl := Option.some.inj h
      simp [toList, before, after]
  | case2 l a r p hp =>
      obtain rfl := Option.some.inj h
      cases hs : p.side <;> simp [plug, hs, toList, before, after]
  | case3 l a r p hp => cases h
  | case4 l a r p g rest hp =>
      obtain rfl := Option.some.inj h
      rw [toList_zip, toList]
  | case5 l a r p g rest hp hu parent hg ih =>
      rw [ih h]
      cases hs : p.side <;> simp [parent, plug, hs, hg, toList, before, after]
  | case6 l a r p g rest hp hu parent hg ih =>
      rw [ih h]
      cases hs : p.side <;> simp [parent, plug, hs, hg, toList, before, after]
  | case7 l a r p g rest hp hu hs hg =>
      obtain rfl := Option.some.inj h
      simp [toList_zip, toList, before, after, hs, hg]
  | case8 l a r p g rest hp hu hs hg =>
      obtain rfl := Option.some.inj h
      simp [toList_zip, toList, before, after, hs, hg]
  | case9 l a r p g rest hp hu hs hg =>
      obtain rfl := Option.some.inj h
      simp [toList_zip, toList, before, after, hs, hg]
  | case10 l a r p g rest hp hu hs hg =>
      obtain rfl := Option.some.inj h
      simp [toList_zip, toList, before, after, hs, hg]

/-- **The repair keeps the order.**  On a path to a black root it finishes,
with a black root and the same in-order sequence. -/
theorem insertColor_spec (l : RbTree α) (a : α) (r : RbTree α) (path : List (Frame α))
    (h : BlackRoot path) :
    ∃ t, insertColor l a r path = some t ∧ t.color = .black ∧
      t.toList = before path ++ (l.toList ++ a :: r.toList) ++ after path := by
  have hblack : ∃ t, insertColor l a r path = some t ∧ t.color = .black := by
    fun_induction insertColor l a r path with
    | case1 l a r => exact ⟨_, rfl, rfl⟩
    | case2 l a r p hp =>
        refine ⟨_, rfl, ?_⟩
        cases hs : p.side <;> simp [plug, hs, color, hp]
    | case3 l a r p hp => exact absurd h hp
    | case4 l a r p g rest hp => exact ⟨_, rfl, color_zip h (by simp)⟩
    | case5 l a r p g rest hp hu parent hg ih => exact ih h.tail.tail
    | case6 l a r p g rest hp hu parent hg ih => exact ih h.tail.tail
    | case7 l a r p g rest hp hu hs hg => exact ⟨_, rfl, color_zip h.tail.tail h.last⟩
    | case8 l a r p g rest hp hu hs hg => exact ⟨_, rfl, color_zip h.tail.tail h.last⟩
    | case9 l a r p g rest hp hu hs hg => exact ⟨_, rfl, color_zip h.tail.tail h.last⟩
    | case10 l a r p g rest hp hu hs hg => exact ⟨_, rfl, color_zip h.tail.tail h.last⟩
  obtain ⟨t, ht, hc⟩ := hblack
  exact ⟨t, ht, hc, toList_insertColor ht⟩

/-! ## Insertion -/

section Insert

variable {κ : Type} [LinearOrder κ] {key : α → κ}

/-- The sequence is in ascending order of the keys. -/
def Sorted (key : α → κ) (t : RbTree α) : Prop := t.toList.Pairwise fun a b => key a ≤ key b

theorem blackRoot_linkPath {x : α} {t : RbTree α} {path : List (Frame α)}
    (hpath : BlackRoot path) (ht : path = [] → t.color = .black) :
    BlackRoot (linkPath key x t path) := by
  induction t generalizing path with
  | nil => exact hpath
  | node c l a r ihl ihr =>
      have hcons : ∀ side s, BlackRoot (⟨side, c, a, s⟩ :: path) := by
        intro side s
        cases path with
        | nil => exact ht rfl
        | cons f path => exact hpath
      rw [linkPath]
      split
      · exact ihl (hcons _ _) (by simp)
      · exact ihr (hcons _ _) (by simp)

theorem sorted_node {c : Color} {l r : RbTree α} {a : α} :
    Sorted key (node c l a r) ↔ l.Sorted key ∧ r.Sorted key ∧
      (∀ b ∈ l.toList, key b ≤ key a) ∧ (∀ b ∈ r.toList, key a ≤ key b) ∧
      ∀ b ∈ l.toList, ∀ d ∈ r.toList, key b ≤ key d := by
  simp only [Sorted, toList, List.pairwise_append, List.pairwise_cons, List.mem_cons]
  constructor
  · rintro ⟨hl, ⟨har, hr⟩, hlar⟩
    exact ⟨hl, hr, fun b hb => hlar b hb a (.inl rfl), har, fun b hb d hd => hlar b hb d (.inr hd)⟩
  · rintro ⟨hl, hr, hla, har, hlr⟩
    refine ⟨hl, ⟨har, hr⟩, fun b hb d hd => ?_⟩
    obtain rfl | hd := hd
    · exact hla b hb
    · exact hlr b hb d hd

/-- The descent ends at the place of the new key: behind the keys that are not
greater, in front of those that are. -/
theorem linkPath_spec {x : α} {t : RbTree α} (path : List (Frame α)) (ht : t.Sorted key)
    (hbefore : ∀ a ∈ before path, key a ≤ key x) (hafter : ∀ b ∈ after path, key x < key b) :
    before (linkPath key x t path) ++ after (linkPath key x t path) =
        before path ++ t.toList ++ after path ∧
      (∀ a ∈ before (linkPath key x t path), key a ≤ key x) ∧
      ∀ b ∈ after (linkPath key x t path), key x < key b := by
  induction t generalizing path with
  | nil => exact ⟨by simp [linkPath, toList], hbefore, hafter⟩
  | node c l a r ihl ihr =>
      obtain ⟨hl, hr, hla, har, -⟩ := sorted_node.mp ht
      rw [linkPath]
      split
      · next hlt =>
        have hafter' : ∀ b ∈ after (⟨.left, c, a, r⟩ :: path), key x < key b := by
          simp only [after, List.cons_append, List.mem_cons, List.mem_append]
          rintro b (rfl | hb | hb)
          · exact hlt
          · exact lt_of_lt_of_le hlt (har b hb)
          · exact hafter b hb
        obtain ⟨hlist, hb, ha⟩ := ihl (⟨.left, c, a, r⟩ :: path) hl hbefore hafter'
        exact ⟨hlist.trans (by simp [before, after, toList]), hb, ha⟩
      · next hge =>
        have hle : key a ≤ key x := not_lt.mp hge
        have hbefore' : ∀ b ∈ before (⟨.right, c, a, l⟩ :: path), key b ≤ key x := by
          simp only [before, List.mem_append, List.mem_singleton]
          rintro b (hb | hb | rfl)
          · exact hbefore b hb
          · exact le_trans (hla b hb) hle
          · exact hle
        obtain ⟨hlist, hb, ha⟩ := ihr (⟨.right, c, a, l⟩ :: path) hr hbefore' hafter
        exact ⟨hlist.trans (by simp [before, after, toList]), hb, ha⟩

/-- An element between those that are not greater and those that are. -/
theorem pairwise_insert {x : α} {as bs : List α}
    (h : (as ++ bs).Pairwise fun a b => key a ≤ key b) (has : ∀ a ∈ as, key a ≤ key x)
    (hbs : ∀ b ∈ bs, key x < key b) : (as ++ x :: bs).Pairwise fun a b => key a ≤ key b := by
  obtain ⟨h₁, h₂, h₁₂⟩ := List.pairwise_append.mp h
  refine List.pairwise_append.mpr ⟨h₁, List.pairwise_cons.mpr ⟨fun b hb => (hbs b hb).le, h₂⟩,
    fun a ha b hb => ?_⟩
  obtain rfl | hb := List.mem_cons.mp hb
  · exact has a ha
  · exact h₁₂ a ha b hb

/-- **Insertion.**  Into a sorted tree with a black root, insertion finishes,
the root is black again, and the new element stands behind all elements whose
keys are not greater and in front of all others. -/
theorem rbInsert_spec {x : α} {t : RbTree α} (hroot : t.color = .black) (ht : t.Sorted key) :
    ∃ t' as bs, rbInsert key x t = some t' ∧ t'.color = .black ∧ t'.Sorted key ∧
      t.toList = as ++ bs ∧ t'.toList = as ++ x :: bs ∧
      (∀ a ∈ as, key a ≤ key x) ∧ ∀ b ∈ bs, key x < key b := by
  obtain ⟨hlist, has, hbs⟩ := linkPath_spec (x := x) [] ht (by simp [before]) (by simp [after])
  obtain ⟨t', hins, hblack, hnew⟩ := insertColor_spec nil x nil (linkPath key x t [])
    (blackRoot_linkPath (by trivial) fun _ => hroot)
  simp only [toList, List.nil_append, List.append_assoc, List.singleton_append] at hnew
  simp only [before, after, List.nil_append, List.append_nil] at hlist
  refine ⟨t', _, _, hins, hblack, ?_, hlist.symm, hnew, has, hbs⟩
  rw [Sorted, ← hlist] at ht
  rw [Sorted, hnew]
  exact pairwise_insert ht has hbs

end Insert

/-! ## Searches -/

/-- An element of a tree stands behind the root, at the root or before it. -/
theorem split_node {c : Color} {l r : RbTree α} {a x : α} {as bs : List α}
    (h : (node c l a r).toList = as ++ x :: bs) :
    (∃ es, as = l.toList ++ a :: es ∧ r.toList = es ++ x :: bs) ∨ a = x ∨
      ∃ es, l.toList = as ++ x :: es ∧ bs = es ++ a :: r.toList := by
  rw [toList, List.append_eq_append_iff] at h
  rcases h with ⟨es, has, htail⟩ | ⟨es, hl, htail⟩
  · cases es with
    | nil => exact .inr (.inl (List.cons.inj htail).1)
    | cons e es =>
        obtain ⟨rfl, hr⟩ := List.cons.inj htail
        exact .inl ⟨es, has, hr⟩
  · cases es with
    | nil => exact .inr (.inl (List.cons.inj htail).1.symm)
    | cons e es =>
        obtain ⟨rfl, hbs⟩ := List.cons.inj htail
        exact .inr (.inr ⟨es, hl, hbs⟩)

/-- A search finds the element at which the answers turn. -/
theorem walk_of_split {cut : α → Ordering} {t : RbTree α} {as bs : List α} {x : α}
    (h : t.toList = as ++ x :: bs) (has : ∀ a ∈ as, cut a = .gt) (hx : cut x = .eq)
    (hbs : ∀ b ∈ bs, cut b = .lt) : walk cut t = some x := by
  induction t generalizing as bs with
  | nil => simp [toList] at h
  | node c l a r ihl ihr =>
      rw [walk]
      rcases split_node h with ⟨es, has', hr⟩ | rfl | ⟨es, hl, hbs'⟩
      · simp only [has a (by simp [has'])]
        exact ihr hr (fun b hb => has b (by simp [has', hb])) hbs
      · simp only [hx]
      · simp only [hbs a (by simp [hbs'])]
        exact ihl hl has (fun b hb => hbs b (by simp [hbs', hb]))

/-- What a search finds is in the tree, and answers "here". -/
theorem walk_eq_some {cut : α → Ordering} {t : RbTree α} {x : α} (h : walk cut t = some x) :
    x ∈ t.toList ∧ cut x = .eq := by
  induction t with
  | nil => cases h
  | node c l a r ihl ihr =>
      rw [walk] at h
      simp only [toList, List.mem_append, List.mem_cons]
      cases hc : cut a with
      | eq =>
          rw [hc] at h
          obtain rfl := Option.some.inj h
          exact ⟨.inr (.inl rfl), hc⟩
      | lt =>
          rw [hc] at h
          exact ⟨.inl (ihl h).1, (ihl h).2⟩
      | gt =>
          rw [hc] at h
          exact ⟨.inr (.inr (ihr h).1), (ihr h).2⟩

/-- A search finds an element, if those in front of one that answers "here" do
not send it to the left. -/
theorem walk_isSome_of_split {cut : α → Ordering} {t : RbTree α} {as bs : List α} {x : α}
    (h : t.toList = as ++ x :: bs) (has : ∀ a ∈ as, cut a ≠ .lt) (hx : cut x = .eq)
    (hbs : ∀ b ∈ bs, cut b = .lt) : (walk cut t).isSome := by
  induction t generalizing as bs with
  | nil => simp [toList] at h
  | node c l a r ihl ihr =>
      rw [walk]
      rcases split_node h with ⟨es, has', hr⟩ | rfl | ⟨es, hl, hbs'⟩
      · cases hc : cut a with
        | eq => rfl
        | lt => exact absurd hc (has a (by simp [has']))
        | gt => exact ihr hr (fun b hb => has b (by simp [has', hb])) hbs
      · simp only [hx, Option.isSome_some]
      · simp only [hbs a (by simp [hbs'])]
        exact ihl hl has (fun b hb => hbs b (by simp [hbs', hb]))

/-- A write changes the element that the search finds, and no other. -/
theorem modify_spec {cut : α → Ordering} {t : RbTree α} {x : α} (h : walk cut t = some x)
    (f : α → α) :
    ∃ as bs, t.toList = as ++ x :: bs ∧ (t.modify cut f).toList = as ++ f x :: bs := by
  induction t with
  | nil => cases h
  | node c l a r ihl ihr =>
      rw [walk] at h
      rw [modify]
      cases hc : cut a with
      | eq =>
          rw [hc] at h
          obtain rfl := Option.some.inj h
          exact ⟨l.toList, r.toList, rfl, rfl⟩
      | lt =>
          rw [hc] at h
          obtain ⟨as, bs, hl, hmodify⟩ := ihl h
          exact ⟨as, bs ++ a :: r.toList, by simp [toList, hl], by simp [toList, hmodify]⟩
      | gt =>
          rw [hc] at h
          obtain ⟨as, bs, hr, hmodify⟩ := ihr h
          exact ⟨l.toList ++ a :: as, bs, by simp [toList, hr], by simp [toList, hmodify]⟩

/-- A search that answers "here" for no element finds none. -/
theorem walk_eq_none {cut : α → Ordering} {t : RbTree α} (h : ∀ a ∈ t.toList, cut a ≠ .eq) :
    walk cut t = none := by
  induction t with
  | nil => rfl
  | node c l a r ihl ihr =>
      simp only [toList, List.mem_append, List.mem_cons] at h
      rw [walk]
      cases hc : cut a with
      | eq => exact absurd hc (h a (.inr (.inl rfl)))
      | lt => exact ihl fun b hb => h b (.inl hb)
      | gt => exact ihr fun b hb => h b (.inr (.inr hb))

end RbTree

end Profiling
