import Profiling.RbTree

/-!
# Profiling.RbTree.Balance

The colour rules of `src/utils/rbtree.c`, and that insertion keeps them.

A tree is balanced when no red node has a red child and all paths down to a
`NULL` pass through the same number of black nodes.  The comments of the repair
loops speak of a tree with one node in doubt, so the rules are also stated for
a path: what its hole must be filled with for the whole tree to be balanced.

* `redBlack_zip` — the whole is balanced when the node and its path fit;
* `redBlack_rbInsert` — insertion into a balanced tree never meets `NULL`, and
  leaves a balanced tree.
-/

namespace Profiling

namespace RbTree

/-- The rules 4) and 5) for a tree with the given colour at the root and the
given number of black nodes on every path down. -/
inductive Balanced : RbTree α → Color → Nat → Prop
  | nil : Balanced .nil .black 0
  | red {l r : RbTree α} {a : α} {n : Nat} :
      Balanced l .black n → Balanced r .black n → Balanced (.node .red l a r) .red n
  | black {l r : RbTree α} {a : α} {c₁ c₂ : Color} {n : Nat} :
      Balanced l c₁ n → Balanced r c₂ n → Balanced (.node .black l a r) .black (n + 1)

/-- The rules for a path whose hole takes a tree of the given colour and black
height; under a black node that may be either colour. -/
inductive BalancedPath : List (Frame α) → Color → Nat → Prop
  | nil {n : Nat} : BalancedPath [] .black n
  | red {f : Frame α} {path : List (Frame α)} {n : Nat} : f.color = .red →
      Balanced f.sibling .black n → BalancedPath path .red n → BalancedPath (f :: path) .black n
  | black {f : Frame α} {path : List (Frame α)} {c c' : Color} {n : Nat} : f.color = .black →
      Balanced f.sibling c n → BalancedPath path .black (n + 1) → BalancedPath (f :: path) c' n

/-- A tree that the program may hold at its root pointer. -/
def RedBlack (t : RbTree α) : Prop := ∃ n, Balanced t .black n

theorem redBlack_nil : RedBlack (nil : RbTree α) := ⟨0, .nil⟩

section Balanced

variable {t l r : RbTree α} {a : α} {c : Color} {n : Nat} {path : List (Frame α)}

/-- The colour of the rules is the colour of the root. -/
theorem Balanced.color_eq (h : Balanced t c n) : t.color = c := by
  cases h <;> rfl

/-- What has a black root keeps it. -/
theorem Balanced.setBlack (h : Balanced t .black n) : Balanced t.setBlack .black n := by
  cases h with
  | nil => exact .nil
  | black hl hr => exact .black hl hr

/-- A red node may always be recoloured black. -/
theorem Balanced.setBlack_red (h : Balanced t .red n) : Balanced t.setBlack .black (n + 1) := by
  cases h with
  | red hl hr => exact .black hl hr

/-- The rules do not look at the records. -/
theorem Balanced.with_val (h : Balanced (.node c l a r) c' n) (b : α) :
    Balanced (.node c l b r) c' n := by
  cases h with
  | red hl hr => exact .red hl hr
  | black hl hr => exact .black hl hr

/-- A place that a red node fits is one that a black node fits. -/
theorem BalancedPath.of_red (h : BalancedPath path .red n) : BalancedPath path c n := by
  cases h with
  | black hf hs hpath => exact .black hf hs hpath

/-- What fits a frame makes a node that fits the rest of the path. -/
theorem BalancedPath.plug {f : Frame α} (h : BalancedPath (f :: path) c n) (ht : Balanced t c n) :
    ∃ c' n', Balanced (plug f t) c' n' ∧ BalancedPath path c' n' := by
  obtain ⟨side, cf, b, s⟩ := f
  cases h with
  | red hf hs hpath =>
      obtain rfl : cf = .red := hf
      cases side with
      | left => exact ⟨_, _, .red ht hs, hpath⟩
      | right => exact ⟨_, _, .red hs ht, hpath⟩
  | black hf hs hpath =>
      obtain rfl : cf = .black := hf
      cases side with
      | left => exact ⟨_, _, .black ht hs, hpath⟩
      | right => exact ⟨_, _, .black hs ht, hpath⟩

/-- And a node that fits comes from a child that does. -/
theorem BalancedPath.of_plug {f : Frame α} (ht : Balanced (RbTree.plug f t) c n)
    (h : BalancedPath path c n) :
    ∃ c' n', Balanced t c' n' ∧ BalancedPath (f :: path) c' n' := by
  obtain ⟨side, cf, b, s⟩ := f
  cases side with
  | left =>
      cases ht with
      | red hl hr => exact ⟨_, _, hl, .red rfl hr h⟩
      | black hl hr => exact ⟨_, _, hl, .black rfl hr h⟩
  | right =>
      cases ht with
      | red hl hr => exact ⟨_, _, hr, .red rfl hl h⟩
      | black hl hr => exact ⟨_, _, hr, .black rfl hl h⟩

end Balanced

/-- **The whole and its parts.**  A tree is balanced when the subtree at any
of its nodes fits the path that leads there. -/
theorem redBlack_zip {t : RbTree α} {path : List (Frame α)} :
    RedBlack (zip t path) ↔ ∃ c n, Balanced t c n ∧ BalancedPath path c n := by
  induction path generalizing t with
  | nil =>
      constructor
      · rintro ⟨n, ht⟩
        exact ⟨.black, n, ht, .nil⟩
      · rintro ⟨c, n, ht, hpath⟩
        cases hpath
        exact ⟨n, ht⟩
  | cons f path ih =>
      rw [zip, List.foldl_cons, ← zip, ih]
      constructor
      · rintro ⟨c, n, ht, hpath⟩
        exact BalancedPath.of_plug ht hpath
      · rintro ⟨c, n, ht, hpath⟩
        exact hpath.plug ht

/-! ## Insertion -/

/-- A red parent has a black parent of its own. -/
theorem BalancedPath.grandparent {p g : Frame α} {rest : List (Frame α)} {n : Nat}
    (h : BalancedPath (p :: g :: rest) .black n) (hp : ¬p.color = .black) :
    Balanced p.sibling .black n ∧ g.color = .black ∧ (∃ c, Balanced g.sibling c n) ∧
      BalancedPath rest .black (n + 1) := by
  cases h with
  | red _ hs hrest =>
      cases hrest with
      | black hg hu hrest => exact ⟨hs, hg, ⟨_, hu⟩, hrest⟩
  | black hblack => exact absurd hblack hp

/-- A rotation at the grandparent, where two red nodes have come to its children. -/
theorem BalancedPath.redBlack_rotate {p g : Frame α} {rest : List (Frame α)} {x y : RbTree α} {a : α}
    {n : Nat} (h : BalancedPath (p :: g :: rest) .black n) (hp : ¬p.color = .black)
    (hx : Balanced x .red n) (hy : Balanced y .red n) :
    RedBlack (zip (node g.color x a y) rest) := by
  obtain ⟨-, hg, -, hrest⟩ := h.grandparent hp
  rw [hg]
  exact redBlack_zip.mpr ⟨_, _, .black hx hy, hrest⟩

/-- A black parent takes a red child. -/
theorem BalancedPath.red_child {p : Frame α} {rest : List (Frame α)} {n : Nat}
    (h : BalancedPath (p :: rest) .black n) (hp : p.color = .black) :
    BalancedPath (p :: rest) .red n := by
  cases h with
  | red hred => simp [hp] at hred
  | black hp hs hrest => exact .black hp hs hrest

theorem Balanced.black_of_not_red {t : RbTree α} {c : Color} {n : Nat} (h : Balanced t c n)
    (hc : ¬t.color = .red) : Balanced t .black n := by
  cases c with
  | red => exact absurd h.color_eq hc
  | black => exact h

/-- The red parent of a red node, once it is black. -/
theorem balanced_parent {p : Frame α} {l r : RbTree α} {a : α} {n : Nat}
    (hl : Balanced l .black n) (hr : Balanced r .black n) (hs : Balanced p.sibling .black n) :
    Balanced (plug p (node .red l a r)).setBlack .black (n + 1) := by
  obtain ⟨side, c, b, s⟩ := p
  cases side with
  | left => exact .black (.red hl hr) hs
  | right => exact .black hs (.red hl hr)

/-- **The repair keeps the rules.**  `node` is red, its children are balanced,
and the path has a place for a black node of their height. -/
theorem redBlack_insertColor {l r : RbTree α} {a : α} {path : List (Frame α)}
    (h : ∃ n, Balanced l .black n ∧ Balanced r .black n ∧ BalancedPath path .black n) :
    ∃ t, insertColor l a r path = some t ∧ RedBlack t := by
  fun_induction insertColor l a r path with
  | case1 l a r =>
      obtain ⟨n, hl, hr, hpath⟩ := h
      exact ⟨_, rfl, _, .black hl hr⟩
  | case2 l a r p hp =>
      obtain ⟨n, hl, hr, hpath⟩ := h
      have hwhole : RedBlack (zip (node .red l a r) [p]) :=
        redBlack_zip.mpr ⟨_, _, .red hl hr, hpath.red_child hp⟩
      exact ⟨_, rfl, hwhole⟩
  | case3 l a r p hp =>
      obtain ⟨n, hl, hr, hpath⟩ := h
      cases hpath with
      | red hred hs hrest => cases hrest
      | black hblack => exact absurd hblack hp
  | case4 l a r p g rest hp =>
      obtain ⟨n, hl, hr, hpath⟩ := h
      exact ⟨_, rfl, redBlack_zip.mpr ⟨_, _, .red hl hr, hpath.red_child hp⟩⟩
  | case5 l a r p g rest hp hu parent hg ih =>
      obtain ⟨n, hl, hr, hpath⟩ := h
      obtain ⟨hs, -, ⟨c, hu'⟩, hrest⟩ := hpath.grandparent hp
      obtain rfl : c = .red := hu'.color_eq.symm.trans hu
      exact ih ⟨_, balanced_parent hl hr hs, hu'.setBlack_red, hrest⟩
  | case6 l a r p g rest hp hu parent hg ih =>
      obtain ⟨n, hl, hr, hpath⟩ := h
      obtain ⟨hs, -, ⟨c, hu'⟩, hrest⟩ := hpath.grandparent hp
      obtain rfl : c = .red := hu'.color_eq.symm.trans hu
      exact ih ⟨_, hu'.setBlack_red, balanced_parent hl hr hs, hrest⟩
  | case7 l a r p g rest hp hu hs hg =>
      obtain ⟨n, hl, hr, hpath⟩ := h
      obtain ⟨hsib, -, ⟨c, hc⟩, -⟩ := hpath.grandparent hp
      have hu' := hc.black_of_not_red hu
      exact ⟨_, rfl, hpath.redBlack_rotate hp (.red hl hr) (.red hsib.setBlack hu')⟩
  | case8 l a r p g rest hp hu hs hg =>
      obtain ⟨n, hl, hr, hpath⟩ := h
      obtain ⟨hsib, -, ⟨c, hc⟩, -⟩ := hpath.grandparent hp
      have hu' := hc.black_of_not_red hu
      exact ⟨_, rfl, hpath.redBlack_rotate hp (.red hsib hl.setBlack) (.red hr.setBlack hu')⟩
  | case9 l a r p g rest hp hu hs hg =>
      obtain ⟨n, hl, hr, hpath⟩ := h
      obtain ⟨hsib, -, ⟨c, hc⟩, -⟩ := hpath.grandparent hp
      have hu' := hc.black_of_not_red hu
      exact ⟨_, rfl, hpath.redBlack_rotate hp (.red hu' hsib.setBlack) (.red hl hr)⟩
  | case10 l a r p g rest hp hu hs hg =>
      obtain ⟨n, hl, hr, hpath⟩ := h
      obtain ⟨hsib, -, ⟨c, hc⟩, -⟩ := hpath.grandparent hp
      have hu' := hc.black_of_not_red hu
      exact ⟨_, rfl, hpath.redBlack_rotate hp (.red hu' hl.setBlack) (.red hr.setBlack hsib)⟩

section Insert

variable {κ : Type} [LinearOrder κ] (key : α → κ)

/-- The descent ends at an empty place. -/
theorem balancedPath_linkPath {x : α} {t : RbTree α} {path : List (Frame α)} {c : Color} {n : Nat}
    (ht : Balanced t c n) (hpath : BalancedPath path c n) :
    BalancedPath (linkPath key x t path) .black 0 := by
  induction ht generalizing path with
  | nil => exact hpath
  | red hl hr ihl ihr =>
      rw [linkPath]
      split
      · exact ihl (.red rfl hr hpath)
      · exact ihr (.red rfl hl hpath)
  | black hl hr ihl ihr =>
      rw [linkPath]
      split
      · exact ihl (.black rfl hr hpath)
      · exact ihr (.black rfl hl hpath)

/-- **Insertion keeps the rules.** -/
theorem redBlack_rbInsert (x : α) {t : RbTree α} (h : RedBlack t) :
    ∃ t', rbInsert key x t = some t' ∧ RedBlack t' := by
  obtain ⟨n, ht⟩ := h
  exact redBlack_insertColor ⟨0, .nil, .nil, balancedPath_linkPath key ht .nil⟩

end Insert

end RbTree

end Profiling
