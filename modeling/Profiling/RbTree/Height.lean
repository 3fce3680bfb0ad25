import Profiling.RbTree.Balance

/-!
# Profiling.RbTree.Height

How far down the trees of `src/utils/rbtree.c` go.

* `RedBlack.height_le` — the rules keep the longest way down within twice the
  binary logarithm of the number of nodes.
-/

namespace Profiling

namespace RbTree

/-- The number of nodes on the longest way down. -/
def height : RbTree α → Nat
  | nil => 0
  | node _ l _ r => max l.height r.height + 1

variable {t : RbTree α} {c : Color} {n : Nat}

/-- A tree with `n` black nodes on every way down has at least those of the complete
tree of this height. -/
theorem Balanced.le_length (h : Balanced t c n) : 2 ^ n ≤ t.toList.length + 1 := by
  induction h with
  | nil => simp
  | red _ _ ihl ihr =>
      simp only [toList, List.length_append, List.length_cons]
      omega
  | black _ _ ihl ihr =>
      simp only [toList, List.length_append, List.length_cons, pow_succ]
      omega

/-- At most every second node on a way down is red. -/
theorem Balanced.height_le (h : Balanced t c n) :
    t.height ≤ 2 * n + (if c = .red then 1 else 0) := by
  induction h with
  | nil => simp [height]
  | red _ _ ihl ihr =>
      simp only [height, reduceCtorEq, if_false, if_true] at ihl ihr ⊢
      omega
  | @black l r a c₁ c₂ n _ _ ihl ihr =>
      have hl : l.height ≤ 2 * n + 1 := ihl.trans (by split <;> omega)
      have hr : r.height ≤ 2 * n + 1 := ihr.trans (by split <;> omega)
      simp only [height, reduceCtorEq, if_false]
      omega

/-- **The height** of a tree that keeps the rules. -/
theorem RedBlack.height_le (h : RedBlack t) : t.height ≤ 2 * Nat.log 2 (t.toList.length + 1) := by
  obtain ⟨n, ht⟩ := h
  have hn : n ≤ Nat.log 2 (t.toList.length + 1) :=
    Nat.le_log_of_pow_le Nat.one_lt_two ht.le_length
  have hheight : t.height ≤ 2 * n := by simpa using ht.height_le
  omega

/-- A path is no longer than the tree around it is high. -/
theorem length_add_height_le (t : RbTree α) (path : List (Frame α)) :
    path.length + t.height ≤ (zip t path).height := by
  induction path generalizing t with
  | nil => simp [zip]
  | cons f path ih =>
      have hplug : t.height + 1 ≤ (plug f t).height := by
        obtain ⟨side, c, a, s⟩ := f
        cases side <;> simp [plug, height]
      have hrest : path.length + (plug f t).height ≤ (zip t (f :: path)).height := ih _
      simp only [List.length_cons]
      omega

section LinkPath

variable {κ : Type} [LinearOrder κ] (key : α → κ) (x : α)

/-- The descent makes one step for each level. -/
theorem length_linkPath_le (t : RbTree α) (path : List (Frame α)) :
    (linkPath key x t path).length ≤ t.height + path.length := by
  induction t generalizing path with
  | nil => simp [linkPath]
  | node c l a r ihl ihr =>
      rw [linkPath, height]
      split
      · have := ihl (⟨.left, c, a, r⟩ :: path)
        simp only [List.length_cons] at this
        omega
      · have := ihr (⟨.right, c, a, l⟩ :: path)
        simp only [List.length_cons] at this
        omega

/-- It replaces nothing but the empty tree at its end. -/
theorem zip_linkPath (t : RbTree α) (path : List (Frame α)) :
    zip nil (linkPath key x t path) = zip t path := by
  induction t generalizing path with
  | nil => rfl
  | node c l a r ihl ihr =>
      rw [linkPath]
      split
      · exact ihl _
      · exact ihr _

end LinkPath

end RbTree

end Profiling
