import Profiling.RbTree

/-!
# Profiling.RbTree.Rebalance

Red-black trees whose rebalancing is left open.

All that is assumed of a rebalancing is that it keeps the in-order sequence
(`KeepsSequence`); what `rb_insert_color` does is one such rebalancing
(`keepsSequence_repaired`).

* `insertWith_spec`, `insertAll_spec` — the trees that are built with it are
  sorted, and have the inserted elements in them;
* `floorWalk_eq` — a search that goes on to the right finds the last of the
  elements that it may.
-/

namespace Profiling

namespace RbTree

/-- A rebalancing: the tree after an element has been linked at the end of a path. -/
abbrev Rebalancing (α : Type) := α → List (Frame α) → RbTree α

/-- The in-order sequence is that of the tree with the new node in its place. -/
def KeepsSequence (rebalance : Rebalancing α) : Prop :=
  ∀ x path, (rebalance x path).toList = (zip (.node .red .nil x .nil) path).toList

/-- What `rb_insert_color` does. -/
def repaired : Rebalancing α := fun x path =>
  (insertColor .nil x .nil path).getD (zip (.node .red .nil x .nil) path)

/-- The search for the last element that `p` is true of, beginning with the one
found so far. -/
def floorWalk (p : α → Bool) : RbTree α → Option α → Option α
  | .nil, found => found
  | .node _ l a r, found => if p a then floorWalk p r (some a) else floorWalk p l found

theorem keepsSequence_repaired : KeepsSequence (repaired : Rebalancing α) := by
  intro x path
  rw [repaired]
  cases h : insertColor .nil x .nil path with
  | none => rfl
  | some t =>
      rw [Option.getD_some, toList_insertColor h, toList_zip]
      rfl

theorem KeepsSequence.toList {rebalance : Rebalancing α} (h : KeepsSequence rebalance) (x : α)
    (path : List (Frame α)) : (rebalance x path).toList = before path ++ x :: after path := by
  rw [h, toList_zip]
  simp [RbTree.toList]

section Insert

variable {κ : Type} [LinearOrder κ] {key : α → κ} {rebalance : Rebalancing α}

/-- The callers' insertion, for some `rb_insert_color`. -/
def insertWith (rebalance : Rebalancing α) (key : α → κ) (t : RbTree α) (x : α) : RbTree α :=
  rebalance x (linkPath key x t [])

/-- The tree of these elements, inserted one after another. -/
def insertAll (rebalance : Rebalancing α) (key : α → κ) (xs : List α) : RbTree α :=
  xs.foldl (insertWith rebalance key) .nil

/-- The insertion of `src/utils/rbtree.c` is the one with its repair. -/
theorem insertWith_repaired {x : α} {t t' : RbTree α} (h : rbInsert key x t = some t') :
    insertWith repaired key t x = t' := by
  rw [insertWith, repaired, ← rbInsert, h, Option.getD_some]

/-- One insertion: the element comes behind those whose keys are not greater. -/
theorem insertWith_spec (hkeeps : KeepsSequence rebalance) {t : RbTree α} (ht : t.Sorted key)
    (x : α) :
    ∃ as bs, t.toList = as ++ bs ∧ (insertWith rebalance key t x).toList = as ++ x :: bs ∧
      (∀ a ∈ as, key a ≤ key x) ∧ ∀ b ∈ bs, key x < key b := by
  obtain ⟨hlist, has, hbs⟩ := linkPath_spec (x := x) [] ht (by simp [before]) (by simp [after])
  refine ⟨_, _, ?_, hkeeps.toList x _, has, hbs⟩
  simpa [before, after] using hlist.symm

theorem sorted_insertWith (hkeeps : KeepsSequence rebalance) {t : RbTree α} (ht : t.Sorted key)
    (x : α) : (insertWith rebalance key t x).Sorted key := by
  obtain ⟨as, bs, hold, hnew, has, hbs⟩ := insertWith_spec hkeeps ht x
  rw [Sorted, hold] at ht
  rw [Sorted, hnew]
  exact pairwise_insert ht has hbs

/-- **The tree of a list** is sorted, and has the elements of the list in it. -/
theorem insertAll_spec (hkeeps : KeepsSequence rebalance) (xs : List α) :
    (insertAll rebalance key xs).Sorted key ∧ (insertAll rebalance key xs).toList.Perm xs := by
  induction xs using List.reverseRecOn with
  | nil => exact ⟨List.Pairwise.nil, List.Perm.refl _⟩
  | append_singleton xs x ih =>
      obtain ⟨hsorted, hperm⟩ := ih
      obtain ⟨as, bs, hold, hnew, -, -⟩ := insertWith_spec hkeeps hsorted x
      rw [insertAll, List.foldl_concat]
      refine ⟨sorted_insertWith hkeeps hsorted x, ?_⟩
      rw [← insertAll, hnew]
      have hmiddle : (as ++ x :: bs).Perm (x :: xs) :=
        List.perm_middle.trans ((hold ▸ hperm).cons x)
      exact hmiddle.trans (List.perm_append_singleton x xs).symm

end Insert

/-- **The floor search.**  Where `p` is true of a front part of the sequence, the
search gives the last element of this part. -/
theorem floorWalk_eq {p : α → Bool} {t : RbTree α} {found : Option α}
    (h : t.toList.Pairwise fun a b => p b = true → p a = true) :
    floorWalk p t found = ((t.toList.filter p).getLast?).or found := by
  induction t generalizing found with
  | nil => rfl
  | node c l a r ihl ihr =>
      rw [toList, List.pairwise_append, List.pairwise_cons] at h
      obtain ⟨hl, ⟨har, hr⟩, hlar⟩ := h
      rw [floorWalk, toList, List.filter_append, List.filter_cons]
      by_cases ha : p a = true
      · rw [if_pos ha, if_pos ha, ihr hr, List.getLast?_append, List.getLast?_cons]
        cases (r.toList.filter p).getLast? <;> rfl
      · -- nothing behind the root is looked for either
        have hnil : r.toList.filter p = [] :=
          List.filter_eq_nil_iff.mpr fun b hb hpb => ha (har b hb hpb)
        rw [if_neg ha, if_neg ha, hnil, List.append_nil, ihl hl]

end RbTree

end Profiling
