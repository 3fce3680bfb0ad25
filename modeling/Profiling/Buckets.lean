import Mathlib

/-!
# Profiling.Buckets

Hash tables with chained buckets: `t i` is the chain of bucket `i`, `key` what
an entry is looked up by, and `hash` the bucket of a key.

A table is `Placed` when every entry is in the bucket of its key and no key
occurs twice in a chain.  Then no key occurs twice in the table (`eq_of_key`),
a search finds the entry of a key (`find?_eq_some_iff`), and adding, erasing
and changing an entry do what they should and keep the table placed.
-/

namespace Profiling.Buckets

variable {α κ : Type*} (key : α → κ) (hash : κ → Nat)

/-- The entry is in the bucket of its key. -/
def Mem (t : Nat → List α) (x : α) : Prop := x ∈ t (hash (key x))

/-- Every entry is where it is looked for, and there is one of each key. -/
structure Placed (t : Nat → List α) : Prop where
  bucket : ∀ i, ∀ x ∈ t i, hash (key x) = i
  distinct : ∀ i, (t i).Pairwise fun a b => key a ≠ key b

variable {key hash} {t : Nat → List α} {x y : α} {k : κ}

theorem placed_empty : Placed key hash fun _ => [] := ⟨by simp, fun _ => List.Pairwise.nil⟩

theorem Placed.mem (h : Placed key hash t) {i : Nat} (hx : x ∈ t i) : Mem key hash t x := by
  rwa [Mem, h.bucket i x hx]

/-- Leaving entries out keeps a table placed. -/
theorem Placed.sublist (h : Placed key hash t) {t' : Nat → List α}
    (hsub : ∀ i, (t' i).Sublist (t i)) : Placed key hash t' where
  bucket i x hx := h.bucket i x ((hsub i).subset hx)
  distinct i := (h.distinct i).sublist (hsub i)

/-- Two entries of one key are one entry. -/
theorem Placed.eq_of_key (h : Placed key hash t) (hx : Mem key hash t x) (hy : Mem key hash t y)
    (hkey : key x = key y) : x = y := by
  rw [Mem, ← hkey] at hy
  have hpair := h.distinct (hash (key x))
  exact List.Pairwise.forall_of_forall_of_flip (R := fun a b => key a = key b → a = b)
    (fun _ _ _ => rfl) (hpair.imp fun hne heq => absurd heq hne)
    (hpair.imp fun hne heq => absurd heq.symm hne) hx hy hkey

section Search

variable [DecidableEq κ]

/-- What a search by key finds is an entry of the key. -/
theorem mem_of_find? (hfind : ((t (hash k)).find? fun a => key a = k) = some x) :
    key x = k ∧ Mem key hash t x := by
  have hkey : key x = k := by simpa using List.find?_some hfind
  refine ⟨hkey, ?_⟩
  rw [Mem, hkey]
  exact List.mem_of_find?_eq_some hfind

/-- A search by key finds the entry of the key, if there is one. -/
theorem Placed.find?_eq_some_iff (h : Placed key hash t) :
    ((t (hash k)).find? fun a => key a = k) = some x ↔ key x = k ∧ Mem key hash t x := by
  refine ⟨mem_of_find?, ?_⟩
  rintro ⟨rfl, hx⟩
  cases hfind : (t (hash (key x))).find? fun a => key a = key x with
  | none => simpa using List.find?_eq_none.mp hfind x hx
  | some y =>
      obtain ⟨hkey, hy⟩ := mem_of_find? hfind
      rw [h.eq_of_key hy hx hkey]

theorem find?_eq_none_iff :
    ((t (hash k)).find? fun a => key a = k) = none ↔ ∀ x, Mem key hash t x → key x ≠ k := by
  rw [List.find?_eq_none]
  constructor
  · rintro hnone x hx rfl
    simpa using hnone x hx
  · intro hnone x hx
    simp only [decide_eq_true_eq]
    rintro rfl
    exact hnone x hx rfl

end Search

/-! ## Adding -/

variable (key hash) in
theorem mem_push (x : α) :
    Mem key hash (Function.update t (hash (key x)) (x :: t (hash (key x)))) y ↔
      Mem key hash t y ∨ y = x := by
  unfold Mem
  by_cases hi : hash (key y) = hash (key x)
  · rw [hi, Function.update_self, List.mem_cons]
    exact or_comm
  · rw [Function.update_of_ne hi]
    have : y ≠ x := fun h => hi (by rw [h])
    simp [this]

/-- An entry of a new key. -/
theorem Placed.push (h : Placed key hash t) (hnew : ∀ y, Mem key hash t y → key y ≠ key x) :
    Placed key hash (Function.update t (hash (key x)) (x :: t (hash (key x)))) := by
  constructor
  · intro i y hy
    by_cases hi : i = hash (key x)
    · subst hi
      rw [Function.update_self, List.mem_cons] at hy
      rcases hy with rfl | hy
      · rfl
      · exact h.bucket _ y hy
    · rw [Function.update_of_ne hi] at hy
      exact h.bucket i y hy
  · intro i
    by_cases hi : i = hash (key x)
    · subst hi
      rw [Function.update_self, List.pairwise_cons]
      exact ⟨fun y hy => (hnew y (h.mem hy)).symm, h.distinct _⟩
    · rw [Function.update_of_ne hi]
      exact h.distinct i

/-! ## Erasing -/

section Erase

variable [DecidableEq κ]

theorem Placed.erase (h : Placed key hash t) (k : κ) :
    Placed key hash (Function.update t (hash k) ((t (hash k)).eraseP fun a => key a = k)) := by
  refine h.sublist fun i => ?_
  by_cases hi : i = hash k
  · subst hi
    rw [Function.update_self]
    exact List.eraseP_sublist
  · rw [Function.update_of_ne hi]

/-- Where keys are distinct, erasing the first entry of a key erases all of them. -/
theorem eraseP_eq_filter {xs : List α} (hxs : xs.Pairwise fun a b => key a ≠ key b) (k : κ) :
    (xs.eraseP fun a => key a = k) = xs.filter fun a => key a ≠ k := by
  induction xs with
  | nil => rfl
  | cons x xs ih =>
      rw [List.pairwise_cons] at hxs
      by_cases hx : key x = k
      · have hrest : xs.filter (fun a => key a ≠ k) = xs := by
          refine List.filter_eq_self.mpr fun y hy => ?_
          simpa [← hx] using (hxs.1 y hy).symm
        rw [List.eraseP_cons_of_pos (by simp [hx]), List.filter_cons_of_neg (by simp [hx]), hrest]
      · simp [hx, ih hxs.2]

/-- Erasing a key keeps the other entries. -/
theorem Placed.mem_erase (h : Placed key hash t) (k : κ) :
    Mem key hash (Function.update t (hash k) ((t (hash k)).eraseP fun a => key a = k)) x ↔
      Mem key hash t x ∧ key x ≠ k := by
  unfold Mem
  by_cases hi : hash (key x) = hash k
  · rw [hi, Function.update_self, eraseP_eq_filter (h.distinct _), List.mem_filter]
    simp
  · rw [Function.update_of_ne hi]
    exact ⟨fun hx => ⟨hx, fun hk => hi (by rw [hk])⟩, fun hx => hx.1⟩

end Erase

/-! ## Changing entries -/

/-- A change that keeps the keys. -/
theorem Placed.map (h : Placed key hash t) {f : α → α} (hf : ∀ x, key (f x) = key x) :
    Placed key hash fun i => (t i).map f where
  bucket i x hx := by
    obtain ⟨y, hy, rfl⟩ := List.mem_map.mp hx
    rw [hf, h.bucket i y hy]
  distinct i := by
    refine List.pairwise_map.mpr ((h.distinct i).imp fun hne => ?_)
    rwa [hf, hf]

theorem mem_map {f : α → α} (hf : ∀ x, key (f x) = key x) :
    Mem key hash (fun i => (t i).map f) y ↔ ∃ x, Mem key hash t x ∧ f x = y := by
  simp only [Mem, List.mem_map]
  constructor
  · rintro ⟨x, hx, rfl⟩
    rw [hf] at hx
    exact ⟨x, hx, rfl⟩
  · rintro ⟨x, hx, rfl⟩
    rw [hf]
    exact ⟨x, hx, rfl⟩

/-! ## All entries -/

/-- The entries of the first `size` buckets. -/
def entries (size : Nat) (t : Nat → List α) : List α := (List.range size).flatMap t

section Entries

variable {size : Nat}

theorem Placed.mem_entries (h : Placed key hash t) (hlt : ∀ k, hash k < size) :
    x ∈ entries size t ↔ Mem key hash t x := by
  rw [entries, List.mem_flatMap]
  constructor
  · rintro ⟨i, -, hx⟩
    exact h.mem hx
  · exact fun hx => ⟨_, List.mem_range.mpr (hlt _), hx⟩

/-- No key occurs twice. -/
theorem Placed.nodup_entries (h : Placed key hash t) (size : Nat) :
    ((entries size t).map key).Nodup := by
  rw [entries, List.map_flatMap, List.nodup_flatMap]
  refine ⟨fun i _ => List.pairwise_map.mpr (h.distinct i), List.nodup_range.imp fun hne => ?_⟩
  intro k hk hk'
  obtain ⟨x, hx, rfl⟩ := List.mem_map.mp hk
  obtain ⟨y, hy, hkey⟩ := List.mem_map.mp hk'
  exact hne ((h.bucket _ x hx).symm.trans ((congrArg hash hkey).symm.trans (h.bucket _ y hy)))

/-- A chain is a part of the entries. -/
theorem Placed.sublist_entries (h : Placed key hash t) (hlt : ∀ k, hash k < size) (i : Nat) :
    (t i).Sublist (entries size t) := by
  rw [entries, List.flatMap_def]
  cases hi : t i with
  | nil => exact List.nil_sublist _
  | cons x xs =>
      have hx : x ∈ t i := hi ▸ List.mem_cons_self
      have hbound : i < size := h.bucket i x hx ▸ hlt _
      rw [← hi]
      exact List.sublist_flatten_of_mem (List.mem_map.mpr ⟨i, List.mem_range.mpr hbound, rfl⟩)

theorem entries_map {β : Type*} (f : α → β) (size : Nat) (t : Nat → List α) :
    entries size (fun i => (t i).map f) = (entries size t).map f := by
  rw [entries, entries, List.map_flatMap]

/-- The entries of one bucket apart from the others. -/
theorem entries_update_perm {i : Nat} (hi : i < size) (xs : List α) :
    (entries size (Function.update t i xs)).Perm
      (xs ++ ((List.range size).erase i).flatMap t) := by
  have hsplit : (List.range size).Perm (i :: (List.range size).erase i) :=
    List.perm_cons_erase (List.mem_range.mpr hi)
  refine (hsplit.flatMap_right _).trans ?_
  rw [List.flatMap_cons, Function.update_self]
  refine List.Perm.append_left _ (.of_eq (List.flatMap_congr fun j hj => ?_))
  exact Function.update_of_ne ((List.nodup_range.mem_erase_iff).mp hj).1 _ _

theorem entries_perm {i : Nat} (hi : i < size) :
    (entries size t).Perm (t i ++ ((List.range size).erase i).flatMap t) := by
  have h := entries_update_perm (t := t) hi (t i)
  rwa [Function.update_eq_self] at h

/-- An entry more in one bucket is an entry more. -/
theorem entries_push_perm {i : Nat} (hi : i < size) (x : α) :
    (entries size (Function.update t i (x :: t i))).Perm (x :: entries size t) :=
  (entries_update_perm hi _).trans ((entries_perm hi).symm.cons x)

/-- Erasing the first of some entries of one bucket. -/
theorem entries_eraseP_perm {i : Nat} (hi : i < size) (p : α → Bool) :
    (entries size t).Perm
      (((t i).find? p).toList ++ entries size (Function.update t i ((t i).eraseP p))) := by
  have hbucket : (t i).Perm (((t i).find? p).toList ++ (t i).eraseP p) := by
    induction t i with
    | nil => exact List.Perm.refl _
    | cons x xs ih =>
        by_cases hp : p x
        · simp [hp]
        · simpa [hp] using (ih.cons x).trans List.perm_middle.symm
  refine (entries_perm hi).trans ((hbucket.append_right _).trans ?_)
  rw [List.append_assoc]
  exact List.Perm.append_left _ (entries_update_perm hi _).symm

end Entries

end Profiling.Buckets
