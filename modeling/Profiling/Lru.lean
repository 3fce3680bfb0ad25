import Mathlib

/-!
# Profiling.Lru

Caches that make room by giving up the key whose last use is the longest ago.

The keys of such a cache, in the order of their last use, are the last `cap` different
ones of all that were used (`recent_append_singleton`): a key is found if fewer than
`cap` others have been used since (`mem_recent`), and `misses` counts how often one is
not.
-/

namespace Profiling

namespace Lru

variable {α : Type*} [DecidableEq α] {cap : ℕ} {keys before : List α} {key : α}

/-- The last `cap` different keys, in the order of their last use. -/
def recent (cap : ℕ) (keys : List α) : List α := keys.dedup.rtake cap

/-- The use of a key: it stands last in the list, whose first key goes if there is no
room for a new one. -/
def use (cap : ℕ) (cached : List α) (key : α) : List α :=
  if key ∈ cached then cached.erase key ++ [key]
  else (if cap ≤ cached.length then cached.tail else cached) ++ [key]

/-- How many of the keys are not found when they are used, after those of `before`. -/
def misses (cap : ℕ) (before : List α) : List α → ℕ
  | [] => 0
  | key :: keys =>
      (if key ∈ recent cap before then 0 else 1) + misses cap (before ++ [key]) keys

@[simp] theorem recent_nil (cap : ℕ) : recent cap ([] : List α) = [] := by
  simp [recent, List.rtake]

/-- A key that is used again comes after all others. -/
theorem dedup_append_singleton (keys : List α) (key : α) :
    (keys ++ [key]).dedup = keys.dedup.erase key ++ [key] := by
  induction keys with
  | nil => rfl
  | cons a keys ih =>
      by_cases ha : a ∈ keys
      · rw [List.cons_append, List.dedup_cons_of_mem (List.mem_append_left _ ha), ih,
          List.dedup_cons_of_mem ha]
      · rw [List.dedup_cons_of_notMem ha]
        by_cases hkey : a = key
        · subst hkey
          have hnot : a ∉ keys.dedup := fun hmem => ha (List.mem_dedup.mp hmem)
          rw [List.cons_append, List.dedup_cons_of_mem (by simp), ih, List.erase_cons_head,
            List.erase_of_not_mem hnot]
        · rw [List.cons_append, List.dedup_cons_of_notMem (by simp [ha, hkey]), ih,
            List.erase_cons_tail (by simpa using hkey), List.cons_append]

theorem length_recent_le : (recent cap keys).length ≤ cap := by
  rw [recent, List.rtake, List.length_drop]
  omega

/-- **One use** of a key keeps the last `cap` different ones. -/
theorem recent_append_singleton (hcap : 0 < cap) (keys : List α) (key : α) :
    recent cap (keys ++ [key]) = use cap (recent cap keys) key := by
  have hnodup := keys.nodup_dedup
  obtain ⟨old, new, hsplit, hnew, hold⟩ : ∃ old new, keys.dedup = old ++ new ∧
      recent cap keys = new ∧ old.length = keys.dedup.length - cap :=
    ⟨_, _, (List.take_append_drop (keys.dedup.length - cap) keys.dedup).symm, rfl,
      by rw [List.length_take]; omega⟩
  rw [hnew, recent, dedup_append_singleton, List.rtake, hsplit, use]
  rw [hsplit] at hold hnodup
  have hdisjoint := (List.nodup_append.mp hnodup).2.2
  simp only [List.length_append] at hold
  by_cases hin : key ∈ new
  · -- a hit: as many keys as before, and the old ones stay old
    have hnot : key ∉ old := fun hmem => hdisjoint key hmem key hin rfl
    have hpos := List.length_pos_of_mem hin
    rw [if_pos hin, List.erase_append_right _ hnot, List.append_assoc,
      List.drop_append_of_le_length (by
        simp only [List.length_append, List.length_erase_of_mem hin, List.length_singleton]
        omega)]
    simp only [List.length_append, List.length_erase_of_mem hin, List.length_singleton]
    rw [show old.length + (new.length - 1 + 1) - cap = old.length by omega, List.drop_length,
      List.nil_append]
  · rw [if_neg hin]
    by_cases hmem : key ∈ old
    · -- an old key is new again, in the place of the first of the others
      have hpos := List.length_pos_of_mem hmem
      rw [if_pos (by omega), List.erase_append_left _ hmem]
      simp only [List.length_append, List.length_erase_of_mem hmem, List.length_singleton]
      rw [show old.length - 1 + new.length + 1 - cap = (old.erase key).length + 1 by
          rw [List.length_erase_of_mem hmem]; omega,
        List.append_assoc, List.drop_append, List.drop_eq_nil_of_le (by omega), List.nil_append,
        Nat.add_sub_cancel_left, List.drop_append_of_le_length (by omega), List.drop_one]
    · rw [List.erase_of_not_mem (by simp [hmem, hin])]
      simp only [List.length_append, List.length_singleton]
      split
      · next hfull =>
        rw [show old.length + new.length + 1 - cap = old.length + 1 by omega, List.append_assoc,
          List.drop_append, List.drop_eq_nil_of_le (by omega), List.nil_append,
          Nat.add_sub_cancel_left, List.drop_append_of_le_length (by omega), List.drop_one]
      · next hroom =>
        obtain rfl : old = [] := List.length_eq_zero_iff.mp (by omega)
        rw [show ([] : List α).length + new.length + 1 - cap = 0 by
          simp only [List.length_nil]; omega]
        rfl

/-- With its last use in sight, the others since then are counted. -/
theorem mem_recent_append {after : List α} (hafter : key ∉ after) :
    key ∈ recent cap (before ++ key :: after) ↔ after.dedup.length < cap := by
  obtain ⟨old, hold⟩ := List.suffix_union_right before (key :: after).dedup
  have hdedup : (before ++ key :: after).dedup = old ++ key :: after.dedup := by
    rw [List.dedup_append, ← hold, List.dedup_cons_of_notMem hafter]
  have hnot : key ∉ old := fun hmem =>
    (List.nodup_append.mp (hdedup ▸ List.nodup_dedup _)).2.2 key hmem key List.mem_cons_self rfl
  have hnot' : key ∉ after.dedup := fun hmem => hafter (List.mem_dedup.mp hmem)
  rw [recent, hdedup, List.rtake, List.length_append, List.length_cons, List.drop_append,
    List.mem_append]
  constructor
  · rintro (hmem | hmem)
    · exact absurd (List.mem_of_mem_drop hmem) hnot
    · by_contra hcap
      rw [show old.length + (after.dedup.length + 1) - cap - old.length =
        (after.dedup.length - cap) + 1 by omega, List.drop_succ_cons] at hmem
      exact hnot' (List.mem_of_mem_drop hmem)
  · intro hcap
    rw [show old.length + (after.dedup.length + 1) - cap - old.length = 0 by omega, List.drop_zero]
    exact .inr List.mem_cons_self

/-- **A key is found** if fewer than `cap` others have been used since its last use. -/
theorem mem_recent : key ∈ recent cap keys ↔
    ∃ before after, keys = before ++ key :: after ∧ key ∉ after ∧ after.dedup.length < cap := by
  constructor
  · intro hmem
    have hkeys : key ∈ keys.reverse :=
      List.mem_reverse.mpr (List.mem_dedup.mp (List.mem_of_mem_drop hmem))
    obtain ⟨after, before, hsplit, hafter⟩ := List.eq_append_cons_of_mem hkeys
    have hkeys' : keys = before.reverse ++ key :: after.reverse := by
      rw [← List.reverse_reverse keys, hsplit]
      simp
    have hafter' : key ∉ after.reverse := fun h => hafter (List.mem_reverse.mp h)
    rw [hkeys', mem_recent_append hafter'] at hmem
    exact ⟨_, _, hkeys', hafter', hmem⟩
  · rintro ⟨before, after, rfl, hafter, hcap⟩
    exact (mem_recent_append hafter).mpr hcap

theorem misses_append (before keys keys' : List α) :
    misses cap before (keys ++ keys') =
      misses cap before keys + misses cap (before ++ keys) keys' := by
  induction keys generalizing before with
  | nil => simp [misses]
  | cons a keys ih =>
      rw [List.cons_append, misses, misses, ih, List.append_assoc, List.singleton_append,
        Nat.add_assoc]

/-- A key that is used several times in a row counts once. -/
theorem recent_append_replicate {n : ℕ} (hn : n ≠ 0) (keys : List α) (key : α) :
    recent cap (keys ++ List.replicate n key) = recent cap (keys ++ [key]) := by
  rw [recent, recent, List.dedup_append, List.dedup_append, List.replicate_dedup hn,
    List.dedup_cons_of_notMem List.not_mem_nil, List.dedup_nil]

theorem misses_replicate {n : ℕ} (hn : n ≠ 0) (hcap : 0 < cap) (before : List α) (key : α) :
    misses cap before (List.replicate n key) = if key ∈ recent cap before then 0 else 1 := by
  obtain ⟨n, rfl⟩ := Nat.exists_eq_succ_of_ne_zero hn
  rw [List.replicate_succ, misses]
  refine Nat.add_eq_left.mpr ?_
  clear hn
  induction n generalizing before with
  | zero => rfl
  | succ n ih =>
      rw [List.replicate_succ, misses, ih, if_pos]
      exact (mem_recent_append List.not_mem_nil).mpr hcap

end Lru

end Profiling
