import Mathlib

/-!
# Profiling.Tally

Counting equal values in a list.

`groupCount xs` has one line for each value with its number of occurrences, and
`expand` writes a count out again.  `IsTally lines xs` says that the lines, in
any order, are the count of `xs`; two counts agree just if the lists are
permutations of each other (`IsTally.same_iff`).
-/

namespace Profiling

section Groups

variable {κ : Type*} [DecidableEq κ] {xs : List κ}

/-- Each value once, with how often it occurs. -/
def groupCount (xs : List κ) : List (κ × Nat) := xs.dedup.map fun k => (k, xs.count k)

/-- Each value as often as its line says. -/
def expand (lines : List (κ × Nat)) : List κ := lines.flatMap fun line => .replicate line.2 line.1

theorem pos_of_mem_groupCount {line : κ × Nat} (h : line ∈ groupCount xs) : 0 < line.2 := by
  obtain ⟨k, hk, rfl⟩ := List.mem_map.mp h
  exact List.count_pos_iff.mpr (List.mem_dedup.mp hk)

/-- A count written out is what was counted. -/
theorem expand_groupCount (xs : List κ) : (expand (groupCount xs)).Perm xs := by
  refine List.perm_iff_count.mpr fun k => ?_
  have hone : ∀ k', (List.replicate (xs.count k') k').count k =
      if k' = k then xs.count k' else 0 := by
    intro k'
    rw [List.count_replicate]
    simp only [beq_iff_eq]
  have hsum : (xs.dedup.map fun k' => if k' = k then xs.count k' else 0).sum =
      ((xs.dedup.filter (· = k)).map (xs.count ·)).sum := by
    induction xs.dedup with
    | nil => rfl
    | cons k' ks ih => by_cases h : k' = k <;> simp [h, ih]
  calc (expand (groupCount xs)).count k
      = (xs.dedup.map fun k' => if k' = k then xs.count k' else 0).sum := by
        simp only [expand, groupCount, List.flatMap_map, List.count_flatMap]
        exact congrArg List.sum (List.map_congr_left fun k' _ => hone k')
    _ = xs.countP (· = k) := hsum.trans (List.sum_map_count_dedup_filter_eq_countP _ xs)
    _ = xs.count k := by
        rw [List.count]
        exact List.countP_congr fun k' _ => by simp

end Groups

section Tallies

variable {κ : Type*} [BEq κ] {xs ys : List κ}

/-- The lines are the values that occur, each with how often it does. -/
structure IsTally (lines : List (κ × Int)) (xs : List κ) : Prop where
  nodup : (lines.map Prod.fst).Nodup
  mem : ∀ k n, (k, n) ∈ lines ↔ k ∈ xs ∧ n = xs.count k

theorem IsTally.perm {lines : List (κ × Int)} (h : IsTally lines xs) (hperm : xs.Perm ys) :
    IsTally lines ys :=
  ⟨h.nodup, fun k n => by rw [h.mem, hperm.mem_iff, hperm.count_eq]⟩

/-- Counts that agree are counts of the same values. -/
theorem IsTally.same_iff [LawfulBEq κ] {lines lines' : List (κ × Int)} (h : IsTally lines xs)
    (h' : IsTally lines' ys) : (∀ line, line ∈ lines ↔ line ∈ lines') ↔ xs.Perm ys := by
  constructor
  · intro hsame
    refine List.perm_iff_count.mpr fun k => ?_
    by_cases hk : k ∈ xs
    · have hline := (hsame (k, (xs.count k : Int))).mp ((h.mem _ _).mpr ⟨hk, rfl⟩)
      exact_mod_cast ((h'.mem _ _).mp hline).2
    · have hk' : k ∉ ys := fun hk' => by
        have hline := (hsame (k, (ys.count k : Int))).mpr ((h'.mem _ _).mpr ⟨hk', rfl⟩)
        exact hk ((h.mem _ _).mp hline).1
      rw [List.count_eq_zero_of_not_mem hk, List.count_eq_zero_of_not_mem hk']
  · rintro hperm ⟨k, n⟩
    rw [(h.perm hperm).mem, h'.mem]

/-- The counts of some of the values add up to how many there are. -/
theorem IsTally.sum_filter [LawfulBEq κ] {lines : List (κ × Int)} (h : IsTally lines xs)
    (P : κ → Bool) :
    ((lines.filter fun line => P line.1).map Prod.snd).sum = (xs.filter P).length := by
  classical
  have hbeq : instBEqOfDecidableEq = (inferInstance : BEq κ) := lawful_beq_subsingleton _ _
  have hkeys : (lines.map Prod.fst).Perm xs.dedup := by
    refine (List.perm_ext_iff_of_nodup h.nodup (List.nodup_dedup xs)).mpr fun k => ?_
    rw [List.mem_dedup, List.mem_map]
    constructor
    · rintro ⟨⟨k, n⟩, hline, rfl⟩
      exact ((h.mem k n).mp hline).1
    · exact fun hk => ⟨(k, _), (h.mem k _).mpr ⟨hk, rfl⟩, rfl⟩
  have hcounts : ∀ line ∈ lines.filter fun line => P line.1, line.2 = (xs.count line.1 : Int) :=
    fun line hline => ((h.mem line.1 line.2).mp (List.mem_filter.mp hline).1).2
  have hfst : (lines.filter fun line => P line.1).map Prod.fst = (lines.map Prod.fst).filter P := by
    rw [List.filter_map]
    rfl
  calc ((lines.filter fun line => P line.1).map Prod.snd).sum
      = (((lines.map Prod.fst).filter P).map fun k => (xs.count k : Int)).sum := by
        rw [← hfst, List.map_map, List.map_congr_left hcounts]
        rfl
    _ = ((xs.dedup.filter P).map fun k => (xs.count k : Int)).sum :=
        ((hkeys.filter P).map _).sum_eq
    _ = ((((xs.dedup.filter P).map (xs.count ·)).sum : Nat) : Int) := by
        rw [Nat.cast_list_sum, List.map_map]
        rfl
    _ = (xs.filter P).length := by
        have hsum := List.sum_map_count_dedup_filter_eq_countP P xs
        rw [hbeq] at hsum
        rw [hsum, List.countP_eq_length_filter]
end Tallies

/-- Picking out the elements of some groups, group by group. -/
theorem flatMap_filter_perm {α κ : Type*} [DecidableEq κ] (f : α → κ) {ks : List κ}
    (hks : ks.Nodup) (xs : List α) :
    (ks.flatMap fun k => xs.filter fun x => f x = k).Perm (xs.filter fun x => f x ∈ ks) := by
  induction ks with
  | nil => simp
  | cons k ks ih =>
      obtain ⟨hk, hks⟩ := List.nodup_cons.mp hks
      have hsplit := List.filter_append_perm (fun x => f x = k) (xs.filter fun x => f x ∈ k :: ks)
      have hfirst : (xs.filter fun x => f x ∈ k :: ks).filter (fun x => f x = k) =
          xs.filter fun x => f x = k := by
        rw [List.filter_filter]
        exact List.filter_congr fun x _ => by grind
      have hrest : (xs.filter fun x => f x ∈ k :: ks).filter (fun x => !(f x = k)) =
          xs.filter fun x => f x ∈ ks := by
        rw [List.filter_filter]
        exact List.filter_congr fun x _ => by grind
      rw [hfirst, hrest] at hsplit
      rw [List.flatMap_cons]
      exact ((ih hks).append_left _).trans hsplit

/-- Where a filter lets no more through than a weaker one, they are the same. -/
theorem of_length_filter_eq {α : Type*} {p q : α → Bool} {xs : List α}
    (himp : ∀ x ∈ xs, p x = true → q x = true)
    (hlen : (xs.filter q).length = (xs.filter p).length) {x : α} (hx : x ∈ xs) (hq : q x = true) :
    p x = true := by
  have hboth : (xs.filter q).filter p = xs.filter p := by
    rw [List.filter_filter]
    refine List.filter_congr fun y hy => ?_
    cases hp : p y with
    | false => rfl
    | true => rw [himp y hy hp, Bool.and_self]
  have hall : (xs.filter q).filter p = xs.filter q :=
    List.filter_sublist.eq_of_length (by rw [hboth, hlen])
  exact List.filter_eq_self.mp hall x (List.mem_filter.mpr ⟨hx, hq⟩)

section Single

variable {ι α : Type*} {us : List ι} {f : ι → List α} {u : ι}

/-- A concatenation to which one element adds something. -/
theorem flatMap_eq_of_others (hus : us.Nodup) (hu : u ∈ us)
    (hothers : ∀ v ∈ us, v ≠ u → f v = []) : us.flatMap f = f u := by
  obtain ⟨as, bs, rfl⟩ := List.append_of_mem hu
  rw [List.nodup_append, List.nodup_cons] at hus
  have has : as.flatMap f = [] := List.flatMap_eq_nil_iff.mpr fun v hv =>
    hothers v (List.mem_append_left _ hv) (hus.2.2 v hv u List.mem_cons_self)
  have hbs : bs.flatMap f = [] := List.flatMap_eq_nil_iff.mpr fun v hv =>
    hothers v (List.mem_append_right _ (List.mem_cons_of_mem _ hv)) fun heq =>
      hus.2.1.1 (heq ▸ hv)
  rw [List.flatMap_append, List.flatMap_cons, has, hbs, List.nil_append, List.append_nil]

/-- If a concatenation is no longer than what one element adds, the others add
nothing. -/
theorem others_eq_nil (hu : u ∈ us) (hlen : (us.flatMap f).length ≤ (f u).length) :
    ∀ v ∈ us, v ≠ u → f v = [] := by
  obtain ⟨as, bs, rfl⟩ := List.append_of_mem hu
  rw [List.flatMap_append, List.flatMap_cons, List.length_append, List.length_append] at hlen
  have has : as.flatMap f = [] := List.eq_nil_of_length_eq_zero (by omega)
  have hbs : bs.flatMap f = [] := List.eq_nil_of_length_eq_zero (by omega)
  intro v hv hne
  rcases List.mem_append.mp hv with hv | hv
  · exact List.flatMap_eq_nil_iff.mp has v hv
  · exact List.flatMap_eq_nil_iff.mp hbs v ((List.mem_cons.mp hv).resolve_left hne)

end Single

end Profiling
