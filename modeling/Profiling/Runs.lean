import Mathlib

/-!
# Profiling.Runs

Maximal runs of one value in a sequence that may have gaps.

`IsRun f p j k` says that `f` is `p` from `j` to just before `k`, and neither right
before nor at `k`; an `OpenRun` may go on behind its end.  Each index that has a value
lies in just one run (`exists_isRun`, `IsRun.eq_of_mem`), and a sequence that is finer
than another one has its runs inside those of the other (`IsRun.exists_coarser`).
-/

namespace Profiling

section Runs

variable {β γ : Type*} {f g : ℕ → Option β} {p q : β} {i j k j' k' n : ℕ}

/-- A run that begins at `j` and has come as far as `n`. -/
structure OpenRun (f : ℕ → Option β) (p : β) (j n : ℕ) : Prop where
  lt : j < n
  eq : ∀ i, j ≤ i → i < n → f i = some p
  left : ∀ i, i + 1 = j → f i ≠ some p

/-- A run from `j` to `k`. -/
structure IsRun (f : ℕ → Option β) (p : β) (j k : ℕ) : Prop extends OpenRun f p j k where
  right : f k ≠ some p

theorem OpenRun.congr (h : OpenRun f p j n) (heq : ∀ i < n, f i = g i) : OpenRun g p j n :=
  ⟨h.lt, fun i hj hn => heq i hn ▸ h.eq i hj hn,
    fun i hi => heq i (by have := h.lt; omega) ▸ h.left i hi⟩

theorem openRun_congr (heq : ∀ i < n, f i = g i) : OpenRun f p j n ↔ OpenRun g p j n :=
  ⟨fun h => h.congr heq, fun h => h.congr fun i hi => (heq i hi).symm⟩

/-- One more index goes on with a run, or begins another one. -/
theorem openRun_succ : OpenRun f p j (n + 1) ↔
    f n = some p ∧ (OpenRun f p j n ∨ j = n ∧ ∀ i, i + 1 = n → f i ≠ some p) := by
  constructor
  · rintro ⟨hlt, heq, hleft⟩
    refine ⟨heq n (by omega) (by omega), ?_⟩
    by_cases hj : j = n
    · exact .inr ⟨hj, hj ▸ hleft⟩
    · exact .inl ⟨by omega, fun i hji hin => heq i hji (by omega), hleft⟩
  · rintro ⟨hn, hopen | ⟨rfl, hleft⟩⟩
    · refine ⟨by have := hopen.lt; omega, fun i hji hin => ?_, hopen.left⟩
      by_cases hi : i = n
      · rw [hi, hn]
      · exact hopen.eq i hji (by omega)
    · exact ⟨by omega, fun i hji hin => by rwa [show i = j by omega], hleft⟩

/-- Two open runs with the same end are the same. -/
theorem OpenRun.unique (h : OpenRun f p j n) (h' : OpenRun f q j' n) : p = q ∧ j = j' := by
  have hlt := h.lt
  have hlt' := h'.lt
  have hp := h.eq (n - 1) (by omega) (by omega)
  have hq := h'.eq (n - 1) (by omega) (by omega)
  obtain rfl : p = q := Option.some.inj (hp.symm.trans hq)
  refine ⟨rfl, ?_⟩
  rcases Nat.lt_trichotomy j j' with hj | hj | hj
  · exact absurd (h.eq (j' - 1) (by omega) (by omega)) (h'.left (j' - 1) (by omega))
  · exact hj
  · exact absurd (h'.eq (j - 1) (by omega) (by omega)) (h.left (j - 1) (by omega))

/-- Every index with a value is the last one of an open run. -/
theorem exists_openRun (h : f n = some p) : ∃ j, OpenRun f p j (n + 1) := by
  induction n with
  | zero => exact ⟨0, openRun_succ.mpr ⟨h, .inr ⟨rfl, by omega⟩⟩⟩
  | succ n ih =>
      by_cases hn : f n = some p
      · obtain ⟨j, hj⟩ := ih hn
        exact ⟨j, openRun_succ.mpr ⟨h, .inl hj⟩⟩
      · exact ⟨n + 1, openRun_succ.mpr ⟨h, .inr ⟨rfl, fun i hi => by
          rwa [show i = n by omega]⟩⟩⟩

/-- Every index with a value lies in a run, if the sequence ends. -/
theorem exists_isRun (h : f i = some p) (hend : ∀ i, n ≤ i → f i = none) :
    ∃ j k, IsRun f p j k ∧ j ≤ i ∧ i < k ∧ k ≤ n := by
  have hi : i < n := by
    by_contra hle
    simp [hend i (by omega)] at h
  obtain ⟨j, hj⟩ := exists_openRun h
  -- The run goes on as long as the value stays.
  have hgo : ∀ m, i + m < n → (∃ k, IsRun f p j k ∧ i < k ∧ k ≤ n) ∨ OpenRun f p j (i + m + 1) := by
    intro m
    induction m with
    | zero => exact fun _ => .inr hj
    | succ m ih =>
        intro hm
        obtain hrun | hopen := ih (by omega)
        · exact .inl hrun
        · by_cases hp : f (i + m + 1) = some p
          · exact .inr (openRun_succ.mpr ⟨hp, .inl hopen⟩)
          · exact .inl ⟨i + m + 1, ⟨hopen, hp⟩, by omega, by omega⟩
  have hjle : j ≤ i := by
    have := hj.lt
    omega
  obtain ⟨k, hrun, hik, hkn⟩ | hopen := hgo (n - 1 - i) (by omega)
  · exact ⟨j, k, hrun, hjle, hik, hkn⟩
  · rw [show i + (n - 1 - i) + 1 = n by omega] at hopen
    exact ⟨j, n, ⟨hopen, by simp [hend n le_rfl]⟩, hjle, hi, le_rfl⟩

namespace IsRun

theorem le_of_end (h : IsRun f p j k) (hend : ∀ i, n ≤ i → f i = none) : k ≤ n := by
  by_contra hle
  have hlt := h.lt
  simpa [hend (k - 1) (by omega)] using h.eq (k - 1) (by omega) (by omega)

theorem end_le (h : IsRun f p j k) (h' : IsRun f p j' k') (hle : j ≤ k') : k ≤ k' := by
  by_contra hk
  exact h'.right (h.eq k' hle (by omega))

/-- Runs that have an index in common are the same. -/
theorem eq_of_mem (h : IsRun f p j k) (h' : IsRun f q j' k') (hj : j ≤ i) (hk : i < k)
    (hj' : j' ≤ i) (hk' : i < k') : p = q ∧ j = j' ∧ k = k' := by
  obtain rfl : p = q := Option.some.inj ((h.eq i hj hk).symm.trans (h'.eq i hj' hk'))
  obtain rfl : k = k' := le_antisymm (h.end_le h' (by omega)) (h'.end_le h (by omega))
  exact ⟨rfl, (h.toOpenRun.unique h'.toOpenRun).2, rfl⟩

/-- Where the values of one sequence tell those of another, its runs lie inside those of the
other. -/
theorem exists_coarser {g : ℕ → Option γ} (h : IsRun f p j k) {r : γ} (hg : ∀ i, f i = some p →
    g i = some r) (hend : ∀ i, n ≤ i → g i = none) :
    ∃ j' k', IsRun g r j' k' ∧ j' ≤ j ∧ k ≤ k' ∧ k' ≤ n := by
  obtain ⟨j', k', hrun, hj', hk', hkn⟩ := exists_isRun (hg j (h.eq j le_rfl h.lt)) hend
  refine ⟨j', k', hrun, hj', ?_, hkn⟩
  by_contra hlt
  exact hrun.right (hg k' (h.eq k' (by omega) (by omega)))

end IsRun

end Runs

end Profiling
