import Mathlib

/-!
# Profiling.Machine

Labelled transition machines and the invariant rule.

A machine is a set of initial states and a partial step function: `step s a`
is `none` when the action `a` is not enabled in `s` (a blocked thread, a wait
condition that holds).  All the nondeterminism of a system lives in the
labels, so a run is just a list of labels and can be evaluated.

Everything here is proved once, for an arbitrary state and label type: the
concurrency modules instantiate `Machine` and use `Machine.invariant` (one
step preserves it, so every reachable state has it) and `Machine.guard` (the
same machine with some steps ruled out); `Machine.run_simulation` is for two
machines with the same labels, and `Machine.length_le_of_measure` for runs
that end.
-/

namespace Profiling

/-- A machine over states `σ` and labels `ι`: what it may start in, and what
one labelled step does. -/
structure Machine (σ : Type u) (ι : Type v) where
  init : σ → Prop
  step : σ → ι → Option σ

namespace Machine

variable {σ : Type u} {ι : Type v} (m : Machine σ ι)

/-- Run a list of labels from a state, failing at the first disabled one. -/
def run (s : σ) : List ι → Option σ
  | [] => some s
  | a :: as => (m.step s a).bind fun t => run t as

/-- The states some run from an initial state ends in. -/
def Reachable (s : σ) : Prop := ∃ s₀ as, m.init s₀ ∧ m.run s₀ as = some s

@[simp] theorem run_nil (s : σ) : m.run s [] = some s := rfl

theorem run_cons (s : σ) (a : ι) (as : List ι) :
    m.run s (a :: as) = (m.step s a).bind fun t => m.run t as := rfl

/-- A run of a longer list of labels passes through the end of its prefix. -/
theorem run_append (s : σ) (as bs : List ι) :
    m.run s (as ++ bs) = (m.run s as).bind fun t => m.run t bs := by
  induction as generalizing s with
  | nil => rfl
  | cons a as ih =>
      rw [List.cons_append, run_cons, run_cons]
      cases m.step s a with
      | none => rfl
      | some t => exact ih t

/-- What every step preserves, every run preserves. -/
theorem run_induction {P : σ → Prop} (hstep : ∀ s a t, P s → m.step s a = some t → P t)
    {s t : σ} {as : List ι} (hs : P s) (hrun : m.run s as = some t) : P t := by
  induction as generalizing s with
  | nil =>
      simp only [run_nil, Option.some.injEq] at hrun
      exact hrun ▸ hs
  | cons a as ih =>
      rw [run_cons] at hrun
      cases hst : m.step s a with
      | none => simp [hst] at hrun
      | some u =>
          rw [hst, Option.bind_some] at hrun
          exact ih (hstep s a u hs hst) hrun

/-- **Invariant rule**: a property of the initial states that every step
preserves holds in every reachable state. -/
theorem invariant {P : σ → Prop} (hinit : ∀ s, m.init s → P s)
    (hstep : ∀ s a t, P s → m.step s a = some t → P t) {s : σ} (h : m.Reachable s) : P s := by
  obtain ⟨s₀, as, h₀, hrun⟩ := h
  exact m.run_induction hstep (hinit s₀ h₀) hrun

/-- Reachable states are closed under runs. -/
theorem reachable_run {s t : σ} {as : List ι} (h : m.Reachable s) (hrun : m.run s as = some t) :
    m.Reachable t := by
  obtain ⟨s₀, bs, h₀, hb⟩ := h
  exact ⟨s₀, bs ++ as, h₀, by rw [run_append, hb, Option.bind_some, hrun]⟩

theorem reachable_step {s t : σ} {a : ι} (h : m.Reachable s) (hstep : m.step s a = some t) :
    m.Reachable t :=
  have hrun : m.run s [a] = some t := by rw [run_cons, hstep, Option.bind_some, run_nil]
  m.reachable_run h hrun

/-- **Simulation rule**: where each step of `m` is matched by one of `n` in related
states, each run is matched by a run.  The relation may depend on how many steps are
still to come. -/
theorem run_simulation {τ : Type w} (n : Machine τ ι) {R : Nat → τ → σ → Prop}
    (hstep : ∀ k s t a t', R (k + 1) s t → m.step t a = some t' →
      ∃ s', n.step s a = some s' ∧ R k s' t')
    {s : τ} {t t' : σ} {as : List ι} (h : R as.length s t) (hrun : m.run t as = some t') :
    ∃ s', n.run s as = some s' ∧ R 0 s' t' := by
  induction as generalizing s t with
  | nil =>
      obtain rfl := Option.some.inj hrun
      exact ⟨s, rfl, h⟩
  | cons a as ih =>
      rw [run_cons] at hrun
      obtain ⟨u, hu, hrest⟩ := Option.bind_eq_some_iff.mp hrun
      obtain ⟨s₁, hs₁, h₁⟩ := hstep as.length s t a u h hu
      obtain ⟨s', hs', h'⟩ := ih h₁ hrest
      exact ⟨s', by rw [run_cons, hs₁, Option.bind_some, hs'], h'⟩

/-! ## Runs that end -/

section Measure

variable {P : σ → Prop} {A : ι → Prop} {μ : σ → Nat}

/-- **Measure rule**: where each of the steps `A` lowers the measure, a run of them is no
longer than the measure is high. -/
theorem length_le_of_measure
    (hstep : ∀ s a t, P s → A a → m.step s a = some t → P t ∧ μ t < μ s) {s t : σ} {as : List ι}
    (hs : P s) (has : ∀ a ∈ as, A a) (hrun : m.run s as = some t) :
    P t ∧ as.length + μ t ≤ μ s := by
  induction as generalizing s with
  | nil =>
      obtain rfl := Option.some.inj hrun
      exact ⟨hs, by simp⟩
  | cons a as ih =>
      rw [run_cons] at hrun
      obtain ⟨u, hu, hrest⟩ := Option.bind_eq_some_iff.mp hrun
      obtain ⟨hPu, hlt⟩ := hstep s a u hs (has a List.mem_cons_self) hu
      obtain ⟨hPt, hle⟩ := ih hPu (fun b hb => has b (List.mem_cons_of_mem _ hb)) hrest
      exact ⟨hPt, by rw [List.length_cons]; omega⟩

/-- So there is a run to a state in which none of them is enabled. -/
theorem exists_run_of_measure
    (hstep : ∀ s a t, P s → A a → m.step s a = some t → P t ∧ μ t < μ s) {s : σ} (hs : P s) :
    ∃ as t, (∀ a ∈ as, A a) ∧ m.run s as = some t ∧ ∀ a, A a → m.step t a = none := by
  generalize hn : μ s = n
  induction n using Nat.strong_induction_on generalizing s with
  | h n ih =>
      by_cases hstuck : ∀ a, A a → m.step s a = none
      · exact ⟨[], s, by simp, rfl, hstuck⟩
      · obtain ⟨a, ha⟩ := not_forall.mp hstuck
        obtain ⟨hA, hsome⟩ := Classical.not_imp.mp ha
        obtain ⟨u, hu⟩ := Option.ne_none_iff_exists'.mp hsome
        obtain ⟨hPu, hlt⟩ := hstep s a u hs hA hu
        obtain ⟨as, t, has, hrun, hstuck⟩ := ih (μ u) (hn ▸ hlt) hPu rfl
        refine ⟨a :: as, t, ?_, by rw [run_cons, hu, Option.bind_some, hrun], hstuck⟩
        simpa using ⟨hA, has⟩

end Measure

/-! ## Ruling steps out -/

/-- The machine that takes only the steps allowed by `C`, a condition on the
state before the step and the label. -/
def guard (C : σ → ι → Prop) [∀ s a, Decidable (C s a)] : Machine σ ι where
  init := m.init
  step s a := if C s a then m.step s a else none

variable {C : σ → ι → Prop} [∀ s a, Decidable (C s a)]

/-- A step of the guarded machine is an allowed step of the machine. -/
theorem guard_step_eq_some {s t : σ} {a : ι} :
    (m.guard C).step s a = some t ↔ C s a ∧ m.step s a = some t := by
  simp only [guard]
  split <;> simp_all

end Machine

end Profiling
