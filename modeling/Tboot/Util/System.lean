import Mathlib.Logic.Relation

/-!
This module contains the transition systems the threads and the command loop are instances of: a
partial step function on a state, the states a run reaches when every one of its steps meets a
guard, and the induction rule for the invariants of such runs.
-/

namespace System

variable {σ α : Type} {step : σ → α → Option σ}

/--
`Reaches step guard s t`: some run leads from `s` to `t`, and `guard` holds of every step of it, at
the state the step is taken in.
-/
inductive Reaches (step : σ → α → Option σ) (guard : σ → α → Prop) (s : σ) : σ → Prop where
  | refl : Reaches step guard s s
  | tail {t u : σ} {a : α} : Reaches step guard s t → guard t a → step t a = some u
      → Reaches step guard s u

def run (step : σ → α → Option σ) (s : σ) : List α → Option σ
  | [] => some s
  | a :: as => (step s a).bind fun t => run step t as

def guardedRun (step : σ → α → Option σ) (guard : σ → α → Prop) [∀ s a, Decidable (guard s a)] (s : σ)
    : List α → Option σ
  | [] => some s
  | a :: as => if guard s a then (step s a).bind fun t => guardedRun step guard t as else none

namespace Reaches

variable {guard guard' : σ → α → Prop} {s t u : σ}

theorem trans (h1 : Reaches step guard s t) (h2 : Reaches step guard t u)
    : Reaches step guard s u := by
  induction h2 with
  | refl => exact h1
  | tail _ hguard hstep ih => exact tail ih hguard hstep

theorem mono (hguard : ∀ s a, guard s a → guard' s a) (h : Reaches step guard s t)
    : Reaches step guard' s t := by
  induction h with
  | refl => exact refl
  | tail _ hg hstep ih => exact tail ih (hguard _ _ hg) hstep

theorem invariant {P : σ → Prop} (hinit : P s)
    (hkeep : ∀ t u a, P t → guard t a → step t a = some u → P u) (h : Reaches step guard s t)
    : P t := by
  induction h with
  | refl => exact hinit
  | tail _ hg hstep ih => exact hkeep _ _ _ ih hg hstep

theorem strengthen {P : σ → Prop} (hinit : P s)
    (hkeep : ∀ t u a, P t → guard t a → step t a = some u → P u)
    (hguard : ∀ t u a, P t → guard t a → step t a = some u → guard' t a)
    (h : Reaches step guard s t)
    : Reaches step guard' s t := by
  induction h with
  | refl => exact refl
  | tail hrun hg hstep ih =>
    have hp := invariant hinit hkeep hrun
    exact tail ih (hguard _ _ _ hp hg hstep) hstep

theorem of_run {as : List α} (hguard : ∀ a ∈ as, ∀ s, guard s a) (h : run step s as = some t)
    : Reaches step guard s t := by
  induction as generalizing s with
  | nil =>
    simp only [run, Option.some.injEq] at h
    rw [← h]
    exact refl
  | cons a as ih =>
    simp only [run, Option.bind_eq_some_iff] at h
    rcases h with ⟨m, hstep, hrest⟩
    have hfirst : Reaches step guard s m := tail refl (hguard a (by simp) s) hstep
    have htail : Reaches step guard m t := by
      apply ih
      . intro b hb
        apply hguard
        simp [hb]
      . exact hrest
    exact trans hfirst htail

theorem exists_of_run {P : σ → Prop} [DecidablePred P] {as : List α}
    (hguard : ∀ a ∈ as, ∀ s, guard s a) (h : (run step s as).any (P ·) = true)
    : ∃ t, Reaches step guard s t ∧ P t := by
  rw [Option.any_eq_true] at h
  obtain ⟨t, hrun, hP⟩ := h
  exact ⟨t, of_run hguard hrun, of_decide_eq_true hP⟩

theorem of_guardedRun [∀ s a, Decidable (guard s a)] {as : List α}
    (h : guardedRun step guard s as = some t)
    : Reaches step guard s t := by
  induction as generalizing s with
  | nil =>
    simp only [guardedRun, Option.some.injEq] at h
    rw [← h]
    exact refl
  | cons a as ih =>
    unfold guardedRun at h
    split at h
    . next hguard =>
      rw [Option.bind_eq_some_iff] at h
      rcases h with ⟨m, hstep, hrest⟩
      have hfirst : Reaches step guard s m := tail refl hguard hstep
      exact trans hfirst (ih hrest)
    . cases h

theorem exists_of_guardedRun {P : σ → Prop} [DecidablePred P] [∀ s a, Decidable (guard s a)]
    {as : List α} (h : (guardedRun step guard s as).any (P ·) = true)
    : ∃ t, Reaches step guard s t ∧ P t := by
  rw [Option.any_eq_true] at h
  obtain ⟨t, hrun, hP⟩ := h
  exact ⟨t, of_guardedRun hrun, of_decide_eq_true hP⟩

end Reaches

end System
