import Mathlib.Data.List.Basic

/-!
This module contains procedures: computations on a state that either return or halt, and the rules to
reason about what holds when they do. A procedure that halts keeps the state it halts in.
-/

abbrev Proc (σ ε α : Type) := ExceptT ε (StateM σ) α

namespace Proc

variable {σ ε α β : Type}

def exec (x : Proc σ ε α) (s : σ) : Except ε α × σ :=
  x.run.run s

/--
`Q` holds of what `x` returns from `s` and of the state it returns in, or `E` holds of the state it
halts in.
-/
def wp (x : Proc σ ε α) (Q : α → σ → Prop) (E : σ → Prop) (s : σ) : Prop :=
  match x.exec s with
  | (.ok a, t) => Q a t
  | (.error _, t) => E t

section Rules

variable {Q : α → σ → Prop} {R : β → σ → Prop} {E : σ → Prop} {s : σ}

@[simp]
theorem wp_pure (a : α) : wp (pure a : Proc σ ε α) Q E s ↔ Q a s :=
  Iff.rfl

theorem exec_bind (x : Proc σ ε α) (f : α → Proc σ ε β) (s : σ)
    : (x >>= f).exec s
        = match x.exec s with
          | (.ok a, t) => (f a).exec t
          | (.error e, t) => (.error e, t) := by
  simp only [exec, ExceptT.run_bind, StateT.run_bind]
  rcases x.run.run s with ⟨a | a, t⟩
  all_goals rfl

theorem exec_map (f : α → β) (x : Proc σ ε α) (s : σ)
    : (f <$> x).exec s
        = match x.exec s with
          | (.ok a, t) => (.ok (f a), t)
          | (.error e, t) => (.error e, t) := by
  rw [← bind_pure_comp, exec_bind]
  rfl

@[simp]
theorem wp_bind (x : Proc σ ε α) (f : α → Proc σ ε β)
    : wp (x >>= f) R E s ↔ wp x (fun a t => wp (f a) R E t) E s := by
  unfold wp
  rw [exec_bind]
  rcases x.exec s with ⟨a | a, t⟩
  all_goals rfl

@[simp]
theorem wp_get {Q : σ → σ → Prop} : wp (get : Proc σ ε σ) Q E s ↔ Q s s :=
  Iff.rfl

@[simp]
theorem wp_modify {Q : Unit → σ → Prop} (f : σ → σ)
    : wp (modify f : Proc σ ε Unit) Q E s ↔ Q () (f s) :=
  Iff.rfl

@[simp]
theorem wp_set {Q : Unit → σ → Prop} (t : σ) : wp (set t : Proc σ ε PUnit) Q E s ↔ Q () t :=
  Iff.rfl

@[simp]
theorem wp_throw (e : ε) : wp (throw e : Proc σ ε α) Q E s ↔ E s :=
  Iff.rfl

theorem wp_true (x : Proc σ ε α) : wp x (fun _ _ => True) (fun _ => True) s := by
  unfold wp
  split
  all_goals trivial

theorem wp_const (x : Proc σ ε α) {P : σ → Prop} : wp x (fun _ => P) P s ↔ P (x.exec s).2 := by
  unfold wp
  rcases x.exec s with ⟨a | a, t⟩
  all_goals rfl

theorem wp_mono {x : Proc σ ε α} {Q' : α → σ → Prop} {E' : σ → Prop} (h : wp x Q E s)
    (hQ : ∀ a t, Q a t → Q' a t) (hE : ∀ t, E t → E' t) : wp x Q' E' s := by
  unfold wp at *
  rcases hx : x.exec s with ⟨a | a, t⟩
  . rw [hx] at h
    exact hE t h
  . rw [hx] at h
    exact hQ a t h

theorem wp_and {x : Proc σ ε α} {Q' : α → σ → Prop} {E' : σ → Prop} (h : wp x Q E s)
    (h' : wp x Q' E' s) : wp x (fun a t => Q a t ∧ Q' a t) (fun t => E t ∧ E' t) s := by
  unfold wp at *
  rcases hx : x.exec s with ⟨a | a, t⟩
  all_goals
    rw [hx] at h h'
    exact ⟨h, h'⟩

end Rules

def Keeps (I : σ → Prop) (x : Proc σ ε α) : Prop :=
  ∀ s, I s → wp x (fun _ => I) I s

namespace Keeps

variable {I : σ → Prop}

theorem pure (a : α) : Keeps I (Pure.pure a : Proc σ ε α) := by
  intro s hs
  exact hs

theorem bind {x : Proc σ ε α} {f : α → Proc σ ε β} (hx : Keeps I x) (hf : ∀ a, Keeps I (f a))
    : Keeps I (x >>= f) := by
  intro s hs
  rw [wp_bind]
  apply wp_mono (hx s hs)
  . intro a t ht
    exact hf a t ht
  . intro t ht
    exact ht

theorem get : Keeps I (MonadState.get : Proc σ ε σ) := by
  intro s hs
  exact hs

theorem throw (e : ε) : Keeps I (throwThe ε e : Proc σ ε α) := by
  intro s hs
  exact hs

theorem ite {c : Prop} [Decidable c] {x y : Proc σ ε α} (hx : c → Keeps I x) (hy : ¬c → Keeps I y)
    : Keeps I (if c then x else y) := by
  split
  . next hc => exact hx hc
  . next hc => exact hy hc

end Keeps

end Proc
