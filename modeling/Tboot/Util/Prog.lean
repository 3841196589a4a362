import Tboot.Util.Proc

/-!
This module contains programs over an interface: what a function does that can touch the rest of the
system through the operations of the interface only. A program is run by giving each operation a
procedure.
-/

inductive Prog (ω : Type) (ρ : ω → Type) (α : Type) : Type where
  | pure (a : α)
  | call (op : ω) (next : ρ op → Prog ω ρ α)

namespace Prog

variable {ω : Type} {ρ : ω → Type} {σ ε α β : Type}

protected def bind (p : Prog ω ρ α) (f : α → Prog ω ρ β) : Prog ω ρ β :=
  match p with
  | .pure a => f a
  | .call op next => .call op fun r => (next r).bind f

instance : Monad (Prog ω ρ) where
  pure := .pure
  bind := .bind

def perform (op : ω) : Prog ω ρ (ρ op) :=
  .call op .pure

def Only (S : ω → Prop) : Prog ω ρ α → Prop
  | .pure _ => True
  | .call op next => S op ∧ ∀ r, (next r).Only S

theorem only_true (p : Prog ω ρ α) : p.Only fun _ => True := by
  induction p with
  | pure a => trivial
  | call op next ih => exact ⟨trivial, ih⟩

namespace Only

variable {S T : ω → Prop}

@[simp]
theorem pure (a : α) : (Pure.pure a : Prog ω ρ α).Only S :=
  trivial

@[simp]
theorem perform_iff {op : ω} : (perform op : Prog ω ρ (ρ op)).Only S ↔ S op :=
  and_iff_left (fun _ => trivial)

@[simp]
theorem perform_bind_iff {op : ω} {f : ρ op → Prog ω ρ β}
    : (perform op >>= f).Only S ↔ S op ∧ ∀ r, (f r).Only S :=
  Iff.rfl

@[simp]
theorem ite_iff {c : Prop} [Decidable c] {p q : Prog ω ρ α}
    : (if c then p else q).Only S ↔ (c → p.Only S) ∧ (¬c → q.Only S) := by
  split
  all_goals simp_all

theorem bind {p : Prog ω ρ α} {f : α → Prog ω ρ β} (hp : p.Only S) (hf : ∀ a, (f a).Only S)
    : (p >>= f).Only S := by
  change (p.bind f).Only S
  induction p with
  | pure a => exact hf a
  | call op next ih => exact ⟨hp.1, fun r => ih r (hp.2 r)⟩

theorem mono {p : Prog ω ρ α} (hST : ∀ op, S op → T op) (hp : p.Only S) : p.Only T := by
  induction p with
  | pure a => trivial
  | call op next ih => exact ⟨hST op hp.1, fun r => ih r (hp.2 r)⟩

theorem forM {γ : Type} {xs : List γ} {f : γ → Prog ω ρ PUnit} (h : ∀ x, (f x).Only S)
    : (xs.forM f).Only S := by
  induction xs with
  | nil => trivial
  | cons x xs ih => exact bind (h x) (fun _ => ih)

end Only

def interp (run : (op : ω) → Proc σ ε (ρ op)) : Prog ω ρ α → Proc σ ε α
  | .pure a => Pure.pure a
  | .call op next => run op >>= fun r => (next r).interp run

section Interp

variable {run : (op : ω) → Proc σ ε (ρ op)} {Q : α → σ → Prop} {R : β → σ → Prop} {E : σ → Prop}
  {s : σ}

@[simp]
theorem wp_interp_pure (a : α)
    : Proc.wp ((Pure.pure a : Prog ω ρ α).interp run) Q E s ↔ Q a s :=
  Iff.rfl

@[simp]
theorem wp_interp_perform (op : ω) {Q : ρ op → σ → Prop}
    : Proc.wp ((perform op : Prog ω ρ (ρ op)).interp run) Q E s ↔ Proc.wp (run op) Q E s := by
  unfold perform interp
  rw [Proc.wp_bind]
  rfl

@[simp]
theorem wp_interp_bind (p : Prog ω ρ α) (f : α → Prog ω ρ β)
    : Proc.wp ((p >>= f).interp run) R E s
        ↔
      Proc.wp (p.interp run) (fun a t => Proc.wp ((f a).interp run) R E t) E s := by
  change Proc.wp ((p.bind f).interp run) R E s ↔ _
  induction p generalizing s with
  | pure a => rfl
  | call op next ih =>
    simp only [Prog.bind, interp, Proc.wp_bind]
    unfold Proc.wp
    split
    . next a t _ => exact ih a
    . rfl

theorem interp_keeps {I : σ → Prop} {S : ω → Prop} (hrun : ∀ op, S op → Proc.Keeps I (run op))
    {p : Prog ω ρ α} (hp : p.Only S) : Proc.Keeps I (p.interp run) := by
  induction p with
  | pure a => exact Proc.Keeps.pure a
  | call op next ih =>
    apply Proc.Keeps.bind
    . exact hrun op hp.1
    . intro r
      exact ih r (hp.2 r)

end Interp

/-! ### What a program asks and is answered -/

/-- `p` comes to its end with `a` when its operations are answered as in `path`. -/
inductive Ends : Prog ω ρ α → List (Sigma ρ) → α → Prop where
  | pure (a : α) : Ends (.pure a) [] a
  | call {op : ω} {next : ρ op → Prog ω ρ α} {r : ρ op} {path : List (Sigma ρ)} {a : α}
      (h : Ends (next r) path a) : Ends (.call op next) (⟨op, r⟩ :: path) a

theorem ends_perform_bind {op : ω} {f : ρ op → Prog ω ρ β} {path : List (Sigma ρ)} {b : β}
    : (perform op >>= f).Ends path b ↔ ∃ r rest, path = ⟨op, r⟩ :: rest ∧ (f r).Ends rest b := by
  constructor
  . intro h
    cases h with
    | call h => exact ⟨_, _, rfl, h⟩
  . rintro ⟨r, rest, rfl, h⟩
    exact .call h

/-- However it is answered, `p` comes to its end with `Q`, where `note` keeps the account of the answers. -/
def post (note : σ → Sigma ρ → σ) (Q : α → σ → Prop) : Prog ω ρ α → σ → Prop
  | .pure a, s => Q a s
  | .call op next, s => ∀ r, (next r).post note Q (note s ⟨op, r⟩)

section Post

variable {note : σ → Sigma ρ → σ} {Q Q' : α → σ → Prop} {R : β → σ → Prop} {s : σ}

@[simp]
theorem post_pure (a : α) : (Pure.pure a : Prog ω ρ α).post note Q s ↔ Q a s :=
  Iff.rfl

@[simp]
theorem post_perform (op : ω) {Q : ρ op → σ → Prop}
    : (perform op : Prog ω ρ (ρ op)).post note Q s ↔ ∀ r, Q r (note s ⟨op, r⟩) :=
  Iff.rfl

@[simp]
theorem post_bind (p : Prog ω ρ α) (f : α → Prog ω ρ β)
    : (p >>= f).post note R s ↔ p.post note (fun a t => (f a).post note R t) s := by
  change (p.bind f).post note R s ↔ _
  induction p generalizing s with
  | pure a => rfl
  | call op next ih => exact forall_congr' fun r => ih r

theorem post_mono {p : Prog ω ρ α} (h : p.post note Q s) (hQ : ∀ a t, Q a t → Q' a t) : p.post note Q' s := by
  induction p generalizing s with
  | pure a => exact hQ a s h
  | call op next ih => exact fun r => ih r (h r)

theorem post_of_only {S : ω → Prop} (hnote : ∀ s op r, S op → note s ⟨op, r⟩ = s) {p : Prog ω ρ α}
    (hp : p.Only S) : p.post note (fun _ t => t = s) s := by
  induction p with
  | pure a => rfl
  | call op next ih =>
    intro r
    rw [hnote s op r hp.1]
    exact ih r (hp.2 r)

theorem post_of_ends {p : Prog ω ρ α} {path : List (Sigma ρ)} {a : α} (hends : p.Ends path a)
    (h : p.post note Q s) : Q a (path.foldl note s) := by
  induction hends generalizing s with
  | pure a => exact h
  | call _ ih => exact ih (h _)

end Post

inductive Answers (run : (op : ω) → Proc σ ε (ρ op)) : List (Sigma ρ) → σ → σ → Prop where
  | nil (s : σ) : Answers run [] s s
  | cons {op : ω} {r : ρ op} {path : List (Sigma ρ)} {s t u : σ} (hop : (run op).exec s = (.ok r, t))
      (h : Answers run path t u) : Answers run (⟨op, r⟩ :: path) s u

theorem interp_ends {run : (op : ω) → Proc σ ε (ρ op)} (p : Prog ω ρ α) (s : σ)
    : Proc.wp (p.interp run) (fun a t => ∃ path, p.Ends path a ∧ Answers run path s t) (fun _ => True) s := by
  induction p generalizing s with
  | pure a => exact ⟨[], .pure a, .nil s⟩
  | call op next ih =>
    simp only [interp, Proc.wp_bind]
    unfold Proc.wp
    split
    . next r t hop =>
      apply Proc.wp_mono (ih r t) _ (fun _ => id)
      rintro a u ⟨path, hends, hanswers⟩
      exact ⟨⟨op, r⟩ :: path, .call hends, .cons hop hanswers⟩
    . trivial

end Prog
