import Mathlib.Data.List.Basic

/-!
This module contains properties of histories. A history is the list of events up to now, the newest one
first; what must always have held is said of every event and the history it found.
-/

namespace History

variable {ε : Type}

/-- Every event of the history was right, given the history it found. -/
def Always (p : ε → List ε → Prop) : List ε → Prop
  | [] => True
  | e :: older => p e older ∧ Always p older

def decideAlways {p : ε → List ε → Prop} (dec : ∀ e older, Decidable (p e older))
    : (h : List ε) → Decidable (Always p h)
  | [] => .isTrue trivial
  | e :: older =>
    have := dec e older
    have := decideAlways dec older
    inferInstanceAs (Decidable (p e older ∧ Always p older))

instance {p : ε → List ε → Prop} [dec : ∀ e older, Decidable (p e older)] (h : List ε)
    : Decidable (Always p h) :=
  decideAlways dec h

variable {p : ε → List ε → Prop} {e : ε} {h older : List ε}

@[simp]
theorem always_cons : Always p (e :: older) ↔ p e older ∧ Always p older :=
  Iff.rfl

theorem Always.suffix (hp : Always p h) (hsuffix : older <:+ h) : Always p older := by
  obtain ⟨newer, rfl⟩ := hsuffix
  induction newer with
  | nil => exact hp
  | cons e newer ih => exact ih hp.2

end History
