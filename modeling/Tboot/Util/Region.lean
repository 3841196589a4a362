import Mathlib.Order.CompletePartialOrder
import Mathlib.Order.Interval.Set.Disjoint
import Mathlib.Data.List.Pairwise

/-!
This module contains half-open regions of an order and the rule for regions that are laid out one after
the other: they are disjoint, and they end where the last of them ends.
-/

structure Region (α : Type) where
  start : α
  stop : α
  deriving DecidableEq, Repr

namespace Region

variable {α : Type} [LinearOrder α]

def points (r : Region α) : Set α :=
  Set.Ico r.start r.stop

def Apart (r s : Region α) : Prop :=
  Disjoint r.points s.points

theorem apart_of_le {r s : Region α} (h : r.stop ≤ s.start) : Apart s r := by
  unfold Apart points
  rw [Set.Ico_disjoint_Ico]
  exact le_trans (min_le_right _ _) (le_trans h (le_max_left _ _))

/--
The regions of the list lie one below the other, the highest one first, between `lo` and `hi`. What
lays out regions with a cursor that only goes up and puts each at the front of a list builds such a
list.
-/
def Packed (lo hi : α) : List (Region α) → Prop
  | [] => lo ≤ hi
  | r :: rs => r.start ≤ r.stop ∧ r.stop ≤ hi ∧ Packed lo r.start rs

theorem Packed.mono {lo hi hi' : α} {rs : List (Region α)} (h : Packed lo hi rs) (hle : hi ≤ hi')
    : Packed lo hi' rs := by
  cases rs with
  | nil => exact le_trans h hle
  | cons r rs =>
    obtain ⟨horder, hstop, hrest⟩ := h
    exact ⟨horder, le_trans hstop hle, hrest⟩

theorem Packed.stop_le {lo hi : α} {rs : List (Region α)} (h : Packed lo hi rs)
    : ∀ r ∈ rs, r.stop ≤ hi := by
  induction rs generalizing hi with
  | nil => simp
  | cons r rs ih =>
    obtain ⟨horder, hstop, hrest⟩ := h
    intro s hs
    cases List.mem_cons.mp hs with
    | inl heq => exact heq ▸ hstop
    | inr hmem => exact le_trans (ih hrest s hmem) (le_trans horder hstop)

theorem Packed.pairwise_apart {lo hi : α} {rs : List (Region α)} (h : Packed lo hi rs)
    : rs.Pairwise Apart := by
  induction rs generalizing hi with
  | nil => exact List.Pairwise.nil
  | cons r rs ih =>
    obtain ⟨_, _, hrest⟩ := h
    apply List.Pairwise.cons
    . intro s hs
      exact apart_of_le (hrest.stop_le s hs)
    . exact ih hrest

end Region
