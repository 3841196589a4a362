import Mathlib.Data.Fin.Basic
import Mathlib.Data.List.Basic

/-!
This module contains a list of which one element is the selected one. The selection goes around at both
ends.
-/

structure Cursor (α : Type) where
  items : List α
  selected : Fin items.length

namespace Cursor

variable {α : Type}

def current (c : Cursor α) : α :=
  c.items.get c.selected

theorem items_eq (c : Cursor α)
    : c.items = c.items.take c.selected ++ c.current :: c.items.drop (c.selected + 1) := by
  have hdrop : c.items.drop c.selected = c.current :: c.items.drop (c.selected + 1) :=
    List.drop_eq_getElem_cons c.selected.isLt
  rw [← hdrop, List.take_append_drop]

theorem length_pos (c : Cursor α) : 0 < c.items.length :=
  Nat.zero_lt_of_lt c.selected.isLt

theorem toNat_emod_lt (c : Cursor α) (k : Int) : (k % c.items.length).toNat < c.items.length := by
  have hpos := c.length_pos
  have hlt := Int.emod_lt_of_pos k (Int.natCast_pos.mpr hpos)
  have hnonneg := Int.emod_nonneg k (Int.natCast_ne_zero.mpr (Nat.ne_of_gt hpos))
  omega

def select (c : Cursor α) (k : Int) : Cursor α where
  items := c.items
  selected := ⟨(k % c.items.length).toNat, c.toNat_emod_lt k⟩

def move (c : Cursor α) (by_ : Int) : Cursor α :=
  c.select (c.selected.val + by_)

def push (c : Cursor α) (a : α) : Cursor α where
  items := c.items ++ [a]
  selected := ⟨c.selected, by
    rw [List.length_append]
    exact Nat.lt_add_right _ c.selected.isLt⟩

theorem selected_select (c : Cursor α) (k : Int) : ((c.select k).selected.val : Int) = k % c.items.length := by
  have hnonneg := Int.emod_nonneg k (Int.natCast_ne_zero.mpr (Nat.ne_of_gt c.length_pos))
  exact Int.toNat_of_nonneg hnonneg

theorem ext_selected {c d : Cursor α} (hitems : c.items = d.items) (hselected : c.selected.val = d.selected.val)
    : c = d := by
  obtain ⟨items, selected⟩ := c
  obtain ⟨_, _⟩ := d
  dsimp only at hitems
  subst hitems
  congr 1
  exact Fin.ext hselected

theorem move_move_neg (c : Cursor α) (n : Int) : (c.move n).move (-n) = c := by
  have hback : (((c.move n).move (-n)).selected.val : Int) = c.selected.val := by
    have hmoved : ((c.move n).selected.val : Int) = (c.selected.val + n) % c.items.length := selected_select c _
    unfold move at hmoved ⊢
    rw [selected_select, hmoved]
    change ((c.selected.val + n) % c.items.length + -n) % c.items.length = c.selected.val
    rw [Int.emod_add_emod, Int.add_neg_cancel_right]
    exact Int.emod_eq_of_lt (Int.natCast_nonneg _) (Int.ofNat_lt.mpr c.selected.isLt)
  exact ext_selected rfl (by omega)

end Cursor
