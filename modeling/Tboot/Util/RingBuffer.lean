import Mathlib.Data.List.DropRight
import Mathlib.Data.List.Rotate

/-!
This module contains rings of a fixed size. `next` is the slot that is written next, and so the oldest
one.
-/

structure RingBuffer (α : Type) where
  slots : List α
  next : Fin slots.length

namespace RingBuffer

variable {α : Type}

def view (r : RingBuffer α) : List α :=
  r.slots.rotate r.next

theorem length_pos (r : RingBuffer α) : 0 < r.slots.length :=
  Nat.zero_lt_of_lt r.next.isLt

theorem view_length (r : RingBuffer α) : r.view.length = r.slots.length :=
  List.length_rotate ..

def push (r : RingBuffer α) (a : α) : RingBuffer α where
  slots := r.slots.set r.next a
  next := ⟨(r.next + 1) % r.slots.length, by
    rw [List.length_set]
    exact Nat.mod_lt _ r.length_pos⟩

theorem view_push (r : RingBuffer α) (a : α) : (r.push a).view = r.view.tail ++ [a] := by
  have hlt := r.next.isLt
  have hview : r.view.tail = r.slots.drop (r.next + 1) ++ r.slots.take r.next := by
    unfold view
    rw [List.rotate_eq_drop_append_take (Nat.le_of_lt hlt), List.drop_eq_getElem_cons hlt]
    rfl
  have htake : (r.slots.set r.next a).take (r.next + 1) = r.slots.take r.next ++ [a] := by
    rw [List.take_add_one, List.take_set_of_le (Nat.le_refl _)]
    simp
  have hdrop : (r.slots.set r.next a).drop (r.next + 1) = r.slots.drop (r.next + 1) := by
    exact List.drop_set_of_lt (Nat.lt_succ_self _)
  have hset : (r.slots.set r.next a).length = r.slots.length := List.length_set
  rw [hview]
  unfold view push
  dsimp only
  cases Nat.lt_or_ge (r.next + 1) r.slots.length with
  | inl hnext =>
    rw [Nat.mod_eq_of_lt hnext, List.rotate_eq_drop_append_take (by omega), hdrop, htake, List.append_assoc]
  | inr hlast =>
    have hlen : r.next.val + 1 = r.slots.length := by omega
    have hmod : (r.next.val + 1) % r.slots.length = 0 := by rw [hlen, Nat.mod_self]
    have hall : (r.slots.set r.next a).take (r.next + 1) = r.slots.set r.next a :=
      List.take_of_length_le (by omega)
    rw [hmod, List.rotate_zero, ← hall, htake, List.drop_eq_nil_of_le (by omega), List.nil_append]

theorem view_foldl_push (r : RingBuffer α) (as : List α) : (as.foldl push r).view = (r.view ++ as).drop as.length := by
  induction as generalizing r with
  | nil => simp
  | cons a as ih =>
    have hview : r.view ++ a :: as = (r.view ++ [a]) ++ as := by simp
    rw [List.foldl_cons, ih, view_push, hview, List.length_cons, Nat.add_comm, ← List.drop_drop, List.drop_one]
    cases h : r.view with
    | nil =>
      have hlen := r.view_length
      have hpos := r.length_pos
      rw [h] at hlen
      simp at hlen
      omega
    | cons b rest => rfl

theorem getElem?_slots (r : RingBuffer α) {k : Nat} (hk : k < r.slots.length)
    : r.slots[(r.next + k) % r.slots.length]? = r.view[k]? := by
  unfold view
  rw [List.getElem?_rotate hk, Nat.add_comm]

end RingBuffer

/-! ### The latest elements of a list -/

section Latest

variable {α : Type}

theorem rtake_of_length_le {xs : List α} {n : Nat} (h : xs.length ≤ n) : xs.rtake n = xs := by
  unfold List.rtake
  rw [Nat.sub_eq_zero_of_le h, List.drop_zero]

theorem rtake_append_of_le {xs ys : List α} {n : Nat} (h : ys.length ≤ n)
    : (xs ++ ys).rtake n = xs.rtake (n - ys.length) ++ ys := by
  have hfirst : xs.length + ys.length - n = xs.length - (n - ys.length) := by omega
  unfold List.rtake
  rw [List.length_append, List.drop_append, hfirst, Nat.sub_eq_zero_of_le (Nat.sub_le _ _), List.drop_zero]

theorem rtake_eq_nil_iff {xs : List α} {n : Nat} : xs.rtake n = [] ↔ n = 0 ∨ xs = [] := by
  unfold List.rtake
  rw [List.drop_eq_nil_iff, ← List.length_eq_zero_iff]
  omega

theorem map_rtake {β : Type} (f : α → β) (xs : List α) (n : Nat) : (xs.rtake n).map f = (xs.map f).rtake n := by
  unfold List.rtake
  rw [List.map_drop, List.length_map]

theorem map_rdrop {β : Type} (f : α → β) (xs : List α) (n : Nat) : (xs.rdrop n).map f = (xs.map f).rdrop n := by
  unfold List.rdrop
  rw [List.map_take, List.length_map]

theorem rdrop_append_rtake (xs : List α) (n : Nat) : xs.rdrop n ++ xs.rtake n = xs :=
  List.take_append_drop ..

theorem rtake_length (xs : List α) (n : Nat) : (xs.rtake n).length = min n xs.length := by
  unfold List.rtake
  rw [List.length_drop]
  omega

/-- The chosen ones of the latest elements are the latest chosen ones, unless one is missing for another. -/
theorem filter_rtake_eq_iff (p : α → Bool) (xs : List α) (n : Nat)
    : (xs.rtake n).filter p = (xs.filter p).rtake n
        ↔ ((∃ x ∈ xs.rtake n, p x = false) → ∀ x ∈ xs.rdrop n, p x = false) := by
  have hle : ((xs.rtake n).filter p).length ≤ (xs.rtake n).length := List.length_filter_le ..
  have hlen := rtake_length xs n
  have hsplit : (xs.filter p).rtake n
      = ((xs.rdrop n).filter p).rtake (n - ((xs.rtake n).filter p).length) ++ (xs.rtake n).filter p := by
    rw [← rtake_append_of_le (by omega), ← List.filter_append, rdrop_append_rtake]
  have hall : ((xs.rtake n).filter p).length = (xs.rtake n).length ↔ ∀ x ∈ xs.rtake n, p x = true :=
    List.length_filter_eq_length_iff
  rw [hsplit, List.self_eq_append_left, rtake_eq_nil_iff, List.filter_eq_nil_iff]
  constructor
  . rintro h ⟨x, hx, hpx⟩ y hy
    cases h with
    | inl hzero =>
      have hfull := hall.mp (by omega) x hx
      rw [hpx] at hfull
      contradiction
    | inr hnone => simpa using hnone y hy
  . intro h
    by_cases hex : ∃ x ∈ xs.rtake n, p x = false
    . right
      intro y hy
      simp [h hex y hy]
    . have hfull := hall.mpr (by simpa using hex)
      cases Nat.lt_or_ge n xs.length with
      | inl hlt =>
        left
        omega
      | inr hge =>
        right
        intro y hy
        unfold List.rdrop at hy
        rw [Nat.sub_eq_zero_of_le hge] at hy
        simp at hy

end Latest
