import Mathlib.Data.List.Basic
import Mathlib.Data.List.GetD
import Mathlib.Data.List.Perm.Basic

/-!
This module contains tables of buckets: a list of chains, in which every element stands in the chain of its
slot. What is in the table is the concatenation of its chains.
-/

namespace Buckets

variable {α : Type} {slot : α → Nat} {bs : List (List α)}

def Placed (slot : α → Nat) (bs : List (List α)) : Prop :=
  ∀ i, ∀ a ∈ bs.getD i [], slot a = i

theorem mem_flatten {a : α} : a ∈ bs.flatten ↔ ∃ i, a ∈ bs.getD i [] := by
  constructor
  . intro h
    obtain ⟨b, hb, ha⟩ := List.mem_flatten.mp h
    obtain ⟨i, hi, rfl⟩ := List.getElem_of_mem hb
    exact ⟨i, by rwa [List.getD_eq_getElem _ _ hi]⟩
  . intro ⟨i, ha⟩
    cases Nat.lt_or_ge i bs.length with
    | inl hi =>
      rw [List.getD_eq_getElem _ _ hi] at ha
      exact List.mem_flatten.mpr ⟨bs[i], List.getElem_mem hi, ha⟩
    | inr hi =>
      rw [List.getD_eq_default _ _ hi] at ha
      exact absurd ha List.not_mem_nil

/-- One chain holds what is looked for, if any does. -/
theorem find?_flatten {p : α → Bool} {i : Nat} (h : ∀ j, j ≠ i → ∀ a ∈ bs.getD j [], p a = false)
    : bs.flatten.find? p = (bs.getD i []).find? p := by
  induction bs generalizing i with
  | nil => simp
  | cons b bs ih =>
    rw [List.flatten_cons, List.find?_append]
    cases i with
    | zero =>
      have hnone : bs.flatten.find? p = none := by
        apply List.find?_eq_none.mpr
        intro a ha
        obtain ⟨j, ha⟩ := mem_flatten.mp ha
        have hp := h (j + 1) (by omega) a ha
        simp [hp]
      rw [hnone, Option.or_none]
      rfl
    | succ i =>
      have hnone : b.find? p = none := by
        apply List.find?_eq_none.mpr
        intro a ha
        have hp := h 0 (by omega) a ha
        simp [hp]
      rw [hnone, Option.none_or]
      apply ih
      intro j hj a ha
      exact h (j + 1) (by omega) a ha

/-! ### One chain changed -/

theorem getD_set (i j : Nat) (b : List α) (hi : i < bs.length)
    : (bs.set i b).getD j [] = if j = i then b else bs.getD j [] := by
  rw [List.getD_eq_getElem?_getD, List.getElem?_set]
  split
  . next h => simp [← h]
  . next h =>
    rw [if_neg (fun hj => h hj.symm), List.getD_eq_getElem?_getD]

theorem Placed.set (h : Placed slot bs) {i : Nat} {b : List α} (hi : i < bs.length)
    (hb : ∀ a ∈ b, slot a = i) : Placed slot (bs.set i b) := by
  intro j a ha
  rw [getD_set i j b hi] at ha
  split at ha
  . next hj =>
    rw [hj]
    exact hb a ha
  . exact h j a ha

theorem exists_flatten_set {i : Nat} (hi : i < bs.length)
    : ∃ before behind, bs.flatten = before ++ bs.getD i [] ++ behind
        ∧ ∀ b, (bs.set i b).flatten = before ++ b ++ behind := by
  refine ⟨(bs.take i).flatten, (bs.drop (i + 1)).flatten, ?_, ?_⟩
  . conv_lhs => rw [← List.take_append_drop i bs, List.drop_eq_getElem_cons hi]
    rw [List.getD_eq_getElem _ _ hi, List.flatten_append, List.flatten_cons, List.append_assoc]
  . intro b
    rw [List.set_eq_take_append_cons_drop, if_pos hi, List.flatten_append, List.flatten_cons, List.append_assoc]

/--
The walk along a chain to the first element that satisfies `p`, which `found` takes the place of; `missing` is
put behind the last element if there is none.
-/
def walk (p : α → Bool) (found : α → List α) (missing : List α) : List α → List α
  | [] => missing
  | a :: rest => if p a then found a ++ rest else a :: walk p found missing rest

section Walk

variable {p : α → Bool} {found : α → List α} {missing : List α}

theorem walk_of_find?_none {chain : List α} (h : chain.find? p = none)
    : walk p found missing chain = chain ++ missing := by
  induction chain with
  | nil => rfl
  | cons a chain ih =>
    rw [List.find?_cons] at h
    split at h
    . cases h
    . next hp => simp [walk, hp, ih h]

theorem walk_of_find?_some {chain : List α} {a : α} (h : chain.find? p = some a)
    : ∃ before behind, chain = before ++ a :: behind
        ∧ walk p found missing chain = before ++ found a ++ behind := by
  induction chain with
  | nil => cases h
  | cons x chain ih =>
    rw [List.find?_cons] at h
    split at h
    . next hp =>
      cases h
      exact ⟨[], chain, rfl, by simp [walk, hp]⟩
    . next hp =>
      obtain ⟨before, behind, hchain, hwalk⟩ := ih h
      exact ⟨x :: before, behind, by simp [hchain], by simp [walk, hp, hwalk]⟩

theorem mem_walk {chain : List α} {b : α} (h : b ∈ walk p found missing chain)
    : b ∈ chain ∨ b ∈ missing ∨ ∃ a ∈ chain, p a = true ∧ b ∈ found a := by
  induction chain with
  | nil => exact Or.inr (Or.inl h)
  | cons a chain ih =>
    unfold walk at h
    split at h
    . next hp =>
      cases List.mem_append.mp h with
      | inl hb => exact Or.inr (Or.inr ⟨a, List.mem_cons_self, hp, hb⟩)
      | inr hb => exact Or.inl (List.mem_cons_of_mem a hb)
    . cases List.mem_cons.mp h with
      | inl hb => exact Or.inl (hb ▸ List.mem_cons_self)
      | inr hb =>
        cases ih hb with
        | inl hb => exact Or.inl (List.mem_cons_of_mem a hb)
        | inr hb =>
          cases hb with
          | inl hb => exact Or.inr (Or.inl hb)
          | inr hb =>
            obtain ⟨c, hc, hfound⟩ := hb
            exact Or.inr (Or.inr ⟨c, List.mem_cons_of_mem a hc, hfound⟩)

theorem Placed.walk (h : Placed slot bs) {i : Nat} (hi : i < bs.length) (hmissing : ∀ a ∈ missing, slot a = i)
    (hfound : ∀ a, slot a = i → ∀ b ∈ found a, slot b = i)
    : Placed slot (bs.set i (walk p found missing (bs.getD i []))) := by
  apply h.set hi
  intro b hb
  cases mem_walk hb with
  | inl hb => exact h i b hb
  | inr hb =>
    cases hb with
    | inl hb => exact hmissing b hb
    | inr hb =>
      obtain ⟨a, ha, -, hb⟩ := hb
      exact hfound a (h i a ha) b hb

theorem mem_flatten_walk {i : Nat} (hi : i < bs.length) {b : α}
    (h : b ∈ (bs.set i (walk p found missing (bs.getD i []))).flatten)
    : b ∈ bs.flatten ∨ b ∈ missing ∨ ∃ a ∈ bs.flatten, b ∈ found a := by
  obtain ⟨j, hb⟩ := mem_flatten.mp h
  rw [getD_set i j _ hi] at hb
  split at hb
  . cases mem_walk hb with
    | inl hb => exact Or.inl (mem_flatten.mpr ⟨i, hb⟩)
    | inr hb =>
      cases hb with
      | inl hb => exact Or.inr (Or.inl hb)
      | inr hb =>
        obtain ⟨a, ha, hb⟩ := hb
        exact Or.inr (Or.inr ⟨a, mem_flatten.mpr ⟨i, ha⟩, hb.2⟩)
  . exact Or.inl (mem_flatten.mpr ⟨j, hb⟩)

theorem flatten_walk_none {i : Nat} (hi : i < bs.length) (h : (bs.getD i []).find? p = none)
    : (bs.set i (walk p found missing (bs.getD i []))).flatten.Perm (missing ++ bs.flatten) := by
  obtain ⟨before, behind, hflatten, hset⟩ := exists_flatten_set hi
  rw [hset, hflatten, walk_of_find?_none h, ← List.append_assoc before, List.append_assoc (before ++ _)]
  exact List.perm_append_comm_assoc _ _ _

theorem flatten_walk_some {i : Nat} {a : α} (hi : i < bs.length) (h : (bs.getD i []).find? p = some a)
    : ∃ before behind, bs.flatten = before ++ a :: behind
        ∧ (bs.set i (walk p found missing (bs.getD i []))).flatten = before ++ found a ++ behind := by
  obtain ⟨before, behind, hflatten, hset⟩ := exists_flatten_set hi
  obtain ⟨first, last, hchain, hwalk⟩ := @walk_of_find?_some _ _ found missing _ _ h
  refine ⟨before ++ first, last ++ behind, ?_, ?_⟩
  . rw [hflatten, hchain]
    simp
  . rw [hset, hwalk]
    simp

end Walk

/-! ### Another number of buckets -/

def push (slot : α → Nat) (bs : List (List α)) (a : α) : List (List α) :=
  bs.set (slot a) (a :: bs.getD (slot a) [])

theorem length_foldl_push (as : List α) : (as.foldl (push slot) bs).length = bs.length := by
  induction as generalizing bs with
  | nil => rfl
  | cons a as ih =>
    rw [List.foldl_cons, ih]
    simp [push]

theorem Placed.foldl_push (h : Placed slot bs) {as : List α} (hslot : ∀ a ∈ as, slot a < bs.length)
    : Placed slot (as.foldl (push slot) bs) := by
  induction as generalizing bs with
  | nil => exact h
  | cons a as ih =>
    have ha := hslot a List.mem_cons_self
    rw [List.foldl_cons]
    apply ih
    . apply h.set ha
      intro b hb
      cases List.mem_cons.mp hb with
      | inl hb => rw [hb]
      | inr hb => exact h _ b hb
    . intro b hb
      simpa [push] using hslot b (List.mem_cons_of_mem a hb)

theorem flatten_push {a : α} (ha : slot a < bs.length) : (push slot bs a).flatten.Perm (a :: bs.flatten) := by
  obtain ⟨before, behind, hflatten, hset⟩ := exists_flatten_set ha
  unfold push
  rw [hset, hflatten, List.append_assoc, List.append_assoc]
  exact List.perm_middle

theorem flatten_foldl_push {as : List α} (hslot : ∀ a ∈ as, slot a < bs.length)
    : (as.foldl (push slot) bs).flatten.Perm (as ++ bs.flatten) := by
  induction as generalizing bs with
  | nil => rfl
  | cons a as ih =>
    rw [List.foldl_cons]
    have hrest : ∀ b ∈ as, slot b < (push slot bs a).length := by
      intro b hb
      simpa [push] using hslot b (List.mem_cons_of_mem a hb)
    refine (ih hrest).trans ?_
    refine ((flatten_push (hslot a List.mem_cons_self)).append_left as).trans ?_
    exact List.perm_middle

theorem placed_replicate (n : Nat) : Placed slot (List.replicate n []) := by
  intro i a ha
  have hnil : (List.replicate n ([] : List α)).getD i [] = [] := by
    rw [List.getD_eq_getElem?_getD, List.getElem?_replicate]
    split
    all_goals rfl
  rw [hnil] at ha
  exact absurd ha List.not_mem_nil

end Buckets
