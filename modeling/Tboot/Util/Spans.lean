import Mathlib.Data.List.Pairwise
import Mathlib.Data.List.TakeWhile

/-!
This module contains lists of things that have a place of their own on a line, in the order of their places, and
the search for the place of one more of them.
-/

namespace Spans

variable {α : Type} (start stop : α → Nat)

structure Ordered (l : List α) : Prop where
  proper : ∀ a ∈ l, start a < stop a
  pairwise : l.Pairwise fun a b => stop a ≤ start b

def Apart (a b : α) : Prop :=
  stop a ≤ start b ∨ stop b ≤ start a

variable {start stop}

theorem Ordered.nil : Ordered start stop [] :=
  ⟨by simp, List.Pairwise.nil⟩

theorem Ordered.append_iff {l₁ l₂ : List α} : Ordered start stop (l₁ ++ l₂)
    ↔ Ordered start stop l₁ ∧ Ordered start stop l₂ ∧ ∀ a ∈ l₁, ∀ b ∈ l₂, stop a ≤ start b := by
  constructor
  . intro h
    have hpair := List.pairwise_append.mp h.pairwise
    refine ⟨⟨?_, hpair.1⟩, ⟨?_, hpair.2.1⟩, hpair.2.2⟩
    . intro a ha
      exact h.proper a (List.mem_append_left l₂ ha)
    . intro a ha
      exact h.proper a (List.mem_append_right l₁ ha)
  . rintro ⟨h₁, h₂, h⟩
    refine ⟨?_, List.pairwise_append.mpr ⟨h₁.pairwise, h₂.pairwise, h⟩⟩
    intro a ha
    cases List.mem_append.mp ha with
    | inl ha => exact h₁.proper a ha
    | inr ha => exact h₂.proper a ha

theorem Ordered.cons_iff {a : α} {l : List α} : Ordered start stop (a :: l)
    ↔ start a < stop a ∧ Ordered start stop l ∧ ∀ b ∈ l, stop a ≤ start b := by
  constructor
  . intro h
    have hpair := List.pairwise_cons.mp h.pairwise
    exact ⟨h.proper a List.mem_cons_self, ⟨fun b hb => h.proper b (List.mem_cons_of_mem a hb), hpair.2⟩, hpair.1⟩
  . rintro ⟨ha, hl, h⟩
    refine ⟨?_, List.pairwise_cons.mpr ⟨h, hl.pairwise⟩⟩
    intro b hb
    cases List.mem_cons.mp hb with
    | inl heq => rwa [heq]
    | inr hb => exact hl.proper b hb

theorem Ordered.apart_of_mem {l : List α} (h : Ordered start stop l) {a b : α} (ha : a ∈ l) (hb : b ∈ l) (hne : a ≠ b)
    : Apart start stop a b := by
  induction l with
  | nil => cases ha
  | cons c l ih =>
    obtain ⟨_, hl, hbehind⟩ := Ordered.cons_iff.mp h
    cases List.mem_cons.mp ha with
    | inl hac =>
      cases List.mem_cons.mp hb with
      | inl hbc => exact absurd (hac.trans hbc.symm) hne
      | inr hb => exact .inl (hac ▸ hbehind b hb)
    | inr ha =>
      cases List.mem_cons.mp hb with
      | inl hbc => exact .inr (hbc ▸ hbehind a ha)
      | inr hb => exact ih hl ha hb

theorem Ordered.start_lt {l : List α} (h : Ordered start stop l) : l.Pairwise fun a b => start a < start b := by
  apply h.pairwise.imp_of_mem
  intro a b ha _ hab
  have := h.proper a ha
  omega

variable {l : List α} {new : α} (h : Ordered start stop l)
include h

/-- A search that begins at a thing before the new one finds the same place as one from the beginning. -/
theorem Ordered.length_takeWhile_drop {i : Nat} {a : α} (hi : l[i]? = some a) (ha : start a < start new)
    : i + 1 + ((l.drop (i + 1)).takeWhile fun b => start b < start new).length
        = (l.takeWhile fun b => start b < start new).length := by
  have hlt := h.start_lt
  clear h
  induction l generalizing i with
  | nil => simp at hi
  | cons b l ih =>
    obtain ⟨hb, hl⟩ := List.pairwise_cons.mp hlt
    cases i with
    | zero =>
      rw [List.getElem?_cons_zero] at hi
      injection hi with hi
      subst hi
      rw [List.takeWhile_cons, if_pos (decide_eq_true ha), List.length_cons]
      simp only [Nat.zero_add, List.drop_one, List.tail_cons]
      omega
    | succ i =>
      rw [List.getElem?_cons_succ] at hi
      have hba := hb a (List.mem_of_getElem? hi)
      have hbnew : start b < start new := by omega
      rw [List.takeWhile_cons, if_pos (decide_eq_true hbnew), List.length_cons, List.drop_succ_cons, ← ih hi hl]
      omega

variable (hapart : ∀ b ∈ l, Apart start stop new b)
include hapart

theorem Ordered.stop_le_of_mem_takeWhile (hnew : start new < stop new) {a : α} (ha : a ∈ l.takeWhile fun b => start b < start new)
    : stop a ≤ start new := by
  have hmem := (List.takeWhile_prefix _).subset ha
  have hlt : start a < start new := by simpa using List.mem_takeWhile_imp ha
  cases hapart a hmem with
  | inl hle => have := h.proper a hmem; omega
  | inr hle => exact hle

theorem Ordered.stop_le_of_mem_dropWhile {b : α} (hb : b ∈ l.dropWhile fun b => start b < start new)
    : stop new ≤ start b := by
  have hmem := (List.dropWhile_suffix _).subset hb
  -- The first of them does not start before the new one, and the others start behind it.
  have hge : start new ≤ start b := by
    have hlt := h.start_lt.sublist (List.dropWhile_suffix fun b => start b < start new).sublist
    cases hdrop : l.dropWhile fun b => start b < start new with
    | nil => simp [hdrop] at hb
    | cons c rest =>
      have hc : ¬ start c < start new := by
        have := List.head?_dropWhile_not (fun b => decide (start b < start new)) l
        rw [hdrop] at this
        simpa using this
      rw [hdrop] at hb hlt
      cases List.mem_cons.mp hb with
      | inl heq => subst heq; omega
      | inr hrest => have := (List.pairwise_cons.mp hlt).1 b hrest; omega
  cases hapart b hmem with
  | inl hle => exact hle
  | inr hle => have := h.proper b hmem; omega

theorem Ordered.insert (hnew : start new < stop new)
    : Ordered start stop ((l.takeWhile fun b => start b < start new) ++ new :: l.dropWhile fun b => start b < start new)
    := by
  have hsplit : (l.takeWhile fun b => start b < start new) ++ (l.dropWhile fun b => start b < start new) = l :=
    List.takeWhile_append_dropWhile
  have hparts := Ordered.append_iff.mp (hsplit.symm ▸ h)
  rw [Ordered.append_iff, Ordered.cons_iff]
  refine ⟨hparts.1, ⟨hnew, hparts.2.1, fun b hb => h.stop_le_of_mem_dropWhile hapart hb⟩, ?_⟩
  intro a ha b hb
  cases List.mem_cons.mp hb with
  | inl heq =>
    rw [heq]
    exact h.stop_le_of_mem_takeWhile hapart hnew ha
  | inr hb => exact hparts.2.2 a ha b hb

end Spans
