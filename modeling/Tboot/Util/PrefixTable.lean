import Mathlib.Data.List.Infix
import Mathlib.Data.List.Pairwise

/-!
This module contains tables whose entries are found by a prefix. A table is scanned from the entry that
was put into it last, and the first one that matches is taken; the longest match is stated over the
entries in the order in which they were put in.
-/

namespace PrefixTable

variable {α ε : Type} (key : ε → List α)

/-- The entry with the longest matching key, and the last one of those with this key -/
structure Longest (entries : List ε) (s : List α) (e : ε) (earlier later : List ε) : Prop where
  split : entries = earlier ++ e :: later
  isPrefix : key e <+: s
  earlier : ∀ e' ∈ earlier, key e' <+: s → (key e').length ≤ (key e).length
  later : ∀ e' ∈ later, key e' <+: s → (key e').length < (key e).length

/-- No key is put in after a longer one that extends it. -/
def Ordered (entries : List ε) : Prop :=
  entries.Pairwise fun earlier later => key later <+: key earlier → key later = key earlier

variable {key} {entries earlier later : List ε} {s : List α} {e x : ε}

namespace Longest

theorem length_le (h : Longest key entries s e earlier later) {e' : ε} (he' : e' ∈ entries) (hs : key e' <+: s)
    : (key e').length ≤ (key e).length := by
  rw [h.split] at he'
  cases List.mem_append.mp he' with
  | inl hearlier => exact h.earlier e' hearlier hs
  | inr hrest =>
    cases List.mem_cons.mp hrest with
    | inl heq => rw [heq]
    | inr hlater => exact Nat.le_of_lt (h.later e' hlater hs)

theorem mem (h : Longest key entries s e earlier later) : e ∈ entries := by
  rw [h.split]
  simp

theorem cons (h : Longest key entries s e earlier later) (hx : key x <+: s → (key x).length ≤ (key e).length)
    : Longest key (x :: entries) s e (x :: earlier) later := by
  refine ⟨by rw [h.split, List.cons_append], h.isPrefix, ?_, h.later⟩
  intro e' he'
  cases List.mem_cons.mp he' with
  | inl heq => exact heq ▸ hx
  | inr hearlier => exact h.earlier e' hearlier

theorem shorter_iff (h : Longest key entries s e earlier later) (n : Nat)
    : (∀ e' ∈ entries, key e' <+: s → (key e').length < n) ↔ (key e).length < n := by
  constructor
  . intro hall
    exact hall e h.mem h.isPrefix
  . intro hlt e' he' hs
    exact Nat.lt_of_le_of_lt (h.length_le he' hs) hlt

theorem exists_cons_iff
    : (∃ earlier later, Longest key (x :: entries) s e earlier later)
        ↔ (e = x ∧ key x <+: s ∧ ∀ e' ∈ entries, key e' <+: s → (key e').length < (key x).length)
          ∨ (key x <+: s → (key x).length ≤ (key e).length) ∧ ∃ earlier later, Longest key entries s e earlier later := by
  constructor
  . rintro ⟨earlier, later, h⟩
    have hsplit := h.split
    cases earlier with
    | nil =>
      obtain ⟨rfl, rfl⟩ := List.cons.inj hsplit
      exact Or.inl ⟨rfl, h.isPrefix, h.later⟩
    | cons y earlier =>
      obtain ⟨rfl, hrest⟩ := List.cons.inj hsplit
      have hearlier : ∀ e' ∈ earlier, key e' <+: s → (key e').length ≤ (key e).length :=
        fun e' he' => h.earlier e' (List.mem_cons_of_mem _ he')
      exact Or.inr ⟨h.earlier x List.mem_cons_self, earlier, later, hrest, h.isPrefix, hearlier, h.later⟩
  . rintro (⟨rfl, hpre, hlater⟩ | ⟨hx, earlier, later, h⟩)
    . exact ⟨[], entries, rfl, hpre, by simp, hlater⟩
    . exact ⟨x :: earlier, later, h.cons hx⟩

end Longest

variable [DecidableEq α]

instance (entries : List ε) : Decidable (Ordered key entries) :=
  inferInstanceAs (Decidable (entries.Pairwise fun earlier later => key later <+: key earlier → key later = key earlier))

section Scan

variable (key)

def scan (table : List ε) (s : List α) : Option ε :=
  table.find? fun e => (key e).isPrefixOf s

def longest (entries : List ε) (s : List α) : Option ε :=
  match entries with
  | [] => none
  | e :: later =>
    match longest later s with
    | none => if (key e).isPrefixOf s then some e else none
    | some best => if (key e).isPrefixOf s ∧ (key best).length < (key e).length then some e else some best

end Scan

theorem longest_eq_none_iff (entries : List ε) (s : List α)
    : longest key entries s = none ↔ ∀ e ∈ entries, ¬ key e <+: s := by
  induction entries with
  | nil => simp [longest]
  | cons x entries ih =>
    unfold longest
    simp only [List.mem_cons, forall_eq_or_imp]
    cases hbest : longest key entries s with
    | none =>
      rw [hbest] at ih
      have hnot := ih.mp rfl
      dsimp only
      split
      . next hx => simpa using fun h => absurd (List.isPrefixOf_iff_prefix.mp hx) h
      . next hx => simpa using ⟨fun h => hx (List.isPrefixOf_iff_prefix.mpr h), hnot⟩
    | some best =>
      rw [hbest] at ih
      have hnot : ¬ ∀ e ∈ entries, ¬ key e <+: s := fun h => nomatch ih.mpr h
      dsimp only
      split
      all_goals simp only [reduceCtorEq, hnot, and_false]

theorem longest_eq_some_iff (entries : List ε) (s : List α) (e : ε)
    : longest key entries s = some e ↔ ∃ earlier later, Longest key entries s e earlier later := by
  induction entries generalizing e with
  | nil =>
    simp only [longest, reduceCtorEq, false_iff]
    rintro ⟨earlier, later, h⟩
    exact absurd h.mem List.not_mem_nil
  | cons x entries ih =>
    rw [Longest.exists_cons_iff]
    unfold longest
    cases hbest : longest key entries s with
    | none =>
      have hnot := (longest_eq_none_iff entries s).mp hbest
      have hshorter : ∀ e' ∈ entries, key e' <+: s → (key e').length < (key x).length :=
        fun e' he' hs => absurd hs (hnot e' he')
      rw [← ih, hbest]
      dsimp only
      split
      . next hx => simpa [List.isPrefixOf_iff_prefix.mp hx, iff_true_intro hshorter] using eq_comm
      . next hx => simp [mt List.isPrefixOf_iff_prefix.mpr hx]
    | some best =>
      obtain ⟨earlier, later, hlongest⟩ := (ih best).mp hbest
      rw [hlongest.shorter_iff, ← ih, hbest]
      dsimp only
      split
      . next hx =>
        rw [List.isPrefixOf_iff_prefix] at hx
        constructor
        . intro h
          exact Or.inl ⟨(Option.some.inj h).symm, hx⟩
        . rintro (⟨rfl, -⟩ | ⟨hle, h⟩)
          . rfl
          . obtain rfl := Option.some.inj h
            exact absurd hx.2 (Nat.not_lt.mpr (hle hx.1))
      . next hx =>
        rw [List.isPrefixOf_iff_prefix] at hx
        constructor
        . intro h
          obtain rfl := Option.some.inj h
          exact Or.inr ⟨fun hpre => Nat.le_of_not_lt (fun hlt => hx ⟨hpre, hlt⟩), rfl⟩
        . rintro (⟨-, hlonger⟩ | ⟨-, h⟩)
          . exact absurd hlonger hx
          . exact h

/-- The first match in a table that is filled in this order is the longest one. -/
theorem scan_eq_some_iff (hordered : Ordered key entries) (s : List α) (e : ε)
    : scan key entries.reverse s = some e ↔ ∃ earlier later, Longest key entries s e earlier later := by
  unfold scan
  rw [List.find?_eq_some_iff_append]
  constructor
  . rintro ⟨hpre, as, bs, hsplit, hbefore⟩
    rw [List.isPrefixOf_iff_prefix] at hpre
    have hentries : entries = bs.reverse ++ e :: as.reverse := by
      rw [List.reverse_eq_iff.mp hsplit]
      simp
    unfold Ordered at hordered
    rw [hentries, List.pairwise_append] at hordered
    refine ⟨bs.reverse, as.reverse, hentries, hpre, ?_, ?_⟩
    . intro e' he' hs
      apply Nat.le_of_not_lt
      intro hlt
      have hextends := List.prefix_of_prefix_length_le hpre hs (Nat.le_of_lt hlt)
      have heq := hordered.2.2 e' he' e List.mem_cons_self hextends
      rw [heq] at hlt
      exact Nat.lt_irrefl _ hlt
    . intro e' he' hs
      have hnot := hbefore e' (List.mem_reverse.mp he')
      rw [List.isPrefixOf_iff_prefix.mpr hs] at hnot
      contradiction
  . rintro ⟨earlier, later, h⟩
    refine ⟨List.isPrefixOf_iff_prefix.mpr h.isPrefix, later.reverse, earlier.reverse, ?_, ?_⟩
    . rw [h.split]
      simp
    . intro e' he'
      rw [List.mem_reverse] at he'
      unfold Ordered at hordered
      rw [h.split, List.pairwise_append, List.pairwise_cons] at hordered
      rw [Bool.not_eq_true', ← Bool.not_eq_true, List.isPrefixOf_iff_prefix]
      intro hs
      have hlt := h.later e' he' hs
      have hextends := List.prefix_of_prefix_length_le hs h.isPrefix (Nat.le_of_lt hlt)
      have heq := hordered.2.1.1 e' he' hextends
      rw [heq] at hlt
      exact Nat.lt_irrefl _ hlt

theorem scan_congr {table : List ε} {s t : List α} (h : ∀ e ∈ table, key e <+: s ↔ key e <+: t)
    : scan key table s = scan key table t := by
  induction table with
  | nil => rfl
  | cons x table ih =>
    have hx : (key x).isPrefixOf s = (key x).isPrefixOf t := by
      rw [Bool.eq_iff_iff, List.isPrefixOf_iff_prefix, List.isPrefixOf_iff_prefix]
      exact h x List.mem_cons_self
    have hrest := ih (fun e he => h e (List.mem_cons_of_mem x he))
    unfold scan at hrest ⊢
    rw [List.find?_cons, List.find?_cons, hx, hrest]

theorem scan_eq_longest (hordered : Ordered key entries) (s : List α)
    : scan key entries.reverse s = longest key entries s := by
  apply Option.ext
  intro e
  rw [scan_eq_some_iff hordered, longest_eq_some_iff]

end PrefixTable
