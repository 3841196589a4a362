import Mathlib.Data.Finmap

/-!
This module contains what the finite map of a list of pairs with distinct keys becomes when the list changes
in one place.
-/

namespace List

variable {α : Type} {β : α → Type} {a : α} {b b' : β a} {before behind l l' : List (Sigma β)}

theorem NodupKeys.not_mem_keys (h : (before ++ ⟨a, b⟩ :: behind).NodupKeys)
    : a ∉ before.keys ∧ a ∉ behind.keys := by
  have hperm : (before ++ (⟨a, b⟩ : Sigma β) :: behind).Perm (⟨a, b⟩ :: (before ++ behind)) := perm_middle
  have hnot := nodupKeys_cons.mp ((perm_nodupKeys hperm).mp h)
  rw [keys, map_append, mem_append, not_or] at hnot
  exact hnot.1

variable [DecidableEq α]

theorem toFinmap_replaced (h : (before ++ ⟨a, b⟩ :: behind).NodupKeys)
    : (before ++ ⟨a, b'⟩ :: behind).toFinmap = (before ++ ⟨a, b⟩ :: behind).toFinmap.insert a b' := by
  have hbefore := dlookup_eq_none.mpr h.not_mem_keys.1
  apply Finmap.ext_lookup
  intro x
  by_cases hx : x = a
  . subst hx
    rw [Finmap.lookup_insert, Finmap.dlookup_list_toFinmap, dlookup_append, hbefore, dlookup_cons_eq]
    rfl
  . rw [Finmap.lookup_insert_of_ne _ hx]
    simp only [Finmap.dlookup_list_toFinmap, dlookup_append]
    rw [dlookup_cons_ne _ ⟨a, b'⟩ hx, dlookup_cons_ne _ ⟨a, b⟩ hx]

theorem toFinmap_erased (h : (before ++ ⟨a, b⟩ :: behind).NodupKeys)
    : (before ++ behind).toFinmap = (before ++ ⟨a, b⟩ :: behind).toFinmap.erase a := by
  apply Finmap.ext_lookup
  intro x
  by_cases hx : x = a
  . subst hx
    rw [Finmap.lookup_erase, Finmap.dlookup_list_toFinmap, dlookup_append]
    rw [dlookup_eq_none.mpr h.not_mem_keys.1, dlookup_eq_none.mpr h.not_mem_keys.2]
    rfl
  . rw [Finmap.lookup_erase_ne hx]
    simp only [Finmap.dlookup_list_toFinmap, dlookup_append]
    rw [dlookup_cons_ne _ ⟨a, b⟩ hx]

theorem Perm.toFinmap_eq (h : l.Perm l') (hnodup : l.NodupKeys) : l.toFinmap = l'.toFinmap := by
  apply Finmap.ext_lookup
  intro x
  rw [Finmap.dlookup_list_toFinmap, Finmap.dlookup_list_toFinmap]
  exact perm_dlookup x hnodup h

theorem card_keys_toFinmap (h : l.NodupKeys) : l.toFinmap.keys.card = l.length := by
  induction l with
  | nil => rfl
  | cons s l ih =>
    obtain ⟨hnot, hrest⟩ := nodupKeys_cons.mp h
    have hkeys : (s :: l).toFinmap.keys = insert s.1 l.toFinmap.keys := by
      ext x
      rw [Finmap.mem_keys, Finset.mem_insert, Finmap.mem_keys, Finmap.toFinmap_cons, Finmap.mem_insert]
    have hfresh : s.1 ∉ l.toFinmap.keys := by
      rw [Finmap.mem_keys, ← Finmap.lookup_eq_none, Finmap.dlookup_list_toFinmap]
      exact dlookup_eq_none.mpr hnot
    rw [hkeys, Finset.card_insert_of_notMem hfresh, ih hrest, length_cons]

omit [DecidableEq α] in
theorem lookup_eq_some_iff_mem {γ : Type} [BEq α] [LawfulBEq α] {ps : List (α × γ)}
    (h : (ps.map Prod.fst).Nodup) {c : γ} : ps.lookup a = some c ↔ (a, c) ∈ ps := by
  induction ps with
  | nil => simp
  | cons p ps ih =>
    obtain ⟨hnot, hrest⟩ := nodup_cons.mp h
    rw [lookup_cons, mem_cons]
    by_cases ha : a = p.1
    . subst ha
      have hnew : (p.1, c) ∉ ps := fun hmem => hnot (mem_map.mpr ⟨_, hmem, rfl⟩)
      simp [hnew, Prod.ext_iff, eq_comm]
    . have hne : (a, c) ≠ p := fun heq => ha (congrArg Prod.fst heq)
      rw [beq_eq_false_iff_ne.mpr ha]
      simp [hne, ih hrest]

end List
