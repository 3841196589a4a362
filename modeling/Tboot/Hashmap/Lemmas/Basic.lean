import Tboot.Hashmap.Impl
import Tboot.Util.Finmap

/-!
This module contains the finite map that a hash map stands for, and the invariant that all its functions keep:
they answer as the finite map does, and change it as their names say, but for an entry that gets no memory.
-/

namespace Hashmap

variable {κ χ ν σ : Type} {keys : Keys κ χ}

theorem calculateIndex_lt {n : Nat} (h : 0 < n) (hash : UInt32) : calculateIndex n hash < n := by
  have hle : calculateIndex n hash ≤ n - 1 := Nat.and_le_right
  omega

theorem hashKey_eq {a b : κ} (h : keys.content a = keys.content b) : hashKey keys a = hashKey keys b := by
  unfold hashKey
  rw [keys.hash_eq a b h]

/--
The buckets are a power of two in number, an entry is in the bucket of its hash, no two entries have the same
key, and `size` counts them.
-/
structure WF (map : Hashmap keys ν) : Prop where
  bucketCount : ∃ k, k < 30 ∧ map.bucketCount = 2 ^ k
  hashed : ∀ e ∈ map.entries, e.hash = hashKey keys e.key
  placed : Buckets.Placed (Entry.slot map.bucketCount) map.buckets
  distinct : (map.entries.map fun e => keys.content e.key).Nodup
  size : map.size = map.entries.length

def pairs (keys : Keys κ χ) (es : List (Entry κ ν)) : List (Σ _ : χ, Option ν) :=
  es.map fun e => ⟨keys.content e.key, e.value⟩

def toFinmap [DecidableEq χ] (map : Hashmap keys ν) : Finmap fun _ : χ => Option ν :=
  (pairs keys map.entries).toFinmap

section WF

variable {map : Hashmap keys ν} (h : map.WF)
include h

theorem WF.bucketCount_pos : 0 < map.bucketCount := by
  obtain ⟨k, -, hk⟩ := h.bucketCount
  rw [hk]
  exact Nat.two_pow_pos k

theorem WF.indexOf_lt (key : κ) : map.indexOf key < map.buckets.length :=
  calculateIndex_lt h.bucketCount_pos _

theorem WF.nodupKeys : (pairs keys map.entries).NodupKeys := by
  unfold List.NodupKeys List.keys pairs
  rw [List.map_map]
  exact h.distinct

theorem WF.size_eq [DecidableEq χ] : hashmapSize map = map.toFinmap.keys.card := by
  unfold toFinmap
  rw [List.card_keys_toFinmap h.nodupKeys]
  simp only [pairs, List.length_map]
  exact h.size

end WF

variable [DecidableEq κ]

/-- The hash stands in front of `equals`, but does not change what is equal. -/
theorem isEntry_iff {key : κ} {e : Entry κ ν} (h : e.hash = hashKey keys e.key)
    : isEntry keys key e = true ↔ keys.content e.key = keys.content key := by
  unfold isEntry equalKeys
  split
  . next heq => simp [heq]
  . split
    . next hhash =>
      rw [h] at hhash
      simp only [Bool.false_eq_true, false_iff]
      intro hcontent
      exact hhash (hashKey_eq hcontent)
    . exact keys.equals_iff _ _

section Find

variable {map : Hashmap keys ν} (h : map.WF) {key : κ}
include h

theorem WF.find_eq (key : κ) : map.find key = map.entries.find? (isEntry keys key) := by
  symm
  apply Buckets.find?_flatten
  intro j hj e he
  have hmem : e ∈ map.entries := Buckets.mem_flatten.mpr ⟨j, he⟩
  rw [← Bool.not_eq_true, isEntry_iff (h.hashed e hmem)]
  intro hcontent
  apply hj
  rw [← h.placed j e he, Entry.slot, h.hashed e hmem, hashKey_eq hcontent]
  rfl

theorem WF.content_of_find {e : Entry κ ν} (hfind : map.find key = some e)
    : keys.content e.key = keys.content key := by
  rw [h.find_eq] at hfind
  exact (isEntry_iff (h.hashed e (List.mem_of_find?_eq_some hfind))).mp (List.find?_some hfind)

theorem WF.content_not_mem (hfind : map.find key = none)
    : keys.content key ∉ map.entries.map fun e => keys.content e.key := by
  rw [h.find_eq, List.find?_eq_none] at hfind
  intro hmem
  obtain ⟨e, he, hcontent⟩ := List.mem_map.mp hmem
  exact hfind e he ((isEntry_iff (h.hashed e he)).mpr hcontent)

variable [DecidableEq χ]

omit h in
theorem dlookup_pairs {es : List (Entry κ ν)} (h : ∀ e ∈ es, e.hash = hashKey keys e.key) (key : κ)
    : (pairs keys es).dlookup (keys.content key) = (es.find? (isEntry keys key)).map (·.value) := by
  induction es with
  | nil => rfl
  | cons e es ih =>
    have hrest := ih fun x hx => h x (List.mem_cons_of_mem e hx)
    have hiff : isEntry keys key e = true ↔ _ := isEntry_iff (h e List.mem_cons_self)
    rw [List.find?_cons, pairs, List.map_cons]
    split
    . next he =>
      rw [← hiff.mp he]
      exact List.dlookup_cons_eq _ _ _
    . next he =>
      rw [List.dlookup_cons_ne]
      . exact hrest
      . intro hcontent
        rw [hiff.mpr hcontent.symm] at he
        cases he

theorem WF.lookup_eq (key : κ) : map.toFinmap.lookup (keys.content key) = (map.find key).map (·.value) := by
  unfold toFinmap
  rw [Finmap.dlookup_list_toFinmap, dlookup_pairs h.hashed, h.find_eq]

theorem WF.mem_iff (key : κ) : keys.content key ∈ map.toFinmap ↔ (map.find key).isSome := by
  rw [← Finmap.lookup_isSome, h.lookup_eq, Option.isSome_map]

/-! ### The functions that do not change the map -/

theorem WF.hashmapGet_eq (key : κ) : hashmapGet map key = (map.toFinmap.lookup (keys.content key)).join := by
  rw [h.lookup_eq]
  unfold hashmapGet
  cases map.find key
  all_goals rfl

theorem WF.hashmapContainsKey_eq (key : κ)
    : hashmapContainsKey map key = decide (keys.content key ∈ map.toFinmap) := by
  unfold hashmapContainsKey
  simp [h.mem_iff]

end Find

/-! ### The walks that change a chain -/

section Walk

variable {map map' : Hashmap keys ν} (h : map.WF) {key : κ} {e : Entry κ ν} {value : Option ν}
include h

theorem WF.entries_walk_some (hfind : map.find key = some e) (found : Entry κ ν → List (Entry κ ν))
    (missing : List (Entry κ ν))
    : ∃ before behind, map.entries = before ++ e :: behind
        ∧ (map.walk key found missing).entries = before ++ found e ++ behind :=
  Buckets.flatten_walk_some (h.indexOf_lt key) hfind

theorem WF.entries_walk_none (hfind : map.find key = none) (found : Entry κ ν → List (Entry κ ν))
    (missing : List (Entry κ ν)) : (map.walk key found missing).entries.Perm (missing ++ map.entries) :=
  Buckets.flatten_walk_none (h.indexOf_lt key) hfind

theorem WF.walk {found : Entry κ ν → List (Entry κ ν)} {missing : List (Entry κ ν)}
    (hbuckets : map'.buckets = (map.walk key found missing).buckets)
    (hfound : ∀ a, ∀ b ∈ found a, b.key = a.key ∧ b.hash = a.hash)
    (hmissing : ∀ a ∈ missing, a.key = key ∧ a.hash = hashKey keys key)
    (hdistinct : (map'.entries.map fun e => keys.content e.key).Nodup) (hsize : map'.size = map'.entries.length)
    : map'.WF := by
  have hcount : map'.bucketCount = map.bucketCount := by
    unfold Hashmap.bucketCount
    rw [hbuckets]
    exact List.length_set
  constructor
  . rw [hcount]
    exact h.bucketCount
  . intro b hb
    unfold entries at hb
    rw [hbuckets] at hb
    cases Buckets.mem_flatten_walk (h.indexOf_lt key) hb with
    | inl hb => exact h.hashed b hb
    | inr hb =>
      cases hb with
      | inl hb => rw [(hmissing b hb).1, (hmissing b hb).2]
      | inr hb =>
        obtain ⟨a, ha, hb⟩ := hb
        rw [(hfound a b hb).1, (hfound a b hb).2]
        exact h.hashed a ha
  . rw [hcount, hbuckets]
    apply h.placed.walk (h.indexOf_lt key)
    . intro a ha
      rw [Entry.slot, (hmissing a ha).2]
      rfl
    . intro a ha b hb
      rw [← ha, Entry.slot, Entry.slot, (hfound a b hb).2]
  . exact hdistinct
  . exact hsize

theorem WF.replaced (hfind : map.find key = some e)
    (hbuckets : map'.buckets = (map.walk key (fun entry => [{ entry with value }]) []).buckets)
    (hcount : map'.size = map.size)
    : map'.WF ∧ ∃ before behind, map.entries = before ++ e :: behind
        ∧ map'.entries = before ++ { e with value } :: behind := by
  obtain ⟨before, behind, hold, hnew⟩ := h.entries_walk_some hfind (fun entry => [{ entry with value }]) []
  have hdistinct := h.distinct
  have hsize := h.size
  have hnew : map'.entries = before ++ { e with value } :: behind := by
    rw [List.append_assoc, List.singleton_append] at hnew
    exact hnew ▸ congrArg List.flatten hbuckets
  rw [hold] at hdistinct hsize
  refine ⟨?_, before, behind, hold, hnew⟩
  apply h.walk hbuckets
  . intro a b hb
    rw [List.mem_singleton.mp hb]
    exact ⟨rfl, rfl⟩
  . simp
  . simpa [hnew] using hdistinct
  . rw [hnew, hcount, hsize]
    simp

theorem WF.removed (hfind : map.find key = some e)
    (hbuckets : map'.buckets = (map.walk key (fun _ => []) []).buckets) (hcount : map'.size = map.size - 1)
    : map'.WF ∧ ∃ before behind, map.entries = before ++ e :: behind ∧ map'.entries = before ++ behind := by
  obtain ⟨before, behind, hold, hnew⟩ := h.entries_walk_some hfind (fun _ => []) []
  have hdistinct := h.distinct
  have hsize := h.size
  have hnew : map'.entries = before ++ behind := by
    rw [List.append_nil] at hnew
    exact hnew ▸ congrArg List.flatten hbuckets
  have hperm : (before ++ e :: behind).Perm (e :: (before ++ behind)) := List.perm_middle
  rw [hold] at hdistinct hsize
  refine ⟨?_, before, behind, hold, hnew⟩
  apply h.walk hbuckets
  . simp
  . simp
  . have hnodup := (hperm.map fun e => keys.content e.key).nodup_iff.mp hdistinct
    rw [List.map_cons, List.nodup_cons] at hnodup
    rw [hnew]
    exact hnodup.2
  . rw [hnew, hcount, hsize]
    simp

theorem WF.added (hfind : map.find key = none)
    (hbuckets : map'.buckets
      = (map.walk key (fun entry => [entry]) [⟨key, hashKey keys key, value⟩]).buckets)
    (hcount : map'.size = map.size + 1)
    : map'.WF ∧ map'.entries.Perm (⟨key, hashKey keys key, value⟩ :: map.entries) := by
  have hperm : map'.entries.Perm (⟨key, hashKey keys key, value⟩ :: map.entries) := by
    unfold entries
    rw [hbuckets]
    exact h.entries_walk_none hfind (fun entry => [entry]) [⟨key, hashKey keys key, value⟩]
  refine ⟨?_, hperm⟩
  apply h.walk hbuckets
  . simp
  . simp
  . refine (hperm.map fun e => keys.content e.key).nodup_iff.mpr ?_
    rw [List.map_cons, List.nodup_cons]
    exact ⟨h.content_not_mem hfind, h.distinct⟩
  . rw [hperm.length_eq, hcount, List.length_cons, ← h.size]

end Walk

/-! ### Expansion -/

section Expand

variable {map : Hashmap keys ν} (h : map.WF) (mem : Memory)
include h

omit [DecidableEq κ]

theorem WF.capacity_eq : hashmapCurrentCapacity map = map.bucketCount * 3 / 4 := by
  obtain ⟨k, hk, hcount⟩ := h.bucketCount
  have hpow : 2 ^ k < 2 ^ 30 := Nat.pow_lt_pow_right (by decide) hk
  unfold hashmapCurrentCapacity
  rw [u32_of_lt (by omega)]

omit h in
theorem moveOver_buckets (n : Nat)
    : (map.moveOver n).buckets = map.entries.foldl (Buckets.push (Entry.slot n)) (List.replicate n []) := by
  unfold moveOver entries
  rw [List.foldl_flatten]

omit h in
theorem bucketCount_moveOver (n : Nat) : (map.moveOver n).bucketCount = n := by
  unfold bucketCount
  rw [moveOver_buckets, Buckets.length_foldl_push, List.length_replicate]

theorem WF.moveOver {k : Nat} (hk : k < 30)
    : (map.moveOver (2 ^ k)).WF ∧ (map.moveOver (2 ^ k)).entries.Perm map.entries := by
  have hslot : ∀ e ∈ map.entries,
      e.slot (2 ^ k) < (List.replicate (2 ^ k) ([] : List (Entry κ ν))).length := by
    intro e _
    rw [List.length_replicate]
    exact calculateIndex_lt (Nat.two_pow_pos k) _
  have hperm : (map.moveOver (2 ^ k)).entries.Perm map.entries := by
    have hflatten := Buckets.flatten_foldl_push hslot
    rw [List.flatten_replicate_nil, List.append_nil, ← moveOver_buckets] at hflatten
    exact hflatten
  refine ⟨?_, hperm⟩
  constructor
  . exact ⟨k, hk, bucketCount_moveOver _⟩
  . intro e he
    exact h.hashed e (hperm.mem_iff.mp he)
  . rw [bucketCount_moveOver, moveOver_buckets]
    exact (Buckets.placed_replicate _).foldl_push hslot
  . exact (hperm.map fun e => keys.content e.key).nodup_iff.mpr h.distinct
  . exact h.size.trans hperm.length_eq.symm

theorem WF.expand_cases
    : expandIfNecessary map mem = map ∧ (map.size ≤ hashmapCurrentCapacity map ∨ mem.calloc = false
        ∨ map.bucketCount = 2 ^ 29)
      ∨ ∃ k, k + 1 < 30 ∧ map.bucketCount = 2 ^ k ∧ expandIfNecessary map mem = map.moveOver (2 ^ (k + 1)) := by
  obtain ⟨k, hk, hcount⟩ := h.bucketCount
  have hpow : 2 ^ (k + 1) ≤ 2 ^ 30 := Nat.pow_le_pow_right (by decide) hk
  have hnew : u32 (map.bucketCount * 2) = 2 ^ (k + 1) := by
    rw [hcount, ← Nat.pow_succ, u32_of_lt (by omega)]
  unfold expandIfNecessary callocPointers
  rw [hnew]
  split
  . dsimp only
    split
    . next hcalloc =>
      refine Or.inl ⟨rfl, Or.inr ?_⟩
      simp only [Bool.not_and, Bool.or_eq_true, Bool.not_eq_true', decide_eq_false_iff_not] at hcalloc
      cases hcalloc with
      | inl hcalloc => exact Or.inl hcalloc
      | inr hcalloc =>
        have hlast : k = 29 := by
          by_contra hne
          have : 2 ^ (k + 1) ≤ 2 ^ 29 := Nat.pow_le_pow_right (by decide) (by omega)
          omega
        exact Or.inr (hlast ▸ hcount)
    . next hcalloc =>
      refine Or.inr ⟨k, ?_, hcount, rfl⟩
      simp only [Bool.not_and, Bool.or_eq_true, Bool.not_eq_true', decide_eq_false_iff_not, not_or,
        not_not] at hcalloc
      by_contra hge
      have : 2 ^ 30 ≤ 2 ^ (k + 1) := Nat.pow_le_pow_right (by decide) (by omega)
      omega
  . next hsize => exact Or.inl ⟨rfl, Or.inl (Nat.le_of_not_gt hsize)⟩

theorem WF.expandIfNecessary
    : (expandIfNecessary map mem).WF ∧ (expandIfNecessary map mem).entries.Perm map.entries := by
  cases h.expand_cases mem with
  | inl hsame =>
    rw [hsame.1]
    exact ⟨h, List.Perm.refl _⟩
  | inr hmoved =>
    obtain ⟨k, hk, -, hmap⟩ := hmoved
    rw [hmap]
    exact h.moveOver hk

end Expand

/-! ### The functions that change the map -/

/-- What the functions come to on finite maps; only a new key needs memory. -/
def FiniteMap.put [DecidableEq χ] (m : Finmap fun _ : χ => Option ν) (key : χ) (value : Option ν)
    (mem : Memory) : (Finmap fun _ : χ => Option ν) × Option ν :=
  match m.lookup key with
  | none => if mem.malloc then (m.insert key value, none) else (m, none)
  | some old => (m.insert key value, old)

theorem FiniteMap.lookup_put_ne [DecidableEq χ] {c key : χ} (h : c ≠ key) (m : Finmap fun _ : χ => Option ν)
    (value : Option ν) (mem : Memory) : (put m key value mem).1.lookup c = m.lookup c := by
  unfold put
  split
  . split
    . exact Finmap.lookup_insert_of_ne m h
    . rfl
  . exact Finmap.lookup_insert_of_ne m h

theorem FiniteMap.lookup_put_self [DecidableEq χ] (key : χ) (m : Finmap fun _ : χ => Option ν) (value : Option ν)
    (mem : Memory)
    : (put m key value mem).1.lookup key = some value
      ∨ (m.lookup key = none ∧ mem.malloc = false ∧ (put m key value mem).1 = m) := by
  unfold put
  split
  . next hnone =>
    split
    . exact Or.inl (Finmap.lookup_insert m)
    . next hmem => exact Or.inr ⟨hnone, Bool.eq_false_of_not_eq_true hmem, rfl⟩
  . exact Or.inl (Finmap.lookup_insert m)

def FiniteMap.memoize [DecidableEq χ] (m : Finmap fun _ : χ => Option ν) (key : χ) (initial : Option ν)
    (mem : Memory) : (Finmap fun _ : χ => Option ν) × Option ν :=
  match m.lookup key with
  | none => if mem.malloc then (m.insert key initial, initial) else (m, none)
  | some old => (m, old)

def FiniteMap.remove [DecidableEq χ] (m : Finmap fun _ : χ => Option ν) (key : χ)
    : (Finmap fun _ : χ => Option ν) × Option ν :=
  (m.erase key, (m.lookup key).join)

section Change

variable [DecidableEq χ] {map : Hashmap keys ν} (h : map.WF)
include h

omit [DecidableEq χ] in
theorem WF.exists_added {key : κ} (hfind : map.find key = none) (value : Option ν)
    : ∃ added : Hashmap keys ν, added.WF ∧ added.entries.Perm (⟨key, hashKey keys key, value⟩ :: map.entries)
        ∧ added.bucketCount = map.bucketCount
        ∧ ∀ mem, map.addEntry key value mem = Hashmap.expandIfNecessary added mem := by
  let walked := map.walk key (fun entry => [entry]) [⟨key, hashKey keys key, value⟩]
  obtain ⟨hwf, hperm⟩ := @WF.added _ _ _ _ _ _ ⟨walked.buckets, map.size + 1⟩ h key value hfind rfl rfl
  exact ⟨_, hwf, hperm, List.length_set, fun _ => rfl⟩

theorem WF.addEntry {key : κ} (hfind : map.find key = none) (value : Option ν) (mem : Memory)
    : (map.addEntry key value mem).WF
      ∧ (map.addEntry key value mem).toFinmap = map.toFinmap.insert (keys.content key) value := by
  obtain ⟨added, hwf, hperm, -, hadd⟩ := h.exists_added hfind value
  obtain ⟨hwf', hperm'⟩ := hwf.expandIfNecessary mem
  rw [hadd]
  refine ⟨hwf', ?_⟩
  have hpairs := (hperm'.trans hperm).map fun e => (⟨keys.content e.key, e.value⟩ : Σ _ : χ, Option ν)
  exact (hpairs.toFinmap_eq hwf'.nodupKeys).trans (Finmap.toFinmap_cons _ _ _)

theorem WF.hashmapPut (key : κ) (value : Option ν) (mem : Memory)
    : (hashmapPut map key value mem).1.WF
      ∧ ((hashmapPut map key value mem).1.toFinmap, (hashmapPut map key value mem).2)
          = FiniteMap.put map.toFinmap (keys.content key) value mem := by
  have hlookup := h.lookup_eq key
  unfold Hashmap.hashmapPut FiniteMap.put
  rw [hlookup]
  cases hfind : map.find key with
  | none =>
    cases hmem : mem.malloc with
    | false => exact ⟨h, rfl⟩
    | true =>
      obtain ⟨hwf, hmap⟩ := h.addEntry hfind value mem
      exact ⟨hwf, congrArg (·, none) hmap⟩
  | some e =>
    obtain ⟨hwf, before, behind, hold, hnew⟩ := h.replaced hfind rfl rfl
    refine ⟨hwf, congrArg (·, e.value) ?_⟩
    have hnodup := h.nodupKeys
    rw [hold] at hnodup
    unfold toFinmap
    rw [hold, hnew, ← h.content_of_find hfind]
    simp only [pairs, List.map_append, List.map_cons] at hnodup ⊢
    exact List.toFinmap_replaced hnodup

theorem WF.hashmapMemoize (key : κ) (initialValue : κ → Option ν) (mem : Memory)
    : (hashmapMemoize map key initialValue mem).1.WF
      ∧ ((hashmapMemoize map key initialValue mem).1.toFinmap, (hashmapMemoize map key initialValue mem).2)
          = FiniteMap.memoize map.toFinmap (keys.content key) (initialValue key) mem := by
  have hlookup := h.lookup_eq key
  unfold Hashmap.hashmapMemoize FiniteMap.memoize
  rw [hlookup]
  cases hfind : map.find key with
  | none =>
    cases hmem : mem.malloc with
    | false => exact ⟨h, rfl⟩
    | true =>
      obtain ⟨hwf, hmap⟩ := h.addEntry hfind (initialValue key) mem
      exact ⟨hwf, congrArg (·, initialValue key) hmap⟩
  | some e => exact ⟨h, rfl⟩

theorem WF.hashmapRemove (key : κ)
    : (hashmapRemove map key).1.WF
      ∧ ((hashmapRemove map key).1.toFinmap, (hashmapRemove map key).2)
          = FiniteMap.remove map.toFinmap (keys.content key) := by
  have hlookup := h.lookup_eq key
  unfold Hashmap.hashmapRemove FiniteMap.remove
  rw [hlookup]
  cases hfind : map.find key with
  | none =>
    rw [hfind] at hlookup
    refine ⟨h, congrArg (·, none) ?_⟩
    apply Finmap.ext_lookup
    intro x
    by_cases hx : x = keys.content key
    . rw [hx, Finmap.lookup_erase, hlookup]
      rfl
    . rw [Finmap.lookup_erase_ne hx]
  | some e =>
    dsimp only
    generalize hremoved : (Hashmap.mk _ _ : Hashmap keys ν) = removed
    have hbuckets : removed.buckets = (map.walk key (fun _ => []) []).buckets := by
      rw [← hremoved]
    obtain ⟨hwf, before, behind, hold, hnew⟩ :=
      h.removed hfind hbuckets (congrArg Hashmap.size hremoved.symm)
    refine ⟨hwf, congrArg (·, e.value) ?_⟩
    have hnodup := h.nodupKeys
    rw [hold] at hnodup
    unfold toFinmap
    rw [hold, hnew, ← h.content_of_find hfind]
    simp only [pairs, List.map_append, List.map_cons] at hnodup ⊢
    exact List.toFinmap_erased hnodup

end Change

/-! ### Creation -/

omit [DecidableEq κ]

theorem hashmapCreate.go_eq {minimum : Nat} (hmin : minimum < 2 ^ 31) (turns : Nat) {j : Nat}
    (hj : turns + j = 32) (hpos : 0 < turns)
    : ∃ k, hashmapCreate.go minimum turns (2 ^ j) = 2 ^ k ∧ minimum < 2 ^ k := by
  induction turns generalizing j with
  | zero => omega
  | succ turns ih =>
    unfold hashmapCreate.go
    split
    . next hle =>
      have hj31 : j < 31 := by
        by_contra hge
        have : 2 ^ 31 ≤ 2 ^ j := Nat.pow_le_pow_right (by decide) (by omega)
        omega
      have hpow : 2 ^ (j + 1) < 2 ^ 32 := Nat.pow_lt_pow_right (by decide) (by omega)
      rw [← Nat.pow_succ, u32_of_lt hpow]
      exact ih (by omega) (by omega)
    . next hgt => exact ⟨j, rfl, Nat.lt_of_not_le hgt⟩

theorem hashmapCreate_eq {initialCapacity : Nat} {mem : Memory} {map : Hashmap keys ν}
    (hcreate : hashmapCreate keys ν initialCapacity mem = some map)
    : map.WF ∧ map.entries = [] ∧ u32 (initialCapacity * 4) / 3 < map.bucketCount := by
  have hmin : u32 (initialCapacity * 4) / 3 < 2 ^ 31 := by
    have := u32_lt (initialCapacity * 4)
    omega
  obtain ⟨k, hk, hlt⟩ := @hashmapCreate.go_eq _ hmin 32 0 rfl (by decide)
  unfold hashmapCreate at hcreate
  split at hcreate
  . cases hcreate
  . dsimp only at hcreate
    rw [Nat.pow_zero] at hk
    rw [hk] at hcreate
    split at hcreate
    . cases hcreate
    . next hcalloc =>
      simp only [callocPointers, Bool.not_and, Bool.or_eq_true, Bool.not_eq_true', decide_eq_false_iff_not,
        not_or, not_not] at hcalloc
      have hcount : map.bucketCount = 2 ^ k := by
        rw [← Option.some_inj.mp hcreate]
        exact List.length_replicate
      have hempty : map.entries = [] := by
        rw [← Option.some_inj.mp hcreate]
        exact List.flatten_replicate_nil
      refine ⟨?_, hempty, hcount ▸ hlt⟩
      constructor
      . refine ⟨k, ?_, hcount⟩
        by_contra hge
        have : 2 ^ 30 ≤ 2 ^ k := Nat.pow_le_pow_right (by decide) (by omega)
        omega
      . simp [hempty]
      . rw [hcount, ← Option.some_inj.mp hcreate]
        exact Buckets.placed_replicate _
      . simp [hempty]
      . rw [hempty, ← Option.some_inj.mp hcreate]
        rfl

end Hashmap
