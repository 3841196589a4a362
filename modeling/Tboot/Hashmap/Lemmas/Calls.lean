import Tboot.Hashmap.Lemmas.Basic

/-!
This module contains the results about any calls of the functions one after the other, from a new map on.
-/

namespace Hashmap

variable {κ χ ν σ : Type} [DecidableEq κ] [DecidableEq χ] {keys : Keys κ χ}

def FiniteMap.call (keys : Keys κ χ) (m : Finmap fun _ : χ => Option ν)
    : Call κ ν → (Finmap fun _ : χ => Option ν) × Answer ν
  | .put key value mem => (put m (keys.content key) value mem).map id .pointer
  | .get key => (m, .pointer (m.lookup (keys.content key)).join)
  | .containsKey key => (m, .bool (keys.content key ∈ m))
  | .memoize key initialValue mem => (memoize m (keys.content key) (initialValue key) mem).map id .pointer
  | .remove key => (remove m (keys.content key)).map id .pointer
  | .size => (m, .number m.keys.card)

def FiniteMap.calls (keys : Keys κ χ) (m : Finmap fun _ : χ => Option ν)
    : List (Call κ ν) → (Finmap fun _ : χ => Option ν) × List (Answer ν)
  | [] => (m, [])
  | c :: cs =>
    let (m, answer) := call keys m c
    let (m, answers) := calls keys m cs
    (m, answer :: answers)

theorem WF.call {map : Hashmap keys ν} (h : map.WF) (c : Call κ ν)
    : (map.call c).1.WF
      ∧ ((map.call c).1.toFinmap, (map.call c).2) = FiniteMap.call keys map.toFinmap c := by
  cases c with
  | put key value mem =>
    obtain ⟨hwf, heq⟩ := h.hashmapPut key value mem
    exact ⟨hwf, congrArg (Prod.map id Answer.pointer) heq⟩
  | get key => exact ⟨h, congrArg (fun v => (_, Answer.pointer v)) (h.hashmapGet_eq key)⟩
  | containsKey key => exact ⟨h, congrArg (fun b => (_, Answer.bool b)) (h.hashmapContainsKey_eq key)⟩
  | memoize key initialValue mem =>
    obtain ⟨hwf, heq⟩ := h.hashmapMemoize key initialValue mem
    exact ⟨hwf, congrArg (Prod.map id Answer.pointer) heq⟩
  | remove key =>
    obtain ⟨hwf, heq⟩ := h.hashmapRemove key
    exact ⟨hwf, congrArg (Prod.map id Answer.pointer) heq⟩
  | size => exact ⟨h, congrArg (fun n => (_, Answer.number n)) h.size_eq⟩

theorem WF.calls {map : Hashmap keys ν} (h : map.WF) (cs : List (Call κ ν))
    : (map.calls cs).1.WF
      ∧ ((map.calls cs).1.toFinmap, (map.calls cs).2) = FiniteMap.calls keys map.toFinmap cs := by
  induction cs generalizing map with
  | nil => exact ⟨h, rfl⟩
  | cons c cs ih =>
    obtain ⟨hwf, heq⟩ := h.call c
    obtain ⟨hwf', heq'⟩ := ih hwf
    refine ⟨hwf', ?_⟩
    unfold FiniteMap.calls
    rw [← heq]
    dsimp only
    rw [← heq']
    rfl

omit [DecidableEq κ] in
theorem toFinmap_of_nil {map : Hashmap keys ν} (h : map.entries = []) : map.toFinmap = ∅ := by
  unfold toFinmap
  rw [h]
  rfl

/-- From a new map on, all answers are those of a finite map that is empty at first. -/
theorem calls_answers {initialCapacity : Nat} {mem : Memory} {map : Hashmap keys ν}
    (hcreate : hashmapCreate keys ν initialCapacity mem = some map) (cs : List (Call κ ν))
    : (map.calls cs).2 = (FiniteMap.calls keys ∅ cs).2 := by
  obtain ⟨hwf, hempty, -⟩ := hashmapCreate_eq hcreate
  have heq := (hwf.calls cs).2
  rw [toFinmap_of_nil hempty] at heq
  exact congrArg Prod.snd heq

theorem calls_answers_twice
    : hashmapCreate strKeys Nat 8 ⟨true, true⟩ = some ⟨List.replicate 16 [], 0⟩
      ∧ ((Hashmap.mk (List.replicate 16 []) 0 : Hashmap strKeys Nat).calls
          [.put (str "fw") (some 1) ⟨true, true⟩, .put (str "fw") (some 2) ⟨false, true⟩, .get (str "fw")]).2
        = (FiniteMap.calls strKeys ∅
          [.put (str "fw") (some 1) ⟨true, true⟩, .put (str "fw") (some 2) ⟨false, true⟩, .get (str "fw")]).2 := by
  have hcreate : hashmapCreate strKeys Nat 8 ⟨true, true⟩ = some _ := rfl
  exact ⟨hcreate, calls_answers hcreate _⟩

/-! ### The order of `hashmapForEach` -/

def visit (callback : κ → Option ν → σ → Bool × σ) : List (κ × Option ν) → σ → σ
  | [], context => context
  | (key, value) :: rest, context =>
    match callback key value context with
    | (false, context) => context
    | (true, context) => visit callback rest context

def bindings (map : Hashmap keys ν) : List (κ × Option ν) :=
  map.entries.map fun e => (e.key, e.value)

omit [DecidableEq κ] [DecidableEq χ]

theorem visit_append (callback : κ → Option ν → σ → Bool × σ) (chain : List (Entry κ ν))
    (rest : List (κ × Option ν)) (context : σ)
    : visit callback ((chain.map fun e => (e.key, e.value)) ++ rest) context
        = match hashmapForEach.goChain callback chain context with
          | (false, context) => context
          | (true, context) => visit callback rest context := by
  induction chain generalizing context with
  | nil => rfl
  | cons e chain ih =>
    rw [List.map_cons, List.cons_append, visit, hashmapForEach.goChain]
    cases callback e.key e.value context with
    | mk goOn context =>
      cases goOn with
      | false => rfl
      | true => exact ih context

theorem hashmapForEach.go_eq (callback : κ → Option ν → σ → Bool × σ) (chains : List (List (Entry κ ν)))
    (context : σ)
    : hashmapForEach.go callback chains context
        = visit callback (chains.flatten.map fun e => (e.key, e.value)) context := by
  induction chains generalizing context with
  | nil => rfl
  | cons chain chains ih =>
    rw [List.flatten_cons, List.map_append, visit_append, hashmapForEach.go]
    cases hashmapForEach.goChain callback chain context with
    | mk goOn context =>
      cases goOn with
      | false => rfl
      | true => exact ih context

theorem hashmapForEach_eq (map : Hashmap keys ν) (callback : κ → Option ν → σ → Bool × σ) (context : σ)
    : hashmapForEach map callback context = visit callback map.bindings context :=
  hashmapForEach.go_eq callback map.buckets context

theorem WF.bindings_nodup {map : Hashmap keys ν} (h : map.WF)
    : (map.bindings.map fun p => keys.content p.1).Nodup := by
  unfold bindings
  rw [List.map_map]
  exact h.distinct

theorem WF.mem_bindings [DecidableEq κ] [DecidableEq χ] {map : Hashmap keys ν} (h : map.WF) (c : χ)
    (value : Option ν)
    : map.toFinmap.lookup c = some value ↔ ∃ key, (key, value) ∈ map.bindings ∧ keys.content key = c := by
  unfold toFinmap bindings
  rw [Finmap.dlookup_list_toFinmap, ← Option.mem_def, List.mem_dlookup_iff h.nodupKeys]
  simp only [pairs, List.mem_map, Sigma.mk.injEq, heq_eq_eq, Prod.mk.injEq]
  constructor
  . rintro ⟨e, he, hkey, hvalue⟩
    exact ⟨e.key, ⟨e, he, rfl, hvalue⟩, hkey⟩
  . rintro ⟨key, ⟨e, he, hkey, hvalue⟩, hc⟩
    exact ⟨e, he, hkey ▸ hc, hvalue⟩

/--
`hashmapForEach` goes by every binding of the finite map once, in an order that does not depend on the
callback, until that says no.
-/
theorem calls_forEach [DecidableEq κ] [DecidableEq χ] {initialCapacity : Nat} {mem : Memory}
    {map : Hashmap keys ν} (hcreate : hashmapCreate keys ν initialCapacity mem = some map)
    (cs : List (Call κ ν))
    : ∃ order : List (κ × Option ν),
        (order.map fun p => keys.content p.1).Nodup
          ∧ (∀ c value, (FiniteMap.calls keys ∅ cs).1.lookup c = some value
              ↔ ∃ key, (key, value) ∈ order ∧ keys.content key = c)
          ∧ ∀ (σ : Type) (callback : κ → Option ν → σ → Bool × σ) (context : σ),
              hashmapForEach (map.calls cs).1 callback context = visit callback order context := by
  obtain ⟨hwf, hempty, -⟩ := hashmapCreate_eq hcreate
  obtain ⟨hwf', heq⟩ := hwf.calls cs
  rw [toFinmap_of_nil hempty] at heq
  refine ⟨(map.calls cs).1.bindings, hwf'.bindings_nodup, ?_, ?_⟩
  . intro c value
    rw [← heq]
    exact hwf'.mem_bindings c value
  . intro σ callback context
    exact hashmapForEach_eq _ callback context

theorem calls_forEach_two
    : hashmapCreate strKeys Nat 8 ⟨true, true⟩ = some ⟨List.replicate 16 [], 0⟩
      ∧ ∃ order : List (Bytes × Option Nat),
          (order.map fun p => strKeys.content p.1).Nodup
            ∧ (∀ c value, (FiniteMap.calls strKeys ∅ [.put (str "fw") (some 1) ⟨true, true⟩,
                .put (str "boot") (some 2) ⟨true, true⟩]).1.lookup c = some value
                ↔ ∃ key, (key, value) ∈ order ∧ strKeys.content key = c)
            ∧ ∀ (σ : Type) (callback : Bytes → Option Nat → σ → Bool × σ) (context : σ),
                hashmapForEach ((Hashmap.mk (List.replicate 16 []) 0 : Hashmap strKeys Nat).calls
                  [.put (str "fw") (some 1) ⟨true, true⟩, .put (str "boot") (some 2) ⟨true, true⟩]).1
                    callback context
                  = visit callback order context := by
  have hcreate : hashmapCreate strKeys Nat 8 ⟨true, true⟩ = some _ := rfl
  exact ⟨hcreate, calls_forEach hcreate _⟩

/-! ### The load factor -/

def Call.starved : Call κ ν → Bool
  | .put _ _ mem => !mem.calloc
  | .memoize _ _ mem => !mem.calloc
  | _ => false

/-- At most three quarters full, but for `missed` expansions; a table cannot have more than `2 ^ 29` buckets. -/
def Loaded (map : Hashmap keys ν) (missed : Nat) : Prop :=
  hashmapSize map ≤ hashmapCurrentCapacity map + missed ∨ map.bucketCount = 2 ^ 29

theorem Loaded.of_bucketCount {map map' : Hashmap keys ν} {missed missed' : Nat} (hload : map.Loaded missed)
    (hcount : map'.bucketCount = map.bucketCount) (hsize : map'.size + missed ≤ map.size + missed')
    : map'.Loaded missed' := by
  unfold Loaded hashmapCurrentCapacity hashmapSize at *
  rw [hcount]
  omega

theorem Loaded.expandIfNecessary {map : Hashmap keys ν} {missed : Nat} (h : map.WF) (mem : Memory)
    (hload : map.Loaded (missed + 1))
    : (expandIfNecessary map mem).Loaded (if mem.calloc then missed else missed + 1) := by
  cases h.expand_cases mem with
  | inl hsame =>
    obtain ⟨hmap, hwhy⟩ := hsame
    rw [hmap]
    cases hcalloc : mem.calloc with
    | false => exact hload
    | true =>
      unfold Loaded hashmapSize at hload ⊢
      rw [if_pos rfl]
      simp only [hcalloc, Bool.true_eq_false, false_or] at hwhy
      omega
  | inr hmoved =>
    obtain ⟨k, hk, hcount, hmap⟩ := hmoved
    have hwf := (h.moveOver hk).1
    have hcapacity := h.capacity_eq
    have hcapacity' := hwf.capacity_eq
    have hpow := Nat.two_pow_pos k
    have hdouble : 2 ^ (k + 1) = 2 ^ k * 2 := Nat.pow_succ 2 k
    have hlt : 2 ^ k < 2 ^ 29 := Nat.pow_lt_pow_right (by decide) (by omega)
    rw [hcount] at hcapacity
    rw [bucketCount_moveOver] at hcapacity'
    have hsize : hashmapSize (map.moveOver (2 ^ (k + 1))) = hashmapSize map := rfl
    rw [hmap]
    unfold Loaded at hload ⊢
    left
    rw [hsize, hcapacity']
    split
    all_goals omega

variable [DecidableEq κ]

theorem Loaded.addEntry {map : Hashmap keys ν} {missed : Nat} (h : map.WF) (hload : map.Loaded missed)
    {key : κ} (hfind : map.find key = none) (value : Option ν) (mem : Memory)
    : (map.addEntry key value mem).Loaded (if mem.calloc then missed else missed + 1) := by
  obtain ⟨added, hwf, hperm, hcount, hadd⟩ := h.exists_added hfind value
  rw [hadd]
  apply Loaded.expandIfNecessary hwf
  apply hload.of_bucketCount hcount
  rw [hwf.size, hperm.length_eq, h.size, List.length_cons]
  omega

theorem Loaded.call {map : Hashmap keys ν} {missed : Nat} (h : map.WF) (hload : map.Loaded missed)
    (c : Call κ ν) : (map.call c).1.Loaded (if c.starved then missed + 1 else missed) := by
  have hmore : ∀ b : Bool, map.Loaded (if b then missed + 1 else missed) := by
    intro b
    apply hload.of_bucketCount rfl
    split
    all_goals omega
  have hadd : ∀ key value (mem : Memory), map.find key = none
      → (map.addEntry key value mem).Loaded (if !mem.calloc then missed + 1 else missed) := by
    intro key value mem hfind
    have hadd := hload.addEntry h hfind value mem
    cases hcalloc : mem.calloc
    all_goals simpa [hcalloc] using hadd
  cases c with
  | put key value mem =>
    unfold Hashmap.call hashmapPut
    dsimp only [Prod.map_fst, id]
    split
    . next hfind =>
      split
      . exact hmore _
      . exact hadd key value mem hfind
    . exact (hmore _).of_bucketCount List.length_set (Nat.le_refl _)
  | memoize key initialValue mem =>
    unfold Hashmap.call hashmapMemoize
    dsimp only [Prod.map_fst, id]
    split
    . next hfind =>
      split
      . exact hmore _
      . exact hadd key (initialValue key) mem hfind
    . exact hmore _
  | remove key =>
    unfold Hashmap.call hashmapRemove
    dsimp only [Prod.map_fst, id]
    split
    . exact hload
    . refine hload.of_bucketCount ?_ ?_
      . exact List.length_set
      . exact Nat.add_le_add_right (Nat.sub_le _ _) _
  | get key => exact hload
  | containsKey key => exact hload
  | size => exact hload

variable [DecidableEq χ]

theorem Loaded.calls {map : Hashmap keys ν} {missed : Nat} (h : map.WF) (hload : map.Loaded missed)
    (cs : List (Call κ ν)) : (map.calls cs).1.Loaded (missed + cs.countP Call.starved) := by
  induction cs generalizing map missed with
  | nil => exact hload
  | cons c cs ih =>
    have hrest := ih (h.call c).1 (hload.call h c)
    rw [List.countP_cons]
    unfold Hashmap.calls
    convert hrest using 1
    split
    all_goals omega

/-- The table grows with its contents: only an expansion that got no memory leaves an entry too many in it. -/
theorem calls_loaded {initialCapacity : Nat} {mem : Memory} {map : Hashmap keys ν}
    (hcreate : hashmapCreate keys ν initialCapacity mem = some map) (cs : List (Call κ ν))
    : hashmapSize (map.calls cs).1 ≤ hashmapCurrentCapacity (map.calls cs).1 + cs.countP Call.starved
      ∨ (map.calls cs).1.bucketCount = 2 ^ 29 := by
  obtain ⟨hwf, hempty, -⟩ := hashmapCreate_eq hcreate
  have hload : map.Loaded 0 := by
    left
    rw [hashmapSize, hwf.size, hempty]
    exact Nat.zero_le _
  have hall := hload.calls hwf cs
  rwa [Nat.zero_add] at hall

theorem calls_loaded_two
    : hashmapCreate strKeys Nat 1 ⟨true, true⟩ = some ⟨List.replicate 2 [], 0⟩
      ∧ (hashmapSize ((Hashmap.mk (List.replicate 2 []) 0 : Hashmap strKeys Nat).calls
            [.put (str "fw") (some 1) ⟨true, true⟩, .put (str "boot") (some 2) ⟨true, false⟩]).1
          ≤ hashmapCurrentCapacity ((Hashmap.mk (List.replicate 2 []) 0 : Hashmap strKeys Nat).calls
            [.put (str "fw") (some 1) ⟨true, true⟩, .put (str "boot") (some 2) ⟨true, false⟩]).1
            + [.put (str "fw") (some 1) ⟨true, true⟩, .put (str "boot") (some 2) ⟨true, false⟩].countP
                (@Call.starved Bytes Nat)
        ∨ ((Hashmap.mk (List.replicate 2 []) 0 : Hashmap strKeys Nat).calls
            [.put (str "fw") (some 1) ⟨true, true⟩, .put (str "boot") (some 2) ⟨true, false⟩]).1.bucketCount
          = 2 ^ 29) := by
  have hcreate : hashmapCreate strKeys Nat 1 ⟨true, true⟩ = some _ := rfl
  exact ⟨hcreate, calls_loaded hcreate _⟩

end Hashmap
