import Tboot.Hashmap.Lemmas.Calls

/-!
This module contains `aboot_register_cmd`, with which plugins enter their functions into the tables of
`aboot.c`, and what such a table holds after any number of registrations.
-/

namespace Aboot

open Hashmap

variable {ν : Type}

/-- True for zero. That `hashmapPut` has got no memory goes unnoticed. -/
def abootRegisterCmd (map : Hashmap strKeys ν) (key : Bytes) (callback : Option ν) (strdup : Bool)
    (mem : Memory) : Hashmap strKeys ν × Bool :=
  if !strdup then
    (map, false)
  else
    let k := cstr key
    if (hashmapGet map k).isSome then
      (map, false)
    else
      ((hashmapPut map k callback mem).1, true)

structure Registration (ν : Type) where
  key : Bytes
  callback : ν
  strdup : Bool
  mem : Memory

def Registration.stored (r : Registration ν) : Bool :=
  r.strdup && r.mem.malloc

def registerCmds (map : Hashmap strKeys ν) : List (Registration ν) → Hashmap strKeys ν × List Bool
  | [] => (map, [])
  | r :: rs =>
    let (map, result) := abootRegisterCmd map r.key (some r.callback) r.strdup r.mem
    let (map, results) := registerCmds map rs
    (map, result :: results)

def firstStored (rs : List (Registration ν)) (name : Bytes) : Option (Registration ν) :=
  rs.find? fun r => cstr r.key = cstr name && r.stored

theorem firstStored_congr {rs : List (Registration ν)} {a b : Bytes} (h : cstr a = cstr b)
    : firstStored rs a = firstStored rs b := by
  unfold firstStored
  rw [h]

theorem firstStored_append (rs : List (Registration ν)) (r : Registration ν) (name : Bytes)
    : firstStored (rs ++ [r]) name
        = (firstStored rs name).or (if cstr r.key = cstr name ∧ r.stored then some r else none) := by
  unfold firstStored
  rw [List.find?_append, List.find?_singleton]
  simp

structure Holds (map : Hashmap strKeys ν) (rs : List (Registration ν)) : Prop where
  wf : map.WF
  lookup : ∀ name, map.toFinmap.lookup (cstr name) = (firstStored rs name).map fun r => some r.callback

variable {map : Hashmap strKeys ν} {rs : List (Registration ν)}

theorem Holds.hashmapGet_eq (h : Holds map rs) (name : Bytes)
    : hashmapGet map name = (firstStored rs name).map (·.callback) := by
  rw [h.wf.hashmapGet_eq]
  change (map.toFinmap.lookup (cstr name)).join = _
  rw [h.lookup name]
  cases firstStored rs name
  all_goals rfl

theorem Holds.unchanged (h : Holds map rs) {map' : Hashmap strKeys ν} (hwf : map'.WF)
    (hmap : map'.toFinmap = map.toFinmap) {r : Registration ν}
    (hr : r.stored = true → (firstStored rs r.key).isSome) : Holds map' (rs ++ [r]) := by
  refine ⟨hwf, ?_⟩
  intro name
  rw [hmap, h.lookup, firstStored_append]
  split
  . next hname =>
    have hsome := hr hname.2
    rw [firstStored_congr hname.1] at hsome
    rw [Option.or_of_isSome hsome]
  . rw [Option.or_none]

theorem Holds.inserted (h : Holds map rs) {map' : Hashmap strKeys ν} (hwf : map'.WF) {r : Registration ν}
    (hmap : map'.toFinmap = map.toFinmap.insert (cstr r.key) (some r.callback)) (hr : r.stored = true)
    (hfirst : firstStored rs r.key = none) : Holds map' (rs ++ [r]) := by
  refine ⟨hwf, ?_⟩
  intro name
  rw [hmap, firstStored_append]
  by_cases hname : cstr r.key = cstr name
  . rw [hname, Finmap.lookup_insert, ← firstStored_congr hname, hfirst, if_pos ⟨rfl, hr⟩]
    rfl
  . rw [Finmap.lookup_insert_of_ne _ (fun heq => hname heq.symm), if_neg (fun heq => hname heq.1), Option.or_none]
    exact h.lookup name

theorem Holds.register (h : Holds map rs) (r : Registration ν)
    : Holds (abootRegisterCmd map r.key (some r.callback) r.strdup r.mem).1 (rs ++ [r])
      ∧ (abootRegisterCmd map r.key (some r.callback) r.strdup r.mem).2
          = (r.strdup && (firstStored rs r.key).isNone) := by
  have hcstr : cstr (cstr r.key) = cstr r.key := cstr_of_not_mem (zero_not_mem_cstr _)
  have hget := h.hashmapGet_eq (cstr r.key)
  rw [firstStored_congr hcstr] at hget
  unfold abootRegisterCmd
  dsimp only
  rw [hget]
  cases hstrdup : r.strdup with
  | false =>
    refine ⟨h.unchanged h.wf rfl ?_, rfl⟩
    intro hstored
    simp [Registration.stored, hstrdup] at hstored
  | true =>
    cases hfirst : firstStored rs r.key with
    | some first =>
      refine ⟨h.unchanged h.wf rfl ?_, rfl⟩
      intro _
      rw [hfirst]
      rfl
    | none =>
      refine ⟨?_, rfl⟩
      have hlookup := h.lookup r.key
      rw [hfirst] at hlookup
      obtain ⟨hwf, hput⟩ := h.wf.hashmapPut (cstr r.key) (some r.callback) r.mem
      have hmap := congrArg Prod.fst hput
      change _ = (FiniteMap.put map.toFinmap (cstr (cstr r.key)) (some r.callback) r.mem).1 at hmap
      rw [hcstr, FiniteMap.put, hlookup] at hmap
      cases hmalloc : r.mem.malloc with
      | false =>
        rw [hmalloc] at hmap
        apply h.unchanged hwf hmap
        intro hstored
        simp [Registration.stored, hmalloc] at hstored
      | true =>
        rw [hmalloc] at hmap
        exact h.inserted hwf hmap (by simp [Registration.stored, hstrdup, hmalloc]) hfirst

theorem Holds.registerCmds (h : Holds map rs) (rs' : List (Registration ν))
    : Holds (registerCmds map rs').1 (rs ++ rs')
      ∧ ∀ i r, rs'[i]? = some r
          → (registerCmds map rs').2[i]? = some (r.strdup && (firstStored (rs ++ rs'.take i) r.key).isNone) := by
  induction rs' generalizing map rs with
  | nil => exact ⟨by rwa [List.append_nil], by simp⟩
  | cons r rs' ih =>
    obtain ⟨hfirst, hresult⟩ := h.register r
    obtain ⟨hrest, hresults⟩ := ih hfirst
    rw [List.append_assoc, List.singleton_append] at hrest
    refine ⟨hrest, ?_⟩
    intro i r' hr'
    cases i with
    | zero =>
      cases hr'
      rw [List.take_zero, List.append_nil, ← hresult]
      rfl
    | succ i =>
      have hi := hresults i r' hr'
      rw [List.append_assoc, List.singleton_append] at hi
      exact hi

/-! ### The table as the handlers see it -/

def commands (map : Hashmap strKeys ν) : List (Bytes × ν) :=
  map.bindings.filterMap fun p => p.2.map fun callback => (cstr p.1, callback)

theorem commands_names_sublist (map : Hashmap strKeys ν)
    : ((commands map).map Prod.fst).Sublist (map.bindings.map fun p => strKeys.content p.1) := by
  unfold commands
  induction map.bindings with
  | nil => exact List.Sublist.refl _
  | cons p ps ih =>
    obtain ⟨key, value⟩ := p
    cases value with
    | none => exact ih.cons _
    | some callback => exact ih.cons_cons _

theorem mem_commands (h : map.WF) (name : Bytes) (callback : ν)
    : (name, callback) ∈ commands map ↔ map.toFinmap.lookup name = some (some callback) := by
  rw [h.mem_bindings]
  unfold commands
  simp only [List.mem_filterMap, Option.map_eq_some_iff, Prod.mk.injEq]
  constructor
  . intro ⟨p, hp, cb, hvalue, hname, hcb⟩
    rw [hcb] at hvalue
    exact ⟨p.1, hvalue ▸ hp, hname⟩
  . intro ⟨key, hmem, hname⟩
    exact ⟨(key, some callback), hmem, callback, rfl, hname, rfl⟩

theorem Holds.lookup_commands (h : Holds map rs) {name : Bytes} (hname : 0 ∉ name)
    : (commands map).lookup name = (firstStored rs name).map (·.callback) := by
  have hnodup : ((commands map).map Prod.fst).Nodup :=
    (commands_names_sublist map).nodup h.wf.bindings_nodup
  have hlookup := h.lookup name
  rw [cstr_of_not_mem hname] at hlookup
  apply Option.ext
  intro callback
  rw [List.lookup_eq_some_iff_mem hnodup, mem_commands h.wf, hlookup]
  simp

theorem holds_create {mem : Memory} (hcreate : hashmapCreate strKeys ν 8 mem = some map) : Holds map [] := by
  obtain ⟨hwf, hempty, -⟩ := hashmapCreate_eq hcreate
  refine ⟨hwf, ?_⟩
  intro name
  rw [toFinmap_of_nil hempty]
  rfl

/--
The first registration of a name that is stored stays: later ones are refused. One that was not stored for want
of an entry has been told that all is well. The handlers find in the list of the commands what the table holds,
and the list has every name once.
-/
theorem registerCmds_spec {mem : Memory} (hcreate : hashmapCreate strKeys ν 8 mem = some map)
    (rs : List (Registration ν))
    : (∀ name, hashmapGet (registerCmds map rs).1 name = (firstStored rs name).map (·.callback))
      ∧ (∀ i r, rs[i]? = some r
          → (registerCmds map rs).2[i]? = some (r.strdup && (firstStored (rs.take i) r.key).isNone))
      ∧ ((commands (registerCmds map rs).1).map Prod.fst).Nodup
      ∧ ∀ name, 0 ∉ name
          → (commands (registerCmds map rs).1).lookup name = hashmapGet (registerCmds map rs).1 name := by
  obtain ⟨hholds, hresults⟩ := (holds_create hcreate).registerCmds rs
  refine ⟨hholds.hashmapGet_eq, hresults, ?_, ?_⟩
  . exact (commands_names_sublist _).nodup hholds.wf.bindings_nodup
  . intro name hname
    rw [hholds.lookup_commands hname, hholds.hashmapGet_eq]

theorem registerCmds_spec_fw
    : hashmapCreate strKeys Nat 8 ⟨true, true⟩ = some ⟨List.replicate 16 [], 0⟩
      ∧ hashmapGet (registerCmds (Hashmap.mk (List.replicate 16 []) 0 : Hashmap strKeys Nat)
          [⟨str "fw", 1, false, ⟨true, true⟩⟩, ⟨str "fw", 2, true, ⟨false, true⟩⟩,
            ⟨str "fw", 3, true, ⟨true, true⟩⟩, ⟨str "fw", 4, true, ⟨true, true⟩⟩]).1 (str "fw") = some 3 := by
  have hcreate : hashmapCreate strKeys Nat 8 ⟨true, true⟩ = some ⟨List.replicate 16 [], 0⟩ := rfl
  refine ⟨hcreate, ?_⟩
  rw [(registerCmds_spec hcreate _).1]
  decide

end Aboot
