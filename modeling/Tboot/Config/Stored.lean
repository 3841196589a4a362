import Tboot.Config.Lemmas
import Tboot.Hashmap.Lemmas.Calls

/-!
This module contains `tboot_config` as the hash map that it is, with memory that may be missing for each of its
entries, and the comparison with the table of `Config.loadConfig`.
-/

namespace Config.Stored

open Hashmap

abbrev Map := Hashmap strKeys Bytes

def tbootConfigGet (tbootConfig : Option Map) (key : Bytes) : Option Bytes :=
  match tbootConfig with
  | none => none
  | some map =>
    if !hashmapContainsKey map key then
      none
    else
      hashmapGet map key

def tbootConfigSet (map : Map) (key : Bytes) (value : Option Bytes) (mem : Hashmap.Memory) : Map :=
  if tcKeys.contains (cstr key) then (hashmapPut map key value mem).1 else map

def putDefaults (mem : Bytes → Hashmap.Memory) (map : Map) : Map :=
  (tcKeys.zip tcValues).foldl (fun map (key, value) => (hashmapPut map key value (mem key)).1) map

def setFrom (data : Bytes) (mem : Bytes → Hashmap.Memory) (key : Bytes) (map : Map) : Scan Map := do
  match ← configParserGet data key with
  | none => return map
  | some value => return tbootConfigSet map key (some value) (mem key)

structure LoadMemory where
  parser : Config.Memory
  create : Hashmap.Memory
  defaults : Bytes → Hashmap.Memory
  values : Bytes → Hashmap.Memory

def loadConfig (file : File) (mem : LoadMemory) (save : Bytes) : Option (Option Map) :=
  match configParserInit file mem.parser with
  | .undefined => none
  | .null => some none
  | .ready data =>
    match hashmapCreate strKeys Bytes 12 mem.create with
    | none => some none
    | some map =>
      -- The values of the file are looked for in the order of `tc_keys`.
      some (some (tcKeys.foldlM (fun map key => setFrom data mem.values key map)
        (putDefaults mem.defaults map) save).1)

structure SetCall where
  key : Bytes
  value : Option Bytes
  mem : Hashmap.Memory

def setAll (map : Map) (sets : List SetCall) : Map :=
  sets.foldl (fun map set => tbootConfigSet map set.key set.value set.mem) map

/--
The map holds what the table does. What it lacks is a key for whose default value there was no memory, which
`mem` tells.
-/
structure Agrees (mem : Bytes → Hashmap.Memory) (map : Map) (table : Table) : Prop where
  wf : map.WF
  lookup : ∀ c, map.toFinmap.lookup c = table.lookup c
    ∨ (map.toFinmap.lookup c = none ∧ (mem c).malloc = false)

variable {mem : Bytes → Hashmap.Memory} {map : Map} {table : Table}

theorem Agrees.put (h : Agrees mem map table) (key : Bytes) (value : Option Bytes) {m : Hashmap.Memory}
    (hm : cstr key ∈ table ∨ m = mem (cstr key))
    : Agrees mem (hashmapPut map key value m).1 (table.insert (cstr key) value) := by
  obtain ⟨hwf, hput⟩ := h.wf.hashmapPut key value m
  have hmap : (hashmapPut map key value m).1.toFinmap
      = (FiniteMap.put map.toFinmap (cstr key) value m).1 := congrArg Prod.fst hput
  refine ⟨hwf, ?_⟩
  intro c
  rw [hmap]
  by_cases hc : c = cstr key
  . subst hc
    rw [AList.lookup_insert]
    cases FiniteMap.lookup_put_self (cstr key) map.toFinmap value m with
    | inl hnew => exact Or.inl hnew
    | inr hsame =>
      obtain ⟨hnone, hmalloc, hsame⟩ := hsame
      rw [hsame]
      refine Or.inr ⟨hnone, ?_⟩
      cases hm with
      | inr hm => rw [← hm, hmalloc]
      | inl hmem =>
        -- A key of the table that the map lacks has lost its memory before.
        cases h.lookup (cstr key) with
        | inr hlost => exact hlost.2
        | inl heq =>
          rw [hnone] at heq
          exact absurd hmem (AList.lookup_eq_none.mp heq.symm)
  . rw [AList.lookup_insert_ne hc, FiniteMap.lookup_put_ne hc]
    exact h.lookup c

theorem Agrees.putDefaults (h : Agrees mem map ∅) : Agrees mem (putDefaults mem map) defaults := by
  have hcstr : ∀ entry ∈ tcKeys.zip tcValues, cstr entry.1 = entry.1 := by decide
  unfold Stored.putDefaults defaults
  generalize tcKeys.zip tcValues = entries at hcstr ⊢
  generalize (∅ : Table) = table at h ⊢
  induction entries generalizing map table with
  | nil => exact h
  | cons entry entries ih =>
    have hkey := hcstr entry List.mem_cons_self
    have hput := h.put entry.1 entry.2 (Or.inr rfl)
    rw [hkey] at hput
    exact ih (fun e he => hcstr e (List.mem_cons_of_mem entry he)) _ hput

def Full (table : Table) : Prop :=
  ∀ key ∈ tcKeys, key ∈ table

theorem Full.set (h : Full table) (key : Bytes) (value : Option Bytes)
    : Full (Config.tbootConfigSet table key value) := by
  intro k hk
  unfold Config.tbootConfigSet
  split
  . exact (AList.mem_insert _).mpr (Or.inr (h k hk))
  . exact h k hk

theorem Agrees.set (h : Agrees mem map table) (hfull : Full table) (key : Bytes) (value : Option Bytes)
    (m : Hashmap.Memory)
    : Agrees mem (tbootConfigSet map key value m) (Config.tbootConfigSet table (cstr key) value) := by
  unfold tbootConfigSet Config.tbootConfigSet
  rw [List.contains_eq_mem]
  by_cases hkey : cstr key ∈ tcKeys
  . rw [if_pos (decide_eq_true hkey), if_pos hkey]
    exact h.put key value (Or.inl (hfull _ hkey))
  . rw [if_neg (by simpa using hkey), if_neg hkey]
    exact h

theorem Agrees.setFrom (h : Agrees mem map table) (hfull : Full table) {key : Bytes} (hkey : cstr key = key)
    (data : Bytes) (values : Bytes → Hashmap.Memory) (save : Bytes)
    : Agrees mem (Stored.setFrom data values key map save).1 (Config.setFrom data key table save).1
      ∧ Full (Config.setFrom data key table save).1
      ∧ (Stored.setFrom data values key map save).2 = (Config.setFrom data key table save).2 := by
  unfold Stored.setFrom Config.setFrom
  rw [Scan.bind_apply, Scan.bind_apply]
  cases (configParserGet data key save).1 with
  | none => exact ⟨h, hfull, rfl⟩
  | some value =>
    have hset := h.set hfull key (some value) (values key)
    rw [hkey] at hset
    exact ⟨hset, hfull.set key (some value), rfl⟩

theorem Agrees.parseValues (h : Agrees mem map table) (hfull : Full table) {keys : List Bytes}
    (hkeys : ∀ key ∈ keys, cstr key = key) (data : Bytes) (values : Bytes → Hashmap.Memory) (save : Bytes)
    : Agrees mem (keys.foldlM (fun map key => Stored.setFrom data values key map) map save).1
        (keys.foldlM (fun table key => Config.setFrom data key table) table save).1
      ∧ Full (keys.foldlM (fun table key => Config.setFrom data key table) table save).1 := by
  induction keys generalizing map table save with
  | nil => exact ⟨h, hfull⟩
  | cons key keys ih =>
    obtain ⟨hset, hfull', hsave⟩ := h.setFrom hfull (hkeys key List.mem_cons_self) data values save
    rw [List.foldlM_cons, List.foldlM_cons, Scan.bind_apply, Scan.bind_apply, hsave]
    exact ih hset hfull' (fun k hk => hkeys k (List.mem_cons_of_mem key hk)) _

theorem Agrees.setAll (h : Agrees mem map table) (hfull : Full table) (sets : List SetCall)
    : Agrees mem (setAll map sets)
        (sets.foldl (fun table set => Config.tbootConfigSet table (cstr set.key) set.value) table) := by
  unfold Stored.setAll
  induction sets generalizing map table with
  | nil => exact h
  | cons set sets ih => exact ih (h.set hfull set.key set.value set.mem) (hfull.set (cstr set.key) set.value)

theorem tbootConfigGet_eq (h : map.WF) (key : Bytes)
    : tbootConfigGet (some map) key = (map.toFinmap.lookup (cstr key)).join := by
  have hget : hashmapGet map key = (map.toFinmap.lookup (cstr key)).join := h.hashmapGet_eq key
  have hcontains := h.hashmapContainsKey_eq key
  unfold tbootConfigGet
  dsimp only
  rw [hget]
  split
  . next hnot =>
    rw [hcontains] at hnot
    simp only [Bool.not_eq_true', decide_eq_false_iff_not, ← Finmap.lookup_eq_none] at hnot
    exact (congrArg Option.join hnot).symm
  . rfl

theorem Agrees.get (h : Agrees mem map table) (key : Bytes)
    : tbootConfigGet (some map) key = Config.tbootConfigGet (some table) (cstr key)
      ∨ (tbootConfigGet (some map) key = none ∧ (mem (cstr key)).malloc = false) := by
  rw [tbootConfigGet_eq h.wf]
  unfold Config.tbootConfigGet
  dsimp only
  cases h.lookup (cstr key) with
  | inl heq =>
    rw [heq]
    cases table.lookup (cstr key)
    all_goals exact Or.inl rfl
  | inr hlost =>
    rw [hlost.1]
    exact Or.inr ⟨rfl, hlost.2⟩

def LoadMemory.plain (mem : LoadMemory) : Config.Memory :=
  { mem.parser with hashmapCreate := (hashmapCreate strKeys Bytes 12 mem.create).isSome }

theorem full_defaults : Full defaults := by
  unfold Full
  decide

theorem agrees_empty (mem : Bytes → Hashmap.Memory) (h : map.WF) (hempty : map.entries = []) : Agrees mem map ∅ := by
  refine ⟨h, ?_⟩
  intro c
  rw [toFinmap_of_nil hempty]
  exact Or.inl rfl

/--
`load_config` fails with the hash map exactly when it does with the table. Else, whatever is set later on, a key
has the value that it has in the table; or it has none, and there was no memory for its default value. The
values of the file and all later ones need no memory.
-/
theorem loadConfig_stored (file : File) (mem : LoadMemory) (save : Bytes)
    : Option.Rel (Option.Rel fun map table => ∀ (sets : List SetCall) (key : Bytes),
        tbootConfigGet (some (setAll map sets)) key
            = Config.tbootConfigGet
                (some (sets.foldl (fun table set => Config.tbootConfigSet table (cstr set.key) set.value) table))
                (cstr key)
          ∨ (tbootConfigGet (some (setAll map sets)) key = none ∧ (mem.defaults (cstr key)).malloc = false))
        (loadConfig file mem save) (Config.loadConfig file mem.plain save) := by
  have hcstr : ∀ key ∈ tcKeys, cstr key = key := by decide
  have hinit : configParserInit file mem.plain = configParserInit file mem.parser := rfl
  have hplain : mem.plain.hashmapCreate = (hashmapCreate strKeys Bytes 12 mem.create).isSome := rfl
  unfold loadConfig Config.loadConfig
  rw [hinit, hplain]
  cases configParserInit file mem.parser with
  | undefined => exact Option.Rel.none
  | null => exact Option.Rel.some Option.Rel.none
  | ready data =>
    dsimp only
    rw [parseValues_eq]
    cases hcreate : hashmapCreate strKeys Bytes 12 mem.create with
    | none => exact Option.Rel.some Option.Rel.none
    | some map =>
      apply Option.Rel.some
      apply Option.Rel.some
      intro sets key
      obtain ⟨hwf, hempty, -⟩ := hashmapCreate_eq hcreate
      have hdefaults := (agrees_empty mem.defaults hwf hempty).putDefaults
      obtain ⟨hagrees, hfull⟩ := hdefaults.parseValues full_defaults hcstr data mem.values save
      exact (hagrees.setAll hfull sets).get key

end Config.Stored
