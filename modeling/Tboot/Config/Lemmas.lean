import Tboot.Config.Impl

/-!
This module contains what tboot's configuration is after `load_config`, for every state of the config file:
a file that can be parsed gives every key its value or its default, and any other leaves no table at all.
-/

namespace Config

/-! ### The values that a file gives -/

def uncomment (line : Bytes) : Bytes :=
  line.takeWhile (· ≠ 35)

def configLines (text : Bytes) : List Bytes :=
  (text.splitOn 10).map uncomment

def valueIn (lines : List Bytes) (key : Bytes) : Option Bytes :=
  (lines.find? fun line => (tokens delim line).head? = some key).bind fun line => (tokens delim line).tail.head?

def File.text : File → Bytes
  | .opened _ (some bytes) => bytes
  | _ => []

def File.data (mem : Memory) : File → Bytes
  | .opened _ read => dataAfterRead mem read
  | _ => []

def File.len : File → Nat
  | .opened _ read => readLen read
  | _ => 0

/-- The lines that are looked up, where the string in memory need not end with the file -/
def linesInMemory (file : File) (mem : Memory) : List Bytes :=
  (removeComments file.len (cstr (file.data mem))).splitOn 10

/-- With either lines, every key has the same value or default. -/
def SameValues (lines lines' : List Bytes) : Prop :=
  ∀ entry ∈ tcKeys.zip tcValues, (valueIn lines entry.1).or entry.2 = (valueIn lines' entry.1).or entry.2

/-- Every key has its value, and none but `ui_conf` is null. -/
structure Total (file : File) (config : Option Table) : Prop where
  nonNull : ∀ key ∈ tcKeys, key ≠ str "ui_conf" → (tbootConfigGet config key).isSome = true
  values : ∀ entry ∈ tcKeys.zip tcValues,
    tbootConfigGet config entry.1 = (valueIn (configLines file.text) entry.1).or entry.2

structure Parsed (file : File) (mem : Memory) : Prop where
  file : ∃ size read, file = .opened size read ∧ size ≠ 0 ∧ readLen read ≠ 0
  mallocCp : mem.mallocCp = true
  mallocData : mem.mallocData = true
  hashmapCreate : mem.hashmapCreate = true

/-- The text is a string in memory: it has no zero in it, and one behind it. -/
structure Terminated (file : File) (mem : Memory) : Prop where
  text : 0 ∉ file.text
  behind : (mem.heap.drop file.text.length).head? = some 0

/-! ### Comments -/

mutual

def strip : Bytes → Bytes
  | [] => []
  | c :: s => if c = 35 then skip s else c :: strip s

def skip : Bytes → Bytes
  | [] => []
  | c :: s => if c = 10 then 10 :: strip s else skip s

end

theorem strip_append {before : Bytes} (h : 35 ∉ before) (s : Bytes)
    : strip (before ++ s) = before ++ strip s := by
  induction before with
  | nil => rfl
  | cons c before ih =>
    rw [List.mem_cons, not_or] at h
    rw [List.cons_append, strip, if_neg (Ne.symm h.1), ih h.2, List.cons_append]

theorem skip_append {text : Bytes} (h : 10 ∉ text) (s : Bytes) : skip (text ++ s) = skip s := by
  induction text with
  | nil => rfl
  | cons c text ih =>
    rw [List.mem_cons, not_or] at h
    rw [List.cons_append, skip, if_neg (Ne.symm h.1), ih h.2]

theorem removeComments_of_not_mem {len : Nat} {dst : Bytes} (h : 35 ∉ dst) : removeComments len dst = dst := by
  rw [removeComments]
  split
  . rfl
  . next hash comment hdst =>
    have hsplit := eq_append_of_drop_takeWhile_ne hdst
    rw [hsplit] at h
    simp at h

theorem removeComments_eq_strip {len : Nat} {dst : Bytes} (hlen : dst.length ≤ len)
    : removeComments len dst = strip dst := by
  fun_induction removeComments len dst with
  | case1 dst before hdst =>
    obtain ⟨_, hnot⟩ := not_mem_of_drop_takeWhile_ne hdst
    have hstrip := strip_append hnot []
    rw [List.append_nil] at hstrip
    rw [hstrip]
    simp [strip]
  | case2 dst before hash comment hdst text hsrc =>
    have hsplit : dst = before ++ 35 :: comment := eq_append_of_drop_takeWhile_ne hdst
    obtain ⟨_, hnot⟩ := not_mem_of_drop_takeWhile_ne hsrc
    rw [List.mem_cons, not_or] at hnot
    have hskip := skip_append hnot.2 []
    rw [List.append_nil] at hskip
    rw [hsplit, strip_append (not_mem_takeWhile_ne 35 dst), strip, if_pos rfl, hskip, skip, List.append_nil]
  | case3 dst before hash comment hdst text newline rest hsrc moved hlt ih =>
    have hsplit : dst = before ++ 35 :: comment := eq_append_of_drop_takeWhile_ne hdst
    have hash_eq : hash = 35 := eq_of_drop_takeWhile_ne hdst
    have newline_eq : newline = 10 := eq_of_drop_takeWhile_ne hsrc
    have htext : text = hash :: comment.takeWhile (· ≠ 10) :=
      List.takeWhile_cons_of_pos (by rw [hash_eq]; decide)
    have hcomment : comment = comment.takeWhile (· ≠ 10) ++ 10 :: rest := by
      have happend : hash :: comment = text ++ 10 :: rest := eq_append_of_drop_takeWhile_ne hsrc
      rw [htext] at happend
      exact List.tail_eq_of_cons_eq happend
    have hskip : skip comment = 10 :: strip rest := by
      rw [hcomment, skip_append (not_mem_takeWhile_ne 10 comment), skip, if_pos rfl]
    have hmoved : moved = rest := by
      have hdstlen := congrArg List.length hsplit
      have hcommentlen := congrArg List.length hcomment
      simp only [List.length_append, List.length_cons] at hdstlen hcommentlen
      exact if_pos (by omega)
    rw [hmoved] at hlt ih
    rw [hmoved, newline_eq, ih (by omega), hsplit, strip_append (not_mem_takeWhile_ne 35 dst), strip,
      if_pos rfl, hskip]

theorem splitOn_strip (s : Bytes)
    : (strip s).splitOn 10 = (s.splitOn 10).map uncomment
        ∧ (skip s).splitOn 10 = [] :: (s.splitOn 10).tail.map uncomment := by
  induction s with
  | nil => exact ⟨rfl, rfl⟩
  | cons c s ih =>
    obtain ⟨ihstrip, ihskip⟩ := ih
    have hne := List.splitOn_ne_nil 10 s
    obtain ⟨line, lines, hlines⟩ := List.exists_cons_of_ne_nil hne
    rw [hlines] at ihstrip ihskip
    rw [List.splitOn_cons_eq_if_modifyHead, hlines]
    by_cases hnewline : c = 10
    . subst hnewline
      have hstrip : strip (10 :: s) = 10 :: strip s := rfl
      have hskip : skip (10 :: s) = 10 :: strip s := rfl
      rw [hstrip, hskip, List.splitOn_cons_eq_if_modifyHead, ihstrip]
      exact ⟨rfl, rfl⟩
    . have hbeq : (c == 10) = false := by simpa using hnewline
      rw [hbeq, skip, if_neg hnewline, strip]
      refine ⟨?_, ihskip⟩
      by_cases hhash : c = 35
      . subst hhash
        rw [if_pos rfl, ihskip]
        rfl
      . rw [if_neg hhash, List.splitOn_cons_eq_if_modifyHead, ihstrip, hbeq]
        simp [uncomment, hhash]

theorem splitOn_removeComments {len : Nat} {text : Bytes} (hlen : text.length ≤ len)
    : (removeComments len text).splitOn 10 = configLines text := by
  rw [removeComments_eq_strip hlen, (splitOn_strip text).1]
  rfl

/-! ### Values -/

theorem valueIn_cons (line : Bytes) (lines : List Bytes) (key : Bytes)
    : valueIn (line :: lines) key
        = if (tokens delim line).head? = some key then (tokens delim line).tail.head? else valueIn lines key := by
  unfold valueIn
  rw [List.find?_cons]
  split
  . next h => rw [if_pos (of_decide_eq_true h), Option.bind_some]
  . next h => rw [if_neg (of_decide_eq_false h)]

theorem configParserGet_last {data : Bytes} (hend : data.drop (data.takeWhile (· ≠ 10)).length = [])
    (key : Bytes)
    : configParserGet data key
        = strtok (some (data.takeWhile (· ≠ 10))) delim >>= fun tok1 =>
            if tok1 = some key then strtok none delim else pure none := by
  rw [configParserGet]
  apply bind_congr
  intro tok1
  split
  . rfl
  . split
    . rfl
    . next c next hnext =>
      rw [hend] at hnext
      contradiction

theorem configParserGet_next {data next : Bytes} {c : UInt8}
    (hend : data.drop (data.takeWhile (· ≠ 10)).length = c :: next) (key : Bytes)
    : configParserGet data key
        = strtok (some (data.takeWhile (· ≠ 10))) delim >>= fun tok1 =>
            if tok1 = some key then strtok none delim else configParserGet next key := by
  rw [configParserGet]
  apply bind_congr
  intro tok1
  split
  . rfl
  . split
    . next hnil =>
      rw [hend] at hnil
      contradiction
    . next c next' hnext =>
      rw [hend] at hnext
      cases hnext
      rfl

theorem lookup_line {line key save : Bytes} {lines : List Bytes} {rest : Scan (Option Bytes)}
    (hrest : ∀ save, (rest save).1 = valueIn lines key)
    : ((strtok (some line) delim >>= fun tok1 => if tok1 = some key then strtok none delim else rest) save).1
        = valueIn (line :: lines) key := by
  rw [Scan.bind_apply, valueIn_cons]
  rcases h1 : strtok (some line) delim save with ⟨tok1, left⟩
  obtain ⟨e1, r1⟩ := strtok_cases h1
  rw [Option.getD_some] at e1 r1
  rw [← e1]
  dsimp only
  split
  . rw [(strtok_spec none delim left).1, Option.getD_none, r1]
  . exact hrest left

theorem configParserGet_spec (data key save : Bytes)
    : (configParserGet data key save).1 = valueIn (data.splitOn 10) key := by
  induction hlen : data.length using Nat.strongRecOn generalizing data save with
  | ind n ih =>
    subst hlen
    cases hend : data.drop (data.takeWhile (· ≠ 10)).length with
    | nil =>
      rw [configParserGet_last hend, splitOn_of_drop_takeWhile_nil hend]
      apply lookup_line
      intro _
      rfl
    | cons c next =>
      rw [configParserGet_next hend, splitOn_of_drop_takeWhile_cons hend]
      apply lookup_line
      intro save
      apply ih next.length _ next save rfl
      have hlen := congrArg List.length hend
      simp only [List.length_drop, List.length_cons] at hlen
      omega

theorem setFrom_spec {key : Bytes} (hkey : key ∈ tcKeys) (data save : Bytes) (table : Table)
    : (setFrom data key table save).1
        = match valueIn (data.splitOn 10) key with
          | some value => table.insert key (some value)
          | none => table := by
  unfold setFrom
  rw [Scan.bind_apply, ← configParserGet_spec data key save]
  cases (configParserGet data key save).1 with
  | none => rfl
  | some value => exact if_pos hkey

theorem setFrom_lookup {keys : List Bytes} (hkeys : ∀ key ∈ keys, key ∈ tcKeys) (data save key : Bytes)
    (table : Table)
    : (keys.foldlM (fun table key => setFrom data key table) table save).1.lookup key
        = if key ∈ keys then
            match valueIn (data.splitOn 10) key with
            | some value => some (some value)
            | none => table.lookup key
          else
            table.lookup key := by
  induction keys generalizing table save with
  | nil => rfl
  | cons first keys ih =>
    rw [List.foldlM_cons, Scan.bind_apply, ih (fun key hkey => hkeys key (List.mem_cons_of_mem first hkey)),
      setFrom_spec (hkeys first List.mem_cons_self)]
    by_cases hfirst : key = first
    . subst hfirst
      cases valueIn (data.splitOn 10) key with
      | none => simp
      | some value => simp
    . have hsame : (match valueIn (data.splitOn 10) first with
          | some value => table.insert first (some value)
          | none => table).lookup key = table.lookup key := by
        cases valueIn (data.splitOn 10) first with
        | none => rfl
        | some value => exact AList.lookup_insert_ne hfirst
      rw [hsame]
      simp [hfirst]

theorem parseValues_eq (data : Bytes) (table : Table)
    : parseValues data table = tcKeys.foldlM (fun table key => setFrom data key table) table :=
  rfl

theorem defaults_lookup : ∀ entry ∈ tcKeys.zip tcValues, defaults.lookup entry.1 = some entry.2 := by
  decide

theorem entry_of_key : ∀ key ∈ tcKeys, ∃ entry ∈ tcKeys.zip tcValues, entry.1 = key := by
  decide

theorem default_isSome : ∀ entry ∈ tcKeys.zip tcValues, entry.1 ≠ str "ui_conf" → entry.2.isSome = true := by
  decide

theorem key_of_entry : ∀ entry ∈ tcKeys.zip tcValues, entry.1 ∈ tcKeys := by
  decide

theorem parseValues_get {entry : Bytes × Option Bytes} (hentry : entry ∈ tcKeys.zip tcValues) (data save : Bytes)
    : tbootConfigGet (some (parseValues data defaults save).1) entry.1
        = (valueIn (data.splitOn 10) entry.1).or entry.2 := by
  unfold tbootConfigGet
  dsimp only
  rw [parseValues_eq, setFrom_lookup (fun _ h => h), if_pos (key_of_entry entry hentry),
    defaults_lookup entry hentry]
  cases valueIn (data.splitOn 10) entry.1
  all_goals rfl

theorem total_iff_sameValues (file : File) (data save : Bytes)
    : Total file (some (parseValues data defaults save).1)
        ↔ SameValues (data.splitOn 10) (configLines file.text) := by
  constructor
  . intro h entry hentry
    rw [← parseValues_get hentry data save]
    exact h.values entry hentry
  . intro h
    have hvalues (entry : Bytes × Option Bytes) (hentry : entry ∈ tcKeys.zip tcValues)
        : tbootConfigGet (some (parseValues data defaults save).1) entry.1
            = (valueIn (configLines file.text) entry.1).or entry.2 := by
      rw [parseValues_get hentry data save]
      exact h entry hentry
    refine ⟨?_, hvalues⟩
    intro key hkey hui
    obtain ⟨entry, hentry, rfl⟩ := entry_of_key key hkey
    rw [hvalues entry hentry]
    cases valueIn (configLines file.text) entry.1 with
    | none => exact default_isSome entry hentry hui
    | some value => rfl

/-! ### The file in memory -/

theorem dataAfterRead_eq (size : Nat) (read : Option Bytes) (mem : Memory)
    : dataAfterRead mem read
        = File.text (.opened size read) ++ mem.heap.drop (File.text (.opened size read)).length := by
  cases read
  all_goals rfl

theorem cstr_dataAfterRead {size : Nat} {read : Option Bytes} {mem : Memory}
    (h : Terminated (.opened size read) mem)
    : 0 ∈ dataAfterRead mem read ∧ cstr (dataAfterRead mem read) = File.text (.opened size read) := by
  obtain ⟨rest, hrest⟩ := List.head?_eq_some_iff.mp h.behind
  rw [dataAfterRead_eq size, hrest]
  exact ⟨by simp, cstr_append_zero h.text rest⟩

theorem text_length_le {size : Nat} {read : Option Bytes}
    : (File.text (.opened size read)).length ≤ readLen read := by
  cases read with
  | none => exact Nat.zero_le _
  | some bytes => exact Nat.le_refl _

def LoadsTotal (file : File) (mem : Memory) (save : Bytes) : Prop :=
  ∃ config, loadConfig file mem save = some config ∧ Total file config

theorem loadConfig_of_parsed {file : File} {mem : Memory} (h : Parsed file mem) (save : Bytes)
    : (0 ∈ file.data mem → loadConfig file mem save
          = some (some (parseValues (removeComments file.len (cstr (file.data mem))) defaults save).1))
        ∧ (0 ∉ file.data mem → loadConfig file mem save = none) := by
  obtain ⟨⟨size, read, rfl, hsize, hread⟩, hcp, hdata, hmap⟩ := h
  constructor
  all_goals
    intro hzero
    unfold File.data at hzero
    dsimp only at hzero
    unfold loadConfig configParserInit
    simp only [hsize, hcp, hdata, hread, hzero, hmap, Bool.not_true, Bool.false_eq_true, ↓reduceIte]
  rfl

theorem loadsTotal_iff_of_parsed {file : File} {mem : Memory} (h : Parsed file mem) (save : Bytes)
    : LoadsTotal file mem save
        ↔ 0 ∈ file.data mem ∧ SameValues (linesInMemory file mem) (configLines file.text) := by
  obtain ⟨hready, hundefined⟩ := loadConfig_of_parsed h save
  constructor
  . rintro ⟨config, hload, htotal⟩
    by_cases hzero : 0 ∈ file.data mem
    . rw [hready hzero] at hload
      cases hload
      exact ⟨hzero, (total_iff_sameValues _ _ _).mp htotal⟩
    . rw [hundefined hzero] at hload
      contradiction
  . rintro ⟨hzero, hsame⟩
    exact ⟨_, hready hzero, (total_iff_sameValues _ _ _).mpr hsame⟩

theorem loadsTotal_iff_of_cstr {file : File} {mem : Memory} (h : Parsed file mem) {text : Bytes}
    (hzero : 0 ∈ file.data mem) (hcstr : cstr (file.data mem) = text) (hlen : text.length ≤ file.text.length)
    (save : Bytes) : LoadsTotal file mem save ↔ SameValues (configLines text) (configLines file.text) := by
  have hlines : linesInMemory file mem = configLines text := by
    obtain ⟨⟨size, read, rfl, _⟩, _⟩ := h
    unfold linesInMemory
    rw [hcstr]
    exact splitOn_removeComments (Nat.le_trans hlen text_length_le)
  rw [loadsTotal_iff_of_parsed h, hlines, and_iff_right hzero]

theorem loadsTotal_of_terminated {file : File} {mem : Memory} (h : Parsed file mem) (hterminated : Terminated file mem)
    (save : Bytes) : LoadsTotal file mem save := by
  have hstring : 0 ∈ file.data mem ∧ cstr (file.data mem) = file.text := by
    obtain ⟨⟨size, read, rfl, _⟩, _⟩ := h
    exact cstr_dataAfterRead hterminated
  apply (loadsTotal_iff_of_cstr h hstring.1 hstring.2 (Nat.le_refl _) save).mpr
  intro _ _
  rfl

theorem loadsTotal_iff_of_zero {file : File} {mem : Memory} (h : Parsed file mem) (hzero : 0 ∈ file.text) (save : Bytes)
    : LoadsTotal file mem save ↔ SameValues (configLines (cstr file.text)) (configLines file.text) := by
  have hdata : ∃ rest, file.data mem = cstr file.text ++ 0 :: rest := by
    obtain ⟨rest, hrest⟩ := eq_cstr_append hzero
    obtain ⟨⟨size, read, rfl, _⟩, _⟩ := h
    refine ⟨rest ++ mem.heap.drop (File.text (.opened size read)).length, ?_⟩
    rw [← List.cons_append, ← List.append_assoc, ← hrest]
    exact dataAfterRead_eq size read mem
  obtain ⟨rest, hdata⟩ := hdata
  have hcstr : cstr (file.data mem) = cstr file.text := by
    rw [hdata]
    exact cstr_append_zero (zero_not_mem_cstr _) _
  apply loadsTotal_iff_of_cstr h (by simp [hdata]) hcstr
  exact (List.takeWhile_prefix _).length_le

theorem not_total_none (file : File) : ¬Total file none := by
  intro h
  have hsome := h.nonNull (str "disk_conf") (by decide) (by decide)
  contradiction

theorem parsed_of_ready {file : File} {mem : Memory} {data : Bytes} (h : configParserInit file mem = .ready data)
    (hmap : mem.hashmapCreate = true) : Parsed file mem := by
  unfold configParserInit at h
  split at h
  . contradiction
  . split at h
    all_goals contradiction
  . next size read =>
    split at h
    . split at h
      all_goals contradiction
    . next hsize =>
      split at h
      . contradiction
      . next hcp =>
        split at h
        . contradiction
        . next hdata =>
          split at h
          . contradiction
          . next hread =>
            exact ⟨⟨size, read, rfl, hsize, hread⟩, by simpa using hcp, by simpa using hdata, hmap⟩

theorem not_loadsTotal_of_not_parsed {file : File} {mem : Memory} (h : ¬Parsed file mem) (save : Bytes)
    : ¬LoadsTotal file mem save := by
  rintro ⟨config, hload, htotal⟩
  unfold loadConfig at hload
  split at hload
  . contradiction
  . cases hload
    exact not_total_none file htotal
  . next data hready =>
    split at hload
    . cases hload
      exact not_total_none file htotal
    . next hmap => exact h (parsed_of_ready hready (by simpa using hmap))

/--
Where the text is a string in memory, the configuration is total just when the file can be parsed; and
where it cannot, it is not, whatever memory holds. A file with a zero in it counts up to there; without one the
lines go on into the memory behind the file, and have to agree with those of the file.
-/
theorem loadConfig_total_iff (file : File) (mem : Memory) (save : Bytes)
    : (Terminated file mem → (LoadsTotal file mem save ↔ Parsed file mem))
        ∧ (¬Parsed file mem → ¬LoadsTotal file mem save)
        ∧ (Parsed file mem → 0 ∈ file.text
          → (LoadsTotal file mem save ↔ SameValues (configLines (cstr file.text)) (configLines file.text)))
        ∧ (Parsed file mem
          → (LoadsTotal file mem save
            ↔ 0 ∈ file.data mem ∧ SameValues (linesInMemory file mem) (configLines file.text))) := by
  have hnot (h : ¬Parsed file mem) : ¬LoadsTotal file mem save := not_loadsTotal_of_not_parsed h save
  refine ⟨?_, hnot, fun h hzero => loadsTotal_iff_of_zero h hzero save, fun h => loadsTotal_iff_of_parsed h save⟩
  intro hterminated
  constructor
  . intro htotal
    by_contra hparsed
    exact hnot hparsed htotal
  . intro hparsed
    exact loadsTotal_of_terminated hparsed hterminated save

def enough (heap : Bytes) : Memory where
  cpNull := false
  mallocCp := true
  mallocData := true
  hashmapCreate := true
  heap := heap

def nfsFile : File :=
  .opened 43 (some (str "# boot\nenable_nfs = yes # sometimes\nrootfs\n"))

theorem loadConfig_total_nfs
    : Terminated nfsFile (enough (List.replicate 64 0)) ∧ Parsed nfsFile (enough (List.replicate 64 0))
        ∧ LoadsTotal nfsFile (enough (List.replicate 64 0)) [] := by
  have hterminated : Terminated nfsFile (enough (List.replicate 64 0)) := ⟨by decide, by decide⟩
  have hparsed : Parsed nfsFile (enough (List.replicate 64 0)) := ⟨⟨_, _, rfl, by decide, by decide⟩, rfl, rfl, rfl⟩
  exact ⟨hterminated, hparsed, ((loadConfig_total_iff _ _ _).1 hterminated).mpr hparsed⟩

/-- A missing file leaves every key null, and what lies behind the text in memory becomes part of a value. -/
theorem loadConfig_not_total
    : (loadConfig .cannotOpen (enough []) [] = some none
          ∧ (∀ key ∈ tcKeys, tbootConfigGet none key = none) ∧ ¬LoadsTotal .cannotOpen (enough []) [])
        ∧ loadConfig (.opened 0 (some [])) (enough []) [] = none
        ∧ ∃ table, loadConfig (.opened 9 (some (str "rootfs=/a"))) (enough (str "?????????b" ++ [0])) [] = some (some table)
          ∧ tbootConfigGet (some table) (str "rootfs") = some (str "/ab") := by
  have hentry : (str "rootfs", some (str "/dev/mmcblk1")) ∈ tcKeys.zip tcValues := by decide
  have hdata : removeComments 9 (str "rootfs=/ab") = str "rootfs=/ab" := removeComments_of_not_mem (by decide)
  have hload : loadConfig (.opened 9 (some (str "rootfs=/a"))) (enough (str "?????????b" ++ [0])) []
      = some (some (parseValues (removeComments 9 (str "rootfs=/ab")) defaults []).1) := rfl
  refine ⟨⟨rfl, fun _ _ => rfl, ?_⟩, rfl, _, hload, ?_⟩
  . rintro ⟨config, hnone, htotal⟩
    cases hnone
    exact not_total_none _ htotal
  . rw [hdata, parseValues_get hentry]
    decide

end Config
