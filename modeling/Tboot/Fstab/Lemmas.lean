import Tboot.Fstab.Load

/-!
This module contains what `load_volume_table` makes of a file: one volume for each well-formed line, in the
order of the file, behind the one for the ramdisk.
-/

namespace Fstab

/-! ### The table that a file describes -/

def optionalFields : List Bytes → Option Bytes × Option Bytes
  | [] => (none, none)
  | field :: rest => if field.head? = some 47 then (some field, rest.head?) else (none, some field)

def lengthOf (options : List Bytes) : Int :=
  (options.getLast?.map fun option => strtos 64 10 (option.drop 7)).getD 0

def describe (line : Bytes) : Option Volume :=
  let text := line.dropWhile isspace
  if text = [] ∨ text.head? = some 35 then
    none
  else
    match tokens (str " \t") text with
    | mountPoint :: fsType :: device :: rest =>
      let (device2, options) := optionalFields rest
      let options := tokens (str ",") (options.getD [])
      if options.all fun option => (str "length=").isPrefixOf option then
        some ⟨mountPoint, fsType, some device, device2, lengthOf options⟩
      else
        none
    | _ => none

def lines (file : Bytes) : List Bytes :=
  file.splitOn 10

def described (file : Bytes) : List Volume :=
  tmpVolume :: (lines file).filterMap describe

namespace Load

structure Holds (t : Table) (vs : List Volume) : Prop where
  num : t.numVolumes = vs.length
  room : t.numVolumes ≤ t.alloc
  volumes : t.volumes = vs.map some

namespace Holds

variable {t : Table} {vs : List Volume}

theorem double (h : Holds t vs) : Holds t.double vs := by
  refine ⟨h.num, ?_, ?_⟩
  . have halloc := t.alloc_double
    have hroom := h.room
    have hnum : t.double.numVolumes = t.numVolumes := rfl
    omega
  . rw [← h.volumes]
    exact List.take_append_of_le_length h.room

theorem grow (h : Holds t vs) : Holds t.grow vs ∧ t.grow.numVolumes < t.grow.alloc := by
  fun_induction Table.grow t with
  | case1 t hfull ih => exact ih h.double
  | case2 t hroom => exact ⟨h, Nat.lt_of_not_ge hroom⟩

theorem write (h : Holds t vs) (volume : Volume) : Holds (t.write volume) vs := by
  refine ⟨h.num, ?_, ?_⟩
  . have hroom := h.room
    simpa [Table.write, Table.alloc] using hroom
  . rw [← h.volumes]
    simp only [Table.volumes, Table.write]
    rw [List.take_set_of_le (Nat.le_refl _)]

theorem accept {volume : Volume} (h : Holds t vs) (hlt : t.numVolumes < t.alloc)
    : Holds (t.write volume).accept (vs ++ [volume]) := by
  refine ⟨by simp [Table.write, Table.accept, h.num], ?_, ?_⟩
  . have hset : (t.write volume).accept.alloc = t.alloc := List.length_set
    rw [hset]
    exact hlt
  . have hcell : (t.deviceVolumes.set t.numVolumes (some volume))[t.numVolumes]? = some (some volume) :=
      List.getElem?_set_self hlt
    have hvolumes := (h.write volume).volumes
    simp only [Table.volumes, Table.write, Table.accept] at hvolumes ⊢
    rw [List.take_add_one, hvolumes, hcell]
    simp

end Holds

theorem parseOptions_spec (options : Option Bytes) (volume : Volume) (save : Bytes)
    : match Fstab.parseOptions (tokens (str ",") (options.getD save)) volume.length with
      | some length => (parseOptions options volume save).1 = (true, { volume with length })
      | none => (parseOptions options volume save).1.1 = false := by
  fun_induction parseOptions options volume save with
  | case1 options volume save left h =>
    obtain ⟨hfirst, _⟩ := strtok_spec options (str ",") save
    rw [h] at hfirst
    rw [List.head?_eq_none_iff.mp hfirst.symm]
    rfl
  | case2 options volume save option left h hlt hlength ih =>
    obtain ⟨hfirst, hrest⟩ := strtok_spec options (str ",") save
    rw [h] at hfirst hrest
    rw [← List.cons_head?_tail hfirst.symm, ← hrest]
    rw [Fstab.parseOptions, if_pos hlength]
    exact ih
  | case3 options volume save option left h hlt hlength =>
    obtain ⟨hfirst, _⟩ := strtok_spec options (str ",") save
    rw [h] at hfirst
    rw [← List.cons_head?_tail hfirst.symm, Fstab.parseOptions, if_neg hlength]

theorem fillEntry_spec {t : Table} {vs : List Volume} (h : Holds t vs) {volume : Volume}
    (hlength : volume.length = 0) (options : Option Bytes) (save : Bytes)
    : Holds (fillEntry t volume options save).1
        (vs ++ ((Fstab.parseOptions (tokens (str ",") (options.getD save)) 0).map fun length =>
          { volume with length }).toList) := by
  obtain ⟨hgrow, hlt⟩ := h.grow
  have hspec := parseOptions_spec options volume save
  rw [hlength] at hspec
  unfold fillEntry
  rw [Scan.bind_apply]
  generalize parseOptions options volume save = r at hspec ⊢
  obtain ⟨⟨ok, filled⟩, left⟩ := r
  cases hparse : Fstab.parseOptions (tokens (str ",") (options.getD save)) 0 with
  | none =>
    rw [hparse] at hspec
    cases hspec
    rw [Option.map_none, Option.toList_none, List.append_nil]
    exact hgrow.write filled
  | some length =>
    rw [hparse] at hspec
    cases hspec
    exact hgrow.accept hlt

def restFields : List Bytes → Option Bytes × List Bytes
  | [] => (none, [])
  | token :: rest =>
    if token.head? = some 47 then
      (some token, (rest.take 1).flatMap (tokens (str ",")))
    else
      (none, tokens (str ",") token)

theorem parseLine_eq (buffer : Bytes)
    : parseLine buffer
        = let line := (cstr buffer).dropWhile isspace
          if line = [] ∨ line.head? = some 35 then
            none
          else
            match tokens seps line with
            | mountPoint :: fsType :: device :: rest =>
              (Fstab.parseOptions (restFields rest).2 0).map fun length =>
                ⟨mountPoint, fsType, some device, (restFields rest).1, length⟩
            | _ => none := by
  unfold parseLine
  dsimp only
  split
  . rfl
  . rw [← seps]
    rcases tokens seps ((cstr buffer).dropWhile isspace) with _ | ⟨a, _ | ⟨b, _ | ⟨c, _ | ⟨d, rest⟩⟩⟩⟩
    all_goals rfl

theorem restOfLine_spec {save left : Bytes} {device2 options : Option Bytes}
    (h : restOfLine save = ((device2, options), left))
    : (device2, tokens (str ",") (options.getD left)) = restFields (tokens seps save) := by
  unfold restOfLine at h
  rw [Scan.bind_apply] at h
  rcases h1 : strtok none seps save with ⟨field, s1⟩
  obtain ⟨e1, r1⟩ := strtok_cases h1
  rw [h1] at h
  rw [Option.getD_none] at e1 r1
  cases hts : tokens seps save with
  | nil =>
    rw [hts] at e1
    subst e1
    cases h
    have hleft := strtok_none (congrArg Prod.fst h1)
    rw [h1] at hleft
    cases hleft
    rfl
  | cons token rest =>
    rw [hts] at e1 r1
    subst e1
    dsimp only [List.head?_cons] at h
    rw [restFields]
    split
    . next hslash =>
      rw [if_pos hslash, Scan.bind_apply] at h
      rcases h2 : strtok none seps s1 with ⟨option, s2⟩
      obtain ⟨e2, r2⟩ := strtok_cases h2
      rw [Option.getD_none, r1] at e2
      rw [h2] at h
      cases h
      cases rest with
      | nil =>
        subst e2
        have hleft := strtok_none (congrArg Prod.fst h2)
        rw [h2] at hleft
        cases hleft
        rfl
      | cons option rest =>
        subst e2
        simp
    . next hslash =>
      rw [if_neg hslash] at h
      cases h
      rfl

theorem loadLine_spec {t : Table} {vs : List Volume} (h : Holds t vs) (buffer save : Bytes)
    : Holds (loadLine t buffer save).1 (vs ++ (parseLine buffer).toList) := by
  rw [parseLine_eq]
  unfold loadLine
  dsimp only
  generalize (cstr buffer).dropWhile isspace = line
  split
  . rw [Option.toList_none, List.append_nil]
    exact h
  . simp only [Scan.bind_apply]
    rcases h1 : strtok (some line) seps save with ⟨mountPoint, s1⟩
    rcases h2 : strtok none seps s1 with ⟨fsType, s2⟩
    rcases h3 : strtok none seps s2 with ⟨device, s3⟩
    rcases h4 : restOfLine s3 with ⟨⟨device2, options⟩, s4⟩
    obtain ⟨e1, r1⟩ := strtok_cases h1
    obtain ⟨e2, r2⟩ := strtok_cases h2
    obtain ⟨e3, r3⟩ := strtok_cases h3
    have hrest := restOfLine_spec h4
    rw [Option.getD_some] at e1 r1
    rw [Option.getD_none] at e2 r2 e3 r3
    rw [r3, r2, r1] at hrest
    rw [r2, r1] at e3
    rw [r1] at e2
    subst e1 e2 e3
    generalize tokens seps line = fields at hrest ⊢
    rcases fields with _ | ⟨mountPoint, _ | ⟨fsType, _ | ⟨device, rest⟩⟩⟩
    case cons.cons.cons =>
      rw [List.tail_cons, List.tail_cons, List.tail_cons] at hrest
      dsimp only
      rw [← hrest]
      exact fillEntry_spec h rfl options s4
    all_goals
      rw [Option.toList_none, List.append_nil]
      exact h

theorem foldlM_loadLine_spec (buffers : List Bytes) {t : Table} {vs : List Volume} (h : Holds t vs) (save : Bytes)
    : Holds (buffers.foldlM loadLine t save).1 (vs ++ buffers.filterMap parseLine) := by
  induction buffers generalizing t vs save with
  | nil =>
    rw [List.filterMap_nil, List.append_nil]
    exact h
  | cons buffer buffers ih =>
    rw [List.foldlM_cons, Scan.bind_apply]
    have hline := ih (loadLine_spec h buffer save) (loadLine t buffer save).2
    rw [List.append_assoc] at hline
    cases hparse : parseLine buffer with
    | none => simpa [hparse] using hline
    | some volume => simpa [hparse] using hline

/-- The table in the array is the list that the rest of tboot works with. -/
theorem loadVolumeTable_spec (fstab : Option Bytes) (save : Bytes)
    : Holds (loadVolumeTable fstab save) (Fstab.loadVolumeTable fstab) := by
  have hinitial : Holds Table.initial [tmpVolume] := ⟨rfl, by decide, rfl⟩
  cases fstab with
  | none => exact hinitial
  | some file => exact foldlM_loadLine_spec _ hinitial save

/-! ### Lines -/

theorem parseOptions_eq (options : List Bytes) (length : Int)
    : Fstab.parseOptions options length
        = if options.all fun option => (str "length=").isPrefixOf option then
            some ((options.getLast?.map fun option => strtos 64 10 (option.drop 7)).getD length)
          else
            none := by
  induction options generalizing length with
  | nil => rfl
  | cons option options ih =>
    rw [Fstab.parseOptions, ih, List.all_cons]
    by_cases hlength : (str "length=").isPrefixOf option = true
    . rw [if_pos hlength, hlength, Bool.true_and]
      cases options with
      | nil => rfl
      | cons next options =>
        have hlast := List.getLast?_eq_some_getLast (List.cons_ne_nil next options)
        rw [List.getLast?_cons_cons, hlast]
        rfl
    . rw [if_neg hlength, Bool.eq_false_of_not_eq_true hlength, Bool.false_and]
      rfl

theorem tokens_line {text ending : Bytes} (hnul : 0 ∉ text) (hline : 10 ∉ text)
    (hending : ending = [] ∨ ending = [10]) : tokens seps (text ++ ending) = tokens (str " \t") text := by
  have hseps (c : UInt8) (hc : c ∈ text) : seps.contains c = (str " \t").contains c := by
    have hne : c ≠ 10 := ne_of_mem_of_not_mem hc hline
    have heq : seps = str " \t" ++ [10] := by decide
    rw [heq]
    simp [hne]
  rw [tokens_of_not_mem (str " \t") hnul, ← pieces_congr hseps]
  rcases hending with rfl | rfl
  . rw [List.append_nil, tokens_of_not_mem seps hnul]
  . rw [tokens_of_not_mem seps (by simp [hnul])]
    exact pieces_append_sep (by decide) text

theorem restFields_eq (rest : List Bytes)
    : restFields rest = ((optionalFields rest).1, tokens (str ",") ((optionalFields rest).2.getD [])) := by
  cases rest with
  | nil => rfl
  | cons field rest =>
    rw [restFields, optionalFields]
    split
    . cases rest with
      | nil => rfl
      | cons options rest => simp
    . rfl

theorem parseLine_line {line ending : Bytes} (hnul : 0 ∉ line) (hline : 10 ∉ line)
    (hending : ending = [] ∨ ending = [10]) : parseLine (line ++ ending) = describe line := by
  have hcstr : cstr (line ++ ending) = line ++ ending := by
    apply cstr_of_not_mem
    rcases hending with rfl | rfl
    all_goals simp [hnul]
  rw [parseLine_eq, hcstr]
  unfold describe
  dsimp only
  have hsub : line.dropWhile isspace <:+ line := List.dropWhile_suffix _
  cases htext : line.dropWhile isspace with
  | nil =>
    have hdrop : (line ++ ending).dropWhile isspace = [] := by
      rw [List.dropWhile_append, htext]
      rcases hending with rfl | rfl
      all_goals rfl
    rw [hdrop]
    rfl
  | cons c text =>
    have hdrop : (line ++ ending).dropWhile isspace = (c :: text) ++ ending := by
      rw [List.dropWhile_append, htext]
      rfl
    rw [htext] at hsub
    have htokens : tokens seps ((c :: text) ++ ending) = tokens (str " \t") (c :: text) :=
      tokens_line (fun h => hnul (hsub.subset h)) (fun h => hline (hsub.subset h)) hending
    rw [hdrop, htokens]
    simp only [List.cons_append, reduceCtorEq, false_or, List.head?_cons]
    split
    . rfl
    . rcases tokens (str " \t") (c :: text) with _ | ⟨a, _ | ⟨b, _ | ⟨d, rest⟩⟩⟩
      case cons.cons.cons =>
        dsimp only
        rw [restFields_eq, parseOptions_eq]
        split
        all_goals rfl
      all_goals rfl

theorem fgets_eq {file line : Bytes} (h : (file.take 1022).takeWhile (· ≠ 10) = line)
    : fgets 1023 file
        = let buffer := if line.length < 1022 then line ++ (file.drop line.length).take 1 else line
          (buffer, file.drop buffer.length) := by
  rw [← h]
  rfl

theorem takeWhile_line {line : Bytes} (hline : 10 ∉ line) : line.takeWhile (· ≠ 10) = line := by
  rw [List.takeWhile_eq_self_iff]
  intro c hc
  simpa using ne_of_mem_of_not_mem hc hline

theorem fgets_last {line : Bytes} (hline : 10 ∉ line) (hlen : line.length ≤ 1022)
    : fgets 1023 line = (line, []) := by
  have hfirst : (line.take 1022).takeWhile (· ≠ 10) = line := by
    rw [List.take_of_length_le hlen, takeWhile_line hline]
  rw [fgets_eq hfirst]
  simp

theorem take_line {line : Bytes} (hline : 10 ∉ line) (hlen : line.length ≤ 1022) (rest : Bytes)
    : ((line ++ 10 :: rest).take 1022).takeWhile (· ≠ 10) = line := by
  rw [List.take_append, List.take_of_length_le hlen]
  cases 1022 - line.length with
  | zero => rw [List.take_zero, List.append_nil, takeWhile_line hline]
  | succ n =>
    rw [List.take_succ_cons]
    exact takeWhile_ne_append hline _

theorem fgets_line {line : Bytes} (hline : 10 ∉ line) (hlen : line.length < 1022) (rest : Bytes)
    : fgets 1023 (line ++ 10 :: rest) = (line ++ [10], rest) := by
  rw [fgets_eq (take_line hline (Nat.le_of_lt hlen) rest)]
  simp [hlen]

-- The newline of a line that fills the buffer is read as a line of its own.
theorem fgets_full {line : Bytes} (hline : 10 ∉ line) (hlen : line.length = 1022) (rest : Bytes)
    : fgets 1023 (line ++ 10 :: rest) = (line, 10 :: rest) := by
  rw [fgets_eq (take_line hline (Nat.le_of_eq hlen) rest)]
  dsimp only
  rw [if_neg (by omega), List.drop_left]

theorem lines_append {line : Bytes} (hline : 10 ∉ line) (rest : Bytes)
    : lines (line ++ 10 :: rest) = line :: lines rest :=
  List.splitOn_append_cons_self_of_not_mem hline rest

theorem fgetsAll_nil (size fuel : Nat) : fgetsAll size fuel [] = [] := by
  cases fuel
  all_goals rfl

theorem fgetsAll_succ {size fuel : Nat} {file buffer rest : Bytes} (hne : file ≠ [])
    (h : fgets size file = (buffer, rest)) : fgetsAll size (fuel + 1) file = buffer :: fgetsAll size fuel rest := by
  obtain ⟨c, file, rfl⟩ := List.exists_cons_of_ne_nil hne
  rw [fgetsAll, h]
  exact hne

theorem describe_nil : describe [] = none :=
  rfl

theorem fgetsAll_lines {fuel : Nat} {file : Bytes} (hfuel : file.length ≤ fuel) (hnul : 0 ∉ file)
    (hlen : ∀ line ∈ lines file, line.length ≤ 1022)
    : (fgetsAll 1023 fuel file).filterMap parseLine = (lines file).filterMap describe := by
  induction fuel generalizing file with
  | zero =>
    rw [List.length_eq_zero_iff.mp (Nat.le_zero.mp hfuel)]
    rfl
  | succ fuel ih =>
    cases hdrop : file.drop (file.takeWhile (· ≠ 10)).length with
    | nil =>
      obtain ⟨_, hline⟩ := not_mem_of_drop_takeWhile_ne hdrop
      have hlines : lines file = [file] := List.splitOn_eq_singleton hline
      rw [hlines] at hlen ⊢
      by_cases hne : file = []
      . rw [hne, fgetsAll_nil]
        rfl
      . rw [fgetsAll_succ hne (fgets_last hline (hlen file (by simp))), fgetsAll_nil]
        have hparse := parseLine_line hnul hline (Or.inl rfl)
        rw [List.append_nil] at hparse
        rw [List.filterMap_cons, List.filterMap_cons, hparse]
        rfl
    | cons c rest =>
      have hfile := eq_append_of_drop_takeWhile_ne hdrop
      have hline := not_mem_takeWhile_ne 10 file
      generalize file.takeWhile (· ≠ 10) = line at hfile hline
      subst hfile
      rw [lines_append hline] at hlen ⊢
      obtain ⟨hnulline, hnulrest⟩ : 0 ∉ line ∧ 0 ∉ rest := by simpa using hnul
      have hfuel' : line.length + rest.length ≤ fuel := by
        simp only [List.length_append, List.length_cons] at hfuel
        omega
      have hlenline := hlen line List.mem_cons_self
      have hlenrest (line' : Bytes) (h : line' ∈ lines rest) : line'.length ≤ 1022 :=
        hlen line' (List.mem_cons_of_mem _ h)
      by_cases hfull : line.length = 1022
      . have hlines : lines (10 :: rest) = [] :: lines rest := lines_append (List.not_mem_nil) rest
        have hrest : (fgetsAll 1023 fuel (10 :: rest)).filterMap parseLine = (lines rest).filterMap describe := by
          rw [ih _ _ _, hlines, List.filterMap_cons, describe_nil]
          . rw [List.length_cons]
            omega
          . simpa using hnulrest
          . rw [hlines]
            simpa using hlenrest
        have hread := fgets_full hline hfull rest
        have hparse := parseLine_line hnulline hline (Or.inl rfl)
        rw [List.append_nil] at hparse
        rw [fgetsAll_succ (by simp) hread, List.filterMap_cons, List.filterMap_cons, hrest, hparse]
      . have hrest := ih (Nat.le_trans (Nat.le_add_left _ _) hfuel') hnulrest hlenrest
        have hread := fgets_line hline (Nat.lt_of_le_of_ne hlenline hfull) rest
        rw [fgetsAll_succ (by simp) hread, List.filterMap_cons, List.filterMap_cons, hrest,
          parseLine_line hnulline hline (Or.inr rfl)]

end Load

/--
For every file without zero bytes whose lines fit the buffer, the table is the ramdisk followed by the
volumes that the lines describe.
-/
theorem loadVolumeTable_described (file save : Bytes) (hnul : 0 ∉ file)
    (hlen : ∀ line ∈ lines file, line.length ≤ 1022)
    : (Load.loadVolumeTable (some file) save).numVolumes = (described file).length
        ∧ (Load.loadVolumeTable (some file) save).volumes = (described file).map some := by
  have hholds := Load.loadVolumeTable_spec (some file) save
  have hdescribed : loadVolumeTable (some file) = described file := by
    unfold loadVolumeTable described
    dsimp only
    rw [Load.fgetsAll_lines (Nat.le_refl _) hnul hlen]
  rw [hdescribed] at hholds
  exact ⟨hholds.num, hholds.volumes⟩

def fiveLines : Bytes :=
  str "# preos\n/sys ext4 /p2\n/bad ext4\n/bad ext4 /p3 ro\n /data ext4 /p6 /p7 length=-16"

theorem loadVolumeTable_described_fiveLines
    : (Load.loadVolumeTable (some fiveLines) []).numVolumes = 3
        ∧ (Load.loadVolumeTable (some fiveLines) []).volumes
          = [some tmpVolume, some ⟨str "/sys", str "ext4", some (str "/p2"), none, 0⟩,
            some ⟨str "/data", str "ext4", some (str "/p6"), some (str "/p7"), -16⟩] := by
  have htable : described fiveLines
      = [tmpVolume, ⟨str "/sys", str "ext4", some (str "/p2"), none, 0⟩,
        ⟨str "/data", str "ext4", some (str "/p6"), some (str "/p7"), -16⟩] := by
    decide
  have h := loadVolumeTable_described fiveLines [] (by decide) (by decide)
  rw [htable] at h
  exact h

end Fstab
