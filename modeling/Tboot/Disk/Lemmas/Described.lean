import Tboot.ConfigUtils.Lookup
import Tboot.Disk.Lemmas.ParseLen

/-!
This module contains the way from the text of a configuration file to the disk that `load_diskconfig` returns.
-/

namespace Disk

open ConfigUtils (Node Statement WritesAll Ending evalAll configLoadFile)

structure PartText where
  name : Bytes
  settings : List (Bytes × Bytes)

inductive DeviceItem where
  | setting (key value : Bytes)
  | partitions (parts : List PartText)

def settingStatement (s : Bytes × Bytes) : Statement :=
  .value s.1 [] s.2

def PartText.statement (part : PartText) : Statement :=
  .block part.name [] (part.settings.map settingStatement)

def DeviceItem.statement : DeviceItem → Statement
  | setting key value => settingStatement (key, value)
  | partitions parts => .block (str "partitions") [] (parts.map PartText.statement)

def deviceStatement (items : List DeviceItem) : Statement :=
  .block (str "device") [] (items.map DeviceItem.statement)

def DeviceItem.settingPair : DeviceItem → Option (Bytes × Bytes)
  | setting key value => some (key, value)
  | partitions _ => none

def DeviceItem.partTexts : DeviceItem → Option (List PartText)
  | setting _ _ => none
  | partitions parts => some parts

def lastSetting (key : Bytes) (settings : List (Bytes × Bytes)) : Option Bytes :=
  settings.reverse.lookup key

/--
A length in kilobytes, or with an `M` in megabytes, which it is with a `K` too as it is read; `-1` is for the rest of the
disk.
-/
inductive SaysKb : Bytes → UInt32 → Prop where
  | kilobytes {t : Bytes} {kb : UInt32} : IsConstant t kb.toNat → t.length ≤ 63 → kb ≠ 0 → SaysKb t kb
  | megabytes {t : Bytes} {n : Nat} {u : LenUnit} {kb : UInt32} : IsConstant t n → t.length ≤ 62 → u ≠ .plain
      → kb.toNat = 1024 * n → kb ≠ 0 → SaysKb (t ++ u.text) kb
  | rest : SaysKb (str "-1") fillDisk

structure DescribesPart (part : PartText) (pinfo : PartInfo) : Prop where
  name : pinfo.name = part.name
  type : (lastSetting (str "type") part.settings = some (str "linux") ∧ pinfo.type = pcPartTypeLinux)
    ∨ (lastSetting (str "type") part.settings = some (str "fat32") ∧ pinfo.type = pcPartTypeFat32)
  flags : pinfo.flags
    = if (lastSetting (str "active") part.settings).any (fun v => v.head?.any fun c => [121, 89, 49].contains c) then
        partActiveFlag
      else
        0
  lenKb : (lastSetting (str "len") part.settings = none ∧ pinfo.lenKb = 0)
    ∨ ∃ text, lastSetting (str "len") part.settings = some text ∧ SaysKb text pinfo.lenKb
  startLba : pinfo.startLba = 0

structure Describes (items : List DeviceItem) (dinfo : DiskInfo) : Prop where
  plain : ∀ s ∈ items.filterMap DeviceItem.settingPair, s.1 ≠ str "partitions"
  device : lastSetting (str "path") (items.filterMap DeviceItem.settingPair) = some dinfo.device
  scheme : lastSetting (str "scheme") (items.filterMap DeviceItem.settingPair) = some (str "mbr")
    ∧ dinfo.scheme = partSchemeMbr
  sectSize : IsConstant ((lastSetting (str "sector_size") (items.filterMap DeviceItem.settingPair)).getD (str "512"))
      dinfo.sectSize.toNat
    ∧ 0 < dinfo.sectSize.toNat ∧ dinfo.sectSize.toNat < 2 ^ 31
  skipLba : ∃ text, lastSetting (str "start_lba") (items.filterMap DeviceItem.settingPair) = some text
    ∧ IsConstant text dinfo.skipLba.toNat ∧ 0 < dinfo.skipLba.toNat ∧ dinfo.skipLba.toNat < 2 ^ 31
  numLba : ∃ text, lastSetting (str "num_lba") (items.filterMap DeviceItem.settingPair) = some text
    ∧ IsConstant text dinfo.numLba.toNat
  partitions : items.filterMap DeviceItem.partTexts ≠ []
  partLst : List.Forall₂ DescribesPart (items.filterMap DeviceItem.partTexts).flatten dinfo.partLst
  names : ((items.filterMap DeviceItem.partTexts).flatten.map PartText.name).Nodup
  few : dinfo.partLst.length ≤ maxNumParts

/-! ### The tree of a described disk -/

theorem settingOf_settingStatement (key : Bytes) (s : Bytes × Bytes)
    : (settingStatement s).settingOf key = if s.1 = key then some s.2 else none :=
  rfl

theorem getLast?_settingOf (key : Bytes) (settings : List (Bytes × Bytes))
    : (settings.filterMap fun s => (settingStatement s).settingOf key).getLast? = lastSetting key settings := by
  unfold lastSetting
  induction settings using List.reverseRecOn with
  | nil => rfl
  | append_singleton settings s ih =>
    obtain ⟨key', v⟩ := s
    rw [List.filterMap_append, List.reverse_append, List.reverse_singleton, List.singleton_append, List.lookup_cons]
    by_cases hkey : key' = key
    . subst hkey
      simp [settingOf_settingStatement]
    . rw [beq_eq_false_iff_ne.mpr (Ne.symm hkey), ← ih]
      simp [settingOf_settingStatement, hkey]

def PartText.node (part : PartText) : Node Bytes :=
  evalAll (part.settings.map settingStatement) ⟨part.name, [], []⟩

theorem value_find_part (part : PartText) (key : Bytes)
    : (part.node.find key).map Node.value = lastSetting key part.settings := by
  rw [PartText.node, ConfigUtils.value_find_evalAll, List.filterMap_map]
  . have hnew : (Node.find ⟨part.name, [], []⟩ key).map Node.value = none := rfl
    rw [hnew, Option.or_none]
    exact getLast?_settingOf key part.settings
  . intro s hs hname
    obtain ⟨⟨key', v⟩, -, rfl⟩ := List.mem_map.mp hs
    have hname : key' = key := hname
    rw [settingOf_settingStatement, if_pos hname]
    rfl

theorem toNat_pos {n : UInt32} (h : n ≠ 0) : 0 < n.toNat := by
  rw [Nat.pos_iff_ne_zero]
  exact fun hzero => h (UInt32.toNat_inj.mp hzero)

theorem parseLen_of_saysKb {text : Bytes} {kb : UInt32} (h : SaysKb text kb)
    : (parseLen text).map UInt32.ofNat = some kb := by
  have hlt := kb.toNat_lt
  cases h with
  | kilobytes hconstant hlen hne =>
    have hpos := toNat_pos hne
    rw [parseLen_of_constant hconstant (List.take_of_length_le hlen), scaled, if_neg (by omega), if_neg (by omega),
      Nat.mul_one, Nat.mod_eq_of_lt (by omega), if_neg (by omega), Option.map_some, UInt32.ofNat_toNat]
  | @megabytes t n u kb hconstant hlen hu hkb hne =>
    have hpos := toNat_pos hne
    rw [parseLen_of_unit hconstant u hu hlen, scaled, if_neg (by omega), if_neg (by omega), Nat.mul_comm, ← hkb,
      Nat.mod_eq_of_lt (by omega), if_neg (by omega), Option.map_some, UInt32.ofNat_toNat]
  | rest => decide

theorem loadPartition_described {part : PartText} {pinfo : PartInfo} (h : DescribesPart part pinfo)
    : loadPartition part.node.toCnode = some pinfo := by
  have hname : part.node.toCnode.name = part.name := by
    rw [Node.toCnode_eq]
    exact (ConfigUtils.evalAll_head _ _).1
  have hlen : (lastSetting (str "len") part.settings = none ∧ pinfo.lenKb = 0)
      ∨ ∃ text, lastSetting (str "len") part.settings = some text
          ∧ (parseLen text).map UInt32.ofNat = some pinfo.lenKb := by
    cases h.lenKb with
    | inl hnone => exact .inl hnone
    | inr hsome =>
      obtain ⟨text, htext, hsays⟩ := hsome
      exact .inr ⟨text, htext, parseLen_of_saysKb hsays⟩
  obtain ⟨hpname, htype, hflags, -, hstart⟩ := h
  have hpinfo : pinfo = ⟨part.name, pinfo.flags, pinfo.type, pinfo.lenKb, 0⟩ := by
    rw [← hpname, ← hstart]
  unfold loadPartition
  simp only [ConfigUtils.configStr_toCnode, ConfigUtils.configBool_toCnode, value_find_part, Option.or_none, hname]
  rw [← hflags]
  rcases htype with ⟨htype, hcode⟩ | ⟨htype, hcode⟩
  all_goals
    rcases hlen with ⟨hlen, hkb⟩ | ⟨text, hlen, hkb⟩
    all_goals
      rw [htype, hlen, hpinfo, hcode]
      simp [hkb, show str "fat32" ≠ str "linux" by decide]

/-! ### The nodes of the partitions -/

theorem evalAll_parts {parts : List PartText} (hnames : (parts.map PartText.name).Nodup) (name : Bytes)
    : evalAll (parts.map PartText.statement) ⟨name, [], []⟩ = ⟨name, [], parts.map PartText.node⟩ := by
  induction parts using List.reverseRecOn with
  | nil => rw [List.map_nil, evalAll, List.map_nil]
  | append_singleton parts part ih =>
    rw [List.map_append, List.nodup_append] at hnames
    have hnew : Node.find ⟨name, [], parts.map PartText.node⟩ part.name = none := by
      apply Node.find_eq_none
      intro node hnode
      obtain ⟨part', hpart', rfl⟩ := List.mem_map.mp hnode
      have hhead : part'.node.name = part'.name := (ConfigUtils.evalAll_head _ _).1
      rw [hhead]
      exact hnames.2.2 _ (List.mem_map_of_mem hpart') _ (List.mem_map_of_mem (List.mem_singleton_self part))
    rw [List.map_append, List.map_singleton, ConfigUtils.evalAll_concat, ih hnames.1, PartText.statement,
      ConfigUtils.eval_block_new _ hnew, List.map_append]
    rfl

theorem loadPartitions_described {parts : List PartText} {partLst : List PartInfo}
    (hnames : (parts.map PartText.name).Nodup) (hparts : List.Forall₂ DescribesPart parts partLst)
    (hfew : partLst.length ≤ maxNumParts) (name : Bytes)
    : loadPartitions (evalAll (parts.map PartText.statement) ⟨name, [], []⟩).toCnode = .ok (some partLst) := by
  have hmap : ((parts.map PartText.node).map Node.toCnode).mapM loadPartition = some partLst := by
    clear hnames hfew
    induction hparts with
    | nil => rfl
    | cons hpart _ ih =>
      rw [List.map_cons, List.map_cons, List.mapM_cons, loadPartition_described hpart, ih]
      rfl
  have hlength := hparts.length_eq
  rw [evalAll_parts hnames, Node.toCnode_eq, loadPartitions]
  dsimp only
  rw [List.take_of_length_le (by rw [List.length_map, List.length_map]; omega), hmap]
  dsimp only
  rw [if_neg (by rw [List.length_map, List.length_map]; omega)]
  rfl

/-! ### The node of the device -/

def describedNode (items : List DeviceItem) : Node Bytes :=
  evalAll (items.map DeviceItem.statement) ⟨str "device", [], []⟩

theorem value_find_device (items : List DeviceItem) {key : Bytes} (hkey : key ≠ str "partitions")
    : ((describedNode items).find key).map Node.value = lastSetting key (items.filterMap DeviceItem.settingPair) := by
  have hsettings : (items.map DeviceItem.statement).filterMap (Statement.settingOf key)
      = (items.filterMap DeviceItem.settingPair).filterMap fun s => (settingStatement s).settingOf key := by
    rw [List.filterMap_map, List.filterMap_filterMap]
    apply List.filterMap_congr
    intro item _
    cases item
    all_goals rfl
  have hnew : (Node.find ⟨str "device", [], []⟩ key).map Node.value = none := rfl
  rw [describedNode, ConfigUtils.value_find_evalAll, hsettings, getLast?_settingOf, hnew, Option.or_none]
  intro s hs hname
  obtain ⟨item, -, rfl⟩ := List.mem_map.mp hs
  cases item with
  | setting key' v =>
    have hname : key' = key := hname
    rw [DeviceItem.statement, settingOf_settingStatement, if_pos hname]
    rfl
  | partitions parts => exact absurd hname.symm hkey

theorem find_device_partitions {items : List DeviceItem}
    (hplain : ∀ s ∈ items.filterMap DeviceItem.settingPair, s.1 ≠ str "partitions")
    (hsome : items.filterMap DeviceItem.partTexts ≠ [])
    : (describedNode items).find (str "partitions")
        = some (evalAll ((items.filterMap DeviceItem.partTexts).flatten.map PartText.statement)
            ⟨str "partitions", [], []⟩) := by
  have hbodies : (items.map DeviceItem.statement).filterMap (Statement.bodyOf (str "partitions"))
      = (items.filterMap DeviceItem.partTexts).map (List.map PartText.statement) := by
    rw [List.filterMap_map, List.map_filterMap]
    apply List.filterMap_congr
    intro item _
    cases item with
    | setting => rfl
    | partitions parts =>
      rw [Function.comp_apply, DeviceItem.statement, Statement.bodyOf, if_pos rfl]
      rfl
  have hnew : Node.find ⟨str "device", [], []⟩ (str "partitions") = none := rfl
  rw [describedNode, ConfigUtils.find_evalAll_blocks _ hnew, hbodies, if_neg (by simpa using hsome), List.map_flatten]
  intro s hs hname
  obtain ⟨item, hitem, rfl⟩ := List.mem_map.mp hs
  cases item with
  | setting key v => exact absurd hname (hplain (key, v) (List.mem_filterMap.mpr ⟨_, hitem, rfl⟩))
  | partitions parts =>
    rw [DeviceItem.statement, Statement.bodyOf, if_pos rfl]
    rfl

theorem find_device {blocks : List (List DeviceItem)} (hblocks : blocks ≠ [])
    : (evalAll (blocks.map deviceStatement) ⟨[], [], []⟩).find (str "device") = some (describedNode blocks.flatten) := by
  have hbodies : (blocks.map deviceStatement).filterMap (Statement.bodyOf (str "device"))
      = blocks.map (List.map DeviceItem.statement) := by
    rw [List.filterMap_map, ← List.filterMap_eq_map]
    apply List.filterMap_congr
    intro items _
    rw [Function.comp_apply, deviceStatement, Statement.bodyOf, if_pos rfl]
    rfl
  have hnew : Node.find ⟨[], [], []⟩ (str "device") = none := rfl
  rw [ConfigUtils.find_evalAll_blocks _ hnew, hbodies, if_neg (by simpa using hblocks), describedNode, List.map_flatten]
  intro s hs _
  obtain ⟨items, -, rfl⟩ := List.mem_map.mp hs
  rw [deviceStatement, Statement.bodyOf, if_pos rfl]
  rfl

theorem ofInt_strtos {text : Bytes} {n : UInt32} (h : IsConstant text n.toNat) (hlt : n.toNat < 2 ^ 31)
    : UInt32.ofInt (strtos 32 0 text) = n := by
  have hmod : ((n.toNat : Int) % 2 ^ 32).toNat = n.toNat := by omega
  rw [h.strtos_eq hlt, UInt32.ofInt, hmod, UInt32.ofNat_toNat]

theorem ofNat_strtou {text : Bytes} {n : UInt32} (h : IsConstant text n.toNat)
    : UInt32.ofNat (strtou 32 0 text) = n := by
  have hlt := n.toNat_lt
  rw [h.strtou_eq, Nat.min_eq_left (by omega), UInt32.ofNat_toNat]

theorem loadDiskconfig_of_describes {blocks : List (List DeviceItem)} {dinfo : DiskInfo}
    (h : Describes blocks.flatten dinfo) (pathOverride : Option Bytes)
    : loadDiskconfig (evalAll (blocks.map deviceStatement) ⟨[], [], []⟩).toCnode pathOverride true
        = .ok (some dinfo) := by
  have hblocks : blocks ≠ [] := by
    rintro rfl
    exact h.partitions rfl
  obtain ⟨hplain, hdevice, ⟨hscheme, hmbr⟩, ⟨hsect, hsectPos, hsectLt⟩, ⟨skip, hskip, hsaysSkip, hskipPos, hskipLt⟩,
    ⟨num, hnum, hsaysNum⟩, hsome, hparts, hnames, hfew⟩ := h
  have hstr : ∀ key default_, key ≠ str "partitions" → configStr (describedNode blocks.flatten).toCnode key default_
      = (lastSetting key (blocks.flatten.filterMap DeviceItem.settingPair)).or default_ := by
    intro key default_ hkey
    rw [ConfigUtils.configStr_toCnode, value_find_device _ hkey]
  have hdefault : ∀ (o : Option Bytes) (v : Bytes), o.or (some v) = some (o.getD v) := by
    intro o v
    cases o
    all_goals rfl
  have hne : ∀ n : UInt32, 0 < n.toNat → n ≠ 0 := by
    rintro n hpos rfl
    contradiction
  unfold loadDiskconfig
  simp only [ConfigUtils.configFind_toCnode, find_device hblocks, find_device_partitions hplain hsome,
    hstr _ _ (show str "path" ≠ str "partitions" by decide), hstr _ _ (show str "scheme" ≠ str "partitions" by decide),
    hstr _ _ (show str "sector_size" ≠ str "partitions" by decide),
    hstr _ _ (show str "start_lba" ≠ str "partitions" by decide),
    hstr _ _ (show str "num_lba" ≠ str "partitions" by decide),
    hdevice, hscheme, hskip, hnum, hdefault, Option.map_some, Option.some_or, loadPartitions_described hnames hparts hfew,
    ofInt_strtos hsect hsectLt, ofInt_strtos hsaysSkip hskipLt, ofNat_strtou hsaysNum, hne _ hsectPos, hne _ hskipPos]
  simp only [Bool.not_true, Bool.false_eq_true, ne_eq, not_true_eq_false, if_false, ← hmbr]
  rfl

def sdaBlocks : List (List DeviceItem) :=
  [[.setting (str "path") (str "/dev/sdb"), .setting (str "scheme") (str "mbr"),
      .partitions [⟨str "boot", [(str "type", str "fat32"), (str "active", str "yes"), (str "len", str "3k")]⟩]],
    [.setting (str "start_lba") (str "0X1f"), .setting (str "num_lba") (str "010"),
      .setting (str "path") (str "/dev/sda"),
      .partitions [⟨str "system", [(str "type", str "linux"), (str "len", str "2M")]⟩,
        ⟨str "data", [(str "type", str "linux"), (str "len", str "-1")]⟩]]]

def sda : DiskInfo :=
  ⟨str "/dev/sda", partSchemeMbr, 512, 31, 8,
    [⟨str "boot", partActiveFlag, pcPartTypeFat32, 3072, 0⟩, ⟨str "system", 0, pcPartTypeLinux, 2048, 0⟩,
      ⟨str "data", 0, pcPartTypeLinux, fillDisk, 0⟩]⟩

end Disk
