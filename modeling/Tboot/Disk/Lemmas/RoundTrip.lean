import Tboot.Disk.Impl.Apply
import Tboot.Disk.Impl.Find
import Tboot.Disk.Lemmas.Exact

/-!
This module contains that a partition table that has been written reads back as configured, and that
the numbers of the reader are those in the names of the device nodes.
-/

namespace Disk

open Reader

variable {dinfo : DiskInfo}

/-! ### Where the items are -/

def WriteItem.extent (item : WriteItem) : Region Nat :=
  item.patch.extent

theorem extent_pentry (offset : Nat) (entry : PcPartition)
    : WriteItem.extent ⟨offset, .pentry entry⟩ = ⟨offset, offset + 16⟩ := by
  simp [WriteItem.extent, WriteItem.patch, Patch.extent, WriteData.bytes]

theorem extent_bootRecord (offset : Nat) (record : PcBootRecord)
    : WriteItem.extent ⟨offset, .bootRecord record⟩ = ⟨offset, offset + 512⟩ := by
  simp only [WriteItem.extent, WriteItem.patch, Patch.extent, WriteData.bytes,
    PcBootRecord.bytes_length]

def DiskInfo.top (dinfo : DiskInfo) (cnt cur : Nat) : Nat :=
  if pcNumBootRecordParts ≤ cnt ∧ pcNumBootRecordParts < dinfo.partLst.length then
    cur * dinfo.sectSize.toNat
  else
    ptableOffset cnt

theorem DiskInfo.PowerOfTwoSect.le {dinfo : DiskInfo} (h : dinfo.PowerOfTwoSect)
    : 512 ≤ dinfo.sectSize.toNat := by
  obtain ⟨k, hk, _, heq⟩ := h
  rw [heq]
  exact Nat.pow_le_pow_right (n := 2) (by decide) hk

theorem record_le_sector {lba lba' : Nat} (hsect : dinfo.PowerOfTwoSect) (hlt : lba < lba')
    : lba * dinfo.sectSize.toNat + 512 ≤ lba' * dinfo.sectSize.toNat := by
  have hle := Nat.mul_le_mul_right dinfo.sectSize.toNat (Nat.succ_le_of_lt hlt)
  have hsect := hsect.le
  rw [Nat.succ_mul] at hle
  omega

theorem packed_opens {cnt cur : Nat} {below : List (Region Nat)} (hsect : dinfo.PowerOfTwoSect)
    (hcur : 0 < cur) (hlogical : dinfo.logical cnt = true)
    (hbelow : Region.Packed 446 (dinfo.top cnt cur) below)
    : Region.Packed 446 (cur * dinfo.sectSize.toNat)
        ((if dinfo.opens cnt then [dinfo.extendedItem cur] else []).reverse.map WriteItem.extent
          ++ below) := by
  split
  . next hopens =>
    have hslot := (decide_eq_true_iff.mp hopens).left
    have htop : dinfo.top cnt cur = ptableOffset (pcNumBootRecordParts - 1) := by
      unfold DiskInfo.top
      rw [if_neg (by unfold pcNumBootRecordParts at *; omega), hslot]
    have hone := record_le_sector hsect hcur
    rw [htop] at hbelow
    unfold DiskInfo.extendedItem
    simp only [List.reverse_singleton, List.map_cons, List.map_nil, List.singleton_append,
      extent_pentry]
    refine ⟨Nat.le_add_right _ _, ?_, hbelow⟩
    rw [Nat.zero_mul] at hone
    dsimp only
    unfold ptableOffset pcNumBootRecordParts
    omega
  . next hopens =>
    have htop : dinfo.top cnt cur = cur * dinfo.sectSize.toNat := by
      unfold DiskInfo.opens DiskInfo.logical pcNumBootRecordParts at *
      rw [decide_eq_true_iff] at *
      exact if_pos (by unfold pcNumBootRecordParts; omega)
    rw [htop] at hbelow
    exact hbelow

theorem packed_logicalItem {cnt cur stop ext : Nat} {pinfo : PartInfo} {pnext : Option PartInfo}
    {below : List (Region Nat)} (hsect : dinfo.PowerOfTwoSect) (hlogical : dinfo.logical cnt = true)
    (hstop : cur < stop) (hbelow : Region.Packed 446 (cur * dinfo.sectSize.toNat) below)
    : Region.Packed 446 (dinfo.top (cnt + 1) stop)
        ((dinfo.logicalItem cur ext pinfo pnext).extent :: below) := by
  have htop : dinfo.top (cnt + 1) stop = stop * dinfo.sectSize.toNat := by
    unfold DiskInfo.logical at hlogical
    rw [decide_eq_true_iff] at hlogical
    exact if_pos hlogical
  have hend := record_le_sector hsect hstop
  rw [htop]
  unfold DiskInfo.logicalItem
  rw [extent_bootRecord]
  exact ⟨Nat.le_add_right _ _, hend, hbelow⟩

theorem packed_primaryItem {cnt cur stop : Nat} {pinfo : PartInfo} {below : List (Region Nat)}
    (hlogical : ¬dinfo.logical cnt = true) (hbelow : Region.Packed 446 (dinfo.top cnt cur) below)
    : Region.Packed 446 (dinfo.top (cnt + 1) stop) ((dinfo.primaryItem cnt cur pinfo).extent :: below) := by
  have hprimary : ¬(pcNumBootRecordParts ≤ cnt + 1 ∧ pcNumBootRecordParts < dinfo.partLst.length) := by
    unfold DiskInfo.logical at hlogical
    rwa [decide_eq_true_iff] at hlogical
  have htop : dinfo.top cnt cur = ptableOffset cnt := if_neg (by omega)
  have hnext : dinfo.top (cnt + 1) stop = ptableOffset (cnt + 1) := if_neg hprimary
  rw [htop] at hbelow
  rw [hnext]
  unfold DiskInfo.primaryItem
  dsimp only
  rw [extent_pentry]
  refine ⟨Nat.le_add_right _ _, ?_, hbelow⟩
  dsimp only
  unfold ptableOffset
  omega

theorem not_opens_of_not_logical {cnt : Nat} (hlogical : ¬dinfo.logical cnt = true)
    : ¬dinfo.opens cnt = true := by
  unfold DiskInfo.opens DiskInfo.logical pcNumBootRecordParts at *
  rw [decide_eq_true_iff] at *
  omega

theorem packed_itemsFrom (ext : Nat) {cnt cur : Nat} {parts : List PartInfo} {below : List (Region Nat)}
    (hsect : dinfo.PowerOfTwoSect) (hcur : 0 < cur) (hcnt : cnt + parts.length = dinfo.partLst.length)
    (hbelow : Region.Packed 446 (dinfo.top cnt cur) below)
    : ∃ stop, Region.Packed 446 (dinfo.top dinfo.partLst.length stop)
        ((dinfo.itemsFrom cnt cur ext parts).reverse.map WriteItem.extent ++ below) := by
  induction parts generalizing cnt cur ext below with
  | nil =>
    refine ⟨cur, ?_⟩
    rw [← hcnt]
    exact hbelow
  | cons pinfo rest ih =>
    rw [List.length_cons] at hcnt
    unfold DiskInfo.itemsFrom
    dsimp only
    generalize hstop : cur + dinfo.ebrLen cnt + dinfo.exactLen pinfo (cur + dinfo.ebrLen cnt) = stop
    simp only [List.reverse_append, List.reverse_cons, List.map_append, List.map_cons, List.map_nil,
      List.append_assoc]
    apply ih _ (by omega) (by omega)
    unfold DiskInfo.item
    split
    . next hlogical =>
      have hebr : dinfo.ebrLen cnt = 1 := if_pos hlogical
      apply packed_logicalItem hsect hlogical (by omega)
      exact packed_opens hsect hcur hlogical hbelow
    . next hlogical =>
      rw [if_neg (not_opens_of_not_logical hlogical)]
      exact packed_primaryItem hlogical hbelow

theorem packed_blankItems {cnt more : Nat} {below : List (Region Nat)}
    (hbelow : Region.Packed 446 (ptableOffset cnt) below)
    : Region.Packed 446 (ptableOffset (cnt + more))
        ((dinfo.blankItems cnt more).reverse.map WriteItem.extent ++ below) := by
  induction more generalizing cnt below with
  | zero => exact hbelow
  | succ more ih =>
    unfold DiskInfo.blankItems
    rw [List.range'_succ, List.map_cons, List.reverse_cons, List.map_append, List.append_assoc]
    rw [show cnt + (more + 1) = cnt + 1 + more by omega]
    apply ih
    unfold DiskInfo.primaryItem
    simp only [List.map_cons, List.map_nil, List.singleton_append, extent_pentry]
    refine ⟨Nat.le_add_right _ _, ?_, hbelow⟩
    dsimp only
    unfold ptableOffset
    omega

theorem items_apart (hsect : dinfo.PowerOfTwoSect) (hskip : 0 < dinfo.skipLba.toNat)
    : (dinfo.items.reverse.map WriteItem.extent).Pairwise Region.Apart := by
  have hstart : Region.Packed 446 (dinfo.top 0 dinfo.skipLba.toNat) [] := by
    unfold DiskInfo.top
    rw [if_neg (by unfold pcNumBootRecordParts; omega)]
    exact Nat.le_refl _
  obtain ⟨stop, hpacked⟩ := packed_itemsFrom 0 hsect hskip (Nat.zero_add _) hstart
  rw [List.append_nil] at hpacked
  unfold DiskInfo.items
  rw [List.reverse_append, List.map_append]
  by_cases hmore : dinfo.partLst.length ≤ pcNumBootRecordParts
  . have htop : dinfo.top dinfo.partLst.length stop = ptableOffset dinfo.partLst.length :=
      if_neg (by omega)
    rw [htop] at hpacked
    exact (packed_blankItems hpacked).pairwise_apart
  . rw [Nat.sub_eq_zero_of_le (by omega)]
    exact hpacked.pairwise_apart

/-! ### What is on the disk -/

def Holds (img : Image) (item : WriteItem) : Prop :=
  Bytes.slice img item.offset item.data.bytes.length = item.data.bytes

theorem slot_of_holds {img : Image} {i : Nat} {entry : PcPartition}
    (h : Holds img ⟨ptableOffset i, .pentry entry⟩) : slot img i = entry := by
  unfold Holds WriteData.bytes at h
  dsimp only at h
  rw [PcPartition.bytes_length] at h
  unfold slot entryAt
  rw [show 446 + 16 * i = ptableOffset i from rfl, h]
  exact PcPartition.ofBytes_bytes entry

theorem record_of_holds {img : Image} {offset : Nat} {record : PcBootRecord}
    (h : Holds img ⟨offset, .bootRecord record⟩)
    : sigAt img offset = record.mbrSig ∧ entryAt img (offset + 446) = record.logical
      ∧ entryAt img (offset + 462) = record.nextPtr := by
  unfold Holds WriteData.bytes PcBootRecord.bytes at h
  dsimp only at h
  obtain ⟨_, hptable⟩ := Bytes.slice_of_append h
  rw [List.length_replicate] at hptable
  obtain ⟨hlogical, hrest⟩ := Bytes.slice_of_append hptable
  obtain ⟨hnext, hrest⟩ := Bytes.slice_of_append hrest
  obtain ⟨_, hsig⟩ := Bytes.slice_of_append hrest
  simp only [PcPartition.bytes_length, List.length_replicate, Bytes.le_length, Nat.add_assoc,
    Nat.reduceAdd] at hlogical hnext hsig
  unfold sigAt entryAt
  rw [hlogical, hnext, hsig, Bytes.ofLe_le]
  have hlt := record.mbrSig.toNat_lt
  rw [Nat.mod_eq_of_lt (by omega), UInt16.ofNat_toNat]
  exact ⟨rfl, PcPartition.ofBytes_bytes _, PcPartition.ofBytes_bytes _⟩

theorem commit_holds (img : Image) (hsect : dinfo.PowerOfTwoSect) (hskip : 0 < dinfo.skipLba.toNat)
    : ∀ item ∈ dinfo.items, Holds (commit img (emptyItem :: dinfo.items.reverse)) item := by
  intro item hitem
  have hmem : item.patch ∈ dinfo.items.reverse.map WriteItem.patch :=
    List.mem_map_of_mem (List.mem_reverse.mpr hitem)
  unfold commit
  rw [List.map_cons, Patch.writeAll_cons]
  apply Patch.slice_writeAll_of_mem _ hmem
  rw [List.map_map]
  exact items_apart hsect hskip

theorem itemsFrom_off_signature {cnt cur ext : Nat} {parts : List PartInfo}
    (hsect : dinfo.PowerOfTwoSect) (hcur : 0 < cur) (hcnt : cnt + parts.length = dinfo.partLst.length)
    : ∀ item ∈ dinfo.itemsFrom cnt cur ext parts, item.extent.stop ≤ 510 ∨ 512 ≤ item.extent.start := by
  induction parts generalizing cnt cur ext with
  | nil =>
    intro item hitem
    contradiction
  | cons pinfo rest ih =>
    rw [List.length_cons] at hcnt
    unfold DiskInfo.itemsFrom
    dsimp only
    intro item hitem
    simp only [List.mem_append, List.mem_cons] at hitem
    obtain hopen | heq | hrest := hitem
    . split at hopen
      . rw [List.mem_singleton] at hopen
        left
        rw [hopen]
        unfold DiskInfo.extendedItem
        rw [extent_pentry]
        decide
      . contradiction
    . rw [heq]
      unfold DiskInfo.item
      split
      . right
        have hone := record_le_sector hsect hcur
        unfold DiskInfo.logicalItem
        rw [extent_bootRecord]
        dsimp only
        omega
      . next hlogical =>
        left
        unfold DiskInfo.logical pcNumBootRecordParts at hlogical
        rw [decide_eq_true_iff] at hlogical
        unfold DiskInfo.primaryItem
        rw [extent_pentry]
        dsimp only
        unfold ptableOffset
        omega
    . exact ih (by omega) (by omega) item hrest

theorem commit_signature (img : Image) (hsect : dinfo.PowerOfTwoSect) (hskip : 0 < dinfo.skipLba.toNat)
    : sigAt (commit img (emptyItem :: dinfo.items.reverse)) 0 = signature := by
  have hempty : Bytes.slice (emptyItem.patch.write img) 510 2 = [0x55, 0xAA] := by
    have hself := Patch.slice_write_self img emptyItem.patch
    exact (Bytes.slice_of_append hself).right
  have hoff : ∀ p ∈ dinfo.items.reverse.map WriteItem.patch, Region.Apart ⟨510, 510 + 2⟩ p.extent := by
    intro p hp
    obtain ⟨item, hitem, heq⟩ := List.mem_map.mp hp
    have hside : item.extent.stop ≤ 510 ∨ 512 ≤ item.extent.start := by
      rw [List.mem_reverse] at hitem
      unfold DiskInfo.items at hitem
      cases List.mem_append.mp hitem with
      | inl hitems => exact itemsFrom_off_signature hsect hskip (Nat.zero_add _) item hitems
      | inr hblanks =>
        obtain ⟨i, hi, heq⟩ := List.mem_map.mp hblanks
        rw [List.mem_range'_1] at hi
        left
        rw [← heq]
        unfold DiskInfo.primaryItem
        rw [extent_pentry]
        dsimp only
        unfold ptableOffset pcNumBootRecordParts at *
        omega
    rw [← heq]
    cases hside with
    | inl hstop => exact Region.apart_of_le hstop
    | inr hstart => exact (Region.apart_of_le (r := ⟨510, 512⟩) hstart).symm
  unfold sigAt commit
  rw [List.map_cons, Patch.writeAll_cons, Nat.zero_add, Patch.slice_writeAll_of_apart hoff, hempty]
  decide

/-! ### What the reader finds -/

structure Good (dinfo : DiskInfo) (found : Found) : Prop where
  pos : 0 < found.len
  stop_le : found.start + found.len ≤ dinfo.numLba.toNat
  type : isExtended found.type = false

theorem cfgPentry_startLba (status type : UInt8) (len : Nat) {start : Nat} (h : start < 2 ^ 32)
    : (cfgPentry status type start len).startLba.toNat = start := by
  unfold cfgPentry
  rw [UInt32.toNat_ofNat', Nat.mod_eq_of_lt h]

theorem cfgPentry_lenLba (status type : UInt8) (start : Nat) {len : Nat} (h : len < 2 ^ 32)
    : (cfgPentry status type start len).lenLba.toNat = len := by
  unfold cfgPentry
  rw [UInt32.toNat_ofNat', Nat.mod_eq_of_lt h]

theorem used_cfgPentry (status type : UInt8) (start : Nat) {len : Nat} (h : len < 2 ^ 32)
    (hpos : 0 < len) : used (cfgPentry status type start len) = true := by
  unfold used
  rw [decide_eq_true_iff, ne_eq, ← UInt32.toNat_inj, cfgPentry_lenLba status type start h]
  exact Nat.ne_of_gt hpos

theorem primary_of_holds {img : Image} {cnt cur : Nat} {pinfo : PartInfo}
    (hgood : Good dinfo ⟨cnt + 1, cur, dinfo.exactLen pinfo cur, pinfo.type⟩)
    (hholds : Holds img (dinfo.primaryItem cnt cur pinfo))
    : primary img cnt = some ⟨cnt + 1, cur, dinfo.exactLen pinfo cur, pinfo.type⟩
      ∧ extendedStart img cnt = none := by
  have hnum : dinfo.numLba.toNat < 2 ^ 32 := dinfo.numLba.toNat_lt
  obtain ⟨hpos, hstop, htype⟩ := hgood
  dsimp only at hpos hstop htype
  have hlen : dinfo.exactLen pinfo cur < 2 ^ 32 := by omega
  unfold primary extendedStart
  rw [slot_of_holds hholds]
  dsimp only
  rw [used_cfgPentry _ _ _ hlen hpos, cfgPentry_startLba _ _ _ (by omega),
    cfgPentry_lenLba _ _ _ hlen]
  rw [show (cfgPentry _ pinfo.type cur _).type = pinfo.type from rfl, htype]
  exact ⟨rfl, rfl⟩

theorem primaries_read {img : Image} {cnt cur ext : Nat} {front back : List PartInfo}
    (hprimary : ∀ k < front.length, dinfo.logical (cnt + k) = false)
    (hgood : ∀ found ∈ dinfo.configuredFrom cnt cur (front ++ back), Good dinfo found)
    (hholds : ∀ item ∈ dinfo.itemsFrom cnt cur ext (front ++ back), Holds img item)
    : (List.range' cnt front.length).filterMap (primary img) = dinfo.configuredFrom cnt cur front
      ∧ (∀ i ∈ List.range' cnt front.length, extendedStart img i = none)
      ∧ ∃ stop, (∀ item ∈ dinfo.itemsFrom (cnt + front.length) stop ext back, Holds img item)
          ∧ dinfo.configuredFrom cnt cur (front ++ back)
              = dinfo.configuredFrom cnt cur front
                ++ dinfo.configuredFrom (cnt + front.length) stop back := by
  induction front generalizing cnt cur with
  | nil => exact ⟨rfl, fun i hi => absurd hi List.not_mem_nil, cur, hholds, rfl⟩
  | cons pinfo front ih =>
    have hpri : dinfo.logical cnt = false := hprimary 0 (Nat.zero_lt_succ _)
    have hopens : dinfo.opens cnt = false := by
      rw [← Bool.not_eq_true]
      apply not_opens_of_not_logical
      simp [hpri]
    have hebr : dinfo.ebrLen cnt = 0 := by
      unfold DiskInfo.ebrLen
      rw [hpri]
      rfl
    have hnumber : dinfo.number cnt = cnt + 1 := by
      unfold DiskInfo.number
      rw [hpri]
      rfl
    rw [List.cons_append, DiskInfo.configuredFrom_cons, DiskInfo.configuredFrom_cons]
    rw [List.cons_append, DiskInfo.configuredFrom_cons] at hgood
    unfold DiskInfo.itemsFrom DiskInfo.item DiskInfo.extFrom at hholds
    simp only [hebr, hnumber, hopens, hpri, Nat.add_zero, Bool.false_eq_true, ↓reduceIte,
      List.nil_append, List.cons_append, List.mem_cons, forall_eq_or_imp] at hgood hholds ⊢
    obtain ⟨hhead, hnone⟩ := primary_of_holds hgood.left hholds.left
    have hrest : ∀ k < front.length, dinfo.logical (cnt + 1 + k) = false := by
      intro k hk
      rw [Nat.add_assoc, Nat.add_comm 1 k]
      exact hprimary (k + 1) (Nat.succ_lt_succ hk)
    obtain ⟨hfound, hext, stop, hback, happend⟩ := ih hrest hgood.right hholds.right
    rw [List.length_cons, List.range'_succ, List.filterMap_cons_some hhead, hfound]
    rw [Nat.add_assoc, Nat.add_comm 1] at hback happend
    refine ⟨rfl, ?_, stop, hback, ?_⟩
    . intro i hi
      cases List.mem_cons.mp hi with
      | inl heq => rw [heq, hnone]
      | inr hmem => exact hext i hmem
    . rw [happend]

theorem link_some {ext lba num : Nat} {next : PartInfo} (hle : ext ≤ lba)
    (hgood : Good dinfo ⟨num, lba + 1, dinfo.exactLen next (lba + 1), next.type⟩)
    : used (dinfo.link ext lba (some next)) = true
      ∧ isExtended (dinfo.link ext lba (some next)).type = true
      ∧ ext + (dinfo.link ext lba (some next)).startLba.toNat = lba := by
  have hnum : dinfo.numLba.toNat < 2 ^ 32 := dinfo.numLba.toNat_lt
  obtain ⟨hpos, hstop, _⟩ := hgood
  dsimp only at hpos hstop
  unfold DiskInfo.link
  dsimp only
  refine ⟨?_, rfl, ?_⟩
  . unfold DiskInfo.exactLen at hpos hstop
    by_cases hfill : next.lenKb = fillDisk
    . rw [if_pos hfill] at *
      exact used_cfgPentry _ _ _ (by omega) (by omega)
    . rw [if_neg hfill] at *
      exact used_cfgPentry _ _ _ (by omega) (by omega)
  . rw [cfgPentry_startLba _ _ _ (by omega)]
    omega

theorem chain_succ {img : Image} {cur ext fuel num : Nat} {pinfo : PartInfo}
    {pnext : Option PartInfo}
    (hgood : Good dinfo ⟨num, cur + 1, dinfo.exactLen pinfo (cur + 1), pinfo.type⟩)
    (hholds : Holds img (dinfo.logicalItem cur ext pinfo pnext))
    : let found : Found := ⟨num, cur + 1, dinfo.exactLen pinfo (cur + 1), pinfo.type⟩
      let link := dinfo.link ext (cur + 1 + dinfo.exactLen pinfo (cur + 1)) pnext
      chain img dinfo.sectSize.toNat ext (fuel + 1) cur num
        =
      if used link && isExtended link.type then
        match chain img dinfo.sectSize.toNat ext fuel (ext + link.startLba.toNat) (num + 1) with
        | none => none
        | some more => some (found :: more)
      else
        some [found] := by
  have hnum : dinfo.numLba.toNat < 2 ^ 32 := dinfo.numLba.toNat_lt
  obtain ⟨hpos, hstop, _⟩ := hgood
  dsimp only at hpos hstop
  obtain ⟨hsig, hentry, hlink⟩ := record_of_holds hholds
  dsimp only at hsig hentry hlink
  have hone : (1 : Nat) < 2 ^ 32 := by decide
  dsimp only
  conv =>
    lhs
    unfold chain
  rw [hsig, hentry, hlink, if_neg (by decide)]
  dsimp only
  rw [used_cfgPentry _ _ _ (by omega) hpos, cfgPentry_startLba _ _ _ hone,
    cfgPentry_lenLba _ _ _ (by omega)]
  rfl

theorem chain_read {img : Image} {cnt cur ext fuel : Nat} {parts : List PartInfo}
    (hlogical : dinfo.logical cnt = true) (hext : dinfo.extFrom cnt cur ext = ext) (hle : ext ≤ cur)
    (hparts : parts ≠ []) (hfuel : parts.length ≤ fuel)
    (hgood : ∀ found ∈ dinfo.configuredFrom cnt cur parts, Good dinfo found)
    (hholds : ∀ item ∈ dinfo.itemsFrom cnt cur ext parts, Holds img item)
    : chain img dinfo.sectSize.toNat ext fuel cur (cnt + 2)
        =
      some (dinfo.configuredFrom cnt cur parts) := by
  induction parts generalizing cnt cur fuel with
  | nil => contradiction
  | cons pinfo rest ih =>
    have hebr : dinfo.ebrLen cnt = 1 := if_pos hlogical
    have hnumber : dinfo.number cnt = cnt + 2 := if_pos hlogical
    rw [DiskInfo.configuredFrom_cons] at hgood ⊢
    unfold DiskInfo.itemsFrom DiskInfo.item at hholds
    simp only [hebr, hnumber, hext, hlogical, ↓reduceIte, List.mem_append, List.mem_cons,
      forall_eq_or_imp] at hgood hholds ⊢
    cases fuel with
    | zero => contradiction
    | succ fuel =>
      rw [chain_succ hgood.left (hholds _ (Or.inr (Or.inl rfl)))]
      cases rest with
      | nil => rfl
      | cons next rest =>
        have hlogical' : dinfo.logical (cnt + 1) = true := by
          unfold DiskInfo.logical at *
          rw [decide_eq_true_iff] at *
          omega
        have hext' (cur' : Nat) : dinfo.extFrom (cnt + 1) cur' ext = ext := by
          unfold DiskInfo.extFrom DiskInfo.opens DiskInfo.logical at *
          rw [decide_eq_true_iff] at hlogical
          exact if_neg (by rw [decide_eq_true_iff]; omega)
        have hnext := hgood.right _ List.mem_cons_self
        rw [show dinfo.ebrLen (cnt + 1) = 1 from if_pos hlogical'] at hnext
        obtain ⟨hused, htype, hstart⟩ := link_some (show ext ≤ cur + 1 + _ by omega) hnext
        have hrest := ih hlogical' (hext' _) (by omega) (List.cons_ne_nil next rest)
          (Nat.le_of_succ_le_succ hfuel) hgood.right (fun item hitem => hholds item (Or.inr (Or.inr hitem)))
        rw [List.head?_cons, hused, htype, hstart]
        rw [show cnt + 2 + 1 = cnt + 1 + 2 by omega, hrest]
        rfl

theorem configured_good {cnt cur : Nat} {parts : List PartInfo}
    (hlens : ∀ pinfo ∈ parts, pinfo.lenKb ≠ 0)
    (htypes : ∀ pinfo ∈ parts, isExtended pinfo.type = false)
    (hfits : dinfo.Fits (dinfo.configuredFrom cnt cur parts)) (hsect : dinfo.PowerOfTwoSect)
    (hspace : ∀ found ∈ dinfo.configuredFrom cnt cur parts, found.start < dinfo.numLba.toNat)
    : ∀ found ∈ dinfo.configuredFrom cnt cur parts, Good dinfo found := by
  induction parts generalizing cnt cur with
  | nil =>
    intro found hfound
    contradiction
  | cons pinfo rest ih =>
    rw [DiskInfo.configuredFrom_cons] at *
    intro found hfound
    cases List.mem_cons.mp hfound with
    | inl heq =>
      rw [heq]
      refine ⟨?_, hfits _ List.mem_cons_self, htypes pinfo List.mem_cons_self⟩
      have hroom := hspace _ List.mem_cons_self
      have hkb : 0 < pinfo.lenKb.toNat := by
        have hne := hlens pinfo List.mem_cons_self
        rw [ne_eq, ← UInt32.toNat_inj] at hne
        exact Nat.pos_of_ne_zero hne
      unfold DiskInfo.exactLen sectorsFor
      dsimp only at hroom ⊢
      split
      . omega
      . exact Nat.div_pos (by omega) hsect.pos
    | inr hmem =>
      apply ih _ _ _ _ found hmem
      . exact fun p hp => hlens p (List.mem_cons_of_mem _ hp)
      . exact fun p hp => htypes p (List.mem_cons_of_mem _ hp)
      . exact fun f hf => hfits f (List.mem_cons_of_mem _ hf)
      . exact fun f hf => hspace f (List.mem_cons_of_mem _ hf)

theorem blank_of_holds {img : Image} {i : Nat} (hsect : dinfo.PowerOfTwoSect)
    (hholds : Holds img (dinfo.primaryItem i 0 blankPart))
    : primary img i = none ∧ extendedStart img i = none := by
  have hslot := slot_of_holds hholds
  rw [configMbr.exactLen_blankPart hsect] at hslot
  unfold primary extendedStart
  rw [hslot]
  exact ⟨rfl, rfl⟩

theorem read_primaries {img : Image} (fuel : Nat) (hsect : dinfo.PowerOfTwoSect)
    (hfew : dinfo.partLst.length ≤ pcNumBootRecordParts) (hsig : sigAt img 0 = signature)
    (hgood : ∀ found ∈ dinfo.configured, Good dinfo found)
    (hholds : ∀ item ∈ dinfo.items, Holds img item)
    : readTable img dinfo.sectSize.toNat fuel = some dinfo.configured := by
  have hprimary : ∀ k < dinfo.partLst.length, dinfo.logical (0 + k) = false := by
    intro k _
    unfold DiskInfo.logical
    rw [decide_eq_false_iff_not]
    omega
  unfold DiskInfo.items at hholds
  simp only [List.mem_append, or_imp, forall_and] at hholds
  obtain ⟨hitems, hblanks⟩ := hholds
  have hsame : dinfo.partLst ++ [] = dinfo.partLst := List.append_nil _
  rw [← hsame] at hitems
  obtain ⟨hfound, hext, _⟩ := primaries_read hprimary (by rw [hsame]; exact hgood) hitems
  have hblank : ∀ i ∈ List.range' dinfo.partLst.length (4 - dinfo.partLst.length),
      primary img i = none ∧ extendedStart img i = none := by
    intro i hi
    exact blank_of_holds hsect (hblanks _ (List.mem_map_of_mem hi))
  have hslots : List.range 4
      = List.range' 0 dinfo.partLst.length
        ++ List.range' dinfo.partLst.length (4 - dinfo.partLst.length) := by
    have hsplit := List.range'_append_1 (s := 0) (m := dinfo.partLst.length)
      (n := 4 - dinfo.partLst.length)
    rw [Nat.zero_add] at hsplit
    rw [List.range_eq_range', hsplit, Nat.add_sub_cancel' (show dinfo.partLst.length ≤ 4 from hfew)]
  have hnone : (List.range 4).findSome? (extendedStart img) = none := by
    rw [List.findSome?_eq_none_iff, hslots]
    intro i hi
    cases List.mem_append.mp hi with
    | inl hused => exact hext i hused
    | inr hempty => exact (hblank i hempty).right
  have hprimaries : (List.range 4).filterMap (primary img) = dinfo.configured := by
    rw [hslots, List.filterMap_append, hfound]
    rw [List.filterMap_eq_nil_iff.mpr fun i hi => (hblank i hi).left, List.append_nil]
    rfl
  unfold readTable
  rw [hsig, hnone, hprimaries]
  rfl

theorem itemsFrom_opens {cnt cur : Nat} (ext : Nat) (parts : List PartInfo)
    (hopens : dinfo.opens cnt = true)
    : dinfo.itemsFrom cnt cur ext parts = dinfo.itemsFrom cnt cur cur parts := by
  have hext (ext : Nat) : dinfo.extFrom cnt cur ext = cur := if_pos hopens
  cases parts with
  | nil => rfl
  | cons pinfo rest =>
    unfold DiskInfo.itemsFrom
    rw [hext, hext]

theorem extended_of_holds {img : Image} {stop : Nat} (hstop : stop < dinfo.numLba.toNat)
    (hholds : Holds img (dinfo.extendedItem stop))
    : primary img 3 = none ∧ extendedStart img 3 = some stop := by
  have hnum : dinfo.numLba.toNat < 2 ^ 32 := dinfo.numLba.toNat_lt
  have hslot := slot_of_holds (i := 3) hholds
  unfold primary extendedStart
  rw [hslot]
  dsimp only
  rw [used_cfgPentry _ _ _ (by omega) (by omega), cfgPentry_startLba _ _ _ (by omega)]
  exact ⟨rfl, rfl⟩

theorem extended_read {img : Image} {stop : Nat} {pinfo : PartInfo} {rest : List PartInfo}
    (hopens : dinfo.opens 3 = true)
    (hgood : ∀ found ∈ dinfo.configuredFrom 3 stop (pinfo :: rest), Good dinfo found)
    (hholds : ∀ item ∈ dinfo.itemsFrom 3 stop stop (pinfo :: rest), Holds img item)
    : primary img 3 = none ∧ extendedStart img 3 = some stop := by
  have hstop := (hgood _ List.mem_cons_self).stop_le
  have hpos := (hgood _ List.mem_cons_self).pos
  dsimp only at hstop hpos
  have hlt : stop < dinfo.numLba.toNat := by omega
  apply extended_of_holds hlt
  apply hholds
  unfold DiskInfo.itemsFrom
  rw [if_pos hopens]
  exact List.mem_cons_self

theorem readTable_extended {img : Image} {sect fuel stop : Nat} {front back : List Found}
    (hsig : sigAt img 0 = signature) (hfront : (List.range' 0 3).filterMap (primary img) = front)
    (hnone : ∀ i ∈ List.range' 0 3, extendedStart img i = none)
    (hslot : primary img 3 = none ∧ extendedStart img 3 = some stop)
    (hback : chain img sect stop fuel stop 5 = some back)
    : readTable img sect fuel = some (front ++ back) := by
  have hslots : List.range 4 = List.range' 0 3 ++ [3] := rfl
  have hext : (List.range 4).findSome? (extendedStart img) = some stop := by
    rw [hslots, List.findSome?_append, List.findSome?_eq_none_iff.mpr hnone]
    simp [hslot.right]
  have hprimaries : (List.range 4).filterMap (primary img) = front := by
    rw [← hfront, hslots, List.filterMap_append]
    simp [hslot.left]
  unfold readTable
  rw [hsig, hext, hprimaries]
  dsimp only
  rw [hback]
  rfl

theorem read_extended {img : Image} {fuel : Nat}
    (hmany : pcNumBootRecordParts < dinfo.partLst.length) (hfuel : dinfo.partLst.length ≤ fuel)
    (hsig : sigAt img 0 = signature) (hgood : ∀ found ∈ dinfo.configured, Good dinfo found)
    (hholds : ∀ item ∈ dinfo.items, Holds img item)
    : readTable img dinfo.sectSize.toNat fuel = some dinfo.configured := by
  unfold pcNumBootRecordParts at hmany
  have hfront : (dinfo.partLst.take 3).length = 3 := by
    rw [List.length_take]
    omega
  have hprimary : ∀ k < (dinfo.partLst.take 3).length, dinfo.logical (0 + k) = false := by
    intro k hk
    unfold DiskInfo.logical pcNumBootRecordParts
    rw [decide_eq_false_iff_not]
    omega
  have hlogical : dinfo.logical 3 = true := decide_eq_true ⟨Nat.le_refl _, hmany⟩
  have hopens : dinfo.opens 3 = true := decide_eq_true ⟨rfl, hmany⟩
  have hsplit := List.take_append_drop 3 dinfo.partLst
  have hitems : ∀ item ∈ dinfo.itemsFrom 0 dinfo.skipLba.toNat 0
      (dinfo.partLst.take 3 ++ dinfo.partLst.drop 3), Holds img item := by
    rw [hsplit]
    exact fun item hitem => hholds item (List.mem_append_left _ hitem)
  obtain ⟨hfound, hnone, stop, hback, happend⟩ :=
    primaries_read hprimary (by rw [hsplit]; exact hgood) hitems
  rw [hfront, Nat.zero_add] at *
  rw [hsplit] at happend
  rw [itemsFrom_opens 0 _ hopens] at hback
  have hgood' : ∀ found ∈ dinfo.configuredFrom 3 stop (dinfo.partLst.drop 3), Good dinfo found := by
    intro found hmem
    apply hgood
    unfold DiskInfo.configured
    rw [happend]
    exact List.mem_append_right _ hmem
  have hrest : (dinfo.partLst.drop 3).length ≤ fuel := by
    rw [List.length_drop]
    omega
  obtain ⟨pinfo, rest, hdrop⟩ : ∃ pinfo rest, dinfo.partLst.drop 3 = pinfo :: rest := by
    apply List.exists_cons_of_ne_nil
    rw [ne_eq, List.drop_eq_nil_iff]
    omega
  have hchain : chain img dinfo.sectSize.toNat stop fuel stop (3 + 2)
      = some (dinfo.configuredFrom 3 stop (dinfo.partLst.drop 3)) :=
    chain_read hlogical (ite_self stop) (Nat.le_refl stop) (by rw [hdrop]; exact List.cons_ne_nil _ _)
      hrest hgood' hback
  have hslot : primary img 3 = none ∧ extendedStart img 3 = some stop := by
    rw [hdrop] at hback hgood'
    exact extended_read hopens hgood' hback
  unfold DiskInfo.configured
  rw [happend]
  exact readTable_extended hsig hfound hnone hslot hchain

/-! ### The numbers in the names of the device nodes -/

def deviceNode (dinfo : DiskInfo) (num : Nat) : Option Bytes :=
  let sep := if dinfo.device.getLast?.any isdigit then str "p" else []
  let devName := dinfo.device ++ sep ++ dec num
  if devName.length ≥ maxNameLen then none else some devName

theorem partNum_eq {i : Nat} {pinfo : PartInfo} (hnames : (dinfo.partLst.map PartInfo.name).Nodup)
    (h : dinfo.partLst[i]? = some pinfo) : partNum dinfo pinfo.name = some (dinfo.number i) := by
  have hidx : dinfo.partLst.findIdx? (fun p => p.name = pinfo.name) = some i := by
    obtain ⟨hi, heq⟩ := List.getElem?_eq_some_iff.mp h
    rw [List.findIdx?_eq_some_iff_getElem]
    refine ⟨hi, ?_, ?_⟩
    . rw [heq]
      exact decide_eq_true rfl
    . intro j hj
      rw [Bool.not_eq_true, decide_eq_false_iff_not, ← heq]
      intro hsame
      have hpair := List.pairwise_iff_getElem.mp hnames j i (by simp; omega) (by simpa) hj
      rw [List.getElem_map, List.getElem_map] at hpair
      exact hpair hsame
  unfold partNum
  rw [hidx]
  unfold DiskInfo.number DiskInfo.logical
  dsimp only
  by_cases hlogical : pcNumBootRecordParts ≤ i + 1 ∧ pcNumBootRecordParts < dinfo.partLst.length
  . rw [if_pos ⟨hlogical.right, hlogical.left⟩, if_pos (decide_eq_true hlogical)]
  . rw [if_neg (by omega), if_neg (by rw [decide_eq_true_iff]; exact hlogical)]

theorem configuredFrom_number {cnt cur i : Nat} {parts : List PartInfo} {found : Found}
    (h : (dinfo.configuredFrom cnt cur parts)[i]? = some found) : found.number = dinfo.number (cnt + i) := by
  induction parts generalizing cnt cur i with
  | nil => contradiction
  | cons pinfo rest ih =>
    rw [DiskInfo.configuredFrom_cons] at h
    cases i with
    | zero =>
      simp only [List.getElem?_cons_zero, Option.some.injEq] at h
      rw [← h, Nat.add_zero]
    | succ i =>
      rw [List.getElem?_cons_succ] at h
      rw [ih h, Nat.add_assoc, Nat.add_comm 1 i]

theorem findMbrPart_eq {i : Nat} {pinfo : PartInfo} (hnames : (dinfo.partLst.map PartInfo.name).Nodup)
    (h : dinfo.partLst[i]? = some pinfo)
    : findMbrPart true dinfo pinfo.name = deviceNode dinfo (dinfo.number i) := by
  unfold findMbrPart
  rw [partNum_eq hnames h]
  rfl

/-! ### Main result -/

theorem wlistCommit_complete {write : Nat → Bool} {n : Nat} {lst written : List WriteItem}
    (h : wlistCommit write n lst = (true, written)) : written = lst := by
  induction lst generalizing n written with
  | nil =>
    unfold wlistCommit at h
    simp only [Prod.mk.injEq, true_and] at h
    exact h.symm
  | cons item lst ih =>
    unfold wlistCommit at h
    split at h
    . simp only [Prod.mk.injEq] at h
      have hrest := ih (Prod.ext h.left rfl)
      rw [← h.right]
      exact congrArg (item :: ·) hrest
    . simp only [Prod.mk.injEq, Bool.false_eq_true, false_and] at h

theorem written_table_reads_back {dinfo dinfo' : DiskInfo} {mem write : Nat → Bool}
    {wrList written : List WriteItem} {fuel : Nat} (img : Image)
    (hnames : (dinfo.partLst.map PartInfo.name).Nodup) (hsect : dinfo.PowerOfTwoSect)
    (hskip : 0 < dinfo.skipLba.toNat) (hlens : ∀ pinfo ∈ dinfo.partLst, pinfo.lenKb ≠ 0)
    (htypes : ∀ pinfo ∈ dinfo.partLst, isExtended pinfo.type = false)
    (hfits : dinfo.Fits dinfo.configured) (hconfig : configMbr dinfo mem = (some wrList, dinfo'))
    (hcommit : wlistCommit write 0 wrList = (true, written)) (hfuel : dinfo.partLst.length ≤ fuel)
    : readTable (commit img written) dinfo.sectSize.toNat fuel = some dinfo.configured
      ∧ dinfo'.partLst.map (·.startLba.toNat) = dinfo.configured.map (·.start)
      ∧ ∀ (i : Nat) (pinfo : PartInfo) (found : Found),
          dinfo.partLst[i]? = some pinfo → dinfo.configured[i]? = some found →
          findMbrPart true dinfo' pinfo.name = deviceNode dinfo' found.number := by
  obtain ⟨hwrList, hdevice, hnames', hstarts, hspace⟩ := configMbr_exact hsect hfits hconfig
  have hgood := configured_good hlens htypes hfits hsect hspace
  have hholds := commit_holds img hsect hskip
  have hsig := commit_signature img hsect hskip
  rw [wlistCommit_complete hcommit, hwrList]
  refine ⟨?_, hstarts, ?_⟩
  . by_cases hfew : dinfo.partLst.length ≤ pcNumBootRecordParts
    . exact read_primaries fuel hsect hfew hsig hgood hholds
    . exact read_extended (by omega) hfuel hsig hgood hholds
  . intro i pinfo found hpinfo hfound
    have hlength : dinfo'.partLst.length = dinfo.partLst.length := by
      simpa using congrArg List.length hnames'
    have hnumber : dinfo'.number i = dinfo.number i := by
      unfold DiskInfo.number DiskInfo.logical
      rw [hlength]
    have hname : (dinfo'.partLst.map PartInfo.name)[i]? = some pinfo.name := by
      rw [hnames', List.getElem?_map, hpinfo]
      rfl
    rw [List.getElem?_map, Option.map_eq_some_iff] at hname
    obtain ⟨pinfo', hpinfo', heq⟩ := hname
    rw [← heq, findMbrPart_eq (by rw [hnames']; exact hnames) hpinfo', hnumber,
      configuredFrom_number hfound, Nat.zero_add]

def sixParts : DiskInfo :=
  let part (name : String) (type : UInt8) (lenKb : UInt32) : PartInfo := ⟨str name, 0, type, lenKb, 0⟩
  ⟨str "/dev/mmcblk0", partSchemeMbr, 512, 1, 41,
    [part "boot" pcPartTypeFat32 1, part "system" pcPartTypeLinux 2, part "cache" pcPartTypeLinux 1,
      part "misc" pcPartTypeLinux 3, part "panic" pcPartTypeLinux 1, part "data" pcPartTypeLinux fillDisk]⟩

theorem written_table_reads_back_sixParts
    : let written := (configMbr sixParts fun _ => true).1.getD []
      readTable (commit (fun _ => 0xff) written) 512 6
        = some [⟨1, 1, 2, 0x0c⟩, ⟨2, 3, 4, 0x83⟩, ⟨3, 7, 2, 0x83⟩, ⟨5, 10, 6, 0x83⟩, ⟨6, 17, 2, 0x83⟩,
            ⟨7, 20, 21, 0x83⟩]
      ∧ findMbrPart true (configMbr sixParts fun _ => true).2 (str "data") = some (str "/dev/mmcblk0p7")
    := by
  have hconfig : configMbr sixParts (fun _ => true)
      = (some ((configMbr sixParts fun _ => true).1.getD []), (configMbr sixParts fun _ => true).2) :=
    rfl
  have hcommit : wlistCommit (fun _ => true) 0 ((configMbr sixParts fun _ => true).1.getD [])
      = (true, (configMbr sixParts fun _ => true).1.getD []) :=
    rfl
  obtain ⟨hread, _, hnode⟩ := written_table_reads_back (fun _ => 0xff) (by decide)
    ⟨9, by decide, by decide, rfl⟩ (by decide) (by decide) (by decide) (by decide) hconfig hcommit
    (Nat.le_refl 6)
  refine ⟨hread, ?_⟩
  exact hnode 5 ⟨str "data", 0, pcPartTypeLinux, fillDisk, 0⟩ ⟨7, 20, 21, pcPartTypeLinux⟩ rfl rfl

end Disk
