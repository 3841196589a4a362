import Tboot.Disk.Impl.Validate
import Tboot.Util.Region

/-!
This module contains what the list of writes of `config_mbr` says about the disk: which sectors it gives
to which partition, and when these sectors are apart and on the disk.
-/

namespace Disk

def DiskInfo.PowerOfTwoSect (dinfo : DiskInfo) : Prop :=
  ∃ k, 9 ≤ k ∧ k < 31 ∧ dinfo.sectSize.toNat = 2 ^ k

def PartInfo.Typed (pinfo : PartInfo) : Prop :=
  pinfo.type = pcPartTypeLinux ∨ pinfo.type = pcPartTypeFat32

namespace DiskInfo

theorem PowerOfTwoSect.sect64_eq {dinfo : DiskInfo} (h : dinfo.PowerOfTwoSect)
    : dinfo.sect64 = dinfo.sectSize.toNat := by
  obtain ⟨k, _, hk, heq⟩ := h
  have hlt : 2 ^ k < 2 ^ 31 := Nat.pow_lt_pow_right (by decide) hk
  unfold sect64
  rw [heq, if_pos hlt]

theorem PowerOfTwoSect.pos {dinfo : DiskInfo} (h : dinfo.PowerOfTwoSect)
    : 0 < dinfo.sectSize.toNat := by
  obtain ⟨k, _, _, heq⟩ := h
  rw [heq]
  exact Nat.two_pow_pos k

end DiskInfo

def sectorsFor (lenKb : UInt32) (sect : Nat) : Nat :=
  (lenKb.toNat * 1024 + (sect - 1)) / sect

theorem lenLba64_eq {dinfo : DiskInfo} (h : dinfo.PowerOfTwoSect) (lenKb : UInt32)
    : lenLba64 lenKb dinfo.sectSize.toNat = sectorsFor lenKb dinfo.sectSize.toNat := by
  obtain ⟨k, _, hk, heq⟩ := h
  have hlt : 2 ^ k < 2 ^ 31 := Nat.pow_lt_pow_right (by decide) hk
  have hpos : 0 < 2 ^ k := Nat.two_pow_pos k
  have hkb : lenKb.toNat < 2 ^ 32 := lenKb.toNat_lt
  -- The sum is below 2^64 once the 2^64 that stands for the -1 is taken off.
  have hsum : u64 (lenKb.toNat * 1024 + 2 ^ k + (2 ^ 64 - 1)) = lenKb.toNat * 1024 + (2 ^ k - 1) := by
    unfold u64
    omega
  unfold lenLba64 sectorsFor
  rw [heq, hsum, maskOff_two_pow (by omega) (by omega)]
  exact Nat.mul_div_cancel _ hpos

theorem kbToLba_eq {dinfo : DiskInfo} (h : dinfo.PowerOfTwoSect) (lenKb : UInt32)
    : kbToLba lenKb dinfo.sectSize.toNat = u32 (sectorsFor lenKb dinfo.sectSize.toNat) := by
  unfold kbToLba
  rw [lenLba64_eq h]

/-! ### The regions of a list of writes -/

/--
The regions that an item of the list puts on the disk. An entry of the master boot record is one
partition, unless it is unused or the extended partition, which only holds other regions. An extended
boot record is its own sector and the logical partition that it points to.
-/
def emitted (sect : Nat) (item : WriteItem) : List (Region Nat) :=
  match item.data with
  | .pentry entry =>
    if entry.type = 0 ∨ entry.type = pcPartTypeExtended then
      []
    else
      [⟨entry.startLba.toNat, entry.startLba.toNat + entry.lenLba.toNat⟩]
  | .bootRecord record =>
    let ebr := item.offset / sect
    let data := ebr + record.logical.startLba.toNat
    [⟨data, data + record.logical.lenLba.toNat⟩, ⟨ebr, ebr + 1⟩]
  | .raw _ => []

def regions (dinfo : DiskInfo) (wrList : List WriteItem) : List (Region Nat) :=
  wrList.flatMap (emitted dinfo.sectSize.toNat) ++ [⟨0, dinfo.skipLba.toNat⟩]

theorem regions_cons (dinfo : DiskInfo) (item : WriteItem) (wrList : List WriteItem)
    : regions dinfo (item :: wrList) = emitted dinfo.sectSize.toNat item ++ regions dinfo wrList := by
  simp only [regions, List.flatMap_cons, List.append_assoc]

structure Sound (dinfo : DiskInfo) (wrList : List WriteItem) : Prop where
  apart : (regions dinfo wrList).Pairwise Region.Apart
  fits : ∀ r ∈ regions dinfo wrList, r.stop ≤ dinfo.numLba.toNat

/-! ### The layout in exact arithmetic -/

def DiskInfo.logical (dinfo : DiskInfo) (cnt : Nat) : Bool :=
  decide (pcNumBootRecordParts ≤ cnt + 1 ∧ pcNumBootRecordParts < dinfo.partLst.length)

def DiskInfo.ebrLen (dinfo : DiskInfo) (cnt : Nat) : Nat :=
  if dinfo.logical cnt then 1 else 0

/--
The sector after the partitions when they are placed from sector `cur` on, in exact arithmetic. A
partition has the number of sectors that its entry has room for; one that fills the disk ends with the
disk.
-/
def layoutEnd (dinfo : DiskInfo) (cnt cur : Nat) : List PartInfo → Nat
  | [] => cur
  | pinfo :: rest =>
    let data := cur + dinfo.ebrLen cnt
    let stop :=
      if pinfo.lenKb = fillDisk then
        max data dinfo.numLba.toNat
      else
        data + u32 (sectorsFor pinfo.lenKb dinfo.sectSize.toNat)
    layoutEnd dinfo (cnt + 1) stop rest

theorem le_layoutEnd (dinfo : DiskInfo) (cnt cur : Nat) (parts : List PartInfo)
    : cur ≤ layoutEnd dinfo cnt cur parts := by
  induction parts generalizing cnt cur with
  | nil => exact Nat.le_refl cur
  | cons pinfo rest ih =>
    refine Nat.le_trans ?_ (ih (cnt + 1) _)
    split
    . exact Nat.le_trans (Nat.le_add_right _ _) (Nat.le_max_left _ _)
    . omega

/-! ### What one partition does to the cursor -/

def placedLen (dinfo : DiskInfo) (pinfo : PartInfo) (data : Nat) : Nat :=
  if pinfo.lenKb = fillDisk then
    u32 (dinfo.numLba.toNat + 2 ^ 32 - data)
  else
    u32 (sectorsFor pinfo.lenKb dinfo.sectSize.toNat)

theorem placedLen_lt (dinfo : DiskInfo) (pinfo : PartInfo) (data : Nat)
    : placedLen dinfo pinfo data < 2 ^ 32 := by
  unfold placedLen
  split
  all_goals exact u32_lt _

def ebrRegions (dinfo : DiskInfo) (cnt cur : Nat) : List (Region Nat) :=
  if dinfo.logical cnt then [⟨cur, cur + 1⟩] else []

namespace configMbr

structure Between (dinfo : DiskInfo) (cnt : Nat) (c : Cursor) : Prop where
  lba_lt : c.curLba < 2 ^ 32
  extended_eq : c.extended = decide (pcNumBootRecordParts ≤ cnt ∧ pcNumBootRecordParts < dinfo.partLst.length)

structure Placed (dinfo : DiskInfo) (cnt : Nat) (pinfo : PartInfo) (c c' : Cursor) : Prop where
  space : u32 (c.curLba + dinfo.ebrLen cnt) < dinfo.numLba.toNat
  lba : c'.curLba = u32 (u32 (c.curLba + dinfo.ebrLen cnt)
    + placedLen dinfo pinfo (u32 (c.curLba + dinfo.ebrLen cnt)))
  regions_eq : regions dinfo c'.wrList =
    ⟨c.curLba + dinfo.ebrLen cnt, c.curLba + dinfo.ebrLen cnt
      + placedLen dinfo pinfo (u32 (c.curLba + dinfo.ebrLen cnt))⟩
      :: (ebrRegions dinfo cnt c.curLba ++ regions dinfo c.wrList)

def priLen (dinfo : DiskInfo) (pinfo : PartInfo) (lba : Nat) : Nat :=
  if pinfo.lenKb ≠ fillDisk then
    lenLba64 pinfo.lenKb dinfo.sect64
  else
    u32 (dinfo.numLba.toNat + 2 ^ 32 - lba)

theorem mkPriPentry_some {dinfo : DiskInfo} {pinfo : PartInfo} {pnum lba : Nat} {mem : Bool}
    {item : WriteItem} {pinfo' : Option PartInfo} {lba' : Nat}
    (h : mkPriPentry dinfo (some pinfo) pnum lba mem = some (item, pinfo', lba'))
    : item
        =
      ⟨ptableOffset pnum,
        .pentry (cfgPentry (if pinfo.flags &&& partActiveFlag ≠ 0 then pcPartActive else pcPartNormal)
          pinfo.type lba (u32 (priLen dinfo pinfo lba)))⟩
      ∧ pinfo' = some { pinfo with startLba := UInt32.ofNat lba }
      ∧ lba' = u32 (lba + u32 (priLen dinfo pinfo lba)) := by
  unfold mkPriPentry at h
  split at h
  . contradiction
  . split at h
    . contradiction
    . simp only [Option.some.injEq, Prod.mk.injEq] at h
      exact ⟨h.left.symm, h.right.left.symm, h.right.right.symm⟩

theorem mkPriPentry_none {dinfo : DiskInfo} {pnum lba : Nat} {mem : Bool} {item : WriteItem}
    {pinfo' : Option PartInfo} {lba' : Nat}
    (h : mkPriPentry dinfo none pnum lba mem = some (item, pinfo', lba'))
    : item
        =
      ⟨ptableOffset pnum,
        .pentry (cfgPentry pcPartNormal pcPartTypeExtended lba
          (u32 (dinfo.numLba.toNat + 2 ^ 32 - lba)))⟩ := by
  unfold mkPriPentry at h
  split at h
  . contradiction
  . split at h
    . contradiction
    . simp only [Option.some.injEq, Prod.mk.injEq] at h
      exact h.left.symm

theorem mkPriPentry_spec {dinfo : DiskInfo} {pinfo : PartInfo} {pnum lba : Nat} {mem : Bool}
    {item : WriteItem} {pinfo' : Option PartInfo} {lba' : Nat} (hsect : dinfo.PowerOfTwoSect)
    (htype : pinfo.Typed) (hlba : lba < 2 ^ 32)
    (h : mkPriPentry dinfo (some pinfo) pnum lba mem = some (item, pinfo', lba'))
    : emitted dinfo.sectSize.toNat item = [⟨lba, lba + placedLen dinfo pinfo lba⟩]
      ∧ lba' = u32 (lba + placedLen dinfo pinfo lba) := by
  have hlen : u32 (priLen dinfo pinfo lba) = placedLen dinfo pinfo lba := by
    unfold priLen placedLen
    rw [hsect.sect64_eq, lenLba64_eq hsect]
    by_cases hfill : pinfo.lenKb = fillDisk
    . simp only [hfill, ne_eq, not_true_eq_false, ↓reduceIte]
      exact u32_of_lt (u32_lt _)
    . simp only [hfill, ne_eq, not_false_eq_true, ↓reduceIte]
  rcases mkPriPentry_some h with ⟨hitem, _, hlba'⟩
  rw [hlen] at hitem hlba'
  constructor
  . have hplaced := placedLen_lt dinfo pinfo lba
    have hused : ¬ (pinfo.type = 0 ∨ pinfo.type = pcPartTypeExtended) := by
      cases htype with
      | inl heq => rw [heq]; decide
      | inr heq => rw [heq]; decide
    rw [hitem]
    simp only [emitted, cfgPentry, hused, ↓reduceIte]
    simp only [UInt32.toNat_ofNat', Nat.mod_eq_of_lt hlba, Nat.mod_eq_of_lt hplaced]
  . exact hlba'

theorem mkExtPentry_spec {dinfo : DiskInfo} {pinfo : PartInfo} {lba extLba : Nat}
    {pnext : Option PartInfo} {mem : Bool} {item : WriteItem} {pinfo' : PartInfo} {lba' : Nat}
    (hsect : dinfo.PowerOfTwoSect) (hlba : lba < 2 ^ 32)
    (h : mkExtPentry dinfo pinfo lba extLba pnext mem = some (item, pinfo', lba'))
    : emitted dinfo.sectSize.toNat item
        = [⟨lba + 1, lba + 1 + placedLen dinfo pinfo (u32 (lba + 1))⟩, ⟨lba, lba + 1⟩]
      ∧ lba' = u32 (u32 (lba + 1) + placedLen dinfo pinfo (u32 (lba + 1))) := by
  unfold mkExtPentry at h
  split at h
  . contradiction
  . dsimp only at h
    split at h
    . contradiction
    . have hlen :
          (if pinfo.lenKb ≠ fillDisk then kbToLba pinfo.lenKb dinfo.sectSize.toNat
            else u32 (dinfo.numLba.toNat + 2 ^ 32 - u32 (lba + 1)))
            =
          placedLen dinfo pinfo (u32 (lba + 1)) := by
        rw [kbToLba_eq hsect]
        unfold placedLen
        by_cases hfill : pinfo.lenKb = fillDisk
        . simp only [hfill, ne_eq, not_true_eq_false, ↓reduceIte]
        . simp only [hfill, ne_eq, not_false_eq_true, ↓reduceIte]
      rw [hlen] at h
      simp only [Option.some.injEq, Prod.mk.injEq] at h
      obtain ⟨hitem, _, hlba'⟩ := h
      constructor
      . have hplaced := placedLen_lt dinfo pinfo (u32 (lba + 1))
        have hoffset : u64 (lba * dinfo.sect64) / dinfo.sectSize.toNat = lba := by
          rw [hsect.sect64_eq]
          have hlt : lba * dinfo.sectSize.toNat < 2 ^ 32 * 2 ^ 32 :=
            Nat.mul_lt_mul'' hlba dinfo.sectSize.toNat_lt
          rw [u64_of_lt (Nat.lt_of_lt_of_le hlt (by decide))]
          exact Nat.mul_div_cancel _ hsect.pos
        rw [← hitem]
        simp only [emitted, cfgPentry, hoffset]
        simp only [UInt32.toNat_ofNat', Nat.mod_eq_of_lt hplaced]
      . exact hlba'.symm

theorem mkPriPentry_none_spec {dinfo : DiskInfo} {pnum lba : Nat} {mem : Bool} {item : WriteItem}
    {pinfo' : Option PartInfo} {lba' : Nat}
    (h : mkPriPentry dinfo none pnum lba mem = some (item, pinfo', lba'))
    : emitted dinfo.sectSize.toNat item = [] := by
  rw [mkPriPentry_none h]
  simp only [emitted, cfgPentry, or_true, ↓reduceIte]

theorem openExtended_spec {dinfo : DiskInfo} {mem : Nat → Bool} {cnt : Nat} {c c1 : Cursor}
    (hc : Between dinfo cnt c) (h : openExtended dinfo mem cnt c = some c1)
    : c1.curLba = c.curLba ∧ c1.extended = dinfo.logical cnt
      ∧ regions dinfo c1.wrList = regions dinfo c.wrList := by
  unfold openExtended at h
  split at h
  . next hopen =>
    split at h
    . next item _ _ hentry =>
      simp only [Option.some.injEq] at h
      rw [← h]
      refine ⟨rfl, ?_, ?_⟩
      . simp only [Cursor.add, DiskInfo.logical]
        symm
        rw [decide_eq_true_iff]
        unfold pcNumBootRecordParts at *
        omega
      . simp only [Cursor.add, regions_cons, mkPriPentry_none_spec hentry, List.nil_append]
    . contradiction
  . next hopen =>
    simp only [Option.some.injEq] at h
    rw [← h]
    refine ⟨rfl, ?_, rfl⟩
    rw [hc.extended_eq]
    unfold DiskInfo.logical
    rw [decide_eq_decide]
    unfold pcNumBootRecordParts at *
    omega

theorem addPart_spec {dinfo : DiskInfo} {mem : Nat → Bool} {cnt : Nat} {pinfo : PartInfo}
    {pnext : Option PartInfo} {c c' : Cursor} (hsect : dinfo.PowerOfTwoSect) (htype : pinfo.Typed)
    (hlba : c.curLba < 2 ^ 32) (h : addPart dinfo mem cnt pinfo pnext c = some c')
    : c'.extended = c.extended
      ∧ c'.curLba = u32 (u32 (c.curLba + c.ext) + placedLen dinfo pinfo (u32 (c.curLba + c.ext)))
      ∧ regions dinfo c'.wrList =
          ⟨c.curLba + c.ext, c.curLba + c.ext + placedLen dinfo pinfo (u32 (c.curLba + c.ext))⟩
            :: ((if c.extended then [⟨c.curLba, c.curLba + 1⟩] else []) ++ regions dinfo c.wrList)
    := by
  unfold addPart at h
  split at h
  . next hext =>
    split at h
    . next item pinfo' lba hentry =>
      obtain ⟨hregions, hlba'⟩ := mkExtPentry_spec hsect hlba hentry
      simp only [Option.some.injEq] at h
      rw [← h]
      simp only [Cursor.add, Cursor.ext, hext, ↓reduceIte, regions_cons, hregions]
      exact ⟨trivial, hlba', rfl⟩
    . contradiction
  . next hext =>
    split at h
    . next item pinfo' lba hentry =>
      obtain ⟨hregions, hlba'⟩ := mkPriPentry_spec hsect htype hlba hentry
      simp only [Option.some.injEq] at h
      rw [← h]
      simp only [Cursor.add, Cursor.ext, hext, Bool.false_eq_true, ↓reduceIte, Nat.add_zero,
        u32_of_lt hlba, regions_cons, hregions]
      exact ⟨trivial, hlba', rfl⟩
    . contradiction

theorem hasSpace_spec {dinfo : DiskInfo} {pinfo : PartInfo} {c : Cursor}
    (h : hasSpace dinfo pinfo c = true) : u32 (c.curLba + c.ext) < dinfo.numLba.toNat := by
  unfold hasSpace at h
  split at h
  . contradiction
  . next hroom =>
    exact Nat.lt_of_not_le hroom

theorem placed_of_loop {dinfo : DiskInfo} {mem : Nat → Bool} {cnt : Nat} {pinfo : PartInfo}
    {rest : List PartInfo} {c c' : Cursor} (hsect : dinfo.PowerOfTwoSect) (htype : pinfo.Typed)
    (hc : Between dinfo cnt c) (h : loop dinfo mem cnt c (pinfo :: rest) = .ok c')
    : ∃ c2, Placed dinfo cnt pinfo c c2 ∧ Between dinfo (cnt + 1) c2
        ∧ loop dinfo mem (cnt + 1) c2 rest = .ok c' := by
  unfold loop at h
  split at h
  . contradiction
  . next c1 hopen =>
    obtain ⟨hcur1, hext1, hregions1⟩ := openExtended_spec hc hopen
    split at h
    . next hspace =>
      split at h
      . contradiction
      . next c2 hadd =>
        have hlba1 : c1.curLba < 2 ^ 32 := by
          rw [hcur1]
          exact hc.lba_lt
        obtain ⟨hext2, hcur2, hregions2⟩ := addPart_spec hsect htype hlba1 hadd
        have hebr : c1.ext = dinfo.ebrLen cnt := by
          unfold Cursor.ext DiskInfo.ebrLen
          rw [hext1]
        have hroom := hasSpace_spec hspace
        rw [hcur1, hebr] at hcur2 hregions2 hroom
        rw [hext1, hregions1] at hregions2
        refine ⟨c2, ⟨hroom, hcur2, hregions2⟩, ⟨?_, ?_⟩, h⟩
        . rw [hcur2]
          exact u32_lt _
        . rw [hext2, hext1]
          rfl
    . contradiction

variable {dinfo : DiskInfo} {mem : Nat → Bool}

def exactStop (dinfo : DiskInfo) (cnt cur : Nat) (pinfo : PartInfo) : Nat :=
  layoutEnd dinfo cnt cur [pinfo]

theorem layoutEnd_cons (dinfo : DiskInfo) (cnt cur : Nat) (pinfo : PartInfo) (rest : List PartInfo)
    : layoutEnd dinfo cnt cur (pinfo :: rest)
        =
      layoutEnd dinfo (cnt + 1) (exactStop dinfo cnt cur pinfo) rest :=
  rfl

def placedStop (dinfo : DiskInfo) (cnt cur : Nat) (pinfo : PartInfo) : Nat :=
  cur + dinfo.ebrLen cnt + placedLen dinfo pinfo (u32 (cur + dinfo.ebrLen cnt))

theorem Placed.exact {cnt : Nat} {pinfo : PartInfo} {c c' : Cursor}
    (h : Placed dinfo cnt pinfo c c') (hle : exactStop dinfo cnt c.curLba pinfo ≤ dinfo.numLba.toNat)
    : placedStop dinfo cnt c.curLba pinfo = exactStop dinfo cnt c.curLba pinfo
      ∧ c'.curLba = exactStop dinfo cnt c.curLba pinfo := by
  have hnum : dinfo.numLba.toNat < 2 ^ 32 := dinfo.numLba.toNat_lt
  have hspace := h.space
  rw [h.lba]
  unfold placedStop placedLen
  unfold exactStop layoutEnd layoutEnd at *
  dsimp only at *
  generalize c.curLba + dinfo.ebrLen cnt = data at *
  split at hle
  . next hfill =>
    have hdata : u32 data = data := u32_of_lt (by omega)
    simp only [hfill, ↓reduceIte, hdata] at *
    have hlen : u32 (dinfo.numLba.toNat + 2 ^ 32 - data) = dinfo.numLba.toNat - data := by
      unfold u32
      omega
    rw [hlen, u32_of_lt (by omega)]
    omega
  . next hfill =>
    have hdata : u32 data = data := u32_of_lt (by omega)
    simp only [hfill, ↓reduceIte, hdata, true_and]
    exact u32_of_lt (by omega)

theorem exactStop_le {cnt cur : Nat} {pinfo : PartInfo}
    (hle : placedStop dinfo cnt cur pinfo ≤ dinfo.numLba.toNat)
    : exactStop dinfo cnt cur pinfo ≤ dinfo.numLba.toNat := by
  unfold placedStop placedLen at hle
  unfold exactStop layoutEnd layoutEnd
  dsimp only
  split
  . omega
  . next hfill =>
    simpa only [hfill, ↓reduceIte] using hle

/-! ### The loop -/

theorem loop_packed {cnt : Nat} {parts : List PartInfo} {c c' : Cursor}
    (hsect : dinfo.PowerOfTwoSect) (htype : ∀ pinfo ∈ parts, pinfo.Typed)
    (hc : Between dinfo cnt c) (hpacked : Region.Packed 0 c.curLba (regions dinfo c.wrList))
    (hend : layoutEnd dinfo cnt c.curLba parts ≤ dinfo.numLba.toNat)
    (h : loop dinfo mem cnt c parts = .ok c')
    : Region.Packed 0 dinfo.numLba.toNat (regions dinfo c'.wrList) := by
  induction parts generalizing cnt c with
  | nil =>
    unfold loop at h
    cases h
    exact hpacked.mono hend
  | cons pinfo rest ih =>
    obtain ⟨c2, hplaced, hc2, hloop⟩ := placed_of_loop hsect (htype pinfo (by simp)) hc h
    rw [layoutEnd_cons] at hend
    obtain ⟨hstop, hcur⟩ := hplaced.exact (Nat.le_trans (le_layoutEnd _ _ _ _) hend)
    rw [← hcur] at hend hstop
    refine ih (fun p hp => htype p (by simp [hp])) hc2 ?_ hend hloop
    -- The data comes above the boot record, when there is one, and this above all that was there.
    rw [hplaced.regions_eq]
    refine ⟨Nat.le_add_right _ _, Nat.le_of_eq hstop, ?_⟩
    unfold ebrRegions DiskInfo.ebrLen
    split
    . exact ⟨Nat.le_add_right _ _, Nat.le_refl _, hpacked⟩
    . exact hpacked

theorem loop_regions {cnt : Nat} {parts : List PartInfo} {c c' : Cursor}
    (hsect : dinfo.PowerOfTwoSect) (htype : ∀ pinfo ∈ parts, pinfo.Typed)
    (hc : Between dinfo cnt c) (h : loop dinfo mem cnt c parts = .ok c')
    : regions dinfo c.wrList ⊆ regions dinfo c'.wrList := by
  induction parts generalizing cnt c with
  | nil =>
    unfold loop at h
    cases h
    exact List.Subset.refl _
  | cons pinfo rest ih =>
    obtain ⟨c2, hplaced, hc2, hloop⟩ := placed_of_loop hsect (htype pinfo (by simp)) hc h
    refine List.Subset.trans ?_ (ih (fun p hp => htype p (by simp [hp])) hc2 hloop)
    rw [hplaced.regions_eq]
    exact List.subset_cons_of_subset _ (List.subset_append_right _ _)

theorem loop_fits {cnt : Nat} {parts : List PartInfo} {c c' : Cursor}
    (hsect : dinfo.PowerOfTwoSect) (htype : ∀ pinfo ∈ parts, pinfo.Typed)
    (hc : Between dinfo cnt c) (hcur : c.curLba ≤ dinfo.numLba.toNat)
    (h : loop dinfo mem cnt c parts = .ok c')
    (hfits : ∀ r ∈ regions dinfo c'.wrList, r.stop ≤ dinfo.numLba.toNat)
    : layoutEnd dinfo cnt c.curLba parts ≤ dinfo.numLba.toNat := by
  induction parts generalizing cnt c with
  | nil => exact hcur
  | cons pinfo rest ih =>
    have htype' : ∀ p ∈ rest, p.Typed := fun p hp => htype p (by simp [hp])
    obtain ⟨c2, hplaced, hc2, hloop⟩ := placed_of_loop hsect (htype pinfo (by simp)) hc h
    -- The region of the partition is still there in the end, so it is on the disk.
    have hmem := loop_regions hsect htype' hc2 hloop
    rw [hplaced.regions_eq] at hmem
    have hle := exactStop_le (hfits _ (hmem List.mem_cons_self))
    have hcur2 := (hplaced.exact hle).right
    rw [layoutEnd_cons, ← hcur2]
    exact ih htype' hc2 (hcur2 ▸ hle) hloop

/-! ### The rest of the master boot record -/

theorem mkPriPentry_blank_spec {pnum lba : Nat} {mem : Bool} {item : WriteItem}
    {pinfo' : Option PartInfo} {lba' : Nat}
    (h : mkPriPentry dinfo (some blankPart) pnum lba mem = some (item, pinfo', lba'))
    : emitted dinfo.sectSize.toNat item = [] := by
  rw [(mkPriPentry_some h).left]
  simp only [emitted, cfgPentry, blankPart, true_or, ↓reduceIte]

theorem blanks_regions {wrList wrList' : List WriteItem} {cnt more : Nat}
    (h : blanks dinfo mem wrList cnt more = some wrList')
    : regions dinfo wrList' = regions dinfo wrList := by
  induction more generalizing wrList cnt with
  | zero =>
    unfold blanks at h
    cases h
    rfl
  | succ more ih =>
    unfold blanks at h
    split at h
    . next item _ _ hentry =>
      rw [ih h, regions_cons, mkPriPentry_blank_spec hentry, List.nil_append]
    . contradiction

end configMbr

theorem configMbr_regions {dinfo dinfo' : DiskInfo} {mem : Nat → Bool} {wrList : List WriteItem}
    (h : configMbr dinfo mem = (some wrList, dinfo'))
    : ∃ c, configMbr.loop dinfo mem 0 ⟨dinfo.skipLba.toNat, 0, false, [], []⟩ dinfo.partLst = .ok c
        ∧ regions dinfo wrList = regions dinfo c.wrList := by
  unfold configMbr at h
  split at h
  . cases h
  . next c hloop =>
    dsimp only at h
    split at h
    . cases h
    . next rest hblanks =>
      split at h
      . cases h
      . next item hitem =>
        simp only [Prod.mk.injEq, Option.some.injEq] at h
        refine ⟨c, hloop, ?_⟩
        rw [← h.left, regions_cons, configMbr.blanks_regions hblanks]
        unfold mkEmptyPtable at hitem
        split at hitem
        . cases hitem
          rfl
        . contradiction

namespace validate

theorem total_typed {acc total' : Nat} {parts : List PartInfo} (h : total acc parts = some total')
    : ∀ pinfo ∈ parts, pinfo.Typed := by
  induction parts generalizing acc with
  | nil => simp
  | cons part rest ih =>
    unfold total at h
    split at h
    . contradiction
    . split at h
      . contradiction
      . next htype =>
        have hpart : part.Typed := by
          unfold PartInfo.Typed
          tauto
        have hrest : ∀ pinfo ∈ rest, pinfo.Typed := by
          split at h
          all_goals exact ih h
        intro pinfo hmem
        cases List.mem_cons.mp hmem with
        | inl heq => exact heq ▸ hpart
        | inr hmem => exact hrest pinfo hmem

theorem diskSize_sectSize {dinfo dinfo' : DiskInfo} {node : DeviceNode} {size : Nat}
    (h : diskSize dinfo node = some (dinfo', size)) : dinfo'.sectSize = dinfo.sectSize := by
  unfold diskSize at h
  grind

end validate

theorem validate_spec {dinfo dinfo' : DiskInfo} {node : DeviceNode}
    (h : validate dinfo node = (true, dinfo'))
    : dinfo'.sectSize = dinfo.sectSize ∧ ∀ pinfo ∈ dinfo'.partLst, pinfo.Typed := by
  unfold validate at h
  split at h
  . cases h
  . next dinfo1 size hsize =>
    split at h
    . cases h
    . next total htotal =>
      have heq : dinfo1 = dinfo' := by
        split at h
        all_goals exact (Prod.mk.injEq _ _ _ _ ▸ h).right
      rw [← heq]
      exact ⟨validate.diskSize_sectSize hsize, validate.total_typed htotal⟩

/--
For a layout that `validate` and `config_mbr` accept, the regions are apart and on the disk exactly
when the exact layout, with one sector before each logical partition, ends on the disk. Neither function
checks this: `validate` counts no boot record and adds up 32 bit products, and `config_mbr` rounds the
length down before it scales it.
-/
theorem accepted_sound_iff {dinfo dinfo' dinfo'' : DiskInfo} {node : DeviceNode} {mem : Nat → Bool}
    {wrList : List WriteItem} (hsect : dinfo.PowerOfTwoSect)
    (hvalid : validate dinfo node = (true, dinfo'))
    (hmbr : configMbr dinfo' mem = (some wrList, dinfo''))
    : Sound dinfo' wrList
      ↔ layoutEnd dinfo' 0 dinfo'.skipLba.toNat dinfo'.partLst ≤ dinfo'.numLba.toNat := by
  obtain ⟨hsame, htype⟩ := validate_spec hvalid
  have hsect' : dinfo'.PowerOfTwoSect := by
    unfold DiskInfo.PowerOfTwoSect
    rw [hsame]
    exact hsect
  obtain ⟨c, hloop, hregions⟩ := configMbr_regions hmbr
  have hstart : configMbr.Between dinfo' 0 ⟨dinfo'.skipLba.toNat, 0, false, [], []⟩ := by
    refine ⟨dinfo'.skipLba.toNat_lt, ?_⟩
    simp [pcNumBootRecordParts]
  constructor
  . intro hsound
    have hfits := hsound.fits
    rw [hregions] at hfits
    have hskip : dinfo'.skipLba.toNat ≤ dinfo'.numLba.toNat := by
      apply hfits ⟨0, dinfo'.skipLba.toNat⟩
      simp [regions]
    exact configMbr.loop_fits hsect' htype hstart hskip hloop hfits
  . intro hend
    have hreserved
        : Region.Packed 0 dinfo'.skipLba.toNat (regions dinfo' []) :=
      ⟨Nat.zero_le _, Nat.le_refl _, Nat.le_refl _⟩
    have hpacked := configMbr.loop_packed hsect' htype hstart hreserved hend hloop
    rw [← hregions] at hpacked
    exact ⟨hpacked.pairwise_apart, hpacked.stop_le⟩

def fiveParts (numLba : UInt32) : DiskInfo where
  device := str "/dev/sda"
  scheme := partSchemeMbr
  sectSize := 512
  skipLba := 1
  numLba := numLba
  partLst := [
    ⟨str "boot", 0, pcPartTypeLinux, 1, 0⟩,
    ⟨str "recovery", 0, pcPartTypeLinux, 1, 0⟩,
    ⟨str "system", 0, pcPartTypeLinux, 1, 0⟩,
    ⟨str "cache", 0, pcPartTypeLinux, 1, 0⟩,
    ⟨str "data", 0, pcPartTypeLinux, 3, 0⟩]

theorem fiveParts_sound
    : ∃ wrList dinfo', configMbr (fiveParts 17) (fun _ => true) = (some wrList, dinfo')
        ∧ Sound (fiveParts 17) wrList := by
  have hmade : (configMbr (fiveParts 17) (fun _ => true)).1.isSome = true := by decide
  obtain ⟨wrList, hwrList⟩ := Option.isSome_iff_exists.mp hmade
  have hmbr : configMbr (fiveParts 17) (fun _ => true) = (some wrList, _) := Prod.ext hwrList rfl
  have hvalid : validate (fiveParts 17) (.blk (some 512) none) = (true, fiveParts 17) := by decide
  refine ⟨wrList, _, hmbr, ?_⟩
  refine (accepted_sound_iff ⟨9, ?_⟩ hvalid hmbr).mpr ?_
  . decide
  . decide

theorem fiveParts_overrun
    : validate (fiveParts 15) (.blk (some 512) none) = (true, fiveParts 15)
      ∧ ∃ wrList dinfo', configMbr (fiveParts 15) (fun _ => true) = (some wrList, dinfo')
          ∧ ¬ Sound (fiveParts 15) wrList := by
  refine ⟨by decide, ?_⟩
  have hmade : (configMbr (fiveParts 15) (fun _ => true)).1
      = some ((configMbr (fiveParts 15) (fun _ => true)).1.getD []) := by
    decide
  refine ⟨_, _, Prod.ext hmade rfl, ?_⟩
  intro hsound
  have hstop := hsound.fits ⟨11, 17⟩ (by decide)
  exact absurd hstop (by decide)

end Disk
