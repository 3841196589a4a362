import Tboot.Disk.Lemmas.Layout
import Tboot.Disk.Reader

/-!
This module contains the layout of a disk in exact arithmetic: the partitions a reader should find, the
items that describe them, and that the list of writes of `config_mbr` consists of these items when
all partitions end on the disk.
-/

namespace Disk

namespace DiskInfo

variable (dinfo : DiskInfo)

def exactLen (pinfo : PartInfo) (start : Nat) : Nat :=
  if pinfo.lenKb = fillDisk then
    dinfo.numLba.toNat - start
  else
    sectorsFor pinfo.lenKb dinfo.sectSize.toNat

def number (cnt : Nat) : Nat :=
  if dinfo.logical cnt then cnt + 2 else cnt + 1

def configuredFrom (cnt cur : Nat) : List PartInfo → List Reader.Found
  | [] => []
  | pinfo :: rest =>
    let start := cur + dinfo.ebrLen cnt
    let len := dinfo.exactLen pinfo start
    ⟨dinfo.number cnt, start, len, pinfo.type⟩ :: configuredFrom (cnt + 1) (start + len) rest

theorem configuredFrom_cons (cnt cur : Nat) (pinfo : PartInfo) (rest : List PartInfo)
    : dinfo.configuredFrom cnt cur (pinfo :: rest)
        =
      ⟨dinfo.number cnt, cur + dinfo.ebrLen cnt, dinfo.exactLen pinfo (cur + dinfo.ebrLen cnt),
        pinfo.type⟩
        :: dinfo.configuredFrom (cnt + 1)
            (cur + dinfo.ebrLen cnt + dinfo.exactLen pinfo (cur + dinfo.ebrLen cnt)) rest :=
  rfl

/--
The partitions of the layout, placed one after the other behind the skipped sectors, with one sector
for the boot record in front of every logical partition.
-/
def configured : List Reader.Found :=
  dinfo.configuredFrom 0 dinfo.skipLba.toNat dinfo.partLst

def Fits (parts : List Reader.Found) : Prop :=
  ∀ found ∈ parts, found.start + found.len ≤ dinfo.numLba.toNat

instance (parts : List Reader.Found) : Decidable (dinfo.Fits parts) :=
  inferInstanceAs (Decidable (∀ found ∈ parts, found.start + found.len ≤ dinfo.numLba.toNat))

/-! ### The items of the list -/

def opens (cnt : Nat) : Bool :=
  cnt = pcNumBootRecordParts - 1 ∧ cnt + 1 < dinfo.partLst.length

def extendedItem (cur : Nat) : WriteItem :=
  ⟨ptableOffset (pcNumBootRecordParts - 1),
    .pentry (cfgPentry pcPartNormal pcPartTypeExtended cur (dinfo.numLba.toNat - cur))⟩

def primaryItem (cnt cur : Nat) (pinfo : PartInfo) : WriteItem :=
  let status := if pinfo.flags &&& partActiveFlag ≠ 0 then pcPartActive else pcPartNormal
  ⟨ptableOffset cnt, .pentry (cfgPentry status pinfo.type cur (dinfo.exactLen pinfo cur))⟩

def link (ext lba : Nat) : Option PartInfo → PcPartition
  | none => PcPartition.zero
  | some pnext =>
    let len :=
      if pnext.lenKb = fillDisk then
        dinfo.numLba.toNat - lba
      else
        1 + sectorsFor pnext.lenKb dinfo.sectSize.toNat
    cfgPentry pcPartNormal pcPartTypeExtended (lba - ext) len

def logicalItem (cur ext : Nat) (pinfo : PartInfo) (pnext : Option PartInfo) : WriteItem :=
  let len := dinfo.exactLen pinfo (cur + 1)
  ⟨cur * dinfo.sectSize.toNat,
    .bootRecord ⟨cfgPentry pcPartNormal pinfo.type 1 len, dinfo.link ext (cur + 1 + len) pnext,
      pcBiosBootSig⟩⟩

def item (cnt cur ext : Nat) (pinfo : PartInfo) (pnext : Option PartInfo) : WriteItem :=
  if dinfo.logical cnt then
    dinfo.logicalItem cur ext pinfo pnext
  else
    dinfo.primaryItem cnt cur pinfo

def extFrom (cnt cur ext : Nat) : Nat :=
  if dinfo.opens cnt then cur else ext

def itemsFrom (cnt cur ext : Nat) : List PartInfo → List WriteItem
  | [] => []
  | pinfo :: rest =>
    let start := cur + dinfo.ebrLen cnt
    let stop := start + dinfo.exactLen pinfo start
    let ext' := dinfo.extFrom cnt cur ext
    (if dinfo.opens cnt then [dinfo.extendedItem cur] else [])
      ++ dinfo.item cnt cur ext' pinfo rest.head? :: itemsFrom (cnt + 1) stop ext' rest

def blankItems (cnt more : Nat) : List WriteItem :=
  (List.range' cnt more).map fun i => dinfo.primaryItem i 0 blankPart

def items : List WriteItem :=
  dinfo.itemsFrom 0 dinfo.skipLba.toNat 0 dinfo.partLst
    ++ dinfo.blankItems dinfo.partLst.length (pcNumBootRecordParts - dinfo.partLst.length)

end DiskInfo

def emptyItem : WriteItem :=
  ⟨440, .raw (List.replicate 70 0 ++ [0x55, 0xAA])⟩

/-! ### One partition -/

variable {dinfo : DiskInfo}

theorem u32_diff {n m : Nat} (hn : n < 2 ^ 32) (hle : m ≤ n) : u32 (n + 2 ^ 32 - m) = n - m := by
  unfold u32
  omega

theorem mkPriPentry_exact {pinfo : PartInfo} {pnum lba : Nat} {mem : Bool} {item : WriteItem}
    {pinfo' : Option PartInfo} {lba' : Nat} (hsect : dinfo.PowerOfTwoSect)
    (hstop : lba + dinfo.exactLen pinfo lba ≤ dinfo.numLba.toNat)
    (h : mkPriPentry dinfo (some pinfo) pnum lba mem = some (item, pinfo', lba'))
    : item = dinfo.primaryItem pnum lba pinfo
      ∧ pinfo' = some { pinfo with startLba := UInt32.ofNat lba }
      ∧ lba' = lba + dinfo.exactLen pinfo lba := by
  have hnum : dinfo.numLba.toNat < 2 ^ 32 := dinfo.numLba.toNat_lt
  have hlen : u32 (configMbr.priLen dinfo pinfo lba) = dinfo.exactLen pinfo lba := by
    unfold configMbr.priLen
    rw [hsect.sect64_eq, lenLba64_eq hsect, u32_diff hnum (by omega), ite_not]
    exact u32_of_lt (by change dinfo.exactLen pinfo lba < _; omega)
  rcases configMbr.mkPriPentry_some h with ⟨hitem, hinfo, hlba⟩
  rw [hlen] at hitem hlba
  rw [u32_of_lt (by omega)] at hlba
  exact ⟨hitem, hinfo, hlba⟩

theorem mkPriPentry_extended {lba : Nat} {mem : Bool} {item : WriteItem} {pinfo' : Option PartInfo}
    {lba' : Nat} (hle : lba ≤ dinfo.numLba.toNat)
    (h : mkPriPentry dinfo none (pcNumBootRecordParts - 1) lba mem = some (item, pinfo', lba'))
    : item = dinfo.extendedItem lba := by
  rw [configMbr.mkPriPentry_none h, u32_diff dinfo.numLba.toNat_lt hle]
  rfl

theorem mkExtPentry_exact {pinfo : PartInfo} {lba ext : Nat} {pnext : Option PartInfo} {mem : Bool}
    {item : WriteItem} {pinfo' : PartInfo} {lba' : Nat} (hsect : dinfo.PowerOfTwoSect)
    (hext : ext ≤ lba) (hstop : lba + 1 + dinfo.exactLen pinfo (lba + 1) ≤ dinfo.numLba.toNat)
    (hnext : ∀ next ∈ pnext, next.lenKb ≠ fillDisk →
      1 + sectorsFor next.lenKb dinfo.sectSize.toNat ≤ dinfo.numLba.toNat)
    (h : mkExtPentry dinfo pinfo lba ext pnext mem = some (item, pinfo', lba'))
    : item = dinfo.logicalItem lba ext pinfo pnext
      ∧ pinfo'.name = pinfo.name ∧ pinfo'.startLba = UInt32.ofNat (lba + 1)
      ∧ lba' = lba + 1 + dinfo.exactLen pinfo (lba + 1) := by
  have hnum : dinfo.numLba.toNat < 2 ^ 32 := dinfo.numLba.toNat_lt
  have hdata : u32 (lba + 1) = lba + 1 := u32_of_lt (by omega)
  have hlen :
      (if pinfo.lenKb ≠ fillDisk then kbToLba pinfo.lenKb dinfo.sectSize.toNat
        else u32 (dinfo.numLba.toNat + 2 ^ 32 - (lba + 1)))
        =
      dinfo.exactLen pinfo (lba + 1) := by
    rw [kbToLba_eq hsect, u32_diff hnum (by omega), ite_not]
    unfold DiskInfo.exactLen at *
    split
    . rfl
    . next hfill =>
      rw [if_neg hfill] at hstop
      exact u32_of_lt (by omega)
  have hoffset : u64 (lba * dinfo.sect64) = lba * dinfo.sectSize.toNat := by
    rw [hsect.sect64_eq]
    have hlt : lba * dinfo.sectSize.toNat < 2 ^ 32 * 2 ^ 32 :=
      Nat.mul_lt_mul'' (by omega) dinfo.sectSize.toNat_lt
    exact u64_of_lt (Nat.lt_of_lt_of_le hlt (by decide))
  unfold mkExtPentry at h
  split at h
  . contradiction
  . dsimp only at h
    split at h
    . contradiction
    . rw [hdata, hlen, hoffset, u32_of_lt (n := lba + 1 + _) (by omega)] at h
      simp only [Option.some.injEq, Prod.mk.injEq] at h
      obtain ⟨hitem, hinfo, hlba⟩ := h
      refine ⟨?_, ?_, ?_, hlba.symm⟩
      . rw [← hitem]
        unfold DiskInfo.logicalItem DiskInfo.link
        cases pnext with
        | none => rfl
        | some next =>
          dsimp only
          rw [u32_diff (by omega) (by omega), u32_diff hnum hstop, kbToLba_eq hsect, ite_not]
          by_cases hfill : next.lenKb = fillDisk
          . rw [if_pos hfill, if_pos hfill]
          . have hroom := hnext next rfl hfill
            rw [if_neg hfill, if_neg hfill]
            rw [u32_of_lt (n := sectorsFor _ _) (by omega), u32_of_lt (by omega)]
      . rw [← hinfo]
      . rw [← hinfo]

namespace configMbr

structure ExactlyPlaced (dinfo : DiskInfo) (cnt : Nat) (pinfo : PartInfo) (pnext : Option PartInfo)
    (c c' : Cursor) : Prop where
  space : c.curLba + dinfo.ebrLen cnt < dinfo.numLba.toNat
  lba : c'.curLba
    = c.curLba + dinfo.ebrLen cnt + dinfo.exactLen pinfo (c.curLba + dinfo.ebrLen cnt)
  ext : c'.extLba = dinfo.extFrom cnt c.curLba c.extLba
  wrList : c'.wrList = dinfo.item cnt c.curLba (dinfo.extFrom cnt c.curLba c.extLba) pinfo pnext
    :: ((if dinfo.opens cnt then [dinfo.extendedItem c.curLba] else []) ++ c.wrList)
  parts : ∃ pinfo', c'.parts = c.parts ++ [pinfo'] ∧ pinfo'.name = pinfo.name
    ∧ pinfo'.startLba.toNat = c.curLba + dinfo.ebrLen cnt

theorem openExtended_exact {mem : Nat → Bool} {cnt : Nat} {c c1 : Cursor}
    (hle : c.curLba ≤ dinfo.numLba.toNat) (h : openExtended dinfo mem cnt c = some c1)
    : c1.extLba = dinfo.extFrom cnt c.curLba c.extLba ∧ c1.parts = c.parts
      ∧ c1.wrList = (if dinfo.opens cnt then [dinfo.extendedItem c.curLba] else []) ++ c.wrList := by
  unfold openExtended at h
  split at h
  . next hopen =>
    have hopens : dinfo.opens cnt = true := decide_eq_true hopen
    split at h
    . next item _ _ hentry =>
      rw [hopen.left] at hentry
      have hitem := mkPriPentry_extended hle hentry
      simp only [Option.some.injEq] at h
      rw [← h, hitem]
      unfold DiskInfo.extFrom
      rw [if_pos hopens, if_pos hopens]
      exact ⟨rfl, rfl, rfl⟩
    . contradiction
  . next hopen =>
    have hopens : dinfo.opens cnt = false := decide_eq_false hopen
    simp only [Option.some.injEq] at h
    rw [← h]
    unfold DiskInfo.extFrom
    simp [hopens]

theorem addPart_exact {mem : Nat → Bool} {cnt : Nat} {pinfo : PartInfo} {pnext : Option PartInfo}
    {c c' : Cursor} (hsect : dinfo.PowerOfTwoSect) (hlogical : c.extended = dinfo.logical cnt)
    (hext : c.extLba ≤ c.curLba)
    (hstop : c.curLba + dinfo.ebrLen cnt + dinfo.exactLen pinfo (c.curLba + dinfo.ebrLen cnt)
      ≤ dinfo.numLba.toNat)
    (hnext : dinfo.logical cnt = true → ∀ next ∈ pnext, next.lenKb ≠ fillDisk →
      1 + sectorsFor next.lenKb dinfo.sectSize.toNat ≤ dinfo.numLba.toNat)
    (h : addPart dinfo mem cnt pinfo pnext c = some c')
    : c'.curLba = c.curLba + dinfo.ebrLen cnt + dinfo.exactLen pinfo (c.curLba + dinfo.ebrLen cnt)
      ∧ c'.extLba = c.extLba ∧ c'.extended = c.extended
      ∧ c'.wrList = dinfo.item cnt c.curLba c.extLba pinfo pnext :: c.wrList
      ∧ ∃ pinfo', c'.parts = c.parts ++ [pinfo'] ∧ pinfo'.name = pinfo.name
        ∧ pinfo'.startLba.toNat = c.curLba + dinfo.ebrLen cnt := by
  have hnum : dinfo.numLba.toNat < 2 ^ 32 := dinfo.numLba.toNat_lt
  have hof {n : Nat} (hn : n ≤ dinfo.numLba.toNat) : (UInt32.ofNat n).toNat = n := by
    rw [UInt32.toNat_ofNat', Nat.mod_eq_of_lt (by omega)]
  unfold addPart at h
  unfold DiskInfo.item
  unfold DiskInfo.ebrLen at *
  rw [← hlogical] at *
  split at h
  . next hextended =>
    rw [if_pos hextended] at *
    split at h
    . next item pinfo' lba hentry =>
      obtain ⟨hitem, hname, hstart, hlba⟩ :=
        mkExtPentry_exact hsect hext hstop (hnext hextended) hentry
      simp only [Option.some.injEq] at h
      rw [← h, hitem]
      refine ⟨hlba, rfl, rfl, ?_, pinfo', rfl, hname, ?_⟩
      . rw [if_pos hextended]
        rfl
      . rw [hstart, hof (by omega)]
    . contradiction
  . next hextended =>
    rw [if_neg hextended] at *
    split at h
    . next item pinfo' lba hentry =>
      obtain ⟨hitem, hinfo, hlba⟩ := mkPriPentry_exact hsect hstop hentry
      simp only [Option.some.injEq] at h
      rw [← h, hitem, hinfo]
      refine ⟨hlba, rfl, rfl, ?_, _, rfl, rfl, ?_⟩
      . rw [if_neg hextended]
        rfl
      . exact hof (by omega)
    . contradiction

theorem exactlyPlaced_of_loop {mem : Nat → Bool} {cnt : Nat} {pinfo : PartInfo}
    {rest : List PartInfo} {c c' : Cursor} (hsect : dinfo.PowerOfTwoSect) (hc : Between dinfo cnt c)
    (hext : c.extLba ≤ c.curLba)
    (hfits : dinfo.Fits (dinfo.configuredFrom cnt c.curLba (pinfo :: rest)))
    (h : loop dinfo mem cnt c (pinfo :: rest) = .ok c')
    : ∃ c2, ExactlyPlaced dinfo cnt pinfo rest.head? c c2 ∧ Between dinfo (cnt + 1) c2
        ∧ loop dinfo mem (cnt + 1) c2 rest = .ok c' := by
  have hnum : dinfo.numLba.toNat < 2 ^ 32 := dinfo.numLba.toNat_lt
  have hstop := hfits _ List.mem_cons_self
  dsimp only at hstop
  unfold loop at h
  split at h
  . contradiction
  . next c1 hopen =>
    obtain ⟨hcur1, hlogical1, _⟩ := openExtended_spec hc hopen
    obtain ⟨hext1, hparts1, hwr1⟩ := openExtended_exact (by omega) hopen
    split at h
    . next hspace =>
      split at h
      . contradiction
      . next c2 hadd =>
        have hnext : dinfo.logical cnt = true → ∀ next ∈ rest.head?, next.lenKb ≠ fillDisk →
            1 + sectorsFor next.lenKb dinfo.sectSize.toNat ≤ dinfo.numLba.toNat := by
          intro hlogical next hmem hfill
          cases rest with
          | nil => contradiction
          | cons next' rest =>
            rw [List.head?_cons, Option.mem_some_iff] at hmem
            have hle := hfits _ (List.mem_cons_of_mem _ List.mem_cons_self)
            have hebr : dinfo.ebrLen (cnt + 1) = 1 := by
              unfold DiskInfo.ebrLen DiskInfo.logical at *
              rw [decide_eq_true_iff] at hlogical
              exact if_pos (decide_eq_true ⟨by omega, hlogical.right⟩)
            unfold DiskInfo.exactLen at hle
            rw [hmem, if_neg hfill, hebr] at hle
            dsimp only at hle
            omega
        have hroom := hasSpace_spec hspace
        have hebr1 : c1.ext = dinfo.ebrLen cnt := by
          unfold Cursor.ext DiskInfo.ebrLen
          rw [hlogical1]
        have hext1' : c1.extLba ≤ c1.curLba := by
          rw [hext1, hcur1]
          unfold DiskInfo.extFrom
          split
          all_goals omega
        rw [hcur1, hebr1, u32_of_lt (by omega)] at hroom
        rw [← hcur1] at hstop
        obtain ⟨hlba, hext2, hlogical2, hwr2, hparts2⟩ :=
          addPart_exact hsect hlogical1 hext1' hstop hnext hadd
        rw [hcur1] at hlba hwr2 hparts2 hstop
        rw [hext1] at hext2 hwr2
        rw [hparts1] at hparts2
        rw [hwr1] at hwr2
        refine ⟨c2, ⟨hroom, hlba, hext2, hwr2, hparts2⟩, ⟨?_, ?_⟩, h⟩
        . omega
        . rw [hlogical2, hlogical1]
          rfl
    . contradiction

theorem loop_exact {mem : Nat → Bool} {cnt : Nat} {parts : List PartInfo} {c c' : Cursor}
    (hsect : dinfo.PowerOfTwoSect) (hc : Between dinfo cnt c) (hext : c.extLba ≤ c.curLba)
    (hfits : dinfo.Fits (dinfo.configuredFrom cnt c.curLba parts))
    (h : loop dinfo mem cnt c parts = .ok c')
    : c'.wrList = (dinfo.itemsFrom cnt c.curLba c.extLba parts).reverse ++ c.wrList
      ∧ c'.parts.map PartInfo.name = c.parts.map PartInfo.name ++ parts.map PartInfo.name
      ∧ c'.parts.map (·.startLba.toNat)
          = c.parts.map (·.startLba.toNat) ++ (dinfo.configuredFrom cnt c.curLba parts).map (·.start)
      ∧ ∀ found ∈ dinfo.configuredFrom cnt c.curLba parts, found.start < dinfo.numLba.toNat := by
  induction parts generalizing cnt c with
  | nil =>
    unfold loop at h
    simp only [Except.ok.injEq] at h
    rw [← h]
    simp [DiskInfo.itemsFrom, DiskInfo.configuredFrom]
  | cons pinfo rest ih =>
    obtain ⟨c2, hplaced, hc2, hrest⟩ := exactlyPlaced_of_loop hsect hc hext hfits h
    have hext2 : c2.extLba ≤ c2.curLba := by
      rw [hplaced.ext, hplaced.lba]
      unfold DiskInfo.extFrom
      split
      all_goals omega
    rw [DiskInfo.configuredFrom_cons] at hfits ⊢
    have hfits2 : dinfo.Fits (dinfo.configuredFrom (cnt + 1) c2.curLba rest) := by
      rw [hplaced.lba]
      intro found hfound
      exact hfits found (List.mem_cons_of_mem _ hfound)
    obtain ⟨hwr, hnames, hstarts, hspace⟩ := ih hc2 hext2 hfits2 hrest
    obtain ⟨pinfo', hparts, hname, hstart⟩ := hplaced.parts
    rw [hparts] at hnames hstarts
    rw [hplaced.lba, hplaced.ext, hplaced.wrList] at hwr
    rw [hplaced.lba] at hstarts hspace
    unfold DiskInfo.itemsFrom
    refine ⟨?_, ?_, ?_, ?_⟩
    . rw [hwr]
      split
      all_goals simp
    . rw [hnames]
      simp [hname]
    . rw [hstarts]
      simp [hstart]
    . intro found hfound
      cases List.mem_cons.mp hfound with
      | inl heq =>
        rw [heq]
        exact hplaced.space
      | inr hmem => exact hspace found hmem

theorem exactLen_blankPart (hsect : dinfo.PowerOfTwoSect) : dinfo.exactLen blankPart 0 = 0 := by
  have hfill : ¬ blankPart.lenKb = fillDisk := by decide
  have hzero : blankPart.lenKb.toNat = 0 := rfl
  have hpos := hsect.pos
  unfold DiskInfo.exactLen sectorsFor
  rw [if_neg hfill]
  exact Nat.div_eq_of_lt (by omega)

theorem blanks_exact {mem : Nat → Bool} {wrList wrList' : List WriteItem} {cnt more : Nat}
    (hsect : dinfo.PowerOfTwoSect) (h : blanks dinfo mem wrList cnt more = some wrList')
    : wrList' = (dinfo.blankItems cnt more).reverse ++ wrList := by
  induction more generalizing wrList cnt with
  | zero =>
    unfold blanks at h
    simp only [Option.some.injEq] at h
    rw [← h]
    rfl
  | succ more ih =>
    unfold blanks at h
    split at h
    . next item _ _ hentry =>
      have hlen := exactLen_blankPart hsect
      obtain ⟨hitem, _⟩ := mkPriPentry_exact hsect (by omega) hentry
      rw [ih h, hitem]
      unfold DiskInfo.blankItems
      rw [List.range'_succ]
      simp
    . contradiction

end configMbr

theorem configMbr_some {mem : Nat → Bool} {wrList : List WriteItem} {dinfo' : DiskInfo}
    (h : configMbr dinfo mem = (some wrList, dinfo'))
    : ∃ c blanked, configMbr.loop dinfo mem 0 ⟨dinfo.skipLba.toNat, 0, false, [], []⟩ dinfo.partLst = .ok c
        ∧ configMbr.blanks dinfo mem c.wrList dinfo.partLst.length
            (pcNumBootRecordParts - dinfo.partLst.length) = some blanked
        ∧ wrList = emptyItem :: blanked ∧ dinfo' = { dinfo with partLst := c.parts } := by
  unfold configMbr at h
  split at h
  . simp only [Prod.mk.injEq, reduceCtorEq, false_and] at h
  . next c hloop =>
    dsimp only at h
    split at h
    . simp only [Prod.mk.injEq, reduceCtorEq, false_and] at h
    . next blanked hblanks =>
      unfold mkEmptyPtable at h
      split at h
      . simp only [Prod.mk.injEq, reduceCtorEq, false_and] at h
      . next item hitem =>
        rw [Option.ite_none_right_eq_some] at hitem
        simp only [Prod.mk.injEq, Option.some.injEq] at h hitem
        rw [← hitem.right] at h
        exact ⟨c, blanked, hloop, hblanks, h.left.symm, h.right.symm⟩

theorem configMbr_exact {mem : Nat → Bool} {wrList : List WriteItem} {dinfo' : DiskInfo}
    (hsect : dinfo.PowerOfTwoSect) (hfits : dinfo.Fits dinfo.configured)
    (h : configMbr dinfo mem = (some wrList, dinfo'))
    : wrList = emptyItem :: dinfo.items.reverse ∧ dinfo'.device = dinfo.device
      ∧ dinfo'.partLst.map PartInfo.name = dinfo.partLst.map PartInfo.name
      ∧ dinfo'.partLst.map (·.startLba.toNat) = dinfo.configured.map (·.start)
      ∧ ∀ found ∈ dinfo.configured, found.start < dinfo.numLba.toNat := by
  obtain ⟨c, blanked, hloop, hblanks, hwrList, hdinfo⟩ := configMbr_some h
  have hstart : configMbr.Between dinfo 0 ⟨dinfo.skipLba.toNat, 0, false, [], []⟩ :=
    ⟨dinfo.skipLba.toNat_lt, rfl⟩
  obtain ⟨hwr, hnames, hstarts, hspace⟩ :=
    configMbr.loop_exact hsect hstart (Nat.zero_le _) hfits hloop
  rw [hdinfo]
  refine ⟨?_, rfl, hnames, hstarts, hspace⟩
  rw [hwrList, configMbr.blanks_exact hsect hblanks, hwr, List.append_nil]
  unfold DiskInfo.items
  rw [List.reverse_append]

end Disk
