import Tboot.Disk.Impl.Basic

/-!
This module contains `config_mbr`: from the layout of a disk to the list of writes for its master boot
record and, when there are more than four partitions, the chain of extended boot records.
-/

namespace Disk

def cfgPentry (status type : UInt8) (start len : Nat) : PcPartition :=
  let chs : Chs := if u32 len > 0 then ⟨0xff, 0xff, 0xff⟩ else ⟨0, 0, 0⟩
  ⟨status, chs, type, chs, UInt32.ofNat start, UInt32.ofNat len⟩

/--
The length of a partition in sectors as a `uint64_t`, rounded up to a whole sector. `mk_pri_pentry`
computes it from the sector size as a `uint64_t`, `kb_to_lba` from the sector size as a `uint32_t`.
-/
def lenLba64 (lenKb : UInt32) (sect : Nat) : Nat :=
  maskOff (u64 (lenKb.toNat * 1024 + sect + (2 ^ 64 - 1))) sect / sect

def kbToLba (lenKb : UInt32) (sect : Nat) : Nat :=
  u32 (lenLba64 lenKb sect)

def ptableOffset (pnum : Nat) : Nat :=
  446 + 16 * pnum

/--
The entry of the master boot record for a partition, or, without one, for the extended partition. It
returns the item, the partition with its start, and the sector after it. `mem` is whether `alloc_wl`
succeeds.
-/
def mkPriPentry (dinfo : DiskInfo) (pinfo : Option PartInfo) (pnum lba : Nat) (mem : Bool)
    : Option (WriteItem × Option PartInfo × Nat) :=
  if pnum ≥ pcNumBootRecordParts then
    none
  else if !mem then
    none
  else
    match pinfo with
    | some pinfo =>
      let lenLba :=
        if pinfo.lenKb ≠ fillDisk then
          lenLba64 pinfo.lenKb dinfo.sect64
        else
          u32 (dinfo.numLba.toNat + 2 ^ 32 - lba)
      let status := if pinfo.flags &&& partActiveFlag ≠ 0 then pcPartActive else pcPartNormal
      let entry := cfgPentry status pinfo.type lba (u32 lenLba)
      let pinfo := { pinfo with startLba := UInt32.ofNat lba }
      some (⟨ptableOffset pnum, .pentry entry⟩, some pinfo, u32 (lba + u32 lenLba))
    | none =>
      let entry :=
        cfgPentry pcPartNormal pcPartTypeExtended lba (u32 (dinfo.numLba.toNat + 2 ^ 32 - lba))
      some (⟨ptableOffset pnum, .pentry entry⟩, none, lba)

/--
The extended boot record of a logical partition. `pnext` is the next partition, when there is one: the
record then points to the record of that partition.
-/
def mkExtPentry (dinfo : DiskInfo) (pinfo : PartInfo) (lba extLba : Nat) (pnext : Option PartInfo)
    (mem : Bool) : Option (WriteItem × PartInfo × Nat) :=
  if !mem then
    none
  else
    let offset := u64 (lba * dinfo.sect64)
    let lba := u32 (lba + 1)
    if pinfo.lenKb = fillDisk ∧ pnext.isSome then
      none
    else
      let fill := u32 (dinfo.numLba.toNat + 2 ^ 32 - lba)
      let len := if pinfo.lenKb ≠ fillDisk then kbToLba pinfo.lenKb dinfo.sectSize.toNat else fill
      let lenKb :=
        if pinfo.lenKb ≠ fillDisk then
          pinfo.lenKb
        else
          UInt32.ofNat (u64 (len * dinfo.sect64) / 1024)
      let logical := cfgPentry pcPartNormal pinfo.type 1 len
      let pinfo := { pinfo with lenKb := lenKb, startLba := UInt32.ofNat lba }
      let lba := u32 (lba + len)
      let nextPtr :=
        match pnext with
        | some pnext =>
          let nextLenLba :=
            if pnext.lenKb ≠ fillDisk then
              u32 (1 + kbToLba pnext.lenKb dinfo.sectSize.toNat)
            else
              u32 (dinfo.numLba.toNat + 2 ^ 32 - lba)
          cfgPentry pcPartNormal pcPartTypeExtended (u32 (lba + 2 ^ 32 - extLba)) nextLenLba
        | none => PcPartition.zero
      some (⟨offset, .bootRecord ⟨logical, nextPtr, pcBiosBootSig⟩⟩, pinfo, lba)

def mkEmptyPtable (mem : Bool) : Option WriteItem :=
  if mem then
    some ⟨440, .raw (List.replicate 70 0 ++ [0x55, 0xAA])⟩
  else
    none

def blankPart : PartInfo := ⟨[], 0, 0, 0, 0⟩

namespace configMbr

structure Cursor where
  curLba : Nat
  extLba : Nat
  extended : Bool
  wrList : List WriteItem
  parts : List PartInfo
  deriving DecidableEq, Repr

def Cursor.add (c : Cursor) (item : WriteItem) : Cursor :=
  { c with wrList := item :: c.wrList }

def Cursor.ext (c : Cursor) : Nat :=
  if c.extended then 1 else 0

def openExtended (dinfo : DiskInfo) (mem : Nat → Bool) (cnt : Nat) (c : Cursor) : Option Cursor :=
  if cnt = pcNumBootRecordParts - 1 ∧ cnt + 1 < dinfo.partLst.length then
    match mkPriPentry dinfo none cnt c.curLba (mem c.wrList.length) with
    | some (item, _, _) => some ({ c with extended := true, extLba := c.curLba }.add item)
    | none => none
  else
    some c

def hasSpace (dinfo : DiskInfo) (pinfo : PartInfo) (c : Cursor) : Bool :=
  if u32 (c.curLba + c.ext) ≥ dinfo.numLba.toNat then
    false
  else if pinfo.lenKb ≠ fillDisk then
    let szLba := u32 (pinfo.lenKb.toNat / dinfo.sectSize.toNat * 1024)
    u32 (c.curLba + szLba + c.ext) ≤ dinfo.numLba.toNat
  else
    true

def addPart (dinfo : DiskInfo) (mem : Nat → Bool) (cnt : Nat) (pinfo : PartInfo)
    (pnext : Option PartInfo) (c : Cursor) : Option Cursor :=
  if c.extended then
    match mkExtPentry dinfo pinfo c.curLba c.extLba pnext (mem c.wrList.length) with
    | some (item, pinfo, lba) =>
      some ({ c with curLba := lba, parts := c.parts ++ [pinfo] }.add item)
    | none => none
  else
    match mkPriPentry dinfo (some pinfo) cnt c.curLba (mem c.wrList.length) with
    | some (item, pinfo', lba) =>
      some ({ c with curLba := lba, parts := c.parts ++ [pinfo'.getD pinfo] }.add item)
    | none => none

def loop (dinfo : DiskInfo) (mem : Nat → Bool) (cnt : Nat) (c : Cursor)
    : List PartInfo → Except Cursor Cursor
  | [] => .ok c
  | pinfo :: rest =>
    match openExtended dinfo mem cnt c with
    | none => .error c
    | some c1 =>
      if hasSpace dinfo pinfo c1 then
        match addPart dinfo mem cnt pinfo rest.head? c1 with
        | none => .error c1
        | some c2 => loop dinfo mem (cnt + 1) c2 rest
      else
        .error c1

def blanks (dinfo : DiskInfo) (mem : Nat → Bool) (wrList : List WriteItem) (cnt : Nat)
    : Nat → Option (List WriteItem)
  | 0 => some wrList
  | more + 1 =>
    match mkPriPentry dinfo (some blankPart) cnt 0 (mem wrList.length) with
    | some (item, _, _) => blanks dinfo mem (item :: wrList) (cnt + 1) more
    | none => none

end configMbr

/--
The list of writes, which starts with an empty table, and the layout with the start of every partition
filled in as far as the loop has come. `mem` is the result of the n-th allocation.
-/
def configMbr (dinfo : DiskInfo) (mem : Nat → Bool) : Option (List WriteItem) × DiskInfo :=
  match configMbr.loop dinfo mem 0 ⟨dinfo.skipLba.toNat, 0, false, [], []⟩ dinfo.partLst with
  | .error c =>
    (none, { dinfo with partLst := c.parts ++ dinfo.partLst.drop c.parts.length })
  | .ok c =>
    let dinfo' := { dinfo with partLst := c.parts }
    let num := dinfo.partLst.length
    match configMbr.blanks dinfo mem c.wrList num (pcNumBootRecordParts - num) with
    | none => (none, dinfo')
    | some wrList =>
      match mkEmptyPtable (mem wrList.length) with
      | none => (none, dinfo')
      | some item => (some (item :: wrList), dinfo')

end Disk
