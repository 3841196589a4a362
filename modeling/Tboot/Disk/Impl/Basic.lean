import Tboot.Util.Bytes
import Tboot.Util.Word

/-!
This module contains the data of libdiskconfig: the layout of a disk as the configuration file gives
it, the entries of a partition table, and the list of writes that puts a table on the disk.
-/

namespace Disk

def partSchemeMbr : UInt8 := 0x1

def pcPartActive : UInt8 := 0x80
def pcPartNormal : UInt8 := 0x0

def pcPartTypeLinux : UInt8 := 0x83
def pcPartTypeExtended : UInt8 := 0x05
def pcPartTypeFat32 : UInt8 := 0x0c

def pcNumBootRecordParts : Nat := 4

def pcBiosBootSig : UInt16 := 0xAA55

def partActiveFlag : UInt8 := 0x1

def fillDisk : UInt32 := 0xffffffff

structure PartInfo where
  name : Bytes
  flags : UInt8
  type : UInt8
  lenKb : UInt32
  startLba : UInt32
  deriving DecidableEq, Repr

/--
`struct disk_info`. The `int` field `sect_size` is given by its bit pattern; `num_parts` is the length
of `part_lst`.
-/
structure DiskInfo where
  device : Bytes
  scheme : UInt8
  sectSize : UInt32
  skipLba : UInt32
  numLba : UInt32
  partLst : List PartInfo
  deriving DecidableEq, Repr

/-- `(uint64_t)dinfo->sect_size`, which extends the sign -/
def DiskInfo.sect64 (dinfo : DiskInfo) : Nat :=
  if dinfo.sectSize.toNat < 2 ^ 31 then
    dinfo.sectSize.toNat
  else
    dinfo.sectSize.toNat + (2 ^ 64 - 2 ^ 32)

def DiskInfo.sectInt (dinfo : DiskInfo) : Int :=
  if dinfo.sectSize.toNat < 2 ^ 31 then
    dinfo.sectSize.toNat
  else
    dinfo.sectSize.toNat - 2 ^ 32

structure Chs where
  head : UInt8
  sector : UInt8
  cylinder : UInt8
  deriving DecidableEq, Repr

structure PcPartition where
  status : UInt8
  start : Chs
  type : UInt8
  stop : Chs
  startLba : UInt32
  lenLba : UInt32
  deriving DecidableEq, Repr

def PcPartition.zero : PcPartition := ⟨0, ⟨0, 0, 0⟩, 0, ⟨0, 0, 0⟩, 0, 0⟩

/--
`struct pc_boot_record`; `code`, `disk_sig` and `pad` are zero in every record that is written. An
extended boot record uses two of the entries.
-/
structure PcBootRecord where
  logical : PcPartition
  nextPtr : PcPartition
  mbrSig : UInt16
  deriving DecidableEq, Repr

inductive WriteData where
  | pentry (entry : PcPartition)
  | bootRecord (record : PcBootRecord)
  | raw (bytes : Bytes)
  deriving DecidableEq, Repr

structure WriteItem where
  offset : Nat
  data : WriteData
  deriving DecidableEq, Repr

end Disk
