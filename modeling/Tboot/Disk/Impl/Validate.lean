import Tboot.Disk.Impl.ConfigMbr

/-!
This module contains `validate`, the check of a layout against the device it is for, and
`validate_and_config`.
-/

namespace Disk

inductive DeviceNode where
  | cannotOpen
  | cannotStat
  | blk (sectSz : Option UInt32) (size : Option UInt64)
  | reg (size : Nat)
  | other
  deriving DecidableEq, Repr

namespace validate

def diskSize (dinfo : DiskInfo) : DeviceNode → Option (DiskInfo × Nat)
  | .blk none _ => none
  | .blk (some sectSz) size =>
    if sectSz = 0 ∨ sectSz ≠ dinfo.sectSize then
      none
    else if dinfo.numLba = 0 then
      match size with
      | none => none
      | some size =>
        some ({ dinfo with numLba := UInt32.ofNat (size.toNat / dinfo.sect64) }, size.toNat)
    else
      some (dinfo, u64 (dinfo.numLba.toNat * dinfo.sect64))
  | .reg size =>
    if dinfo.sectSize = 0 then
      none
    else if dinfo.numLba ≠ 0 then
      some (dinfo, u64 (dinfo.numLba.toNat * dinfo.sect64))
    else
      some ({ dinfo with numLba := UInt32.ofInt ((size : Int).tdiv dinfo.sectInt) }, size)
  | .cannotOpen => none
  | .cannotStat => none
  | .other => none

/-- The loop that adds up the sizes: each product is a `uint32_t`, the sum a `uint64_t`. -/
def total (acc : Nat) : List PartInfo → Option Nat
  | [] => some acc
  | part :: rest =>
    -- The test for a length of zero stands behind the test for -1 and is never true.
    if part.lenKb = fillDisk ∧ rest ≠ [] then
      none
    else if part.type ≠ pcPartTypeLinux ∧ part.type ≠ pcPartTypeFat32 then
      none
    else if part.lenKb = fillDisk then
      total acc rest
    else
      total (u64 (acc + u32 (part.lenKb.toNat * 1024))) rest

end validate

/--
Whether the layout is valid, and the layout with its number of sectors filled in. The size is compared
for a block device only.
-/
def validate (dinfo : DiskInfo) (node : DeviceNode) : Bool × DiskInfo :=
  match validate.diskSize dinfo node with
  | none => (false, dinfo)
  | some (dinfo, diskSize) =>
    match validate.total (u32 (dinfo.skipLba.toNat * dinfo.sectSize.toNat)) dinfo.partLst with
    | none => (false, dinfo)
    | some totalSize =>
      match node with
      | .blk _ _ => (totalSize ≤ diskSize, dinfo)
      | _ => (true, dinfo)

def validateAndConfig (dinfo : DiskInfo) (node : DeviceNode) (mem : Nat → Bool)
    : Option (List WriteItem) × DiskInfo :=
  match validate dinfo node with
  | (false, dinfo) => (none, dinfo)
  | (true, dinfo) =>
    if dinfo.scheme = partSchemeMbr then
      configMbr dinfo mem
    else
      (none, dinfo)

end Disk
