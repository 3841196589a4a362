import Tboot.Disk.Impl.Basic
import Tboot.Util.CString

/-!
This module contains the way from the name of a partition to its device node.
-/

namespace Disk

def maxNameLen : Nat := 512

def findPart (dinfo : DiskInfo) (name : Bytes) : Option PartInfo :=
  dinfo.partLst.find? fun pinfo => pinfo.name = name

/-- The number of the partition's device node; an extended partition takes the number four. -/
def partNum (dinfo : DiskInfo) (name : Bytes) : Option Nat :=
  match dinfo.partLst.findIdx? fun pinfo => pinfo.name = name with
  | none => none
  | some idx =>
    let num := idx + 1
    if dinfo.partLst.length > pcNumBootRecordParts ∧ num ≥ pcNumBootRecordParts then
      some (num + 1)
    else
      some num

def findMbrPart (mem : Bool) (dinfo : DiskInfo) (name : Bytes) : Option Bytes :=
  match partNum dinfo name with
  | none => none
  | some num =>
    if !mem then
      none
    else
      let sep := if dinfo.device.getLast?.any isdigit then str "p" else []
      let devName := dinfo.device ++ sep ++ dec num
      if devName.length ≥ maxNameLen then none else some devName

def findPartDevice (mem : Bool) (dinfo : DiskInfo) (name : Bytes) : Option Bytes :=
  if dinfo.scheme = partSchemeMbr then findMbrPart mem dinfo name else none

end Disk
