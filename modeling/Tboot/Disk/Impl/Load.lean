import Tboot.Disk.Impl.Basic
import Tboot.Util.CString

/-!
This module contains `load_diskconfig`: the layout that the tree of a configuration file describes.
-/

namespace Disk

structure Cnode where
  name : Bytes
  value : Bytes
  children : List Cnode

/-- The last entry is the newest one. -/
def configFind (root : Cnode) (name : Bytes) : Option Cnode :=
  root.children.reverse.find? fun node => node.name = name

def configBool (root : Cnode) (name : Bytes) (default_ : Bool) : Bool :=
  match configFind root name with
  | none => default_
  | some node => node.value.head?.any fun c => [121, 89, 49].contains c

def configStr (root : Cnode) (name : Bytes) (default_ : Option Bytes) : Option Bytes :=
  match configFind root name with
  | none => default_
  | some node => some node.value

def suffix (tmp : Bytes) : Bytes × Nat :=
  match tmp.getLast? with
  | some 77 => (tmp.dropLast, 2 ^ 20)
  | some 109 => (tmp.dropLast, 2 ^ 20)
  | some 75 => (tmp.dropLast, 2 ^ 10)
  | some 107 => (tmp.dropLast, 2 ^ 10)
  | _ => (tmp, 1)

def parseLen (s : Bytes) : Option Nat :=
  let tmp := s.take 63
  if tmp = [] then
    none
  else
    let (tmp, multiple) := suffix tmp
    let len := strtou 64 0 tmp
    if len = 0 then
      none
    else if len = 2 ^ 64 - 1 then
      if multiple > 1 then none else some len
    else
      let multiple := if multiple > 1024 then multiple / 1024 else multiple
      let len := u64 (len * multiple)
      if len > 0xffffffff then none else some len

def maxNumParts : Nat := 16

def loadPartition (node : Cnode) : Option PartInfo := do
  let flags := if configBool node (str "active") false then partActiveFlag else 0
  let tmp ← configStr node (str "type") none
  let type ←
    if tmp = str "linux" then
      some pcPartTypeLinux
    else if tmp = str "fat32" then
      some pcPartTypeFat32
    else
      none
  let lenKb ←
    match configStr node (str "len") none with
    | some tmp => (parseLen tmp).map UInt32.ofNat
    | none => some 0
  return ⟨node.name, flags, type, lenKb, 0⟩

inductive Overrun where
  | partLst
  deriving DecidableEq, Repr

def loadPartitions (root : Cnode) : Except Overrun (Option (List PartInfo)) :=
  match (root.children.take maxNumParts).mapM loadPartition with
  | none => return none
  | some partLst => if root.children.length > maxNumParts then throw .partLst else return some partLst

/--
`root` is what `config_load_file` makes of the file, without children if it cannot be read; `mem` tells
if there is memory.
-/
def loadDiskconfig (root : Cnode) (pathOverride : Option Bytes) (mem : Bool)
    : Except Overrun (Option DiskInfo) := do
  if !mem then
    return none
  let some devroot := configFind root (str "device") | return none
  let some device := configStr devroot (str "path") pathOverride | return none
  let some scheme := configStr devroot (str "scheme") none | return none
  if scheme ≠ str "mbr" then
    return none
  let some tmp := configStr devroot (str "sector_size") (some (str "512")) | return none
  let sectSize := UInt32.ofInt (strtos 32 0 tmp)
  if sectSize = 0 then
    return none
  let some tmp := configStr devroot (str "start_lba") none | return none
  let skipLba := UInt32.ofInt (strtos 32 0 tmp)
  if skipLba = 0 then
    return none
  let some tmp := configStr devroot (str "num_lba") none | return none
  let numLba := UInt32.ofNat (strtou 32 0 tmp)
  let some partnode := configFind devroot (str "partitions") | return none
  let some partLst ← loadPartitions partnode | return none
  return some ⟨device, partSchemeMbr, sectSize, skipLba, numLba, partLst⟩

end Disk
