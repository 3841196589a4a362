import Tboot.Disk.Impl.Commit

/-!
This module contains a reader of partition tables, as the kernel that boots from the disk has one: the
four slots of the master boot record, and the chain of extended boot records that an extended partition
starts. Nothing in it is taken from libdiskconfig but the fields of an entry.
-/

namespace Disk

def PcPartition.ofBytes (bytes : Bytes) : PcPartition :=
  let byte (i : Nat) : UInt8 := bytes.getD i 0
  ⟨byte 0, ⟨byte 1, byte 2, byte 3⟩, byte 4, ⟨byte 5, byte 6, byte 7⟩,
    UInt32.ofNat (Bytes.ofLe ((bytes.drop 8).take 4)),
    UInt32.ofNat (Bytes.ofLe ((bytes.drop 12).take 4))⟩

namespace Reader

structure Found where
  number : Nat
  start : Nat
  len : Nat
  type : UInt8
  deriving DecidableEq, Repr

def signature : UInt16 := 0xAA55

/-- The types of an extended partition: that of DOS, of Windows 98 and of Linux. -/
def isExtended (type : UInt8) : Bool :=
  type = 0x05 || type = 0x0f || type = 0x85

def entryAt (img : Image) (offset : Nat) : PcPartition :=
  PcPartition.ofBytes (Bytes.slice img offset 16)

def sigAt (img : Image) (record : Nat) : UInt16 :=
  UInt16.ofNat (Bytes.ofLe (Bytes.slice img (record + 510) 2))

def slot (img : Image) (i : Nat) : PcPartition :=
  entryAt img (446 + 16 * i)

def used (entry : PcPartition) : Bool :=
  entry.lenLba ≠ 0

def primary (img : Image) (i : Nat) : Option Found :=
  let entry := slot img i
  if used entry && !isExtended entry.type then
    some ⟨i + 1, entry.startLba.toNat, entry.lenLba.toNat, entry.type⟩
  else
    none

def extendedStart (img : Image) (i : Nat) : Option Nat :=
  let entry := slot img i
  if used entry && isExtended entry.type then some entry.startLba.toNat else none

/--
The logical partitions from the record at sector `ebr` on, the first of them with number `num`. A record
without signature ends the chain. There is no result when `fuel` records do not reach the end.
-/
def chain (img : Image) (sect ext : Nat) : (fuel ebr num : Nat) → Option (List Found)
  | 0, _, _ => none
  | fuel + 1, ebr, num =>
    if sigAt img (ebr * sect) ≠ signature then
      some []
    else
      let entry := entryAt img (ebr * sect + 446)
      let link := entryAt img (ebr * sect + 462)
      let found :=
        if used entry then [⟨num, ebr + entry.startLba.toNat, entry.lenLba.toNat, entry.type⟩] else []
      if used link && isExtended link.type then
        match chain img sect ext fuel (ext + link.startLba.toNat) (num + found.length) with
        | none => none
        | some more => some (found ++ more)
      else
        some found

def readTable (img : Image) (sect fuel : Nat) : Option (List Found) :=
  if sigAt img 0 ≠ signature then
    none
  else
    let primaries := (List.range 4).filterMap (primary img)
    match (List.range 4).findSome? (extendedStart img) with
    | none => some primaries
    | some ext =>
      match chain img sect ext fuel ext 5 with
      | none => none
      | some logicals => some (primaries ++ logicals)

end Reader

theorem PcPartition.ofBytes_bytes (pentry : PcPartition) : ofBytes pentry.bytes = pentry := by
  have hle (n : UInt32) : UInt32.ofNat (Bytes.ofLe (Bytes.le n.toNat 4)) = n := by
    have hlt := n.toNat_lt
    rw [Bytes.ofLe_le, Nat.mod_eq_of_lt (by omega), UInt32.ofNat_toNat]
  have hstart : (pentry.bytes.drop 8).take 4 = Bytes.le pentry.startLba.toNat 4 := by
    simp [bytes, Chs.bytes]
  have hlen : (pentry.bytes.drop 12).take 4 = Bytes.le pentry.lenLba.toNat 4 := by
    simp [bytes, Chs.bytes, List.take_of_length_le]
  unfold ofBytes
  dsimp only
  rw [hstart, hlen, hle, hle]
  rfl

end Disk
