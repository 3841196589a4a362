import Tboot.Disk.Impl.ConfigMbr
import Tboot.Util.Image

/-!
This module contains the bytes of the packed structures of libdiskconfig, and what `wlist_commit` leaves
on the disk.
-/

namespace Disk

def Chs.bytes (chs : Chs) : Bytes :=
  [chs.head, chs.sector, chs.cylinder]

def PcPartition.bytes (pentry : PcPartition) : Bytes :=
  [pentry.status] ++ pentry.start.bytes ++ [pentry.type] ++ pentry.stop.bytes
    ++ Bytes.le pentry.startLba.toNat 4 ++ Bytes.le pentry.lenLba.toNat 4

-- The last two of the four entries are left zero, like `code`, `disk_sig` and `pad`.
def PcBootRecord.bytes (record : PcBootRecord) : Bytes :=
  List.replicate 446 0 ++ (record.logical.bytes ++ (record.nextPtr.bytes
    ++ (List.replicate 32 0 ++ Bytes.le record.mbrSig.toNat 2)))

def WriteData.bytes : WriteData → Bytes
  | .pentry entry => entry.bytes
  | .bootRecord record => record.bytes
  | .raw bytes => bytes

def WriteItem.patch (item : WriteItem) : Patch :=
  ⟨item.offset, item.data.bytes⟩

def commit (img : Image) (written : List WriteItem) : Image :=
  Patch.writeAll img (written.map WriteItem.patch)

@[simp]
theorem PcPartition.bytes_length (pentry : PcPartition) : pentry.bytes.length = 16 := by
  simp [bytes, Chs.bytes]

@[simp]
theorem PcBootRecord.bytes_length (record : PcBootRecord) : record.bytes.length = 512 := by
  unfold bytes
  simp only [List.length_append, List.length_replicate, PcPartition.bytes_length, Bytes.le_length]

end Disk
