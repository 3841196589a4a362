import Tboot.Disk.Impl.Validate

/-!
This module contains `process_disk_config` and `apply_disk_config`, which lay out a disk, and which put the
partition table on it.
-/

namespace Disk

structure ConfigEnv where
  node : DeviceNode
  mem : Nat → Bool

def processDiskConfig (dinfo : DiskInfo) (env : ConfigEnv) : Bool × DiskInfo :=
  match validateAndConfig dinfo env.node env.mem with
  | (none, dinfo) => (false, dinfo)
  | (some _, dinfo) => (true, dinfo)

/-- What has been written, and whether it is all; `write` tells if the n-th item can be written. -/
def wlistCommit (write : Nat → Bool) (n : Nat) : List WriteItem → Bool × List WriteItem
  | [] => (true, [])
  | item :: lst =>
    if write n then
      let (ok, written) := wlistCommit write (n + 1) lst
      (ok, item :: written)
    else
      (false, [])

/-- `test` is zero; `sync` tells if the kernel has read the table. -/
def applyDiskConfig (dinfo : DiskInfo) (env : ConfigEnv) (write : Nat → Bool) (sync : Bool)
    : Bool × List WriteItem × DiskInfo :=
  match validateAndConfig dinfo env.node env.mem with
  | (none, dinfo) => (false, [], dinfo)
  | (some wrLst, dinfo) =>
    let (ok, written) := wlistCommit write 0 wrLst
    (ok && sync, written, dinfo)

end Disk
