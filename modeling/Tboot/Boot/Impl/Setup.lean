import Tboot.Disk.Impl.Apply
import Tboot.Disk.Impl.Load
import Tboot.Fastboot.Impl.Basic
import Tboot.Fstab.Impl

/-!
This module contains `setup_disk_information`, which loads the table of volumes and the layout of the disk
before anything else is started.
-/

namespace Boot

open Fastboot (Halt)

structure Machine where
  diskForce : Option Bytes
  memVolumes : Bool
  fstab : Option Bytes
  devnodeRw : Bytes → Bool
  memLayout : Bool
  layout : Disk.Cnode
  process : Disk.ConfigEnv
  apply : Disk.ConfigEnv
  write : Nat → Bool
  sync : Bool

def bypass (m : Machine) (volumes : List Fstab.Volume) : Except Halt Bool :=
  if Fstab.checkDevnodes m.devnodeRw volumes then
    match m.diskForce with
    -- The default is put into the configuration, but not into `disk_force`.
    | none => throw (.segv .diskForce)
    | some diskForce => return strcaseeq diskForce (str "no")
  else
    return false

def setupLayout (m : Machine) : Except Halt Disk.DiskInfo :=
  match Disk.loadDiskconfig m.layout none m.memLayout with
  | .error _ => throw .overrun
  | .ok none => throw .die
  | .ok (some dinfo) =>
    -- The result of `process_disk_config` is not looked at.
    let (_, dinfo) := Disk.processDiskConfig dinfo m.process
    match Disk.applyDiskConfig dinfo m.apply m.write m.sync with
    | (false, _) => throw .die
    | (true, _, dinfo) => return dinfo

def setupDiskInformation (m : Machine) : Except Halt (Option Disk.DiskInfo × List Fstab.Volume) := do
  if !m.memVolumes then
    throw .die
  else
    let volumes := Fstab.loadVolumeTable m.fstab
    if ← bypass m volumes then
      return (none, volumes)
    else
      let dinfo ← setupLayout m
      return (some dinfo, volumes)

end Boot
