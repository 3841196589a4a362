import Tboot.Disk.Impl.Find
import Tboot.Fastboot.Impl.Loop
import Tboot.Fstab.Impl

/-!
This module contains what the handlers of `aboot.c` share: the variables of tboot they look at, the
functions that plugins register, and the commands `erase:`, `boot` and `reboot`.
-/

namespace Aboot

open Fastboot Fastboot.HProg

def ofPlugin : Op → Prop
  | .api (.info _) => True
  | .api (.okay _) => True
  | .api (.fail _) => True
  | .api (.pullFile _) => True
  | .outside (.plugin _) => True
  | _ => False

/-- `flash_func` and `oem_func`, whose result is true for zero -/
structure Callback (α : Type) where
  run : α → HProg Bool
  only : ∀ a, (run a).Only ofPlugin

structure Config where
  diskInfo : Option Disk.DiskInfo
  volumes : List Fstab.Volume
  flashCmds : List (Bytes × Callback (Bytes × Nat))
  oemCmds : List (Bytes × Callback (List Bytes))
  pushDir : Bytes
  patience : Nat

def Config.disk (cfg : Config) : HProg Disk.DiskInfo :=
  match cfg.diskInfo with
  | some dinfo => return dinfo
  | none => halt (.segv .diskInfo)

def findPartDevice (cfg : Config) (name : Bytes) : HProg (Option Bytes) := do
  let dinfo ← cfg.disk
  let mem ← outside .malloc
  return Disk.findPartDevice mem dinfo name

def listCallback (key : Bytes) : HProg Unit := do
  let name := if ← outside .strdup then key else []
  info name
  info (str "\n")

def partLine (ptn : Disk.PartInfo) : Bytes :=
  ptn.name ++ List.replicate (12 - ptn.name.length) 32 ++ dec (ptn.lenKb.toNat / 1024) ++ str "\n"

def listParts (cfg : Config) : HProg Unit := do
  info (str "\nPartitions can be flashed/erased:\n")
  info (str "Name        Size(MB)\n")
  info (str "--------------------\n")
  let dinfo ← cfg.disk
  dinfo.partLst.forM fun ptn => do
    if ← outside .asprintf then
      info (partLine ptn)
  info (str "\n")
  okay []

def listPartitions (cfg : Config) : HProg Unit := do
  info (str "FW and raw OS can be flashed:\n")
  cfg.flashCmds.forM fun cmd => listCallback cmd.1
  listParts cfg

def erasePartition (cfg : Config) (ptn : Disk.PartInfo) : HProg Bool := do
  match ← findPartDevice cfg ptn.name with
  | none => halt .die
  | some pdevice =>
    if !(← outside (.isValidBlkdev pdevice)) then
      return false
    match Fstab.volumeForDevice cfg.volumes pdevice with
    | none => return false
    | some vol =>
      if vol.fsType = str "ext4" then
        -- It is `vol->device` that is formatted, not `pdevice`.
        outside (.makeExt4fsQuick vol.device vol.length)
      else
        return false

def cmdErase (cfg : Config) (partName : Bytes) : HProg Unit := do
  if partName = [] then
    listParts cfg
  else
    let dinfo ← cfg.disk
    match Disk.findPart dinfo partName with
    | none => fail (str "unknown partition name.")
    | some ptn =>
      if ← erasePartition cfg ptn then
        okay []
      else
        fail (str "Can't erase partition")

def cmdBoot : HProg Unit :=
  fail (str "boot command stubbed on this platform!")

-- `cmd_reboot_bl` is the same but for what is booted.
def cmdReboot : HProg Unit := do
  okay []
  let _ ← outside .reboot

end Aboot
