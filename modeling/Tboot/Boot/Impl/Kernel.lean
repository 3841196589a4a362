import Tboot.Aboot.Impl.Oem

/-!
This module contains the items of the menu, which start another kernel, and tboot as a whole once it is set
up: it serves commands, and the items of the menu are chosen.
-/

namespace Boot

open Fastboot Fastboot.HProg
open Aboot (Config findPartDevice)

structure Options where
  bootPart : Bytes
  bootDir : Bytes
  rootfs : Option Bytes
  nfsurl : Option Bytes

def path (s : Bytes) : Bytes :=
  s.take (Aboot.cmdOem.pathMax - 1)

def mountPartitionDevice (device type mountpoint : Bytes) : HProg Bool := do
  if !(← outside (.mkdir mountpoint)) then
    return false
  else if ← outside (.mount device type mountpoint) then
    return true
  else
    -- What is mounted already is busy, and this will do.
    outside .ebusy

def mountPartition (cfg : Config) (ptn : Option Disk.PartInfo) : HProg Bool := do
  match ptn with
  | none => return false
  | some ptn =>
    match ← findPartDevice cfg ptn.name with
    | none => return false
    | some pdevice =>
      match Fstab.volumeForDevice cfg.volumes pdevice with
      | none => return false
      | some vol =>
        if !(← outside .asprintf) then
          return false
        else
          mountPartitionDevice pdevice vol.fsType (str "/mnt/" ++ ptn.name)

def mountInternalMmc (cfg : Config) (opts : Options) : HProg Bool := do
  let dinfo ← cfg.disk
  mountPartition cfg (Disk.findPart dinfo opts.bootPart)

def target (opts : Options) : Bytes :=
  path (str "/mnt/" ++ opts.bootPart)

def mountExternalMmc (opts : Options) : HProg Bool := do
  if !(← outside (.mkdir (target opts))) then
    return false
  else
    match opts.rootfs with
    | none => return false
    | some rootfs => outside (.mount rootfs (str "ext4") (target opts))

def mountNfs (opts : Options) : HProg Bool := do
  if !(← outside (.mkdir (target opts))) then
    return false
  else
    match opts.nfsurl with
    | none => return false
    | some rootfs => outside (.executeCommand (str "/bin/nfsmount " ++ rootfs ++ str " " ++ target opts))

def basepath (opts : Options) : Bytes :=
  path (str "/mnt/" ++ opts.bootPart ++ str "/" ++ opts.bootDir ++ str "/")

def autobootPrecheck (opts : Options) (kernel : Bytes) : HProg Bool := do
  let bak := (strstr kernel (str ".bak")).getD []
  if !(← outside (.access (path (basepath opts ++ str "/cmdline" ++ bak)))) then
    return false
  else
    outside (.access (path (basepath opts ++ str "/" ++ kernel)))

def startKernel (opts : Options) (kernel : Bytes) : HProg Unit := do
  if ← autobootPrecheck opts kernel then
    if ← outside (.kexecLinux (basepath opts) kernel) then
      halt .boot

def mountAndStart (opts : Options) (mount : HProg Bool) (kernel : Bytes) : HProg Unit := do
  if ← mount then
    startKernel opts kernel

def startFrom (opts : Options) (mount : HProg Bool) (kernel : Bytes) : HProg Unit := do
  mountAndStart opts mount kernel
  let _ ← outside (.umount (target opts))

def startDefaultKernel (cfg : Config) (opts : Options) : HProg Unit :=
  startFrom opts (mountInternalMmc cfg opts) (str "kernel")

def startBackupKernel (cfg : Config) (opts : Options) : HProg Unit :=
  startFrom opts (mountInternalMmc cfg opts) (str "kernel.bak")

def startMmcKernel (opts : Options) : HProg Unit :=
  startFrom opts (mountExternalMmc opts) (str "kernel")

def startNfsKernel (opts : Options) : HProg Unit :=
  startFrom opts (mountNfs opts) (str "kernel")

inductive MenuItem where
  | kernel
  | kernelBak
  | mmc
  | nfs
  deriving DecidableEq, Repr

def menuAction (cfg : Config) (opts : Options) : MenuItem → HProg Unit
  | .kernel => startDefaultKernel cfg opts
  | .kernelBak => startBackupKernel cfg opts
  | .mmc => startMmcKernel opts
  | .nfs => startNfsKernel opts

inductive Action where
  | serve
  | menu (item : MenuItem)
  deriving DecidableEq, Repr

def act (env : Env) (cfg : Config) (opts : Options) (varlist : List Var) : Action → Fb Unit
  | .serve => commandLoop env (Aboot.cmds cfg varlist)
  | .menu item => (menuAction cfg opts item).interp (runOp env)

def step (env : Env) (cfg : Config) (opts : Options) (varlist : List Var) (s : Server) (a : Action)
    : Option Server :=
  s.run (act env cfg opts varlist a)

abbrev Runs (env : Env) (cfg : Config) (opts : Options) (varlist : List Var) (base : Bytes) (s : Server)
    : Prop :=
  System.Reaches (step env cfg opts varlist) (fun _ _ => True) (start base) s

end Boot
