import Tboot.Aboot.Lemmas.Basic
import Tboot.Boot.Impl.Kernel
import Tboot.Boot.Impl.Setup
import Tboot.Fastboot.Lemmas.Basic

/-!
This module contains when the layout of the disk is known: no command and no item of the menu goes through
a null pointer `disk_info`, unless `setup_disk_information` has left it null.
-/

open Proc

namespace Boot

open Fastboot
open Aboot (Config Permits PermitsDisk OrOem oemArgv)

def Bypassed (m : Machine) : Prop :=
  Fstab.checkDevnodes m.devnodeRw (Fstab.loadVolumeTable m.fstab) = true
    ∧ m.diskForce.any (strcaseeq · (str "no")) = true

instance (m : Machine) : Decidable (Bypassed m) :=
  inferInstanceAs (Decidable (_ ∧ _))

/-- `disk_info` is a layout, and is never dereferenced otherwise, whatever tboot is asked to do. -/
structure LayoutKnown (diskInfo : Option Disk.DiskInfo) (volumes : List Fstab.Volume) : Prop where
  loaded : diskInfo.isSome = true
  safe : ∀ (env : Env) (cfg : Config) (opts : Options) (varlist : List Var) (base : Bytes) (s : Server),
    cfg.diskInfo = diskInfo → cfg.volumes = volumes → Runs env cfg opts varlist base s
      → .halt (.segv .diskInfo) ∉ s.world.log

namespace Layout

/-! ### The setup -/

theorem bypass_ok {m : Machine} {volumes : List Fstab.Volume} {b : Bool} (h : bypass m volumes = .ok b)
    : b = true ↔ Fstab.checkDevnodes m.devnodeRw volumes = true
        ∧ m.diskForce.any (strcaseeq · (str "no")) = true := by
  unfold bypass at h
  split at h
  . next hnodes =>
    split at h
    . contradiction
    . next diskForce hforce =>
      cases h
      simp [hnodes, hforce]
  . next hnodes =>
    cases h
    simp [hnodes]

theorem setup_isSome {m : Machine} {diskInfo : Option Disk.DiskInfo} {volumes : List Fstab.Volume}
    (h : setupDiskInformation m = .ok (diskInfo, volumes)) : diskInfo.isSome = true ↔ ¬Bypassed m := by
  unfold setupDiskInformation at h
  split at h
  . contradiction
  . dsimp only at h
    cases hbypass : bypass m (Fstab.loadVolumeTable m.fstab) with
    | error e =>
      rw [hbypass] at h
      contradiction
    | ok b =>
      rw [hbypass] at h
      unfold Bypassed
      rw [← bypass_ok hbypass]
      cases b with
      | true =>
        cases h
        simp
      | false =>
        cases hlayout : setupLayout m with
        | error e =>
          rw [hlayout] at h
          contradiction
        | ok dinfo =>
          rw [hlayout] at h
          cases h
          simp

/-! ### Programs -/

def Sound (op : Op) : Prop :=
  op ≠ .halt (.segv .diskInfo)

variable {cfg : Config}

theorem sound (h : cfg.diskInfo.isSome = true) : PermitsDisk cfg Sound where
  info := by simp [Sound]
  okay := by simp [Sound]
  fail := by simp [Sound]
  pullFile := by simp [Sound]
  outside := by simp [Sound]
  statfs := by simp [Sound]
  die := by simp [Sound]
  nullArgv := by simp [Sound]
  nullDisk := fun hnone => by simp [hnone] at h

section Flash

open Aboot.cmdStreamFlash

theorem halt_sound {α : Type} {h : Halt} (hh : h ≠ .segv .diskInfo) : (HProg.halt h : HProg α).Only Sound :=
  Prog.Only.bind (Prog.Only.perform_iff.mpr (by simpa [Sound] using hh)) (fun no => no.elim)

theorem fill_sound (fuel len i size finished : Nat) : (fill fuel len i size finished).Only Sound := by
  induction fuel generalizing i size finished with
  | zero => exact halt_sound (by simp)
  | succ fuel ih =>
    unfold fill
    split
    . simp [Sound]
    . simp only [Prog.Only.perform_bind_iff, Prog.Only.ite_iff]
      refine ⟨by simp [Sound], fun _ => ⟨by simp, fun _ => ⟨by simp [Sound], fun _ => ⟨fun _ => ih _ _ _, ?_⟩⟩⟩⟩
      intro _
      refine ⟨by simp [Sound], fun bytes => ?_⟩
      split
      . exact Prog.Only.pure _
      . exact ih _ _ _

theorem drain_sound (fuel len size finished : Nat) : (drain fuel len size finished).Only Sound := by
  induction fuel generalizing size finished with
  | zero => exact halt_sound (by simp)
  | succ fuel ih =>
    unfold drain
    split
    . exact Prog.Only.pure _
    . simp only [Prog.Only.perform_bind_iff]
      refine ⟨by simp [Sound], fun bytes => ?_⟩
      split
      . exact Prog.Only.pure _
      . exact ih _ _

variable (h : cfg.diskInfo.isSome = true)

include h

theorem transfer_sound (device : Bytes) (ptn : Option Disk.PartInfo) (len size : Nat)
    : (transfer cfg device ptn len size).Only Sound := by
  apply Prog.Only.bind (fill_sound _ _ _ _ _)
  intro r
  split
  . exact (sound h).abort _ _
  . apply Prog.Only.bind (drain_sound _ _ _ _)
    intro _
    exact (sound h).abort _ _
  . exact (sound h).joinReader _ _ _ _

theorem startReader_sound (device : Bytes) (ptn : Option Disk.PartInfo) (len size : Nat) (magic : Bytes)
    : (startReader cfg device ptn len size magic).Only Sound := by
  have habort (reason : Bytes) := (sound h).abort reason false
  simp only [startReader, Prog.Only.perform_bind_iff, Prog.Only.ite_iff]
  refine ⟨by simp [Sound], fun _ => ⟨fun _ => habort _, fun _ => ?_⟩⟩
  refine ⟨by simp [Sound], fun _ => ⟨fun _ => habort _, fun _ => ?_⟩⟩
  refine ⟨by simp [Sound], fun _ => ⟨fun _ => habort _, fun _ => ?_⟩⟩
  exact transfer_sound h _ _ _ _

theorem stream_sound (device : Bytes) (ptn : Option Disk.PartInfo) (len : Nat)
    : (stream cfg device ptn len).Only Sound := by
  have habort (reason : Bytes) := (sound h).abort reason false
  simp only [stream, Prog.Only.perform_bind_iff, Prog.Only.ite_iff]
  refine ⟨by simp [Sound], fun _ => ⟨fun _ => habort _, fun _ => ?_⟩⟩
  apply Prog.Only.bind
  . simp [initBuffers, Sound]
  . intro ok
    split
    . exact habort _
    . simp only [Prog.Only.perform_bind_iff]
      refine ⟨by simp [Sound], fun bytes => ?_⟩
      split
      . exact habort _
      . simp only [Prog.Only.perform_bind_iff]
        exact ⟨by simp [Sound], fun _ => startReader_sound h _ _ _ _ _⟩

theorem flashPlugin_sound (cb : Aboot.Callback (Bytes × Nat)) (len : Nat) : (flashPlugin cb len).Only Sound := by
  simp only [flashPlugin, Prog.Only.perform_bind_iff]
  refine ⟨by simp [Sound], fun data => ?_⟩
  split
  . exact (sound h).abort _ _
  . apply Prog.Only.bind ((sound h).callback cb _)
    intro ok
    split
    . exact (sound h).finish _
    . exact (sound h).abort _ _

theorem flashPartition_sound (partName : Bytes) (len : Nat) : (flashPartition cfg partName len).Only Sound := by
  apply Prog.Only.bind ((sound h).findPartDevice _)
  intro device
  split
  . exact (sound h).abort _ _
  . apply Prog.Only.bind (sound h).disk
    intro dinfo
    split
    . exact (sound h).abort _ _
    . split
      . exact (sound h).abort _ _
      . exact stream_sound h _ _ _

theorem cmdStreamFlash_sound (cmd : Bytes) : (Aboot.cmdStreamFlash cfg cmd).Only Sound := by
  simp only [Aboot.cmdStreamFlash, Prog.Only.perform_bind_iff, Prog.Only.ite_iff]
  refine ⟨by simp [Sound], fun _ => ⟨fun _ => (sound h).abort _ _, fun _ => ?_⟩⟩
  split
  . exact (sound h).abort _ _
  . split
    . exact (sound h).listPartitions
    . split
      . apply Prog.Only.bind (sound h).disk
        intro dinfo
        exact stream_sound h _ _ _
      . split
        . exact flashPlugin_sound h _ _
        . exact flashPartition_sound h _ _

end Flash

section Menu

variable (opts : Options)

theorem mountExternalMmc_sound : (mountExternalMmc opts).Only Sound := by
  simp only [mountExternalMmc, Prog.Only.perform_bind_iff, Prog.Only.ite_iff]
  refine ⟨by simp [Sound], fun _ => ⟨by simp, fun _ => ?_⟩⟩
  split
  all_goals simp [Sound]

theorem mountNfs_sound : (mountNfs opts).Only Sound := by
  simp only [mountNfs, Prog.Only.perform_bind_iff, Prog.Only.ite_iff]
  refine ⟨by simp [Sound], fun _ => ⟨by simp, fun _ => ?_⟩⟩
  split
  all_goals simp [Sound]

theorem startFrom_sound {mount : HProg Bool} (hmount : mount.Only Sound) (kernel : Bytes)
    : (startFrom opts mount kernel).Only Sound := by
  apply Prog.Only.bind
  . apply Prog.Only.bind hmount
    intro mounted
    split
    . apply Prog.Only.bind
      . simp [autobootPrecheck, Sound]
      . simp [halt_sound, Sound]
    . exact Prog.Only.pure _
  . simp [Sound]

variable (h : cfg.diskInfo.isSome = true)

include h

theorem mountPartition_sound (ptn : Option Disk.PartInfo) : (mountPartition cfg ptn).Only Sound := by
  unfold mountPartition
  split
  . exact Prog.Only.pure _
  . apply Prog.Only.bind ((sound h).findPartDevice _)
    intro device
    split
    . exact Prog.Only.pure _
    . split
      . exact Prog.Only.pure _
      . simp [mountPartitionDevice, Sound]

theorem menuAction_sound (item : MenuItem) : (menuAction cfg opts item).Only Sound := by
  have hinternal : (mountInternalMmc cfg opts).Only Sound :=
    Prog.Only.bind (sound h).disk (fun _ => mountPartition_sound h _)
  cases item with
  | kernel => exact startFrom_sound opts hinternal _
  | kernelBak => exact startFrom_sound opts hinternal _
  | mmc => exact startFrom_sound opts (mountExternalMmc_sound opts) _
  | nfs => exact startFrom_sound opts (mountNfs_sound opts) _

end Menu

/-! ### Runs -/

abbrev Unharmed (w : World) : Prop :=
  Extends (· ≠ .halt (.segv .diskInfo)) [] w

theorem inner_ne (e : Event) (he : e.Inner) : e ≠ .halt (.segv .diskInfo) := by
  rintro rfl
  exact he

section Runs

variable {env : Env}

theorem program_unharmed {p : HProg Unit} (argv : List Bytes) (hp : p.Only (OrOem Sound argv))
    : Keeps Unharmed (p.interp (runOp env)) := by
  apply (extends_keptByParts inner_ne).program hp
  . exact fun _ _ => extends_emit (by simp)
  . rintro h (hsound | ⟨name, hno, _⟩)
    . apply extends_emit
      simpa [Sound] using hsound
    . cases hno

variable (h : cfg.diskInfo.isSome = true)

include h

theorem handler_unharmed {varlist : List Var} {cmd : Cmd} (hcmd : cmd ∈ Aboot.cmds cfg varlist) (arg : Bytes)
    : Keeps Unharmed (runHandler env cmd.handle arg) := by
  obtain hdownload | hflash | ⟨run, hrun, honly⟩ := (sound h).handle_cases hcmd
  . rw [hdownload]
    exact extends_cmdDownload inner_ne arg
  . rw [hflash]
    apply Keeps.bind Keeps.get
    intro w
    exact program_unharmed [] ((cmdStreamFlash_sound h arg).mono (fun _ => Or.inl))
  . rw [hrun]
    apply Keeps.bind Keeps.get
    intro w
    exact program_unharmed _ (honly _ _)

theorem commandLoop_unharmed (varlist : List Var) : Keeps Unharmed (commandLoop env (Aboot.cmds cfg varlist)) := by
  intro w hw
  apply commandLoop_spec (fun _ => hw.cons (by simp) rfl)
    (fun _ => (extends_keptByIo inner_ne).usbRead 64 _ (hw.cons (by simp) rfl))
  . intro packet w1 h1
    exact h1.cons (by simp) rfl
  . intro packet w1 h1
    have hcommand : Unharmed { w1 with state := .command, log := .state .command :: w1.log } :=
      h1.cons (by simp) rfl
    apply dispatch_spec (fun text => extends_fail inner_ne text _ hcommand)
      (fun text w' _ => extends_fail inner_ne text w')
    intro cmd hcmd _ _
    exact Keeps.bind (extends_emit (by simp)) (fun _ => handler_unharmed h hcmd _) _ hcommand

theorem act_unharmed (opts : Options) (varlist : List Var) (a : Action)
    : Keeps Unharmed (act env cfg opts varlist a) := by
  cases a with
  | serve => exact commandLoop_unharmed h varlist
  | menu item => exact program_unharmed [] ((menuAction_sound opts h item).mono (fun _ => Or.inl))

theorem runs_unharmed {opts : Options} {varlist : List Var} {base : Bytes} {s : Server}
    (hruns : Runs env cfg opts varlist base s) : Unharmed s.world := by
  apply System.Reaches.invariant (P := fun s => Unharmed s.world) _ _ hruns
  . exact Extends.refl _
  . intro t u a ht _ hstep
    have hspec := Server.run_spec hstep (fun _ => act_unharmed h opts varlist a t.world ht)
    by_cases hrunning : u.halted = none
    . exact hspec.1 hrunning
    . exact hspec.2 hrunning

end Runs

end Layout

/--
When `setup_disk_information` returns, `disk_info` is a layout, and no sequence of commands and menu actions
goes through a null pointer, exactly if the setup was not bypassed.
-/
theorem layoutKnown_iff {m : Machine} {diskInfo : Option Disk.DiskInfo} {volumes : List Fstab.Volume}
    (h : setupDiskInformation m = .ok (diskInfo, volumes)) : LayoutKnown diskInfo volumes ↔ ¬Bypassed m := by
  rw [← Layout.setup_isSome h]
  constructor
  . exact LayoutKnown.loaded
  . intro hloaded
    refine ⟨hloaded, ?_⟩
    intro env cfg opts varlist base s hdisk _ hruns hmem
    have hsome : cfg.diskInfo.isSome = true := by rwa [hdisk]
    obtain ⟨es, hes, hall⟩ := Layout.runs_unharmed hsome hruns
    rw [hes, List.append_nil] at hmem
    exact hall _ hmem rfl

def machine (diskForce : Bytes) : Machine where
  diskForce := some diskForce
  memVolumes := true
  fstab := some (str "/data ext4 /dev/mmcblk0p1\n")
  devnodeRw := fun _ => true
  memLayout := true
  layout := ⟨[], [], [⟨str "device", [], [
    ⟨str "path", str "/dev/mmcblk0", []⟩, ⟨str "scheme", str "mbr", []⟩, ⟨str "start_lba", str "1", []⟩,
    ⟨str "num_lba", str "1024", []⟩, ⟨str "partitions", [], [
      ⟨str "data", [], [⟨str "type", str "linux", []⟩, ⟨str "len", str "64", []⟩]⟩]⟩]⟩]⟩
  process := ⟨.blk (some 512) (some 524288), fun _ => true⟩
  apply := ⟨.blk (some 512) (some 524288), fun _ => true⟩
  write := fun _ => true
  sync := true

def options : Options := ⟨str "data", str "boot", none, none⟩

theorem forced_layoutKnown
    : ∃ dinfo volumes, setupDiskInformation (machine (str "yes")) = .ok (some dinfo, volumes)
        ∧ LayoutKnown (some dinfo) volumes := by
  have hsetup : setupDiskInformation (machine (str "yes"))
      = .ok (some { Aboot.oneDisk with partLst := [⟨str "data", 0, Disk.pcPartTypeLinux, 64, 1⟩] },
          Fstab.loadVolumeTable (machine (str "yes")).fstab) := by
    decide +kernel
  exact ⟨_, _, hsetup, (layoutKnown_iff hsetup).mpr (by decide +kernel)⟩

theorem bypassed_notLayoutKnown
    : ∃ volumes, setupDiskInformation (machine (str "no")) = .ok (none, volumes)
        ∧ ∃ s, Runs (hostOf [str "erase:data"]) (Aboot.plain none volumes) options [] [] s
          ∧ s.halted = some (.segv .diskInfo) ∧ .halt (.segv .diskInfo) ∈ s.world.log := by
  have hsetup : setupDiskInformation (machine (str "no"))
      = .ok (none, Fstab.loadVolumeTable (machine (str "no")).fstab) := by
    decide +kernel
  have hrun : (System.run (step (hostOf [str "erase:data"])
      (Aboot.plain none (Fstab.loadVolumeTable (machine (str "no")).fstab)) options [])
      (start []) [.serve]).any
      (fun s => s.halted = some (.segv .diskInfo) ∧ .halt (.segv .diskInfo) ∈ s.world.log) = true := by
    decide +kernel
  exact ⟨_, hsetup, System.Reaches.exists_of_run (fun _ _ _ => trivial) hrun⟩

end Boot
