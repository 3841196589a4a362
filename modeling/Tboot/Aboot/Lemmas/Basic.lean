import Tboot.Aboot.Impl.Oem

/-!
This module contains which functions of `fastboot.h` the handlers come to, and where they do not return.
-/

namespace Aboot

open Fastboot

structure Permits (S : Op → Prop) : Prop where
  info : ∀ text, S (.api (.info text))
  okay : ∀ text, S (.api (.okay text))
  fail : ∀ text, S (.api (.fail text))
  pullFile : ∀ fd, S (.api (.pullFile fd))
  outside : ∀ q, S (.outside q)
  statfs : ∀ dir, S (.statfs dir)
  die : S (.halt .die)
  nullArgv : S (.halt (.segv .argv))

structure PermitsDisk (cfg : Config) (S : Op → Prop) : Prop extends Permits S where
  nullDisk : cfg.diskInfo = none → S (.halt (.segv .diskInfo))

namespace Permits

variable {S : Op → Prop} (hS : Permits S)

include hS

theorem callback {α : Type} (cb : Callback α) (a : α) : (cb.run a).Only S := by
  apply (cb.only a).mono
  intro op hop
  unfold ofPlugin at hop
  split at hop
  . exact hS.info _
  . exact hS.okay _
  . exact hS.fail _
  . exact hS.pullFile _
  . exact hS.outside _
  . exact hop.elim

theorem listCallback (key : Bytes) : (Aboot.listCallback key).Only S := by
  simp [Aboot.listCallback, hS.outside, hS.info]

theorem cmdGetvar (varlist : List Var) (arg : Bytes) : (Fastboot.cmdGetvar varlist arg).Only S := by
  unfold Fastboot.cmdGetvar
  split
  . simp only [Prog.Only.perform_bind_iff]
    refine ⟨hS.info _, fun _ => ?_⟩
    apply Prog.Only.bind
    . apply Prog.Only.forM
      simp [hS.info]
    . simp [hS.info, hS.okay]
  . split
    all_goals simp [hS.okay]

theorem cmdReboot : Aboot.cmdReboot.Only S := by
  simp [Aboot.cmdReboot, hS.okay, hS.outside]

theorem cmdBoot : Aboot.cmdBoot.Only S := by
  simp [Aboot.cmdBoot, hS.fail]

theorem abort (reason : Bytes) (joined : Bool) : (cmdStreamFlash.abort reason joined).Only S := by
  cases joined
  all_goals simp [cmdStreamFlash.abort, cmdStreamFlash.cleanup, hS.fail, hS.outside]

theorem finish (joined : Bool) : (cmdStreamFlash.finish joined).Only S := by
  cases joined
  all_goals simp [cmdStreamFlash.finish, cmdStreamFlash.cleanup, hS.okay, hS.outside]

end Permits

namespace PermitsDisk

variable {cfg : Config} {S : Op → Prop} (hS : PermitsDisk cfg S)

include hS

theorem disk : cfg.disk.Only S := by
  unfold Config.disk
  split
  . exact Prog.Only.pure _
  . next hnone => exact Prog.Only.bind (Prog.Only.perform_iff.mpr (hS.nullDisk hnone)) (fun no => no.elim)

theorem findPartDevice (name : Bytes) : (Aboot.findPartDevice cfg name).Only S := by
  apply Prog.Only.bind hS.disk
  intro dinfo
  simp [hS.outside]

theorem listParts : (Aboot.listParts cfg).Only S := by
  simp only [Aboot.listParts, Prog.Only.perform_bind_iff]
  refine ⟨hS.info _, fun _ => ⟨hS.info _, fun _ => ⟨hS.info _, fun _ => ?_⟩⟩⟩
  apply Prog.Only.bind hS.disk
  intro dinfo
  apply Prog.Only.bind
  . apply Prog.Only.forM
    intro ptn
    simp [hS.outside, hS.info]
  . simp [hS.info, hS.okay]

theorem listPartitions : (Aboot.listPartitions cfg).Only S := by
  simp only [Aboot.listPartitions, Prog.Only.perform_bind_iff]
  refine ⟨hS.info _, fun _ => ?_⟩
  apply Prog.Only.bind
  . apply Prog.Only.forM
    intro cmd
    exact hS.listCallback _
  . intro _
    exact hS.listParts

theorem erasePartition (ptn : Disk.PartInfo) : (Aboot.erasePartition cfg ptn).Only S := by
  apply Prog.Only.bind (hS.findPartDevice _)
  intro device
  split
  . exact Prog.Only.bind (Prog.Only.perform_iff.mpr hS.die) (fun no => no.elim)
  . simp only [Prog.Only.perform_bind_iff, Prog.Only.ite_iff]
    refine ⟨hS.outside _, fun valid => ⟨fun _ => Prog.Only.pure _, fun _ => ?_⟩⟩
    split
    all_goals simp [hS.outside]

theorem cmdErase (partName : Bytes) : (Aboot.cmdErase cfg partName).Only S := by
  unfold Aboot.cmdErase
  split
  . exact hS.listParts
  . apply Prog.Only.bind hS.disk
    intro dinfo
    split
    . simp [hS.fail]
    . apply Prog.Only.bind (hS.erasePartition _)
      simp [hS.okay, hS.fail]

theorem doExtChecks (ptn : Option Disk.PartInfo) : (cmdStreamFlash.doExtChecks cfg ptn).Only S := by
  unfold cmdStreamFlash.doExtChecks
  split
  . exact Prog.Only.pure _
  . split
    . apply Prog.Only.bind (hS.findPartDevice _)
      intro device
      split
      . exact Prog.Only.pure _
      . simp [hS.outside]
    . exact Prog.Only.pure _

theorem syncTable (device : Bytes) : (cmdStreamFlash.syncTable cfg device).Only S := by
  apply Prog.Only.bind hS.disk
  simp [hS.outside]

theorem check (device : Bytes) (ptn : Option Disk.PartInfo)
    : (cmdStreamFlash.check cfg device ptn).Only S := by
  apply Prog.Only.bind (hS.syncTable device)
  intro opened
  split
  . exact hS.abort _ _
  . apply Prog.Only.bind (hS.doExtChecks ptn)
    intro checks
    split
    . exact hS.abort _ _
    . exact hS.finish _
    . simp only [Prog.Only.perform_bind_iff, Prog.Only.ite_iff]
      exact ⟨hS.outside _, fun _ => ⟨fun _ => hS.finish _, fun _ => hS.abort _ _⟩⟩

theorem joinReader (device : Bytes) (ptn : Option Disk.PartInfo) (len finished : Nat)
    : (cmdStreamFlash.joinReader cfg device ptn len finished).Only S := by
  simp only [cmdStreamFlash.joinReader, Prog.Only.perform_bind_iff, Prog.Only.ite_iff]
  refine ⟨hS.outside _, fun joined => ⟨fun _ => hS.abort _ _, fun _ => ⟨fun _ => hS.abort _ _, fun _ => ?_⟩⟩⟩
  exact ⟨hS.outside _, fun exit => ⟨fun _ => hS.abort _ _, fun _ => hS.check device ptn⟩⟩

end PermitsDisk

/-! ### OEM commands -/

def OrOem (S : Op → Prop) (argv : List Bytes) (op : Op) : Prop :=
  S op ∨ ∃ name, op = .oem name ∧ argv.head? = some name

def oemArgv (arg : Bytes) : List Bytes :=
  (tokens (str " \t") (arg.dropWhile (· = 32))).take cmdOem.maxOemArgs

namespace Permits

variable {cfg : Config} {S : Op → Prop} (hS : Permits S)

include hS

theorem push (argv : List Bytes) (data : Bytes) : (cmdOem.push cfg argv data).Only S := by
  unfold cmdOem.push
  split
  all_goals simp [hS.outside, hS.statfs, hS.info, hS.okay, hS.fail]

theorem call (argv : List Bytes) (data : Bytes) : (cmdOem.call cfg argv data).Only (OrOem S argv) := by
  have hor {p : HProg Unit} (hp : p.Only S) : p.Only (OrOem S argv) := hp.mono (fun _ => Or.inl)
  unfold cmdOem.call
  split
  . exact hor (Prog.Only.bind (Prog.Only.perform_iff.mpr hS.nullArgv) (fun no => no.elim))
  . next name rest =>
    split
    . next cb _ =>
      simp only [Prog.Only.perform_bind_iff]
      refine ⟨Or.inr ⟨name, rfl, rfl⟩, fun _ => ?_⟩
      apply Prog.Only.bind ((hS.callback cb _).mono (fun _ => Or.inl))
      simp [hS.okay, hS.fail]
    . apply hor
      split
      . exact hS.push _ _
      . simp [hS.fail]

theorem cmdOem (arg data : Bytes) : (Aboot.cmdOem cfg arg data).Only (OrOem S (oemArgv arg)) := by
  unfold Aboot.cmdOem
  dsimp only
  split
  . apply Prog.Only.mono (fun _ => Or.inl)
    simp only [Prog.Only.perform_bind_iff]
    refine ⟨hS.info _, fun _ => ?_⟩
    apply Prog.Only.bind
    . apply Prog.Only.forM
      intro cmd
      exact hS.listCallback _
    . simp [hS.info, hS.okay]
  . simp only [Prog.Only.perform_bind_iff]
    refine ⟨Or.inl (hS.outside _), fun ok => ?_⟩
    split
    . apply Prog.Only.mono (fun _ => Or.inl)
      simp [hS.fail]
    . exact hS.call _ data

end Permits

/-- The handlers of the table: no command but `download:` and `flash:` asks for data. -/
theorem PermitsDisk.handle_cases {cfg : Config} {S : Op → Prop} (hS : PermitsDisk cfg S) {varlist : List Var}
    {cmd : Cmd} (h : cmd ∈ cmds cfg varlist)
    : cmd.handle = .download ∨ (cmd.handle = .program fun arg _ => cmdStreamFlash cfg arg)
        ∨ ∃ run, cmd.handle = .program run ∧ ∀ arg data, (run arg data).Only (OrOem S (oemArgv arg)) := by
  have hprogram {run : Bytes → Bytes → HProg Unit} (hrun : ∀ arg data, (run arg data).Only S)
      : ∃ run', Handler.program run = .program run'
          ∧ ∀ arg data, (run' arg data).Only (OrOem S (oemArgv arg)) :=
    ⟨run, rfl, fun arg data => (hrun arg data).mono (fun _ => Or.inl)⟩
  simp only [cmds, initCmds, registerCommands, register, List.mem_cons, List.not_mem_nil, or_false] at h
  rcases h with rfl | rfl | rfl | rfl | rfl | rfl | rfl | rfl
  . exact Or.inl rfl
  . exact Or.inr (Or.inr (hprogram fun _ _ => hS.cmdGetvar _ _))
  . exact Or.inr (Or.inl rfl)
  . exact Or.inr (Or.inr (hprogram fun _ _ => hS.cmdErase _))
  . exact Or.inr (Or.inr (hprogram fun _ _ => hS.cmdReboot))
  . exact Or.inr (Or.inr (hprogram fun _ _ => hS.cmdReboot))
  . exact Or.inr (Or.inr (hprogram fun _ _ => hS.cmdBoot))
  . exact Or.inr (Or.inr ⟨_, rfl, fun arg data => hS.cmdOem arg data⟩)

def Tame : Op → Prop
  | .api (.handshake _) => False
  | .api (.receive _) => False
  | .api (.downloadTo _) => False
  | .oem _ => False
  | _ => True

theorem tame : Permits Tame where
  info := fun _ => trivial
  okay := fun _ => trivial
  fail := fun _ => trivial
  pullFile := fun _ => trivial
  outside := fun _ => trivial
  statfs := fun _ => trivial
  die := trivial
  nullArgv := trivial

theorem tameDisk (cfg : Config) : PermitsDisk cfg Tame :=
  ⟨tame, fun _ => trivial⟩

def oneDisk : Disk.DiskInfo where
  device := str "/dev/mmcblk0"
  scheme := Disk.partSchemeMbr
  sectSize := 512
  skipLba := 1
  numLba := 1024
  partLst := [⟨str "data", 0, Disk.pcPartTypeLinux, 64, 0⟩]

def plain (diskInfo : Option Disk.DiskInfo) (volumes : List Fstab.Volume) : Config where
  diskInfo := diskInfo
  volumes := volumes
  flashCmds := []
  oemCmds := []
  pushDir := str "/tmp"
  patience := 0

end Aboot
