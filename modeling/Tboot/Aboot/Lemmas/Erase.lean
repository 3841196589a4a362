import Tboot.Aboot.Lemmas.Basic
import Tboot.Fastboot.Lemmas.Basic

/-!
This module contains what `erase_partition` formats: the device of the volume that is found for the node of
the partition, which is that node when no volume has it as its second device.
-/

open Proc

namespace Aboot

open Fastboot

def FormatsOnly (device : Option Bytes) : Event → Prop
  | .outside (.makeExt4fsQuick device' _) _ => device' = device
  | _ => True

def ErasesOnly (cfg : Config) (dinfo : Disk.DiskInfo) (ptn : Disk.PartInfo) : Prop :=
  ∀ (env : Env) (w : World),
    Extends (FormatsOnly (Disk.findPartDevice true dinfo ptn.name)) w.log
      (((erasePartition cfg ptn).interp (runOp env)).exec w).2

def OnOwnDevice (volumes : List Fstab.Volume) (dinfo : Disk.DiskInfo) (ptn : Disk.PartInfo) : Prop :=
  ∀ pdevice ∈ Disk.findPartDevice true dinfo ptn.name, ∀ vol ∈ Fstab.volumeForDevice volumes pdevice,
    vol.fsType = str "ext4" → vol.device = some pdevice

instance (volumes : List Fstab.Volume) (dinfo : Disk.DiskInfo) (ptn : Disk.PartInfo)
    : Decidable (OnOwnDevice volumes dinfo ptn) :=
  inferInstanceAs (Decidable (∀ pdevice ∈ Disk.findPartDevice true dinfo ptn.name,
    ∀ vol ∈ Fstab.volumeForDevice volumes pdevice, vol.fsType = str "ext4" → vol.device = some pdevice))

namespace Erase

variable {env : Env} {cfg : Config} {dinfo : Disk.DiskInfo} {ptn : Disk.PartInfo}

theorem outside_formats {device : Option Bytes} {log : List Event} {q : Outside}
    (hq : ∀ ok, FormatsOnly device (.outside q ok))
    : Keeps (Extends (FormatsOnly device) log) (askOutside env q) :=
  fun _ h => h.cons (hq _) rfl

theorem wp_findPartDevice {name : Bytes} {Q : Option Bytes → World → Prop} {E : World → Prop} {w : World}
    (hdisk : cfg.diskInfo = some dinfo)
    : wp ((findPartDevice cfg name).interp (runOp env)) Q E w
        ↔ wp (askOutside env .malloc) (fun mem => Q (Disk.findPartDevice mem dinfo name)) E w := by
  simp only [findPartDevice, Config.disk, hdisk, Prog.wp_interp_bind, Prog.wp_interp_pure,
    Prog.wp_interp_perform, runOp]

theorem findPartDevice_mem {mem : Bool} {name pdevice : Bytes}
    (h : Disk.findPartDevice mem dinfo name = some pdevice)
    : Disk.findPartDevice true dinfo name = some pdevice := by
  cases mem with
  | true => exact h
  | false =>
    unfold Disk.findPartDevice Disk.findMbrPart at h
    split at h
    . split at h
      all_goals simp at h
    . contradiction

theorem erasesOnly_of_onOwnDevice (hdisk : cfg.diskInfo = some dinfo)
    (hown : OnOwnDevice cfg.volumes dinfo ptn) : ErasesOnly cfg dinfo ptn := by
  intro env w
  apply (wp_const _).mp
  unfold erasePartition
  rw [Prog.wp_interp_bind, wp_findPartDevice hdisk]
  apply wp_mono (outside_formats (fun _ => by trivial) w (Extends.refl w)) _ (fun _ => id)
  intro mem w1 h1
  split
  . rw [wp_halt]
    exact h1.cons (by trivial) rfl
  . next pdevice hdevice =>
    simp only [Prog.wp_interp_bind, Prog.wp_interp_perform]
    apply wp_mono (outside_formats (fun _ => by trivial) w1 h1) _ (fun _ => id)
    intro valid w2 h2
    split
    . exact h2
    . split
      . exact h2
      . next vol hvol =>
        split
        . next hext4 =>
          have hpdevice := findPartDevice_mem hdevice
          simp only [Prog.wp_interp_perform]
          apply outside_formats _ w2 h2
          intro ok
          exact (hown pdevice hpdevice vol hvol hext4).trans hpdevice.symm
        . exact h2

theorem formats_device {pdevice : Bytes} {vol : Fstab.Volume} (hdisk : cfg.diskInfo = some dinfo)
    (hpdevice : Disk.findPartDevice true dinfo ptn.name = some pdevice)
    (hvol : Fstab.volumeForDevice cfg.volumes pdevice = some vol) (hext4 : vol.fsType = str "ext4") (w : World)
    : .outside (.makeExt4fsQuick vol.device vol.length) true
        ∈ (((erasePartition cfg ptn).interp (runOp (hostOf []))).exec w).2.log := by
  refine (wp_const (P := fun w' : World => Event.outside _ _ ∈ w'.log) _).mp ?_
  unfold erasePartition
  rw [Prog.wp_interp_bind, wp_findPartDevice hdisk]
  simp [wp_askOutside, Prog.wp_interp_bind, Prog.wp_interp_perform, runOp, hostOf, hpdevice, hvol, hext4]

theorem onOwnDevice_of_erasesOnly (hdisk : cfg.diskInfo = some dinfo) (h : ErasesOnly cfg dinfo ptn)
    : OnOwnDevice cfg.volumes dinfo ptn := by
  intro pdevice hpdevice vol hvol hext4
  have hformats := formats_device hdisk hpdevice hvol hext4 (start []).world
  obtain ⟨es, hes, hall⟩ := h (hostOf []) (start []).world
  rw [hes, show (start []).world.log = [] from rfl, List.append_nil] at hformats
  exact (hall _ hformats).trans hpdevice

end Erase

/--
`erase_partition` formats nothing but the node of the partition, whatever happens outside, exactly if the
volume that is found for this node does not have it as its second device.
-/
theorem erasesOnly_iff {cfg : Config} {dinfo : Disk.DiskInfo} {ptn : Disk.PartInfo}
    (hdisk : cfg.diskInfo = some dinfo)
    : ErasesOnly cfg dinfo ptn ↔ OnOwnDevice cfg.volumes dinfo ptn :=
  ⟨Erase.onOwnDevice_of_erasesOnly hdisk, Erase.erasesOnly_of_onOwnDevice hdisk⟩

def dataConfig (line : String) : Config :=
  plain (some oneDisk) (Fstab.loadVolumeTable (some (str line)))

theorem ownNode_erasesOnly
    : ∃ ptn ∈ oneDisk.partLst,
        (Fstab.volumeForDevice (dataConfig "/data ext4 /dev/mmcblk0p1 length=4096\n").volumes
          (str "/dev/mmcblk0p1")).isSome
        ∧ ErasesOnly (dataConfig "/data ext4 /dev/mmcblk0p1 length=4096\n") oneDisk ptn := by
  refine ⟨_, List.mem_singleton_self _, by decide +kernel, ?_⟩
  exact (erasesOnly_iff rfl).mpr (by decide +kernel)

theorem secondNode_notErasesOnly
    : ∃ ptn ∈ oneDisk.partLst, Disk.findPartDevice true oneDisk ptn.name = some (str "/dev/mmcblk0p1")
        ∧ .outside (.makeExt4fsQuick (some (str "/dev/sdb1")) 0) true
          ∈ (((erasePartition (dataConfig "/data ext4 /dev/sdb1 /dev/mmcblk0p1\n") ptn).interp
            (runOp (hostOf []))).exec (start []).world).2.log
        ∧ ¬ErasesOnly (dataConfig "/data ext4 /dev/sdb1 /dev/mmcblk0p1\n") oneDisk ptn := by
  refine ⟨_, List.mem_singleton_self _, by decide +kernel, by decide +kernel, ?_⟩
  intro h
  have hown := Erase.onOwnDevice_of_erasesOnly rfl h
  revert hown
  decide +kernel

end Aboot
