import Tboot.Util.Strtok
import Tboot.Fstab.Impl

/-!
This module contains `load_volume_table` as it works on its array: an entry is filled in behind the last
volume before it is known to be one, the array grows while it is filled, and the two tokenisers share the
state of `strtok`.
-/

namespace Fstab.Load

/-- The array has room for `alloc` volumes; what has not been written to is `none`. -/
structure Table where
  deviceVolumes : List (Option Volume)
  numVolumes : Nat
  alloc_pos : 0 < deviceVolumes.length

namespace Table

def alloc (t : Table) : Nat :=
  t.deviceVolumes.length

def double (t : Table) : Table where
  deviceVolumes := t.deviceVolumes ++ List.replicate t.alloc none
  numVolumes := t.numVolumes
  alloc_pos := by
    have hpos := t.alloc_pos
    simp only [List.length_append]
    omega

theorem alloc_double (t : Table) : t.double.alloc = 2 * t.alloc := by
  simp only [double, alloc, List.length_append, List.length_replicate]
  omega

def grow (t : Table) : Table :=
  if t.numVolumes ≥ t.alloc then
    t.double.grow
  else
    t
  termination_by t.numVolumes + 1 - t.alloc
  decreasing_by
    have hpos : 0 < t.alloc := t.alloc_pos
    have halloc := t.alloc_double
    have hnum : t.double.numVolumes = t.numVolumes := rfl
    omega

def write (t : Table) (volume : Volume) : Table where
  deviceVolumes := t.deviceVolumes.set t.numVolumes (some volume)
  numVolumes := t.numVolumes
  alloc_pos := by
    rw [List.length_set]
    exact t.alloc_pos

def accept (t : Table) : Table where
  deviceVolumes := t.deviceVolumes
  numVolumes := t.numVolumes + 1
  alloc_pos := t.alloc_pos

def volumes (t : Table) : List (Option Volume) :=
  t.deviceVolumes.take t.numVolumes

def initial : Table where
  deviceVolumes := [some tmpVolume, none]
  numVolumes := 1
  alloc_pos := by decide

end Table

/-- The entry's length is written to as the options are read, also if one of them is bad. -/
def parseOptions (options : Option Bytes) (volume : Volume) (save : Bytes) : (Bool × Volume) × Bytes :=
  match h : strtok options (str ",") save with
  | (none, save) => ((true, volume), save)
  | (some option, left) =>
    have : left.length < (options.getD save).length := by
      have hlt := strtok_length_lt (congrArg Prod.fst h)
      rw [h] at hlt
      exact hlt
    if (str "length=").isPrefixOf option then
      parseOptions none { volume with length := strtos 64 10 (option.drop 7) } left
    else
      ((false, volume), left)
  termination_by (options.getD save).length

def seps : Bytes :=
  str " \t\n"

def restOfLine : Scan (Option Bytes × Option Bytes) := do
  match ← strtok none seps with
  | none => return (none, none)
  | some device2 =>
    if device2.head? = some 47 then
      let options ← strtok none seps
      return (some device2, options)
    else
      return (none, some device2)

def fillEntry (t : Table) (volume : Volume) (options : Option Bytes) : Scan Table := do
  let t := t.grow
  let (ok, volume) ← parseOptions options volume
  let t := t.write volume
  return if ok then t.accept else t

def loadLine (t : Table) (buffer : Bytes) : Scan Table := do
  let line := (cstr buffer).dropWhile isspace
  if line = [] ∨ line.head? = some 35 then
    return t
  else
    let mountPoint ← strtok (some line) seps
    let fsType ← strtok none seps
    let device ← strtok none seps
    let (device2, options) ← restOfLine
    match mountPoint, fsType, device with
    | some mountPoint, some fsType, some device =>
      fillEntry t ⟨mountPoint, fsType, some device, device2, 0⟩ options
    | _, _, _ => return t

def loadVolumeTable (fstab : Option Bytes) (save : Bytes) : Table :=
  match fstab with
  | none => Table.initial
  | some file => ((fgetsAll 1023 file.length file).foldlM loadLine Table.initial save).1

end Fstab.Load
