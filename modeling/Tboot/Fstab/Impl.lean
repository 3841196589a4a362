import Tboot.Util.CString

/-!
This module contains `fstab.c`: the table of volumes, how it is read, and what is looked up in it.
-/

namespace Fstab

structure Volume where
  mountPoint : Bytes
  fsType : Bytes
  device : Option Bytes
  device2 : Option Bytes
  length : Int
  deriving DecidableEq, Repr

/-- `fgets(buffer, size, fstab)` gives at most `size - 1` bytes, up to the end of a line. -/
def fgets (size : Nat) (file : Bytes) : Bytes × Bytes :=
  let line := (file.take (size - 1)).takeWhile (· ≠ 10)
  let line := if line.length < size - 1 then line ++ (file.drop line.length).take 1 else line
  (line, file.drop line.length)

def fgetsAll (size fuel : Nat) (file : Bytes) : List Bytes :=
  match fuel, file with
  | 0, _ => []
  | _, [] => []
  | fuel + 1, file =>
    let (line, rest) := fgets size file
    line :: fgetsAll size fuel rest

def parseOptions (options : List Bytes) (length : Int) : Option Int :=
  match options with
  | [] => some length
  | option :: options =>
    if (str "length=").isPrefixOf option then
      parseOptions options (strtos 64 10 (option.drop 7))
    else
      none

def parseLine (buffer : Bytes) : Option Volume :=
  let line := (cstr buffer).dropWhile isspace
  if line = [] ∨ line.head? = some 35 then
    none
  else
    match tokens (str " \t\n") line with
    | mountPoint :: fsType :: device :: rest =>
      let (device2, options) : Option Bytes × List Bytes :=
        match rest with
        | [] => (none, [])
        | token :: rest =>
          if token.head? = some 47 then
            (some token, (rest.take 1).flatMap (tokens (str ",")))
          else
            (none, tokens (str ",") token)
      (parseOptions options 0).map fun length => ⟨mountPoint, fsType, some device, device2, length⟩
    | _ => none

def tmpVolume : Volume := ⟨str "/tmp", str "ramdisk", none, none, 0⟩

def loadVolumeTable (fstab : Option Bytes) : List Volume :=
  match fstab with
  | none => [tmpVolume]
  | some file => tmpVolume :: (fgetsAll 1023 file.length file).filterMap parseLine

def checkDevnodes (devnodeRw : Bytes → Bool) (volumes : List Volume) : Bool :=
  volumes.all fun v =>
    let check (device : Option Bytes) : Bool :=
      match device with
      | none => true
      | some [] => true
      | some node => devnodeRw node
    check v.device && check v.device2

def volumeForDevice (volumes : List Volume) (device : Bytes) : Option Volume :=
  volumes.find? fun v => v.device.isSome && (v.device = some device || v.device2 = some device)

end Fstab
