import Tboot.Aboot.Impl.Basic
import Tboot.Streaming.Impl

/-!
This module contains the command `flash:`, as the thread of `cmd_stream_flash` sees it: what the reader
does to the buffers, to the pipe and to `pipe_broken` is answered from outside.
-/

namespace Aboot

open Fastboot Fastboot.HProg
open Streaming (bufSize nrBuffer)

namespace cmdStreamFlash

def parse (cmd : Bytes) : Option (Bytes × Nat) :=
  let partName := cmd.takeWhile (· ≠ 58)
  match cmd.drop partName.length with
  | [] => none
  | _ :: rest => some (partName, strtou 32 16 rest)

def cleanup (joined : Bool) : HProg Unit := do
  let _ ← outside (.bufferFree 0)
  let _ ← outside (.bufferFree 1)
  if !joined then
    let _ ← outside .pthreadCancel

def abort (reason : Bytes) (joined : Bool) : HProg Unit := do
  fail reason
  cleanup joined

def finish (joined : Bool) : HProg Unit := do
  okay []
  cleanup joined

def flashPlugin (cb : Callback (Bytes × Nat)) (len : Nat) : HProg Unit := do
  match ← downloadTo len with
  | none => abort (str "download failed.") false
  | some data =>
    if ← cb.run (data, len) then
      finish false
    else
      abort (str "flash failed.") false

def initBuffers : HProg Bool := do
  if !(← outside (.bufferInit 0)) then
    return false
  if !(← outside (.bufferInit 1)) then
    let _ ← outside (.bufferFree 0)
    return false
  return true

def cmdLine (magic device : Bytes) : Bytes :=
  -- The tests look at up to four bytes, also of a shorter image.
  let at_ (i : Nat) : UInt8 := magic.getD i 0
  let base :=
    if at_ 0 = 0x1f ∧ at_ 1 = 0x8b then
      str "/bin/gzip -c -d | "
    else if at_ 0 = 66 ∧ at_ 1 = 90 ∧ (at_ 2 = 104 ∨ at_ 2 = 48) ∧ 49 ≤ at_ 3 ∧ at_ 3 ≤ 57 then
      str "/bin/bzip2 -c -d | "
    else
      []
  base ++ str "/bin/dd of=" ++ device ++ str " bs=8192"

def nextSize (len size finished : Nat) : Nat :=
  if u32 (finished + size) > len then len - finished else size

/--
The fill loop, with `pipe_broken`, `size` and `finished` where it is left; nothing if a chunk has not come.
Once `pipe_broken` is set it stays so.
-/
def fill (fuel len i size finished : Nat) : HProg (Option (Bool × Nat × Nat)) :=
  match fuel with
  | 0 => halt .hang
  | fuel + 1 => do
    if ¬finished < len then
      -- `if (pipe_broken)` behind the loop reads it once more.
      let broken ← outside .pipeBroken
      return some (broken, size, finished)
    else if ← outside .pipeBroken then
      return some (true, size, finished)
    else if ← outside (.bufFull i) then
      fill fuel len ((i + 1) % nrBuffer) size finished
    else
      let size := nextSize len size finished
      match ← receive size with
      | none => return none
      | some _ => fill fuel len ((i + 1) % nrBuffer) size (u32 (finished + size))

def drain (fuel len size finished : Nat) : HProg Unit :=
  match fuel with
  | 0 => halt .hang
  | fuel + 1 => do
    if ¬finished < len then
      return
    else
      let size := nextSize len size finished
      match ← receive size with
      | none => return
      | some _ => drain fuel len size (u32 (finished + size))

def checkExtSuperblock (cfg : Config) (ptn : Disk.PartInfo) : HProg (Option Bool) := do
  match ← findPartDevice cfg ptn.name with
  | none => return none
  | some device =>
    if !(← outside (.checkExtSuperblock device)) then
      return none
    let present ← outside .extPresent
    return some present

def doExtChecks (cfg : Config) (ptn : Option Disk.PartInfo) : HProg (Option Bool) := do
  match ptn with
  | none => return some false
  | some ptn =>
    if ptn.type = Disk.pcPartTypeLinux then
      checkExtSuperblock cfg ptn
    else
      return some false

def syncTable (cfg : Config) (device : Bytes) : HProg Bool := do
  let dinfo ← cfg.disk
  -- An image of the whole disk may have brought a new partition table.
  if device = dinfo.device then
    outside (.openDevice device)
  else
    return true

def check (cfg : Config) (device : Bytes) (ptn : Option Disk.PartInfo) : HProg Unit := do
  if !(← syncTable cfg device) then
    abort (str "could not open device node") true
  else
    match ← doExtChecks cfg ptn with
    | none => abort (str "couldn't check superblock") true
    | some false => finish true
    | some true =>
      if ← outside (.ext4FilesystemChecks device) then
        finish true
      else
        abort (str "ext4 filesystem error") true

def joinReader (cfg : Config) (device : Bytes) (ptn : Option Disk.PartInfo) (len finished : Nat)
    : HProg Unit := do
  if !(← outside .pthreadJoin) then
    abort (str "join reader thread failed") false
  else if finished ≠ len then
    abort (str "write to device failed.") true
  else if !(← outside .readerExit) then
    abort (str "write to device failed.") true
  else
    check cfg device ptn

def transfer (cfg : Config) (device : Bytes) (ptn : Option Disk.PartInfo) (len size : Nat)
    : HProg Unit := do
  match ← fill (len + 1 + cfg.patience) len 1 size size with
  | none => abort (str "download failed.") false
  | some (true, size, finished) =>
    -- The usb buffer has to be empty before the failure can be sent.
    drain (len + 1) len size finished
    abort (str "broken pipe, image too large?") false
  | some (false, _, finished) => joinReader cfg device ptn len finished

def startReader (cfg : Config) (device : Bytes) (ptn : Option Disk.PartInfo) (len size : Nat)
    (magic : Bytes) : HProg Unit := do
  if !(← outside .asprintf) then
    abort (str "asprintf") false
  else if !(← outside (.popen (cmdLine magic device))) then
    abort (str "open for write.") false
  else if !(← outside .pthreadCreate) then
    abort (str "create reader thread failed.") false
  else
    transfer cfg device ptn len size

def stream (cfg : Config) (device : Bytes) (ptn : Option Disk.PartInfo) (len : Nat) : HProg Unit := do
  if !(← handshake len) then
    abort (str "protocol handshake failed.") false
  else if !(← initBuffers) then
    abort (str "out of memory") false
  else
    let size := if len > bufSize then bufSize else len
    match ← receive size with
    | none => abort (str "download failed.") false
    | some bytes =>
      let memory ← fresh
      startReader cfg device ptn len size (bytes ++ memory)

def flashPartition (cfg : Config) (partName : Bytes) (len : Nat) : HProg Unit := do
  match ← findPartDevice cfg partName with
  | none => abort (str "unknown partition specified") false
  | some device =>
    let dinfo ← cfg.disk
    match Fstab.volumeForDevice cfg.volumes device with
    | none => abort (str "invalid fstab or disk layout config") false
    | some vol =>
      if vol.fsType ≠ str "ext4" then
        abort (str "unsupport filesystem type") false
      else
        stream cfg device (Disk.findPart dinfo partName) len

end cmdStreamFlash

open cmdStreamFlash in
def cmdStreamFlash (cfg : Config) (cmd : Bytes) : HProg Unit := do
  if !(← outside .strdup) then
    abort (str "strdup failed.") false
  else
    match parse cmd with
    | none => abort (str "invalid cmd.") false
    | some (partName, len) =>
      if partName = [] then
        listPartitions cfg
      else if partName = str "disk" then
        let dinfo ← cfg.disk
        stream cfg dinfo.device none len
      else
        match cfg.flashCmds.lookup partName with
        | some cb => flashPlugin cb len
        | none => flashPartition cfg partName len

end Aboot
