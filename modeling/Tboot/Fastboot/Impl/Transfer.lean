import Tboot.Fastboot.Impl.Usb

/-!
This module contains the transfers of `fastboot.c`: data from the host, streamed or into the scratch
area at `download_base`, and files to the host.
-/

namespace Fastboot

def responseData (env : Env) (len : Nat) : Fb Bool := do
  let count ← usbWrite env (.data len)
  return count = some (Packet.data len).bytes.length

/-- `streaming_download(data, len, 1)` -/
def streamingHandshake (env : Env) (len : Nat) : Fb Bool := do
  emit (.call (.handshake len))
  responseData env len

/-- `streaming_download(data, len, 0)` -/
def streamingDownload (env : Env) (len : Nat) : Fb (Option Bytes) := do
  emit (.call (.receive len))
  let (ok, bytes) ← usbRead env len
  return if ok && bytes.length = len then some bytes else none

def downloadTo (env : Env) (size : Nat) : Fb (Option Bytes) := do
  emit (.call (.downloadTo size))
  if size > env.downloadMax then
    fastbootFail env (str "data too large")
    return none
  if !(← responseData env size) then
    return none
  let r ← usbReadProgress env size
  if r < 0 ∨ r ≠ size then
    setState .error
    return none
  let w ← get
  return some (w.downloadBase.take size)

def cmdDownload (env : Env) (arg : Bytes) : Fb Unit := do
  emit .download
  let len := strtou 32 16 arg
  setDownloadSize 0
  if len > env.downloadMax then
    fastbootFail env (str "data too large")
    return
  if !(← responseData env len) then
    return
  let r ← usbReadProgress env len
  if r < 0 ∨ r ≠ len then
    setState .error
    return
  setDownloadSize len
  fastbootOkay env []

namespace pullFile

def offset : Nat := 12

def header (size : Nat) : Bytes :=
  str "FILE" ++ hex8 size

def answer (stack reply : Bytes) : Bytes :=
  ((reply ++ stack.drop reply.length).take offset).drop 4

def send (env : Env) (size : Nat) : Fb Bool := do
  let downloadSize := u32 (offset + size)
  setDownloadSize downloadSize
  let w ← get
  let packet := Packet.file (w.downloadBase.take downloadSize)
  if (← usbWrite env packet) ≠ some downloadSize then
    fastbootFail env (str "usb write failed.")
    return false
  -- A result of -1 is converted to `unsigned` for the comparison and is not below `offset`.
  let stack := env.fresh w.reads
  let (ok, reply) ← usbRead env 64
  if ok && reply.length < offset then
    fastbootFail env (str "get invalid response")
    return false
  if size ≠ strtou 32 16 (answer stack reply) then
    fastbootFail env (str "saved bytes doesn't equal sent bytes")
    return false
  return true

def body (env : Env) (fd : Fd) : Fb Bool := do
  match fd with
  | .invalid =>
    fastbootFail env (str "invalid fd.")
    return false
  | .cannotStat =>
    fastbootFail env (str "can't get file size.")
    return false
  | .file size contents =>
    let room := u32 (env.downloadMax + 2 ^ 32 - offset)
    if size > room then
      fastbootFail env (str "file is too large.")
      return false
    -- `snprintf` stores as much of the header, and the zero after it, as `download_max` allows.
    store 0 (((header size).take (env.downloadMax - 1) ++ [0]).take env.downloadMax)
    if (header size).length ≠ offset then
      fastbootFail env (str "construct response failed.")
      return false
    let got := contents.map (List.take room)
    store offset (got.getD [])
    if got.map List.length ≠ some size then
      fastbootFail env (str "read file failed.")
      return false
    send env size

end pullFile

/-- `g_scratch_size * MEGABYTE`, which `fastboot_init` allocates and keeps in `download_max` -/
def scratchSize (gScratchSize : Int) : Nat :=
  (gScratchSize * (1024 * 1024) % 2 ^ 32).toNat

def pullFile (env : Env) (fd : Fd) : Fb Bool := do
  emit (.call (.pullFile fd))
  pullFile.body env fd

end Fastboot
