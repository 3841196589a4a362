import Tboot.Fastboot.Impl.Basic

/-!
This module contains the transport of `fastboot.c`: `usb_read`, `usb_read_progress`, `usb_write` and the
replies that are sent with it.
-/

namespace Fastboot

namespace usbRead

def loop (env : Env) (fuel len : Nat) (got : Bytes) : Fb (Bool × Bytes) :=
  match fuel with
  | 0 => return (true, got)
  | fuel + 1 => do
    if len = 0 then
      return (true, got)
    let xfer := if len > 4096 then 4096 else len
    match ← sysRead env xfer with
    | none =>
      setState .error
      return (false, got)
    | some bytes =>
      if bytes.length ≠ xfer then
        return (true, got ++ bytes)
      loop env fuel (len - xfer) (got ++ bytes)

end usbRead

/--
Whether the result is not -1, and the bytes that have been stored. The result is their number, which
fits an `int` for every length this is called with.
-/
def usbRead (env : Env) (len : Nat) : Fb (Bool × Bytes) := do
  let w ← get
  if w.state = .error then
    setState .error
    return (false, [])
  usbRead.loop env len len []

def toInt32 (n : Nat) : Int :=
  if n < 2 ^ 31 then n else (n : Int) - 2 ^ 32

def roundup (x y : Nat) : Nat :=
  (x + (y - 1)) / y * y

namespace usbReadProgress

/--
The loop over the slices. `finished` goes up by at least one byte a turn, or it wraps around and never
comes to `len`.
-/
def loop (env : Env) (fuel len slice percent finished : Nat) : Fb Int :=
  match fuel with
  | 0 => throw .hang
  | fuel + 1 => do
    let percent := if slice = 0 then 99 else percent
    let slice := if slice = 0 then len else slice
    let (ok, bytes) ← usbRead env slice
    store finished bytes
    if !ok || bytes.length ≠ slice then
      return -1
    let percent := percent + 1
    let finished := u32 (finished + slice)
    -- never reach 100%
    if percent < 100 then
      emit (.textbar percent)
    if finished > len then
      return -1
    else if finished = len then
      return toInt32 finished
    else if u32 (finished + slice) > len then
      loop env fuel len (len - finished) 99 finished
    else
      loop env fuel len slice percent finished

end usbReadProgress

def usbReadProgress (env : Env) (len : Nat) : Fb Int := do
  if len < 4096 then
    let (ok, bytes) ← usbRead env len
    store 0 bytes
    return if ok then bytes.length else -1
  usbReadProgress.loop env len len (roundup (len / 100) 4096) 0 0

def usbWrite (env : Env) (packet : Packet) : Fb (Option Nat) := do
  let w ← get
  if w.state = .error then
    setState .error
    return none
  match ← sysWrite env packet with
  | none =>
    setState .error
    return none
  | some count => return some count

def toResult : Option Nat → Int
  | some count => count
  | none => -1

def textAt (below : Nat → UInt8) (reason : Bytes) (pos : Int) : Bytes :=
  if 0 ≤ pos then
    reason.drop pos.toNat
  else
    cstr ((List.range (-pos).toNat).reverse.map below ++ reason)

namespace fastbootAck

/-- `reason` goes on by what has been written of it: back by five bytes when the write has failed. -/
def loop (env : Env) (code : Code) (reason : Bytes) (below : Nat → UInt8) (fuel : Nat) (pos : Int)
    : Fb Unit :=
  match fuel with
  | 0 => throw .hang
  | fuel + 1 => do
    let count ← usbWrite env (.reply code ((textAt below reason pos).take 59))
    let pos := pos + toResult count - 4
    if textAt below reason pos ≠ [] then
      loop env code reason below fuel pos

end fastbootAck

def fastbootAck (env : Env) (code : Code) (reason : Bytes) : Fb Unit := do
  let w ← get
  if w.state ≠ .command then
    return
  let reason := cstr reason
  fastbootAck.loop env code reason (env.below w.writes) (reason.length + 1 + env.patience) 0

def fastbootInfo (env : Env) (text : Bytes) : Fb Unit := do
  emit (.call (.info text))
  fastbootAck env .info text

def fastbootFail (env : Env) (reason : Bytes) : Fb Unit := do
  emit (.call (.fail reason))
  fastbootAck env .fail reason
  setState .complete

def fastbootOkay (env : Env) (info : Bytes) : Fb Unit := do
  emit (.call (.okay info))
  fastbootAck env .okay info
  setState .complete

end Fastboot
