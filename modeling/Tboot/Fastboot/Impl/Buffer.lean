import Tboot.Fastboot.Impl.Loop

/-!
This module contains the loop with the buffer that it reads packets into. The buffer is used again for
every packet, and only the first 64 of its bytes are cleared before.
-/

namespace Fastboot.Buffered

def bufferSize : Nat := 4096

def commandLoop (env : Env) (cmdlist : List Cmd) (buffer : Bytes) : Fb Bytes := do
  let w ← get
  if w.state = .error then
    setState .offline
    return buffer
  else
    emit .await
    let buffer := List.replicate 64 0 ++ buffer.drop 64
    let (ok, packet) ← usbRead env 64
    let buffer := packet ++ buffer.drop packet.length
    if !ok then
      setState .offline
      return buffer
    else
      let buffer := buffer.set packet.length 0
      setState .command
      dispatch env cmdlist buffer
      return buffer

structure Server extends Fastboot.Server where
  buffer : Bytes
  deriving DecidableEq, Repr

/-- No turn follows one that has halted, so that the buffer of such a turn does not matter. -/
def serve (env : Env) (cmdlist : List Cmd) (s : Server) (_ : Unit) : Option Server :=
  match s.halted with
  | some _ => none
  | none =>
    match (commandLoop env cmdlist s.buffer).exec s.world with
    | (.ok buffer, w) => some ⟨⟨w, none⟩, buffer⟩
    | (.error h, w) => some ⟨⟨w, some h⟩, s.buffer⟩

def start (base : Bytes) : Server where
  toServer := Fastboot.start base
  buffer := List.replicate bufferSize 0

abbrev Serves (env : Env) (cmdlist : List Cmd) (base : Bytes) (s : Server) : Prop :=
  System.Reaches (serve env cmdlist) (fun _ _ => True) (start base) s

end Fastboot.Buffered
