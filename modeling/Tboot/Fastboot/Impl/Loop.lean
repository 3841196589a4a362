import Tboot.Fastboot.Impl.Transfer
import Tboot.Util.System

/-!
This module contains the table of commands and the loop that serves them. A handler is a program over the
functions of `fastboot.h` and the calls that are answered from outside; `cmd_download` alone has access
to the variables of `fastboot.c`.
-/

namespace Fastboot

inductive Op where
  | api (a : Api)
  | outside (q : Outside)
  | oem (name : Bytes)
  | statfs (dir : Bytes)
  | fresh
  | halt (h : Halt)
  deriving DecidableEq, Repr

@[reducible]
def Api.Resp : Api → Type
  | .info _ => Unit
  | .okay _ => Unit
  | .fail _ => Unit
  | .handshake _ => Bool
  | .receive _ => Option Bytes
  | .downloadTo _ => Option Bytes
  | .pullFile _ => Bool

@[reducible]
def Op.Resp : Op → Type
  | .api a => a.Resp
  | .outside _ => Bool
  | .oem _ => Unit
  | .statfs _ => Option (Nat × Nat)
  | .fresh => Bytes
  | .halt _ => Empty

abbrev HProg := Prog Op Op.Resp

namespace HProg

abbrev info (text : Bytes) : HProg Unit := Prog.perform (Op.api (.info text))
abbrev okay (text : Bytes) : HProg Unit := Prog.perform (Op.api (.okay text))
abbrev fail (text : Bytes) : HProg Unit := Prog.perform (Op.api (.fail text))
abbrev handshake (len : Nat) : HProg Bool := Prog.perform (Op.api (.handshake len))
abbrev receive (len : Nat) : HProg (Option Bytes) := Prog.perform (Op.api (.receive len))
abbrev downloadTo (size : Nat) : HProg (Option Bytes) := Prog.perform (Op.api (.downloadTo size))
abbrev pullFile (fd : Fd) : HProg Bool := Prog.perform (Op.api (.pullFile fd))
abbrev outside (q : Outside) : HProg Bool := Prog.perform (Op.outside q)
abbrev oem (name : Bytes) : HProg Unit := Prog.perform (Op.oem name)
abbrev statfs (dir : Bytes) : HProg (Option (Nat × Nat)) := Prog.perform (Op.statfs dir)
abbrev fresh : HProg Bytes := Prog.perform Op.fresh

def halt {α : Type} (h : Halt) : HProg α := do
  let no ← (Prog.perform (Op.halt h) : HProg Empty)
  no.elim

end HProg

def runApi (env : Env) : (a : Api) → Fb a.Resp
  | .info text => fastbootInfo env text
  | .okay text => fastbootOkay env text
  | .fail text => fastbootFail env text
  | .handshake len => streamingHandshake env len
  | .receive len => streamingDownload env len
  | .downloadTo size => downloadTo env size
  | .pullFile fd => pullFile env fd

def runOp (env : Env) : (op : Op) → Fb op.Resp
  | .api a => runApi env a
  | .outside q => askOutside env q
  | .oem name => emit (.oem name)
  | .statfs dir => do
    let w ← get
    let ok ← askOutside env (.statfs dir)
    return if ok then some (env.statfs w.outsides) else none
  | .fresh => do
    let w ← get
    return env.fresh w.reads
  | .halt h => do
    emit (.halt h)
    throw h

/-- The handler of a command gets its argument and the first `download_size` bytes at `download_base`. -/
inductive Handler where
  | program (run : Bytes → Bytes → HProg Unit)
  | download

structure Cmd where
  name : Bytes
  handle : Handler

structure Var where
  name : Bytes
  value : Bytes
  deriving DecidableEq, Repr

def cmdGetvar (varlist : List Var) (arg : Bytes) : HProg Unit :=
  if arg = [] then do
    HProg.info (str "All available variables:\n")
    varlist.forM fun var => do
      HProg.info var.name
      HProg.info (str "\n")
    HProg.info (str "\n")
    HProg.okay []
  else
    match varlist.find? fun var => var.name = arg with
    | some var => HProg.okay var.value
    | none => HProg.okay []

def register (cmdlist : List Cmd) (name : Bytes) (handle : Handler) : List Cmd :=
  ⟨name, handle⟩ :: cmdlist

def initCmds (cmdlist : List Cmd) (varlist : List Var) : List Cmd :=
  let cmdlist := register cmdlist (str "getvar:") (.program fun arg _ => cmdGetvar varlist arg)
  register cmdlist (str "download:") .download

def batteryCmds : List Bytes :=
  [str "flash", str "erase", str "oem system"]

def checkBattery (env : Env) (w : World) : Bool :=
  env.capacity w.reads < env.batThreshold

def cmdBuffer (packet : Bytes) : Bytes :=
  packet ++ List.replicate (65 - packet.length) 0

def runHandler (env : Env) (handle : Handler) (arg : Bytes) : Fb Unit :=
  match handle with
  | .program run => do
    let w ← get
    (run arg (w.downloadBase.take w.downloadSize)).interp (runOp env)
  | .download => cmdDownload env arg

def dispatch (env : Env) (cmdlist : List Cmd) (buffer : Bytes) : Fb Unit := do
  match cmdlist.find? fun cmd => cmd.name.isPrefixOf buffer with
  | none => fastbootFail env (str "unknown command")
  | some cmd =>
    let w ← get
    -- The packet is compared with a list of its own, whatever command has been found.
    if checkBattery env w && batteryCmds.any fun name => name.isPrefixOf buffer then
      fastbootFail env (str "can't do this operation when battery low")
    else
      emit (.handle cmd.name)
      runHandler env cmd.handle (cstr (buffer.drop cmd.name.length))
      let w ← get
      -- the handler has not ended the command
      if w.state = .command then
        fastbootFail env (str "unknown reason")

/--
One turn of `fastboot_command_loop`. A loop that is left sets `STATE_OFFLINE`; `fastboot_handler` then
opens the device again and enters it anew.
-/
def commandLoop (env : Env) (cmdlist : List Cmd) : Fb Unit := do
  let w ← get
  if w.state = .error then
    setState .offline
  else
    emit .await
    let (ok, packet) ← usbRead env 64
    if !ok then
      setState .offline
    else
      setState .command
      dispatch env cmdlist (cmdBuffer packet)

structure Server where
  world : World
  halted : Option Halt
  deriving DecidableEq, Repr

def Server.run (s : Server) (x : Fb Unit) : Option Server :=
  match s.halted with
  | some _ => none
  | none =>
    match x.exec s.world with
    | (.ok _, w) => some ⟨w, none⟩
    | (.error h, w) => some ⟨w, some h⟩

def serve (env : Env) (cmdlist : List Cmd) (s : Server) (_ : Unit) : Option Server :=
  s.run (commandLoop env cmdlist)

def start (base : Bytes) : Server where
  world := ⟨.offline, base, 0, 0, 0, 0, []⟩
  halted := none

abbrev Serves (env : Env) (cmdlist : List Cmd) (base : Bytes) (s : Server) : Prop :=
  System.Reaches (serve env cmdlist) (fun _ _ => True) (start base) s

end Fastboot
