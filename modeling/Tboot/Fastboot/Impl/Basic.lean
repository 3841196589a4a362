import Tboot.Util.CString
import Tboot.Util.Prog
import Tboot.Util.Word

/-!
This module contains the state of the fastboot server, what it shares with the host and the handlers,
and the log of what it has done.

Everything that comes from outside of the program is in `Env`: the results of `read` and `write`, of the
library and system calls of the handlers, the battery. The log has the newest event first.
-/

namespace Fastboot

inductive FbState where
  | offline
  | command
  | complete
  | error
  deriving DecidableEq, Repr

inductive Code where
  | info
  | okay
  | fail
  deriving DecidableEq, Repr

def Code.text : Code → Bytes
  | .info => str "INFO"
  | .okay => str "OKAY"
  | .fail => str "FAIL"

inductive Packet where
  | reply (code : Code) (text : Bytes)
  | data (len : Nat)
  | file (bytes : Bytes)
  deriving DecidableEq, Repr

def Packet.bytes : Packet → Bytes
  | .reply code text => code.text ++ text
  | .data len => str "DATA" ++ hex8 len
  | .file bytes => bytes

inductive Fd where
  | invalid
  | cannotStat
  | file (size : Nat) (contents : Option Bytes)
  deriving DecidableEq, Repr

inductive Api where
  | info (text : Bytes)
  | okay (text : Bytes)
  | fail (text : Bytes)
  | handshake (len : Nat)
  | receive (len : Nat)
  | downloadTo (size : Nat)
  | pullFile (fd : Fd)
  deriving DecidableEq, Repr

inductive Outside where
  | malloc
  | strdup
  | asprintf
  | bufferInit (i : Nat)
  | bufferFree (i : Nat)
  | popen (cmdLine : Bytes)
  | pthreadCreate
  | bufFull (i : Nat)
  | pipeBroken
  | pthreadJoin
  | readerExit
  | pthreadCancel
  | openDevice (device : Bytes)
  | checkExtSuperblock (device : Bytes)
  | extPresent
  | ext4FilesystemChecks (device : Bytes)
  | isValidBlkdev (device : Bytes)
  | makeExt4fsQuick (device : Option Bytes) (len : Int)
  | reboot
  | statfs (dir : Bytes)
  | access (path : Bytes)
  | mkdir (dir : Bytes)
  | mount (device type target : Bytes)
  | ebusy
  | umount (target : Bytes)
  | executeCommand (cmd : Bytes)
  | kexecLinux (basepath kernel : Bytes)
  | fopen (path : Bytes)
  | fwrite (contents : Bytes)
  | fclose
  | plugin (n : Nat)
  deriving DecidableEq, Repr

inductive NullPtr where
  | diskForce
  | diskInfo
  | argv
  deriving DecidableEq, Repr

inductive Halt where
  | die
  | segv (p : NullPtr)
  | overrun
  | boot
  | hang
  deriving DecidableEq, Repr

inductive Event where
  | await
  | read (xfer : Nat) (got : Option Bytes)
  | wrote (packet : Packet) (count : Option Nat)
  | state (s : FbState)
  | call (api : Api)
  | handle (cmd : Bytes)
  | download
  | oem (name : Bytes)
  | textbar (percent : Nat)
  | outside (q : Outside) (ok : Bool)
  | halt (h : Halt)
  deriving DecidableEq, Repr

structure Env where
  /-- the result of the n-th `read`; it gives no more bytes than it is asked for -/
  read : Nat → Option Bytes
  /-- the result of the n-th `write`; it takes no more bytes than it is given -/
  write : Nat → Option Nat
  outside : Nat → Outside → Bool
  statfs : Nat → Nat × Nat
  capacity : Nat → Int
  batThreshold : Int
  /-- the memory before the text of a reply, from its last byte down, at the n-th `write` -/
  below : Nat → Nat → UInt8
  fresh : Nat → Bytes
  /-- how many turns more than it needs a loop may take before it is said to hang -/
  patience : Nat
  downloadMax : Nat
  downloadMax_lt : downloadMax < 2 ^ 32

structure World where
  state : FbState
  downloadBase : Bytes
  downloadSize : Nat
  reads : Nat
  writes : Nat
  outsides : Nat
  log : List Event
  deriving DecidableEq, Repr

abbrev Fb := Proc World Halt

def emit (e : Event) : Fb Unit :=
  modify fun w => { w with log := e :: w.log }

def setState (s : FbState) : Fb Unit :=
  modify fun w => { w with state := s, log := .state s :: w.log }

def setDownloadSize (n : Nat) : Fb Unit :=
  modify fun w => { w with downloadSize := n }

def store (offset : Nat) (bytes : Bytes) : Fb Unit :=
  modify fun w =>
    { w with
      downloadBase :=
        w.downloadBase.take offset ++ bytes ++ w.downloadBase.drop (offset + bytes.length) }

def sysRead (env : Env) (xfer : Nat) : Fb (Option Bytes) := do
  let w ← get
  let got := (env.read w.reads).map (List.take xfer)
  set { w with reads := w.reads + 1, log := .read xfer got :: w.log }
  return got

def sysWrite (env : Env) (packet : Packet) : Fb (Option Nat) := do
  let w ← get
  let count := (env.write w.writes).map (min packet.bytes.length)
  set { w with writes := w.writes + 1, log := .wrote packet count :: w.log }
  return count

def askOutside (env : Env) (q : Outside) : Fb Bool := do
  let w ← get
  let ok := env.outside w.outsides q
  set { w with outsides := w.outsides + 1, log := .outside q ok :: w.log }
  return ok

end Fastboot
