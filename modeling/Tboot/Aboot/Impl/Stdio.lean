import Tboot.Aboot.Impl.Oem
import Tboot.Util.OutStream

/-!
This module contains the files behind `oem push`: the calls of its handler, answered by a file system that
has room for all that is written, for some of it or for nothing.
-/

namespace Aboot

open Fastboot

structure Storage where
  strdup : Bool
  /-- `f_bsize` and `f_bfree`, unless `statfs` fails -/
  statfs : Option (Nat × Nat)
  opens : Bool
  /-- the sizes of the writes that `fwrite` does not leave to `fclose` -/
  chunks : List Nat
  /-- the bytes of each write that get to the file -/
  taken : Nat → Nat

namespace Storage

structure State where
  files : Bytes → Option Bytes
  /-- the files that have been created or truncated -/
  truncated : List Bytes
  fp : Option (Bytes × OutStream)
  replies : List (Code × Bytes)

namespace State

def start (files : Bytes → Option Bytes) : State where
  files
  truncated := []
  fp := none
  replies := []

def reply (code : Code) (text : Bytes) (s : State) : State :=
  { s with replies := s.replies ++ [(code, text)] }

def put (path contents : Bytes) (s : State) : State :=
  { s with files := fun p => if p = path then some contents else s.files p }

end State

def fopen (env : Storage) (path : Bytes) (s : State) : Bool × State :=
  if env.opens then
    (true, { s.put path [] with truncated := s.truncated ++ [path], fp := some (path, OutStream.empty) })
  else
    (false, s)

/-- `saved == sz && !ferror(fp)` -/
def fwrite (env : Storage) (contents : Bytes) (s : State) : Bool × State :=
  match s.fp with
  | some (path, stream) =>
    let (saved, stream) := stream.fwrite env.taken env.chunks contents
    (saved, { s.put path stream.file with fp := some (path, stream) })
  | none => (false, s)

def fclose (env : Storage) (s : State) : State :=
  match s.fp with
  | some (path, stream) => { s.put path (stream.fclose env.taken) with fp := none }
  | none => s

/-- The calls that `push` does not make have no effect. -/
def run (env : Storage) : (op : Op) → Proc State Halt op.Resp
  | .api (.info text) => modify (State.reply .info text)
  | .api (.okay text) => modify (State.reply .okay text)
  | .api (.fail text) => modify (State.reply .fail text)
  | .api (.handshake _) => return false
  | .api (.receive _) => return none
  | .api (.downloadTo _) => return none
  | .api (.pullFile _) => return false
  | .outside .strdup => return env.strdup
  | .outside (.fopen path) => modifyGet (env.fopen path)
  | .outside (.fwrite contents) => modifyGet (env.fwrite contents)
  | .outside .fclose => do
    modify env.fclose
    return true
  | .outside _ => return false
  | .oem _ => return
  | .statfs _ => return env.statfs
  | .fresh => return []
  | .halt h => throw h

end Storage

end Aboot
