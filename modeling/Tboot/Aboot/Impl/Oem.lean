import Tboot.Aboot.Impl.StreamFlash
import Tboot.Util.Strtok

/-!
This module contains the command `oem` and the table of all commands.
-/

namespace Aboot

open Fastboot Fastboot.HProg

namespace cmdOem

def maxOemArgs : Nat := 64

def pathMax : Nat := 4096

def pushUsage : Bytes :=
  str "Usage:\n    oem push <local-file>    push <local-file> to target\n"

def basename (path : Bytes) : Bytes :=
  let trimmed := (path.reverse.dropWhile (· = 47)).reverse
  if trimmed = [] then
    if path = [] then str "." else str "/"
  else
    (trimmed.reverse.takeWhile (· ≠ 47)).reverse

def pushPath (pushDir file : Bytes) : Bytes :=
  let dir := if pushDir.getLast? = some 47 then pushDir.dropLast else pushDir
  (dir ++ str "/" ++ basename file).take (pathMax - 1)

def tooLarge (free : Option (Nat × Nat)) (data : Bytes) : Bool :=
  match free with
  | none => false
  | some (bsize, bfree) => data.length > u32 (bsize * bfree + (2 ^ 32 - 2 ^ 20))

def push (cfg : Config) (argv : List Bytes) (data : Bytes) : HProg Unit := do
  match argv with
  | [_, file] =>
    if file = str "-h" ∨ file = str "--help" then
      info pushUsage
      okay []
    else if tooLarge (← statfs cfg.pushDir) data then
      fail (str "file size is too large.")
    else
      let tmpfile := pushPath cfg.pushDir file
      if !(← outside (.fopen tmpfile)) then
        fail (str "create file failed.")
      else if !(← outside (.fwrite data)) then
        fail (str "oem push, fwrite")
        let _ ← outside .fclose
      else
        okay tmpfile
        let _ ← outside .fclose
  | _ =>
    info pushUsage
    okay []

def call (cfg : Config) (argv : List Bytes) (data : Bytes) : HProg Unit :=
  match argv with
  -- `argv[0]` is null when there are only tabs, and `strhash` goes through it.
  | [] => halt (.segv .argv)
  | name :: _ =>
    match cfg.oemCmds.lookup name with
    | some cb => do
      oem name
      if ← cb.run argv then
        okay []
      else
        fail name
    | none =>
      if name = str "push" then
        push cfg argv data
      else
        fail (str "unknown OEM command")

end cmdOem

open cmdOem in
def cmdOem (cfg : Config) (arg data : Bytes) : HProg Unit := do
  let arg := arg.dropWhile (· = 32)
  if arg = [] then
    info (str "All available oem commands, call them with '-h|--help' to get help.\n")
    cfg.oemCmds.forM fun cmd => listCallback cmd.1
    info (str "\n")
    okay []
  else if !(← outside .strdup) then
    fail (str "memory allocation error")
  else
    call cfg ((tokens (str " \t") arg).take maxOemArgs) data

def cmdOem.split (room : Nat) (str1 : Option Bytes) : Scan (List Bytes) :=
  match room with
  | 0 => return []
  | room + 1 => do
    match ← strtok str1 (str " \t") with
    | none => return []
    | some arg => do
      let argv ← split room none
      return arg :: argv

def registerCommands (cfg : Config) : List Cmd :=
  let cmdlist := register [] (str "oem") (.program fun arg data => cmdOem cfg arg data)
  let cmdlist := register cmdlist (str "boot") (.program fun _ _ => cmdBoot)
  let cmdlist := register cmdlist (str "reboot") (.program fun _ _ => cmdReboot)
  let cmdlist := register cmdlist (str "reboot-bootloader") (.program fun _ _ => cmdReboot)
  let cmdlist := register cmdlist (str "erase:") (.program fun arg _ => cmdErase cfg arg)
  register cmdlist (str "flash:") (.program fun arg _ => cmdStreamFlash cfg arg)

def cmds (cfg : Config) (varlist : List Var) : List Cmd :=
  initCmds (registerCommands cfg) varlist

end Aboot
