import Tboot.Util.CString

/-!
This module contains the options on the kernel's command line: how `import_kernel_cmdline` splits the line,
and which of tboot's settings `parse_cmdline_option` changes for a word of it.
-/

inductive Platform where
  | unknown
  | blackbay
  | redridge
  | redhookbay
  deriving DecidableEq, Repr

namespace Boot

@[ext]
structure Settings where
  gUseAutoboot : Int := 0
  g2ndstagebootPart : Bytes := str "platform"
  g2ndstagebootDir : Bytes := str "boot"
  gAutobootDelaySecs : Int := 8
  gScratchSize : Int := 10
  gUpdatePause : Int := 0
  platform : Platform := .unknown
  deriving DecidableEq, Repr

/-- The settings, and how often `strdup` has been called for them -/
structure Globals where
  settings : Settings := {}
  strdups : Nat := 0
  deriving DecidableEq, Repr

def atoi (s : Bytes) : Int :=
  strtos 32 10 s

def platformOf (value : Bytes) : Platform :=
  if (str "blackbay").isPrefixOf value then
    .blackbay
  else if (str "redridge").isPrefixOf value then
    .redridge
  else if (str "redhookbay").isPrefixOf value then
    .redhookbay
  else
    .unknown

/-- `g_2ndstageboot_part = strdup(value)`; nothing if tboot dies for want of memory -/
def setBootPart (mem : Nat → Bool) (value : Bytes) (g : Globals) : Option Globals :=
  if mem g.strdups then
    some { settings := { g.settings with g2ndstagebootPart := value }, strdups := g.strdups + 1 }
  else
    none

def parseCmdlineOption (mem : Nat → Bool) (word : Bytes) (g : Globals) : Option Globals :=
  let name := word.takeWhile (· ≠ 61)
  match word.drop name.length with
  | [] => some g
  | _ :: value =>
    let set (settings : Settings) : Option Globals := some { g with settings }
    if name = [] then
      some g
    else if ¬(str "tboot").isPrefixOf name then
      some g
    else if name = str "tboot.bootloader" then
      set { g.settings with gUseAutoboot := atoi value }
    else if name = str "tboot.delay" then
      set { g.settings with gAutobootDelaySecs := atoi value }
    else if name = str "tboot.scratch" then
      set { g.settings with gScratchSize := atoi value }
    else if name = str "tboot.bootpart" then
      setBootPart mem value g
    else if name = str "tboot.bootdir" then
      setBootPart mem value g
    else if name = str "tboot.updatepause" then
      set { g.settings with gUpdatePause := atoi value }
    else if name = str "tboot.platform" then
      set { g.settings with platform := platformOf value }
    else
      some g

inductive CmdlineFile where
  | cannotOpen
  | cannotRead
  | contents (bytes : Bytes)
  deriving DecidableEq, Repr

def readCmdline : CmdlineFile → Bytes
  | .cannotOpen => []
  | .cannotRead => []
  | .contents bytes =>
    let cmdline := bytes.take 1023
    if cmdline.getLast? = some 10 then cmdline.dropLast else cmdline

section Import

variable {σ : Type} (callback : Bytes → σ → Option σ)

def eachWord (ptr : Bytes) (s : σ) : Option σ :=
  match ptr with
  | [] => some s
  | c :: cs =>
    let word := (c :: cs).takeWhile (· ≠ 32)
    match hx : (c :: cs).drop word.length with
    | [] => callback word s
    | _ :: x =>
      have hlt : x.length < (c :: cs).length := by
        have hlen := congrArg List.length hx
        simp only [List.length_drop, List.length_cons] at hlen ⊢
        omega
      (callback word s).bind (eachWord x)
  termination_by ptr.length
  decreasing_by exact hlt

def importKernelCmdline (file : CmdlineFile) (s : σ) : Option σ :=
  eachWord callback (cstr (readCmdline file)) s

end Import

end Boot
