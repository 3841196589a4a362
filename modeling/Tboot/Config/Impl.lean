import Tboot.Util.Strtok
import Mathlib.Data.List.AList

/-!
This module contains tboot's configuration: `config_parser.c`, which reads the file and finds a value in
it, and `load_config`, which fills the table that `tboot_config_get` looks at.
-/

namespace Config

/-- The config file, as `open`, `fstat` and `read` find it; `read` may give less than `st_size`, or fail. -/
inductive File where
  | cannotOpen
  | cannotStat
  | opened (size : Nat) (read : Option Bytes)
  deriving DecidableEq, Repr

structure Memory where
  /-- The pointer `cp` happens to be null before anything is assigned to it. -/
  cpNull : Bool
  mallocCp : Bool
  mallocData : Bool
  hashmapCreate : Bool
  /-- What `malloc` returns for the data holds this before the file is read into it. -/
  heap : Bytes
  deriving DecidableEq, Repr

/-- The result of `config_parser_init`; with `undefined` the behaviour of the program is. -/
inductive Parser where
  | undefined
  | null
  | ready (data : Bytes)
  deriving DecidableEq, Repr

theorem moved_length_lt {len : Nat} {dst before comment text rest : Bytes} {hash newline : UInt8}
    (hdst : dst.drop before.length = hash :: comment)
    (hsrc : (hash :: comment).drop text.length = newline :: rest)
    : (if rest.length + 2 ≤ len then rest else rest.take (len - 1) ++ comment.drop (len - 1)).length
        < dst.length := by
  have hdst' := congrArg List.length hdst
  have hsrc' := congrArg List.length hsrc
  simp only [List.length_drop, List.length_cons] at hdst' hsrc'
  split
  . omega
  . simp only [List.length_append, List.length_take, List.length_drop]
    omega

/--
What the string at `dst` becomes when comments are removed, with `len` the length of the file, which is
positive. A comment ends before the newline, so the search for the next one can start behind it.
-/
def removeComments (len : Nat) (dst : Bytes) : Bytes :=
  let before := dst.takeWhile (· ≠ 35)
  match hdst : dst.drop before.length with
  | [] => dst
  | hash :: comment =>
    let text := (hash :: comment).takeWhile (· ≠ 10)
    match hsrc : (hash :: comment).drop text.length with
    | [] => before
    | newline :: rest =>
      -- `memmove` takes the terminating zero along, unless it stops after `len` bytes.
      let moved := if rest.length + 2 ≤ len then rest else rest.take (len - 1) ++ comment.drop (len - 1)
      have : moved.length < dst.length := moved_length_lt hdst hsrc
      before ++ newline :: removeComments len moved
  termination_by dst.length
  decreasing_by exact this

def dataAfterRead (mem : Memory) (read : Option Bytes) : Bytes :=
  match read with
  | none => mem.heap
  | some bytes => bytes ++ mem.heap.drop bytes.length

/-- `cp->len` is unsigned: a `read` that fails leaves a very large one, and passes for a success. -/
def readLen (read : Option Bytes) : Nat :=
  match read with
  | none => 2 ^ 32 - 1
  | some bytes => bytes.length

def configParserInit (file : File) (mem : Memory) : Parser :=
  match file with
  | .cannotOpen => .null
  | .cannotStat => if mem.cpNull then .null else .undefined
  | .opened size read =>
    if size = 0 then
      -- `cp` has not been assigned to, but is freed.
      if mem.cpNull then .null else .undefined
    else if !mem.mallocCp then
      .null
    else if !mem.mallocData then
      .null
    else if readLen read = 0 then
      .null
    else
      let data := dataAfterRead mem read
      if 0 ∈ data then
        .ready (removeComments (readLen read) (cstr data))
      else
        .undefined

def delim : Bytes :=
  str "= \t"

def configParserGet (data key : Bytes) : Scan (Option Bytes) := do
  let line := data.takeWhile (· ≠ 10)
  let tok1 ← strtok (some line) delim
  if tok1 = some key then
    strtok none delim
  else
    match hend : data.drop line.length with
    | [] => return none
    | _ :: next =>
      have : next.length < data.length := by
        have hlen := congrArg List.length hend
        simp only [List.length_drop, List.length_cons] at hlen
        omega
      configParserGet next key
  termination_by data.length

def tcKeys : List Bytes :=
  [str "ui_conf", str "disk_conf", str "push_dir", str "rootfs", str "enable_nfs", str "nfsurl",
    str "disk_force", str "battery_threshold", str "lcd_dim_timeout", str "lcd_off_timeout",
    str "lcd_dim_brightness"]

def tcValues : List (Option Bytes) :=
  [none, some (str "/etc/disk_layout.conf"), some (str "/tmp"), some (str "/dev/mmcblk1"),
    some (str "no"), some (str "192.168.100.2:/home/nfs"), some (str "yes"), some (str "10"),
    some (str "30"), some (str "10"), some (str "10")]

abbrev Table := AList fun _ : Bytes => Option Bytes

def tbootConfigGet (config : Option Table) (key : Bytes) : Option Bytes :=
  match config with
  | none => none
  | some table => (table.lookup key).getD none

def tbootConfigSet (table : Table) (key : Bytes) (value : Option Bytes) : Table :=
  if key ∈ tcKeys then table.insert key value else table

def defaults : Table :=
  (tcKeys.zip tcValues).foldl (fun table (key, value) => table.insert key value) ∅

/-- One of the eleven copies of the same three lines -/
def setFrom (data key : Bytes) (table : Table) : Scan Table := do
  match ← configParserGet data key with
  | none => return table
  | some value => return tbootConfigSet table key (some value)

def parseValues (data : Bytes) (table : Table) : Scan Table := do
  let table ← setFrom data (str "ui_conf") table
  let table ← setFrom data (str "disk_conf") table
  let table ← setFrom data (str "push_dir") table
  let table ← setFrom data (str "rootfs") table
  let table ← setFrom data (str "enable_nfs") table
  let table ← setFrom data (str "nfsurl") table
  let table ← setFrom data (str "disk_force") table
  let table ← setFrom data (str "battery_threshold") table
  let table ← setFrom data (str "lcd_dim_timeout") table
  let table ← setFrom data (str "lcd_off_timeout") table
  setFrom data (str "lcd_dim_brightness") table

/-- `tboot_config` after `load_config`, null if that has failed; nothing where the behaviour is undefined -/
def loadConfig (file : File) (mem : Memory) (save : Bytes) : Option (Option Table) :=
  match configParserInit file mem with
  | .undefined => none
  | .null => some none
  | .ready data =>
    if !mem.hashmapCreate then
      some none
    else
      some (some (parseValues data defaults save).1)

end Config
