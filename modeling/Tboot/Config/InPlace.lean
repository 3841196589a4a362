import Tboot.Util.Heap
import Tboot.Config.Impl

/-!
This module contains `config_parser.c` as it works on the memory behind `cp->data`: comments are moved
over in place, and a lookup puts a zero for the newline at the end of the line that it looks at.
-/

namespace Config.InPlace

open Heap

/-- The result of `config_parser_init`: `cp->len`, and the bytes from `cp->data` on, as far as there is memory -/
inductive Parser where
  | undefined
  | null
  | ready (len : Nat) (data : Bytes)
  deriving DecidableEq, Repr

namespace removeComments

def loop (len fuel : Nat) (mem : Bytes) (dst : Nat) : Option Bytes :=
  match fuel with
  | 0 => none
  | fuel + 1 =>
    match strchr mem dst 35 with
    | none => some mem
    | some dst =>
      match strchr mem dst 10 with
      | none => some (mem.set dst 0)
      | some src =>
        -- move the last '\0' also
        loop len fuel (memmove mem dst src (min ((string mem src).length + 1) len)) dst

end removeComments

def removeComments (len : Nat) (mem : Bytes) : Option Bytes :=
  removeComments.loop len ((string mem 0).length + 1) mem 0

def configParserInit (file : File) (mem : Memory) : Parser :=
  match file with
  | .cannotOpen => .null
  | .cannotStat => if mem.cpNull then .null else .undefined
  | .opened size read =>
    if size = 0 then
      if mem.cpNull then .null else .undefined
    else if !mem.mallocCp then
      .null
    else if !mem.mallocData then
      .null
    else if readLen read = 0 then
      .null
    else
      let data := dataAfterRead mem read
      if 0 ∈ data then
        match removeComments (readLen read) data with
        | none => .undefined
        | some data => .ready (readLen read) data
      else
        .undefined

/-- `if (end) *end = c` -/
def put (mem : Bytes) (newline : Option Nat) (c : UInt8) : Bytes :=
  match newline with
  | none => mem
  | some p => mem.set p c

theorem put_length (mem : Bytes) (newline : Option Nat) (c : UInt8) : (put mem newline c).length = mem.length := by
  cases newline
  all_goals simp [put]

theorem next_lt {mem : Bytes} {line p : Nat} (h : strchr mem line 10 = some p) (newline : Option Nat)
    : ((put mem newline 0).set p 10).length - (p + 1) < mem.length - line := by
  obtain ⟨passed, rest, hfound⟩ := strchr_eq_some h
  have hlt := hfound.lt_length
  have hpos := hfound.pos
  rw [List.length_set, put_length]
  omega

def configParserGet.loop (key mem : Bytes) (line : Nat) : Scan (Option Bytes × Bytes) := do
  let newline := strchr mem line 10
  let cut := put mem newline 0
  -- `strtok` works on a copy of the line.
  let tok1 ← strtok (some (string cut line)) delim
  if tok1 = some key then
    let tok2 ← strtok none delim
    return (tok2, put cut newline 10)
  else
    match hnewline : newline with
    | none => return (none, cut)
    | some p =>
      have hlt := next_lt hnewline newline
      loop key (cut.set p 10) (p + 1)
  termination_by mem.length - line
  decreasing_by exact hlt

def configParserGet (cp : Parser) (key : Option Bytes) : Scan (Option Bytes × Parser) := do
  match key with
  | none => return (none, cp)
  | some key =>
    if (cstr key).length = 0 then
      return (none, cp)
    match cp with
    | .ready len data =>
      let (value, data) ← configParserGet.loop (cstr key) data 0
      return (value, .ready len data)
    | cp => return (none, cp)

def lookups (cp : Parser) (keys : List (Option Bytes)) : Scan (List (Option Bytes × Parser)) := do
  match keys with
  | [] => return []
  | key :: keys =>
    let (value, cp) ← configParserGet cp key
    let rest ← lookups cp keys
    return (value, cp) :: rest

end Config.InPlace
