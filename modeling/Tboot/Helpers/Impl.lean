import Tboot.Util.Heap
import Tboot.Util.Word

/-!
This module contains two functions of `tboot_util.c`: `array_to_string` and `named_file_write`.
-/

namespace Helpers

/-- What `calloc` has returned: its bytes, with those behind it, and the indices that have been written -/
structure Block where
  size : Nat
  mem : Bytes
  writes : List Int
  deriving DecidableEq, Repr

namespace Block

def calloc (size : Nat) (behind : Bytes) : Block where
  size
  mem := List.replicate size 0 ++ behind
  writes := []

def strlen (b : Block) : Nat :=
  (cstr b.mem).length

def store (b : Block) (pos : Nat) (s : Bytes) : Block where
  size := b.size
  mem := Heap.store b.mem pos s
  writes := b.writes ++ (List.range' pos s.length).map Nat.cast

end Block

namespace arrayToString

def blockSize (size : Nat) : List (Option Bytes) → Nat
  | some s :: argv => blockSize (u32 (size + ((cstr s).length + 1))) argv
  | _ => size

/-- `sprintf(str + strlen(str), "%s%c", s, seprator)` -/
def sprintf (str : Block) (s : Bytes) (seprator : UInt8) : Block :=
  str.store str.strlen (cstr s ++ [seprator, 0])

def copy (seprator : UInt8) (str : Block) : List (Option Bytes) → Block
  | some s :: argv => copy seprator (sprintf str s seprator) argv
  | _ => str

/-- `str[strlen(str) - 1] = '\0'`; the byte before the block is not part of the memory here. -/
def terminate (str : Block) : Block :=
  if str.strlen = 0 then
    { str with writes := str.writes ++ [-1] }
  else
    str.store (str.strlen - 1) [0]

end arrayToString

open arrayToString in
/--
`argv` are the pointers before `argc`, each with the memory that it leads to; `calloc` tells for a size what
lies behind the block, if there is one.
-/
def arrayToString (argv : List (Option Bytes)) (seprator : UInt8) (calloc : Nat → Option Bytes) : Option Block := do
  let size := blockSize 1 argv
  let behind ← calloc size
  return terminate (copy seprator (Block.calloc size behind) argv)

/--
A call of `named_file_write`. `mem` is the memory with `what` at 0; no object goes up to the end of the
address space. The results of `write` are given one after the other, `none` for -1, with what the test of
`errno` says after each.
-/
structure NamedFileWrite where
  mem : Int → UInt8
  sz : Nat
  sz_lt : sz < 2 ^ 32 - 1
  /-- the file as it is before, if there is one -/
  old : Option Bytes
  opened : Bool
  write : Nat → Option Nat
  eintr : Nat → Bool

namespace NamedFileWrite

structure State where
  /-- `what` -/
  pos : Int
  /-- `sz` -/
  left : Nat
  offset : Nat
  file : Bytes
  deriving DecidableEq, Repr

def bytes (a : NamedFileWrite) (pos : Int) (n : Nat) : Bytes :=
  (List.range n).map fun i : Nat => a.mem (pos + i)

/-- Without `O_TRUNC`, the old bytes are still there. -/
def start (a : NamedFileWrite) : State where
  pos := 0
  left := a.sz
  offset := 0
  file := a.old.getD []

/-- At most what is asked for, and not more than an `ssize_t` holds -/
def count (a : NamedFileWrite) (k left : Nat) : Option Nat :=
  (a.write k).map fun n => min left (min n 0x7fffffff)

/-- `ret <= 0 && errno != EINTR` -/
def Fails (a : NamedFileWrite) (k : Nat) : Prop :=
  (a.write k).getD 0 = 0 ∧ a.eintr k = false

instance (a : NamedFileWrite) (k : Nat) : Decidable (a.Fails k) :=
  inferInstanceAs (Decidable (_ ∧ _))

def turn (a : NamedFileWrite) (k : Nat) (s : State) : State :=
  match a.count k s.left with
  | some n => ⟨s.pos + n, s.left - n, s.offset + n, Heap.store s.file s.offset (a.bytes s.pos n)⟩
  | none => ⟨s.pos - 1, u32 (s.left + 1), s.offset, s.file⟩

def after (a : NamedFileWrite) : Nat → State
  | 0 => a.start
  | k + 1 => a.turn k (a.after k)

def Turns (a : NamedFileWrite) (k : Nat) : Prop :=
  ∀ j, j < k → (a.after j).left ≠ 0 ∧ ¬a.Fails j

instance (a : NamedFileWrite) (k : Nat) : Decidable (a.Turns k) :=
  inferInstanceAs (Decidable (∀ j, j < k → (a.after j).left ≠ 0 ∧ ¬a.Fails j))

def ReturnsAfter (a : NamedFileWrite) (k : Nat) : Prop :=
  a.opened = true ∧ a.Turns k ∧ (a.after k).left = 0

instance (a : NamedFileWrite) (k : Nat) : Decidable (a.ReturnsAfter k) :=
  inferInstanceAs (Decidable (_ ∧ _))

end NamedFileWrite

end Helpers
