import Tboot.Util.Bytes
import Tboot.Util.Image
import Tboot.Util.Word

/-!
This module contains `backed_block.c`: the blocks of a sparse file in a list that is sorted by their numbers.
-/

namespace Sparse

/-- What the bytes of a block come from. `filename` is the copy of the name that `strdup` has made. -/
inductive Backing where
  | data (ptr : Nat)
  | file (filename offset : Nat)
  | fd (num offset : Nat)
  | fill (val : UInt32)
  deriving DecidableEq, Repr

structure BackedBlock where
  block : Nat
  len : Nat
  backing : Backing
  deriving DecidableEq, Repr

structure Env where
  memory : Nat → UInt8
  files : Nat → Nat → UInt8
  fds : Nat → Nat → UInt8

def fillByte (val : UInt32) (i : Nat) : UInt8 :=
  UInt8.ofNat (val.toNat / 256 ^ (i % 4))

def Backing.byte (env : Env) (i : Nat) : Backing → UInt8
  | .data ptr => env.memory (ptr + i)
  | .file filename offset => env.files filename (offset + i)
  | .fd num offset => env.fds num (offset + i)
  | .fill val => fillByte val i

/-- `last_used`: a null pointer, the block at some place of the list, or one that has been freed -/
inductive LastUsed where
  | null
  | at (i : Nat)
  | freed
  deriving DecidableEq, Repr

structure BackedBlockList where
  dataBlocks : List BackedBlock
  lastUsed : LastUsed
  blockSize : Nat
  deriving DecidableEq, Repr

inductive Fault where
  | useAfterFree
  | abort
  | divide
  | nullPointer
  deriving DecidableEq, Repr

def divRoundUp (x y : Nat) : Nat :=
  (x + y - 1) / y

def align (x y : Nat) : Nat :=
  y * divRoundUp x y

def backedBlockListNew (blockSize : Nat) : BackedBlockList :=
  ⟨[], .null, blockSize⟩

/-- Whether the switch of `merge_bb` is left with a `break` -/
def Backing.continues (a : Backing) (len : Nat) (b : Backing) : Bool :=
  match a, b with
  | .fill val, .fill val' => val = val'
  | .file filename offset, .file filename' offset' => filename = filename' ∧ offset + len = offset'
  | .fd num offset, .fd num' offset' => num = num' ∧ offset + len = offset'
  | _, _ => false

def Backing.sameType : Backing → Backing → Bool
  | .data _, .data _ => true
  | .file _ _, .file _ _ => true
  | .fd _ _, .fd _ _ => true
  | .fill _, .fill _ => true
  | _, _ => false

def mergeBb (blockSize : Nat) (a b : BackedBlock) : Except Fault (Option BackedBlock) :=
  if ¬a.block < b.block then
    throw .abort
  else if !a.backing.sameType b.backing then
    return none
  else if blockSize = 0 then
    throw .divide
  else if u32 (a.block + a.len / blockSize) ≠ b.block then
    return none
  else if a.backing.continues a.len b.backing then
    return some { a with len := u32 (a.len + b.len) }
  else
    return none

def mergeNext (blockSize : Nat) (newBb : BackedBlock) : List BackedBlock → Except Fault (BackedBlock × List BackedBlock)
  | [] => return (newBb, [])
  | next :: rest => do
    match ← mergeBb blockSize newBb next with
    | some newBb => return (newBb, rest)
    | none => return (newBb, next :: rest)

def searchStart (bbl : BackedBlockList) (newBb : BackedBlock) : Except Fault Nat :=
  match bbl.lastUsed with
  | .null => return 0
  | .freed => throw .useAfterFree
  | .at i =>
    match bbl.dataBlocks[i]? with
    | none => throw .useAfterFree
    | some last => return if newBb.block > last.block then i else 0

def search (blocks : List BackedBlock) (newBb : BackedBlock) (i : Nat) : Nat :=
  i + ((blocks.drop (i + 1)).takeWhile fun next => next.block < newBb.block).length

def insertBehind (bbl : BackedBlockList) (newBb : BackedBlock) (i : Nat) : Except Fault BackedBlockList := do
  let (newBb, rest) ← mergeNext bbl.blockSize newBb (bbl.dataBlocks.drop (i + 1))
  match bbl.dataBlocks[i]? with
  | none => throw .useAfterFree
  | some bb =>
    match ← mergeBb bbl.blockSize bb newBb with
    | some bb => return { bbl with dataBlocks := bbl.dataBlocks.take i ++ bb :: rest, lastUsed := .freed }
    | none => return { bbl with dataBlocks := bbl.dataBlocks.take (i + 1) ++ newBb :: rest, lastUsed := .at (i + 1) }

def LastUsed.shift : LastUsed → LastUsed
  | .at i => .at (i + 1)
  | lastUsed => lastUsed

def queueBb (bbl : BackedBlockList) (newBb : BackedBlock) : Except Fault BackedBlockList :=
  match bbl.dataBlocks with
  | [] => return { bbl with dataBlocks := [newBb] }
  | first :: _ =>
    if first.block > newBb.block then
      return { bbl with dataBlocks := newBb :: bbl.dataBlocks, lastUsed := bbl.lastUsed.shift }
    else do
      insertBehind bbl newBb (search bbl.dataBlocks newBb (← searchStart bbl newBb))

/-- `mem` tells if there is memory for the block. -/
def backedBlockAdd (backing : Backing) (bbl : BackedBlockList) (len block : Nat) (mem : Bool)
    : Except Fault (Bool × BackedBlockList) := do
  if !mem then
    return (false, bbl)
  else
    return (true, ← queueBb bbl ⟨block, len, backing⟩)

def backedBlockAddFill (bbl : BackedBlockList) (fillVal : UInt32) (len block : Nat) (mem : Bool)
    : Except Fault (Bool × BackedBlockList) :=
  backedBlockAdd (.fill fillVal) bbl len block mem

def backedBlockAddData (bbl : BackedBlockList) (data len block : Nat) (mem : Bool)
    : Except Fault (Bool × BackedBlockList) :=
  backedBlockAdd (.data data) bbl len block mem

def backedBlockAddFile (bbl : BackedBlockList) (filename offset len block : Nat) (mem : Bool)
    : Except Fault (Bool × BackedBlockList) :=
  backedBlockAdd (.file filename offset) bbl len block mem

def backedBlockAddFd (bbl : BackedBlockList) (fd offset len block : Nat) (mem : Bool)
    : Except Fault (Bool × BackedBlockList) :=
  backedBlockAdd (.fd fd offset) bbl len block mem

structure AddCall where
  bb : BackedBlock
  mem : Bool
  deriving DecidableEq, Repr

def addAll (bbl : BackedBlockList) : List AddCall → Except Fault BackedBlockList
  | [] => return bbl
  | c :: cs => do
    let (_, bbl) ← backedBlockAdd c.bb.backing bbl c.bb.len c.bb.block c.mem
    addAll bbl cs

end Sparse
