import Tboot.Sparse.Impl.OutputFile

/-!
This module contains `sparse.c`: the chunks of a sparse file one after the other, with what lies between them left out.
-/

namespace Sparse

structure SparseFile where
  blockSize : Nat
  len : Nat
  blocks : BackedBlockList
  deriving DecidableEq, Repr

def sparseFileNew (blockSize len : Nat) : SparseFile :=
  ⟨blockSize, len, backedBlockListNew blockSize⟩

def divRoundUpU32 (x y : Nat) : Nat :=
  u32 (x + y - 1) / y

def lastBlock (blockSize : Nat) (bb : BackedBlock) : Nat :=
  u32 (bb.block + divRoundUpU32 bb.len blockSize)

def sparseCountChunks.go (blockSize : Nat) : (last chunks : Nat) → List BackedBlock → Nat × Nat
  | last, chunks, [] => (last, chunks)
  | last, chunks, bb :: rest =>
    let chunks := if bb.block > last then chunks + 1 else chunks
    go blockSize (lastBlock blockSize bb) (chunks + 1) rest

def sparseCountChunks (s : SparseFile) : Nat :=
  let (last, chunks) := sparseCountChunks.go s.blockSize 0 0 s.blocks.dataBlocks
  u32 (if last < divRoundUp s.len s.blockSize then chunks + 1 else chunks)

variable {σ : Type} (tab : UInt32 → UInt32) (env : Env)

/-- `write_fd_chunk`: the bytes are mapped from a page boundary on. -/
def fdBytes (fd : Nat → UInt8) (offset len : Nat) : Bytes :=
  let alignedOffset := offset / 4096 * 4096
  let alignedDiff := offset - alignedOffset
  (Bytes.slice fd alignedOffset (len + alignedDiff)).drop alignedDiff

def sparseFileWriteBlock (out : OutputFile σ) (bb : BackedBlock) : Bool × OutputFile σ :=
  match bb.backing with
  | .data ptr => writeDataChunk tab out bb.len (Bytes.slice env.memory ptr bb.len)
  | .file filename offset => writeDataChunk tab out bb.len (fdBytes (env.files filename) offset bb.len)
  | .fd num offset => writeDataChunk tab out bb.len (fdBytes (env.fds num) offset bb.len)
  | .fill val => writeFillChunk tab out bb.len val

/-- No return value is looked at. -/
def writeAllBlocks.go (blockSize : Nat) : (last : Nat) → List BackedBlock → OutputFile σ → Nat × OutputFile σ
  | last, [], out => (last, out)
  | last, bb :: rest, out =>
    let out := if bb.block > last then (writeSkipChunk out ((bb.block - last) * blockSize)).2 else out
    let out := (sparseFileWriteBlock tab env out bb).2
    go blockSize (lastBlock blockSize bb) rest out

def writeAllBlocks (s : SparseFile) (out : OutputFile σ) : Except Fault (OutputFile σ) :=
  let (last, out) := writeAllBlocks.go tab env s.blockSize 0 s.blocks.dataBlocks out
  if s.len < last * s.blockSize then
    throw .abort
  else if s.len - last * s.blockSize > 0 then
    return (writeSkipChunk out (s.len - last * s.blockSize)).2
  else
    return out

/-- The file that is left; there is none if there is no memory or the header cannot be written. -/
def sparseFileWrite (ops : OutputFileOps σ) (file : σ) (s : SparseFile) (sparse crc mem : Bool)
    : Except Fault (Option σ) := do
  if s.blockSize = 0 then
    throw .divide
  let chunks := sparseCountChunks s
  match ← outputFileOpen ops file s.blockSize s.len sparse chunks crc mem with
  | none => return none
  | some out => return some (outputFileClose (← writeAllBlocks tab env s out)).file

/-! ### The files -/

/-- A file and the position in it; behind its end there are zeros. -/
structure FdFile where
  img : Image
  size : Nat
  pos : Nat

def FdFile.bytes (file : FdFile) : Bytes :=
  Bytes.slice file.img 0 file.size

/-- `file_ops`, for a file that takes all that is written; `truncate` tells if its length can be set. -/
def fileOps (truncate : Bool) : OutputFileOps FdFile where
  skip := fun file cnt => (true, { file with pos := file.pos + cnt })
  pad := fun file len =>
    if truncate then
      (true, { file with img := fun i => if i < len then file.img i else 0, size := len })
    else
      (false, file)
  write := fun file data => (true, {
    img := Patch.write file.img ⟨file.pos, data⟩
    size := if data = [] then file.size else max file.size (file.pos + data.length)
    pos := file.pos + data.length
  })

def FdFile.new : FdFile :=
  ⟨fun _ => 0, 0, 0⟩

end Sparse
