import Tboot.Sparse.Impl.BackedBlock

/-!
This module contains `output_file.c`: the chunks of an image, in the sparse format or as they are. The descriptor and
the callback that they are written to are an argument, as is the table of the checksum.
-/

namespace Sparse

/-- `struct output_file_ops`, on a state of the file behind it; false is for an error. -/
structure OutputFileOps (σ : Type) where
  skip : σ → Nat → Bool × σ
  pad : σ → Nat → Bool × σ
  write : σ → Bytes → Bool × σ

structure OutputFile (σ : Type) where
  ops : OutputFileOps σ
  file : σ
  sparse : Bool
  crc32 : UInt32
  useCrc : Bool
  blockSize : Nat
  len : Nat

def sparseCrc32 (tab : UInt32 → UInt32) (crcIn : UInt32) (buf : Bytes) : UInt32 :=
  buf.foldl (fun crc b => tab ((crc ^^^ b.toUInt32) &&& 0xff) ^^^ (crc >>> 8)) (crcIn ^^^ 0xffffffff) ^^^ 0xffffffff

def sparseHeaderMagic : Nat := 0xed26ff3a
def sparseHeaderMajorVer : Nat := 1
def sparseHeaderMinorVer : Nat := 0
def sparseHeaderLen : Nat := 28
def chunkHeaderLen : Nat := 12

def chunkTypeRaw : Nat := 0xCAC1
def chunkTypeFill : Nat := 0xCAC2
def chunkTypeDontCare : Nat := 0xCAC3
def chunkTypeCrc32 : Nat := 0xCAC4

structure SparseHeader where
  magic : Nat
  majorVersion : Nat
  minorVersion : Nat
  fileHdrSz : Nat
  chunkHdrSz : Nat
  blkSz : Nat
  totalBlks : Nat
  totalChunks : Nat
  imageChecksum : Nat
  deriving DecidableEq, Repr

def SparseHeader.bytes (h : SparseHeader) : Bytes :=
  Bytes.le h.magic 4 ++ Bytes.le h.majorVersion 2 ++ Bytes.le h.minorVersion 2 ++ Bytes.le h.fileHdrSz 2
    ++ Bytes.le h.chunkHdrSz 2 ++ Bytes.le h.blkSz 4 ++ Bytes.le h.totalBlks 4 ++ Bytes.le h.totalChunks 4
    ++ Bytes.le h.imageChecksum 4

structure ChunkHeader where
  chunkType : Nat
  reserved1 : Nat
  chunkSz : Nat
  totalSz : Nat
  deriving DecidableEq, Repr

def ChunkHeader.bytes (h : ChunkHeader) : Bytes :=
  Bytes.le h.chunkType 2 ++ Bytes.le h.reserved1 2 ++ Bytes.le h.chunkSz 4 ++ Bytes.le h.totalSz 4

def alignU32 (x y : Nat) : Nat :=
  u32 (y * (u32 (x + y - 1) / y))

variable {σ : Type}

namespace OutputFile

def write (out : OutputFile σ) (data : Bytes) : Bool × OutputFile σ :=
  let (ok, file) := out.ops.write out.file data
  (ok, { out with file })

def skip (out : OutputFile σ) (cnt : Nat) : Bool × OutputFile σ :=
  let (ok, file) := out.ops.skip out.file cnt
  (ok, { out with file })

def pad (out : OutputFile σ) (len : Nat) : Bool × OutputFile σ :=
  let (ok, file) := out.ops.pad out.file len
  (ok, { out with file })

def writeAll (out : OutputFile σ) : List Bytes → Bool × OutputFile σ
  | [] => (true, out)
  | data :: rest =>
    match out.write data with
    | (false, out) => (false, out)
    | (true, out) => writeAll out rest

end OutputFile

variable (tab : UInt32 → UInt32)

def writeSparseSkipChunk (out : OutputFile σ) (skipLen : Nat) : Bool × OutputFile σ :=
  if skipLen % out.blockSize ≠ 0 then
    (false, out)
  else
    out.write (ChunkHeader.bytes ⟨chunkTypeDontCare, 0, u32 (skipLen / out.blockSize), chunkHeaderLen⟩)

def fillWord (val : UInt32) : Bytes :=
  Bytes.le val.toNat 4

/-- The checksum is of one block only. -/
def writeSparseFillChunk (out : OutputFile σ) (len : Nat) (fillVal : UInt32) : Bool × OutputFile σ :=
  let rndUpLen := alignU32 len out.blockSize
  let header : ChunkHeader := ⟨chunkTypeFill, 0, rndUpLen / out.blockSize, chunkHeaderLen + 4⟩
  match out.writeAll [header.bytes, fillWord fillVal] with
  | (false, out) => (false, out)
  | (true, out) =>
    if out.useCrc then
      let crc32 := (List.replicate (out.blockSize / 4) (fillWord fillVal)).foldl (sparseCrc32 tab) out.crc32
      (true, { out with crc32 })
    else
      (true, out)

def writeSparseDataChunk (out : OutputFile σ) (len : Nat) (data : Bytes) : Bool × OutputFile σ :=
  let rndUpLen := alignU32 len out.blockSize
  let zeros := List.replicate (rndUpLen - len) 0
  let header : ChunkHeader := ⟨chunkTypeRaw, 0, rndUpLen / out.blockSize, u32 (chunkHeaderLen + rndUpLen)⟩
  match out.writeAll ([header.bytes, data] ++ if zeros = [] then [] else [zeros]) with
  | (false, out) => (false, out)
  | (true, out) =>
    if out.useCrc then
      (true, { out with crc32 := sparseCrc32 tab (sparseCrc32 tab out.crc32 data) zeros })
    else
      (true, out)

/-- Whether the checksum could be written does not matter. -/
def writeSparseEndChunk (out : OutputFile σ) : Bool × OutputFile σ :=
  if out.useCrc then
    match out.write (ChunkHeader.bytes ⟨chunkTypeCrc32, 0, 0, chunkHeaderLen + 4⟩) with
    | (false, out) => (false, out)
    | (true, out) => (true, (out.write (fillWord out.crc32)).2)
  else
    (true, out)

def writeNormalDataChunk (out : OutputFile σ) (len : Nat) (data : Bytes) : Bool × OutputFile σ :=
  let rndUpLen := alignU32 len out.blockSize
  match out.write data with
  | (false, out) => (false, out)
  | (true, out) => if rndUpLen > len then out.skip (rndUpLen - len) else (true, out)

/-- A block of the value; what is behind the last whole word of it stays zero. -/
def fillBuf (blockSize : Nat) (fillVal : UInt32) : Bytes :=
  (List.replicate (blockSize / 4) (fillWord fillVal)).flatten ++ List.replicate (blockSize % 4) 0

/-- The loop of `write_normal_fill_chunk`, which is left after at most `len` turns -/
def writeNormalFillLoop (fillBuf : Bytes) : (fuel len : Nat) → OutputFile σ → Bool × OutputFile σ
  | 0, _, out => (true, out)
  | fuel + 1, len, out =>
    if len = 0 then
      (true, out)
    else
      let writeLen := min len out.blockSize
      match out.write (fillBuf.take writeLen) with
      | (false, out) => (false, out)
      | (true, out) => writeNormalFillLoop fillBuf fuel (len - writeLen) out

def writeNormalFillChunk (out : OutputFile σ) (len : Nat) (fillVal : UInt32) : Bool × OutputFile σ :=
  writeNormalFillLoop (fillBuf out.blockSize fillVal) len len out

def writeNormalSkipChunk (out : OutputFile σ) (len : Nat) : Bool × OutputFile σ :=
  out.skip len

def writeNormalEndChunk (out : OutputFile σ) : Bool × OutputFile σ :=
  out.pad out.len

def writeDataChunk (out : OutputFile σ) (len : Nat) (data : Bytes) : Bool × OutputFile σ :=
  if out.sparse then writeSparseDataChunk tab out len data else writeNormalDataChunk out len data

def writeFillChunk (out : OutputFile σ) (len : Nat) (fillVal : UInt32) : Bool × OutputFile σ :=
  if out.sparse then writeSparseFillChunk tab out len fillVal else writeNormalFillChunk out len fillVal

def writeSkipChunk (out : OutputFile σ) (len : Nat) : Bool × OutputFile σ :=
  if out.sparse then writeSparseSkipChunk out len else writeNormalSkipChunk out len

def outputFileClose (out : OutputFile σ) : OutputFile σ :=
  if out.sparse then (writeSparseEndChunk out).2 else (writeNormalEndChunk out).2

/-- `output_file_init`; with blocks of no bytes there is a division by zero sooner or later. -/
def outputFileOpen (ops : OutputFileOps σ) (file : σ) (blockSize len : Nat) (sparse : Bool) (chunks : Nat) (crc : Bool)
    (mem : Bool) : Except Fault (Option (OutputFile σ)) :=
  if blockSize = 0 then
    throw .divide
  else if !mem then
    return none
  else
    let out : OutputFile σ := ⟨ops, file, sparse, 0, crc, blockSize, len⟩
    if !sparse then
      return some out
    else
      let header : SparseHeader := {
        magic := sparseHeaderMagic
        majorVersion := sparseHeaderMajorVer
        minorVersion := sparseHeaderMinorVer
        fileHdrSz := sparseHeaderLen
        chunkHdrSz := chunkHeaderLen
        blkSz := blockSize
        totalBlks := u32 (len / blockSize)
        totalChunks := if crc then u32 (chunks + 1) else chunks
        imageChecksum := 0
      }
      match out.write header.bytes with
      | (false, _) => return none
      | (true, out) => return some out

end Sparse
