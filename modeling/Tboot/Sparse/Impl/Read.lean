import Tboot.Sparse.Impl.SparseFile

/-!
This module contains `sparse_read.c`: a sparse file from a file in the sparse format, whose raw chunks stay where they
are.
-/

namespace Sparse

structure Source where
  num : Nat
  file : Bytes
  pos : Nat

def readAll (src : Source) (len : Nat) : Option (Bytes × Source) :=
  if len = 0 then
    some ([], src)
  else if src.pos + len ≤ src.file.length then
    some ((src.file.drop src.pos).take len, { src with pos := src.pos + len })
  else
    none

def Source.seek (src : Source) (cnt : Nat) : Source :=
  { src with pos := src.pos + cnt }

def SparseHeader.ofBytes (b : Bytes) : SparseHeader where
  magic := Bytes.ofLe (b.take 4)
  majorVersion := Bytes.ofLe ((b.drop 4).take 2)
  minorVersion := Bytes.ofLe ((b.drop 6).take 2)
  fileHdrSz := Bytes.ofLe ((b.drop 8).take 2)
  chunkHdrSz := Bytes.ofLe ((b.drop 10).take 2)
  blkSz := Bytes.ofLe ((b.drop 12).take 4)
  totalBlks := Bytes.ofLe ((b.drop 16).take 4)
  totalChunks := Bytes.ofLe ((b.drop 20).take 4)
  imageChecksum := Bytes.ofLe ((b.drop 24).take 4)

def ChunkHeader.ofBytes (b : Bytes) : ChunkHeader where
  chunkType := Bytes.ofLe (b.take 2)
  reserved1 := Bytes.ofLe ((b.drop 2).take 2)
  chunkSz := Bytes.ofLe ((b.drop 4).take 4)
  totalSz := Bytes.ofLe ((b.drop 8).take 4)

/-- What is read so far. There is no checksum if none is to be compared. -/
structure Reading where
  s : SparseFile
  src : Source
  crc32 : Option UInt32

variable (tab : UInt32 → UInt32)

def copyBufSize : Nat := 1024 * 1024

def crcFile : (fuel len : Nat) → UInt32 → Source → Option (UInt32 × Source)
  | 0, _, crc32, src => some (crc32, src)
  | fuel + 1, len, crc32, src =>
    if len = 0 then
      some (crc32, src)
    else
      let chunk := min len copyBufSize
      match readAll src chunk with
      | none => none
      | some (buf, src) => crcFile fuel (len - chunk) (sparseCrc32 tab crc32 buf) src

def crcCopybuf (copybuf : Bytes) : (fuel len : Nat) → UInt32 → UInt32
  | 0, _, crc32 => crc32
  | fuel + 1, len, crc32 =>
    if len = 0 then
      crc32
    else
      let chunk := min len copyBufSize
      crcCopybuf copybuf fuel (len - chunk) (sparseCrc32 tab crc32 (copybuf.take chunk))

/-- `none` is for an error; `mem` tells if there is memory for the block. -/
def Reading.add (r : Reading) (backing : Backing) (len block : Nat) (mem : Bool) : Except Fault (Option Reading) := do
  match ← backedBlockAdd backing r.s.blocks len block mem with
  | (false, _) => return none
  | (true, blocks) => return some { r with s := { r.s with blocks } }

def processRawChunk (r : Reading) (chunkSize blocks block : Nat) (mem : Bool) : Except Fault (Option Reading) := do
  let len := u32 (blocks * r.s.blockSize)
  if r.s.blockSize = 0 then
    throw .divide
  if chunkSize % r.s.blockSize ≠ 0 ∨ chunkSize / r.s.blockSize ≠ blocks then
    return none
  match ← r.add (.fd r.src.num r.src.pos) len block mem with
  | none => return none
  | some r =>
    match r.crc32 with
    | none => return some { r with src := r.src.seek len }
    | some crc32 =>
      match crcFile tab len len crc32 r.src with
      | none => return none
      | some (crc32, src) => return some { r with src, crc32 := some crc32 }

def processFillChunk (r : Reading) (chunkSize blocks block : Nat) (mem : Bool) : Except Fault (Option Reading) := do
  let len := blocks * r.s.blockSize
  if chunkSize ≠ 4 then
    return none
  match readAll r.src 4 with
  | none => return none
  | some (buf, src) =>
    let fillVal := UInt32.ofNat (Bytes.ofLe buf)
    match ← { r with src }.add (.fill fillVal) (u32 len) block mem with
    | none => return none
    | some r =>
      let copybuf := (List.replicate (copyBufSize / 4) (fillWord fillVal)).flatten
      return some { r with crc32 := r.crc32.map (crcCopybuf tab copybuf len len) }

def processSkipChunk (r : Reading) (chunkSize blocks : Nat) : Option Reading :=
  if chunkSize ≠ 0 then
    none
  else
    let len := blocks * r.s.blockSize
    some { r with crc32 := r.crc32.map (crcCopybuf tab (List.replicate copyBufSize 0) len len) }

def processCrc32Chunk (r : Reading) (chunkSize : Nat) : Except Fault (Option Reading) :=
  match r.crc32 with
  | none => throw .nullPointer
  | some crc32 =>
    if chunkSize ≠ 4 then
      return none
    else
      match readAll r.src 4 with
      | none => return none
      | some (buf, src) => return if UInt32.ofNat (Bytes.ofLe buf) = crc32 then some { r with src } else none

/-- The number of blocks is returned as an `int`, and an unknown chunk is taken for one of no blocks. -/
def processChunk (r : Reading) (chunkHdrSz : Nat) (header : ChunkHeader) (curBlock : Nat) (mem : Bool)
    : Except Fault (Option (Nat × Reading)) := do
  let chunkDataSize := u32 (header.totalSz + (2 ^ 32 - chunkHdrSz))
  let done : Option Reading → Option (Nat × Reading) := fun r =>
    if header.chunkSz < 2 ^ 31 then r.map fun r => (header.chunkSz, r) else none
  if header.chunkType = chunkTypeRaw then
    return done (← processRawChunk tab r chunkDataSize header.chunkSz curBlock mem)
  else if header.chunkType = chunkTypeFill then
    return done (← processFillChunk tab r chunkDataSize header.chunkSz curBlock mem)
  else if header.chunkType = chunkTypeDontCare then
    return done (processSkipChunk tab r chunkDataSize header.chunkSz)
  else if header.chunkType = chunkTypeCrc32 then
    return (← processCrc32Chunk r chunkDataSize).map fun r => (0, r)
  else
    return some (0, r)

def readChunks (chunkHdrSz : Nat) (mem : Nat → Bool) : (n curBlock : Nat) → Reading → Except Fault (Option (Nat × Reading))
  | 0, curBlock, r => return some (curBlock, r)
  | n + 1, curBlock, r => do
    match readAll r.src chunkHeaderLen with
    | none => return none
    | some (buf, src) =>
      let src := if chunkHdrSz > chunkHeaderLen then src.seek (chunkHdrSz - chunkHeaderLen) else src
      match ← processChunk tab { r with src } chunkHdrSz (.ofBytes buf) curBlock (mem n) with
      | none => return none
      | some (blocks, r) => readChunks chunkHdrSz mem n (u32 (curBlock + blocks)) r

/-- The checks of a header that `sparse_file_import` makes, and `sparse_file_read_sparse` again -/
def SparseHeader.valid (h : SparseHeader) : Bool :=
  h.magic = sparseHeaderMagic && h.majorVersion = sparseHeaderMajorVer && h.fileHdrSz ≥ sparseHeaderLen
    && h.chunkHdrSz ≥ chunkHeaderLen

def sparseFileReadSparse (s : SparseFile) (src : Source) (crc : Bool) (mem : Nat → Bool)
    : Except Fault (Option SparseFile) := do
  match readAll src sparseHeaderLen with
  | none => return none
  | some (buf, src) =>
    let header := SparseHeader.ofBytes buf
    if !header.valid then
      return none
    let src := if header.fileHdrSz > sparseHeaderLen then src.seek (header.fileHdrSz - sparseHeaderLen) else src
    match ← readChunks tab header.chunkHdrSz mem header.totalChunks 0 ⟨s, src, if crc then some 0 else none⟩ with
    | none => return none
    | some (curBlock, r) => return if header.totalBlks = curBlock then some r.s else none

/-- Memory other than for the blocks is not missing. -/
def sparseFileImport (src : Source) (crc : Bool) (mem : Nat → Bool) : Except Fault (Option SparseFile) := do
  match readAll src sparseHeaderLen with
  | none => return none
  | some (buf, src) =>
    let header := SparseHeader.ofBytes buf
    if !header.valid then
      return none
    let s := sparseFileNew header.blkSz (header.totalBlks * header.blkSz)
    sparseFileReadSparse tab s { src with pos := 0 } crc mem

end Sparse
