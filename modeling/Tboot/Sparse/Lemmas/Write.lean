import Tboot.Sparse.Impl.SparseFile
import Tboot.Sparse.Lemmas.Queue

/-!
This module contains the bytes that are written for a sparse file in the sparse format.
-/

namespace Sparse

open Spans

variable {σ : Type} {tab : UInt32 → UInt32} {env : Env}

/-! ### The checksum -/

theorem sparseCrc32_append (crc : UInt32) (a b : Bytes)
    : sparseCrc32 tab (sparseCrc32 tab crc a) b = sparseCrc32 tab crc (a ++ b) := by
  unfold sparseCrc32
  rw [List.foldl_append, UInt32.xor_assoc, UInt32.xor_self, UInt32.xor_zero]

theorem sparseCrc32_nil (crc : UInt32) : sparseCrc32 tab crc [] = crc := by
  unfold sparseCrc32
  rw [List.foldl_nil, UInt32.xor_assoc, UInt32.xor_self, UInt32.xor_zero]

theorem foldl_sparseCrc32 (crc : UInt32) (parts : List Bytes)
    : parts.foldl (sparseCrc32 tab) crc = sparseCrc32 tab crc parts.flatten := by
  induction parts generalizing crc with
  | nil => rw [List.flatten_nil, sparseCrc32_nil, List.foldl_nil]
  | cons part parts ih => rw [List.foldl_cons, ih, sparseCrc32_append, List.flatten_cons]

/-! ### Writes at the end of a file -/

structure FdFile.AtEnd (file : FdFile) (written : Bytes) : Prop where
  pos : file.pos = file.size
  bytes : file.bytes = written

theorem atEnd_new : FdFile.new.AtEnd [] :=
  ⟨rfl, rfl⟩

theorem FdFile.AtEnd.write {file : FdFile} {written : Bytes} (h : file.AtEnd written) (truncate : Bool) (data : Bytes)
    : ∃ file', (fileOps truncate).write file data = (true, file') ∧ file'.AtEnd (written ++ data) := by
  refine ⟨_, rfl, ?_, ?_⟩
  . dsimp only
    have hpos := h.pos
    split
    . next hnil =>
      rw [hnil, List.length_nil]
      omega
    . omega
  . unfold FdFile.bytes
    dsimp only
    have hsize : (if data = [] then file.size else max file.size (file.pos + data.length)) = file.size + data.length := by
      have hpos := h.pos
      split
      . next hnil => rw [hnil, List.length_nil, Nat.add_zero]
      . omega
    have hold : Bytes.slice (Patch.write file.img ⟨file.pos, data⟩) 0 file.size = written := by
      rw [Patch.slice_write_of_apart, ← h.bytes, FdFile.bytes]
      apply Disjoint.symm
      apply Region.apart_of_le
      rw [Nat.zero_add, ← h.pos]
      exact Nat.le_refl _
    rw [hsize, ← Bytes.slice_append, hold, Nat.zero_add, ← h.pos]
    congr 1
    exact Patch.slice_write_self file.img ⟨file.pos, data⟩

/-! ### Chunks -/

structure OutputFile.Wrote (out out' : OutputFile FdFile) (written : Bytes) (crc32 : UInt32) : Prop where
  eq : out' = { out with file := out'.file, crc32 }
  atEnd : out'.file.AtEnd written

variable {truncate : Bool} {out : OutputFile FdFile} {written : Bytes}

theorem OutputFile.write_atEnd (hops : out.ops = fileOps truncate) (h : out.file.AtEnd written) (data : Bytes)
    : ∃ out', out.write data = (true, out') ∧ out.Wrote out' (written ++ data) out.crc32 := by
  obtain ⟨file', hwrite, hfile⟩ := h.write truncate data
  unfold OutputFile.write
  rw [hops, hwrite]
  refine ⟨_, rfl, ?_, hfile⟩
  rw [← hops]

theorem OutputFile.writeAll_atEnd (hops : out.ops = fileOps truncate) (h : out.file.AtEnd written) (parts : List Bytes)
    : ∃ out', out.writeAll parts = (true, out') ∧ out.Wrote out' (written ++ parts.flatten) out.crc32 := by
  induction parts generalizing out written with
  | nil =>
    refine ⟨out, rfl, rfl, ?_⟩
    rwa [List.flatten_nil, List.append_nil]
  | cons data parts ih =>
    obtain ⟨out₁, hwrite, hwrote⟩ := OutputFile.write_atEnd hops h data
    have hops₁ : out₁.ops = fileOps truncate := by rw [hwrote.eq, hops]
    obtain ⟨out₂, hwrites, hwrote₂⟩ := ih hops₁ hwrote.atEnd
    rw [OutputFile.writeAll, hwrite]
    refine ⟨out₂, hwrites, ?_, ?_⟩
    . rw [hwrote₂.eq, hwrote.eq]
    . rw [List.flatten_cons, ← List.append_assoc]
      exact hwrote₂.atEnd

inductive Chunk where
  | raw (data : Bytes)
  | fill (val : UInt32) (blocks : Nat)
  | skip (blocks : Nat)
  deriving DecidableEq, Repr

namespace Chunk

variable (blockSize : Nat)

def blocks : Chunk → Nat
  | raw data => data.length / blockSize
  | fill _ blocks => blocks
  | skip blocks => blocks

def header : Chunk → ChunkHeader
  | raw data => ⟨chunkTypeRaw, 0, data.length / blockSize, chunkHeaderLen + data.length⟩
  | fill _ blocks => ⟨chunkTypeFill, 0, blocks, chunkHeaderLen + 4⟩
  | skip blocks => ⟨chunkTypeDontCare, 0, blocks, chunkHeaderLen⟩

def payload : Chunk → Bytes
  | raw data => data
  | fill val _ => fillWord val
  | skip _ => []

def bytes (c : Chunk) : Bytes :=
  (c.header blockSize).bytes ++ c.payload

def crcOut (tab : UInt32 → UInt32) (crc : UInt32) : Chunk → UInt32
  | raw data => sparseCrc32 tab crc data
  | fill val _ => sparseCrc32 tab crc (List.replicate (blockSize / 4) (fillWord val)).flatten
  | skip _ => crc

end Chunk

def BackedBlock.content (env : Env) (bb : BackedBlock) : Bytes :=
  Bytes.slice (fun i => bb.backing.byte env i) 0 bb.len

def Backing.fillVal : Backing → Option UInt32
  | .fill val => some val
  | _ => none

def BackedBlock.chunk (env : Env) (blockSize : Nat) (bb : BackedBlock) : Chunk :=
  match bb.backing.fillVal with
  | some val => .fill val (divRoundUp bb.len blockSize)
  | none => .raw (bb.content env ++ List.replicate (align bb.len blockSize - bb.len) 0)

theorem fdBytes_eq (fd : Nat → UInt8) (offset len : Nat)
    : fdBytes fd offset len = Bytes.slice (fun i => fd (offset + i)) 0 len := by
  unfold fdBytes
  dsimp only
  have hle := Nat.div_mul_le_self offset 4096
  apply List.ext_getElem?
  intro i
  rw [List.getElem?_drop]
  by_cases hi : i < len
  . rw [Bytes.slice_getElem? _ _ (by omega), Bytes.slice_getElem? _ _ hi]
    congr 2
    omega
  . rw [List.getElem?_eq_none (by rw [Bytes.slice_length]; omega), List.getElem?_eq_none (by rw [Bytes.slice_length]; omega)]

theorem slice_add (host : Nat → UInt8) (pos len : Nat)
    : Bytes.slice (fun i => host (pos + i)) 0 len = Bytes.slice host pos len := by
  apply List.ext_getElem?
  intro i
  by_cases hi : i < len
  . rw [Bytes.slice_getElem? _ _ hi, Bytes.slice_getElem? _ _ hi, Nat.zero_add]
  . rw [List.getElem?_eq_none (by rw [Bytes.slice_length]; omega),
      List.getElem?_eq_none (by rw [Bytes.slice_length]; omega)]

theorem slice_append_of_period {host : Nat → UInt8} {n : Nat} (h : ∀ i, host (n + i) = host i) (m : Nat)
    : Bytes.slice host 0 n ++ Bytes.slice host 0 m = Bytes.slice host 0 (n + m) := by
  have hagain : Bytes.slice host 0 m = Bytes.slice host n m := by
    rw [← slice_add host n]
    congr 1
    funext i
    exact (h i).symm
  have happend := Bytes.slice_append host 0 n m
  rwa [Nat.zero_add, ← hagain] at happend

theorem fillWord_eq (val : UInt32) : fillWord val = Bytes.slice (fillByte val) 0 4 := by
  unfold fillWord
  simp [Bytes.le, Bytes.slice, List.range', fillByte, Nat.div_div_eq_div_mul]

theorem fillByte_add (val : UInt32) (n i : Nat) : fillByte val (n * 4 + i) = fillByte val i := by
  unfold fillByte
  rw [Nat.add_comm, Nat.add_mul_mod_self_right]

theorem flatten_fillWord (val : UInt32) (n : Nat)
    : (List.replicate n (fillWord val)).flatten = Bytes.slice (fillByte val) 0 (n * 4) := by
  induction n with
  | zero => rfl
  | succ n ih =>
    rw [List.replicate_succ', List.flatten_append, ih, List.flatten_singleton, fillWord_eq, Nat.succ_mul]
    exact slice_append_of_period (fillByte_add val n) 4

namespace BackedBlock

variable (env : Env) (bb : BackedBlock)

theorem length_content : (bb.content env).length = bb.len :=
  Bytes.slice_length _ _ _

variable {bb}

theorem content_data {ptr : Nat} (h : bb.backing = .data ptr) : bb.content env = Bytes.slice env.memory ptr bb.len := by
  unfold content
  rw [h]
  exact slice_add env.memory ptr bb.len

theorem content_file {filename offset : Nat} (h : bb.backing = .file filename offset)
    : bb.content env = fdBytes (env.files filename) offset bb.len := by
  unfold content
  rw [h, fdBytes_eq]
  rfl

theorem content_fd {num offset : Nat} (h : bb.backing = .fd num offset)
    : bb.content env = fdBytes (env.fds num) offset bb.len := by
  unfold content
  rw [h, fdBytes_eq]
  rfl

end BackedBlock

/-! ### The arithmetic -/

/-- The length of the block, in whole blocks and with a header, is an unsigned integer. -/
def BackedBlock.Fits (blockSize : Nat) (bb : BackedBlock) : Prop :=
  align bb.len blockSize + blockSize + chunkHeaderLen ≤ 2 ^ 32

theorem le_align {blockSize : Nat} (hsize : 0 < blockSize) (len : Nat) : len ≤ align len blockSize := by
  unfold align
  rw [Nat.mul_comm]
  exact le_divRoundUp_mul hsize len

theorem divRoundUpU32_eq {blockSize : Nat} {bb : BackedBlock} (hsize : 0 < blockSize) (h : bb.Fits blockSize)
    : divRoundUpU32 bb.len blockSize = divRoundUp bb.len blockSize := by
  have hle := le_align hsize bb.len
  unfold BackedBlock.Fits at h
  unfold divRoundUpU32 divRoundUp
  rw [u32_of_lt (by omega)]

theorem alignU32_eq {blockSize : Nat} {bb : BackedBlock} (hsize : 0 < blockSize) (h : bb.Fits blockSize)
    : alignU32 bb.len blockSize = align bb.len blockSize := by
  have hdiv := divRoundUpU32_eq hsize h
  unfold divRoundUpU32 at hdiv
  unfold alignU32
  rw [hdiv, ← align]
  unfold BackedBlock.Fits chunkHeaderLen at h
  exact u32_of_lt (by omega)

theorem lastBlock_eq {blockSize : Nat} {bb : BackedBlock} (hsize : 0 < blockSize) (h : bb.Fits blockSize)
    (hstop : bb.stop blockSize < 2 ^ 32) : lastBlock blockSize bb = bb.stop blockSize := by
  unfold lastBlock
  rw [divRoundUpU32_eq hsize h, ← BackedBlock.stop, u32_of_lt hstop]

theorem divRoundUp_mul {blockSize : Nat} (hsize : 0 < blockSize) (n : Nat) : divRoundUp (n * blockSize) blockSize = n := by
  have hadd := divRoundUp_mul_add hsize n 0
  have hzero : divRoundUp 0 blockSize = 0 := Nat.div_eq_of_lt (by omega)
  rwa [hzero, Nat.add_zero, Nat.add_zero] at hadd

theorem align_div {blockSize : Nat} (hsize : 0 < blockSize) (len : Nat)
    : align len blockSize / blockSize = divRoundUp len blockSize :=
  Nat.mul_div_cancel_left _ hsize

/-! ### One chunk -/

structure OutputFile.Ready (truncate : Bool) (out : OutputFile FdFile) : Prop where
  ops : out.ops = fileOps truncate
  sparse : out.sparse = true
  size_pos : 0 < out.blockSize
  atEnd : out.file.AtEnd out.file.bytes

def crcAfter (tab : UInt32 → UInt32) (out : OutputFile FdFile) (cs : List Chunk) : UInt32 :=
  if out.useCrc then cs.foldl (fun crc c => c.crcOut out.blockSize tab crc) out.crc32 else out.crc32

def OutputFile.WroteChunks (tab : UInt32 → UInt32) (out out' : OutputFile FdFile) (cs : List Chunk) : Prop :=
  out.Wrote out' (out.file.bytes ++ cs.flatMap fun c => c.bytes out.blockSize) (crcAfter tab out cs)

namespace OutputFile.WroteChunks

variable {out₁ out₂ : OutputFile FdFile} {cs ds : List Chunk}

theorem nil (h : out.Ready truncate) : out.WroteChunks tab out [] := by
  refine ⟨?_, ?_⟩
  . simp [crcAfter]
  . simpa using h.atEnd

theorem append (h₁ : out.WroteChunks tab out₁ cs) (h₂ : out₁.WroteChunks tab out₂ ds)
    : out.WroteChunks tab out₂ (cs ++ ds) := by
  unfold WroteChunks at *
  have hsize : out₁.blockSize = out.blockSize := by rw [h₁.eq]
  have hcrc : crcAfter tab out₁ ds = crcAfter tab out (cs ++ ds) := by
    unfold crcAfter
    rw [h₁.eq]
    dsimp only
    unfold crcAfter
    split
    . rw [List.foldl_append]
    . rfl
  rw [hcrc, hsize, h₁.atEnd.bytes] at h₂
  rw [List.flatMap_append, ← List.append_assoc]
  refine ⟨?_, h₂.atEnd⟩
  rw [h₂.eq, h₁.eq]

theorem ready (h : out.WroteChunks tab out₁ cs) (hready : out.Ready truncate) : out₁.Ready truncate where
  ops := by rw [h.eq, hready.ops]
  sparse := by rw [h.eq, hready.sparse]
  size_pos := by
    rw [h.eq]
    exact hready.size_pos
  atEnd := by
    rw [h.atEnd.bytes]
    exact h.atEnd

theorem blockSize (h : out.WroteChunks tab out₁ cs) : out₁.blockSize = out.blockSize := by
  rw [h.eq]

end OutputFile.WroteChunks

theorem writeSkipChunk_sparse (hready : out.Ready truncate) {blocks : Nat} (hblocks : blocks < 2 ^ 32)
    : out.WroteChunks tab (writeSkipChunk out (blocks * out.blockSize)).2 [.skip blocks] := by
  obtain ⟨out', hwrite, hwrote⟩ := OutputFile.write_atEnd hready.ops hready.atEnd ((Chunk.skip blocks).bytes out.blockSize)
  have hskip : writeSkipChunk out (blocks * out.blockSize) = (true, out') := by
    unfold writeSkipChunk writeSparseSkipChunk
    rw [if_pos hready.sparse, if_neg (by simp), Nat.mul_div_cancel _ hready.size_pos, u32_of_lt hblocks, ← hwrite]
    simp [Chunk.bytes, Chunk.header, Chunk.payload]
  rw [hskip]
  unfold OutputFile.WroteChunks crcAfter
  rwa [List.flatMap_singleton, List.foldl_cons, List.foldl_nil, Chunk.crcOut, ite_self]

theorem OutputFile.Wrote.chunk {c : Chunk} {out' : OutputFile FdFile}
    (h : out.Wrote out' (out.file.bytes ++ c.bytes out.blockSize) out.crc32)
    : out.WroteChunks tab
        (if out'.useCrc then { out' with crc32 := c.crcOut out'.blockSize tab out'.crc32 } else out') [c] := by
  have huse : out'.useCrc = out.useCrc := by rw [h.eq]
  have hcrc : out'.crc32 = out.crc32 := by rw [h.eq]
  have hsize : out'.blockSize = out.blockSize := by rw [h.eq]
  unfold WroteChunks crcAfter
  rw [List.flatMap_singleton, huse, hcrc, hsize]
  split
  . refine ⟨?_, h.atEnd⟩
    rw [h.eq]
    rfl
  . exact h

variable (tab env)

theorem writeSparseDataChunk_eq (hready : out.Ready truncate) {bb : BackedBlock} (hfits : bb.Fits out.blockSize)
    {data : Bytes} (hlen : data.length = bb.len)
    : out.WroteChunks tab (writeSparseDataChunk tab out bb.len data).2
        [.raw (data ++ List.replicate (align bb.len out.blockSize - bb.len) 0)] := by
  have hle := le_align hready.size_pos bb.len
  have hraw : (data ++ List.replicate (align bb.len out.blockSize - bb.len) (0 : UInt8)).length
      = align bb.len out.blockSize := by
    rw [List.length_append, List.length_replicate, hlen]
    omega
  have htotal : u32 (chunkHeaderLen + align bb.len out.blockSize) = chunkHeaderLen + align bb.len out.blockSize := by
    have hpos := hready.size_pos
    unfold BackedBlock.Fits at hfits
    exact u32_of_lt (by omega)
  unfold writeSparseDataChunk
  dsimp only
  rw [alignU32_eq hready.size_pos hfits, htotal]
  generalize List.replicate (align bb.len out.blockSize - bb.len) (0 : UInt8) = zeros at hraw ⊢
  have hflatten : ([ChunkHeader.bytes ⟨chunkTypeRaw, 0, align bb.len out.blockSize / out.blockSize,
      chunkHeaderLen + align bb.len out.blockSize⟩, data] ++ if zeros = [] then [] else [zeros]).flatten
      = (Chunk.raw (data ++ zeros)).bytes out.blockSize := by
    rw [Chunk.bytes, Chunk.header, Chunk.payload, hraw]
    split
    . next hnil => simp [hnil]
    . simp
  obtain ⟨out', hwrite, hwrote⟩ := OutputFile.writeAll_atEnd hready.ops hready.atEnd
    ([ChunkHeader.bytes ⟨chunkTypeRaw, 0, align bb.len out.blockSize / out.blockSize,
      chunkHeaderLen + align bb.len out.blockSize⟩, data] ++ if zeros = [] then [] else [zeros])
  rw [hflatten] at hwrote
  rw [hwrite]
  dsimp only
  rw [sparseCrc32_append, apply_ite Prod.snd]
  exact hwrote.chunk

theorem writeSparseFillChunk_eq (hready : out.Ready truncate) {bb : BackedBlock} (hfits : bb.Fits out.blockSize)
    (val : UInt32)
    : out.WroteChunks tab (writeSparseFillChunk tab out bb.len val).2 [.fill val (divRoundUp bb.len out.blockSize)] := by
  unfold writeSparseFillChunk
  dsimp only
  rw [alignU32_eq hready.size_pos hfits, align_div hready.size_pos]
  have hflatten : [ChunkHeader.bytes ⟨chunkTypeFill, 0, divRoundUp bb.len out.blockSize, chunkHeaderLen + 4⟩,
      fillWord val].flatten = (Chunk.fill val (divRoundUp bb.len out.blockSize)).bytes out.blockSize := by
    simp [Chunk.bytes, Chunk.header, Chunk.payload]
  obtain ⟨out', hwrite, hwrote⟩ := OutputFile.writeAll_atEnd hready.ops hready.atEnd
    [ChunkHeader.bytes ⟨chunkTypeFill, 0, divRoundUp bb.len out.blockSize, chunkHeaderLen + 4⟩, fillWord val]
  rw [hflatten] at hwrote
  rw [hwrite]
  dsimp only
  rw [foldl_sparseCrc32, apply_ite Prod.snd]
  exact hwrote.chunk

theorem sparseFileWriteBlock_sparse (hready : out.Ready truncate) {bb : BackedBlock} (hfits : bb.Fits out.blockSize)
    : out.WroteChunks tab (sparseFileWriteBlock tab env out bb).2 [bb.chunk env out.blockSize] := by
  have hdata := writeSparseDataChunk_eq tab hready hfits (bb.length_content env)
  unfold sparseFileWriteBlock BackedBlock.chunk writeDataChunk writeFillChunk
  cases hbacking : bb.backing with
  | data ptr =>
    dsimp only [Backing.fillVal]
    rwa [if_pos hready.sparse, ← bb.content_data env hbacking]
  | file filename offset =>
    dsimp only [Backing.fillVal]
    rwa [if_pos hready.sparse, ← bb.content_file env hbacking]
  | fd num offset =>
    dsimp only [Backing.fillVal]
    rwa [if_pos hready.sparse, ← bb.content_fd env hbacking]
  | fill val =>
    dsimp only [Backing.fillVal]
    rw [if_pos hready.sparse]
    exact writeSparseFillChunk_eq tab hready hfits val

/-! ### All chunks -/

/-- The chunks of the blocks, each after one for what is skipped before it -/
def chunksFrom (env : Env) (blockSize : Nat) : (last : Nat) → List BackedBlock → List Chunk
  | _, [] => []
  | last, bb :: rest =>
    (if bb.block > last then [.skip (bb.block - last)] else [])
      ++ bb.chunk env blockSize :: chunksFrom env blockSize (bb.stop blockSize) rest

def lastStop (blockSize : Nat) : (last : Nat) → List BackedBlock → Nat
  | last, [] => last
  | _, bb :: rest => lastStop blockSize (bb.stop blockSize) rest

def SparseFile.chunks (env : Env) (s : SparseFile) : List Chunk :=
  let last := lastStop s.blockSize 0 s.blocks.dataBlocks
  chunksFrom env s.blockSize 0 s.blocks.dataBlocks
    ++ if last < s.len / s.blockSize then [.skip (s.len / s.blockSize - last)] else []

/-- The blocks lie in the file, and no number in the sparse format overflows. -/
structure SparseFile.Writable (s : SparseFile) : Prop where
  size_pos : 0 < s.blockSize
  size_lt : s.blockSize < 2 ^ 32
  size_dvd : s.blockSize ∣ s.len
  total_lt : s.len / s.blockSize < 2 ^ 31
  inOrder : InOrder s.blockSize s.blocks.dataBlocks
  fits : ∀ bb ∈ s.blocks.dataBlocks, bb.Fits s.blockSize
  stop_le : ∀ bb ∈ s.blocks.dataBlocks, bb.stop s.blockSize ≤ s.len / s.blockSize

theorem SparseFile.Writable.stop_lt {s : SparseFile} (h : s.Writable)
    : ∀ bb ∈ s.blocks.dataBlocks, bb.stop s.blockSize < 2 ^ 32 := by
  intro bb hbb
  have hstop := h.stop_le bb hbb
  have htotal := h.total_lt
  omega

theorem lastStop_le {blockSize last stop : Nat} {blocks : List BackedBlock} (hlast : last ≤ stop)
    (h : ∀ bb ∈ blocks, bb.stop blockSize ≤ stop) : lastStop blockSize last blocks ≤ stop := by
  induction blocks generalizing last with
  | nil => exact hlast
  | cons bb rest ih =>
    rw [List.forall_mem_cons] at h
    exact ih h.1 h.2

theorem length_chunksFrom_le {blockSize last : Nat} {blocks : List BackedBlock} (h : InOrder blockSize blocks)
    (hlast : ∀ bb ∈ blocks, last ≤ bb.block)
    : (chunksFrom env blockSize last blocks).length + last ≤ lastStop blockSize last blocks := by
  induction blocks generalizing last with
  | nil => simp [chunksFrom, lastStop]
  | cons bb rest ih =>
    obtain ⟨hproper, hrest, hstop⟩ := Ordered.cons_iff.mp h
    have hle := hlast bb List.mem_cons_self
    have hlength := ih hrest hstop
    rw [chunksFrom, lastStop, List.length_append, List.length_cons]
    split
    . rw [List.length_singleton]
      omega
    . rw [List.length_nil]
      omega

theorem sparseCountChunks_go_eq {blockSize : Nat} (hsize : 0 < blockSize) {blocks : List BackedBlock} (last chunks : Nat)
    (hfits : ∀ bb ∈ blocks, bb.Fits blockSize) (hstop : ∀ bb ∈ blocks, bb.stop blockSize < 2 ^ 32)
    : sparseCountChunks.go blockSize last chunks blocks
        = (lastStop blockSize last blocks, chunks + (chunksFrom env blockSize last blocks).length) := by
  induction blocks generalizing last chunks with
  | nil => rfl
  | cons bb rest ih =>
    rw [List.forall_mem_cons] at hfits hstop
    rw [sparseCountChunks.go, lastBlock_eq hsize hfits.1 hstop.1, ih _ _ hfits.2 hstop.2]
    rw [lastStop, chunksFrom]
    congr 1
    split
    . simp
      omega
    . simp
      omega

theorem writeAllBlocks_go_sparse (hready : out.Ready truncate) {blocks : List BackedBlock} (last : Nat)
    (hfits : ∀ bb ∈ blocks, bb.Fits out.blockSize) (hstop : ∀ bb ∈ blocks, bb.stop out.blockSize < 2 ^ 32)
    : (writeAllBlocks.go tab env out.blockSize last blocks out).1 = lastStop out.blockSize last blocks
      ∧ out.WroteChunks tab (writeAllBlocks.go tab env out.blockSize last blocks out).2
          (chunksFrom env out.blockSize last blocks) := by
  induction blocks generalizing out last with
  | nil => exact ⟨rfl, .nil hready⟩
  | cons bb rest ih =>
    rw [List.forall_mem_cons] at hfits hstop
    have hskip : out.WroteChunks tab
        (if bb.block > last then (writeSkipChunk out ((bb.block - last) * out.blockSize)).2 else out)
        (if bb.block > last then [.skip (bb.block - last)] else []) := by
      split
      . have hblock : bb.block ≤ bb.stop out.blockSize := Nat.le_add_right _ _
        exact writeSkipChunk_sparse hready (by omega)
      . exact .nil hready
    rw [writeAllBlocks.go, chunksFrom, lastStop]
    generalize (if bb.block > last then (writeSkipChunk out ((bb.block - last) * out.blockSize)).2 else out) = out₁ at hskip ⊢
    have hready₁ := hskip.ready hready
    have hsize₁ := hskip.blockSize
    have hblock := sparseFileWriteBlock_sparse tab env hready₁ (hsize₁ ▸ hfits.1)
    generalize (sparseFileWriteBlock tab env out₁ bb).2 = out₂ at hblock ⊢
    have hready₂ := hblock.ready hready₁
    have hsize₂ : out₂.blockSize = out.blockSize := hblock.blockSize.trans hsize₁
    have hrest := ih hready₂ (bb.stop out.blockSize) (by rw [hsize₂]; exact hfits.2) (by rw [hsize₂]; exact hstop.2)
    rw [hsize₂] at hrest
    rw [hsize₁] at hblock
    rw [lastBlock_eq hready.size_pos hfits.1 hstop.1]
    refine ⟨hrest.1, ?_⟩
    have happend := hskip.append (hblock.append hrest.2)
    rwa [List.singleton_append] at happend

theorem sparseCountChunks_eq {s : SparseFile} (h : s.Writable) (env : Env)
    : sparseCountChunks s = u32 (s.chunks env).length := by
  have hround : divRoundUp s.len s.blockSize = s.len / s.blockSize := by
    have hmul := divRoundUp_mul h.size_pos (s.len / s.blockSize)
    rwa [Nat.div_mul_cancel h.size_dvd] at hmul
  unfold sparseCountChunks SparseFile.chunks
  rw [sparseCountChunks_go_eq env h.size_pos 0 0 h.fits h.stop_lt, hround, Nat.zero_add]
  dsimp only
  split
  . rw [List.length_append, List.length_singleton]
  . rw [List.append_nil]

theorem SparseFile.Writable.length_chunks_le {s : SparseFile} (h : s.Writable)
    : (s.chunks env).length ≤ s.len / s.blockSize := by
  have hlast : lastStop s.blockSize 0 s.blocks.dataBlocks ≤ s.len / s.blockSize := lastStop_le (Nat.zero_le _) h.stop_le
  have hlength := length_chunksFrom_le env h.inOrder fun _ _ => Nat.zero_le _
  unfold chunks
  rw [List.length_append]
  split
  . rw [List.length_singleton]
    omega
  . rw [List.length_nil]
    omega

theorem writeAllBlocks_sparse (hready : out.Ready truncate) {s : SparseFile} (h : s.Writable)
    (hsize : out.blockSize = s.blockSize)
    : ∃ out', writeAllBlocks tab env s out = .ok out' ∧ out.WroteChunks tab out' (s.chunks env) := by
  have hgo := writeAllBlocks_go_sparse tab env hready 0 (hsize ▸ h.fits) (hsize ▸ h.stop_lt)
  have hlast : lastStop s.blockSize 0 s.blocks.dataBlocks ≤ s.len / s.blockSize := lastStop_le (Nat.zero_le _) h.stop_le
  have hlen : s.len = s.len / s.blockSize * s.blockSize := (Nat.div_mul_cancel h.size_dvd).symm
  rw [hsize] at hgo
  unfold writeAllBlocks SparseFile.chunks
  generalize writeAllBlocks.go tab env s.blockSize 0 s.blocks.dataBlocks out = res at hgo ⊢
  obtain ⟨last, out₁⟩ := res
  obtain ⟨rfl, hwrote⟩ := hgo
  have hready₁ := hwrote.ready hready
  have hsize₁ := hwrote.blockSize
  rw [hsize] at hsize₁
  have hbehind : s.len - lastStop s.blockSize 0 s.blocks.dataBlocks * s.blockSize
      = (s.len / s.blockSize - lastStop s.blockSize 0 s.blocks.dataBlocks) * s.blockSize := by
    rw [Nat.sub_mul, ← hlen]
  dsimp only
  generalize lastStop s.blockSize 0 s.blocks.dataBlocks = last at hlast hbehind ⊢
  have hle : last * s.blockSize ≤ s.len := by
    rw [hlen]
    exact Nat.mul_le_mul_right _ hlast
  rw [if_neg (by omega), hbehind]
  by_cases hlt : last < s.len / s.blockSize
  . rw [if_pos (Nat.mul_pos (by omega) h.size_pos), if_pos hlt]
    refine ⟨_, rfl, hwrote.append ?_⟩
    rw [← hsize₁]
    have htotal := h.total_lt
    apply writeSkipChunk_sparse hready₁
    rw [hsize₁]
    omega
  . have hzero : s.len / s.blockSize - last = 0 := by omega
    rw [hzero, Nat.zero_mul, if_neg (Nat.lt_irrefl 0), if_neg hlt, List.append_nil]
    exact ⟨_, rfl, hwrote⟩

/-! ### The format -/

def SparseFile.header (s : SparseFile) (chunks : Nat) : SparseHeader where
  magic := sparseHeaderMagic
  majorVersion := sparseHeaderMajorVer
  minorVersion := sparseHeaderMinorVer
  fileHdrSz := sparseHeaderLen
  chunkHdrSz := chunkHeaderLen
  blkSz := s.blockSize
  totalBlks := s.len / s.blockSize
  totalChunks := chunks
  imageChecksum := 0

def crcHeader : ChunkHeader :=
  ⟨chunkTypeCrc32, 0, 0, chunkHeaderLen + 4⟩

/-- The chunk with the checksum, as it is computed while the chunks are written -/
def crcBytes (tab : UInt32 → UInt32) (blockSize : Nat) (cs : List Chunk) : Bytes :=
  crcHeader.bytes ++ fillWord (cs.foldl (fun crc c => c.crcOut blockSize tab crc) 0)

def SparseFile.format (tab : UInt32 → UInt32) (env : Env) (s : SparseFile) (crc : Bool) : Bytes :=
  (s.header ((s.chunks env).length + crc.toNat)).bytes ++ ((s.chunks env).flatMap fun c => c.bytes s.blockSize)
    ++ if crc then crcBytes tab s.blockSize (s.chunks env) else []

theorem outputFileOpen_sparse (truncate : Bool) {s : SparseFile} (h : s.Writable) (env : Env) (crc : Bool)
    : ∃ out, outputFileOpen (fileOps truncate) FdFile.new s.blockSize s.len true (sparseCountChunks s) crc true
          = .ok (some out)
        ∧ out.Ready truncate ∧ out.file.bytes = (s.header ((s.chunks env).length + crc.toNat)).bytes
        ∧ out.blockSize = s.blockSize ∧ out.useCrc = crc ∧ out.crc32 = 0 := by
  have hlength := h.length_chunks_le env
  have htotal := h.total_lt
  have hcount : (if crc then u32 (sparseCountChunks s + 1) else sparseCountChunks s)
      = (s.chunks env).length + crc.toNat := by
    have hlt : (s.chunks env).length + 1 < 2 ^ 32 := by omega
    rw [sparseCountChunks_eq h env, u32_of_lt (Nat.lt_of_succ_lt hlt), u32_of_lt hlt]
    cases crc
    all_goals rfl
  have hheader : SparseHeader.mk sparseHeaderMagic sparseHeaderMajorVer sparseHeaderMinorVer sparseHeaderLen
      chunkHeaderLen s.blockSize (u32 (s.len / s.blockSize))
      (if crc then u32 (sparseCountChunks s + 1) else sparseCountChunks s) 0
      = s.header ((s.chunks env).length + crc.toNat) := by
    rw [hcount, u32_of_lt (by omega)]
    rfl
  have hops : (OutputFile.mk (fileOps truncate) FdFile.new true 0 crc s.blockSize s.len).ops = fileOps truncate := rfl
  obtain ⟨out, hwrite, hwrote⟩ := OutputFile.write_atEnd hops atEnd_new
    (s.header ((s.chunks env).length + crc.toNat)).bytes
  rw [List.nil_append] at hwrote
  refine ⟨out, ?_, ⟨?_, ?_, ?_, ?_⟩, hwrote.atEnd.bytes, ?_, ?_, ?_⟩
  . unfold outputFileOpen
    rw [if_neg (by have := h.size_pos; omega)]
    dsimp only
    rw [hheader, hwrite]
    rfl
  . rw [hwrote.eq]
  . rw [hwrote.eq]
  . rw [hwrote.eq]
    exact h.size_pos
  . rw [hwrote.atEnd.bytes]
    exact hwrote.atEnd
  all_goals rw [hwrote.eq]

theorem outputFileClose_sparse (hready : out.Ready truncate)
    : (outputFileClose out).file.bytes
        = out.file.bytes ++ if out.useCrc then crcHeader.bytes ++ fillWord out.crc32 else [] := by
  unfold outputFileClose writeSparseEndChunk
  rw [if_pos hready.sparse]
  split
  . obtain ⟨out₁, hwrite₁, hwrote₁⟩ := OutputFile.write_atEnd hready.ops hready.atEnd crcHeader.bytes
    have hops₁ : out₁.ops = fileOps truncate := by rw [hwrote₁.eq, hready.ops]
    obtain ⟨out₂, hwrite₂, hwrote₂⟩ := OutputFile.write_atEnd hops₁ hwrote₁.atEnd (fillWord out₁.crc32)
    have hcrc : out₁.crc32 = out.crc32 := by rw [hwrote₁.eq]
    rw [← crcHeader, hwrite₁]
    dsimp only
    rw [hwrite₂]
    dsimp only
    rw [hwrote₂.atEnd.bytes, hcrc, List.append_assoc]
  . rw [List.append_nil]

theorem sparseFileWrite_format {s : SparseFile} (h : s.Writable) (truncate crc : Bool)
    : ∃ file, sparseFileWrite tab env (fileOps truncate) FdFile.new s true crc true = .ok (some file)
        ∧ file.bytes = s.format tab env crc := by
  obtain ⟨out, hopen, hready, hbytes, hsize, huse, hcrc⟩ := outputFileOpen_sparse truncate h env crc
  obtain ⟨out', hblocks, hwrote⟩ := writeAllBlocks_sparse tab env hready h hsize
  refine ⟨(outputFileClose out').file, ?_, ?_⟩
  . unfold sparseFileWrite
    rw [if_neg (by have := h.size_pos; omega)]
    dsimp only
    rw [hopen]
    dsimp only [bind, Except.bind]
    rw [hblocks]
    rfl
  . have huse' : out'.useCrc = crc := by rw [hwrote.eq, huse]
    rw [outputFileClose_sparse (hwrote.ready hready), huse', hwrote.atEnd.bytes, hbytes, hsize]
    unfold SparseFile.format
    congr 1
    split
    . next hon =>
      have hcrc' : out'.crc32 = crcAfter tab out (s.chunks env) := by rw [hwrote.eq]
      rw [crcBytes, hcrc', crcAfter, huse, if_pos hon, hcrc, hsize]
    . rfl

end Sparse
