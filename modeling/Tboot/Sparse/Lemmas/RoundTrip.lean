import Tboot.Sparse.Lemmas.Normal
import Tboot.Sparse.Lemmas.Read

/-!
This module contains the round trip of a sparse file through the sparse format.
-/

namespace Sparse

open Spans

variable (tab : UInt32 → UInt32) (env : Env) {env' : Env} {blockSize last : Nat} (num pos : Nat)

/-! ### The blocks that are read -/

/-- The byte of a block at a position of the image, with what is written behind its last byte -/
def BackedBlock.paddedAt (env : Env) (blockSize : Nat) (bb : BackedBlock) (pos : Nat) : Option UInt8 :=
  if bb.block * blockSize ≤ pos ∧ pos < bb.stop blockSize * blockSize then
    match bb.backing.fillVal with
    | some val => some (fillByte val (pos - bb.block * blockSize))
    | none =>
      if pos - bb.block * blockSize < bb.len then
        some (bb.backing.byte env (pos - bb.block * blockSize))
      else
        some 0
  else
    none

def BackedBlock.imported (blockSize num off : Nat) (bb : BackedBlock) : BackedBlock where
  block := bb.block
  len := align bb.len blockSize
  backing :=
    match bb.backing.fillVal with
    | some val => .fill val
    | none => .fd num off

theorem BackedBlock.stop_imported (hsize : 0 < blockSize) (num off : Nat) (bb : BackedBlock)
    : (bb.imported blockSize num off).stop blockSize = bb.stop blockSize := by
  unfold imported stop align
  rw [Nat.mul_comm, divRoundUp_mul hsize]

theorem BackedBlock.length_padded (hsize : 0 < blockSize) (env : Env) (bb : BackedBlock)
    : (bb.content env ++ List.replicate (align bb.len blockSize - bb.len) 0).length = align bb.len blockSize := by
  have hle := le_align hsize bb.len
  rw [List.length_append, List.length_replicate, length_content]
  omega

theorem BackedBlock.payload_chunk {bb : BackedBlock} (hfill : bb.backing.fillVal = none) (env : Env) (blockSize : Nat)
    : (bb.chunk env blockSize).payload = bb.content env ++ List.replicate (align bb.len blockSize - bb.len) 0 := by
  unfold chunk
  rw [hfill]
  rfl

theorem BackedBlock.blocks_chunk (hsize : 0 < blockSize) (env : Env) (bb : BackedBlock)
    : (bb.chunk env blockSize).blocks blockSize = divRoundUp bb.len blockSize := by
  unfold chunk
  split
  . rfl
  . rw [Chunk.blocks, length_padded hsize, align_div hsize]

theorem BackedBlock.imported_chunk (hsize : 0 < blockSize) (env : Env) (bb : BackedBlock) (off : Nat)
    : (bb.chunk env blockSize).imported blockSize num off bb.block = [bb.imported blockSize num off] := by
  unfold chunk imported
  cases bb.backing.fillVal with
  | some val =>
    dsimp only
    rw [Chunk.imported, align, Nat.mul_comm]
  | none =>
    dsimp only
    rw [Chunk.imported, length_padded hsize]

theorem importedFrom_cons (hsize : 0 < blockSize) {bb : BackedBlock} (rest : List BackedBlock) (hle : last ≤ bb.block)
    : ∃ before, chunkHeaderLen ≤ List.length before
      ∧ ((chunksFrom env blockSize last (bb :: rest)).flatMap fun c => c.bytes blockSize)
          = before ++ ((bb.chunk env blockSize).payload
            ++ (chunksFrom env blockSize (bb.stop blockSize) rest).flatMap fun c => c.bytes blockSize)
      ∧ importedFrom blockSize num pos last (chunksFrom env blockSize last (bb :: rest))
          = bb.imported blockSize num (pos + before.length)
            :: importedFrom blockSize num (pos + before.length + (bb.chunk env blockSize).payload.length)
                (bb.stop blockSize) (chunksFrom env blockSize (bb.stop blockSize) rest) := by
  have hchunk (pos : Nat) (cs : List Chunk)
      : importedFrom blockSize num pos bb.block (bb.chunk env blockSize :: cs)
        = bb.imported blockSize num (pos + chunkHeaderLen)
          :: importedFrom blockSize num (pos + chunkHeaderLen + (bb.chunk env blockSize).payload.length)
              (bb.stop blockSize) cs := by
    rw [importedFrom, BackedBlock.imported_chunk num hsize, BackedBlock.blocks_chunk hsize, Chunk.length_bytes,
      ← BackedBlock.stop, ← Nat.add_assoc]
    rfl
  rw [chunksFrom]
  split
  . refine ⟨(Chunk.skip (bb.block - last)).bytes blockSize ++ ((bb.chunk env blockSize).header blockSize).bytes, ?_, ?_, ?_⟩
    . rw [List.length_append, ChunkHeader.length_bytes]
      omega
    . simp [Chunk.bytes]
    . have hcur : last + (Chunk.skip (bb.block - last)).blocks blockSize = bb.block := Nat.add_sub_of_le hle
      rw [List.singleton_append, importedFrom, hcur, hchunk, List.length_append, ChunkHeader.length_bytes, ← Nat.add_assoc]
      rfl
  . have hcur : last = bb.block := by omega
    refine ⟨((bb.chunk env blockSize).header blockSize).bytes, ?_, ?_, ?_⟩
    . rw [ChunkHeader.length_bytes]
    . simp [Chunk.bytes]
    . rw [List.nil_append, hcur, hchunk, ChunkHeader.length_bytes]

theorem imported_of_mem {env : Env} {num pos : Nat} (hsize : 0 < blockSize) {blocks : List BackedBlock} (h : InOrder blockSize blocks)
    (hlast : ∀ bb ∈ blocks, last ≤ bb.block)
    : ∀ bb' ∈ importedFrom blockSize num pos last (chunksFrom env blockSize last blocks),
        ∃ bb ∈ blocks, ∃ off, bb' = bb.imported blockSize num off ∧ pos + chunkHeaderLen ≤ off := by
  induction blocks generalizing pos last with
  | nil => simp [chunksFrom, importedFrom]
  | cons bb rest ih =>
    obtain ⟨_, hrest, hstop⟩ := Ordered.cons_iff.mp h
    obtain ⟨before, hbefore, _, himported⟩ := importedFrom_cons env num pos hsize rest
      (hlast bb List.mem_cons_self)
    rw [himported]
    intro bb' hbb'
    cases List.mem_cons.mp hbb' with
    | inl heq => exact ⟨bb, List.mem_cons_self, _, heq, by omega⟩
    | inr hmem =>
      obtain ⟨old, hold, off, heq, hoff⟩ := ih hrest hstop bb' hmem
      exact ⟨old, List.mem_cons_of_mem bb hold, off, heq, by omega⟩

/-- Fills of one value do not stand side by side; they would be merged when they are read. -/
def FillsApart (blockSize : Nat) (blocks : List BackedBlock) : Prop :=
  ∀ a ∈ blocks, ∀ b ∈ blocks, ∀ val, a.backing.fillVal = some val → b.backing.fillVal = some val → a.stop blockSize ≠ b.block

theorem not_joins_imported (hsize : 0 < blockSize) {a b : BackedBlock} {off off' : Nat} (hab : a.stop blockSize ≤ b.block)
    (hproper : b.block < b.stop blockSize) (hstop : a.stop blockSize < 2 ^ 32) (hstop' : b.stop blockSize < 2 ^ 32)
    (hfill : ∀ val, a.backing.fillVal = some val → b.backing.fillVal = some val → a.stop blockSize ≠ b.block)
    (hoff : a.backing.fillVal = none → off + align a.len blockSize < off')
    : ¬Joins blockSize (a.imported blockSize num off) (b.imported blockSize num off')
      ∧ ¬Joins blockSize (b.imported blockSize num off') (a.imported blockSize num off) := by
  have hplace (bb : BackedBlock) (off : Nat) (hlt : bb.stop blockSize < 2 ^ 32)
      : u32 ((bb.imported blockSize num off).block + (bb.imported blockSize num off).len / blockSize)
        = bb.stop blockSize := by
    unfold BackedBlock.imported
    dsimp only
    rw [align_div hsize, ← BackedBlock.stop, u32_of_lt hlt]
  constructor
  . rintro ⟨hblock, hcontinues⟩
    rw [hplace a off hstop] at hblock
    unfold BackedBlock.imported at hcontinues
    cases ha : a.backing.fillVal with
    | some val =>
      cases hb : b.backing.fillVal with
      | some val' =>
        simp only [ha, hb, Backing.continues, decide_eq_true_eq] at hcontinues
        exact hfill val ha (hcontinues ▸ hb) hblock
      | none => simp [ha, hb, Backing.continues] at hcontinues
    | none =>
      cases hb : b.backing.fillVal with
      | some val' => simp [ha, hb, Backing.continues] at hcontinues
      | none =>
        simp only [ha, hb, Backing.continues, decide_eq_true_eq] at hcontinues
        have hlt := hoff ha
        omega
  . rintro ⟨hblock, _⟩
    rw [hplace b off' hstop'] at hblock
    have hle : a.block ≤ a.stop blockSize := Nat.le_add_right _ _
    have hsame : (a.imported blockSize num off).block = a.block := rfl
    omega

theorem FillsApart.tail {bb : BackedBlock} {rest : List BackedBlock} (h : FillsApart blockSize (bb :: rest))
    : FillsApart blockSize rest := by
  intro a ha b hb
  exact h a (List.mem_cons_of_mem bb ha) b (List.mem_cons_of_mem bb hb)

theorem loose_imported (hsize : 0 < blockSize) {blocks : List BackedBlock} (h : InOrder blockSize blocks)
    (hlast : ∀ bb ∈ blocks, last ≤ bb.block) (hstop : ∀ bb ∈ blocks, bb.stop blockSize < 2 ^ 32)
    (hfills : FillsApart blockSize blocks)
    : Loose blockSize (importedFrom blockSize num pos last (chunksFrom env blockSize last blocks)) := by
  induction blocks generalizing pos last with
  | nil => exact List.Pairwise.nil
  | cons bb rest ih =>
    obtain ⟨_, hrest, hbehind⟩ := Ordered.cons_iff.mp h
    obtain ⟨before, _, _, himported⟩ := importedFrom_cons env num pos hsize rest
      (hlast bb List.mem_cons_self)
    rw [List.forall_mem_cons] at hstop
    rw [himported]
    refine List.pairwise_cons.mpr ⟨?_, ih _ hrest hbehind hstop.2 hfills.tail⟩
    intro bb' hbb'
    obtain ⟨old, hold, off, rfl, hoff⟩ := imported_of_mem hsize hrest hbehind bb' hbb'
    apply not_joins_imported num hsize (hbehind old hold) (hrest.proper old hold) hstop.1 (hstop.2 old hold)
    . intro val
      exact hfills bb List.mem_cons_self old (List.mem_cons_of_mem bb hold) val
    . intro hfill
      rw [BackedBlock.payload_chunk hfill, BackedBlock.length_padded hsize] at hoff
      unfold chunkHeaderLen at hoff
      omega

theorem inOrder_imported (hsize : 0 < blockSize) {blocks : List BackedBlock} (h : InOrder blockSize blocks)
    (hlast : ∀ bb ∈ blocks, last ≤ bb.block)
    : InOrder blockSize (importedFrom blockSize num pos last (chunksFrom env blockSize last blocks)) := by
  induction blocks generalizing pos last with
  | nil => exact Ordered.nil
  | cons bb rest ih =>
    obtain ⟨hproper, hrest, hbehind⟩ := Ordered.cons_iff.mp h
    obtain ⟨before, _, _, himported⟩ := importedFrom_cons env num pos hsize rest
      (hlast bb List.mem_cons_self)
    have hstop := BackedBlock.stop_imported hsize num (pos + before.length) bb
    rw [himported]
    refine Ordered.cons_iff.mpr ⟨?_, ih _ hrest hbehind, ?_⟩
    . rw [hstop]
      exact hproper
    . intro bb' hbb'
      obtain ⟨old, hold, off, rfl, _⟩ := imported_of_mem hsize hrest hbehind bb' hbb'
      rw [hstop]
      exact hbehind old hold

theorem separate_imported (hsize : 0 < blockSize) {blocks : List BackedBlock} (h : InOrder blockSize blocks)
    (hlast : ∀ bb ∈ blocks, last ≤ bb.block) (hstop : ∀ bb ∈ blocks, bb.stop blockSize < 2 ^ 32)
    (hfills : FillsApart blockSize blocks)
    : Separate blockSize (importedFrom blockSize num pos last (chunksFrom env blockSize last blocks)) := by
  refine ⟨?_, .inl (loose_imported env num pos hsize h hlast hstop hfills), ?_⟩
  . intro bb' hbb'
    obtain ⟨bb, hbb, off, rfl, _⟩ := imported_of_mem hsize h hlast bb' hbb'
    have hproper := h.proper bb hbb
    have hlt := hstop bb hbb
    refine ⟨Nat.mul_pos hsize ?_, Nat.lt_trans hproper hlt⟩
    unfold BackedBlock.stop at hproper
    omega
  . exact (inOrder_imported env num pos hsize h hlast).pairwise.imp Or.inl

/-! ### The image -/

theorem byteAt_imported (hsize : 0 < blockSize) {bb : BackedBlock} {off : Nat}
    (hbytes : Bytes.slice (env'.fds num) off (bb.chunk env blockSize).payload.length = (bb.chunk env blockSize).payload)
    (p : Nat)
    : (bb.imported blockSize num off).byteAt env' blockSize p = bb.paddedAt env blockSize p := by
  have hstop : bb.block * blockSize + align bb.len blockSize = bb.stop blockSize * blockSize := by
    unfold align BackedBlock.stop
    rw [Nat.add_mul, Nat.mul_comm blockSize]
  unfold BackedBlock.byteAt BackedBlock.paddedAt
  have hblock : (bb.imported blockSize num off).block = bb.block := rfl
  have hlen : (bb.imported blockSize num off).len = align bb.len blockSize := rfl
  rw [hblock, hlen, hstop]
  split
  . next hin =>
    unfold BackedBlock.imported
    cases hfill : bb.backing.fillVal with
    | some val => rfl
    | none =>
      rw [BackedBlock.payload_chunk hfill, BackedBlock.length_padded hsize] at hbytes
      have hi : p - bb.block * blockSize < align bb.len blockSize := by omega
      generalize p - bb.block * blockSize = i at hi ⊢
      have hbyte := Bytes.slice_getElem? (env'.fds num) off hi
      rw [hbytes, List.getElem?_append, bb.length_content env] at hbyte
      dsimp only [Backing.byte]
      rw [← hbyte]
      split
      . next hlt =>
        rw [BackedBlock.content, Bytes.slice_getElem? _ _ hlt, Nat.zero_add]
        rfl
      . rw [List.getElem?_replicate, if_pos (by omega)]
  . rfl

theorem holds_imported (hsize : 0 < blockSize) {blocks : List BackedBlock} (h : InOrder blockSize blocks)
    (hlast : ∀ bb ∈ blocks, last ≤ bb.block)
    (hbytes : Bytes.slice (env'.fds num) pos
        ((chunksFrom env blockSize last blocks).flatMap fun c => c.bytes blockSize).length
      = (chunksFrom env blockSize last blocks).flatMap fun c => c.bytes blockSize)
    (p : Nat) (byte : UInt8)
    : Holds env' blockSize (importedFrom blockSize num pos last (chunksFrom env blockSize last blocks)) p byte
        ↔ ∃ bb ∈ blocks, bb.paddedAt env blockSize p = some byte := by
  induction blocks generalizing pos last with
  | nil => simp [chunksFrom, importedFrom, Holds]
  | cons bb rest ih =>
    obtain ⟨_, hrest, hbehind⟩ := Ordered.cons_iff.mp h
    obtain ⟨before, _, hsplit, himported⟩ := importedFrom_cons env num pos hsize rest
      (hlast bb List.mem_cons_self)
    rw [hsplit] at hbytes
    obtain ⟨_, htail⟩ := Bytes.slice_of_append hbytes
    obtain ⟨hpayload, hothers⟩ := Bytes.slice_of_append htail
    rw [himported, holds_cons, byteAt_imported env num hsize hpayload, ih _ hrest hbehind hothers]
    simp only [List.mem_cons, exists_eq_or_imp]

/-! ### The file -/

theorem BackedBlock.small_chunk (hsize : 0 < blockSize) {bb : BackedBlock} (hfits : bb.Fits blockSize)
    (hstop : bb.stop blockSize < 2 ^ 31) (env : Env) : (bb.chunk env blockSize).Small blockSize := by
  have hblocks := bb.blocks_chunk hsize env
  unfold Fits at hfits
  refine ⟨?_, ?_, ?_⟩
  . unfold stop at hstop
    omega
  . intro data hdata
    unfold chunk at hdata
    split at hdata
    . cases hdata
    . injection hdata with hdata
      rw [← hdata, length_padded hsize]
      exact ⟨Nat.dvd_mul_right _ _, by omega⟩
  . intro val n hfill
    unfold chunk at hfill
    split at hfill
    . injection hfill with _ hn
      rw [← hn, Nat.mul_comm, ← align]
      unfold chunkHeaderLen at hfits
      omega
    . cases hfill

theorem Chunk.small_skip {n : Nat} (h : n < 2 ^ 31) (blockSize : Nat) : (Chunk.skip n).Small blockSize := by
  refine ⟨h, ?_, ?_⟩
  . intro data hdata
    cases hdata
  . intro val n hfill
    cases hfill

theorem small_chunksFrom (hsize : 0 < blockSize) {blocks : List BackedBlock} (hfits : ∀ bb ∈ blocks, bb.Fits blockSize)
    (hstop : ∀ bb ∈ blocks, bb.stop blockSize < 2 ^ 31)
    : ∀ c ∈ chunksFrom env blockSize last blocks, c.Small blockSize := by
  induction blocks generalizing last with
  | nil => simp [chunksFrom]
  | cons bb rest ih =>
    rw [List.forall_mem_cons] at hfits hstop
    have hblock : bb.block ≤ bb.stop blockSize := Nat.le_add_right _ _
    rw [chunksFrom]
    intro c hc
    cases List.mem_append.mp hc with
    | inl hskip =>
      split at hskip
      . rw [List.mem_singleton.mp hskip]
        exact Chunk.small_skip (by omega) blockSize
      . cases hskip
    | inr hmem =>
      cases List.mem_cons.mp hmem with
      | inl heq =>
        rw [heq]
        exact BackedBlock.small_chunk hsize hfits.1 hstop.1 env
      | inr hrest => exact ih hfits.2 hstop.2 c hrest

theorem sum_chunksFrom (hsize : 0 < blockSize) {blocks : List BackedBlock} (h : InOrder blockSize blocks)
    (hlast : ∀ bb ∈ blocks, last ≤ bb.block)
    : last + ((chunksFrom env blockSize last blocks).map fun c => c.blocks blockSize).sum
        = lastStop blockSize last blocks := by
  induction blocks generalizing last with
  | nil => rfl
  | cons bb rest ih =>
    obtain ⟨_, hrest, hbehind⟩ := Ordered.cons_iff.mp h
    have hle := hlast bb List.mem_cons_self
    have hsum := ih hrest hbehind
    rw [chunksFrom, lastStop, List.map_append, List.sum_append, List.map_cons, List.sum_cons,
      BackedBlock.blocks_chunk hsize, ← hsum, BackedBlock.stop]
    split
    . simp [Chunk.blocks]
      omega
    . simp
      omega

variable {s : SparseFile}

theorem SparseFile.Writable.small_chunks (h : s.Writable) : ∀ c ∈ s.chunks env, c.Small s.blockSize := by
  have htotal := h.total_lt
  intro c hc
  cases List.mem_append.mp hc with
  | inl hmem =>
    refine small_chunksFrom env h.size_pos h.fits ?_ c hmem
    intro bb hbb
    exact Nat.lt_of_le_of_lt (h.stop_le bb hbb) htotal
  | inr hskip =>
    split at hskip
    . rw [List.mem_singleton.mp hskip]
      exact Chunk.small_skip (by omega) s.blockSize
    . cases hskip

theorem SparseFile.Writable.sum_chunks (h : s.Writable)
    : ((s.chunks env).map fun c => c.blocks s.blockSize).sum = s.len / s.blockSize := by
  have hsum := sum_chunksFrom env h.size_pos h.inOrder fun _ _ => Nat.zero_le _
  have hlast : lastStop s.blockSize 0 s.blocks.dataBlocks ≤ s.len / s.blockSize := lastStop_le (Nat.zero_le _) h.stop_le
  unfold chunks
  rw [List.map_append, List.sum_append]
  split
  . rw [List.map_singleton, List.sum_singleton, Chunk.blocks]
    omega
  . rw [List.map_nil, List.sum_nil]
    omega

theorem importedFrom_append (num pos cur : Nat) (cs ds : List Chunk)
    : importedFrom blockSize num pos cur (cs ++ ds)
        = importedFrom blockSize num pos cur cs
          ++ importedFrom blockSize num (pos + (cs.flatMap fun c => c.bytes blockSize).length)
              (cur + (cs.map fun c => c.blocks blockSize).sum) ds := by
  induction cs generalizing pos cur with
  | nil => rfl
  | cons c cs ih =>
    rw [List.cons_append, importedFrom, importedFrom, ih, List.append_assoc, List.flatMap_cons, List.length_append,
      List.map_cons, List.sum_cons, Nat.add_assoc, Nat.add_assoc]

theorem importedFrom_chunks (s : SparseFile) (num pos : Nat)
    : importedFrom s.blockSize num pos 0 (s.chunks env)
        = importedFrom s.blockSize num pos 0 (chunksFrom env s.blockSize 0 s.blocks.dataBlocks) := by
  unfold SparseFile.chunks
  dsimp only
  rw [importedFrom_append]
  split
  . exact List.append_nil _
  . exact List.append_nil _

theorem SparseFile.Writable.small_header (h : s.Writable) {n : Nat} (hn : n < 2 ^ 32) : (s.header n).Small := by
  have hsize := h.size_lt
  have htotal := h.total_lt
  constructor
  all_goals simp only [header, sparseHeaderMagic, sparseHeaderMajorVer, sparseHeaderMinorVer, sparseHeaderLen,
    chunkHeaderLen]
  all_goals omega

theorem sparseFileImport_header (h : s.Writable) {n : Nat} (hn : n < 2 ^ 32) (body : Bytes) (crc : Bool)
    (mem : Nat → Bool)
    : sparseFileImport tab ⟨num, (s.header n).bytes ++ body, 0⟩ crc mem = do
        match ← readChunks tab chunkHeaderLen mem n 0
          ⟨sparseFileNew s.blockSize s.len, ⟨num, (s.header n).bytes ++ body, sparseHeaderLen⟩,
            if crc then some 0 else none⟩ with
        | none => return none
        | some (curBlock, r) => return if s.len / s.blockSize = curBlock then some r.s else none := by
  have hrest : Source.Rest ⟨num, (s.header n).bytes ++ body, 0⟩ ((s.header n).bytes ++ body) := ⟨Nat.zero_le _, rfl⟩
  have hread := readAll_rest hrest
  rw [SparseHeader.length_bytes] at hread
  have hlen : (s.header n).totalBlks * (s.header n).blkSz = s.len := Nat.div_mul_cancel h.size_dvd
  have hvalid : (s.header n).valid = true := by
    simp [SparseHeader.valid, SparseFile.header]
  unfold sparseFileImport sparseFileReadSparse
  rw [hread]
  dsimp only [Source.seek]
  rw [SparseHeader.ofBytes_bytes (h.small_header hn), hvalid, hlen, hread]
  dsimp only [Source.seek]
  rw [SparseHeader.ofBytes_bytes (h.small_header hn), hvalid]
  rfl

/-- The checksum is written as it is read, but for what is skipped and for fills of more than one block. -/
def Chunk.Summed : Chunk → Prop
  | raw _ => True
  | fill _ n => n = 1
  | skip _ => False

theorem Chunk.crcOut_eq (hfour : 4 ∣ blockSize) {c : Chunk} (h : c.Summed) (crc : UInt32)
    : c.crcOut blockSize tab crc = sparseCrc32 tab crc (c.content blockSize) := by
  cases c with
  | raw data => rfl
  | fill val n =>
    rw [crcOut, content, flatten_fillWord, Nat.div_mul_cancel hfour, h, Nat.one_mul]
  | skip n => exact absurd h id

theorem foldl_crcOut (hfour : 4 ∣ blockSize) {cs : List Chunk} (h : ∀ c ∈ cs, c.Summed) (crc : UInt32)
    : cs.foldl (fun crc c => c.crcOut blockSize tab crc) crc
        = sparseCrc32 tab crc (cs.flatMap fun c => c.content blockSize) := by
  induction cs generalizing crc with
  | nil => exact (sparseCrc32_nil crc).symm
  | cons c cs ih =>
    rw [List.forall_mem_cons] at h
    rw [List.foldl_cons, ih h.2, Chunk.crcOut_eq tab hfour h.1, sparseCrc32_append, List.flatMap_cons]

theorem readChunks_crc {r : Reading} {crc : UInt32} {cur : Nat} (hcrc : r.crc32 = some crc)
    (hrest : r.src.Rest (crcHeader.bytes ++ fillWord crc)) (hcur : cur < 2 ^ 32) (mem : Nat → Bool)
    : ∃ r', readChunks tab chunkHeaderLen mem 1 cur r = .ok (some (cur, r')) ∧ r'.s = r.s := by
  have hread := readAll_rest hrest
  have hpayload := hrest.seek
  rw [ChunkHeader.length_bytes] at hread hpayload
  rw [← List.append_nil (fillWord crc)] at hpayload
  have hread' : readAll (r.src.seek chunkHeaderLen) 4 = some (fillWord crc, (r.src.seek chunkHeaderLen).seek 4) :=
    readAll_rest hpayload
  have hheader : ChunkHeader.ofBytes crcHeader.bytes = crcHeader := by
    apply ChunkHeader.ofBytes_bytes
    all_goals decide
  have htotal : u32 (crcHeader.totalSz + (2 ^ 32 - chunkHeaderLen)) = 4 := rfl
  refine ⟨{ r with src := (r.src.seek chunkHeaderLen).seek 4 }, ?_, rfl⟩
  rw [readChunks, hread]
  dsimp only
  rw [if_neg (Nat.lt_irrefl _), hheader]
  unfold processChunk
  dsimp only
  rw [htotal, if_neg (by decide), if_neg (by decide), if_neg (by decide), if_pos (by decide)]
  unfold processCrc32Chunk
  dsimp only
  rw [hcrc]
  dsimp only
  rw [if_neg (by decide), hread']
  dsimp only
  rw [ofLe_fillWord, if_pos rfl]
  dsimp only [bind, Except.bind, pure, Except.pure, Option.map_some]
  rw [readChunks, Nat.add_zero, u32_of_lt hcur]
  rfl

theorem sparseFileImport_format (h : s.Writable) (hfour : 4 ∣ s.blockSize)
    (hfills : FillsApart s.blockSize s.blocks.dataBlocks) {crc : Bool}
    (hcrc : crc = true → ∀ c ∈ s.chunks env, c.Summed) (mem : Nat → Bool) (hmem : ∀ i, mem i = true)
    : ∃ s', sparseFileImport tab ⟨num, s.format tab env crc, 0⟩ crc mem = .ok (some s')
        ∧ s'.blockSize = s.blockSize ∧ s'.len = s.len
        ∧ Added s.blockSize (importedFrom s.blockSize num sparseHeaderLen 0
            (chunksFrom env s.blockSize 0 s.blocks.dataBlocks)).reverse s'.blocks := by
  have hlength := h.length_chunks_le env
  have htotal := h.total_lt
  have hcount : (s.chunks env).length + crc.toNat < 2 ^ 32 := by
    have := crc.toNat_le
    omega
  unfold SparseFile.format
  rw [List.append_assoc, sparseFileImport_header tab num h hcount]
  generalize hbody : (s.header ((s.chunks env).length + crc.toNat)).bytes ++ (((s.chunks env).flatMap fun c =>
    c.bytes s.blockSize) ++ if crc then crcBytes tab s.blockSize (s.chunks env) else []) = file
  have hrest : Source.Rest ⟨num, file, sparseHeaderLen⟩ (((s.chunks env).flatMap fun c => c.bytes s.blockSize)
      ++ if crc then crcBytes tab s.blockSize (s.chunks env) else []) := by
    have hstart : Source.Rest ⟨num, file, 0⟩ _ := ⟨Nat.zero_le _, hbody.symm⟩
    have hseek := hstart.seek
    rwa [SparseHeader.length_bytes] at hseek
  have hreverse := importedFrom_chunks env s num sparseHeaderLen
  have hseparate := (separate_imported env num sparseHeaderLen h.size_pos h.inOrder
    (fun _ _ => Nat.zero_le _) h.stop_lt hfills).reverse
  have hloose := (loose_imported env num sparseHeaderLen h.size_pos h.inOrder
    (fun _ _ => Nat.zero_le _) h.stop_lt hfills).perm (List.reverse_perm _).symm
  rw [← hreverse] at hseparate hloose
  obtain ⟨r, hread, hreads, hadded⟩ := readChunks_eq tab (n := crc.toNat)
    (r := ⟨sparseFileNew s.blockSize s.len, ⟨num, file, sparseHeaderLen⟩, if crc then some 0 else none⟩)
    h.size_pos hfour 0 (h.small_chunks env) rfl (added_new s.blockSize) (by rwa [List.append_nil]) (by rwa [List.append_nil])
    hrest (by rw [h.sum_chunks env]; omega) hmem
  rw [List.append_nil, hreverse] at hadded
  rw [h.sum_chunks env, Nat.zero_add, Nat.add_comm crc.toNat] at hread
  rw [hread]
  have hend : ∃ r', readChunks tab chunkHeaderLen mem crc.toNat (s.len / s.blockSize) r
      = .ok (some (s.len / s.blockSize, r')) ∧ r'.s = r.s := by
    cases crc with
    | false => exact ⟨r, rfl, rfl⟩
    | true =>
      have hsum := hreads.crc32
      have htail := hrest.seek
      rw [← hreads.src] at htail
      rw [crcBytes, foldl_crcOut tab hfour (hcrc rfl)] at htail
      exact readChunks_crc tab hsum htail (by omega) mem
  obtain ⟨r', hlast, hs⟩ := hend
  rw [hlast]
  refine ⟨r'.s, ?_, ?_, ?_, ?_⟩
  . dsimp only [bind, Except.bind]
    rw [if_pos rfl]
    rfl
  . rw [hs, hreads.s]
    rfl
  . rw [hs, hreads.s]
    rfl
  . rwa [hs]

abbrev SparseFile.importedBlocks (env : Env) (s : SparseFile) (num : Nat) : List BackedBlock :=
  importedFrom s.blockSize num sparseHeaderLen 0 (chunksFrom env s.blockSize 0 s.blocks.dataBlocks)

theorem holds_importedBlocks (h : s.Writable) {crc : Bool}
    (hfd : Bytes.slice (env'.fds num) 0 (s.format tab env crc).length = s.format tab env crc) (p : Nat) (byte : UInt8)
    : Holds env' s.blockSize (s.importedBlocks env num) p byte
        ↔ ∃ bb ∈ s.blocks.dataBlocks, bb.paddedAt env s.blockSize p = some byte := by
  apply holds_imported env num sparseHeaderLen h.size_pos h.inOrder fun _ _ => Nat.zero_le _
  unfold SparseFile.format SparseFile.chunks at hfd
  rw [List.append_assoc, List.flatMap_append, List.append_assoc] at hfd
  obtain ⟨_, hbody⟩ := Bytes.slice_of_append hfd
  obtain ⟨hchunks, _⟩ := Bytes.slice_of_append hbody
  rwa [SparseHeader.length_bytes, Nat.zero_add] at hchunks

theorem writable_import {s' : SparseFile} (h : s.Writable) (hfills : FillsApart s.blockSize s.blocks.dataBlocks)
    (hsize : s'.blockSize = s.blockSize) (hlen : s'.len = s.len)
    (hadded : Added s.blockSize (s.importedBlocks env num).reverse s'.blocks) : s'.Writable ∧ s'.FillsWhole := by
  have hloose := (loose_imported env num sparseHeaderLen h.size_pos h.inOrder
    (fun _ _ => Nat.zero_le _) h.stop_lt hfills).perm (List.reverse_perm _).symm
  have hperm := (hadded.loose hloose).1.trans (List.reverse_perm _)
  have hfrom : ∀ bb' ∈ s'.blocks.dataBlocks, ∃ bb ∈ s.blocks.dataBlocks, ∃ off, bb' = bb.imported s.blockSize num off := by
    intro bb' hbb'
    obtain ⟨bb, hbb, off, heq, _⟩ := imported_of_mem h.size_pos h.inOrder (fun _ _ => Nat.zero_le _) bb'
      (hperm.mem_iff.mp hbb')
    exact ⟨bb, hbb, off, heq⟩
  constructor
  . constructor
    . rw [hsize]
      exact h.size_pos
    . rw [hsize]
      exact h.size_lt
    . rw [hsize, hlen]
      exact h.size_dvd
    . rw [hsize, hlen]
      exact h.total_lt
    . rw [hsize]
      exact hadded.good.inOrder
    . intro bb' hbb'
      obtain ⟨bb, hbb, off, rfl⟩ := hfrom bb' hbb'
      have halign : align (align bb.len s.blockSize) s.blockSize = align bb.len s.blockSize := by
        rw [align, align, Nat.mul_comm s.blockSize (divRoundUp bb.len s.blockSize), divRoundUp_mul h.size_pos]
        rw [Nat.mul_comm]
      rw [hsize]
      unfold BackedBlock.Fits
      rw [BackedBlock.imported, halign]
      exact h.fits bb hbb
    . intro bb' hbb'
      obtain ⟨bb, hbb, off, rfl⟩ := hfrom bb' hbb'
      rw [hsize, hlen, BackedBlock.stop_imported h.size_pos]
      exact h.stop_le bb hbb
  . intro bb' hbb' _ _
    obtain ⟨bb, hbb, off, rfl⟩ := hfrom bb' hbb'
    rw [hsize]
    exact Nat.dvd_mul_right _ _

/-! ### The two ways to an image -/

theorem paddedAt_of_byteAt (hsize : 0 < blockSize) {bb : BackedBlock} {p : Nat} {byte : UInt8}
    (h : bb.byteAt env blockSize p = some byte) : bb.paddedAt env blockSize p = some byte := by
  have hle := le_divRoundUp_mul hsize bb.len
  unfold BackedBlock.byteAt at h
  unfold BackedBlock.paddedAt
  split at h
  . next hin =>
    have hstop : p < bb.stop blockSize * blockSize := by
      unfold BackedBlock.stop
      rw [Nat.add_mul]
      omega
    rw [if_pos ⟨hin.1, hstop⟩, if_pos (by omega), ← h]
    cases bb.backing
    all_goals rfl
  . cases h

theorem backing_of_fillVal {backing : Backing} {val : UInt32} (h : backing.fillVal = some val)
    : backing = .fill val := by
  cases backing with
  | fill val' =>
    injection h with h
    rw [h]
  | _ => cases h

theorem byteAt_of_paddedAt (hsize : 0 < blockSize) {bb : BackedBlock} {p : Nat} {byte : UInt8}
    (hfill : ∀ val, bb.backing = .fill val → blockSize ∣ bb.len) (h : bb.paddedAt env blockSize p = some byte)
    : bb.byteAt env blockSize p = some byte ∨ byte = 0 := by
  unfold BackedBlock.paddedAt at h
  unfold BackedBlock.byteAt
  split at h
  . next hin =>
    cases hval : bb.backing.fillVal with
    | some val =>
      have hbacking := backing_of_fillVal hval
      have hstop : bb.stop blockSize * blockSize = bb.block * blockSize + bb.len := by
        obtain ⟨n, hn⟩ := hfill val hbacking
        rw [BackedBlock.stop, Nat.add_mul, hn, Nat.mul_comm blockSize n, divRoundUp_mul hsize]
      rw [hval] at h
      rw [if_pos ⟨hin.1, by omega⟩, hbacking]
      exact .inl h
    | none =>
      rw [hval] at h
      dsimp only at h
      split at h
      . rw [if_pos (by omega)]
        exact .inl h
      . injection h with h
        exact .inr h.symm
  . cases h

/-- Over zeros the padding does not show. -/
theorem paint_import {blocks' : List BackedBlock} (h : s.Writable) (hwhole : s.FillsWhole)
    (hinOrder : InOrder s.blockSize blocks')
    (hholds : ∀ p byte, Holds env' s.blockSize blocks' p byte
      ↔ ∃ bb ∈ s.blocks.dataBlocks, bb.paddedAt env s.blockSize p = some byte) (p : Nat)
    : paint env' s.blockSize (fun _ => 0) blocks' p = paint env s.blockSize (fun _ => 0) s.blocks.dataBlocks p := by
  have hvia := paint_spec env' s.blockSize (fun _ => 0) blocks' p
  cases paint_spec env s.blockSize (fun _ => 0) s.blocks.dataBlocks p with
  | inl hdirect =>
    obtain ⟨bb, hbb, hbyte⟩ := hdirect
    have hsame := (hholds p _).mpr ⟨bb, hbb, paddedAt_of_byteAt env h.size_pos hbyte⟩
    cases hvia with
    | inl hvia => exact holds_unique h.size_pos hinOrder hvia hsame
    | inr hnone => exact absurd hsame (hnone.1 _)
  | inr hdirect =>
    rw [hdirect.2]
    cases hvia with
    | inl hvia =>
      obtain ⟨bb, hbb, hbyte⟩ := (hholds p _).mp hvia
      cases byteAt_of_paddedAt env h.size_pos (hwhole bb hbb) hbyte with
      | inl hheld => exact absurd ⟨bb, hbb, hheld⟩ (hdirect.1 _)
      | inr hzero => exact hzero
    | inr hnone => exact hnone.2

def denseFile : SparseFile :=
  ⟨4, 8, ⟨[⟨0, 3, .data 100⟩, ⟨1, 4, .fill 7⟩], .null, 4⟩⟩

def fives : Env :=
  ⟨fun _ => 5, fun _ _ => 0, fun _ _ => 0⟩

theorem writable_denseFile : denseFile.Writable where
  size_pos := by decide
  size_lt := by decide
  size_dvd := by decide
  total_lt := by decide
  inOrder := ⟨by decide, by decide⟩
  fits := by
    unfold BackedBlock.Fits
    decide
  stop_le := by decide

theorem fillsApart_denseFile : FillsApart denseFile.blockSize denseFile.blocks.dataBlocks := by
  have hall : ∀ a ∈ denseFile.blocks.dataBlocks, ∀ b ∈ denseFile.blocks.dataBlocks,
      a.backing.fillVal = b.backing.fillVal → a.stop denseFile.blockSize ≠ b.block := by decide
  intro a ha b hb val hval hval'
  exact hall a ha b hb (hval.trans hval'.symm)

theorem summed_denseFile : ∀ c ∈ denseFile.chunks fives, c.Summed := by
  have hchunks : denseFile.chunks fives = [.raw [5, 5, 5, 0], .fill 7 1] := by decide
  rw [hchunks]
  simp [Chunk.Summed]

end Sparse
