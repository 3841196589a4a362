import Tboot.Sparse.Impl.Read
import Tboot.Sparse.Lemmas.Write

/-!
This module contains the proofs about reading chunks back: each is taken for what it was written for, whatever is
behind it.
-/

namespace Sparse

open Spans

variable (tab : UInt32 → UInt32)

/-! ### The source -/

structure Source.Rest (src : Source) (rest : Bytes) : Prop where
  pos_le : src.pos ≤ src.file.length
  eq : src.file.drop src.pos = rest

theorem Source.Rest.seek {src : Source} {a b : Bytes} (h : src.Rest (a ++ b)) : (src.seek a.length).Rest b := by
  have hlength := congrArg List.length h.eq
  rw [List.length_drop, List.length_append] at hlength
  refine ⟨?_, ?_⟩
  . have hle := h.pos_le
    unfold Source.seek
    dsimp only
    omega
  . unfold Source.seek
    rw [← List.drop_drop, h.eq, List.drop_left]

theorem readAll_rest {src : Source} {a b : Bytes} (h : src.Rest (a ++ b))
    : readAll src a.length = some (a, src.seek a.length) := by
  have hlength := congrArg List.length h.eq
  rw [List.length_drop, List.length_append] at hlength
  unfold readAll
  split
  . next hzero =>
    rw [List.eq_nil_of_length_eq_zero hzero]
    rfl
  . rw [if_pos (by omega), h.eq, List.take_left]
    rfl

theorem seek_seek (src : Source) (n m : Nat) : (src.seek n).seek m = src.seek (n + m) := by
  unfold Source.seek
  rw [Nat.add_assoc]

/-! ### Headers -/

theorem ChunkHeader.length_bytes (h : ChunkHeader) : h.bytes.length = chunkHeaderLen := by
  simp [bytes, chunkHeaderLen]

theorem SparseHeader.length_bytes (h : SparseHeader) : h.bytes.length = sparseHeaderLen := by
  simp [bytes, sparseHeaderLen]

theorem ChunkHeader.ofBytes_bytes {h : ChunkHeader} (htype : h.chunkType < 256 ^ 2) (hreserved : h.reserved1 < 256 ^ 2)
    (hchunk : h.chunkSz < 256 ^ 4) (htotal : h.totalSz < 256 ^ 4) : ofBytes h.bytes = h := by
  unfold ofBytes bytes
  simp only [List.append_assoc, List.take_append, List.drop_append, Bytes.le_length, List.take_of_length_le,
    List.drop_of_length_le, Nat.le_refl, Nat.reduceLeDiff, Nat.reduceSub, List.take_zero, List.drop_zero, List.nil_append,
    List.append_nil, Bytes.ofLe_le]
  rw [Nat.mod_eq_of_lt htype, Nat.mod_eq_of_lt hreserved, Nat.mod_eq_of_lt hchunk, Nat.mod_eq_of_lt htotal]

structure SparseHeader.Small (h : SparseHeader) : Prop where
  magic : h.magic < 256 ^ 4
  majorVersion : h.majorVersion < 256 ^ 2
  minorVersion : h.minorVersion < 256 ^ 2
  fileHdrSz : h.fileHdrSz < 256 ^ 2
  chunkHdrSz : h.chunkHdrSz < 256 ^ 2
  blkSz : h.blkSz < 256 ^ 4
  totalBlks : h.totalBlks < 256 ^ 4
  totalChunks : h.totalChunks < 256 ^ 4
  imageChecksum : h.imageChecksum < 256 ^ 4

theorem SparseHeader.ofBytes_bytes {h : SparseHeader} (hsmall : h.Small) : ofBytes h.bytes = h := by
  unfold ofBytes bytes
  simp only [List.append_assoc, List.take_append, List.drop_append, Bytes.le_length, List.take_of_length_le,
    List.drop_of_length_le, Nat.le_refl, Nat.reduceLeDiff, Nat.reduceSub, List.take_zero, List.drop_zero, List.nil_append,
    List.append_nil, Bytes.ofLe_le]
  rw [Nat.mod_eq_of_lt hsmall.magic, Nat.mod_eq_of_lt hsmall.majorVersion, Nat.mod_eq_of_lt hsmall.minorVersion,
    Nat.mod_eq_of_lt hsmall.fileHdrSz, Nat.mod_eq_of_lt hsmall.chunkHdrSz, Nat.mod_eq_of_lt hsmall.blkSz,
    Nat.mod_eq_of_lt hsmall.totalBlks, Nat.mod_eq_of_lt hsmall.totalChunks, Nat.mod_eq_of_lt hsmall.imageChecksum]

theorem ofLe_fillWord (val : UInt32) : UInt32.ofNat (Bytes.ofLe (fillWord val)) = val := by
  have hlt := val.toNat_lt
  unfold fillWord
  rw [Bytes.ofLe_le, Nat.mod_eq_of_lt (by omega), UInt32.ofNat_toNat]

/-! ### The checksum -/

theorem crcFile_rest {src : Source} {a b : Bytes} (h : src.Rest (a ++ b)) (crc : UInt32) {fuel : Nat}
    (hfuel : a.length ≤ fuel)
    : crcFile tab fuel a.length crc src = some (sparseCrc32 tab crc a, src.seek a.length) := by
  induction fuel generalizing src a crc with
  | zero =>
    rw [List.eq_nil_of_length_eq_zero (Nat.le_zero.mp hfuel), sparseCrc32_nil]
    rfl
  | succ fuel ih =>
    rw [crcFile]
    split
    . next hzero =>
      rw [List.eq_nil_of_length_eq_zero hzero, sparseCrc32_nil]
      rfl
    . next hpos =>
      dsimp only
      have hsplit : a.take (min a.length copyBufSize) ++ a.drop (min a.length copyBufSize) = a := List.take_append_drop _ a
      have htake : (a.take (min a.length copyBufSize)).length = min a.length copyBufSize := by
        rw [List.length_take]
        omega
      have hdrop : (a.drop (min a.length copyBufSize)).length = a.length - min a.length copyBufSize := List.length_drop
      have hbuf : 0 < copyBufSize := by decide
      generalize a.take (min a.length copyBufSize) = part at hsplit htake
      generalize a.drop (min a.length copyBufSize) = others at hsplit hdrop
      rw [← hdrop, ← htake]
      rw [← hsplit, List.append_assoc] at h
      rw [readAll_rest h]
      dsimp only
      rw [ih h.seek _ (by omega), sparseCrc32_append, hsplit, seek_seek, ← List.length_append, hsplit]

/-- A buffer of which the bytes come again behind it -/
theorem crcCopybuf_eq {host : Nat → UInt8} (hperiod : ∀ i, host (copyBufSize + i) = host i) (crc : UInt32) {fuel len : Nat}
    (hfuel : len ≤ fuel)
    : crcCopybuf tab (Bytes.slice host 0 copyBufSize) fuel len crc = sparseCrc32 tab crc (Bytes.slice host 0 len) := by
  induction fuel generalizing len crc with
  | zero =>
    rw [Nat.le_zero.mp hfuel, Bytes.slice_zero, sparseCrc32_nil]
    rfl
  | succ fuel ih =>
    rw [crcCopybuf]
    split
    . next hzero => rw [hzero, Bytes.slice_zero, sparseCrc32_nil]
    . next hpos =>
      have hbuf : 0 < copyBufSize := by decide
      dsimp only
      rw [ih _ (by omega), sparseCrc32_append]
      congr 1
      by_cases hle : len ≤ copyBufSize
      . have htake := List.prefix_iff_eq_take.mp (Bytes.slice_prefix host 0 hle)
        rw [Bytes.slice_length] at htake
        rw [Nat.min_eq_left hle, Nat.sub_self, Bytes.slice_zero, List.append_nil, ← htake]
      . rw [Nat.min_eq_right (by omega), List.take_of_length_le (by rw [Bytes.slice_length]),
          slice_append_of_period hperiod, Nat.add_sub_cancel' (by omega)]

namespace Chunk

variable (blockSize : Nat)

def content : Chunk → Bytes
  | raw data => data
  | fill val blocks => Bytes.slice (fillByte val) 0 (blocks * blockSize)
  | skip blocks => Bytes.slice (fun _ => 0) 0 (blocks * blockSize)

def imported (num pos cur : Nat) : Chunk → List BackedBlock
  | raw data => [⟨cur, data.length, .fd num pos⟩]
  | fill val blocks => [⟨cur, blocks * blockSize, .fill val⟩]
  | skip _ => []

structure Small (c : Chunk) : Prop where
  blocks_lt : c.blocks blockSize < 2 ^ 31
  raw : ∀ data, c = raw data → blockSize ∣ data.length ∧ data.length + chunkHeaderLen < 2 ^ 32
  fill : ∀ val blocks, c = fill val blocks → blocks * blockSize < 2 ^ 32

theorem length_bytes (c : Chunk) : (c.bytes blockSize).length = chunkHeaderLen + c.payload.length := by
  rw [bytes, List.length_append, ChunkHeader.length_bytes]

theorem ofBytes_header {blockSize : Nat} {c : Chunk} (h : c.Small blockSize)
    : ChunkHeader.ofBytes (c.header blockSize).bytes = c.header blockSize := by
  have hblocks := h.blocks_lt
  cases c with
  | raw data =>
    have hraw := (h.raw data rfl).2
    rw [blocks] at hblocks
    apply ChunkHeader.ofBytes_bytes
    all_goals simp [header, chunkTypeRaw]
    . omega
    . omega
  | fill val n =>
    rw [blocks] at hblocks
    apply ChunkHeader.ofBytes_bytes
    all_goals simp [header, chunkTypeFill, chunkHeaderLen]
    omega
  | skip n =>
    rw [blocks] at hblocks
    apply ChunkHeader.ofBytes_bytes
    all_goals simp [header, chunkTypeDontCare, chunkHeaderLen]
    omega

end Chunk

/-! ### One chunk -/

/-- What has been read of the file: `n` bytes, which are for these bytes of the image -/
structure Reading.Reads (tab : UInt32 → UInt32) (r r' : Reading) (n : Nat) (content : Bytes) : Prop where
  s : r'.s = { r.s with blocks := r'.s.blocks }
  src : r'.src = r.src.seek n
  crc32 : r'.crc32 = r.crc32.map fun crc => sparseCrc32 tab crc content

theorem Reading.Reads.trans {tab : UInt32 → UInt32} {r r' r'' : Reading} {n m : Nat} {a b : Bytes} (h : r.Reads tab r' n a)
    (h' : r'.Reads tab r'' m b) : r.Reads tab r'' (n + m) (a ++ b) := by
  refine ⟨?_, ?_, ?_⟩
  . rw [h'.s, h.s]
  . rw [h'.src, h.src, seek_seek]
  . rw [h'.crc32, h.crc32, Option.map_map]
    congr 1
    funext crc
    exact sparseCrc32_append crc a b

variable {blockSize : Nat} {added : List BackedBlock} {r : Reading}

theorem Reading.add_eq (hsize : 0 < blockSize) (hfour : 4 ∣ blockSize) {backing : Backing} {len block : Nat}
    (hadded : Added blockSize added r.s.blocks) (hnew : Separate blockSize (⟨block, len, backing⟩ :: added))
    (hloose : Loose blockSize added)
    : ∃ blocks, r.add backing len block true = .ok (some { r with s := { r.s with blocks } })
        ∧ Added blockSize (⟨block, len, backing⟩ :: added) blocks := by
  have haddable : Addable blockSize added ⟨block, len, backing⟩ := 
    @Separate.addable blockSize [] added ⟨block, len, backing⟩ hnew
  cases hadded.queueBb hsize hfour haddable with
  | inl herror => exact absurd herror.2 (hadded.loose hloose).2
  | inr hok =>
    obtain ⟨blocks, hqueue, hblocks⟩ := hok
    refine ⟨blocks, ?_, hblocks⟩
    unfold add backedBlockAdd
    rw [hqueue]
    rfl

theorem processRawChunk_eq (hsize : 0 < blockSize) (hfour : 4 ∣ blockSize) {data tail : Bytes} {cur : Nat}
    (hsmall : (Chunk.raw data).Small blockSize) (hr : r.s.blockSize = blockSize)
    (hadded : Added blockSize added r.s.blocks)
    (hnew : Separate blockSize ((Chunk.raw data).imported blockSize r.src.num r.src.pos cur ++ added))
    (hloose : Loose blockSize added) (hrest : r.src.Rest (data ++ tail))
    : ∃ r', processRawChunk tab r data.length (data.length / blockSize) cur true = .ok (some r')
        ∧ r.Reads tab r' data.length data
        ∧ Added blockSize ((Chunk.raw data).imported blockSize r.src.num r.src.pos cur ++ added) r'.s.blocks := by
  obtain ⟨hdvd, hlt⟩ := hsmall.raw data rfl
  have hlen : u32 (data.length / blockSize * blockSize) = data.length := by
    rw [Nat.div_mul_cancel hdvd, u32_of_lt (by omega)]
  obtain ⟨blocks, hadd, hblocks⟩ := Reading.add_eq hsize hfour hadded hnew hloose
  unfold processRawChunk
  rw [hr, hlen]
  dsimp only
  rw [if_neg (by omega), if_neg (by simp [Nat.mod_eq_zero_of_dvd hdvd]), hadd]
  cases hcrc : r.crc32 with
  | none =>
    refine ⟨_, rfl, ⟨rfl, rfl, ?_⟩, hblocks⟩
    rw [hcrc]
    rfl
  | some crc =>
    have hfile := crcFile_rest tab hrest crc (Nat.le_refl _)
    dsimp only [bind, Except.bind]
    rw [hfile]
    refine ⟨_, rfl, ⟨rfl, rfl, ?_⟩, hblocks⟩
    rw [hcrc]
    rfl

theorem processFillChunk_eq (hsize : 0 < blockSize) (hfour : 4 ∣ blockSize) {val : UInt32} {n : Nat} {tail : Bytes}
    {cur : Nat} (hsmall : (Chunk.fill val n).Small blockSize) (hr : r.s.blockSize = blockSize)
    (hadded : Added blockSize added r.s.blocks)
    (hnew : Separate blockSize ((Chunk.fill val n).imported blockSize r.src.num r.src.pos cur ++ added))
    (hloose : Loose blockSize added) (hrest : r.src.Rest (fillWord val ++ tail))
    : ∃ r', processFillChunk tab r 4 n cur true = .ok (some r')
        ∧ r.Reads tab r' 4 ((Chunk.fill val n).content blockSize)
        ∧ Added blockSize ((Chunk.fill val n).imported blockSize r.src.num r.src.pos cur ++ added) r'.s.blocks := by
  have hlen := u32_of_lt (hsmall.fill val n rfl)
  have hread : readAll r.src 4 = some (fillWord val, r.src.seek 4) := readAll_rest hrest
  have hcopybuf : (List.replicate (copyBufSize / 4) (fillWord val)).flatten = Bytes.slice (fillByte val) 0 copyBufSize :=
    flatten_fillWord val (copyBufSize / 4)
  obtain ⟨blocks, hadd, hblocks⟩ := Reading.add_eq (r := { r with src := r.src.seek 4 }) hsize hfour hadded hnew hloose
  unfold processFillChunk
  rw [hr]
  dsimp only
  rw [if_neg (by simp), hread]
  dsimp only
  rw [ofLe_fillWord, hlen, hadd, hcopybuf]
  refine ⟨_, rfl, ⟨rfl, rfl, ?_⟩, hblocks⟩
  dsimp only
  congr 1
  funext crc
  exact crcCopybuf_eq tab (fillByte_add val (copyBufSize / 4)) crc (Nat.le_refl _)

theorem processSkipChunk_eq (n : Nat) (hr : r.s.blockSize = blockSize)
    : ∃ r', processSkipChunk tab r 0 n = some r' ∧ r.Reads tab r' 0 ((Chunk.skip n).content blockSize)
        ∧ r'.s = r.s := by
  have hzeros : List.replicate copyBufSize (0 : UInt8) = Bytes.slice (fun _ => 0) 0 copyBufSize := by
    rw [Bytes.slice, List.map_const', List.length_range']
  unfold processSkipChunk
  rw [if_neg (by simp), hr]
  refine ⟨_, rfl, ⟨rfl, rfl, ?_⟩, rfl⟩
  dsimp only
  congr 1
  funext crc
  rw [hzeros]
  exact crcCopybuf_eq tab (fun _ => rfl) crc (Nat.le_refl _)

theorem processChunk_eq (hsize : 0 < blockSize) (hfour : 4 ∣ blockSize) {c : Chunk} {tail : Bytes} {cur : Nat}
    (hsmall : c.Small blockSize) (hr : r.s.blockSize = blockSize) (hadded : Added blockSize added r.s.blocks)
    (hnew : Separate blockSize (c.imported blockSize r.src.num r.src.pos cur ++ added)) (hloose : Loose blockSize added)
    (hrest : r.src.Rest (c.payload ++ tail))
    : ∃ r', processChunk tab r chunkHeaderLen (c.header blockSize) cur true = .ok (some (c.blocks blockSize, r'))
        ∧ r.Reads tab r' c.payload.length (c.content blockSize)
        ∧ Added blockSize (c.imported blockSize r.src.num r.src.pos cur ++ added) r'.s.blocks := by
  have hblocks := hsmall.blocks_lt
  have htotal {n : Nat} (hn : n + chunkHeaderLen < 2 ^ 32) : u32 (chunkHeaderLen + n + (2 ^ 32 - chunkHeaderLen)) = n := by
    unfold u32 chunkHeaderLen at *
    omega
  cases c with
  | raw data =>
    obtain ⟨r', hprocess, hreads, hadded'⟩ := processRawChunk_eq tab hsize hfour hsmall hr hadded hnew hloose hrest
    refine ⟨r', ?_, hreads, hadded'⟩
    rw [Chunk.blocks] at hblocks ⊢
    rw [Chunk.header]
    unfold processChunk
    dsimp only
    rw [htotal (hsmall.raw data rfl).2, if_pos rfl, hprocess]
    dsimp only [bind, Except.bind]
    rw [if_pos hblocks]
    rfl
  | fill val n =>
    obtain ⟨r', hprocess, hreads, hadded'⟩ := processFillChunk_eq tab hsize hfour hsmall hr hadded hnew hloose hrest
    refine ⟨r', ?_, hreads, hadded'⟩
    rw [Chunk.blocks] at hblocks ⊢
    rw [Chunk.header]
    unfold processChunk
    dsimp only
    rw [htotal (by decide), if_neg (by decide), if_pos rfl, hprocess]
    dsimp only [bind, Except.bind]
    rw [if_pos hblocks]
    rfl
  | skip n =>
    obtain ⟨r', hprocess, hreads, hs⟩ := processSkipChunk_eq tab n hr
    refine ⟨r', ?_, hreads, ?_⟩
    . rw [Chunk.blocks] at hblocks ⊢
      rw [Chunk.header]
      unfold processChunk
      dsimp only
      have hnone := htotal (n := 0) (by decide)
      rw [Nat.add_zero] at hnone
      rw [hnone, if_neg (by decide), if_neg (by decide), if_pos rfl, hprocess, if_pos hblocks]
      rfl
    . rw [hs]
      exact hadded

/-! ### All chunks -/

def importedFrom (blockSize num : Nat) : (pos cur : Nat) → List Chunk → List BackedBlock
  | _, _, [] => []
  | pos, cur, c :: cs =>
    c.imported blockSize num (pos + chunkHeaderLen) cur
      ++ importedFrom blockSize num (pos + (c.bytes blockSize).length) (cur + c.blocks blockSize) cs

theorem Separate.of_append {l₁ l₂ : List BackedBlock} (h : Separate blockSize (l₁ ++ l₂)) : Separate blockSize l₂ := by
  refine ⟨?_, ?_, (List.pairwise_append.mp h.apart).2.1⟩
  . intro bb hbb
    exact h.proper bb (List.mem_append_right l₁ hbb)
  . cases h.room with
    | inl hloose => exact .inl (List.pairwise_append.mp hloose).2.1
    | inr htotal =>
      right
      rw [total_append] at htotal
      omega

theorem Chunk.reverse_imported (c : Chunk) (num pos cur : Nat)
    : (c.imported blockSize num pos cur).reverse = c.imported blockSize num pos cur := by
  cases c
  all_goals rfl

theorem readChunks_succ (hsize : 0 < blockSize) (hfour : 4 ∣ blockSize) {c : Chunk} {tail : Bytes} {n cur : Nat}
    (hsmall : c.Small blockSize) (hr : r.s.blockSize = blockSize) (hadded : Added blockSize added r.s.blocks)
    (hnew : Separate blockSize (c.imported blockSize r.src.num (r.src.pos + chunkHeaderLen) cur ++ added))
    (hloose : Loose blockSize added) (hrest : r.src.Rest (c.bytes blockSize ++ tail))
    (hcur : cur + c.blocks blockSize < 2 ^ 32) {mem : Nat → Bool} (hmem : ∀ i, mem i = true)
    : ∃ r', readChunks tab chunkHeaderLen mem (n + 1) cur r
          = readChunks tab chunkHeaderLen mem n (cur + c.blocks blockSize) r'
        ∧ r.Reads tab r' (c.bytes blockSize).length (c.content blockSize)
        ∧ Added blockSize (c.imported blockSize r.src.num (r.src.pos + chunkHeaderLen) cur ++ added) r'.s.blocks := by
  rw [Chunk.bytes, List.append_assoc] at hrest
  have hread := readAll_rest hrest
  have hpayload := hrest.seek
  rw [ChunkHeader.length_bytes] at hread hpayload
  obtain ⟨r', hprocess, hreads, hadded'⟩ := processChunk_eq tab
    (r := { r with src := r.src.seek chunkHeaderLen }) hsize hfour hsmall hr hadded hnew hloose hpayload
  refine ⟨r', ?_, ?_, hadded'⟩
  . rw [readChunks, hread]
    dsimp only
    rw [if_neg (Nat.lt_irrefl _), Chunk.ofBytes_header hsmall, hmem, hprocess]
    dsimp only [bind, Except.bind]
    rw [u32_of_lt hcur]
  . refine ⟨hreads.s, ?_, hreads.crc32⟩
    rw [hreads.src, seek_seek, Chunk.length_bytes]

theorem readChunks_eq (hsize : 0 < blockSize) (hfour : 4 ∣ blockSize) {cs : List Chunk} {tail : Bytes} {n : Nat} (cur : Nat)
    (hsmall : ∀ c ∈ cs, c.Small blockSize) (hr : r.s.blockSize = blockSize) (hadded : Added blockSize added r.s.blocks)
    (hnew : Separate blockSize ((importedFrom blockSize r.src.num r.src.pos cur cs).reverse ++ added))
    (hloose : Loose blockSize ((importedFrom blockSize r.src.num r.src.pos cur cs).reverse ++ added))
    (hrest : r.src.Rest ((cs.flatMap fun c => c.bytes blockSize) ++ tail))
    (hcur : cur + (cs.map fun c => c.blocks blockSize).sum < 2 ^ 32) {mem : Nat → Bool} (hmem : ∀ i, mem i = true)
    : ∃ r', readChunks tab chunkHeaderLen mem (n + cs.length) cur r
          = readChunks tab chunkHeaderLen mem n (cur + (cs.map fun c => c.blocks blockSize).sum) r'
        ∧ r.Reads tab r' (cs.flatMap fun c => c.bytes blockSize).length (cs.flatMap fun c => c.content blockSize)
        ∧ Added blockSize ((importedFrom blockSize r.src.num r.src.pos cur cs).reverse ++ added) r'.s.blocks := by
  induction cs generalizing r added cur with
  | nil =>
    refine ⟨r, rfl, ⟨rfl, rfl, ?_⟩, hadded⟩
    simp [sparseCrc32_nil]
  | cons c cs ih =>
    rw [importedFrom, List.reverse_append, Chunk.reverse_imported, List.append_assoc] at hnew hloose ⊢
    rw [List.flatMap_cons, List.append_assoc] at hrest
    rw [List.map_cons, List.sum_cons, ← Nat.add_assoc] at hcur ⊢
    rw [List.forall_mem_cons] at hsmall
    have hold : Loose blockSize added := (List.pairwise_append.mp (List.pairwise_append.mp hloose).2.1).2.1
    obtain ⟨r₁, hread₁, hreads₁, hadded₁⟩ := readChunks_succ tab (n := n + cs.length) hsize hfour hsmall.1 hr
      hadded hnew.of_append hold hrest (by omega) hmem
    have hr₁ : r₁.s.blockSize = blockSize := by rw [hreads₁.s, hr]
    have hnum₁ : r₁.src.num = r.src.num := by rw [hreads₁.src, Source.seek]
    have hpos₁ : r₁.src.pos = r.src.pos + (c.bytes blockSize).length := by rw [hreads₁.src, Source.seek]
    have hrest₁ := hrest.seek
    rw [← hreads₁.src] at hrest₁
    obtain ⟨r₂, hread₂, hreads₂, hadded₂⟩ := ih _ hsmall.2 hr₁ hadded₁ (by rwa [hnum₁, hpos₁]) (by rwa [hnum₁, hpos₁])
      hrest₁ hcur
    rw [hnum₁, hpos₁] at hadded₂
    refine ⟨r₂, ?_, ?_, hadded₂⟩
    . rw [List.length_cons, ← Nat.add_assoc, hread₁, hread₂]
    . have hreads := hreads₁.trans hreads₂
      rwa [← List.length_append, ← List.flatMap_cons, ← List.flatMap_cons] at hreads

end Sparse
