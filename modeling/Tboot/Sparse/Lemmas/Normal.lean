import Tboot.Sparse.Lemmas.Write
import Mathlib.Data.List.Induction

/-!
This module contains the image that is written for a sparse file as it is: its blocks over what the file held.
-/

namespace Sparse

open Spans

variable (tab : UInt32 → UInt32) (env : Env) {truncate : Bool}

/-! ### Writes one after the other -/

def FdFile.put (file : FdFile) (data : Bytes) : FdFile :=
  ((fileOps true).write file data).2

theorem write_put (file : FdFile) (data : Bytes) : (fileOps truncate).write file data = (true, file.put data) :=
  rfl

theorem put_nil (file : FdFile) : file.put [] = file := by
  have himg : Patch.write file.img ⟨file.pos, []⟩ = file.img := by
    funext i
    apply Patch.write_of_not_mem
    simp [Patch.extent, Region.points]
  unfold FdFile.put fileOps
  dsimp only
  rw [himg]
  rfl

theorem put_put (file : FdFile) (a b : Bytes) : (file.put a).put b = file.put (a ++ b) := by
  unfold FdFile.put fileOps
  dsimp only
  rw [Patch.write_write, List.length_append, Nat.add_assoc]
  congr 1
  by_cases ha : a = []
  . rw [ha, if_pos rfl, List.nil_append, List.length_nil]
  . have hboth : a ++ b ≠ [] := by simp [ha]
    rw [if_neg ha, if_neg hboth]
    split
    . next hb => rw [hb, List.length_nil, Nat.add_zero]
    . omega

/-! ### One block -/

variable {out : OutputFile FdFile}

theorem write_eq (hops : out.ops = fileOps truncate) (data : Bytes)
    : out.write data = (true, { out with file := out.file.put data }) := by
  unfold OutputFile.write
  rw [hops, write_put]

theorem writeNormalFillLoop_eq (hops : out.ops = fileOps truncate) (hsize : 0 < out.blockSize) {host : Nat → UInt8}
    (hperiod : ∀ i, host (out.blockSize + i) = host i) {fuel len : Nat} (hfuel : len ≤ fuel)
    : writeNormalFillLoop (Bytes.slice host 0 out.blockSize) fuel len out
        = (true, { out with file := out.file.put (Bytes.slice host 0 len) }) := by
  induction fuel generalizing len out with
  | zero => rw [Nat.le_zero.mp hfuel, Bytes.slice_zero, put_nil, writeNormalFillLoop]
  | succ fuel ih =>
    rw [writeNormalFillLoop]
    split
    . next hzero => rw [hzero, Bytes.slice_zero, put_nil]
    . next hpos =>
      have hloop := @ih { out with file := out.file.put ((Bytes.slice host 0 out.blockSize).take
        (min len out.blockSize)) } hops hsize hperiod (len - min len out.blockSize) (by omega)
      dsimp only at hloop ⊢
      rw [write_eq hops]
      dsimp only
      rw [hloop, put_put]
      congr 3
      by_cases hle : len ≤ out.blockSize
      . have htake := List.prefix_iff_eq_take.mp (Bytes.slice_prefix host 0 hle)
        rw [Bytes.slice_length] at htake
        rw [Nat.min_eq_left hle, Nat.sub_self, Bytes.slice_zero, List.append_nil, ← htake]
      . rw [Nat.min_eq_right (by omega), List.take_of_length_le (by rw [Bytes.slice_length]),
          slice_append_of_period hperiod, Nat.add_sub_cancel' (by omega)]

/-- What is written for a block is its bytes, and the position goes on to the end of its last block. -/
def FdFile.putBlock (env : Env) (blockSize : Nat) (file : FdFile) (bb : BackedBlock) : FdFile :=
  { file.put (bb.content env) with pos := file.pos + align bb.len blockSize }

theorem writeNormalDataChunk_eq (hops : out.ops = fileOps truncate) (hsize : 0 < out.blockSize) {bb : BackedBlock}
    (hfits : bb.Fits out.blockSize)
    : writeNormalDataChunk out bb.len (bb.content env)
        = (true, { out with file := out.file.putBlock env out.blockSize bb }) := by
  have hle := le_align hsize bb.len
  have hpos : (out.file.put (bb.content env)).pos = out.file.pos + bb.len :=
    congrArg (out.file.pos + ·) (bb.length_content env)
  unfold writeNormalDataChunk
  rw [write_eq hops]
  dsimp only
  rw [alignU32_eq hsize hfits]
  unfold FdFile.putBlock
  split
  . unfold OutputFile.skip
    dsimp only
    rw [hops]
    dsimp only [fileOps]
    rw [hpos]
    congr 3
    omega
  . have heq : align bb.len out.blockSize = bb.len := by omega
    rw [heq, ← hpos]

theorem writeNormalFillChunk_eq (hops : out.ops = fileOps truncate) (hsize : 0 < out.blockSize) (hfour : 4 ∣ out.blockSize)
    {bb : BackedBlock} {val : UInt32} (hfill : bb.backing = .fill val) (hlen : out.blockSize ∣ bb.len)
    : writeNormalFillChunk out bb.len val
        = (true, { out with file := out.file.putBlock env out.blockSize bb }) := by
  have hcontent : bb.content env = Bytes.slice (fillByte val) 0 bb.len := by
    unfold BackedBlock.content
    rw [hfill]
    rfl
  have hbuf : fillBuf out.blockSize val = Bytes.slice (fillByte val) 0 out.blockSize := by
    unfold fillBuf
    rw [flatten_fillWord, Nat.div_mul_cancel hfour, Nat.mod_eq_zero_of_dvd hfour, List.replicate_zero, List.append_nil]
  have hperiod (i : Nat) : fillByte val (out.blockSize + i) = fillByte val i := by
    rw [← Nat.div_mul_cancel hfour]
    exact fillByte_add val _ i
  unfold writeNormalFillChunk
  rw [hbuf, writeNormalFillLoop_eq hops hsize hperiod (Nat.le_refl _), ← hcontent]
  have halign : align bb.len out.blockSize = bb.len := by
    obtain ⟨n, hn⟩ := hlen
    have hmul := divRoundUp_mul hsize n
    rw [Nat.mul_comm] at hmul
    rw [align, hn, hmul]
  have hpos : (out.file.put (bb.content env)).pos = out.file.pos + bb.len :=
    congrArg (out.file.pos + ·) (bb.length_content env)
  unfold FdFile.putBlock
  rw [halign, ← hpos]

theorem sparseFileWriteBlock_normal (out : OutputFile FdFile) (hops : out.ops = fileOps truncate) (hsparse : out.sparse = false)
    (hsize : 0 < out.blockSize) (hfour : 4 ∣ out.blockSize) {bb : BackedBlock} (hfits : bb.Fits out.blockSize)
    (hfill : ∀ val, bb.backing = .fill val → out.blockSize ∣ bb.len)
    : sparseFileWriteBlock tab env out bb = (true, { out with file := out.file.putBlock env out.blockSize bb }) := by
  have hdata := writeNormalDataChunk_eq env hops hsize hfits
  have hnot : ¬out.sparse = true := by simp [hsparse]
  unfold sparseFileWriteBlock writeDataChunk writeFillChunk
  cases hbacking : bb.backing with
  | data ptr =>
    dsimp only
    rwa [if_neg hnot, ← bb.content_data env hbacking]
  | file filename offset =>
    dsimp only
    rwa [if_neg hnot, ← bb.content_file env hbacking]
  | fd num offset =>
    dsimp only
    rwa [if_neg hnot, ← bb.content_fd env hbacking]
  | fill val =>
    dsimp only
    rw [if_neg hnot]
    exact writeNormalFillChunk_eq env hops hsize hfour hbacking (hfill val hbacking)

/-! ### All blocks -/

def paint (env : Env) (blockSize : Nat) (img : Image) (blocks : List BackedBlock) : Image :=
  blocks.foldl (fun img bb p => (bb.byteAt env blockSize p).getD (img p)) img

structure FdFile.Painted (env : Env) (blockSize : Nat) (file file' : FdFile) (blocks : List BackedBlock) (stop : Nat)
    : Prop where
  pos : file'.pos = stop * blockSize
  img : file'.img = paint env blockSize file.img blocks
  size_le : file.size ≤ file'.size
  le_size : file'.size ≤ max file.size (stop * blockSize)

theorem painted_putBlock {blockSize : Nat} (hsize : 0 < blockSize) (file : FdFile) (bb : BackedBlock)
    (hpos : file.pos = bb.block * blockSize)
    : file.Painted env blockSize (file.putBlock env blockSize bb) [bb] (bb.stop blockSize) := by
  have hstop : bb.stop blockSize * blockSize = file.pos + align bb.len blockSize := by
    unfold align BackedBlock.stop
    rw [hpos, Nat.add_mul, Nat.mul_comm blockSize]
  have hle := le_align hsize bb.len
  have hlength := bb.length_content env
  unfold FdFile.putBlock FdFile.put fileOps
  refine ⟨hstop.symm, ?_, ?_, ?_⟩
  . funext p
    unfold paint Patch.write BackedBlock.byteAt
    dsimp only [List.foldl_cons, List.foldl_nil]
    rw [← hpos]
    by_cases hin : file.pos ≤ p
    . rw [if_pos hin]
      by_cases hlt : p < file.pos + bb.len
      . rw [if_pos ⟨hin, hlt⟩, BackedBlock.content, Bytes.slice_getElem? _ _ (by omega), Nat.zero_add]
      . rw [if_neg (by omega), List.getElem?_eq_none (by omega)]
    . rw [if_neg hin, if_neg (by omega)]
      rfl
  . dsimp only
    split
    . exact Nat.le_refl _
    . exact Nat.le_max_left _ _
  . dsimp only
    rw [hstop, hlength]
    split
    . exact Nat.le_max_left _ _
    . omega

theorem FdFile.Painted.trans {env : Env} {blockSize : Nat} {file file₁ file₂ : FdFile} {blocks rest : List BackedBlock}
    {stop stop₁ : Nat} (h : file.Painted env blockSize file₁ blocks stop)
    (h' : file₁.Painted env blockSize file₂ rest stop₁) (hle : stop ≤ stop₁)
    : file.Painted env blockSize file₂ (blocks ++ rest) stop₁ := by
  refine ⟨h'.pos, ?_, Nat.le_trans h.size_le h'.size_le, ?_⟩
  . rw [h'.img, h.img, paint, paint, paint, List.foldl_append]
  . have hmul := Nat.mul_le_mul_right blockSize hle
    have hsize := h.le_size
    have hsize' := h'.le_size
    omega

theorem le_lastStop {blockSize last : Nat} {blocks : List BackedBlock} (h : InOrder blockSize blocks)
    (hlast : ∀ bb ∈ blocks, last ≤ bb.block) : last ≤ lastStop blockSize last blocks := by
  have hlength := length_chunksFrom_le ⟨fun _ => 0, fun _ _ => 0, fun _ _ => 0⟩ h hlast
  omega

theorem writeSkipChunk_normal (hops : out.ops = fileOps truncate) (hsparse : out.sparse = false) {last block : Nat}
    (hpos : out.file.pos = last * out.blockSize) (hle : last ≤ block)
    : (if block > last then (writeSkipChunk out ((block - last) * out.blockSize)).2 else out)
        = { out with file := { out.file with pos := block * out.blockSize } } := by
  split
  . unfold writeSkipChunk writeNormalSkipChunk OutputFile.skip
    rw [if_neg (by simp [hsparse]), hops]
    dsimp only [fileOps]
    rw [hpos, ← Nat.add_mul, Nat.add_sub_of_le hle]
  . have heq : block = last := by omega
    rw [heq, ← hpos]

theorem writeAllBlocks_go_normal (out : OutputFile FdFile) (blocks : List BackedBlock) (last : Nat)
    (hops : out.ops = fileOps truncate) (hsparse : out.sparse = false)
    (hsize : 0 < out.blockSize) (hfour : 4 ∣ out.blockSize)
    (hfits : ∀ bb ∈ blocks, bb.Fits out.blockSize) (hstop : ∀ bb ∈ blocks, bb.stop out.blockSize < 2 ^ 32)
    (hfill : ∀ bb ∈ blocks, ∀ val, bb.backing = .fill val → out.blockSize ∣ bb.len)
    (h : InOrder out.blockSize blocks) (hlast : ∀ bb ∈ blocks, last ≤ bb.block)
    (hpos : out.file.pos = last * out.blockSize)
    : ∃ file, writeAllBlocks.go tab env out.blockSize last blocks out
          = (lastStop out.blockSize last blocks, { out with file })
        ∧ out.file.Painted env out.blockSize file blocks (lastStop out.blockSize last blocks) := by
  induction blocks generalizing out last with
  | nil => exact ⟨out.file, rfl, hpos, rfl, Nat.le_refl _, Nat.le_max_left _ _⟩
  | cons bb rest ih =>
    rw [List.forall_mem_cons] at hfits hstop hfill
    obtain ⟨_, hrest, hbehind⟩ := Ordered.cons_iff.mp h
    have hle := hlast bb List.mem_cons_self
    rw [writeAllBlocks.go, lastStop, lastBlock_eq hsize hfits.1 hstop.1, writeSkipChunk_normal hops hsparse hpos hle]
    have hblock := sparseFileWriteBlock_normal tab env
      { out with file := { out.file with pos := bb.block * out.blockSize } } hops hsparse hsize hfour hfits.1
      hfill.1
    dsimp only at hblock ⊢
    rw [hblock]
    have hpainted := painted_putBlock env hsize { out.file with pos := bb.block * out.blockSize } bb rfl
    obtain ⟨file, hgo, hpainted'⟩ := ih
      { out with file := ({ out.file with pos := bb.block * out.blockSize } : FdFile).putBlock env out.blockSize bb }
      (bb.stop out.blockSize) hops hsparse hsize hfour hfits.2 hstop.2 hfill.2 hrest hbehind hpainted.pos
    refine ⟨file, hgo, ?_⟩
    have hall := hpainted.trans hpainted' (le_lastStop hrest hbehind)
    exact ⟨hall.pos, hall.img, hall.size_le, hall.le_size⟩

/-! ### The file -/

/-- Fills are of whole blocks; the position is not moved behind one that is not. -/
def SparseFile.FillsWhole (s : SparseFile) : Prop :=
  ∀ bb ∈ s.blocks.dataBlocks, ∀ val, bb.backing = .fill val → s.blockSize ∣ bb.len

theorem writeAllBlocks_normal (out : OutputFile FdFile) (hops : out.ops = fileOps truncate) (hsparse : out.sparse = false) {s : SparseFile}
    (hsize : out.blockSize = s.blockSize) (h : s.Writable) (hfour : 4 ∣ s.blockSize) (hfill : s.FillsWhole)
    (hpos : out.file.pos = 0)
    : ∃ file, writeAllBlocks tab env s out = .ok { out with file }
        ∧ out.file.size ≤ file.size ∧ file.size ≤ max out.file.size s.len
        ∧ file.img = paint env s.blockSize out.file.img s.blocks.dataBlocks := by
  obtain ⟨file, hgo, hpainted⟩ := writeAllBlocks_go_normal tab env out s.blocks.dataBlocks 0 hops hsparse
    (hsize ▸ h.size_pos) (hsize ▸ hfour) (hsize ▸ h.fits) (hsize ▸ h.stop_lt)
    (hsize ▸ hfill) (hsize ▸ h.inOrder) (fun _ _ => Nat.zero_le _) (by rw [hpos, Nat.zero_mul])
  rw [hsize] at hgo hpainted
  have hlast : lastStop s.blockSize 0 s.blocks.dataBlocks ≤ s.len / s.blockSize := lastStop_le (Nat.zero_le _) h.stop_le
  have hle : lastStop s.blockSize 0 s.blocks.dataBlocks * s.blockSize ≤ s.len := by
    have hmul := Nat.mul_le_mul_right s.blockSize hlast
    rwa [Nat.div_mul_cancel h.size_dvd] at hmul
  have hmax := hpainted.le_size
  unfold writeAllBlocks
  rw [hgo]
  dsimp only
  rw [if_neg (by omega)]
  split
  . refine ⟨{ file with pos := file.pos + (s.len - lastStop s.blockSize 0 s.blocks.dataBlocks * s.blockSize) }, ?_,
      hpainted.size_le, ?_, hpainted.img⟩
    . unfold writeSkipChunk writeNormalSkipChunk OutputFile.skip
      rw [if_neg (by simp [hsparse])]
      dsimp only
      rw [hops, hsize]
      rfl
    . dsimp only
      omega
  . refine ⟨file, ?_, hpainted.size_le, by omega, hpainted.img⟩
    rw [hsize]
    rfl

theorem sparseFileWrite_normal {s : SparseFile} (h : s.Writable) (hfour : 4 ∣ s.blockSize) (hfill : s.FillsWhole)
    (file : FdFile) (hpos : file.pos = 0) (truncate crc : Bool)
    : ∃ file', sparseFileWrite tab env (fileOps truncate) file s false crc true = .ok (some file')
        ∧ (truncate = true → file'.size = s.len) ∧ (truncate = false → s.len ≤ file.size → file'.size = file.size)
        ∧ ∀ p, file'.img p
            = if truncate = true ∧ s.len ≤ p then 0 else paint env s.blockSize file.img s.blocks.dataBlocks p := by
  obtain ⟨painted, hblocks, hlow, hhigh, himg⟩ := writeAllBlocks_normal tab env
    ⟨fileOps truncate, file, false, 0, crc, s.blockSize, s.len⟩ rfl rfl rfl h hfour hfill hpos
  have hpos := h.size_pos
  have hwrite : sparseFileWrite tab env (fileOps truncate) file s false crc true
      = .ok (some ((fileOps truncate).pad painted s.len).2) := by
    have hopen : outputFileOpen (fileOps truncate) file s.blockSize s.len false (sparseCountChunks s) crc true
        = .ok (some ⟨fileOps truncate, file, false, 0, crc, s.blockSize, s.len⟩) := by
      unfold outputFileOpen
      rw [if_neg (by omega)]
      rfl
    unfold sparseFileWrite
    rw [if_neg (by omega)]
    dsimp only
    rw [hopen]
    dsimp only [bind, Except.bind]
    rw [hblocks]
    rfl
  refine ⟨_, hwrite, ?_, ?_, ?_⟩
  . intro htruncate
    simp [fileOps, htruncate]
  . intro htruncate hle
    dsimp only at hlow hhigh
    simp only [fileOps, htruncate, Bool.false_eq_true, if_false]
    omega
  . intro p
    cases truncate with
    | false =>
      rw [if_neg (by simp), ← himg]
      rfl
    | true =>
      by_cases hp : s.len ≤ p
      . rw [if_pos ⟨rfl, hp⟩]
        exact if_neg (by omega)
      . rw [if_neg (by omega), ← himg]
        exact if_pos (by omega)

/-! ### The image -/

theorem paint_append (blockSize : Nat) (img : Image) (l₁ l₂ : List BackedBlock)
    : paint env blockSize img (l₁ ++ l₂) = paint env blockSize (paint env blockSize img l₁) l₂ :=
  List.foldl_append

theorem paint_spec (blockSize : Nat) (img : Image) (blocks : List BackedBlock) (p : Nat)
    : Holds env blockSize blocks p (paint env blockSize img blocks p)
      ∨ (∀ byte, ¬Holds env blockSize blocks p byte) ∧ paint env blockSize img blocks p = img p := by
  induction blocks using List.reverseRecOn with
  | nil => exact .inr ⟨by simp [Holds], rfl⟩
  | append_singleton blocks bb ih =>
    rw [paint_append]
    have hlast : paint env blockSize (paint env blockSize img blocks) [bb] p
        = (bb.byteAt env blockSize p).getD (paint env blockSize img blocks p) := rfl
    rw [hlast]
    cases hbyte : bb.byteAt env blockSize p with
    | some byte => exact .inl ⟨bb, by simp, hbyte⟩
    | none =>
      rw [Option.getD_none]
      cases ih with
      | inl hholds => exact .inl (holds_append.mpr (.inl hholds))
      | inr hnone =>
        refine .inr ⟨?_, hnone.2⟩
        intro byte hholds
        cases holds_append.mp hholds with
        | inl hold => exact hnone.1 byte hold
        | inr hnew =>
          obtain ⟨bb', hbb', hbyte'⟩ := hnew
          rw [List.mem_singleton.mp hbb', hbyte] at hbyte'
          cases hbyte'

theorem holds_unique {env : Env} {blockSize p : Nat} {blocks : List BackedBlock} (hsize : 0 < blockSize)
    (h : InOrder blockSize blocks) {a b : UInt8} (ha : Holds env blockSize blocks p a)
    (hb : Holds env blockSize blocks p b) : a = b := by
  obtain ⟨x, hx, hxa⟩ := ha
  obtain ⟨y, hy, hyb⟩ := hb
  have hin {bb : BackedBlock} {byte : UInt8} (hbyte : bb.byteAt env blockSize p = some byte)
      : bb.block * blockSize ≤ p ∧ p < bb.stop blockSize * blockSize := by
    have hle := le_divRoundUp_mul hsize bb.len
    unfold BackedBlock.byteAt at hbyte
    split at hbyte
    . next hin =>
      unfold BackedBlock.stop
      rw [Nat.add_mul]
      omega
    . cases hbyte
  have hx' := hin hxa
  have hy' := hin hyb
  have hxy : x = y := by
    by_contra hne
    cases h.apart_of_mem hx hy hne with
    | inl hle =>
      have hmul := Nat.mul_le_mul_right blockSize hle
      omega
    | inr hle =>
      have hmul := Nat.mul_le_mul_right blockSize hle
      omega
  rw [hxy, hyb] at hxa
  injection hxa with hxa
  exact hxa.symm

def smallFile : SparseFile :=
  ⟨4, 16, ⟨[⟨1, 4, .data 100⟩, ⟨2, 4, .fill 7⟩], .null, 4⟩⟩

theorem writable_smallFile : smallFile.Writable where
  size_pos := by decide
  size_lt := by decide
  size_dvd := by decide
  total_lt := by decide
  inOrder := ⟨by decide, by decide⟩
  fits := by
    unfold BackedBlock.Fits
    decide
  stop_le := by decide

theorem fillsWhole_smallFile : smallFile.FillsWhole := by
  intro bb hbb val _
  have hall : ∀ bb ∈ smallFile.blocks.dataBlocks, smallFile.blockSize ∣ bb.len := by decide
  exact hall bb hbb

end Sparse
