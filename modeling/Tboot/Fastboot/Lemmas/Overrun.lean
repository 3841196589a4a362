import Tboot.Fastboot.Lemmas.Slices

/-!
This module contains for which sizes of the scratch area nothing is ever stored behind it. What is stored
behind its end makes `downloadBase` longer, so that its length tells.
-/

open Proc

namespace Fastboot

theorem store_length_iff (offset : Nat) (bytes base : Bytes)
    : (base.take offset ++ bytes ++ base.drop (offset + bytes.length)).length = base.length
        ↔ bytes = [] ∨ offset + bytes.length ≤ base.length := by
  rw [← List.length_eq_zero_iff]
  simp only [List.length_append, List.length_take, List.length_drop]
  omega

/-- Nothing has been stored behind the scratch area, and `download_size` is no larger than it is. -/
structure Fits (env : Env) (w : World) : Prop where
  base : w.downloadBase.length = env.downloadMax
  size : w.downloadSize ≤ env.downloadMax

namespace Overrun

variable {env : Env}

/-! ### Sizes for which all fits -/

theorem fits_keptByIo : KeptByIo env (Fits env) where
  read := fun _ _ h => ⟨h.base, h.size⟩
  error := fun _ h => ⟨h.base, h.size⟩
  write := fun _ _ h => ⟨h.base, h.size⟩

theorem fits_emit (e : Event) : Keeps (Fits env) (emit e) :=
  fun _ h => ⟨h.base, h.size⟩

theorem fits_complete : Keeps (Fits env) (setState .complete) :=
  fun _ h => ⟨h.base, h.size⟩

theorem fits_fail (text : Bytes) : Keeps (Fits env) (fastbootFail env text) :=
  fits_keptByIo.fastbootFail fits_complete (fits_emit _)

theorem fits_okay (text : Bytes) : Keeps (Fits env) (fastbootOkay env text) :=
  fits_keptByIo.fastbootOkay fits_complete (fits_emit _)

theorem fits_size {n : Nat} (hn : n ≤ env.downloadMax) : Keeps (Fits env) (setDownloadSize n) :=
  fun _ h => ⟨h.base, hn⟩

theorem fits_store {offset : Nat} {bytes : Bytes} (hfit : offset + bytes.length ≤ env.downloadMax)
    : Keeps (Fits env) (store offset bytes) := by
  intro w h
  refine ⟨?_, h.size⟩
  rw [← h.base] at hfit ⊢
  exact (store_length_iff _ _ _).mpr (Or.inr hfit)

theorem fits_usbRead (len : Nat) {w : World} (h : Fits env w)
    : wp (usbRead env len) (fun r w' => r.2.length ≤ len ∧ Fits env w') (Fits env) w := by
  apply wp_mono (wp_and (fits_keptByIo.usbRead len w h) (usbRead_readOnly env len w))
  . rintro r w' ⟨h', es, hread⟩
    exact ⟨hread.length_le, h'⟩
  . rintro w' ⟨h', _⟩
    exact h'

theorem fits_loop {fuel len slice percent finished : Nat} (hlen : len ≤ env.downloadMax) (hslice : 0 < slice)
    (hfit : finished + slice ≤ len) (hwrap : len + slice < 2 ^ 32)
    : Keeps (Fits env) (usbReadProgress.loop env fuel len slice percent finished) := by
  induction fuel generalizing slice percent finished with
  | zero => exact Keeps.throw _
  | succ fuel ih =>
    intro w h
    have hne : slice ≠ 0 := by omega
    have hsum : u32 (finished + slice) = finished + slice := u32_of_lt (by omega)
    have hnext : u32 (finished + slice + slice) = finished + slice + slice := u32_of_lt (by omega)
    -- What follows a whole slice is the same whether the bar is drawn or not.
    have hrest : Keeps (Fits env) (if u32 (finished + slice) > len then (pure (-1) : Fb Int)
        else if u32 (finished + slice) = len then pure (toInt32 (u32 (finished + slice)))
        else if u32 (u32 (finished + slice) + slice) > len then
          usbReadProgress.loop env fuel len (len - u32 (finished + slice)) 99 (u32 (finished + slice))
        else usbReadProgress.loop env fuel len slice (percent + 1) (u32 (finished + slice))) := by
      rw [hsum, hnext]
      apply Keeps.ite
      . intro _
        exact Keeps.pure _
      . intro _
        apply Keeps.ite
        . intro _
          exact Keeps.pure _
        . intro _
          apply Keeps.ite
          . intro _
            apply ih
            all_goals omega
          . intro _
            apply ih
            all_goals omega
    unfold usbReadProgress.loop
    simp only [hne, ↓reduceIte, wp_bind]
    apply wp_mono (fits_usbRead slice h) _ (fun _ => id)
    rintro ⟨ok, bytes⟩ w1 ⟨hbytes, h1⟩
    have hstore : finished + bytes.length ≤ env.downloadMax := by
      dsimp only at hbytes
      omega
    apply wp_mono (fits_store hstore w1 h1) _ (fun _ => id)
    intro _ w2 h2
    split
    . exact h2
    . split
      . exact Keeps.bind (fits_emit _) (fun _ => hrest) w2 h2
      . exact hrest w2 h2

theorem fits_usbReadProgress {len : Nat} (hmax : env.downloadMax ≤ 4055 * 2 ^ 20) (hlen : len ≤ env.downloadMax)
    : Keeps (Fits env) (usbReadProgress env len) := by
  unfold usbReadProgress
  apply Keeps.ite
  . intro hsmall w h
    rw [wp_bind]
    apply wp_mono (fits_usbRead len h) _ (fun _ => id)
    rintro ⟨ok, bytes⟩ w1 ⟨hbytes, h1⟩
    have hstore : 0 + bytes.length ≤ env.downloadMax := by
      dsimp only at hbytes
      omega
    exact Keeps.bind (fits_store hstore) (fun _ => Keeps.pure _) w1 h1
  . intro hbig
    have hslice := roundup_le (show 4096 ≤ len by omega)
    apply fits_loop hlen (roundup_pos (by omega)) (by omega)
    unfold roundup
    omega

section Sizes

variable (hmin : 12 < env.downloadMax) (hmax : env.downloadMax ≤ 4055 * 2 ^ 20)

include hmax

theorem fits_downloadTo (size : Nat) : Keeps (Fits env) (downloadTo env size) :=
  downloadTo_keeps fits_fail fits_keptByIo (fits_emit _) (fits_usbReadProgress hmax)

theorem fits_cmdDownload (arg : Bytes) : Keeps (Fits env) (cmdDownload env arg) :=
  cmdDownload_keeps fits_fail fits_keptByIo (fits_emit _) fits_okay (fun _ => fits_size)
    (fun _ => fits_usbReadProgress hmax) arg

omit hmax
include hmin

theorem fits_pullFile (fd : Fd) : Keeps (Fits env) (pullFile env fd) := by
  have hlt := env.downloadMax_lt
  have hroom : u32 (env.downloadMax + 2 ^ 32 - pullFile.offset) = env.downloadMax - 12 := by
    unfold u32 pullFile.offset
    omega
  apply Keeps.bind (fits_emit _)
  intro _
  apply pullFile_body_keeps fits_fail
  . intro bytes hbytes
    exact fits_store (by omega)
  . intro bytes hbytes
    rw [hroom] at hbytes
    apply fits_store
    unfold pullFile.offset
    omega
  . intro size hsize
    rw [hroom] at hsize
    have hwrap : u32 (pullFile.offset + size) = 12 + size := by
      unfold pullFile.offset
      exact u32_of_lt (by omega)
    apply pullFile_send_keeps fits_fail
    . rw [hwrap]
      exact fits_size (by omega)
    . exact fun _ => fits_keptByIo.usbWrite _
    . exact fits_keptByIo.usbRead 64

end Sizes

/-! ### Sizes for which it does not -/

def Plenty (env : Env) : Prop :=
  ∀ n, ∃ bytes, env.read n = some bytes ∧ 4096 ≤ bytes.length

theorem plenty_loop (hread : Plenty env) {fuel len : Nat} (hfuel : len ≤ fuel) (got : Bytes) (w : World)
    : wp (usbRead.loop env fuel len got)
        (fun r w' => r.1 = true ∧ r.2.length = got.length + len ∧ w'.state = w.state
          ∧ w'.downloadBase = w.downloadBase)
        (fun _ => False) w := by
  induction fuel generalizing len got w with
  | zero => exact ⟨rfl, by dsimp only; omega, rfl, rfl⟩
  | succ fuel ih =>
    unfold usbRead.loop
    split
    . exact ⟨rfl, by dsimp only; omega, rfl, rfl⟩
    . next hlen =>
      obtain ⟨bytes, hbytes, hmany⟩ := hread w.reads
      have hxfer : 0 < (if len > 4096 then 4096 else len) ∧ (if len > 4096 then 4096 else len) ≤ len
          ∧ (if len > 4096 then 4096 else len) ≤ 4096 := by
        split
        all_goals omega
      generalize (if len > 4096 then 4096 else len) = xfer at hxfer ⊢
      have hfull : (bytes.take xfer).length = xfer := List.length_take_of_le (by omega)
      simp only [wp_bind, sysRead, wp_get, wp_set, wp_pure, hbytes, Option.map_some, hfull, ne_eq,
        not_true_eq_false, ↓reduceIte]
      apply wp_mono (ih (by omega) (got ++ bytes.take xfer) _) _ (fun _ => id)
      rintro r w' ⟨hok, hcount, hstate, hbase⟩
      refine ⟨hok, ?_, hstate, hbase⟩
      rw [hcount, List.length_append, hfull]
      omega

theorem plenty_usbRead (hread : Plenty env) (len : Nat) {w : World} (hstate : w.state ≠ .error)
    : wp (usbRead env len)
        (fun r w' => r.1 = true ∧ r.2.length = len ∧ w'.state = w.state ∧ w'.downloadBase = w.downloadBase)
        (fun _ => False) w := by
  unfold usbRead
  simp only [wp_bind, wp_get, hstate, ↓reduceIte]
  apply wp_mono (plenty_loop hread (Nat.le_refl len) [] w) _ (fun _ => id)
  rintro r w' ⟨hok, hcount, hrest⟩
  exact ⟨hok, by simpa using hcount, hrest⟩

theorem longer_keptByReads (n : Nat) : KeptByReads env fun w => n < w.downloadBase.length where
  read := fun _ _ h => h
  error := fun _ h => h

theorem longer_store (n offset : Nat) (bytes : Bytes)
    : Keeps (fun w => n < w.downloadBase.length) (store offset bytes) :=
  fun _ h => Nat.lt_of_lt_of_le h (store_room _ _ _)

theorem longer_rest (n fuel len slice percent finished : Nat)
    : Keeps (fun w => n < w.downloadBase.length) (usbReadProgress.loop env fuel len slice percent finished) :=
  (longer_keptByReads n).usbReadProgress_loop (longer_store n) (fun _ _ h => h) _ _ _ _ _

theorem plenty_turn (hread : Plenty env) {fuel len slice percent finished : Nat} (hne : slice ≠ 0)
    (hlt : u32 (finished + slice) < len) (hle : u32 (u32 (finished + slice) + slice) ≤ len)
    {w : World} (hstate : w.state ≠ .error) {Q : Int → World → Prop} {E : World → Prop}
    (hnext : ∀ bytes : Bytes, bytes.length = slice → ∀ w', w'.state = w.state
      → w'.downloadBase = w.downloadBase.take finished ++ bytes ++ w.downloadBase.drop (finished + slice)
      → wp (usbReadProgress.loop env fuel len slice (percent + 1) (u32 (finished + slice))) Q E w')
    : wp (usbReadProgress.loop env (fuel + 1) len slice percent finished) Q E w := by
  unfold usbReadProgress.loop
  simp only [hne, ↓reduceIte, wp_bind]
  apply wp_mono (plenty_usbRead hread slice hstate) _ (fun _ => False.elim)
  rintro ⟨ok, bytes⟩ w1 ⟨hok, hcount, hstate1, hbase1⟩
  dsimp only at hok hcount
  have hgoes := hnext bytes hcount
  rw [← hbase1] at hgoes
  have hnot : ¬ u32 (finished + slice) > len := by omega
  have hnot' : ¬ u32 (finished + slice) = len := by omega
  have hnot'' : ¬ u32 (u32 (finished + slice) + slice) > len := by omega
  simp only [store, wp_modify, hok, hcount, Bool.not_true, ne_eq, not_true_eq_false, decide_false, Bool.or_self,
    Bool.false_eq_true, ↓reduceIte, hnot, hnot', hnot'']
  split
  . simp only [emit, wp_bind, wp_modify]
    exact hgoes _ hstate1 rfl
  . exact hgoes _ hstate1 rfl

/-- A hundred slices and one byte; with one slice more, the sum wraps. -/
def slice : Nat := 10382 * 4096

def length : Nat := 100 * slice + 1

theorem slice_sums {k : Nat} (hk : k ≤ 100)
    : u32 (k * slice + slice) < length ∧ u32 (u32 (k * slice + slice) + slice) ≤ length := by
  have hslice : slice = 42524672 := rfl
  have hlength : length = 4252467201 := rfl
  by_cases hlast : k = 100
  . subst hlast
    decide
  . have hmul : k * slice ≤ 99 * slice := Nat.mul_le_mul_right slice (by omega)
    have hsum : u32 (k * slice + slice) = k * slice + slice := u32_of_lt (by omega)
    rw [hsum]
    by_cases hbefore : k = 99
    . subst hbefore
      decide
    . have hmul' : k * slice ≤ 98 * slice := Nat.mul_le_mul_right slice (by omega)
      have hnext : u32 (k * slice + slice + slice) = k * slice + slice + slice := u32_of_lt (by omega)
      rw [hnext]
      omega

/-- The same slice is read again and again, the last time behind the area. -/
theorem loop_overruns (hread : Plenty env) {left k fuel percent : Nat}
    (hleft : k + left = 100) (hfuel : left < fuel) {w : World} (hstate : w.state ≠ .error)
    (hbase : env.downloadMax ≤ w.downloadBase.length)
    : wp (usbReadProgress.loop env fuel length slice percent (k * slice))
        (fun _ w' => env.downloadMax < w'.downloadBase.length)
        (fun w' => env.downloadMax < w'.downloadBase.length) w := by
  have hslice : slice = 42524672 := rfl
  have hlength : length = 4252467201 := rfl
  have hlt := env.downloadMax_lt
  induction left generalizing k fuel percent w with
  | zero =>
    obtain ⟨fuel, rfl⟩ := Nat.exists_eq_succ_of_ne_zero (show fuel ≠ 0 by omega)
    obtain rfl : k = 100 := by omega
    have hsums := slice_sums (Nat.le_refl 100)
    apply plenty_turn hread (by omega) hsums.1 hsums.2 hstate
    intro bytes hbytes w' _ hbase'
    apply longer_rest
    rw [hbase', List.length_append, List.length_append, List.length_take]
    omega
  | succ left ih =>
    obtain ⟨fuel, rfl⟩ := Nat.exists_eq_succ_of_ne_zero (show fuel ≠ 0 by omega)
    have hsums := slice_sums (show k ≤ 100 by omega)
    apply plenty_turn hread (by omega) hsums.1 hsums.2 hstate
    intro bytes hbytes w' hstate' hbase'
    have hsum : u32 (k * slice + slice) = (k + 1) * slice := by
      have hmul : k * slice ≤ 99 * slice := Nat.mul_le_mul_right slice (by omega)
      rw [Nat.succ_mul]
      exact u32_of_lt (by omega)
    rw [hsum]
    apply ih
    . omega
    . omega
    . rw [hstate']
      exact hstate
    . rw [hbase', ← hbytes]
      exact Nat.le_trans hbase (store_room _ _ _)

theorem usbReadProgress_overruns (hread : Plenty env) {w : World} (hstate : w.state ≠ .error)
    (hbase : env.downloadMax ≤ w.downloadBase.length)
    : wp (usbReadProgress env length) (fun _ w' => env.downloadMax < w'.downloadBase.length)
        (fun w' => env.downloadMax < w'.downloadBase.length) w := by
  have hbig : ¬ length < 4096 := by decide
  have hslice : roundup (length / 100) 4096 = 1 * slice := by decide
  unfold usbReadProgress
  rw [if_neg hbig, hslice, Nat.one_mul, ← Nat.zero_mul slice]
  exact loop_overruns hread (Nat.zero_add 100) (show 100 < length by decide) hstate hbase

theorem downloadTo_longer {len : Nat} (hlen : len ≤ env.downloadMax) (hwrite : ∀ n, env.write n = some 64) {w : World}
    (hstate : w.state ≠ .error) (hbase : env.downloadMax ≤ w.downloadBase.length)
    (hover : ∀ w', w'.state ≠ .error → env.downloadMax ≤ w'.downloadBase.length
      → wp (usbReadProgress env len) (fun _ w => env.downloadMax < w.downloadBase.length)
          (fun w => env.downloadMax < w.downloadBase.length) w')
    : wp (downloadTo env len) (fun _ w => env.downloadMax < w.downloadBase.length)
        (fun w => env.downloadMax < w.downloadBase.length) w := by
  have hsmall : ¬ len > env.downloadMax := by omega
  have hlt := env.downloadMax_lt
  have hcount : min (Packet.data len).bytes.length 64 = (Packet.data len).bytes.length := by
    have hdigits := (hex8_length_iff len).mpr (by omega)
    have hlength : (Packet.data len).bytes.length = 4 + (hex8 len).length := List.length_append
    omega
  unfold downloadTo
  simp only [wp_bind, emit, wp_modify, hsmall, ↓reduceIte, responseData, usbWrite, wp_get, hstate, sysWrite, hwrite,
    wp_set, wp_pure, Option.map_some, hcount, decide_true, Bool.not_true, Bool.false_eq_true]
  refine wp_mono (hover _ hstate hbase) ?_ (fun _ => id)
  intro r w' hlonger
  split
  . exact hlonger
  . exact hlonger

def plentyOf (size : Nat) (hsize : size < 2 ^ 32) : Env :=
  { hostOf [] with read := fun _ => some (List.replicate 4096 0), downloadMax := size, downloadMax_lt := hsize }

def worldOf (size : Nat) : World :=
  ⟨.command, List.replicate size 0, 0, 0, 0, 0, []⟩

theorem downloadTo_overruns {size : Nat} (hsize : size < 2 ^ 32) (hlen : length ≤ size)
    : ¬ Keeps (Fits (plentyOf size hsize)) (downloadTo (plentyOf size hsize) length) := by
  intro hkeeps
  have hread : Plenty (plentyOf size hsize) := fun _ => ⟨_, rfl, Nat.le_of_eq List.length_replicate.symm⟩
  have hbase : (worldOf size).downloadBase.length = (plentyOf size hsize).downloadMax := List.length_replicate
  have hfits := (wp_const _).mp (hkeeps (worldOf size) ⟨hbase, Nat.zero_le size⟩)
  have hlonger := downloadTo_longer hlen (fun _ => rfl) (show FbState.command ≠ .error by decide)
    (Nat.le_of_eq hbase.symm) (fun _ => usbReadProgress_overruns hread)
  exact absurd hfits.base (Nat.ne_of_gt ((wp_const _).mp hlonger))

def noScratch : Env :=
  { hostOf [] with downloadMax := 0, downloadMax_lt := by decide }

theorem pullFile_overruns : ¬ Keeps (Fits noScratch) (pullFile noScratch (.file 1 (some [7]))) := by
  intro hkeeps
  have hfits := (wp_const _).mp (hkeeps (worldOf 0) ⟨rfl, Nat.le_refl 0⟩)
  have hstored : ((pullFile noScratch (.file 1 (some [7]))).exec (worldOf 0)).2.downloadBase = [7] := by decide
  exact absurd (hstored ▸ hfits.base) (by decide)

end Overrun

theorem scratchSize_eq (scratch : Int) : (scratchSize scratch : Int) = scratch % 4096 * 2 ^ 20 := by
  unfold scratchSize
  omega

/--
With an area of this size, no transfer stores behind it or sends more than it has room for. The area is one that
`fastboot_init` could allocate: where `malloc` refuses it, the program ends before any transfer.
-/
def ScratchSafe (scratch : Int) : Prop :=
  ∀ env : Env, env.downloadMax = scratchSize scratch →
    (∀ arg, Keeps (Fits env) (cmdDownload env arg))
      ∧ (∀ size, Keeps (Fits env) (downloadTo env size))
      ∧ ∀ fd, Keeps (Fits env) (pullFile env fd)

theorem scratchSafe_iff (scratch : Int)
    : ScratchSafe scratch ↔ 0 < scratch % 4096 ∧ scratch % 4096 ≤ 4055 := by
  have hsize := scratchSize_eq scratch
  constructor
  . intro hsafe
    constructor
    . -- The room for the contents of a file is `0 - 12`, as an unsigned number.
      apply Decidable.byContradiction
      intro hzero
      have hmax : Overrun.noScratch.downloadMax = scratchSize scratch := by
        change 0 = scratchSize scratch
        omega
      exact Overrun.pullFile_overruns ((hsafe Overrun.noScratch hmax).2.2 _)
    . apply Decidable.byContradiction
      intro hlarge
      have hlt : scratchSize scratch < 2 ^ 32 := by omega
      have hlength : Overrun.length = 4252467201 := rfl
      exact Overrun.downloadTo_overruns hlt (by omega) ((hsafe (Overrun.plentyOf _ hlt) rfl).2.1 _)
  . rintro ⟨hpos, hle⟩ env hmax
    refine ⟨?_, ?_, ?_⟩
    . exact Overrun.fits_cmdDownload (by omega)
    . exact Overrun.fits_downloadTo (by omega)
    . exact Overrun.fits_pullFile (by omega)

theorem noScratch_overrun
    : Overrun.noScratch.downloadMax = scratchSize 0
      ∧ ¬ Keeps (Fits Overrun.noScratch) (pullFile Overrun.noScratch (.file 1 (some [7]))) :=
  ⟨by decide, Overrun.pullFile_overruns⟩

end Fastboot
