import Tboot.Streaming.Lemmas.Basic
import Mathlib.Data.List.Perm.Basic

/-!
This module contains what the end of a streaming flash says about the payload: when the reader leaves
its loop because it has counted two empty buffers, whether every chunk stored has been written.
-/

namespace Streaming

open State (next)

def NothingLost (s : State) : Prop :=
  (∀ i, ¬(s.buf i).Full) ∧ s.written.Perm s.stored

def pipeWhole (_ : State) (a : Act) : Prop :=
  a ≠ .signal

/--
The reader has found its buffer empty and has yet to look at `writer_finished`, but the buffer has been
filled since, and the other one is empty.
-/
def Stale (s : State) : Prop :=
  s.reader = .sawEmpty ∧ (s.buf s.readerIdx).Full ∧ ¬(s.buf (next s.readerIdx)).Full

def pipeWholeNotStale (s : State) (a : Act) : Prop :=
  a ≠ .signal ∧ (a = .mainFinish → ¬Stale s)

def held (s : State) : List Chunk :=
  (s.buf 0).toList ++ (s.buf 1).toList

section Conserved

variable {inp : Input} {s t : State} {a : Act}

theorem held_perm (s : State) (i : Fin nrBuffer)
    : (held s).Perm ((s.buf i).toList ++ (s.buf (next i)).toList) := by
  match i with
  | 0 => exact List.Perm.refl _
  | 1 => exact List.perm_append_comm

def Conserved (s : State) : Prop :=
  (∀ code, s.reader ≠ .exited code) → (s.written ++ held s).Perm s.stored

theorem init_conserved (inp : Input) : Conserved (init inp) := by
  intro _
  by_cases hsize : firstSize inp = 0
  . simp [init, held, Buffer.toList, Buffer.Full, hsize]
  . simp [init, held, Buffer.toList, Buffer.Full, Buffer.chunk, hsize, List.take_of_length_le]

theorem storeChunk_held (hempty : ¬(s.buf s.mainIdx).Full) (hsize : 0 < cutSize inp s)
    : (held (storeChunk inp s)).Perm
        (held s ++ [⟨s.received, Bytes.slice inp.host s.received (cutSize inp s)⟩]) := by
  have hnew := storeChunk_toList hsize
  have hother := storeChunk_buf_next inp s
  have hbefore := held_perm s s.mainIdx
  have hafter := held_perm (storeChunk inp s) s.mainIdx
  rw [hnew, hother] at hafter
  rw [Buffer.toList_empty hempty, List.nil_append] at hbefore
  refine hafter.trans ?_
  refine List.perm_append_comm.trans ?_
  exact hbefore.symm.append_right _

theorem writeChunk_held (hfull : (s.buf s.readerIdx).Full)
    : ((writeChunk s).written ++ held (writeChunk s)).Perm (s.written ++ held s) := by
  have hself := Buffer.toList_empty (writeChunk_empty s)
  have hother := writeChunk_buf_next s
  have hwritten : (writeChunk s).written = s.written ++ [(s.buf s.readerIdx).chunk] := rfl
  have hbefore := held_perm s s.readerIdx
  have hafter := held_perm (writeChunk s) s.readerIdx
  rw [hself, hother, List.nil_append] at hafter
  rw [Buffer.toList_full hfull] at hbefore
  rw [hwritten, List.append_assoc]
  refine List.Perm.append_left _ ?_
  exact (hafter.append_left _).trans hbefore.symm

theorem conserved_of_moves (h : Conserved s) (hcut : s.main = .enter → 0 < cutSize inp s)
    (hmove : Moves inp s a t)
    : Conserved t := by
  unfold Conserved at *
  cases hmove with
  | mainStore hpc hempty =>
    intro hrun
    have hperm := h hrun
    have hheld := storeChunk_held hempty (hcut hpc)
    have hstored : (storeChunk inp s).stored
        = s.stored ++ [⟨s.received, Bytes.slice inp.host s.received (cutSize inp s)⟩] := rfl
    have hwritten : (storeChunk inp s).written = s.written := rfl
    rw [hstored, hwritten]
    refine (hheld.append_left _).trans ?_
    rw [← List.append_assoc]
    exact hperm.append_right _
  | readerWrite hpc hfull =>
    intro _
    have hperm := h (by simp [hpc])
    exact (writeChunk_held hfull).trans hperm
  | readerEpipe => simp
  | readerShort => simp
  | readerClose => simp
  | readerTest hpc => exact fun _ => h (by simp [hpc])
  | readerLeave hpc => exact fun _ => h (by simp [hpc])
  | readerEmpty hpc => exact fun _ => h (by simp [hpc])
  | readerFlag hpc => exact fun _ => h (by simp [hpc])
  | _ => exact h

end Conserved

section Counted

variable {inp : Input} {s t : State} {a : Act}

structure Counted (s : State) : Prop where
  zero : s.emptyCounter = 0 → s.reader = .sawEmpty
    → (s.buf s.readerIdx).Full → (s.buf (next s.readerIdx)).Full
  one : s.emptyCounter = 1 → s.reader = .test ∨ s.reader = .enter
    → (s.buf (next s.readerIdx)).Full → (s.buf s.readerIdx).Full
  oneEmpty : s.emptyCounter = 1 → s.reader = .sawEmpty → ∀ i, ¬(s.buf i).Full
  two : 2 ≤ s.emptyCounter → ∀ i, ¬(s.buf i).Full

theorem forall_not_full (i : Fin nrBuffer) (hself : ¬(s.buf i).Full)
    (hother : ¬(s.buf (next i)).Full)
    : ∀ j, ¬(s.buf j).Full := by
  intro j
  cases eq_or_eq_next i j with
  | inl heq =>
    rw [heq]
    exact hself
  | inr heq =>
    rw [heq]
    exact hother

theorem writeChunk_counted (h : Counted s) (hfull : (s.buf s.readerIdx).Full)
    : Counted (writeChunk s) := by
  have hidx : (writeChunk s).readerIdx = next s.readerIdx := rfl
  have hpc' : (writeChunk s).reader = .test := rfl
  have hcounter : (writeChunk s).emptyCounter = s.emptyCounter := rfl
  constructor
  . simp [hpc']
  . intro _ _ hother
    rw [hidx, next_next] at hother
    exact absurd hother (writeChunk_empty s)
  . simp [hpc']
  . intro htwo
    exact absurd hfull (h.two htwo s.readerIdx)

theorem sawEmpty_counted (h : Counted s) (hpc : s.reader = .enter)
    (hempty : ¬(s.buf s.readerIdx).Full)
    : Counted { s with reader := .sawEmpty } := by
  constructor
  . intro _ _ hfull
    exact absurd hfull hempty
  . simp
  . intro hone _
    apply forall_not_full s.readerIdx hempty
    intro hother
    exact hempty (h.one hone (.inr hpc) hother)
  . exact h.two

theorem passEmpty_counted (h : Counted s) (hpc : s.reader = .sawEmpty)
    (hfinished : s.writerFinished = true)
    : Counted (passEmpty s) := by
  have hcounter : (passEmpty s).emptyCounter = s.emptyCounter + 1 := by
    simp [passEmpty, hfinished]
  have hidx : (passEmpty s).readerIdx = next s.readerIdx := rfl
  have hpc' : (passEmpty s).reader = .test := rfl
  constructor
  . simp [hpc']
  . intro hone _ hother
    rw [hidx, next_next] at hother
    rw [hidx]
    exact h.zero (by omega) hpc hother
  . simp [hpc']
  . intro htwo
    have hcases : s.emptyCounter = 1 ∨ 2 ≤ s.emptyCounter := by omega
    cases hcases with
    | inl hone => exact h.oneEmpty hone hpc
    | inr hmore => exact h.two hmore

/--
The invariant of the runs in which nothing gets lost: before the filler is done nothing is counted, and
after it `Counted` holds.
-/
structure Safe (s : State) : Prop where
  pipe : s.pipeBroken = false
  drain : s.main ≠ .drain
  notYet : s.writerFinished = false → s.emptyCounter = 0
  done : s.writerFinished = true → s.main = .join ∨ s.main = .joined
  counted : s.writerFinished = true → Counted s
  left : s.reader = .left → nrBuffer ≤ s.emptyCounter

theorem init_safe (inp : Input) : Safe (init inp) := by
  constructor
  all_goals
    simp [init]

theorem Safe.not_finished (h : Safe s) (hjoin : s.main ≠ .join) (hjoined : s.main ≠ .joined)
    : s.writerFinished = false := by
  by_contra hfinished
  simp only [Bool.not_eq_false] at hfinished
  cases h.done hfinished with
  | inl hpc => contradiction
  | inr hpc => contradiction

theorem Safe.of_main_step (h : Safe s) (hjoin : s.main ≠ .join) (hjoined : s.main ≠ .joined)
    (hpipe : t.pipeBroken = s.pipeBroken) (hdrain : t.main ≠ .drain)
    (hfinished : t.writerFinished = s.writerFinished) (hcounter : t.emptyCounter = s.emptyCounter)
    (hreader : t.reader = s.reader)
    : Safe t := by
  -- Nothing has been counted as long as the filler is not done.
  have hnot := h.not_finished hjoin hjoined
  rw [hnot] at hfinished
  constructor
  . rw [hpipe]
    exact h.pipe
  . exact hdrain
  . intro _
    rw [hcounter]
    exact h.notYet hnot
  . simp [hfinished]
  . simp [hfinished]
  . rw [hreader, hcounter]
    exact h.left

theorem finish_safe (h : Safe s) (hpc : s.main = .finish) (hstale : ¬Stale s)
    : Safe { s with writerFinished := true, main := .join } := by
  have hnot := h.not_finished (by simp [hpc]) (by simp [hpc])
  have hzero := h.notYet hnot
  refine ⟨h.pipe, by simp, by simp, by simp, ?_, h.left⟩
  intro _
  constructor
  . intro _ hsaw hfull
    by_contra hother
    exact hstale ⟨hsaw, hfull, hother⟩
  . simp [hzero]
  . simp [hzero]
  . simp [hzero]

theorem safe_of_moves (h : Safe s) (hguard : pipeWholeNotStale s a) (hmove : Moves inp s a t)
    : Safe t := by
  have ⟨hpipe, hdrain, hnotYet, hdone, hcounted, hleft⟩ := h
  cases hmove with
  | mainTest hpc =>
    exact h.of_main_step (by simp [hpc]) (by simp [hpc]) rfl (by simp) rfl rfl rfl
  | mainLeave hpc =>
    exact h.of_main_step (by simp [hpc]) (by simp [hpc]) rfl (by simp) rfl rfl rfl
  | mainSkip hpc =>
    exact h.of_main_step (by simp [hpc]) (by simp [hpc]) rfl (by simp) rfl rfl rfl
  | mainStore hpc =>
    exact h.of_main_step (by simp [hpc]) (by simp [hpc]) rfl (by simp [storeChunk]) rfl rfl rfl
  | mainFail hpc =>
    exact h.of_main_step (by simp [hpc]) (by simp [hpc]) rfl (by simp) rfl rfl rfl
  | mainBroken _ hbroken => simp [hpipe] at hbroken
  | mainWhole hpc =>
    exact h.of_main_step (by simp [hpc]) (by simp [hpc]) rfl (by simp) rfl rfl rfl
  | mainDrain hpc => contradiction
  | mainDrained hpc => contradiction
  | mainFinish hpc => exact finish_safe h hpc (hguard.2 rfl)
  | mainJoin hpc hreader =>
    refine ⟨hpipe, by simp, hnotYet, by simp, ?_, hleft⟩
    intro hfinished
    have hc := hcounted hfinished
    exact ⟨hc.zero, hc.one, hc.oneEmpty, hc.two⟩
  | readerTest hpc hlt =>
    refine ⟨hpipe, hdrain, hnotYet, hdone, ?_, by simp⟩
    intro hfinished
    have hc := hcounted hfinished
    exact ⟨by simp, fun hone _ => hc.one hone (.inl hpc), by simp, hc.two⟩
  | readerLeave hpc hend =>
    have hge : nrBuffer ≤ s.emptyCounter := by
      by_contra hlt
      exact hend ⟨by omega, hpipe⟩
    refine ⟨hpipe, hdrain, hnotYet, hdone, ?_, fun _ => hge⟩
    intro hfinished
    exact ⟨by simp, by simp, by simp, (hcounted hfinished).two⟩
  | readerWrite hpc hfull =>
    refine ⟨hpipe, hdrain, hnotYet, hdone, ?_, by simp [writeChunk]⟩
    intro hfinished
    exact writeChunk_counted (hcounted hfinished) hfull
  | readerEpipe | readerShort =>
    refine ⟨hpipe, hdrain, hnotYet, hdone, ?_, by simp⟩
    intro hfinished
    exact ⟨by simp, by simp, by simp, (hcounted hfinished).two⟩
  | readerEmpty hpc hempty =>
    refine ⟨hpipe, hdrain, hnotYet, hdone, ?_, by simp⟩
    intro hfinished
    exact sawEmpty_counted (hcounted hfinished) hpc hempty
  | readerFlag hpc =>
    refine ⟨hpipe, hdrain, ?_, hdone, ?_, by simp⟩
    . intro hnot
      have hnot' : s.writerFinished = false := hnot
      simp [hnot', hnotYet hnot']
    . intro hfinished
      exact passEmpty_counted (hcounted hfinished) hpc hfinished
  | readerClose hpc =>
    refine ⟨hpipe, hdrain, hnotYet, hdone, ?_, by simp⟩
    intro hfinished
    exact ⟨by simp, by simp, by simp, (hcounted hfinished).two⟩
  | signal => simp [pipeWholeNotStale] at hguard

theorem nothingLost_of_safe (hsafe : Safe s) (hconserved : Conserved s) (hleft : s.reader = .left)
    : NothingLost s := by
  have hge := hsafe.left hleft
  have hfinished : s.writerFinished = true := by
    by_contra hnot
    simp only [Bool.not_eq_true] at hnot
    rw [hsafe.notYet hnot] at hge
    contradiction
  have hempty := (hsafe.counted hfinished).two hge
  refine ⟨hempty, ?_⟩
  have hperm := hconserved (by simp [hleft])
  simpa [held, Buffer.toList, hempty] using hperm

end Counted

section Spinning

variable {inp : Input} {s t : State} {a : Act}

/--
When `len` lies within a buffer of the end of the 32 bit range, `finished + size` wraps before it
exceeds `len`: the fill loop goes around for ever.
-/
structure Spinning (s : State) : Prop where
  pipe : s.pipeBroken = false
  size : s.size = bufSize
  finished : s.finished + bufSize ≤ ulong
  dvd : bufSize ∣ s.finished
  main : s.main = .test ∨ s.main = .enter ∨ s.main = .error
  notYet : s.writerFinished = false
  counter : s.emptyCounter = 0
  reader : s.reader ≠ .left

theorem bufSize_dvd_ulong : bufSize ∣ ulong := by
  decide

theorem init_spinning (hwrap : ¬NoWrap inp) : Spinning (init inp) := by
  have hpos := bufSize_pos
  have hulong : 2 * bufSize ≤ ulong := by
    simp [bufSize, ulong]
  unfold NoWrap at hwrap
  have hfirst : firstSize inp = bufSize := by
    simp only [firstSize, gt_iff_lt, ite_eq_left_iff]
    omega
  constructor
  all_goals
    simp only [init, hfirst]
  case finished => omega
  case dvd => exact Nat.dvd_refl _
  all_goals
    simp

theorem spinning_cutSize (hwrap : ¬NoWrap inp) (h : Spinning s) : cutSize inp s = bufSize := by
  unfold NoWrap at hwrap
  have hsum : bufSize ∣ s.finished + bufSize := Nat.dvd_add h.dvd (Nat.dvd_refl _)
  have hle := h.finished
  unfold cutSize
  rw [h.size]
  rw [if_neg]
  cases Nat.lt_or_eq_of_le hle with
  | inl hlt =>
    -- A multiple of the buffer size below the range is at least a buffer below it.
    have hgap : s.finished + bufSize + bufSize ≤ ulong := by
      have hdiff : bufSize ∣ ulong - (s.finished + bufSize) := Nat.dvd_sub bufSize_dvd_ulong hsum
      have := Nat.le_of_dvd (by omega) hdiff
      omega
    rw [Nat.mod_eq_of_lt hlt]
    omega
  | inr heq =>
    rw [heq]
    simp

theorem storeChunk_spinning (hwrap : ¬NoWrap inp) (h : Spinning s)
    : Spinning (storeChunk inp s) := by
  have hcut := spinning_cutSize hwrap h
  have hpos := bufSize_pos
  have hle := h.finished
  have hsum : bufSize ∣ s.finished + bufSize := Nat.dvd_add h.dvd (Nat.dvd_refl _)
  have hfinished : (storeChunk inp s).finished = (s.finished + bufSize) % ulong := by
    simp [storeChunk, receive, State.setBuf, hcut]
  constructor
  case size => exact hcut
  case finished =>
    rw [hfinished]
    cases Nat.lt_or_eq_of_le hle with
    | inl hlt =>
      have hdiff : bufSize ∣ ulong - (s.finished + bufSize) := Nat.dvd_sub bufSize_dvd_ulong hsum
      have := Nat.le_of_dvd (by omega) hdiff
      rw [Nat.mod_eq_of_lt hlt]
      omega
    | inr heq =>
      rw [heq, Nat.mod_self]
      simp [bufSize, ulong]
  case dvd =>
    rw [hfinished]
    exact (Nat.dvd_mod_iff bufSize_dvd_ulong).mpr hsum
  case main => simp [storeChunk]
  all_goals
    simp [storeChunk, receive, State.setBuf, h.pipe, h.notYet, h.counter, h.reader]

theorem spinning_of_moves (hwrap : ¬NoWrap inp) (h : Spinning s) (hsignal : a ≠ .signal)
    (hmove : Moves inp s a t)
    : Spinning t := by
  have ⟨hpipe, hsize, hfinished, hdvd, hmain, hnot, hcounter, hreader⟩ := h
  unfold NoWrap at hwrap
  cases hmove with
  | mainTest | mainSkip | mainFail =>
    exact ⟨hpipe, hsize, hfinished, hdvd, by simp, hnot, hcounter, hreader⟩
  | mainStore => exact storeChunk_spinning hwrap h
  | mainLeave hpc hend =>
    exfalso
    apply hend
    exact ⟨by omega, hpipe⟩
  | mainBroken hpc => simp [hpc] at hmain
  | mainWhole hpc => simp [hpc] at hmain
  | mainDrain hpc => simp [hpc] at hmain
  | mainDrained hpc => simp [hpc] at hmain
  | mainFinish hpc => simp [hpc] at hmain
  | mainJoin hpc => simp [hpc] at hmain
  | readerLeave _ hend =>
    exfalso
    apply hend
    exact ⟨by simp [hcounter], hpipe⟩
  | readerFlag =>
    exact ⟨hpipe, hsize, hfinished, hdvd, hmain, hnot, by simp [hnot, hcounter], by simp⟩
  | signal => contradiction
  | _ => exact ⟨hpipe, hsize, hfinished, hdvd, hmain, hnot, hcounter, by simp [writeChunk]⟩

end Spinning

theorem spinning_of_reaches {guard : State → Act → Prop} {inp : Input} {s : State}
    (hsignal : ∀ s a, guard s a → a ≠ .signal) (hwrap : ¬NoWrap inp)
    (h : System.Reaches (step inp) guard (init inp) s)
    : Spinning s := by
  apply System.Reaches.invariant (init_spinning hwrap) _ h
  intro t u a ht hguard hstep
  exact spinning_of_moves hwrap ht (hsignal t a hguard) (moves_of_step hstep)

theorem nothingLost_of_reaches {inp : Input} {s : State}
    (h : System.Reaches (step inp) pipeWholeNotStale (init inp) s) (hleft : s.reader = .left)
    : NothingLost s := by
  by_cases hwrap : NoWrap inp
  . have hinv : Progress inp s ∧ Safe s ∧ Conserved s := by
      apply System.Reaches.invariant (P := fun s => Progress inp s ∧ Safe s ∧ Conserved s) _ _ h
      . exact ⟨init_progress inp, init_safe inp, init_conserved inp⟩
      . rintro t u a ⟨hprogress, hsafe, hconserved⟩ hguard hstep
        have hmove := moves_of_step hstep
        refine ⟨?_, ?_, ?_⟩
        . exact progress_of_moves hwrap hprogress hmove
        . exact safe_of_moves hsafe hguard hmove
        . apply conserved_of_moves hconserved _ hmove
          intro hpc
          exact (cutSize_spec hwrap hprogress (hprogress.enter hpc)).1
    exact nothingLost_of_safe hinv.2.1 hinv.2.2 hleft
  . have hspin := spinning_of_reaches (fun _ _ hguard => hguard.1) hwrap h
    exact absurd hleft hspin.reader

section OneChunk

variable {inp : Input} {s t : State} {a : Act}

structure OneChunk (inp : Input) (s : State) : Prop where
  finished : s.finished = inp.len
  main : s.main ≠ .enter
  saw : s.reader = .sawEmpty → ¬(s.buf s.readerIdx).Full
  pipe : s.pipeBroken = false
  drain : s.main ≠ .drain

theorem init_oneChunk (hlen : inp.len ≤ bufSize) : OneChunk inp (init inp) := by
  constructor
  case finished =>
    simp only [init, firstSize]
    split
    all_goals
      omega
  all_goals
    simp [init]

theorem oneChunk_of_moves (h : OneChunk inp s) (hsignal : a ≠ .signal) (hmove : Moves inp s a t)
    : OneChunk inp t := by
  have ⟨hfinished, hmain, hsaw, hpipe, hdrain⟩ := h
  cases hmove with
  | mainTest _ hlt => omega
  | mainSkip hpc => contradiction
  | mainStore hpc => contradiction
  | mainFail hpc => contradiction
  | mainBroken _ hbroken => simp [hpipe] at hbroken
  | mainDrain hpc => contradiction
  | mainDrained hpc => contradiction
  | mainLeave | mainWhole | mainFinish | mainJoin =>
    exact ⟨hfinished, by simp, hsaw, hpipe, by simp⟩
  | readerEmpty _ hempty => exact ⟨hfinished, hmain, fun _ => hempty, hpipe, hdrain⟩
  | signal => contradiction
  | _ => exact ⟨hfinished, hmain, by simp [writeChunk], hpipe, hdrain⟩

theorem nothingLost_of_one_chunk (hlen : inp.len ≤ bufSize)
    (h : System.Reaches (step inp) pipeWhole (init inp) s) (hleft : s.reader = .left)
    : NothingLost s := by
  have hrun : System.Reaches (step inp) pipeWholeNotStale (init inp) s := by
    apply System.Reaches.strengthen (init_oneChunk hlen) _ _ h
    . intro t u a ht hguard hstep
      exact oneChunk_of_moves ht hguard (moves_of_step hstep)
    . intro t u a ht hguard _
      refine ⟨hguard, ?_⟩
      rintro _ ⟨hsaw, hfull, _⟩
      exact ht.saw hsaw hfull
  exact nothingLost_of_reaches hrun hleft

end OneChunk

section Lost

variable {inp : Input} {s : State}

structure Level (k : Nat) (s : State) : Prop where
  main : s.main = .test
  reader : s.reader = .test
  idx : s.mainIdx = s.readerIdx
  empty : ∀ i, ¬(s.buf i).Full
  finished : s.finished = k * bufSize
  size : s.size = bufSize
  pipe : s.pipeBroken = false
  notYet : s.writerFinished = false
  counter : s.emptyCounter = 0

theorem level_one (hlen : bufSize < inp.len)
    : ∃ s, System.Reaches (step inp) calm (init inp) s ∧ Level 1 s := by
  have hpos := bufSize_pos
  have hfirst : firstSize inp = bufSize := by
    simp [firstSize, hlen]
  refine ⟨writeChunk (init inp), reader_writes rfl ?_ rfl ?_, ?_⟩
  . simp [init]
  . simp only [init, Buffer.Full, hfirst]
    simp
    omega
  . constructor
    case empty =>
      apply forall_not_full 0
      . exact writeChunk_empty (init inp)
      . simp [writeChunk, init, State.setBuf, next, Buffer.Full]
    all_goals
      simp [writeChunk, init, State.setBuf, hfirst, next]

theorem level_cutSize {k : Nat} (hwrap : NoWrap inp) (hlevel : Level k s)
    (hlt : k * bufSize < inp.len)
    : cutSize inp s = min bufSize (inp.len - k * bufSize) := by
  unfold NoWrap at hwrap
  have hmod : (k * bufSize + bufSize) % ulong = k * bufSize + bufSize := by
    apply Nat.mod_eq_of_lt
    omega
  unfold cutSize
  rw [hlevel.finished, hlevel.size, hmod]
  split
  all_goals
    omega

theorem level_succ {k : Nat} (hwrap : NoWrap inp) (hlevel : Level k s)
    (hlt : (k + 1) * bufSize < inp.len)
    : ∃ t, System.Reaches (step inp) calm s t ∧ Level (k + 1) t := by
  have ⟨hmain, hreader, hidx, hempty, hfinished, hsize, hpipe, hnot, hcounter⟩ := hlevel
  have hpos := bufSize_pos
  have hsum : k * bufSize + bufSize = (k + 1) * bufSize := by
    rw [Nat.add_mul, Nat.one_mul]
  have hcut : cutSize inp s = bufSize := by
    rw [level_cutSize hwrap hlevel (by omega)]
    exact Nat.min_eq_left (by omega)
  have hlen := inp.len_lt
  have hstored : (storeChunk inp s).readerIdx = s.mainIdx := hidx.symm
  have hreader' : (storeChunk inp s).reader = .test := hreader
  -- The filler stores one more chunk, and the reader writes it before the filler goes on.
  refine ⟨writeChunk (storeChunk inp s), .trans (main_stores hmain ?_ hpipe (hempty _)) ?_, ?_⟩
  . omega
  . apply reader_writes hreader'
    . simp [storeChunk, receive, State.setBuf, hcounter]
    . exact hpipe
    . rw [hstored, storeChunk_buf_self, hcut]
      simp only [Buffer.Full]
      omega
  . constructor
    case main => rfl
    case reader => rfl
    case idx =>
      simp only [writeChunk, State.setBuf]
      rw [hstored]
      rfl
    case empty =>
      apply forall_not_full s.mainIdx
      . rw [← hstored]
        exact writeChunk_empty _
      . rw [← hstored, writeChunk_buf_next, hstored, storeChunk_buf_next]
        exact hempty _
    case finished =>
      simp only [writeChunk, storeChunk, receive, State.setBuf]
      rw [hcut, hfinished, hsum]
      apply Nat.mod_eq_of_lt
      omega
    case size => exact hcut
    case pipe => exact hpipe
    case notYet => exact hnot
    case counter => exact hcounter

theorem level_reaches {k : Nat} (hwrap : NoWrap inp) (hk : (k + 1) * bufSize < inp.len)
    : ∃ s, System.Reaches (step inp) calm (init inp) s ∧ Level (k + 1) s := by
  induction k with
  | zero => exact level_one (by simpa using hk)
  | succ k ih =>
    have hless : (k + 1) * bufSize < inp.len := by
      have : (k + 1) * bufSize ≤ (k + 1 + 1) * bufSize := Nat.mul_le_mul_right _ (by omega)
      omega
    rcases ih hless with ⟨s, hs, hlevel⟩
    rcases level_succ hwrap hlevel hk with ⟨t, ht, hlevel'⟩
    exact ⟨t, hs.trans ht, hlevel'⟩

/--
The last chunk is lost: the reader has found the buffer empty, the filler stores the chunk there and
sets `writer_finished`, and the reader counts the buffer as empty, and then the other one.
-/
theorem lost_of_level {k : Nat} (hwrap : NoWrap inp) (hlevel : Level k s)
    (hlt : k * bufSize < inp.len) (hlast : inp.len ≤ (k + 1) * bufSize)
    : ∃ t, System.Reaches (step inp) calm s t ∧ t.reader = .left ∧ (t.buf s.mainIdx).Full := by
  have ⟨hmain, hreader, hidx, hempty, hfinished, hsize, hpipe, hnot, hcounter⟩ := hlevel
  have hsum : k * bufSize + bufSize = (k + 1) * bufSize := by
    rw [Nat.add_mul, Nat.one_mul]
  have hcut : cutSize inp s = inp.len - k * bufSize := by
    rw [level_cutSize hwrap hlevel hlt]
    exact Nat.min_eq_right (by omega)
  have hlt' : s.finished < inp.len := by omega
  -- The reader sees the buffer empty before the chunk is stored, and looks at the flag after it is set.
  let s1 : State := { s with reader := .sawEmpty }
  let s2 : State := storeChunk inp s1
  let s3 : State := { s2 with writerFinished := true, main := .join }
  let s4 : State := passEmpty s3
  let s5 : State := passEmpty { s4 with reader := .sawEmpty }
  have hcut1 : cutSize inp s1 = inp.len - k * bufSize := hcut
  have hlen := inp.len_lt
  have hfull : (s2.buf s.mainIdx).Full := by
    have hbuf : s2.buf s.mainIdx = _ := storeChunk_buf_self inp s1
    rw [hbuf, hcut1]
    simp only [Buffer.Full]
    omega
  have hother : ¬(s2.buf (next s.mainIdx)).Full := by
    have hbuf : s2.buf (next s.mainIdx) = _ := storeChunk_buf_next inp s1
    rw [hbuf]
    exact hempty _
  have hfinished2 : s2.finished = inp.len := by
    have : s2.finished = (s.finished + cutSize inp s1) % ulong := rfl
    rw [this, hcut1, hfinished]
    rw [Nat.mod_eq_of_lt]
    all_goals
      omega
  have hcounter2 : s2.emptyCounter = 0 := hcounter
  have hcounter4 : s4.emptyCounter = 1 := by
    simp [s4, s3, passEmpty, hcounter2]
  have hcounter5 : s5.emptyCounter = 2 := by
    simp [s5, passEmpty, hcounter4]
    rfl
  have hidx4 : s4.readerIdx = next s.mainIdx := by
    rw [hidx]
    rfl
  refine ⟨{ s5 with reader := .left }, ?_, rfl, hfull⟩
  refine .trans (reader_sees_empty hreader (by simp [hcounter]) hpipe (hempty _)) ?_
  refine .trans (main_stores hmain hlt' hpipe (hempty _)) ?_
  refine .trans (main_finishes rfl (Nat.le_of_eq hfinished2.symm) hpipe) ?_
  refine .trans (reader_passes rfl) ?_
  refine .trans (reader_sees_empty rfl (by rw [hcounter4]; decide) hpipe ?_) ?_
  . rw [hidx4]
    exact hother
  refine .trans (reader_passes rfl) ?_
  exact reader_leaves rfl (Nat.le_of_eq hcounter5.symm)

end Lost

theorem pipeWhole_of_calm (s : State) (a : Act) (h : calm s a) : pipeWhole s a :=
  h.2

theorem lost_reaches {inp : Input} (hwrap : NoWrap inp) (hlen : bufSize < inp.len)
    : ∃ s, System.Reaches (step inp) calm (init inp) s ∧ s.reader = .left ∧ ¬NothingLost s := by
  have hpos := bufSize_pos
  -- `k` chunks before the last one
  let k := (inp.len - 1) / bufSize
  have hdiv : bufSize * k + (inp.len - 1) % bufSize = inp.len - 1 := Nat.div_add_mod _ _
  have hmod : (inp.len - 1) % bufSize < bufSize := Nat.mod_lt _ hpos
  have hcomm : k * bufSize = bufSize * k := Nat.mul_comm _ _
  have hk : 0 < k := by
    apply Nat.div_pos
    all_goals
      omega
  have hlt : (k - 1 + 1) * bufSize < inp.len := by
    rw [Nat.sub_add_cancel hk]
    omega
  rcases level_reaches hwrap hlt with ⟨s, hs, hlevel⟩
  rw [Nat.sub_add_cancel hk] at hlevel hlt
  have hlast : inp.len ≤ (k + 1) * bufSize := by
    rw [Nat.add_mul, Nat.one_mul]
    omega
  rcases lost_of_level hwrap hlevel hlt hlast with ⟨t, ht, hleft, hfull⟩
  refine ⟨t, hs.trans ht, hleft, ?_⟩
  intro hnothing
  exact hnothing.1 _ hfull

/--
Whenever the reader leaves its loop by counting, both buffers are empty and everything stored has been
written: this holds under every interleaving exactly when the payload fits the first buffer, or is so
long that the fill loop never ends. Of every payload it holds in the runs in which `writer_finished` is
not set while what the reader has seen is stale.
-/
theorem nothingLost_iff (inp : Input)
    : ((∀ s, System.Reaches (step inp) pipeWhole (init inp) s → s.reader = .left → NothingLost s)
          ↔
        inp.len ≤ bufSize ∨ ulong < inp.len + bufSize)
      ∧ (∀ s, System.Reaches (step inp) pipeWholeNotStale (init inp) s → s.reader = .left
          → NothingLost s) := by
  refine ⟨⟨?_, ?_⟩, ?_⟩
  . intro h
    by_contra hlen
    have hwrap : NoWrap inp := by
      unfold NoWrap
      omega
    rcases lost_reaches hwrap (by omega) with ⟨s, hs, hleft, hlost⟩
    exact hlost (h s (hs.mono pipeWhole_of_calm) hleft)
  . intro hlen s hs hleft
    cases hlen with
    | inl hone => exact nothingLost_of_one_chunk hone hs hleft
    | inr hlong =>
      have hwrap : ¬NoWrap inp := by
        unfold NoWrap
        omega
      have hspin := spinning_of_reaches (fun _ _ hguard => hguard) hwrap hs
      exact absurd hleft hspin.reader
  . intro s hs hleft
    exact nothingLost_of_reaches hs hleft

def twoChunks : Input where
  host _ := 0
  len := 2 * bufSize
  len_lt := by simp [bufSize, ulong]

theorem twoChunks_lost
    : ∃ s, System.Reaches (step twoChunks) pipeWhole (init twoChunks) s
        ∧ s.reader = .left ∧ ¬NothingLost s := by
  have hwrap : NoWrap twoChunks := by
    simp [NoWrap, twoChunks, bufSize, ulong]
  have hlen : bufSize < twoChunks.len := by
    simp [twoChunks, bufSize]
  rcases lost_reaches hwrap hlen with ⟨s, hs, hleft, hlost⟩
  exact ⟨s, hs.mono pipeWhole_of_calm, hleft, hlost⟩

end Streaming
