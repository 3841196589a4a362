import Tboot.Streaming.Lemmas.Basic

/-!
This module contains when the fill loop is left alone: the reader has ended while both buffers hold data,
and nothing will make the loop end.
-/

namespace Streaming

open State (next)

structure Stuck (inp : Input) (s : State) : Prop where
  exited : ∃ code, s.reader = .exited code
  full : ∀ i, (s.buf i).Full
  more : s.finished < inp.len
  pipe : s.pipeBroken = false
  sigpipe : s.sigpipe = false

def anyStep (_ : State) (_ : Act) : Prop :=
  True

/-- A short `fwrite` is one to a broken pipe, and so leaves a SIGPIPE for the signal thread. -/
def shortMeansBroken (s : State) (a : Act) : Prop :=
  (s.buf s.readerIdx).Full → a ≠ .readerSection .short

section Watched

variable {inp : Input} {s t : State} {a : Act}

structure Watched (inp : Input) (s : State) : Prop where
  gone : (s.reader = .left ∨ ∃ code, s.reader = .exited code)
    → s.pipeBroken = true ∨ s.sigpipe = true ∨ s.writerFinished = true
  counted : s.emptyCounter ≠ 0 → s.writerFinished = true
  finished : s.writerFinished = true → s.main = .join ∨ s.main = .joined
  past : s.main = .left ∨ s.main = .finish ∨ s.main = .join ∨ s.main = .joined
    → inp.len ≤ s.finished ∨ s.pipeBroken = true

theorem init_watched (inp : Input) : Watched inp (init inp) := by
  constructor
  all_goals simp [init]

theorem Watched.not_finished (h : Watched inp s) (hjoin : s.main ≠ .join) (hjoined : s.main ≠ .joined)
    : s.writerFinished = false := by
  cases hfinished : s.writerFinished with
  | false => rfl
  | true =>
    cases h.finished hfinished with
    | inl heq => contradiction
    | inr heq => contradiction

theorem Watched.of_main_step (h : Watched inp s) (hjoin : s.main ≠ .join) (hjoined : s.main ≠ .joined)
    (hreader : t.reader = s.reader) (hcounter : t.emptyCounter = s.emptyCounter)
    (hwriter : t.writerFinished = s.writerFinished) (hpipe : t.pipeBroken = s.pipeBroken)
    (hsigpipe : t.sigpipe = s.sigpipe)
    (hpast : t.main = .left ∨ t.main = .finish ∨ t.main = .join ∨ t.main = .joined
      → inp.len ≤ t.finished ∨ t.pipeBroken = true)
    : Watched inp t := by
  have hnot := h.not_finished hjoin hjoined
  refine ⟨?_, ?_, ?_, hpast⟩
  . rw [hreader, hpipe, hsigpipe, hwriter]
    exact h.gone
  . rw [hcounter, hwriter]
    exact h.counted
  . rw [hwriter, hnot]
    intro hfinished
    contradiction

theorem watched_of_moves (h : Watched inp s) (hguard : shortMeansBroken s a) (hmove : Moves inp s a t)
    : Watched inp t := by
  have ⟨hgone, hcounted, hfinished, hpast⟩ := h
  cases hmove with
  | mainTest hpc => exact h.of_main_step (by simp [hpc]) (by simp [hpc]) rfl rfl rfl rfl rfl (by simp)
  | mainLeave hpc hend =>
    refine h.of_main_step (by simp [hpc]) (by simp [hpc]) rfl rfl rfl rfl rfl ?_
    intro _
    cases hpipe : s.pipeBroken with
    | true => exact Or.inr rfl
    | false => exact Or.inl (Nat.le_of_not_lt fun hlt => hend ⟨hlt, hpipe⟩)
  | mainSkip hpc => exact h.of_main_step (by simp [hpc]) (by simp [hpc]) rfl rfl rfl rfl rfl (by simp)
  | mainStore hpc =>
    exact h.of_main_step (by simp [hpc]) (by simp [hpc]) rfl rfl rfl rfl rfl (by simp [storeChunk])
  | mainFail hpc => exact h.of_main_step (by simp [hpc]) (by simp [hpc]) rfl rfl rfl rfl rfl (by simp)
  | mainBroken hpc => exact h.of_main_step (by simp [hpc]) (by simp [hpc]) rfl rfl rfl rfl rfl (by simp)
  | mainWhole hpc =>
    exact h.of_main_step (by simp [hpc]) (by simp [hpc]) rfl rfl rfl rfl rfl
      (fun _ => hpast (Or.inl hpc))
  | mainDrain hpc =>
    exact h.of_main_step (by simp [hpc]) (by simp [hpc]) rfl rfl rfl rfl rfl (by simp [receive, hpc])
  | mainDrained hpc => exact h.of_main_step (by simp [hpc]) (by simp [hpc]) rfl rfl rfl rfl rfl (by simp)
  | mainFinish hpc =>
    exact ⟨fun _ => Or.inr (Or.inr rfl), fun _ => rfl, fun _ => Or.inl rfl,
      fun _ => hpast (Or.inr (Or.inl hpc))⟩
  | mainJoin hpc =>
    exact ⟨hgone, hcounted, fun _ => Or.inr rfl, fun _ => hpast (Or.inr (Or.inr (Or.inl hpc)))⟩
  | readerTest => exact ⟨by simp, hcounted, hfinished, hpast⟩
  | readerLeave hpc hend =>
    refine ⟨fun _ => ?_, hcounted, hfinished, hpast⟩
    cases hpipe : s.pipeBroken with
    | true => exact Or.inl rfl
    | false =>
      right
      right
      apply hcounted
      intro hzero
      exact hend ⟨by rw [hzero]; decide, hpipe⟩
  | readerWrite => exact ⟨by simp [writeChunk], hcounted, hfinished, hpast⟩
  | readerEpipe => exact ⟨fun _ => Or.inr (Or.inl rfl), hcounted, hfinished, hpast⟩
  | readerShort hpc hfull => exact absurd rfl (hguard hfull)
  | readerEmpty => exact ⟨by simp, hcounted, hfinished, hpast⟩
  | readerFlag =>
    refine ⟨by simp, ?_, hfinished, hpast⟩
    dsimp only
    split
    . next hwriter => exact fun _ => hwriter
    . exact hcounted
  | readerClose hpc => exact ⟨fun _ => hgone (Or.inl hpc), hcounted, hfinished, hpast⟩
  | signal => exact ⟨fun _ => Or.inl rfl, hcounted, hfinished, fun _ => Or.inr rfl⟩

theorem not_stuck_of_watched (h : Watched inp s) : ¬Stuck inp s := by
  intro ⟨hexited, _, hmore, hpipe, hsigpipe⟩
  have hfinished : s.writerFinished = true := by
    simpa [hpipe, hsigpipe] using h.gone (Or.inr hexited)
  have hpast := h.past (Or.inr (Or.inr (h.finished hfinished)))
  cases hpast with
  | inl hle => omega
  | inr hbroken => simp [hpipe] at hbroken

end Watched

section TwoBuffers

variable {inp : Input} {s t : State} {a : Act}

structure FirstStored (inp : Input) (s : State) : Prop where
  finished : s.finished = firstSize inp
  size : s.size = firstSize inp
  mainIdx : s.mainIdx = 1
  empty : ¬(s.buf 1).Full

theorem init_firstStored (inp : Input) : FirstStored inp (init inp) := by
  constructor
  all_goals simp [init, Buffer.Full]

theorem FirstStored.of_moves (h : FirstStored inp s) (hlen : inp.len ≤ 2 * bufSize)
    (hprogress : Progress inp s) (hmove : Moves inp s a t)
    : FirstStored inp t ∨ t.finished = inp.len := by
  have hwrap : NoWrap inp := by
    simp only [NoWrap, bufSize, ulong] at *
    omega
  have ⟨hfinished, hsize, hidx, hempty⟩ := h
  cases hmove with
  | mainStore hpc => exact Or.inr (second_chunk_ends hwrap hlen hprogress hfinished hsize (hprogress.enter hpc))
  | mainDrain hpc hlt => exact Or.inr (second_chunk_ends hwrap hlen hprogress hfinished hsize hlt)
  | mainSkip hpc hfull =>
    rw [hidx] at hfull
    contradiction
  | readerWrite hpc hfull =>
    refine Or.inl ⟨hfinished, hsize, hidx, ?_⟩
    cases eq_or_eq_next 1 s.readerIdx with
    | inl heq =>
      rw [heq] at hfull
      contradiction
    | inr heq =>
      simpa [writeChunk, State.setBuf, heq] using hempty
  | _ => exact Or.inl ⟨hfinished, hsize, hidx, hempty⟩

theorem finished_stays (h : s.finished = inp.len) (hprogress : Progress inp s) (hmove : Moves inp s a t)
    : t.finished = inp.len := by
  cases hmove with
  | mainStore hpc =>
    have hlt := hprogress.enter hpc
    omega
  | mainDrain hpc hlt => omega
  | _ => exact h

theorem not_stuck_of_two_buffers (hlen : inp.len ≤ 2 * bufSize)
    (h : System.Reaches (step inp) anyStep (init inp) s)
    : ¬Stuck inp s := by
  have hwrap : NoWrap inp := by
    simp only [NoWrap, bufSize, ulong] at *
    omega
  have hinv : Progress inp s ∧ (FirstStored inp s ∨ s.finished = inp.len) := by
    refine System.Reaches.invariant (P := fun s => Progress inp s ∧ (FirstStored inp s ∨ s.finished = inp.len))
      ?_ ?_ h
    . exact ⟨init_progress inp, Or.inl (init_firstStored inp)⟩
    . intro t u a ⟨hprogress, hstored⟩ _ hstep
      have hmove := moves_of_step hstep
      refine ⟨progress_of_moves hwrap hprogress hmove, ?_⟩
      cases hstored with
      | inl hfirst => exact hfirst.of_moves hlen hprogress hmove
      | inr hend => exact Or.inr (finished_stays hend hprogress hmove)
  intro hstuck
  cases hinv.right with
  | inl hfirst => exact hfirst.empty (hstuck.full 1)
  | inr hend =>
    have hmore := hstuck.more
    omega

end TwoBuffers

section ShortWrite

variable {inp : Input}

def readerDied (inp : Input) : State :=
  { init inp with
    written := [((init inp).buf 0).chunk]
    reader := .exited (-1) }

def afterShort (inp : Input) : State :=
  storeChunk inp (readerDied inp)

theorem afterShort_reaches (hlen : 2 * bufSize < inp.len)
    : System.Reaches (step inp) anyStep (init inp) (afterShort inp) := by
  have hpos := bufSize_pos
  have hfirst : firstSize inp = bufSize := firstSize_eq (by omega)
  have hfull : ((init inp).buf 0).Full := by
    simp only [init, Buffer.Full, hfirst, ↓reduceIte]
    omega
  have hshort : System.Reaches (step inp) anyStep (init inp) (readerDied inp) := by
    apply System.Reaches.tail (t := { init inp with reader := .enter }) (a := .readerSection .short)
    . apply System.Reaches.tail .refl (a := .readerTest) trivial
      exact step_of_moves (.readerTest rfl (by simp [init]) rfl)
    . trivial
    . exact step_of_moves (.readerShort rfl hfull)
  refine hshort.trans ?_
  apply System.Reaches.mono (fun _ _ _ => trivial)
  refine main_stores rfl ?_ rfl ?_
  . simp only [readerDied, init, hfirst]
    omega
  . simp [readerDied, init, Buffer.Full]

theorem afterShort_stuck (hlen : 2 * bufSize < inp.len) : Stuck inp (afterShort inp) := by
  have hpos := bufSize_pos
  have hfirst : firstSize inp = bufSize := firstSize_eq (by omega)
  have hulong : 2 * bufSize < ulong := by
    simp [bufSize, ulong]
  have hmod : (bufSize + bufSize) % ulong = bufSize + bufSize := Nat.mod_eq_of_lt (by omega)
  have hnocut : ¬ inp.len < bufSize + bufSize := by omega
  refine ⟨⟨-1, rfl⟩, ?_, ?_, rfl, rfl⟩
  . intro i
    unfold afterShort Buffer.Full
    cases eq_or_eq_next (readerDied inp).mainIdx i with
    | inl heq =>
      rw [heq, storeChunk_buf_self]
      simp only [cutSize, readerDied, init, hfirst, hmod, gt_iff_lt, hnocut, ↓reduceIte]
      omega
    | inr heq =>
      rw [heq, storeChunk_buf_next]
      simp only [readerDied, init, hfirst, next, Fin.isValue, Fin.reduceAdd, ↓reduceIte]
      omega
  . simp only [afterShort, storeChunk, receive, State.setBuf, readerDied, init, cutSize, hfirst, hmod,
      gt_iff_lt, hnocut, ↓reduceIte]
    omega

end ShortWrite

/--
The fill loop is never left alone with two full buffers: this holds under every interleaving and every
cause of a short write exactly for the payloads that fit the two buffers. Of every payload it holds in
the runs in which a short write means a broken pipe.
-/
theorem not_stuck_iff (inp : Input)
    : ((∀ s, System.Reaches (step inp) anyStep (init inp) s → ¬Stuck inp s) ↔ inp.len ≤ 2 * bufSize)
      ∧ (∀ s, System.Reaches (step inp) shortMeansBroken (init inp) s → ¬Stuck inp s) := by
  refine ⟨⟨?_, ?_⟩, ?_⟩
  . intro h
    by_contra hlen
    have hlong : 2 * bufSize < inp.len := by omega
    exact h _ (afterShort_reaches hlong) (afterShort_stuck hlong)
  . intro hlen s hs
    exact not_stuck_of_two_buffers hlen hs
  . intro s hs
    apply not_stuck_of_watched
    apply System.Reaches.invariant (init_watched inp) _ hs
    intro t u a ht hguard hstep
    exact watched_of_moves ht hguard (moves_of_step hstep)

def threeBuffers : Input where
  host _ := 0
  len := 3 * bufSize
  len_lt := by simp [bufSize, ulong]

theorem threeBuffers_stuck
    : ∃ s, System.Reaches (step threeBuffers) anyStep (init threeBuffers) s ∧ Stuck threeBuffers s := by
  have hlen : 2 * bufSize < threeBuffers.len := by
    simp [threeBuffers, bufSize]
  exact ⟨_, afterShort_reaches hlen, afterShort_stuck hlen⟩

end Streaming
