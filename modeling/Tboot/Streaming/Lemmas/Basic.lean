import Tboot.Streaming.Impl

/-!
This module contains what a single step of the streaming threads can do, and the part of their state
that does not depend on how the threads are interleaved: how far the fill loop has come.
-/

namespace Streaming

open State (next)

@[simp]
theorem next_next (i : Fin nrBuffer) : next (next i) = i := by
  revert i
  decide

@[simp]
theorem next_ne (i : Fin nrBuffer) : next i ≠ i := by
  revert i
  decide

@[simp]
theorem ne_next (i : Fin nrBuffer) : i ≠ next i := by
  revert i
  decide

theorem eq_or_eq_next (i j : Fin nrBuffer) : j = i ∨ j = next i := by
  revert i j
  decide

namespace State

@[simp]
theorem setBuf_buf_self (s : State) (i : Fin nrBuffer) (b : Buffer) : (s.setBuf i b).buf i = b := by
  simp [setBuf]

@[simp]
theorem setBuf_buf_next (s : State) (i : Fin nrBuffer) (b : Buffer)
    : (s.setBuf i b).buf (next i) = s.buf (next i) := by
  simp [setBuf]

end State

def Buffer.toList (b : Buffer) : List Chunk :=
  if b.Full then [b.chunk] else []

@[simp]
theorem Buffer.toList_full {b : Buffer} (h : b.Full) : b.toList = [b.chunk] := by
  simp [toList, h]

@[simp]
theorem Buffer.toList_empty {b : Buffer} (h : ¬b.Full) : b.toList = [] := by
  simp [toList, h]

theorem storeChunk_buf_self (inp : Input) (s : State)
    : (storeChunk inp s).buf s.mainIdx
        =
      ⟨Bytes.slice inp.host s.received (cutSize inp s), cutSize inp s, s.received⟩ := by
  simp [storeChunk]

theorem storeChunk_buf_next (inp : Input) (s : State)
    : (storeChunk inp s).buf (next s.mainIdx) = s.buf (next s.mainIdx) := by
  simp [storeChunk, receive, State.setBuf]

theorem storeChunk_toList {inp : Input} {s : State} (hsize : 0 < cutSize inp s)
    : ((storeChunk inp s).buf s.mainIdx).toList
        =
      [⟨s.received, Bytes.slice inp.host s.received (cutSize inp s)⟩] := by
  rw [storeChunk_buf_self]
  rw [Buffer.toList_full]
  . simp [Buffer.chunk, List.take_of_length_le]
  . simp only [Buffer.Full]
    omega

theorem writeChunk_empty (s : State) : ¬((writeChunk s).buf s.readerIdx).Full := by
  simp [writeChunk, Buffer.Full]

theorem writeChunk_buf_next (s : State)
    : (writeChunk s).buf (next s.readerIdx) = s.buf (next s.readerIdx) := by
  simp [writeChunk, State.setBuf]

/--
All that `step` can do: one case for each branch of the two threads, with what the branch tests.
-/
inductive Moves (inp : Input) (s : State) : Act → State → Prop where
  | mainTest (hpc : s.main = .test) (hlt : s.finished < inp.len) (hpipe : s.pipeBroken = false)
      : Moves inp s .mainTest { s with main := .enter }
  | mainLeave (hpc : s.main = .test) (hend : ¬(s.finished < inp.len ∧ s.pipeBroken = false))
      : Moves inp s .mainTest { s with main := .left }
  | mainSkip {ok : Bool} (hpc : s.main = .enter) (hfull : (s.buf s.mainIdx).Full)
      : Moves inp s (.mainSection ok) { s with mainIdx := next s.mainIdx, main := .test }
  | mainStore (hpc : s.main = .enter) (hfull : ¬(s.buf s.mainIdx).Full)
      : Moves inp s (.mainSection true) (storeChunk inp s)
  | mainFail (hpc : s.main = .enter) (hfull : ¬(s.buf s.mainIdx).Full)
      : Moves inp s (.mainSection false) { s with main := .error }
  | mainBroken (hpc : s.main = .left) (hpipe : s.pipeBroken = true)
      : Moves inp s .mainBroken { s with main := .drain }
  | mainWhole (hpc : s.main = .left) (hpipe : s.pipeBroken = false)
      : Moves inp s .mainBroken { s with main := .finish }
  | mainDrain (hpc : s.main = .drain) (hlt : s.finished < inp.len)
      : Moves inp s (.mainDrain true) (receive inp s)
  | mainDrained {ok : Bool} (hpc : s.main = .drain) (hend : ¬(s.finished < inp.len ∧ ok = true))
      : Moves inp s (.mainDrain ok) { s with main := .error }
  | mainFinish (hpc : s.main = .finish)
      : Moves inp s .mainFinish { s with writerFinished := true, main := .join }
  | mainJoin {code : Int} (hpc : s.main = .join) (hreader : s.reader = .exited code)
      : Moves inp s .mainJoin { s with main := .joined }
  | readerTest (hpc : s.reader = .test) (hlt : s.emptyCounter < nrBuffer)
      (hpipe : s.pipeBroken = false)
      : Moves inp s .readerTest { s with reader := .enter }
  | readerLeave (hpc : s.reader = .test)
      (hend : ¬(s.emptyCounter < nrBuffer ∧ s.pipeBroken = false))
      : Moves inp s .readerTest { s with reader := .left }
  | readerWrite (hpc : s.reader = .enter) (hfull : (s.buf s.readerIdx).Full)
      : Moves inp s (.readerSection .full) (writeChunk s)
  | readerEpipe (hpc : s.reader = .enter) (hfull : (s.buf s.readerIdx).Full)
      : Moves inp s (.readerSection .epipe)
          { s with
            written := s.written ++ [(s.buf s.readerIdx).chunk]
            reader := .exited (-1)
            sigpipe := true }
  | readerShort (hpc : s.reader = .enter) (hfull : (s.buf s.readerIdx).Full)
      : Moves inp s (.readerSection .short)
          { s with
            written := s.written ++ [(s.buf s.readerIdx).chunk]
            reader := .exited (-1) }
  | readerEmpty {r : Fwrite} (hpc : s.reader = .enter) (hfull : ¬(s.buf s.readerIdx).Full)
      : Moves inp s (.readerSection r) { s with reader := .sawEmpty }
  | readerFlag (hpc : s.reader = .sawEmpty)
      : Moves inp s .readerFlag
          { s with
            emptyCounter := if s.writerFinished then s.emptyCounter + 1 else s.emptyCounter
            readerIdx := next s.readerIdx
            reader := .test }
  | readerClose {ok : Bool} (hpc : s.reader = .left)
      : Moves inp s (.readerClose ok) { s with reader := .exited (if ok then 0 else -1) }
  | signal (hsig : s.sigpipe = true)
      : Moves inp s .signal { s with sigpipe := false, pipeBroken := true }

theorem moves_of_mainStep {inp : Input} {s t : State} {a : Act} (h : mainStep inp s a = some t)
    : Moves inp s a t := by
  unfold mainStep at h
  split at h
  . next hpc =>
    split at h
    . next hif =>
      cases h
      exact .mainTest hpc hif.1 hif.2
    . next hif =>
      cases h
      exact .mainLeave hpc hif
  . next ok hpc =>
    split at h
    . next hfull =>
      cases h
      exact .mainSkip hpc hfull
    . next hfull =>
      cases ok
      all_goals
        cases h
      . exact .mainFail hpc hfull
      . exact .mainStore hpc hfull
  . next hpc =>
    split at h
    . next hif =>
      cases h
      exact .mainBroken hpc hif
    . next hif =>
      cases h
      exact .mainWhole hpc (by simpa using hif)
  . next ok hpc =>
    split at h
    . next hif =>
      cases h
      rw [hif.2]
      exact .mainDrain hpc hif.1
    . next hif =>
      cases h
      exact .mainDrained hpc hif
  . next hpc =>
    cases h
    exact .mainFinish hpc
  . next hpc =>
    split at h
    . next hreader =>
      cases h
      exact .mainJoin hpc hreader
    . cases h
  . cases h

theorem moves_of_readerStep {inp : Input} {s t : State} {a : Act} (h : readerStep s a = some t)
    : Moves inp s a t := by
  unfold readerStep at h
  split at h
  . next hpc =>
    split at h
    . next hif =>
      cases h
      exact .readerTest hpc hif.1 hif.2
    . next hif =>
      cases h
      exact .readerLeave hpc hif
  . next r hpc =>
    dsimp only at h
    split at h
    . next hfull =>
      cases r
      all_goals
        cases h
      . exact .readerWrite hpc hfull
      . exact .readerEpipe hpc hfull
      . exact .readerShort hpc hfull
    . next hfull =>
      cases h
      exact .readerEmpty hpc hfull
  . next hpc =>
    cases h
    exact .readerFlag hpc
  . next hpc =>
    cases h
    exact .readerClose hpc
  . cases h

theorem moves_of_step {inp : Input} {s t : State} {a : Act} (h : step inp s a = some t)
    : Moves inp s a t := by
  unfold step at h
  split at h
  case h_11 =>
    unfold signalStep at h
    split at h
    . next hif =>
      cases h
      exact .signal hif
    . cases h
  all_goals
    first
      | exact moves_of_mainStep h
      | exact moves_of_readerStep h

theorem step_of_moves {inp : Input} {s t : State} {a : Act} (h : Moves inp s a t)
    : step inp s a = some t := by
  cases h with
  | mainTest hpc hlt hpipe => simp [step, mainStep, hpc, hlt, hpipe]
  | mainLeave hpc hend => simp only [step, mainStep, hpc, hend, ↓reduceIte]
  | mainSkip hpc hfull => simp [step, mainStep, hpc, hfull]
  | mainStore hpc hfull => simp [step, mainStep, hpc, hfull]
  | mainFail hpc hfull => simp [step, mainStep, hpc, hfull]
  | mainBroken hpc hpipe => simp [step, mainStep, hpc, hpipe]
  | mainWhole hpc hpipe => simp [step, mainStep, hpc, hpipe]
  | mainDrain hpc hlt => simp [step, mainStep, hpc, hlt]
  | mainDrained hpc hend => simp only [step, mainStep, hpc, hend, ↓reduceIte]
  | mainFinish hpc => simp [step, mainStep, hpc]
  | mainJoin hpc hreader => simp [step, mainStep, hpc, hreader]
  | readerTest hpc hlt hpipe => simp [step, readerStep, hpc, hlt, hpipe]
  | readerLeave hpc hend => simp only [step, readerStep, hpc, hend, ↓reduceIte]
  | readerWrite hpc hfull => simp [step, readerStep, hpc, hfull]
  | readerEpipe hpc hfull => simp [step, readerStep, hpc, hfull]
  | readerShort hpc hfull => simp [step, readerStep, hpc, hfull]
  | readerEmpty hpc hfull => simp [step, readerStep, hpc, hfull]
  | readerFlag hpc => simp [step, readerStep, hpc]
  | readerClose hpc => simp [step, readerStep, hpc]
  | signal hsig => simp [step, signalStep, hsig]

def NoError : Act → Prop
  | .mainSection ok => ok = true
  | .mainDrain ok => ok = true
  | .readerSection r => r = .full
  | _ => True

def errorFree (_ : State) (a : Act) : Prop :=
  NoError a

def calm (_ : State) (a : Act) : Prop :=
  NoError a ∧ a ≠ .signal

theorem errorFree_of_calm (s : State) (a : Act) (h : calm s a) : errorFree s a :=
  h.1

def passEmpty (s : State) : State :=
  { s with
    emptyCounter := if s.writerFinished then s.emptyCounter + 1 else s.emptyCounter
    readerIdx := next s.readerIdx
    reader := .test }

section Turns

/-!
Whole turns of the two loops, to put together runs of.
-/

variable {inp : Input} {s : State}

theorem main_stores (hpc : s.main = .test) (hlt : s.finished < inp.len)
    (hpipe : s.pipeBroken = false) (hempty : ¬(s.buf s.mainIdx).Full)
    : System.Reaches (step inp) calm s (storeChunk inp s) := by
  apply System.Reaches.tail (t := { s with main := .enter }) (a := .mainSection true)
  . apply System.Reaches.tail .refl (a := .mainTest)
    . simp [calm, NoError]
    . exact step_of_moves (.mainTest hpc hlt hpipe)
  . simp [calm, NoError]
  . exact step_of_moves (.mainStore rfl hempty)

theorem reader_writes (hpc : s.reader = .test) (hlt : s.emptyCounter < nrBuffer)
    (hpipe : s.pipeBroken = false) (hfull : (s.buf s.readerIdx).Full)
    : System.Reaches (step inp) calm s (writeChunk s) := by
  apply System.Reaches.tail (t := { s with reader := .enter }) (a := .readerSection .full)
  . apply System.Reaches.tail .refl (a := .readerTest)
    . simp [calm, NoError]
    . exact step_of_moves (.readerTest hpc hlt hpipe)
  . simp [calm, NoError]
  . exact step_of_moves (.readerWrite rfl hfull)

theorem reader_sees_empty (hpc : s.reader = .test) (hlt : s.emptyCounter < nrBuffer)
    (hpipe : s.pipeBroken = false) (hempty : ¬(s.buf s.readerIdx).Full)
    : System.Reaches (step inp) calm s { s with reader := .sawEmpty } := by
  apply System.Reaches.tail (t := { s with reader := .enter }) (a := .readerSection .full)
  . apply System.Reaches.tail .refl (a := .readerTest)
    . simp [calm, NoError]
    . exact step_of_moves (.readerTest hpc hlt hpipe)
  . simp [calm, NoError]
  . exact step_of_moves (.readerEmpty rfl hempty)

theorem reader_passes (hpc : s.reader = .sawEmpty)
    : System.Reaches (step inp) calm s (passEmpty s) := by
  apply System.Reaches.tail .refl (a := .readerFlag)
  . simp [calm, NoError]
  . exact step_of_moves (.readerFlag hpc)

theorem reader_leaves (hpc : s.reader = .test) (hge : nrBuffer ≤ s.emptyCounter)
    : System.Reaches (step inp) calm s { s with reader := .left } := by
  apply System.Reaches.tail .refl (a := .readerTest)
  . simp [calm, NoError]
  . apply step_of_moves
    apply Moves.readerLeave hpc
    omega

theorem main_finishes (hpc : s.main = .test) (hge : inp.len ≤ s.finished)
    (hpipe : s.pipeBroken = false)
    : System.Reaches (step inp) calm s { s with writerFinished := true, main := .join } := by
  apply System.Reaches.tail (t := { s with main := .finish }) (a := .mainFinish)
  . apply System.Reaches.tail (t := { s with main := .left }) (a := .mainBroken)
    . apply System.Reaches.tail .refl (a := .mainTest)
      . simp [calm, NoError]
      . apply step_of_moves
        apply Moves.mainLeave hpc
        omega
    . simp [calm, NoError]
    . exact step_of_moves (.mainWhole rfl hpipe)
  . simp [calm, NoError]
  . exact step_of_moves (.mainFinish rfl)

end Turns

/--
How far the fill loop has come, as long as the sums of the loop do not wrap: `finished` counts the
bytes received, and both loops only ask for bytes of the payload.
-/
structure Progress (inp : Input) (s : State) : Prop where
  received : s.received = s.finished
  le_len : s.finished ≤ inp.len
  size_le : s.size ≤ bufSize
  size_pos : s.finished < inp.len → 0 < s.size
  enter : s.main = .enter → s.finished < inp.len

def NoWrap (inp : Input) : Prop :=
  inp.len + bufSize ≤ ulong

section Progress

variable {inp : Input} {s t : State} {a : Act}

theorem bufSize_pos : 0 < bufSize := by
  decide

theorem init_progress (inp : Input) : Progress inp (init inp) := by
  have := bufSize_pos
  constructor
  case received => rfl
  case enter => simp [init]
  all_goals
    simp only [init, firstSize]
    split
    all_goals
      omega

theorem cutSize_spec (hwrap : NoWrap inp) (h : Progress inp s) (hlt : s.finished < inp.len)
    : 0 < cutSize inp s ∧ cutSize inp s ≤ s.size ∧ s.finished + cutSize inp s ≤ inp.len := by
  have hpos := h.size_pos hlt
  have hsize := h.size_le
  unfold NoWrap at hwrap
  have hmod : (s.finished + s.size) % ulong = s.finished + s.size := by
    apply Nat.mod_eq_of_lt
    omega
  unfold cutSize
  rw [hmod]
  split
  all_goals
    omega

theorem finished_add_cutSize (hwrap : NoWrap inp) (h : Progress inp s) (hlt : s.finished < inp.len)
    : (s.finished + cutSize inp s) % ulong = s.finished + cutSize inp s := by
  have hcut := cutSize_spec hwrap h hlt
  have hlen := inp.len_lt
  apply Nat.mod_eq_of_lt
  omega

theorem firstSize_eq (hlen : bufSize < inp.len) : firstSize inp = bufSize := by
  simp [firstSize, hlen]

theorem second_chunk_ends (hwrap : NoWrap inp) (hlen : inp.len ≤ 2 * bufSize) (h : Progress inp s)
    (hfirst : s.finished = firstSize inp) (hsize : s.size = firstSize inp) (hlt : s.finished < inp.len)
    : (s.finished + cutSize inp s) % ulong = inp.len := by
  have hcut := cutSize_spec hwrap h hlt
  have hbuf : firstSize inp = bufSize := by
    apply firstSize_eq
    unfold firstSize at hfirst
    split at hfirst
    all_goals omega
  rw [finished_add_cutSize hwrap h hlt]
  unfold NoWrap at hwrap
  have hmod : (s.finished + s.size) % ulong = s.finished + s.size := by
    apply Nat.mod_eq_of_lt
    omega
  unfold cutSize at *
  rw [hmod] at *
  split
  all_goals omega

theorem receive_progress (hwrap : NoWrap inp) (h : Progress inp s) (hlt : s.finished < inp.len)
    (hpc : s.main ≠ .enter)
    : Progress inp (receive inp s) := by
  have hcut := cutSize_spec hwrap h hlt
  have hmod := finished_add_cutSize hwrap h hlt
  have hsize := h.size_le
  have hrec := h.received
  constructor
  all_goals
    simp only [receive, hmod]
  case enter =>
    intro hpc'
    contradiction
  all_goals
    omega

theorem storeChunk_progress (hwrap : NoWrap inp) (h : Progress inp s) (hlt : s.finished < inp.len)
    : Progress inp (storeChunk inp s) := by
  have hcut := cutSize_spec hwrap h hlt
  have hmod := finished_add_cutSize hwrap h hlt
  have hsize := h.size_le
  have hrec := h.received
  constructor
  all_goals
    simp only [storeChunk, State.setBuf, receive, hmod]
  case enter => simp
  all_goals
    omega

theorem progress_of_moves (hwrap : NoWrap inp) (h : Progress inp s) (hmove : Moves inp s a t)
    : Progress inp t := by
  have ⟨hrec, hlen, hsize, hpos, henter⟩ := h
  cases hmove with
  | mainTest _ hlt _ => exact ⟨hrec, hlen, hsize, hpos, fun _ => hlt⟩
  | mainStore hpc _ => exact storeChunk_progress hwrap h (henter hpc)
  | mainDrain hpc hlt => exact receive_progress hwrap h hlt (by simp [hpc])
  | readerWrite => exact ⟨hrec, hlen, hsize, hpos, henter⟩
  | _ =>
    refine ⟨hrec, hlen, hsize, hpos, ?_⟩
    first
      | exact henter
      | simp

end Progress

end Streaming
