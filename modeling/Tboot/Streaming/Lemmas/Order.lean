import Tboot.Streaming.Lemmas.Basic

/-!
This module contains the order in which a streaming flash passes the payload on: when the reader comes
to the two buffers in the order in which they were filled, and what happens when it does not.
-/

namespace Streaming

open State (next)

def Contiguous (pos : Nat) : List Chunk → Prop
  | [] => True
  | c :: cs => c.pos = pos ∧ Contiguous (pos + c.bytes.length) cs

def InOrder (inp : Input) (s : State) : Prop :=
  Contiguous 0 s.written ∧ s.written.flatMap Chunk.bytes <+: inp.payload

def Tiles (host : Nat → UInt8) (pos : Nat) (cs : List Chunk) (stop : Nat) : Prop :=
  match cs with
  | [] => pos = stop
  | c :: cs =>
    c.pos = pos ∧ c.bytes = Bytes.slice host pos c.bytes.length
      ∧ Tiles host (pos + c.bytes.length) cs stop

namespace Tiles

variable {host : Nat → UInt8} {pos stop : Nat} {cs ds : List Chunk}

theorem append_iff
    : Tiles host pos (cs ++ ds) stop
        ↔
      ∃ mid, Tiles host pos cs mid ∧ Tiles host mid ds stop := by
  induction cs generalizing pos with
  | nil => simp [Tiles]
  | cons c cs ih =>
    simp only [List.cons_append, Tiles, ih]
    constructor
    . rintro ⟨hpos, hbytes, mid, hcs, hds⟩
      exact ⟨mid, ⟨hpos, hbytes, hcs⟩, hds⟩
    . rintro ⟨mid, ⟨hpos, hbytes, hcs⟩, hds⟩
      exact ⟨hpos, hbytes, mid, hcs, hds⟩

theorem contiguous (h : Tiles host pos cs stop) : Contiguous pos cs := by
  induction cs generalizing pos with
  | nil => simp [Contiguous]
  | cons c cs ih =>
    rcases h with ⟨hpos, _, hrest⟩
    exact ⟨hpos, ih hrest⟩

theorem flatMap_bytes (h : Tiles host pos cs stop)
    : pos ≤ stop ∧ cs.flatMap Chunk.bytes = Bytes.slice host pos (stop - pos) := by
  induction cs generalizing pos with
  | nil =>
    simp only [Tiles] at h
    simp [h]
  | cons c cs ih =>
    rcases h with ⟨_, hbytes, hrest⟩
    have ⟨hle, htail⟩ := ih hrest
    refine ⟨by omega, ?_⟩
    rw [List.flatMap_cons, htail]
    nth_rewrite 1 [hbytes]
    rw [Bytes.slice_append]
    congr
    omega

theorem push (h : Tiles host pos cs stop) (size : Nat)
    : Tiles host pos (cs ++ [⟨stop, Bytes.slice host stop size⟩]) (stop + size) := by
  rw [append_iff]
  refine ⟨stop, h, ?_⟩
  simp [Tiles]

end Tiles

def cursor (s : State) : Fin nrBuffer :=
  if s.reader = .sawEmpty then next s.readerIdx else s.readerIdx

def pending (s : State) : List Chunk :=
  (s.buf (cursor s)).toList ++ (s.buf (next (cursor s))).toList

/--
The guard that keeps the order: when the filler stores a chunk while the other buffer is full, the
reader comes to the other buffer first.
-/
def ReaderFirst (s : State) : Act → Prop
  | .mainSection _ =>
    ¬(s.buf s.mainIdx).Full → (s.buf (next s.mainIdx)).Full → cursor s = next s.mainIdx
  | _ => True

section Step

variable {inp : Input} {s t : State} {a : Act}

def Ordered (inp : Input) (s : State) : Prop :=
  Tiles inp.host 0 (s.written ++ pending s) s.received

theorem storeChunk_pending (hempty : ¬(s.buf s.mainIdx).Full)
    (hfirst : (s.buf (next s.mainIdx)).Full → cursor s = next s.mainIdx)
    (hsize : 0 < cutSize inp s)
    : pending (storeChunk inp s)
        =
      pending s ++ [⟨s.received, Bytes.slice inp.host s.received (cutSize inp s)⟩] := by
  have hcursor : cursor (storeChunk inp s) = cursor s := rfl
  have hnew := storeChunk_toList hsize
  have hother := storeChunk_buf_next inp s
  unfold pending
  rw [hcursor]
  cases eq_or_eq_next s.mainIdx (cursor s) with
  | inl heq =>
    -- The reader comes to the new chunk first, so the other buffer has to be empty.
    have hother' : ¬(s.buf (next s.mainIdx)).Full := by
      intro hfull
      have := hfirst hfull
      simp [heq] at this
    rw [heq]
    rw [hnew, hother]
    rw [Buffer.toList_empty hother', Buffer.toList_empty hempty]
    simp
  | inr heq =>
    rw [heq]
    rw [next_next]
    rw [hnew, hother]
    rw [Buffer.toList_empty hempty]
    simp

theorem writeChunk_pending (hpc : s.reader = .enter) (hfull : (s.buf s.readerIdx).Full)
    : (writeChunk s).written ++ pending (writeChunk s) = s.written ++ pending s := by
  have hcursor : cursor s = s.readerIdx := by
    simp [cursor, hpc]
  have hcursor' : cursor (writeChunk s) = next s.readerIdx := by
    simp [cursor, writeChunk]
  have hself := Buffer.toList_empty (writeChunk_empty s)
  have hother := writeChunk_buf_next s
  have hwritten : (writeChunk s).written = s.written ++ [(s.buf s.readerIdx).chunk] := rfl
  unfold pending
  rw [hcursor, hcursor', next_next]
  rw [hself, hother, hwritten]
  rw [Buffer.toList_full hfull]
  simp

theorem sawEmpty_pending (hpc : s.reader = .enter) (hempty : ¬(s.buf s.readerIdx).Full)
    : pending { s with reader := .sawEmpty } = pending s := by
  have hcursor : cursor s = s.readerIdx := by
    simp [cursor, hpc]
  have hcursor' : cursor { s with reader := .sawEmpty } = next s.readerIdx := by
    simp [cursor]
  unfold pending
  rw [hcursor, hcursor', next_next]
  rw [Buffer.toList_empty hempty]
  simp

theorem ordered_congr (h : Ordered inp s) (hbuf : t.buf = s.buf) (hcursor : cursor t = cursor s)
    (hwritten : t.written = s.written) (hreceived : t.received = s.received)
    : Ordered inp t := by
  unfold Ordered pending at *
  rw [hbuf, hcursor, hwritten, hreceived]
  exact h

structure Quiet (s : State) : Prop where
  sigpipe : s.sigpipe = false
  pipeBroken : s.pipeBroken = false
  main : s.main ≠ .drain

theorem init_quiet (inp : Input) : Quiet (init inp) := by
  constructor
  all_goals
    simp [init]

theorem quiet_of_moves (h : Quiet s) (herr : NoError a) (hmove : Moves inp s a t) : Quiet t := by
  rcases h with ⟨hsig, hpipe, hmain⟩
  cases hmove with
  | mainBroken _ hbroken => simp [hpipe] at hbroken
  | mainDrain hpc => contradiction
  | readerEpipe => simp [NoError] at herr
  | signal hraised => simp [hsig] at hraised
  | mainStore =>
    constructor
    all_goals
      simp [storeChunk, State.setBuf, receive, hsig, hpipe]
  | readerWrite =>
    constructor
    all_goals
      simp [writeChunk, State.setBuf, hsig, hpipe, hmain]
  | _ =>
    constructor
    all_goals
      simp [hsig, hpipe, hmain]

theorem init_ordered (inp : Input) : Ordered inp (init inp) := by
  have hcursor : cursor (init inp) = 0 := by
    simp [cursor, init]
  have hone : ((init inp).buf (next 0)).toList = [] := by
    simp [init, next, Buffer.toList, Buffer.Full]
  have hzero : (init inp).buf 0
      = ⟨Bytes.slice inp.host 0 (firstSize inp), firstSize inp, 0⟩ := by
    simp [init]
  have hreceived : (init inp).received = firstSize inp := rfl
  have hwritten : (init inp).written = [] := rfl
  unfold Ordered pending
  rw [hcursor, hone, hzero, hreceived, hwritten]
  by_cases hsize : firstSize inp = 0
  . simp [Buffer.toList, Buffer.Full, hsize, Tiles]
  . rw [Buffer.toList_full]
    . simp [Buffer.chunk, Tiles, List.take_of_length_le]
    . simp [Buffer.Full, hsize]

theorem ordered_of_moves (hwrap : NoWrap inp) (hprogress : Progress inp s) (hquiet : Quiet s)
    (h : Ordered inp s) (herr : NoError a) (hfirst : ReaderFirst s a) (hmove : Moves inp s a t)
    : Ordered inp t := by
  cases hmove with
  | mainStore hpc hempty =>
    have hlt := hprogress.enter hpc
    have hcut := cutSize_spec hwrap hprogress hlt
    have hpending := storeChunk_pending hempty (hfirst hempty) hcut.1
    have hwritten : (storeChunk inp s).written = s.written := rfl
    unfold Ordered
    rw [hpending, hwritten]
    rw [← List.append_assoc]
    exact Tiles.push h (cutSize inp s)
  | mainDrain hpc =>
    have := hquiet.main
    contradiction
  | readerWrite hpc hfull =>
    unfold Ordered
    rw [writeChunk_pending hpc hfull]
    exact h
  | readerEpipe => simp [NoError] at herr
  | readerShort => simp [NoError] at herr
  | readerEmpty hpc hempty =>
    unfold Ordered
    rw [sawEmpty_pending hpc hempty]
    exact h
  | readerFlag hpc =>
    apply ordered_congr h
    all_goals
      simp [cursor, hpc]
  | readerTest hpc => exact ordered_congr h rfl (by simp [cursor, hpc]) rfl rfl
  | readerLeave hpc => exact ordered_congr h rfl (by simp [cursor, hpc]) rfl rfl
  | readerClose hpc => exact ordered_congr h rfl (by simp [cursor, hpc]) rfl rfl
  | _ => exact ordered_congr h rfl rfl rfl rfl

theorem inOrder_of_ordered (hprogress : Progress inp s) (h : Ordered inp s) : InOrder inp s := by
  unfold Ordered at h
  rw [Tiles.append_iff] at h
  rcases h with ⟨mid, hwritten, hpending⟩
  refine ⟨hwritten.contiguous, ?_⟩
  have ⟨_, hbytes⟩ := hwritten.flatMap_bytes
  have ⟨hle, _⟩ := hpending.flatMap_bytes
  have hrec := hprogress.received
  have hlen := hprogress.le_len
  rw [hbytes]
  apply Bytes.slice_prefix
  omega

end Step

def errorFreeReaderFirst (s : State) (a : Act) : Prop :=
  NoError a ∧ ReaderFirst s a

theorem inOrder_of_reaches {inp : Input} {s : State} (hwrap : NoWrap inp)
    (h : System.Reaches (step inp) errorFreeReaderFirst (init inp) s)
    : InOrder inp s := by
  have hinv : Progress inp s ∧ Quiet s ∧ Ordered inp s := by
    apply System.Reaches.invariant (P := fun s => Progress inp s ∧ Quiet s ∧ Ordered inp s) _ _ h
    . exact ⟨init_progress inp, init_quiet inp, init_ordered inp⟩
    . rintro t u a ⟨hprogress, hquiet, hordered⟩ ⟨herr, hfirst⟩ hstep
      have hmove := moves_of_step hstep
      refine ⟨?_, ?_, ?_⟩
      . exact progress_of_moves hwrap hprogress hmove
      . exact quiet_of_moves hquiet herr hmove
      . exact ordered_of_moves hwrap hprogress hquiet hordered herr hfirst hmove
  exact inOrder_of_ordered hinv.1 hinv.2.2

structure FirstOnly (inp : Input) (s : State) : Prop where
  size : s.size = firstSize inp
  mainIdx : s.mainIdx = 1
  empty : ¬(s.buf 1).Full
  cursor : (s.buf 0).Full → cursor s = 0

def TwoChunks (inp : Input) (s : State) : Prop :=
  (s.finished = firstSize inp → FirstOnly inp s)
    ∧ (s.finished = firstSize inp ∨ s.finished = inp.len)

section TwoChunks

variable {inp : Input} {s t : State} {a : Act}

theorem init_twoChunks (inp : Input) : TwoChunks inp (init inp) := by
  refine ⟨fun _ => ⟨?_, ?_, ?_, ?_⟩, ?_⟩
  all_goals
    simp [init, Buffer.Full, cursor]

theorem storeChunk_twoChunks (hwrap : NoWrap inp) (hlen : inp.len ≤ 2 * bufSize)
    (hprogress : Progress inp s) (h : TwoChunks inp s) (hlt : s.finished < inp.len)
    : TwoChunks inp (storeChunk inp s) := by
  have hfirst : s.finished = firstSize inp := by
    cases h.2 with
    | inl hfirst => exact hfirst
    | inr hend => omega
  have hsize := (h.1 hfirst).size
  have hcut := cutSize_spec hwrap hprogress hlt
  have hmod := finished_add_cutSize hwrap hprogress hlt
  have hfinished : (storeChunk inp s).finished = s.finished + cutSize inp s := hmod
  have hend : s.finished + cutSize inp s = inp.len := by
    rw [← hmod]
    exact second_chunk_ends hwrap hlen hprogress hfirst hsize hlt
  rw [← hend, ← hfinished] at hlt
  refine ⟨?_, ?_⟩
  . intro hagain
    omega
  . right
    rw [hfinished, hend]

theorem firstOnly_of_moves (h : FirstOnly inp s) (hstore : ∀ ok, a ≠ .mainSection ok)
    (hdrain : s.main ≠ .drain) (hmove : Moves inp s a t)
    : FirstOnly inp t := by
  rcases h with ⟨hsize, hidx, hempty, hcursor⟩
  cases hmove with
  | mainSkip => simp at hstore
  | mainStore => simp at hstore
  | mainFail => simp at hstore
  | mainDrain hpc => contradiction
  | readerWrite hpc hfull =>
    have hreader : s.readerIdx = 0 := by
      cases eq_or_eq_next 0 s.readerIdx with
      | inl heq => exact heq
      | inr heq =>
        rw [heq] at hfull
        contradiction
    refine ⟨hsize, hidx, ?_, ?_⟩
    . simpa [writeChunk, State.setBuf, hreader] using hempty
    . simp [writeChunk, State.setBuf, hreader, Buffer.Full]
  | readerEmpty hpc hnot =>
    refine ⟨hsize, hidx, hempty, ?_⟩
    intro hfull
    have heq := hcursor hfull
    simp only [cursor, hpc, reduceCtorEq, ↓reduceIte] at heq
    rw [heq] at hnot
    contradiction
  | readerFlag hpc =>
    refine ⟨hsize, hidx, hempty, ?_⟩
    simpa [cursor, hpc] using hcursor
  | readerTest hpc => exact ⟨hsize, hidx, hempty, by simpa [cursor, hpc] using hcursor⟩
  | readerLeave hpc => exact ⟨hsize, hidx, hempty, by simpa [cursor, hpc] using hcursor⟩
  | readerEpipe hpc => exact ⟨hsize, hidx, hempty, by simpa [cursor, hpc] using hcursor⟩
  | readerShort hpc => exact ⟨hsize, hidx, hempty, by simpa [cursor, hpc] using hcursor⟩
  | readerClose hpc => exact ⟨hsize, hidx, hempty, by simpa [cursor, hpc] using hcursor⟩
  | _ => exact ⟨hsize, hidx, hempty, hcursor⟩

theorem finished_of_moves (hstore : ∀ ok, a ≠ .mainSection ok) (hdrain : s.main ≠ .drain)
    (hmove : Moves inp s a t)
    : t.finished = s.finished := by
  cases hmove with
  | mainStore => simp at hstore
  | mainDrain hpc => contradiction
  | _ => rfl

theorem twoChunks_of_moves (hwrap : NoWrap inp) (hlen : inp.len ≤ 2 * bufSize)
    (hprogress : Progress inp s) (hquiet : Quiet s) (h : TwoChunks inp s) (herr : NoError a)
    (hmove : Moves inp s a t)
    : TwoChunks inp t := by
  by_cases hstore : ∃ ok, a = .mainSection ok
  . rcases hstore with ⟨ok, rfl⟩
    cases hmove with
    | mainSkip hpc hfull =>
      refine ⟨?_, h.2⟩
      intro hfirst
      have hone := h.1 hfirst
      rw [hone.mainIdx] at hfull
      exact absurd hfull hone.empty
    | mainStore hpc => exact storeChunk_twoChunks hwrap hlen hprogress h (hprogress.enter hpc)
    | mainFail => simp [NoError] at herr
  . have hstore' : ∀ ok, a ≠ .mainSection ok := by
      intro ok heq
      exact hstore ⟨ok, heq⟩
    have hfinished := finished_of_moves hstore' hquiet.main hmove
    unfold TwoChunks
    rw [hfinished]
    refine ⟨?_, h.2⟩
    intro hfirst
    exact firstOnly_of_moves (h.1 hfirst) hstore' hquiet.main hmove

theorem readerFirst_of_twoChunks (hprogress : Progress inp s) (h : TwoChunks inp s)
    (herr : NoError a) (hmove : Moves inp s a t)
    : ReaderFirst s a := by
  cases hmove with
  | mainStore hpc hempty =>
    intro _ hfull
    have hlt := hprogress.enter hpc
    have hfirst : s.finished = firstSize inp := by
      cases h.2 with
      | inl hfirst => exact hfirst
      | inr hend => omega
    have hone := h.1 hfirst
    rw [hone.mainIdx] at hfull ⊢
    exact hone.cursor hfull
  | mainSkip hpc hfull =>
    intro hempty
    contradiction
  | mainFail => simp [NoError] at herr
  | _ => simp [ReaderFirst]

theorem inOrder_of_two_chunks (hlen : inp.len ≤ 2 * bufSize)
    (h : System.Reaches (step inp) errorFree (init inp) s)
    : InOrder inp s := by
  have hwrap : NoWrap inp := by
    simp only [NoWrap, bufSize, ulong] at *
    omega
  apply inOrder_of_reaches hwrap
  apply System.Reaches.strengthen (P := fun s => Progress inp s ∧ Quiet s ∧ TwoChunks inp s) _ _ _ h
  . exact ⟨init_progress inp, init_quiet inp, init_twoChunks inp⟩
  . rintro t u a ⟨hprogress, hquiet, htwo⟩ herr hstep
    have hmove := moves_of_step hstep
    refine ⟨?_, ?_, ?_⟩
    . exact progress_of_moves hwrap hprogress hmove
    . exact quiet_of_moves hquiet herr hmove
    . exact twoChunks_of_moves hwrap hlen hprogress hquiet htwo herr hmove
  . rintro t u a ⟨hprogress, hquiet, htwo⟩ herr hstep
    exact ⟨herr, readerFirst_of_twoChunks hprogress htwo herr (moves_of_step hstep)⟩

end TwoChunks

section Reorder

variable {inp : Input}

def afterTwo (inp : Input) : State :=
  storeChunk inp (passEmpty { writeChunk (init inp) with reader := .sawEmpty })

structure AfterTwo (inp : Input) : Prop where
  size : (afterTwo inp).size = bufSize
  finished : (afterTwo inp).finished = bufSize + bufSize
  received : (afterTwo inp).received = bufSize + bufSize
  third : 0 < cutSize inp (afterTwo inp)

theorem afterTwo_spec (hlen : 2 * bufSize < inp.len) : AfterTwo inp := by
  have hpos := bufSize_pos
  have hulong : 3 * bufSize ≤ ulong := by
    simp [bufSize, ulong]
  have hfirst : firstSize inp = bufSize := firstSize_eq (by omega)
  have hmod : (bufSize + bufSize) % ulong = bufSize + bufSize := by
    apply Nat.mod_eq_of_lt
    omega
  have hnocut : ¬inp.len < bufSize + bufSize := by omega
  have hsize : (afterTwo inp).size = bufSize := by
    simp [afterTwo, storeChunk, receive, cutSize, passEmpty, writeChunk, init, State.setBuf, hfirst,
      hmod, hnocut]
  have hfinished : (afterTwo inp).finished = bufSize + bufSize := by
    simp [afterTwo, storeChunk, receive, cutSize, passEmpty, writeChunk, init, State.setBuf, hfirst,
      hmod, hnocut]
  refine ⟨hsize, hfinished, ?_, ?_⟩
  . simp [afterTwo, storeChunk, receive, cutSize, passEmpty, writeChunk, init, State.setBuf, hfirst,
      hmod, hnocut]
  . unfold cutSize
    rw [hsize, hfinished]
    split
    all_goals
      omega

theorem afterTwo_reaches (hlen : 2 * bufSize < inp.len)
    : System.Reaches (step inp) calm (init inp) (afterTwo inp) := by
  have hpos := bufSize_pos
  have hfirst : firstSize inp = bufSize := firstSize_eq (by omega)
  unfold afterTwo
  refine .trans (reader_writes rfl ?_ rfl ?_) ?_
  . simp [init]
  . simp only [init, Buffer.Full, hfirst]
    simp
    omega
  refine .trans (reader_sees_empty rfl ?_ rfl ?_) ?_
  . simp [writeChunk, init, State.setBuf]
  . simp [writeChunk, init, State.setBuf, Buffer.Full, next]
  refine .trans (reader_passes rfl) ?_
  refine main_stores rfl ?_ rfl ?_
  . simp only [passEmpty, writeChunk, init, State.setBuf, hfirst]
    omega
  . simp [passEmpty, writeChunk, init, State.setBuf, Buffer.Full]

theorem reorder_reaches (hlen : 2 * bufSize < inp.len)
    : System.Reaches (step inp) calm (init inp)
        (writeChunk (storeChunk inp (afterTwo inp))) := by
  have hspec := afterTwo_spec hlen
  have hidx : (afterTwo inp).mainIdx = 0 := by
    simp [afterTwo, storeChunk, next, passEmpty, writeChunk, init, State.setBuf]
  have hreader : (afterTwo inp).readerIdx = 0 := by
    simp [afterTwo, storeChunk, receive, next, passEmpty, writeChunk, init, State.setBuf]
  refine .trans (afterTwo_reaches hlen) ?_
  refine .trans (main_stores rfl ?_ rfl ?_) ?_
  . rw [hspec.finished]
    omega
  . rw [hidx]
    simp [afterTwo, storeChunk, receive, passEmpty, writeChunk, init, State.setBuf, Buffer.Full]
  . have hfull : ((storeChunk inp (afterTwo inp)).buf (storeChunk inp (afterTwo inp)).readerIdx).Full := by
      have hsame : (storeChunk inp (afterTwo inp)).readerIdx = (afterTwo inp).mainIdx := by
        rw [hidx]
        exact hreader
      have := hspec.third
      rw [hsame, storeChunk_buf_self]
      simp only [Buffer.Full]
      omega
    refine reader_writes rfl ?_ rfl hfull
    simp [afterTwo, storeChunk, receive, passEmpty, writeChunk, init, State.setBuf]

theorem reorder_written (hlen : 2 * bufSize < inp.len)
    : (writeChunk (storeChunk inp (afterTwo inp))).written
        =
      [
        ⟨0, Bytes.slice inp.host 0 bufSize⟩,
        ⟨bufSize + bufSize, Bytes.slice inp.host (bufSize + bufSize) (cutSize inp (afterTwo inp))⟩
      ] := by
  have hspec := afterTwo_spec hlen
  have hfirst : firstSize inp = bufSize := firstSize_eq (by omega)
  have hidx : (afterTwo inp).mainIdx = 0 := by
    simp [afterTwo, storeChunk, next, passEmpty, writeChunk, init, State.setBuf]
  have hreader : (storeChunk inp (afterTwo inp)).readerIdx = (afterTwo inp).mainIdx := by
    rw [hidx]
    simp [afterTwo, storeChunk, receive, next, passEmpty, writeChunk, init, State.setBuf]
  have hold : (afterTwo inp).written = [⟨0, Bytes.slice inp.host 0 bufSize⟩] := by
    simp [afterTwo, storeChunk, receive, passEmpty, writeChunk, init, State.setBuf, hfirst,
      Buffer.chunk, List.take_of_length_le]
  have hbuf := storeChunk_buf_self inp (afterTwo inp)
  have hnew : (storeChunk inp (afterTwo inp)).written = (afterTwo inp).written := rfl
  simp only [writeChunk]
  rw [hreader, hbuf, hnew, hold, hspec.received]
  simp [Buffer.chunk, List.take_of_length_le]

theorem not_inOrder_reorder (hlen : 2 * bufSize < inp.len)
    : ¬InOrder inp (writeChunk (storeChunk inp (afterTwo inp))) := by
  intro h
  have hpos := bufSize_pos
  have hcontig := h.1
  rw [reorder_written hlen] at hcontig
  simp only [Contiguous, Bytes.slice_length] at hcontig
  omega

end Reorder

/--
The reader passes the payload on in order under every interleaving exactly when the payload has at most
two chunks. Of a longer payload it writes a prefix as long as it comes to a full buffer before the
filler has stored a later chunk where the reader looks first.
-/
theorem inOrder_iff (inp : Input)
    : ((∀ s, System.Reaches (step inp) errorFree (init inp) s → InOrder inp s)
          ↔
        inp.len ≤ 2 * bufSize)
      ∧ (NoWrap inp
          → ∀ s, System.Reaches (step inp) errorFreeReaderFirst (init inp) s → InOrder inp s) := by
  refine ⟨⟨?_, ?_⟩, ?_⟩
  . intro h
    by_contra hlen
    have hlen' : 2 * bufSize < inp.len := by omega
    exact not_inOrder_reorder hlen' (h _ ((reorder_reaches hlen').mono errorFree_of_calm))
  . intro hlen s hs
    exact inOrder_of_two_chunks hlen hs
  . intro hwrap s hs
    exact inOrder_of_reaches hwrap hs

def threeChunks : Input where
  host n := UInt8.ofNat (n / bufSize)
  len := 3 * bufSize
  len_lt := by decide

theorem threeChunks_reordered
    : ∃ s, System.Reaches (step threeChunks) errorFree (init threeChunks) s
        ∧ ¬Contiguous 0 s.written
        ∧ ¬s.written.flatMap Chunk.bytes <+: threeChunks.payload := by
  have hpos := bufSize_pos
  have hlen : 2 * bufSize < threeChunks.len := by
    simp only [threeChunks]
    omega
  have hthird := (afterTwo_spec hlen).third
  refine ⟨_, (reorder_reaches hlen).mono errorFree_of_calm, ?_, ?_⟩
  . rw [reorder_written hlen]
    simp only [Contiguous, Bytes.slice_length]
    omega
  . rw [reorder_written hlen]
    rintro ⟨rest, hrest⟩
    -- At the position of the second chunk stands the first byte of the third one.
    have hbyte := congrArg (fun bs => bs[bufSize]?) hrest
    simp only [List.flatMap_cons, List.flatMap_nil, List.append_nil, List.append_assoc] at hbyte
    rw [List.getElem?_append_right (by simp)] at hbyte
    rw [List.getElem?_append_left (by simpa using hthird)] at hbyte
    simp only [Bytes.slice_length, Nat.sub_self, Input.payload] at hbyte
    rw [Bytes.slice_getElem? _ _ hthird] at hbyte
    rw [Bytes.slice_getElem? _ _ (by omega)] at hbyte
    have htwo : (bufSize + bufSize) / bufSize = 2 := by
      rw [← Nat.two_mul]
      exact Nat.mul_div_cancel 2 hpos
    simp [threeChunks, htwo, Nat.div_self hpos] at hbyte

end Streaming
