import Tboot.Streaming.Lemmas.Basic

/-!
This module contains the plan of chunks that a streaming flash downloads by: which sizes the two loops of
`cmd_stream_flash` ask for, and that they cover the announced length unless its sums wrap.
-/

namespace Streaming

open State (next)

def request (inp : Input) (s : State) : Act → List Nat
  | .mainSection _ => if s.main = .enter ∧ ¬(s.buf s.mainIdx).Full then [cutSize inp s] else []
  | .mainDrain _ => if s.main = .drain ∧ s.finished < inp.len then [cutSize inp s] else []
  | _ => []

def Act.ofLoops : Act → Bool
  | .mainTest | .mainSection _ | .mainBroken | .mainDrain _ => true
  | _ => false

def waits (s : State) : Act → Nat
  | .mainSection _ => if (s.buf s.mainIdx).Full then 1 else 0
  | _ => 0

structure Logged where
  state : State
  asked : List Nat
  turns : Nat
  waited : Nat

def loggedStep (inp : Input) (l : Logged) (a : Act) : Option Logged :=
  (step inp l.state a).map fun t =>
    {
      state := t
      asked := l.asked ++ request inp l.state a
      turns := l.turns + a.ofLoops.toNat
      waited := l.waited + waits l.state a
    }

def loggedInit (inp : Input) : Logged where
  state := init inp
  asked := [firstSize inp]
  turns := 0
  waited := 0

def Arrives : Act → Prop
  | .mainSection ok => ok = true
  | .mainDrain ok => ok = true
  | _ => True

/-- Runs in which everything that is asked for comes, whatever the reader and the pipe do -/
abbrev Downloads (inp : Input) : Logged → Prop :=
  System.Reaches (loggedStep inp) (fun _ => Arrives) (loggedInit inp)

def LoopsOver (s : State) : Prop :=
  s.main = .finish ∨ s.main = .join ∨ s.main = .joined ∨ s.main = .error

def Adding (inp : Input) (s : State) : Prop :=
  s.main = .enter ∨ (s.main = .drain ∧ s.finished < inp.len)

structure Covers (inp : Input) (l : Logged) : Prop where
  size_le : ∀ size ∈ l.asked, size ≤ bufSize
  total_le : l.asked.sum ≤ inp.len
  noWrap : Adding inp l.state
    → l.state.finished + l.state.size < ulong ∧ l.state.finished + cutSize inp l.state < ulong
  /-- The loops end, unless they are made to wait for a buffer again and again. -/
  turns_le : l.turns ≤ 2 * inp.len + 3 + 2 * l.waited
  covered : LoopsOver l.state → l.asked.sum = inp.len ∧ l.state.finished = inp.len

section Covers

variable {inp : Input} {s t : State} {a : Act}

def stepsLeft (inp : Input) (s : State) : Nat :=
  match s.main with
  | .test => 2 * (inp.len - s.finished) + 3
  | .enter => 2 * (inp.len - s.finished) + 2
  | .left => inp.len - s.finished + 2
  | .drain => inp.len - s.finished + 1
  | _ => 0

structure Past (inp : Input) (s : State) : Prop where
  left : s.main = .left → s.pipeBroken = false → inp.len ≤ s.finished
  ended : LoopsOver s → inp.len ≤ s.finished

structure Planned (inp : Input) (l : Logged) : Prop where
  progress : Progress inp l.state
  past : Past inp l.state
  total : l.asked.sum = l.state.received
  size_le : ∀ size ∈ l.asked, size ≤ bufSize
  turns : l.turns + stepsLeft inp l.state ≤ 2 * inp.len + 3 + 2 * l.waited

theorem init_planned (inp : Input) : Planned inp (loggedInit inp) := by
  have hprogress := init_progress inp
  refine ⟨hprogress, ⟨by simp [loggedInit, init], by simp [loggedInit, init, LoopsOver]⟩, ?_, ?_, ?_⟩
  . simp [loggedInit, init]
  . have hsize := hprogress.size_le
    simpa [loggedInit, init] using hsize
  . simp only [loggedInit, stepsLeft, init]
    omega

theorem past_of_moves (h : Past inp s) (hok : Arrives a) (hmove : Moves inp s a t) : Past inp t := by
  have ⟨hleft, hover⟩ := h
  cases hmove with
  | mainLeave hpc hend =>
    refine ⟨?_, by simp [LoopsOver]⟩
    intro _ hpipe
    apply Nat.le_of_not_lt
    intro hlt
    exact hend ⟨hlt, hpipe⟩
  | mainWhole hpc hpipe => exact ⟨by simp, fun _ => hleft hpc hpipe⟩
  | mainFinish hpc => exact ⟨by simp, fun _ => hover (Or.inl hpc)⟩
  | mainJoin hpc => exact ⟨by simp, fun _ => hover (Or.inr (Or.inl hpc))⟩
  | mainFail => contradiction
  | mainDrained hpc hend =>
    refine ⟨by simp, fun _ => ?_⟩
    apply Nat.le_of_not_lt
    intro hlt
    exact hend ⟨hlt, hok⟩
  | mainDrain hpc => exact ⟨by simp [receive, hpc], by simp [receive, LoopsOver, hpc]⟩
  | mainTest | mainSkip | mainBroken => exact ⟨by simp, by simp [LoopsOver]⟩
  | mainStore => exact ⟨by simp [storeChunk], by simp [storeChunk, LoopsOver]⟩
  | signal => exact ⟨by simp, hover⟩
  | _ => exact ⟨hleft, hover⟩

theorem received_of_moves (hok : Arrives a) (hmove : Moves inp s a t)
    : t.received = s.received + (request inp s a).sum := by
  cases hmove with
  | mainSkip hpc hfull => simp [request, hfull]
  | mainStore hpc hfull => simp [request, hpc, hfull, storeChunk, receive, State.setBuf]
  | mainFail => contradiction
  | mainDrain hpc hlt => simp [request, hpc, hlt, receive]
  | mainDrained hpc hend =>
    have hnot : ¬s.finished < inp.len := fun hlt => hend ⟨hlt, hok⟩
    simp [request, hnot]
  | _ => simp [request, writeChunk, State.setBuf]

theorem stepsLeft_of_moves (hwrap : NoWrap inp) (h : Progress inp s) (hmove : Moves inp s a t)
    : a.ofLoops.toNat + stepsLeft inp t ≤ stepsLeft inp s + 2 * waits s a := by
  cases hmove with
  | mainTest hpc | mainLeave hpc | mainBroken hpc | mainWhole hpc =>
    simp only [stepsLeft, hpc, Act.ofLoops, waits, Bool.toNat_true]
    omega
  | mainSkip hpc hfull =>
    simp only [stepsLeft, hpc, Act.ofLoops, waits, hfull, Bool.toNat_true, ↓reduceIte]
    omega
  | mainFail hpc | mainDrained hpc =>
    simp only [stepsLeft, hpc, Act.ofLoops, Bool.toNat_true]
    omega
  | mainStore hpc hfull =>
    have hlt := h.enter hpc
    have hcut := cutSize_spec hwrap h hlt
    have hmod := finished_add_cutSize hwrap h hlt
    have hmain : (storeChunk inp s).main = .test := rfl
    have hfinished : (storeChunk inp s).finished = s.finished + cutSize inp s := hmod
    simp only [stepsLeft, hpc, hmain, hfinished, Act.ofLoops, Bool.toNat_true]
    omega
  | mainDrain hpc hlt =>
    have hcut := cutSize_spec hwrap h hlt
    have hmod := finished_add_cutSize hwrap h hlt
    have hmain : (receive inp s).main = .drain := hpc
    have hfinished : (receive inp s).finished = s.finished + cutSize inp s := hmod
    simp only [stepsLeft, hpc, hmain, hfinished, Act.ofLoops, Bool.toNat_true]
    omega
  | mainFinish hpc | mainJoin hpc =>
    simp only [stepsLeft, hpc, Act.ofLoops, Bool.toNat_false]
    omega
  | _ =>
    simp only [stepsLeft, Act.ofLoops, Bool.toNat_false, writeChunk, State.setBuf]
    omega

theorem request_le (hwrap : NoWrap inp) (h : Progress inp s) : ∀ size ∈ request inp s a, size ≤ bufSize := by
  intro size hsize
  have hle := h.size_le
  unfold request at hsize
  split at hsize
  . split at hsize
    . next hpc =>
      have hcut := cutSize_spec hwrap h (h.enter hpc.1)
      rw [List.mem_singleton.mp hsize]
      omega
    . contradiction
  . split at hsize
    . next hpc =>
      have hcut := cutSize_spec hwrap h hpc.2
      rw [List.mem_singleton.mp hsize]
      omega
    . contradiction
  . contradiction

theorem planned_of_step {l l' : Logged} (hwrap : NoWrap inp) (h : Planned inp l) (hok : Arrives a)
    (hstep : loggedStep inp l a = some l') : Planned inp l' := by
  unfold loggedStep at hstep
  rw [Option.map_eq_some_iff] at hstep
  obtain ⟨t, hstep, rfl⟩ := hstep
  have hmove := moves_of_step hstep
  have hturns := stepsLeft_of_moves hwrap h.progress hmove
  refine ⟨progress_of_moves hwrap h.progress hmove, past_of_moves h.past hok hmove, ?_, ?_, ?_⟩
  . rw [List.sum_append, h.total, received_of_moves hok hmove]
  . intro size hsize
    cases List.mem_append.mp hsize with
    | inl hold => exact h.size_le size hold
    | inr hnew => exact request_le hwrap h.progress size hnew
  . have := h.turns
    dsimp only
    omega

theorem Planned.covers {l : Logged} (hwrap : NoWrap inp) (h : Planned inp l) : Covers inp l := by
  have hreceived := h.progress.received
  have hlen := h.progress.le_len
  have hsize := h.progress.size_le
  have htotal := h.total
  have hturns := h.turns
  refine ⟨h.size_le, by omega, ?_, by omega, ?_⟩
  . intro hadding
    have hlt : l.state.finished < inp.len := by
      cases hadding with
      | inl hpc => exact h.progress.enter hpc
      | inr hdrain => exact hdrain.2
    have hcut := cutSize_spec hwrap h.progress hlt
    have hmax := inp.len_lt
    unfold NoWrap at hwrap
    omega
  . intro hover
    have := h.past.ended hover
    omega

end Covers

section Wraps

variable {inp : Input} {l : Logged} {a : Act} {t : State}

theorem Downloads.next (h : Downloads inp l) (hok : Arrives a) (hmove : Moves inp l.state a t)
    : Downloads inp
        ⟨t, l.asked ++ request inp l.state a, l.turns + a.ofLoops.toNat, l.waited + waits l.state a⟩ := by
  apply System.Reaches.tail h hok
  unfold loggedStep
  rw [step_of_moves hmove, Option.map_some]

theorem ulong_eq : ulong = 1024 * bufSize := by
  decide

/-- The reader meets a broken pipe at once, and `k` chunks have been drained since. -/
structure Drained (inp : Input) (k : Nat) (l : Logged) : Prop where
  runs : Downloads inp l
  main : l.state.main = .drain
  size : l.state.size = bufSize
  finished : l.state.finished = (k + 1) * bufSize
  asked : l.asked.sum = (k + 1) * bufSize

theorem exists_drained_zero (hwrap : ¬NoWrap inp) : ∃ l, Drained inp 0 l := by
  have hpos := bufSize_pos
  have hulong := ulong_eq
  have hfirst : firstSize inp = bufSize := by
    apply firstSize_eq
    unfold NoWrap at hwrap
    omega
  have hfull : ((init inp).buf 0).Full := by
    simp only [init, hfirst, Buffer.Full, ↓reduceIte]
    omega
  have hstart : Downloads inp (loggedInit inp) := .refl
  have htest := hstart.next (a := .readerTest) trivial (.readerTest rfl Nat.zero_lt_two rfl)
  have hepipe := htest.next (a := .readerSection .epipe) trivial (.readerEpipe rfl hfull)
  have hsignal := hepipe.next (a := .signal) trivial (.signal rfl)
  have hleave := hsignal.next (a := .mainTest) trivial (.mainLeave rfl (by simp))
  have hbroken := hleave.next (a := .mainBroken) trivial (.mainBroken rfl rfl)
  refine ⟨_, hbroken, rfl, hfirst, ?_, ?_⟩
  . simpa [loggedInit, init] using hfirst
  . simpa [loggedInit, request] using hfirst

theorem Drained.request_eq {k : Nat} (hwrap : ¬NoWrap inp) (hk : k ≤ 1022) (h : Drained inp k l)
    : l.state.finished < inp.len ∧ cutSize inp l.state = bufSize := by
  have hulong := ulong_eq
  have hpos := bufSize_pos
  have hmul : (k + 1) * bufSize ≤ 1023 * bufSize := Nat.mul_le_mul_right _ (by omega)
  unfold NoWrap at hwrap
  refine ⟨by rw [h.finished]; omega, ?_⟩
  unfold cutSize
  rw [h.finished, h.size, if_neg]
  by_cases hlast : k = 1022
  . have hsum : (k + 1) * bufSize + bufSize = ulong := by
      rw [hlast]
      omega
    rw [hsum, Nat.mod_self]
    omega
  . have hmul' : (k + 1) * bufSize ≤ 1022 * bufSize := Nat.mul_le_mul_right _ (by omega)
    rw [Nat.mod_eq_of_lt (by omega)]
    omega

theorem Drained.next {k : Nat} (hwrap : ¬NoWrap inp) (hk : k < 1022) (h : Drained inp k l)
    : ∃ l', Drained inp (k + 1) l' := by
  have hulong := ulong_eq
  have hpos := bufSize_pos
  have hmul : (k + 1) * bufSize ≤ 1022 * bufSize := Nat.mul_le_mul_right _ (by omega)
  obtain ⟨hlt, hcut⟩ := h.request_eq hwrap (by omega)
  refine ⟨_, h.runs.next (a := .mainDrain true) rfl (.mainDrain h.main hlt), h.main, hcut, ?_, ?_⟩
  . simp only [receive, hcut, h.finished]
    rw [Nat.mod_eq_of_lt (by omega), Nat.succ_mul (k + 1)]
  . simp only [request, h.main, hlt, hcut, and_self, ↓reduceIte, List.sum_append, List.sum_singleton, h.asked]
    rw [Nat.succ_mul (k + 1)]

theorem exists_drained (hwrap : ¬NoWrap inp) {k : Nat} (hk : k ≤ 1022) : ∃ l, Drained inp k l := by
  induction k with
  | zero => exact exists_drained_zero hwrap
  | succ k ih =>
    obtain ⟨l, h⟩ := ih (by omega)
    exact h.next hwrap (by omega)

theorem exists_beyond (hwrap : ¬NoWrap inp) : ∃ l, Downloads inp l ∧ inp.len < l.asked.sum := by
  obtain ⟨l, h⟩ := exists_drained hwrap (Nat.le_refl 1022)
  obtain ⟨hlt, hcut⟩ := h.request_eq hwrap (Nat.le_refl 1022)
  have hulong := ulong_eq
  have hlen := inp.len_lt
  refine ⟨_, h.runs.next (a := .mainDrain true) rfl (.mainDrain h.main hlt), ?_⟩
  simp only [request, h.main, hlt, hcut, and_self, ↓reduceIte, List.sum_append, List.sum_singleton, h.asked]
  omega

end Wraps

/--
The sizes asked for cover the announced length, and the loops end with it, in every run in which all of
them come, exactly when the length is not within a buffer of the end of the 32 bit range.
-/
theorem downloads_cover_iff (inp : Input) : (∀ l, Downloads inp l → Covers inp l) ↔ NoWrap inp := by
  constructor
  . intro h
    by_contra hwrap
    obtain ⟨l, hruns, hbeyond⟩ := exists_beyond hwrap
    have := (h l hruns).total_le
    omega
  . intro hwrap l hruns
    have hplanned : Planned inp l := by
      apply System.Reaches.invariant (init_planned inp) _ hruns
      intro l l' a h hok hstep
      exact planned_of_step hwrap h hok hstep
    exact hplanned.covers hwrap

def longest : Input where
  host := fun _ => 0
  len := 2 ^ 32 - 1
  len_lt := by decide

theorem longest_not_covered : ∃ l, Downloads longest l ∧ longest.len < l.asked.sum ∧ ¬Covers longest l := by
  have hwrap : ¬NoWrap longest := by simp [NoWrap, longest, bufSize, ulong]
  obtain ⟨l, hruns, hbeyond⟩ := exists_beyond hwrap
  refine ⟨l, hruns, hbeyond, ?_⟩
  intro hcovers
  have := hcovers.total_le
  omega

end Streaming
