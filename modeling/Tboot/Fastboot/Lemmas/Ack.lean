import Tboot.Fastboot.Impl.Ack
import Tboot.Fastboot.Lemmas.Transfer

/-!
This module contains what `_fastboot_ack` makes of a reason: its packets put together again when every
`usb_write` is complete, and what is left of that when they are not.
-/

open Proc

namespace Fastboot

namespace Ack

def payload (a : Ack) (s : State) : Bytes :=
  (s.sent.map fun packet => (packet.1.take (packet.2.getD 0)).drop a.code.length).flatten

theorem drop_min_length (reason : Bytes) (n : Nat) : reason.drop (min reason.length n) = reason.drop n := by
  cases Nat.le_total reason.length n with
  | inl hle => rw [Nat.min_eq_left hle, List.drop_length, List.drop_eq_nil_of_le hle]
  | inr hge => rw [Nat.min_eq_right hge]

section Turn

variable {a : Ack} {s : State} {p : Nat}

theorem textAt_pos (a : Ack) (hpos : s.pos = p) : textAt a.below a.reason s.pos = a.reason.drop p := by
  rw [hpos, textAt_natCast]

theorem packet_length (a : Ack) (hpos : s.pos = p) : (a.packet s).length = min 63 (a.code.length + (a.reason.length - p)) := by
  unfold packet
  rw [textAt_pos a hpos]
  simp

theorem more_iff (hpos : s.pos = p) : a.More s ↔ p < a.reason.length := by
  unfold More
  rw [textAt_pos a hpos, ne_eq, List.drop_eq_nil_iff]
  omega

theorem usbWrite_le {n : Nat} (h : a.usbWrite s = some n)
    : s.failed = false ∧ n ≤ (a.packet s).length ∧ ∃ m, a.write s.sent.length = some m ∧ n ≤ m := by
  unfold usbWrite at h
  split at h
  . contradiction
  . next hfailed =>
    obtain ⟨m, hm, rfl⟩ := Option.map_eq_some_iff.mp h
    exact ⟨by simpa using hfailed, Nat.min_le_left _ _, m, hm, Nat.min_le_right _ _⟩

theorem turn_some {n : Nat} (h : a.usbWrite s = some n)
    : a.turn s = ⟨s.pos + n - a.code.length, false, s.sent ++ [(a.packet s, some n)]⟩ := by
  unfold turn
  simp only [h, (usbWrite_le h).1]
  rfl

theorem payload_append (a : Ack) (pos : Int) (failed : Bool) (sent : List (Bytes × Option Nat))
    (packet : Bytes × Option Nat)
    : a.payload ⟨pos, failed, sent ++ [packet]⟩
        = a.payload ⟨pos, failed, sent⟩ ++ (packet.1.take (packet.2.getD 0)).drop a.code.length := by
  simp [payload]

theorem payload_turn_some {n : Nat} (h : a.usbWrite s = some n)
    : a.payload (a.turn s) = a.payload s ++ ((a.packet s).take n).drop a.code.length := by
  rw [turn_some h, payload_append]
  rfl

theorem payload_turn_none (h : a.usbWrite s = none) : a.payload (a.turn s) = a.payload s := by
  unfold turn
  simp only [h]
  split
  . rfl
  . rw [payload_append]
    simp [payload]

theorem packet_payload (hpos : s.pos = p) {n : Nat} (hn : n ≤ (a.packet s).length)
    : ((a.packet s).take n).drop a.code.length = (a.reason.drop p).take (n - a.code.length) := by
  rw [packet_length a hpos] at hn
  unfold packet
  rw [textAt_pos a hpos, List.take_take, Nat.min_eq_left (by omega), List.drop_take, List.drop_left]

end Turn

/-! ### Complete writes -/

def Complete (a : Ack) : Prop :=
  ∀ k, a.Turns (k + 1) → a.usbWrite (a.after k) = some (a.packet (a.after k)).length

structure Whole (a : Ack) (k : Nat) (s : State) : Prop where
  pos : s.pos = min a.reason.length (59 * k)
  count : s.sent.length = k
  size_le : ∀ packet ∈ s.sent, packet.1.length ≤ 63
  code : ∀ packet ∈ s.sent, a.code <+: packet.1
  text : (s.sent.map fun packet => packet.1.drop a.code.length).flatten = a.reason.take (59 * k)

section Whole

variable {a : Ack} {s : State} {k : Nat}

theorem start_whole (a : Ack) : a.Whole 0 start := by
  refine ⟨by simp [start], rfl, ?_, ?_, ?_⟩
  all_goals simp [start]

theorem Whole.turn (h : a.Whole k s) (hcode : a.code.length = 4)
    (hwrite : a.usbWrite s = some (a.packet s).length) : a.Whole (k + 1) (a.turn s) := by
  have hpos := h.pos
  have hlen := packet_length a h.pos
  have htext : (a.packet s).drop a.code.length = (a.reason.drop (59 * k)).take 59 := by
    unfold packet
    rw [textAt_pos a h.pos, List.drop_take, List.drop_left, drop_min_length, hcode]
  rw [turn_some hwrite]
  refine ⟨?_, ?_, ?_, ?_, ?_⟩
  . dsimp only
    omega
  . simp [h.count]
  . intro packet hpacket
    cases List.mem_append.mp hpacket with
    | inl hold => exact h.size_le packet hold
    | inr hnew =>
      rw [List.mem_singleton.mp hnew]
      dsimp only
      omega
  . intro packet hpacket
    cases List.mem_append.mp hpacket with
    | inl hold => exact h.code packet hold
    | inr hnew =>
      rw [List.mem_singleton.mp hnew]
      unfold Ack.packet
      rw [List.prefix_take_iff]
      exact ⟨List.prefix_append _ _, by omega⟩
  . simp only [List.map_append, List.flatten_append, h.text, List.map_cons, List.map_nil, List.flatten_cons,
      List.flatten_nil, List.append_nil, htext]
    rw [Nat.mul_succ, List.take_add]

theorem whole_after (hcode : a.code.length = 4) (hcomplete : a.Complete) (hturns : a.Turns k)
    : a.Whole k (a.after k) := by
  induction k with
  | zero => exact start_whole a
  | succ k ih =>
    have hprev : a.Turns k := fun j hpos hj => hturns j hpos (by omega)
    exact (ih hprev).turn hcode (hcomplete k hturns)

theorem turns_of_lt (hcode : a.code.length = 4) (hcomplete : a.Complete) (hk : 59 * (k - 1) < a.reason.length)
    : a.Turns k := by
  induction k with
  | zero =>
    intro j hpos hj
    omega
  | succ k ih =>
    have hprev := ih (by omega)
    intro j hpos hj
    by_cases hlast : j = k
    . rw [hlast, more_iff (whole_after hcode hcomplete hprev).pos]
      omega
    . exact hprev j hpos (by omega)

end Whole

/-- The packets of a complete reply: each begins with the code, and without it they are the reason. -/
structure Reassembles (a : Ack) (s : State) : Prop where
  count : s.sent.length = max 1 ((a.reason.length + 58) / 59)
  size_le : ∀ packet ∈ s.sent, packet.1.length ≤ 63
  code : ∀ packet ∈ s.sent, a.code <+: packet.1
  reason : (s.sent.map fun packet => packet.1.drop a.code.length).flatten = a.reason

/--
A reply whose writes are complete ends after as many packets as its reason has pieces of 59 characters,
and the reason can be put together from them.
-/
theorem complete_reassembles (a : Ack) (hcode : a.code.length = 4) (hcomplete : a.Complete)
    : ∃ k, a.EndsAfter k ∧ a.Reassembles (a.after k) := by
  have hlen : ∃ k, k = max 1 ((a.reason.length + 58) / 59) := ⟨_, rfl⟩
  obtain ⟨k, hk⟩ := hlen
  have hturns : a.Turns k := by
    by_cases hone : k = 1
    . intro j hpos hj
      omega
    . apply turns_of_lt hcode hcomplete
      omega
  have hwhole := whole_after hcode hcomplete hturns
  refine ⟨k, ⟨by omega, hturns, ?_⟩, ⟨hwhole.count.trans hk, hwhole.size_le, hwhole.code, ?_⟩⟩
  . rw [more_iff hwhole.pos]
    omega
  . rw [hwhole.text]
    apply List.take_of_length_le
    omega

theorem complete_of_large {a : Ack} (h : ∀ i, ∃ n, a.write i = some n ∧ 63 ≤ n) : a.Complete := by
  have hwrite (s : State) (hfailed : s.failed = false) : a.usbWrite s = some (a.packet s).length := by
    obtain ⟨n, hn, hlarge⟩ := h s.sent.length
    have hle : (a.packet s).length ≤ 63 := List.length_take_le _ _
    unfold usbWrite
    rw [hfailed, hn]
    simp only [Bool.false_eq_true, ↓reduceIte, Option.map_some]
    rw [Nat.min_eq_left (by omega)]
  have hfailed (k : Nat) : (a.after k).failed = false := by
    induction k with
    | zero => rfl
    | succ k ih =>
      rw [after, turn_some (hwrite _ ih)]
  intro k _
  exact hwrite _ (hfailed k)

def longInfo : Ack where
  code := str "INFO"
  reason := List.replicate 60 97
  below := fun _ => 0
  write := fun _ => some 64
  code_cstr := by decide
  reason_cstr := by decide

theorem longInfo_reassembles : ∃ k, longInfo.EndsAfter k ∧ longInfo.Reassembles (longInfo.after k) :=
  complete_reassembles longInfo (by decide) (complete_of_large fun _ => ⟨64, rfl, by decide⟩)

/-! ### Writes of any length -/

structure Clean (a : Ack) (s : State) : Prop where
  inside : 0 ≤ s.pos ∧ s.pos ≤ a.reason.length
  written : a.payload s <+: a.reason
  silent : ∀ older packet newer, s.sent = older ++ (packet, none) :: newer → newer = []

def EndsCleanly (a : Ack) : Prop :=
  ∃ k, a.EndsAfter k ∧ ∀ j ≤ k, a.Clean (a.after j)

def takes (a : Ack) (i : Nat) : Nat :=
  min ((a.write i).getD 0) 63 - a.code.length

/-- Some writes from the first on take the code whole, and the reason together. -/
def Taken (a : Ack) : Prop :=
  ∃ k, 0 < k ∧ (∀ i < k, ∃ n, a.write i = some n ∧ a.code.length ≤ min n 63)
    ∧ a.reason.length ≤ ((List.range k).map a.takes).sum

section Taken

variable {a : Ack} {s : State} {k : Nat}

structure Good (a : Ack) (k : Nat) (s : State) : Prop where
  pos : s.pos = min a.reason.length ((List.range k).map a.takes).sum
  failed : s.failed = false
  count : s.sent.length = k
  written : a.payload s = a.reason.take ((List.range k).map a.takes).sum
  all : ∀ packet ∈ s.sent, packet.2 ≠ none

theorem start_good (a : Ack) : a.Good 0 start := by
  refine ⟨by simp [start], rfl, rfl, ?_, ?_⟩
  all_goals simp [start, payload]

theorem written_eq {c n r p : Nat} (hcode : c ≤ min n 63)
    : c ≤ min (min 63 (c + (r - min r p))) n
        ∧ min (min 63 (c + (r - min r p))) n - c = min (min n 63 - c) (r - p) := by
  have hleft : r - min r p = r - p := by omega
  obtain ⟨d, hd⟩ := Nat.exists_eq_add_of_le hcode
  rw [hleft, Nat.min_right_comm, Nat.min_comm 63 n, hd, Nat.add_min_add_left, Nat.add_sub_cancel_left,
    Nat.add_sub_cancel_left]
  exact ⟨Nat.le_add_right _ _, rfl⟩

theorem Good.turn (h : a.Good k s) {n : Nat} (hn : a.write k = some n) (hcode : a.code.length ≤ min n 63)
    : a.Good (k + 1) (a.turn s) := by
  have hpos := h.pos
  have hlen := packet_length a h.pos
  have htakes : a.takes k = min n 63 - a.code.length := by
    unfold takes
    rw [hn, Option.getD_some]
  have hwrite : a.usbWrite s = some (min (a.packet s).length n) := by
    unfold usbWrite
    rw [h.failed, h.count, hn]
    rfl
  have hsum : ((List.range (k + 1)).map a.takes).sum = ((List.range k).map a.takes).sum + a.takes k := by
    simp [List.range_succ]
  have hpayload := payload_turn_some hwrite
  rw [packet_payload h.pos (Nat.min_le_left _ _)] at hpayload
  rw [turn_some hwrite] at hpayload ⊢
  obtain ⟨hwhole, hwritten⟩ := @written_eq _ n a.reason.length ((List.range k).map a.takes).sum hcode
  rw [← hlen] at hwhole hwritten
  rw [← htakes] at hwritten
  clear hlen hcode htakes
  refine ⟨?_, rfl, by simp [h.count], ?_, ?_⟩
  . rw [hsum]
    dsimp only
    omega
  . have hpiece : (a.reason.drop ((List.range k).map a.takes).sum).take (min (a.packet s).length n - a.code.length)
        = (a.reason.drop ((List.range k).map a.takes).sum).take (a.takes k) := by
      rw [List.take_eq_take_iff, List.length_drop, hwritten]
      omega
    rw [hpayload, h.written, hsum, drop_min_length, hpiece, List.take_add]
  . intro packet hpacket
    cases List.mem_append.mp hpacket with
    | inl hold => exact h.all packet hold
    | inr hnew =>
      rw [List.mem_singleton.mp hnew]
      simp

theorem good_after (hcode : ∀ i < k, ∃ n, a.write i = some n ∧ a.code.length ≤ min n 63)
    : a.Good k (a.after k) := by
  induction k with
  | zero => exact start_good a
  | succ k ih =>
    obtain ⟨n, hn, hle⟩ := hcode k (by omega)
    exact (ih fun i hi => hcode i (by omega)).turn hn hle

theorem Good.clean (h : a.Good k s) : a.Clean s := by
  have hpos := h.pos
  refine ⟨by omega, ?_, ?_⟩
  . rw [h.written]
    exact List.take_prefix _ _
  . intro older packet newer hsent
    exact absurd rfl (h.all (packet, none) (by simp [hsent]))

theorem endsCleanly_of_taken (h : a.Taken) : a.EndsCleanly := by
  obtain ⟨k, hk, hcode, hsum⟩ := h
  have hgood (j : Nat) (hj : j ≤ k) : a.Good j (a.after j) :=
    good_after fun i hi => hcode i (by omega)
  -- The loop has come to the end of the reason by then, and the first time counts.
  have hend : ∃ j, 0 < j ∧ ¬a.More (a.after j) := by
    refine ⟨k, hk, ?_⟩
    rw [more_iff (hgood k (Nat.le_refl k)).pos]
    omega
  have hle : Nat.find hend ≤ k := by
    apply Nat.find_le
    refine ⟨hk, ?_⟩
    rw [more_iff (hgood k (Nat.le_refl k)).pos]
    omega
  refine ⟨Nat.find hend, ⟨(Nat.find_spec hend).1, ?_, (Nat.find_spec hend).2⟩, ?_⟩
  . intro j hpos hj
    by_contra hmore
    exact Nat.find_min hend hj ⟨hpos, hmore⟩
  . intro j hj
    exact (hgood j (by omega)).clean

def excess (a : Ack) (s : State) : Int :=
  (a.payload s).length - s.pos

theorem excess_turn (hinside : 0 ≤ s.pos ∧ s.pos ≤ a.reason.length)
    : a.excess s ≤ a.excess (a.turn s)
        ∧ (a.excess (a.turn s) ≤ a.excess s → ∃ n, a.usbWrite s = some n ∧ a.code.length ≤ n) := by
  cases hwrite : a.usbWrite s with
  | none =>
    have hpos : (a.turn s).pos = s.pos - 1 - a.code.length := by
      unfold turn
      rw [hwrite]
      rfl
    unfold excess
    rw [payload_turn_none hwrite, hpos]
    omega
  | some n =>
    obtain ⟨p, hp⟩ := Int.eq_ofNat_of_zero_le hinside.1
    have hle := (usbWrite_le hwrite).2.1
    have hlen := packet_length a hp
    unfold excess
    rw [payload_turn_some hwrite, packet_payload hp hle, turn_some hwrite]
    simp only [List.length_append, List.length_take, List.length_drop, Option.some.injEq, exists_eq_left']
    omega

theorem excess_mono (hclean : ∀ j ≤ k, a.Clean (a.after j)) {i j : Nat} (hij : i ≤ j) (hj : j ≤ k)
    : a.excess (a.after i) ≤ a.excess (a.after j) := by
  induction j with
  | zero =>
    have hi : i = 0 := by omega
    rw [hi]
  | succ j ih =>
    by_cases heq : i = j + 1
    . rw [heq]
    . have hstep := (excess_turn (hclean j (by omega)).inside).1
      exact Int.le_trans (ih (by omega) (by omega)) hstep

theorem excess_end (hend : ¬a.More s) (hclean : a.Clean s) : a.excess s ≤ 0 := by
  obtain ⟨p, hp⟩ := Int.eq_ofNat_of_zero_le hclean.inside.1
  have hwritten := hclean.written.length_le
  rw [more_iff hp] at hend
  unfold excess
  rw [hp]
  omega

/-- No turn of a clean reply stops inside the code, or more would be written than there is. -/
theorem code_written (hend : ¬a.More (a.after k)) (hclean : ∀ j ≤ k, a.Clean (a.after j)) {j : Nat} (hj : j < k)
    : ∃ n, a.usbWrite (a.after j) = some n ∧ a.code.length ≤ n := by
  have hstart : a.excess (a.after 0) = 0 := rfl
  have hbefore := excess_mono hclean (Nat.zero_le j) (by omega)
  have hbehind := excess_mono hclean (show j + 1 ≤ k from hj) (Nat.le_refl k)
  have hlast := excess_end hend (hclean k (Nat.le_refl k))
  apply (excess_turn (hclean j (by omega)).inside).2
  change a.excess (a.after (j + 1)) ≤ _
  omega

theorem pos_le_taken (hcode : ∀ j < k, ∃ n, a.usbWrite (a.after j) = some n ∧ a.code.length ≤ n)
    : (a.after k).sent.length = k ∧ (a.after k).pos ≤ ((List.range k).map a.takes).sum
        ∧ ∀ i < k, ∃ n, a.write i = some n ∧ a.code.length ≤ min n 63 := by
  induction k with
  | zero => exact ⟨rfl, by simp [after, start], by simp⟩
  | succ k ih =>
    obtain ⟨hcount, hpos, hwrites⟩ := ih fun j hj => hcode j (by omega)
    obtain ⟨n, hwrite, hn⟩ := hcode k (by omega)
    obtain ⟨_, hle, m, hm, hnm⟩ := usbWrite_le hwrite
    have hpacket : (a.packet (a.after k)).length ≤ 63 := List.length_take_le _ _
    rw [hcount] at hm
    have htakes : a.takes k = min m 63 - a.code.length := by
      unfold takes
      rw [hm, Option.getD_some]
    rw [after, turn_some hwrite]
    refine ⟨by simp [hcount], ?_, ?_⟩
    . simp only [List.range_succ, List.map_append, List.sum_append, List.map_cons, List.map_nil, List.sum_singleton]
      omega
    . intro i hi
      by_cases hlast : i = k
      . exact ⟨m, hlast ▸ hm, by omega⟩
      . exact hwrites i (by omega)

theorem taken_of_endsCleanly (h : a.EndsCleanly) : a.Taken := by
  obtain ⟨k, ⟨hk, _, hend⟩, hclean⟩ := h
  obtain ⟨_, hpos, hwrites⟩ := pos_le_taken fun j => code_written hend hclean
  obtain ⟨p, hp⟩ := Int.eq_ofNat_of_zero_le (hclean k (Nat.le_refl k)).inside.1
  rw [more_iff hp] at hend
  exact ⟨k, hk, hwrites, by omega⟩

end Taken

/--
A reply ends cleanly just when the writes, from the first on, take the code whole each and the reason
together: a failed or a shorter write moves the position back.
-/
theorem endsCleanly_iff_taken (a : Ack) : a.EndsCleanly ↔ a.Taken := by
  constructor
  . exact taken_of_endsCleanly
  . exact endsCleanly_of_taken

def lostFail : Ack where
  code := str "FAIL"
  reason := str "x"
  below := fun _ => 65
  write := fun _ => none
  code_cstr := by decide
  reason_cstr := by decide

theorem lostFail_pos (k : Nat) : (lostFail.after k).pos = -(5 * k) := by
  induction k with
  | zero => rfl
  | succ k ih =>
    have hwrite : lostFail.usbWrite (lostFail.after k) = none := by
      unfold usbWrite
      split
      all_goals rfl
    have hturn : (lostFail.after (k + 1)).pos = (lostFail.after k).pos + -1 - 4 := by
      rw [after, turn]
      simp only [hwrite]
      rfl
    rw [hturn, ih]
    omega

theorem lostFail_more {k : Nat} (hk : 0 < k) : lostFail.More (lostFail.after k) := by
  obtain ⟨n, hn⟩ : ∃ n, 5 * k = n + 1 := ⟨5 * k - 1, by omega⟩
  have hpos : (lostFail.after k).pos = -((n + 1 : Nat) : Int) := by
    rw [lostFail_pos]
    omega
  unfold More textAt
  rw [hpos, if_neg (by omega)]
  simp [lostFail, cstr, List.range_succ]

/-- The position leaves the reason at once and goes back through memory for as long as there is no zero. -/
theorem lostFail_not_clean
    : (lostFail.after 1).pos = -5 ∧ (∀ k, ¬lostFail.EndsAfter k) ∧ ¬lostFail.EndsCleanly := by
  have hnever (k : Nat) : ¬lostFail.EndsAfter k := by
    rintro ⟨hk, _, hend⟩
    exact hend (lostFail_more hk)
  refine ⟨lostFail_pos 1, hnever, ?_⟩
  rintro ⟨k, hends, _⟩
  exact hnever k hends

end Ack

/-! ### The replies of the server -/

def Event.reply : Event → Option (Bytes × Option Nat)
  | .wrote (.reply code text) count => some ((Packet.reply code text).bytes, count)
  | _ => none

theorem zero_not_mem_text (code : Code) : 0 ∉ code.text := by
  cases code
  all_goals decide

namespace Ack

def ofReply (env : Env) (code : Code) (reason : Bytes) (w : World) : Ack where
  code := code.text
  reason := cstr reason
  below := env.below w.writes
  write := fun i => env.write (w.writes + i)
  code_cstr := zero_not_mem_text code
  reason_cstr := not_mem_takeWhile_ne 0 reason

structure Follows (w : World) (s : State) (w' : World) : Prop where
  writes : w'.writes = w.writes + s.sent.length
  state : w'.state = if s.failed then .error else w.state
  sent : w'.log.filterMap Event.reply = s.sent.reverse ++ w.log.filterMap Event.reply

section Follows

variable {env : Env} {code : Code} {reason : Bytes} {w w1 : World} {s : State}

theorem packet_ofReply (env : Env) (code : Code) (reason : Bytes) (w : World) (s : State)
    : (ofReply env code reason w).packet s
        = (Packet.reply code ((textAt (env.below w.writes) (cstr reason) s.pos).take 59)).bytes := by
  have hlen := text_length code
  unfold packet Packet.bytes
  change (code.text ++ _).take 63 = _
  rw [List.take_append, List.take_of_length_le (by omega), hlen]
  rfl

theorem usbWrite_follows (env : Env) (code : Code) (reason : Bytes) (hstate : w.state ≠ .error)
    (h : Follows w s w1)
    : wp (Fastboot.usbWrite env (.reply code ((textAt (env.below w.writes) (cstr reason) s.pos).take 59)))
        (fun r w2 => r = (ofReply env code reason w).usbWrite s
          ∧ Follows w ((ofReply env code reason w).turn s) w2)
        (fun _ => False) w1 := by
  have hpacket := packet_ofReply env code reason w s
  unfold Fastboot.usbWrite
  simp only [wp_bind, wp_get]
  cases hfailed : s.failed with
  | true =>
    have herror : w1.state = .error := by
      rw [h.state, hfailed]
      rfl
    have hnone : (ofReply env code reason w).usbWrite s = none := by
      unfold usbWrite
      rw [hfailed]
      rfl
    rw [if_pos herror]
    simp only [setState, wp_bind, wp_modify, wp_pure]
    refine ⟨hnone.symm, ?_⟩
    unfold turn
    rw [hnone, hfailed]
    exact ⟨h.writes, rfl, h.sent⟩
  | false =>
    have hno : w1.state = w.state := by
      rw [h.state, hfailed]
      rfl
    have hresult : (ofReply env code reason w).usbWrite s
        = (env.write w1.writes).map (min ((ofReply env code reason w).packet s).length) := by
      unfold usbWrite
      rw [hfailed, h.writes]
      rfl
    rw [if_neg (by rw [hno]; exact hstate)]
    simp only [sysWrite, wp_bind, wp_get, wp_set, wp_pure, ← hpacket]
    rw [← hresult]
    cases hcount : (ofReply env code reason w).usbWrite s with
    | none =>
      simp only [setState, wp_bind, wp_modify, wp_pure, true_and]
      unfold turn
      rw [hcount, hfailed]
      refine ⟨?_, rfl, ?_⟩
      . simp [h.writes, Nat.add_assoc]
      . simp [List.filterMap_cons, h.sent, Event.reply, hpacket]
    | some n =>
      rw [turn_some hcount]
      refine ⟨rfl, ?_, hno, ?_⟩
      . simp [h.writes, Nat.add_assoc]
      . simp [h.sent, Event.reply, hpacket]

theorem loop_follows {a : Ack} (ha : ofReply env code reason w = a) (hstate : w.state ≠ .error) (fuel : Nat) {j : Nat}
    (h : Follows w (a.after j) w1)
    : wp (fastbootAck.loop env code (cstr reason) (env.below w.writes) fuel (a.after j).pos)
        (fun _ w2 => ∃ k, j < k ∧ (∀ i, j < i → i < k → a.More (a.after i)) ∧ ¬a.More (a.after k)
          ∧ Follows w (a.after k) w2)
        (fun _ => ∀ i, j < i → i ≤ j + fuel → a.More (a.after i)) w1 := by
  induction fuel generalizing j w1 with
  | zero =>
    intro i hi hj
    omega
  | succ fuel ih =>
    have hwrite := usbWrite_follows env code reason hstate h
    rw [ha] at hwrite
    unfold fastbootAck.loop
    simp only [wp_bind]
    apply wp_mono hwrite _ (fun _ => False.elim)
    rintro r w2 ⟨hr, hfollows⟩
    have hpos : (a.after j).pos + toResult r - 4 = (a.after (j + 1)).pos := by
      have hcode : a.code.length = 4 := by
        rw [← ha]
        exact text_length code
      rw [after, turn, hr, hcode]
      rfl
    have hmore_iff : textAt (env.below w.writes) (cstr reason) (a.after (j + 1)).pos ≠ [] ↔ a.More (a.after (j + 1)) := by
      rw [← ha]
      rfl
    rw [hpos]
    split
    . next hmore =>
      rw [hmore_iff] at hmore
      apply wp_mono (@ih w2 (j + 1) hfollows)
      . rintro _ w3 ⟨k, hk, hbefore, hend⟩
        refine ⟨k, by omega, ?_, hend⟩
        intro i hi hik
        by_cases hfirst : i = j + 1
        . rw [hfirst]
          exact hmore
        . exact hbefore i (by omega) hik
      . intro w3 hall i hi hle
        by_cases hfirst : i = j + 1
        . rw [hfirst]
          exact hmore
        . exact hall i (by omega) (by omega)
    . next hend =>
      rw [hmore_iff] at hend
      refine ⟨j + 1, by omega, ?_, hend, hfollows⟩
      intro i hi hik
      omega

/--
The replies of the server are those of `_fastboot_ack` with the code of the reply, turn by turn; if the
server is said to hang, the loop has not come to its end in as many turns.
-/
theorem fastbootAck_follows (env : Env) (code : Code) (reason : Bytes) {w : World} (hcommand : w.state = .command)
    : wp (fastbootAck env code reason)
        (fun _ w' => ∃ k, (ofReply env code reason w).EndsAfter k
          ∧ Follows w ((ofReply env code reason w).after k) w')
        (fun _ => ∀ k ≤ (cstr reason).length + 1 + env.patience, ¬(ofReply env code reason w).EndsAfter k) w := by
  have hstate : w.state ≠ .error := by simp [hcommand]
  have hstart : Follows w ((ofReply env code reason w).after 0) w := ⟨rfl, rfl, rfl⟩
  unfold fastbootAck
  simp only [wp_bind, wp_get, hcommand, ne_eq, not_true_eq_false, ↓reduceIte]
  apply wp_mono (loop_follows rfl hstate _ hstart)
  . rintro _ w' ⟨k, hk, hbefore, hend, hfollows⟩
    exact ⟨k, ⟨hk, hbefore, hend⟩, hfollows⟩
  . rintro _ hall k hk ⟨hpos, _, hend⟩
    exact hend (hall k hpos (by omega))

end Follows

end Ack

end Fastboot
