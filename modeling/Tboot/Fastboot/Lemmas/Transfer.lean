import Tboot.Fastboot.Lemmas.Basic

/-!
This module contains what a transfer from the host leaves in the log, and what it returns.
-/

open Proc

namespace Fastboot

/-! ### The text of a reply -/

theorem text_length (code : Code) : code.text.length = 4 := by
  cases code
  all_goals rfl

theorem textAt_natCast (below : Nat → UInt8) (reason : Bytes) (pos : Nat)
    : textAt below reason pos = reason.drop pos := by
  unfold textAt
  rw [if_pos (Int.natCast_nonneg pos), Int.toNat_natCast]

def Event.data : Event → Bytes
  | .read _ (some bytes) => bytes
  | _ => []

def dataOf : List Event → Bytes
  | [] => []
  | e :: older => dataOf older ++ e.data

@[simp]
theorem dataOf_append (es older : List Event) : dataOf (es ++ older) = dataOf older ++ dataOf es := by
  induction es with
  | nil => simp [dataOf]
  | cons e es ih => simp only [List.cons_append, dataOf, ih, List.append_assoc]

def Event.Complete : Event → Prop
  | .read xfer got => got.map List.length = some xfer
  | .wrote packet count => count = some packet.bytes.length
  | _ => True

instance (e : Event) : Decidable e.Complete := by
  cases e
  all_goals
    unfold Event.Complete
    infer_instance

def Event.OfTransfer : Event → Prop
  | .read _ _ => True
  | .textbar _ => True
  | .state s => s = .error
  | _ => False

structure Transferred (w : World) (es : List Event) (w' : World) : Prop where
  log : w'.log = es ++ w.log
  events : ∀ e ∈ es, e.OfTransfer
  size : w'.downloadSize = w.downloadSize
  room : w.downloadBase.length ≤ w'.downloadBase.length

theorem Transferred.refl (w : World) : Transferred w [] w :=
  ⟨rfl, by simp, rfl, Nat.le_refl _⟩

theorem Transferred.trans {w w1 w2 : World} {es es' : List Event} (h1 : Transferred w es w1)
    (h2 : Transferred w1 es' w2) : Transferred w (es' ++ es) w2 := by
  refine ⟨?_, ?_, ?_, Nat.le_trans h1.room h2.room⟩
  . rw [h2.log, h1.log, List.append_assoc]
  . intro e he
    cases List.mem_append.mp he with
    | inl he => exact h2.events e he
    | inr he => exact h1.events e he
  . rw [h2.size, h1.size]

/--
What `usb_read` does: its result is what came from the host, it is without an error exactly when the
state is left as it is, and it is as long as asked for when every `read` is. Only a `read` that fails makes
it fail.
-/
structure Received (len : Nat) (w : World) (r : Bool × Bytes) (w' : World) (es : List Event) : Prop
    extends Transferred w es w' where
  base : w'.downloadBase = w.downloadBase
  state : w'.state = if r.1 then w.state else .error
  data : dataOf es = r.2
  complete : w.state ≠ .error → (∀ e ∈ es, e.Complete) → r.1 = true ∧ r.2.length = len
  failed : w.state ≠ .error → r.1 = false → ∃ xfer, .read xfer none ∈ es

namespace usbRead

variable {env : Env}

def afterRead (env : Env) (xfer : Nat) (w : World) : World :=
  { w with
    reads := w.reads + 1
    log := .read xfer ((env.read w.reads).map (List.take xfer)) :: w.log }

theorem received_failed {len xfer : Nat} {w : World} (h : env.read w.reads = none)
    : Received len w (false, [])
        { afterRead env xfer w with state := .error, log := .state .error :: (afterRead env xfer w).log }
        [.state .error, .read xfer none] := by
  refine ⟨⟨?_, ?_, rfl, Nat.le_refl _⟩, rfl, rfl, rfl, ?_, ?_⟩
  . simp [afterRead, h]
  . simp [Event.OfTransfer]
  . simp [Event.Complete]
  . simp

theorem received_short {len xfer : Nat} {w : World} {bytes : Bytes}
    (h : (env.read w.reads).map (List.take xfer) = some bytes) (hshort : bytes.length ≠ xfer)
    : Received len w (true, bytes) (afterRead env xfer w) [.read xfer (some bytes)] := by
  refine ⟨⟨?_, ?_, rfl, Nat.le_refl _⟩, rfl, rfl, rfl, ?_, ?_⟩
  . simp [afterRead, h]
  . simp [Event.OfTransfer]
  . simp [Event.Complete, hshort]
  . simp

theorem received_more {len xfer : Nat} {w w' : World} {bytes rest : Bytes} {ok : Bool}
    {es : List Event} (hxfer : xfer ≤ len)
    (h : (env.read w.reads).map (List.take xfer) = some bytes) (hfull : bytes.length = xfer)
    (hrest : Received (len - xfer) (afterRead env xfer w) (ok, rest) w' es)
    : Received len w (ok, bytes ++ rest) w' (es ++ [.read xfer (some bytes)]) := by
  have hfirst : Transferred w [.read xfer (some bytes)] (afterRead env xfer w) := by
    refine ⟨?_, ?_, rfl, Nat.le_refl _⟩
    . simp [afterRead, h]
    . simp [Event.OfTransfer]
  refine ⟨hfirst.trans hrest.toTransferred, hrest.base, hrest.state, ?_, ?_, ?_⟩
  . simp [hrest.data, dataOf, Event.data]
  . intro hstate hcomplete
    have hdone := hrest.complete hstate (fun e he => hcomplete e (by simp [he]))
    refine ⟨hdone.1, ?_⟩
    have hlen : rest.length = len - xfer := hdone.2
    simp only [List.length_append, hfull, hlen]
    omega
  . intro hstate hfailed
    obtain ⟨xfer', hmem⟩ := hrest.failed hstate hfailed
    exact ⟨xfer', List.mem_append_left _ hmem⟩

theorem loop_spec {fuel len : Nat} (hfuel : len ≤ fuel) (got : Bytes) (w : World)
    : wp (loop env fuel len got)
        (fun r w' => ∃ bytes es, r.2 = got ++ bytes ∧ Received len w (r.1, bytes) w' es)
        (fun _ => False) w := by
  induction fuel generalizing len got w with
  | zero =>
    have hlen : len = 0 := by omega
    refine ⟨[], [], by simp, ⟨Transferred.refl w, rfl, rfl, rfl, ?_, by simp⟩⟩
    simp [hlen]
  | succ fuel ih =>
    unfold loop
    split
    . next hlen =>
      refine ⟨[], [], by simp, ⟨Transferred.refl w, rfl, rfl, rfl, ?_, by simp⟩⟩
      simp [hlen]
    . next hlen =>
      have hxfer : 0 < (if len > 4096 then 4096 else len) ∧ (if len > 4096 then 4096 else len) ≤ len := by
        split
        all_goals omega
      generalize (if len > 4096 then 4096 else len) = xfer at hxfer ⊢
      simp only [wp_bind, sysRead, wp_get, wp_set, wp_pure]
      split
      . next hread =>
        have hnone : env.read w.reads = none := by simpa using hread
        exact ⟨[], _, by simp, received_failed hnone⟩
      . next bytes hread =>
        split
        . next hshort => exact ⟨bytes, _, rfl, received_short hread hshort⟩
        . next hfull =>
          have hfull : bytes.length = xfer := by simpa using hfull
          apply wp_mono (ih (by omega) (got ++ bytes) (afterRead env xfer w)) _ (fun _ => id)
          rintro r w' ⟨rest, es, hr, hrest⟩
          refine ⟨bytes ++ rest, _, ?_, received_more hxfer.2 hread hfull hrest⟩
          rw [hr, List.append_assoc]

end usbRead

theorem usbRead_spec (env : Env) (len : Nat) (w : World)
    : wp (usbRead env len) (fun r w' => ∃ es, Received len w r w' es) (fun _ => False) w := by
  unfold usbRead
  simp only [wp_bind, wp_get]
  split
  . next herror =>
    refine ⟨[.state .error], ⟨⟨rfl, ?_, rfl, Nat.le_refl _⟩, rfl, rfl, rfl, ?_, ?_⟩⟩
    . simp [Event.OfTransfer]
    . intro hno
      contradiction
    . intro hno
      contradiction
  . apply wp_mono (usbRead.loop_spec (Nat.le_refl len) [] w) _ (fun _ => id)
    rintro ⟨ok, bytes⟩ w' ⟨bytes', es, hr, hreceived⟩
    simp only [List.nil_append] at hr
    rw [hr]
    exact ⟨es, hreceived⟩

theorem usbRead_packet {env : Env} {w : World} {packet : Bytes} (hstate : w.state ≠ .error)
    (hread : env.read w.reads = some packet)
    : wp (usbRead env 64) (fun r w' => r = (true, packet.take 64) ∧ w' = usbRead.afterRead env 64 w)
        (fun _ => False) w := by
  unfold usbRead
  simp only [wp_bind, wp_get, hstate, ↓reduceIte]
  unfold usbRead.loop
  simp only [OfNat.ofNat_ne_zero, gt_iff_lt, Nat.reduceLT, ↓reduceIte, sysRead, hread, wp_bind, wp_get,
    wp_set, wp_pure, Option.map_some]
  split
  . simp [usbRead.afterRead, hread]
  . unfold usbRead.loop
    simp [usbRead.afterRead, hread]

inductive Written (packet : Packet) (w : World) : Option Nat → World → Prop where
  | refused : w.state = .error
      → Written packet w none { w with state := .error, log := .state .error :: w.log }
  | failed : w.state ≠ .error
      → Written packet w none
          { w with
            writes := w.writes + 1
            state := .error
            log := .state .error :: .wrote packet none :: w.log }
  | taken (n : Nat) : w.state ≠ .error → n ≤ packet.bytes.length
      → Written packet w (some n)
          { w with writes := w.writes + 1, log := .wrote packet (some n) :: w.log }

theorem usbWrite_spec (env : Env) (packet : Packet) (w : World)
    : wp (usbWrite env packet) (fun r w' => Written packet w r w') (fun _ => False) w := by
  unfold usbWrite
  simp only [wp_bind, wp_get]
  split
  . next herror => exact .refused herror
  . next hno =>
    simp only [sysWrite, wp_bind, wp_get, wp_set, wp_pure]
    cases henv : env.write w.writes with
    | none => exact .failed hno
    | some n => exact .taken _ hno (Nat.min_le_left _ _)

theorem store_room (offset : Nat) (bytes base : Bytes)
    : base.length ≤ (base.take offset ++ bytes ++ base.drop (offset + bytes.length)).length := by
  simp only [List.length_append, List.length_take, List.length_drop]
  omega

/--
The rest of a transfer into the scratch area, of which `first` bytes are there. Its result is its length
when every `read` is complete, and with this result the area holds what came.
-/
structure Filled (len first : Nat) (w : World) (r : Int) (w' : World) (es : List Event) : Prop
    extends Transferred w es w' where
  done : r = len → w'.state = w.state ∧ (dataOf es).length = len - first
    ∧ w'.downloadBase.take len = w.downloadBase.take first ++ dataOf es
  complete : w.state ≠ .error → (∀ e ∈ es, e.Complete) → r = len

namespace usbReadProgress

structure Sliced (first slice : Nat) (w : World) (w' : World) (es : List Event) : Prop
    extends Transferred w es w' where
  state : w'.state = w.state
  data : (dataOf es).length = slice
  base : w'.downloadBase.take (first + slice) = w.downloadBase.take first ++ dataOf es

theorem Sliced.filled {len first slice : Nat} {w w1 w2 : World} {r : Int} {es es' : List Event}
    (h : Sliced first slice w w1 es) (hfit : first + slice ≤ len)
    (hrest : Filled len (first + slice) w1 r w2 es') : Filled len first w r w2 (es' ++ es) := by
  refine ⟨h.toTransferred.trans hrest.toTransferred, ?_, ?_⟩
  . intro hr
    obtain ⟨hstate, hlen, hbase⟩ := hrest.done hr
    refine ⟨hstate.trans h.state, ?_, ?_⟩
    . rw [dataOf_append, List.length_append, hlen, h.data]
      omega
    . rw [hbase, h.base, dataOf_append, List.append_assoc]
  . intro hstate hcomplete
    apply hrest.complete
    . rw [h.state]
      exact hstate
    . intro e he
      exact hcomplete e (by simp [he])

theorem Sliced.last {len first slice : Nat} {w w' : World} {es : List Event}
    (h : Sliced first slice w w' es) (hend : first + slice = len) (hlen : len < 2 ^ 31)
    : Filled len first w (toInt32 len) w' es := by
  have hr : toInt32 len = len := by
    unfold toInt32
    rw [if_pos hlen]
  refine ⟨h.toTransferred, ?_, ?_⟩
  . intro _
    refine ⟨h.state, ?_, ?_⟩
    . rw [h.data]
      omega
    . rw [← hend]
      exact h.base
  . intro _ _
    exact hr

theorem Sliced.bar {first slice : Nat} {w w' : World} {es : List Event}
    (h : Sliced first slice w w' es) (percent : Nat)
    : Sliced first slice w { w' with log := .textbar percent :: w'.log } (.textbar percent :: es) := by
  refine ⟨⟨?_, ?_, h.size, h.room⟩, h.state, ?_, ?_⟩
  . rw [h.log, List.cons_append]
  . intro e he
    cases List.mem_cons.mp he with
    | inl heq =>
      rw [heq]
      trivial
    | inr hmem => exact h.events e hmem
  . simpa [dataOf, Event.data] using h.data
  . simpa [dataOf, Event.data] using h.base

def afterStore (first : Nat) (bytes : Bytes) (w : World) : World :=
  { w with
    downloadBase :=
      w.downloadBase.take first ++ bytes ++ w.downloadBase.drop (first + bytes.length) }

theorem sliced_of_received (first : Nat) {slice : Nat} {w w' : World} {bytes : Bytes}
    {es : List Event} (h : Received slice w (true, bytes) w' es) (hlen : bytes.length = slice)
    (hroom : first + slice ≤ w.downloadBase.length)
    : Sliced first slice w (afterStore first bytes w') es := by
  have htake : (w.downloadBase.take first ++ bytes).length = first + slice := by
    rw [List.length_append, List.length_take, hlen]
    omega
  refine ⟨⟨h.log, h.events, h.size, ?_⟩, h.state, ?_, ?_⟩
  . rw [← h.base]
    exact store_room _ _ _
  . rw [h.data]
    exact hlen
  . unfold afterStore
    dsimp only
    rw [h.base, h.data, ← htake]
    exact List.take_left

variable {env : Env}

-- What comes after the bar is the same whether it is drawn or not; `hloop` stands for the turns to come.
theorem next_spec {fuel len slice finished : Nat} {w w1 : World} {es : List Event} (percent : Nat)
    (hslice : 0 < slice) (hfit : finished + slice ≤ len) (hlen : len < 2 ^ 31)
    (hsliced : Sliced finished slice w w1 es)
    (hloop : ∀ {slice' percent' : Nat}, 0 < slice' → finished + slice + slice' ≤ len
      → wp (loop env fuel len slice' percent' (finished + slice))
          (fun r w' => ∃ es, Filled len (finished + slice) w1 r w' es) (fun _ => False) w1)
    : wp (if u32 (finished + slice) > len then (pure (-1) : Fb Int)
        else if u32 (finished + slice) = len then pure (toInt32 (u32 (finished + slice)))
        else if u32 (u32 (finished + slice) + slice) > len then
          loop env fuel len (len - u32 (finished + slice)) 99 (u32 (finished + slice))
        else loop env fuel len slice (percent + 1) (u32 (finished + slice)))
      (fun r w' => ∃ es, Filled len finished w r w' es) (fun _ => False) w1 := by
  have hwrap : u32 (finished + slice) = finished + slice := u32_of_lt (by omega)
  have hwrap2 : u32 (finished + slice + slice) = finished + slice + slice := u32_of_lt (by omega)
  have hmore {slice' percent' : Nat} (hpos : 0 < slice') (hfit' : finished + slice + slice' ≤ len)
      : wp (loop env fuel len slice' percent' (finished + slice))
          (fun r w' => ∃ es, Filled len finished w r w' es) (fun _ => False) w1 := by
    apply wp_mono (hloop hpos hfit') _ (fun _ => id)
    rintro r w' ⟨es', hfilled⟩
    exact ⟨es' ++ es, hsliced.filled hfit hfilled⟩
  rw [hwrap, hwrap2]
  split
  . omega
  . split
    . next hend =>
      refine ⟨es, ?_⟩
      rw [hend]
      exact hsliced.last hend hlen
    . split
      . exact hmore (by omega) (by omega)
      . exact hmore hslice (by omega)

theorem loop_spec {fuel len slice percent finished : Nat} {w : World} (hslice : 0 < slice)
    (hfit : finished + slice ≤ len) (hlen : len < 2 ^ 31) (hroom : len ≤ w.downloadBase.length)
    (hfuel : len - finished ≤ fuel)
    : wp (loop env fuel len slice percent finished)
        (fun r w' => ∃ es, Filled len finished w r w' es) (fun _ => False) w := by
  induction fuel generalizing slice percent finished w with
  | zero => omega
  | succ fuel ih =>
    unfold loop
    have hne : slice ≠ 0 := by omega
    simp only [hne, ↓reduceIte, wp_bind]
    apply wp_mono (usbRead_spec env slice w) _ (fun _ => False.elim)
    rintro ⟨ok, bytes⟩ w1 ⟨es, hreceived⟩
    simp only [store, wp_modify]
    split
    . next hshort =>
      have hnot : ¬ (ok = true ∧ bytes.length = slice) := by
        rintro ⟨hok, hcount⟩
        simp [hok, hcount] at hshort
      refine ⟨es, ⟨⟨hreceived.log, hreceived.events, hreceived.size, ?_⟩, ?_, ?_⟩⟩
      . rw [← hreceived.base]
        exact store_room _ _ _
      . intro hr
        omega
      . intro hstate hcomplete
        exact absurd (hreceived.complete hstate hcomplete) hnot
    . next hfull =>
      have hfull : ok = true ∧ bytes.length = slice := by simpa using hfull
      rw [hfull.1] at hreceived
      have hsliced := sliced_of_received finished hreceived hfull.2 (by omega)
      have hnext (w2 : World) (es : List Event) (hsliced : Sliced finished slice w w2 es) :=
        next_spec percent hslice hfit hlen hsliced (fun hpos hfit' =>
          ih hpos hfit' (Nat.le_trans hroom hsliced.room) (by omega))
      split
      . simp only [emit, wp_bind, wp_modify]
        exact hnext _ _ (hsliced.bar _)
      . exact hnext _ _ hsliced

end usbReadProgress

theorem roundup_le {len : Nat} (h : 4096 ≤ len) : roundup (len / 100) 4096 ≤ len := by
  unfold roundup
  omega

theorem roundup_pos {len : Nat} (h : 4096 ≤ len) : 0 < roundup (len / 100) 4096 := by
  unfold roundup
  omega

theorem usbReadProgress_filled {env : Env} {len : Nat} {w : World} (hlen : len < 2 ^ 31)
    (hroom : len ≤ w.downloadBase.length)
    : wp (usbReadProgress env len) (fun r w' => ∃ es, Filled len 0 w r w' es) (fun _ => False) w := by
  unfold usbReadProgress
  split
  . next hsmall =>
    simp only [wp_bind, store, wp_modify, wp_pure]
    apply wp_mono (usbRead_spec env len w) _ (fun _ => False.elim)
    rintro ⟨ok, bytes⟩ w1 ⟨es, hreceived⟩
    refine ⟨es, ⟨hreceived.log, hreceived.events, hreceived.size, ?_⟩, ?_, ?_⟩
    . rw [← hreceived.base]
      exact store_room _ _ _
    . intro hr
      cases ok with
      | false =>
        simp only [Bool.false_eq_true, ↓reduceIte] at hr
        omega
      | true =>
        simp only [↓reduceIte, Nat.cast_inj] at hr
        have hsliced := usbReadProgress.sliced_of_received 0 hreceived hr (by omega)
        have hbase := hsliced.base
        have hdata := hsliced.data
        simp only [Nat.zero_add] at hbase
        exact ⟨hsliced.state, by omega, hbase⟩
    . intro hstate hcomplete
      obtain ⟨hok, hcount⟩ := hreceived.complete hstate hcomplete
      dsimp only at hok hcount
      simp only [hok, ↓reduceIte, hcount]
  . next hbig =>
    have hbig : 4096 ≤ len := by omega
    have hslice := roundup_le hbig
    exact usbReadProgress.loop_spec (roundup_pos hbig) (by omega) hlen hroom (by omega)

end Fastboot
