import Tboot.Fastboot.Lemmas.Transfer

/-!
This module contains the plan that `usb_read_progress` reads by: consecutive slices, which do not depend on
what the host sends, and what comes of a transfer that is carried out by it.
-/

open Proc

namespace Fastboot

/-- One `usb_read` of a transfer, and the percentage once it is done, which is shown if it is below 100 -/
structure Slice where
  offset : Nat
  size : Nat
  percent : Nat
  deriving DecidableEq, Repr

namespace Slice

def Contiguous : Nat → List Slice → Prop
  | _, [] => True
  | first, c :: rest => c.offset = first ∧ Contiguous (first + c.size) rest

def shown (plan : List Slice) : List Nat :=
  (plan.map percent).filter (· < 100)

end Slice

structure SlicesFrom (len first percent : Nat) (plan : List Slice) : Prop where
  contiguous : Slice.Contiguous first plan
  inside : ∀ c ∈ plan, c.offset + c.size ≤ len
  total : first + (plan.map Slice.size).sum = len
  aligned : ∀ c ∈ plan.dropLast, 4096 ∣ c.size
  rising : (Slice.shown plan).Pairwise (· < ·)
  above : ∀ p ∈ Slice.shown plan, percent < p ∧ p < 100

def carryOut (env : Env) (short : Bool → Bytes → Int) (len : Nat) : List Slice → Fb Int
  | [] => return len
  | c :: rest => do
    let (ok, bytes) ← usbRead env c.size
    store c.offset bytes
    if !ok || bytes.length ≠ c.size then
      return short ok bytes
    if c.percent < 100 then
      emit (.textbar c.percent)
    carryOut env short len rest

def shortResult (len : Nat) (ok : Bool) (bytes : Bytes) : Int :=
  if len < 4096 ∧ ok then bytes.length else -1

namespace SlicesFrom

variable {len first percent size : Nat} {plan : List Slice}

theorem last (hend : first + size = len) {percent' : Nat} (hpercent : percent' < 100 → percent < percent')
    : SlicesFrom len first percent [⟨first, size, percent'⟩] := by
  refine ⟨⟨rfl, trivial⟩, by simp [hend], by simpa using hend, by simp, ?_, ?_⟩
  . unfold Slice.shown
    simp only [List.map_cons, List.map_nil, List.filter_cons, List.filter_nil]
    split
    all_goals simp
  . intro p hp
    unfold Slice.shown at hp
    simp only [List.map_cons, List.map_nil, List.mem_filter, List.mem_singleton, decide_eq_true_eq] at hp
    omega

theorem cons (h : SlicesFrom len (first + size) (percent + 1) plan) (haligned : 4096 ∣ size)
    : SlicesFrom len first percent (⟨first, size, percent + 1⟩ :: plan) := by
  have habove := h.above
  have htotal := h.total
  refine ⟨⟨rfl, h.contiguous⟩, ?_, ?_, ?_, ?_, ?_⟩
  . intro c hc
    cases List.mem_cons.mp hc with
    | inl heq =>
      rw [heq]
      dsimp only
      omega
    | inr hmem => exact h.inside c hmem
  . simp only [List.map_cons, List.sum_cons]
    omega
  . intro c hc
    cases plan with
    | nil => simp at hc
    | cons c' plan =>
      rw [List.dropLast_cons_cons, List.mem_cons] at hc
      cases hc with
      | inl heq =>
        rw [heq]
        exact haligned
      | inr hmem => exact h.aligned c hmem
  . unfold Slice.shown
    rw [List.map_cons, List.filter_cons]
    split
    . rw [List.pairwise_cons]
      exact ⟨fun p hp => (habove p hp).1, h.rising⟩
    . exact h.rising
  . intro p hp
    unfold Slice.shown at hp
    rw [List.map_cons, List.mem_filter, List.mem_cons] at hp
    cases hp.1 with
    | inl heq =>
      have hlt := of_decide_eq_true hp.2
      dsimp only at heq
      omega
    | inr hmem =>
      have := habove p (List.mem_filter.mpr ⟨hmem, hp.2⟩)
      omega

end SlicesFrom

namespace usbReadProgress

variable {env : Env} {fuel len slice percent finished : Nat} {plan : List Slice}

theorem turn_carriesOut (hbig : 4096 ≤ len) (hslice : 0 < slice)
    (hrest : (if u32 (finished + slice) > len then (pure (-1) : Fb Int)
        else if u32 (finished + slice) = len then pure (toInt32 (u32 (finished + slice)))
        else if u32 (u32 (finished + slice) + slice) > len then
          loop env fuel len (len - u32 (finished + slice)) 99 (u32 (finished + slice))
        else loop env fuel len slice (percent + 1) (u32 (finished + slice)))
      = carryOut env (shortResult len) len plan)
    : loop env (fuel + 1) len slice percent finished
        = carryOut env (shortResult len) len (⟨finished, slice, percent + 1⟩ :: plan) := by
  have hne : slice ≠ 0 := by omega
  have hshort (ok : Bool) (bytes : Bytes) : shortResult len ok bytes = -1 := by
    unfold shortResult
    rw [if_neg]
    omega
  unfold loop carryOut
  simp only [hne, ↓reduceIte, hshort]
  apply bind_congr
  intro r
  apply bind_congr
  intro _
  split
  . rfl
  . split
    . rw [hrest]
    . exact hrest

theorem last_carriesOut (hbig : 4096 ≤ len) (hlen : len < 2 ^ 31) (hslice : 0 < slice)
    (hend : finished + slice = len)
    : loop env (fuel + 1) len slice percent finished
        = carryOut env (shortResult len) len [⟨finished, slice, percent + 1⟩] := by
  apply turn_carriesOut hbig hslice
  have hwrap : u32 len = len := u32_of_lt (by omega)
  have hr : toInt32 len = len := by
    unfold toInt32
    rw [if_pos hlen]
  rw [hend, hwrap, hr]
  simp [carryOut]

theorem loop_carriesOut (hbig : 4096 ≤ len) (hlen : len < 2 ^ 31) (hslice : 0 < slice) (haligned : 4096 ∣ slice)
    (hfit : finished + slice ≤ len) (hfuel : len - finished ≤ fuel)
    : ∃ plan, SlicesFrom len finished percent plan
        ∧ ∀ env, loop env fuel len slice percent finished = carryOut env (shortResult len) len plan := by
  induction fuel generalizing percent finished with
  | zero => omega
  | succ fuel ih =>
    by_cases hend : finished + slice = len
    . exact ⟨_, .last hend (by omega), fun env => last_carriesOut hbig hlen hslice hend⟩
    . have hwrap : u32 (finished + slice) = finished + slice := u32_of_lt (by omega)
      have hwrap2 : u32 (finished + slice + slice) = finished + slice + slice := u32_of_lt (by omega)
      have hno : ¬finished + slice > len := by omega
      by_cases hcut : finished + slice + slice > len
      . -- The last slice is what is left, and is set to 99 percent before it is read.
        obtain ⟨fuel, rfl⟩ := Nat.exists_eq_succ_of_ne_zero (show fuel ≠ 0 by omega)
        have hlast : finished + slice + (len - (finished + slice)) = len := by omega
        refine ⟨[⟨finished, slice, percent + 1⟩, ⟨finished + slice, len - (finished + slice), 100⟩],
          .cons (.last hlast (by omega)) haligned, ?_⟩
        intro env
        apply turn_carriesOut hbig hslice
        rw [hwrap, hwrap2, if_neg hno, if_neg hend, if_pos hcut]
        exact last_carriesOut hbig hlen (by omega) hlast
      . obtain ⟨plan, hplan, heq⟩ := @ih (percent + 1) (finished + slice) (by omega) (by omega)
        refine ⟨_, .cons hplan haligned, ?_⟩
        intro env
        apply turn_carriesOut hbig hslice
        rw [hwrap, hwrap2, if_neg hno, if_neg hend, if_neg hcut]
        exact heq env

end usbReadProgress

theorem slicesFrom_small (len : Nat) : SlicesFrom len 0 0 [⟨0, len, 100⟩] := by
  apply SlicesFrom.last
  all_goals omega

theorem small_carriesOut {len : Nat} (hsmall : len < 4096) (env : Env)
    : usbReadProgress env len = carryOut env (shortResult len) len [⟨0, len, 100⟩] := by
  unfold usbReadProgress carryOut
  rw [if_pos hsmall]
  apply bind_congr
  intro r
  apply bind_congr
  intro _
  obtain ⟨ok, bytes⟩ := r
  unfold shortResult carryOut
  cases ok with
  | false => simp
  | true =>
    by_cases hcount : bytes.length = len
    . simp [hcount]
    . simp [hcount, hsmall]

theorem roundup_dvd (x : Nat) : 4096 ∣ roundup x 4096 :=
  Nat.dvd_mul_left _ _

theorem usbReadProgress_carriesOut {len : Nat} (hlen : len < 2 ^ 31)
    : ∃ plan, SlicesFrom len 0 0 plan ∧ ∀ env, usbReadProgress env len = carryOut env (shortResult len) len plan := by
  by_cases hsmall : len < 4096
  . exact ⟨_, slicesFrom_small len, small_carriesOut hsmall⟩
  . have hbig : 4096 ≤ len := by omega
    have hslice := roundup_le hbig
    unfold usbReadProgress
    simp only [if_neg hsmall]
    apply usbReadProgress.loop_carriesOut hbig hlen (roundup_pos hbig) (roundup_dvd _)
    . omega
    . exact Nat.le_refl _

/-! ### What comes of it -/

def Event.percent : Event → Option Nat
  | .textbar percent => some percent
  | _ => none

def percents (es : List Event) : List Nat :=
  es.filterMap Event.percent

def Event.FromHost (env : Env) : Event → Prop
  | .read xfer got => xfer ≤ 4096 ∧ ∃ n, got = (env.read n).map (List.take xfer)
  | .wrote _ _ => False
  | _ => True

def Generous (env : Env) : Prop :=
  ∀ n, ∃ bytes, env.read n = some bytes ∧ 4096 ≤ bytes.length

theorem Generous.complete {env : Env} (h : Generous env) {e : Event} (he : e.FromHost env) : e.Complete := by
  cases e with
  | read xfer got =>
    obtain ⟨hxfer, n, rfl⟩ := he
    obtain ⟨bytes, hread, hlen⟩ := h n
    simp only [Event.Complete, hread, Option.map_some, List.length_take, Option.some.injEq]
    omega
  | wrote => exact he.elim
  | _ => trivial

structure ReadOnly (env : Env) (len : Nat) (w : World) (r : Bool × Bytes) (w' : World) (es : List Event) : Prop where
  log : w'.log = es ++ w.log
  fromHost : ∀ e ∈ es, e.FromHost env
  length_le : r.2.length ≤ len
  bars : percents es = []
  complete : r.1 = true → r.2.length = len → ∀ e ∈ es, e.Complete

namespace usbRead

variable {env : Env}

theorem readOnly_short {len xfer : Nat} {w : World} {bytes : Bytes} (hxfer : xfer ≤ len) (hmax : xfer ≤ 4096)
    (h : (env.read w.reads).map (List.take xfer) = some bytes) (hshort : bytes.length < xfer)
    : ReadOnly env len w (true, bytes) (afterRead env xfer w) [.read xfer (some bytes)] := by
  refine ⟨by simp [afterRead, h], ?_, ?_, rfl, ?_⟩
  . intro e he
    rw [List.mem_singleton.mp he]
    exact ⟨hmax, w.reads, h.symm⟩
  . dsimp only
    omega
  . intro _ hlen
    dsimp only at hlen
    omega

theorem readOnly_more {len xfer : Nat} {w w' : World} {bytes rest : Bytes} {ok : Bool} {es : List Event}
    (hxfer : xfer ≤ len) (hmax : xfer ≤ 4096) (h : (env.read w.reads).map (List.take xfer) = some bytes)
    (hfull : bytes.length = xfer) (hrest : ReadOnly env (len - xfer) (afterRead env xfer w) (ok, rest) w' es)
    : ReadOnly env len w (ok, bytes ++ rest) w' (es ++ [.read xfer (some bytes)]) := by
  have hrestlen : rest.length ≤ len - xfer := hrest.length_le
  have hbars : es.filterMap Event.percent = [] := hrest.bars
  refine ⟨?_, ?_, ?_, ?_, ?_⟩
  . rw [hrest.log]
    simp [afterRead, h]
  . intro e he
    cases List.mem_append.mp he with
    | inl hmem => exact hrest.fromHost e hmem
    | inr hmem =>
      rw [List.mem_singleton.mp hmem]
      exact ⟨hmax, w.reads, h.symm⟩
  . simp only [List.length_append]
    omega
  . simp [percents, hbars, Event.percent]
  . intro hok hlen e he
    cases List.mem_append.mp he with
    | inl hmem =>
      apply hrest.complete hok _ e hmem
      simp only [List.length_append] at hlen
      dsimp only
      omega
    | inr hmem =>
      rw [List.mem_singleton.mp hmem]
      simp [Event.Complete, hfull]

theorem loop_readOnly (fuel len : Nat) (got : Bytes) (w : World)
    : wp (loop env fuel len got)
        (fun r w' => ∃ bytes es, r.2 = got ++ bytes ∧ ReadOnly env len w (r.1, bytes) w' es)
        (fun _ => False) w := by
  induction fuel generalizing len got w with
  | zero => exact ⟨[], [], by simp, rfl, by simp, Nat.zero_le _, rfl, by simp⟩
  | succ fuel ih =>
    unfold loop
    split
    . exact ⟨[], [], by simp, rfl, by simp, Nat.zero_le _, rfl, by simp⟩
    . have hxfer : (if len > 4096 then 4096 else len) ≤ len ∧ (if len > 4096 then 4096 else len) ≤ 4096 := by
        split
        all_goals omega
      generalize (if len > 4096 then 4096 else len) = xfer at hxfer ⊢
      simp only [wp_bind, sysRead, wp_get, wp_set, wp_pure]
      split
      . next hread =>
        have hhost : ∀ e ∈ [Event.state .error, .read xfer none], e.FromHost env := by
          intro e he
          cases List.mem_cons.mp he with
          | inl heq =>
            rw [heq]
            trivial
          | inr hmem =>
            rw [List.mem_singleton.mp hmem]
            exact ⟨hxfer.2, w.reads, hread.symm⟩
        exact ⟨[], [.state .error, .read xfer none], by simp, by simp [hread], hhost, Nat.zero_le _, rfl, by simp⟩
      . next bytes hread =>
        have hle : bytes.length ≤ xfer := by
          obtain ⟨all, _, hall⟩ := Option.map_eq_some_iff.mp hread
          rw [← hall]
          exact List.length_take_le _ _
        split
        . next hshort => exact ⟨bytes, _, rfl, readOnly_short hxfer.1 hxfer.2 hread (by omega)⟩
        . next hfull =>
          have hfull : bytes.length = xfer := by simpa using hfull
          apply wp_mono (ih (len - xfer) (got ++ bytes) (afterRead env xfer w)) _ (fun _ => id)
          rintro r w' ⟨rest, es, hr, hrest⟩
          refine ⟨bytes ++ rest, _, ?_, readOnly_more hxfer.1 hxfer.2 hread hfull hrest⟩
          rw [hr, List.append_assoc]

end usbRead

theorem usbRead_readOnly (env : Env) (len : Nat) (w : World)
    : wp (usbRead env len) (fun r w' => ∃ es, ReadOnly env len w r w' es) (fun _ => False) w := by
  unfold usbRead
  simp only [wp_bind, wp_get]
  split
  . exact ⟨[.state .error], rfl, by simp [Event.FromHost], Nat.zero_le _, rfl, by simp⟩
  . apply wp_mono (usbRead.loop_readOnly len len [] w) _ (fun _ => id)
    rintro ⟨ok, bytes⟩ w' ⟨bytes', es, hr, hreads⟩
    simp only [List.nil_append] at hr
    rw [hr]
    exact ⟨es, hreads⟩

structure CarriedOut (env : Env) (len : Nat) (plan : List Slice) (w : World) (r : Int) (w' : World) (es : List Event)
    : Prop where
  log : w'.log = es ++ w.log
  fromHost : ∀ e ∈ es, e.FromHost env
  complete : r = len → ∀ e ∈ es, e.Complete
  short : r ≠ len → r = -1
  bars : (percents es).reverse <+: Slice.shown plan

theorem CarriedOut.cons {env : Env} {len : Nat} {c : Slice} {plan : List Slice} {w w1 w' : World} {r : Int}
    {es es' : List Event} (hlog : w1.log = es ++ w.log) (hhost : ∀ e ∈ es, e.FromHost env)
    (hcomplete : ∀ e ∈ es, e.Complete) (hbars : percents es = Slice.shown [c])
    (hrest : CarriedOut env len plan w1 r w' es') : CarriedOut env len (c :: plan) w r w' (es' ++ es) := by
  have hshown : Slice.shown (c :: plan) = Slice.shown [c] ++ Slice.shown plan :=
    List.filter_append [c.percent] (plan.map Slice.percent)
  have hone : (Slice.shown [c]).reverse = Slice.shown [c] := by
    unfold Slice.shown
    simp only [List.map_cons, List.map_nil, List.filter_cons, List.filter_nil]
    split
    all_goals rfl
  refine ⟨?_, ?_, ?_, hrest.short, ?_⟩
  . rw [hrest.log, hlog, List.append_assoc]
  . intro e he
    cases List.mem_append.mp he with
    | inl hmem => exact hrest.fromHost e hmem
    | inr hmem => exact hhost e hmem
  . intro hr e he
    cases List.mem_append.mp he with
    | inl hmem => exact hrest.complete hr e hmem
    | inr hmem => exact hcomplete e hmem
  . have happend : percents (es' ++ es) = percents es' ++ percents es := List.filterMap_append
    rw [happend, List.reverse_append, hbars, hone, hshown, List.prefix_append_right_inj]
    exact hrest.bars

theorem carryOut_spec (env : Env) {len : Nat} (hbig : 4096 ≤ len) (plan : List Slice) (w : World)
    : wp (carryOut env (shortResult len) len plan) (fun r w' => ∃ es, CarriedOut env len plan w r w' es)
        (fun _ => False) w := by
  induction plan generalizing w with
  | nil => exact ⟨[], rfl, by simp, by simp, by simp, by simp [percents]⟩
  | cons c plan ih =>
    unfold carryOut
    simp only [wp_bind]
    apply wp_mono (usbRead_readOnly env c.size w) _ (fun _ => id)
    rintro ⟨ok, bytes⟩ w1 ⟨es, hread⟩
    have hbars : es.filterMap Event.percent = [] := hread.bars
    simp only [store, wp_modify]
    split
    . have hr : shortResult len ok bytes = -1 := by
        unfold shortResult
        rw [if_neg]
        omega
      rw [wp_pure, hr]
      refine ⟨es, hread.log, hread.fromHost, by omega, fun _ => rfl, ?_⟩
      rw [hread.bars]
      exact List.nil_prefix
    . next hfull =>
      have hfull : ok = true ∧ bytes.length = c.size := by simpa using hfull
      have hcomplete := hread.complete hfull.1 hfull.2
      split
      . next hshown =>
        simp only [emit, wp_bind, wp_modify]
        apply wp_mono (ih _) _ (fun _ => id)
        rintro r w' ⟨es', hrest⟩
        refine ⟨es' ++ .textbar c.percent :: es, hrest.cons ?_ ?_ ?_ ?_⟩
        . simp [hread.log]
        . simpa [Event.FromHost] using hread.fromHost
        . simpa [Event.Complete] using hcomplete
        . simp [percents, Slice.shown, Event.percent, hshown, hbars]
      . next hshown =>
        apply wp_mono (ih _) _ (fun _ => id)
        rintro r w' ⟨es', hrest⟩
        refine ⟨es' ++ es, hrest.cons ?_ hread.fromHost hcomplete ?_⟩
        . exact hread.log
        . simp [percents, Slice.shown, hshown, hbars]

/--
What a transfer comes to, with `es` what it did: it returns `len` just when all has been filled in order, and that is so
whenever every `read` is complete.
-/
structure Outcome (env : Env) (len : Nat) (w : World) (r : Int) (w' : World) (es : List Event) : Prop where
  log : w'.log = es ++ w.log
  whole : r = len ↔ (∀ e ∈ es, e.Complete) ∧ (dataOf es).length = len ∧ w'.downloadBase.take len = dataOf es
  complete : (∀ e ∈ es, e.Complete) → r = len
  generous : Generous env → r = len
  short : r ≠ len → r = -1 ∨ (len < 4096 ∧ r = (dataOf es).length)
  rising : (percents es).reverse.Pairwise (· < ·)
  below : ∀ p ∈ percents es, p < 100

theorem Filled.outcome {env : Env} {len : Nat} {w w' : World} {r : Int} {es : List Event} (h : Filled len 0 w r w' es)
    (hstate : w.state ≠ .error) (hhost : ∀ e ∈ es, e.FromHost env) (hcomplete : r = len → ∀ e ∈ es, e.Complete)
    (hshort : r ≠ len → r = -1 ∨ (len < 4096 ∧ r = (dataOf es).length)) {plan : List Slice}
    (hplan : SlicesFrom len 0 0 plan) (hbars : (percents es).reverse <+: Slice.shown plan)
    : Outcome env len w r w' es := by
  refine ⟨h.log, ?_, h.complete hstate, ?_, hshort, ?_, ?_⟩
  . constructor
    . intro hr
      obtain ⟨_, hlen, hbase⟩ := h.done hr
      exact ⟨hcomplete hr, hlen, by simpa using hbase⟩
    . rintro ⟨hall, _⟩
      exact h.complete hstate hall
  . intro hgenerous
    exact h.complete hstate (fun e he => hgenerous.complete (hhost e he))
  . exact hplan.rising.sublist hbars.sublist
  . intro p hp
    exact (hplan.above p (hbars.subset (List.mem_reverse.mpr hp))).2

theorem small_spec {env : Env} {len : Nat} (hsmall : len < 4096) (w : World)
    : wp (usbReadProgress env len)
        (fun r w' => ∃ es, w'.log = es ++ w.log ∧ (∀ e ∈ es, e.FromHost env) ∧ (r = len → ∀ e ∈ es, e.Complete)
          ∧ (r ≠ len → r = -1 ∨ r = (dataOf es).length) ∧ percents es = [])
        (fun _ => False) w := by
  unfold usbReadProgress
  rw [if_pos hsmall]
  simp only [wp_bind, store, wp_modify, wp_pure]
  apply wp_mono (wp_and (usbRead_spec env len w) (usbRead_readOnly env len w)) _ (fun _ => And.left)
  rintro ⟨ok, bytes⟩ w1 ⟨⟨es, hreceived⟩, es', hread⟩
  have hsame : es' = es := List.append_cancel_right (hread.log.symm.trans hreceived.log)
  rw [hsame] at hread
  refine ⟨es, hread.log, hread.fromHost, ?_, ?_, hread.bars⟩
  . intro hr
    cases ok with
    | false =>
      simp only [Bool.false_eq_true, ↓reduceIte] at hr
      omega
    | true =>
      simp only [↓reduceIte, Nat.cast_inj] at hr
      exact hread.complete rfl hr
  . intro _
    cases ok with
    | false => exact Or.inl rfl
    | true =>
      rw [hreceived.data]
      exact Or.inr rfl

theorem small_outcome {env : Env} {len : Nat} {w : World} (hsmall : len < 4096) (hstate : w.state ≠ .error)
    (hroom : len ≤ w.downloadBase.length)
    : wp (usbReadProgress env len) (fun r w' => ∃ es, Outcome env len w r w' es) (fun _ => False) w := by
  have hlen : len < 2 ^ 31 := by omega
  apply wp_mono (wp_and (usbReadProgress_filled hlen hroom) (small_spec hsmall w)) _ (fun _ => And.left)
  rintro r w' ⟨⟨es, hfilled⟩, es', hlog, hhost, hcomplete, hshort, hbars⟩
  have hsame : es' = es := List.append_cancel_right (hlog.symm.trans hfilled.log)
  rw [hsame] at hhost hcomplete hshort hbars
  refine ⟨es, hfilled.outcome hstate hhost hcomplete ?_ (slicesFrom_small len) ?_⟩
  . intro hr
    cases hshort hr with
    | inl hno => exact Or.inl hno
    | inr hcount => exact Or.inr ⟨hsmall, hcount⟩
  . rw [hbars]
    exact List.nil_prefix

theorem big_outcome {env : Env} {len : Nat} {w : World} (hbig : 4096 ≤ len) (hlen : len < 2 ^ 31)
    (hstate : w.state ≠ .error) (hroom : len ≤ w.downloadBase.length) {plan : List Slice}
    (hplan : SlicesFrom len 0 0 plan) (hrun : usbReadProgress env len = carryOut env (shortResult len) len plan)
    : wp (usbReadProgress env len) (fun r w' => ∃ es, Outcome env len w r w' es) (fun _ => False) w := by
  have hcarried := carryOut_spec env hbig plan w
  rw [← hrun] at hcarried
  apply wp_mono (wp_and (usbReadProgress_filled hlen hroom) hcarried) _ (fun _ => And.left)
  rintro r w' ⟨⟨es, hfilled⟩, es', hcarried⟩
  have hsame : es' = es := List.append_cancel_right (hcarried.log.symm.trans hfilled.log)
  rw [hsame] at hcarried
  exact ⟨es, hfilled.outcome hstate hcarried.fromHost hcarried.complete (fun hr => Or.inl (hcarried.short hr)) hplan
    hcarried.bars⟩

/--
`usb_read_progress` carries out consecutive slices of the transfer, the same ones whatever the host sends,
and returns the length just when every byte has come in order and every `read` was complete.
-/
theorem usbReadProgress_exact {len : Nat} (hlen : len < 2 ^ 31)
    : (∃ plan, SlicesFrom len 0 0 plan
          ∧ ∀ env, usbReadProgress env len = carryOut env (shortResult len) len plan)
        ∧ ∀ env w, w.state ≠ .error → len ≤ w.downloadBase.length
          → wp (usbReadProgress env len) (fun r w' => ∃ es, Outcome env len w r w' es) (fun _ => False) w := by
  obtain ⟨plan, hplan, hrun⟩ := usbReadProgress_carriesOut hlen
  refine ⟨⟨plan, hplan, hrun⟩, ?_⟩
  intro env w hstate hroom
  by_cases hsmall : len < 4096
  . exact small_outcome hsmall hstate hroom
  . exact big_outcome (by omega) hlen hstate hroom hplan (hrun env)

theorem usbReadProgress_exact_two
    : (∃ plan, SlicesFrom 5000 0 0 plan
          ∧ ∀ env, usbReadProgress env 5000 = carryOut env (shortResult 5000) 5000 plan)
        ∧ ∀ env, wp (usbReadProgress env 5000)
          (fun r w' => ∃ es, Outcome env 5000 (start (List.replicate 8192 0)).world r w' es) (fun _ => False)
          (start (List.replicate 8192 0)).world := by
  obtain ⟨hplan, houtcome⟩ := usbReadProgress_exact (show 5000 < 2 ^ 31 by decide)
  refine ⟨hplan, ?_⟩
  intro env
  apply houtcome
  . intro herror
    cases herror
  . change 5000 ≤ (List.replicate 8192 (0 : UInt8)).length
    rw [List.length_replicate]
    decide

end Fastboot
