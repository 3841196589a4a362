import Tboot.Aboot.Lemmas.Basic
import Tboot.Fastboot.Lemmas.Transfer

/-!
This module contains the account of the data phase: once the device has asked for data, it has received
all of it before it reads the next command, unless something fails in the middle of a `flash:`.
-/

open Proc History

namespace Aboot

open Fastboot

inductive Source where
  | other
  | flash
  | download
  deriving DecidableEq, Repr

def source : List Event → Source
  | [] => .other
  | .await :: _ => .other
  | .call (.pullFile _) :: _ => .other
  | .call (.receive _) :: _ => .flash
  | .call (.downloadTo _) :: _ => .flash
  | .download :: _ => .download
  | _ :: older => source older

/-- What the device has asked for since it read a command, and what it has got of it -/
structure Phase where
  len : Nat
  got : Nat
  deriving DecidableEq, Repr

def phase : List Event → Option Phase
  | [] => none
  | .await :: _ => none
  | .state .offline :: _ => none
  | .wrote (.data len) count :: older =>
    if count = some (Packet.data len).bytes.length then some ⟨len, 0⟩ else phase older
  | .read _ (some bytes) :: older =>
    (phase older).map fun p => if source older = .other then p else ⟨p.len, p.got + bytes.length⟩
  | _ :: older => phase older

def AccountedAt (e : Event) (older : List Event) : Prop :=
  e = .await → ∀ p ∈ phase older, p.got = p.len

instance (e : Event) (older : List Event) : Decidable (AccountedAt e older) :=
  inferInstanceAs (Decidable (e = .await → ∀ p ∈ phase older, p.got = p.len))

def Fallible : Outside → Bool
  | .bufferInit _ => true
  | .asprintf => true
  | .popen _ => true
  | .pthreadCreate => true
  | _ => false

/-- Nothing fails while a `flash:` has data to come. -/
def UnbrokenAt (e : Event) (older : List Event) : Prop :=
  match e with
  | .read _ _ => source older = .flash → e.Complete
  | .outside q ok => Fallible q = true → ok = false → ∀ p ∈ phase older, p.len ≤ p.got
  | _ => True

instance (e : Event) (older : List Event) : Decidable (UnbrokenAt e older) :=
  match e with
  | .read xfer got => inferInstanceAs (Decidable (source older = .flash → Event.Complete (.read xfer got)))
  | .outside q ok => inferInstanceAs (Decidable
      (Fallible q = true → ok = false → ∀ p ∈ phase older, p.len ≤ p.got))
  | .await | .wrote _ _ | .state _ | .call _ | .handle _ | .download | .oem _ | .textbar _ | .halt _ =>
    .isTrue trivial

abbrev Accounted (log : List Event) : Prop :=
  Always AccountedAt log

abbrev Unbroken (log : List Event) : Prop :=
  Always UnbrokenAt log

namespace DataPhase

def Neutral : Event → Prop
  | .await => False
  | .state s => s ≠ .offline
  | .read _ _ => False
  | .wrote (.data _) _ => False
  | _ => True

theorem phase_neutral {e : Event} {older : List Event} (he : Neutral e) : phase (e :: older) = phase older := by
  conv_lhs => unfold phase
  split
  all_goals simp_all [Neutral]

structure Inv (env : Env) (P : World → Prop) (w : World) : Prop where
  room : env.downloadMax ≤ w.downloadBase.length
  sound : Unbroken w.log → Accounted w.log ∧ P w

variable {env : Env} {P P' : World → Prop}

theorem Inv.mono {w : World} (h : Inv env P w) (himp : P w → P' w) : Inv env P' w :=
  ⟨h.room, fun hunbroken => ⟨(h.sound hunbroken).1, himp (h.sound hunbroken).2⟩⟩

-- Where the handler halts nothing is read any more, so only the account up to there is kept.
theorem Inv.halts {w : World} (h : Inv env P w) : Inv env (fun _ => True) w :=
  h.mono (fun _ => trivial)

theorem Inv.step {w w' : World} {e : Event} (h : Inv env P w) (hlog : w'.log = e :: w.log)
    (hroom : w.downloadBase.length ≤ w'.downloadBase.length) (he : e ≠ .await)
    (hP : UnbrokenAt e w.log → P w → P' w') : Inv env P' w' := by
  refine ⟨Nat.le_trans h.room hroom, ?_⟩
  rw [hlog]
  rintro ⟨hat, hunbroken⟩
  obtain ⟨haccounted, hw⟩ := h.sound hunbroken
  exact ⟨⟨fun hawait => absurd hawait he, haccounted⟩, hP hat hw⟩

def On (Q : Option Phase → Prop) (w : World) : Prop :=
  Q (phase w.log)

/-! ### Programs that do not ask for data -/

section Tame

variable {Q : Option Phase → Prop}

theorem Inv.neutral {w w' : World} {e : Event} (h : Inv env (On Q) w) (he : Neutral e)
    (hlog : w'.log = e :: w.log) (hroom : w.downloadBase.length ≤ w'.downloadBase.length)
    : Inv env (On Q) w' := by
  apply h.step hlog hroom
  . rintro rfl
    exact he
  . intro _ hQ
    unfold On
    rw [hlog, phase_neutral he]
    exact hQ

theorem emit_on {e : Event} (he : Neutral e) : Keeps (Inv env (On Q)) (emit e) :=
  fun _ h => h.neutral he rfl (Nat.le_refl _)

theorem setState_on {s : FbState} (hs : s ≠ .offline) : Keeps (Inv env (On Q)) (setState s) :=
  fun _ h => h.neutral (e := .state s) hs rfl (Nat.le_refl _)

theorem reply_on (code : Code) (text : Bytes) : Keeps (Inv env (On Q)) (usbWrite env (.reply code text)) :=
  usbWrite_keeps (setState_on (by simp)) (fun _ h => h.neutral (by trivial) rfl (Nat.le_refl _))

theorem fail_on (text : Bytes) : Keeps (Inv env (On Q)) (fastbootFail env text) :=
  end_keeps (emit_on (by trivial)) (reply_on .fail) (setState_on (by simp))

theorem okay_on (text : Bytes) : Keeps (Inv env (On Q)) (fastbootOkay env text) :=
  end_keeps (emit_on (by trivial)) (reply_on .okay) (setState_on (by simp))

def Pulling (Q : Option Phase → Prop) (w : World) : Prop :=
  On Q w ∧ source w.log = .other

theorem Inv.pulling {w w' : World} {e : Event} (h : Inv env (Pulling Q) w)
    (hlog : w'.log = e :: w.log) (hroom : w.downloadBase.length ≤ w'.downloadBase.length)
    (hphase : source w.log = .other → phase (e :: w.log) = phase w.log)
    (hsource : source (e :: w.log) = source w.log) (he : e ≠ .await) : Inv env (Pulling Q) w' := by
  apply h.step hlog hroom he
  rintro _ ⟨hQ, hother⟩
  unfold Pulling On
  rw [hlog, hphase hother, hsource]
  exact ⟨hQ, hother⟩

theorem read_pulling (xfer : Nat) : Keeps (Inv env (Pulling Q)) (sysRead env xfer) := by
  intro w h
  refine h.pulling (e := .read xfer _) rfl (Nat.le_refl _) ?_ rfl (by simp)
  intro hother
  cases henv : (env.read w.reads).map (List.take xfer) with
  | none => rfl
  | some bytes => simp [phase, hother]

theorem setState_pulling {s : FbState} (hs : s ≠ .offline) : Keeps (Inv env (Pulling Q)) (setState s) :=
  fun _ h => h.pulling (e := .state s) rfl (Nat.le_refl _) (fun _ => phase_neutral hs) rfl (by simp)

theorem write_pulling {packet : Packet} (hpacket : ∀ len, packet ≠ .data len)
    : Keeps (Inv env (Pulling Q)) (usbWrite env packet) := by
  apply usbWrite_keeps (setState_pulling (by simp))
  intro w h
  refine h.pulling (e := .wrote packet _) rfl (Nat.le_refl _) ?_ rfl (by simp)
  intro _
  apply phase_neutral
  cases packet
  all_goals simp_all [Neutral]

theorem fail_pulling (text : Bytes) : Keeps (Inv env (Pulling Q)) (fastbootFail env text) :=
  end_keeps (fun _ h => h.pulling rfl (Nat.le_refl _) (fun _ => rfl) rfl (by simp))
    (fun _ => write_pulling (by simp)) (setState_pulling (by simp))

theorem pulling_keptByReads : KeptByReads env (Inv env (Pulling Q)) :=
  ⟨read_pulling, setState_pulling (by simp)⟩

theorem pullFile_on (fd : Fd) : Keeps (Inv env (On Q)) (pullFile env fd) := by
  intro w h
  have hbody : Keeps (Inv env (Pulling Q)) (pullFile.body env fd) := by
    apply pullFile_body_keeps fail_pulling
    . exact fun _ _ _ h => ⟨Nat.le_trans h.room (store_room _ _ _), h.sound⟩
    . exact fun _ _ _ h => ⟨Nat.le_trans h.room (store_room _ _ _), h.sound⟩
    . intro size _
      apply pullFile_send_keeps fail_pulling
      . exact fun _ h => ⟨h.room, h.sound⟩
      . exact fun _ => write_pulling (by simp)
      . exact pulling_keptByReads.usbRead 64
  have hcall : Inv env (Pulling Q) { w with log := .call (.pullFile fd) :: w.log } := by
    refine h.step rfl (Nat.le_refl _) (by simp) ?_
    intro _ hQ
    exact ⟨hQ, rfl⟩
  unfold pullFile
  rw [wp_bind]
  apply wp_mono (hbody _ hcall)
  . intro _ w' h'
    exact h'.mono And.left
  . intro w' h'
    exact h'.mono And.left

theorem runOp_on {op : Op} (hop : Tame op) : Keeps (Inv env (On Q)) (runOp env op) := by
  cases op with
  | api a =>
    cases a with
    | info text =>
      apply Keeps.bind (emit_on (by trivial))
      intro _
      exact fastbootAck_keeps (reply_on .info) text
    | okay text => exact okay_on text
    | fail text => exact fail_on text
    | pullFile fd => exact pullFile_on fd
    | handshake len => exact hop.elim
    | receive len => exact hop.elim
    | downloadTo size => exact hop.elim
  | outside q => exact fun _ h => h.neutral (by trivial) rfl (Nat.le_refl _)
  | oem name => exact hop.elim
  | statfs dir => exact fun _ h => h.neutral (by trivial) rfl (Nat.le_refl _)
  | fresh => exact fun _ h => h
  | halt h =>
    apply Keeps.bind (emit_on (by trivial))
    intro _
    exact Keeps.throw _

theorem program_on {α : Type} {p : HProg α} (hp : p.Only Tame)
    : Keeps (Inv env (On Q)) (p.interp (runOp env)) :=
  Prog.interp_keeps (fun _ => runOp_on) hp

theorem oemProgram_on {p : HProg Unit} {argv : List Bytes} (hp : p.Only (OrOem Tame argv))
    : Keeps (Inv env (On Q)) (p.interp (runOp env)) := by
  apply Prog.interp_keeps _ hp
  rintro op (htame | ⟨name, rfl, _⟩)
  . exact runOp_on htame
  . exact emit_on (by trivial)

end Tame

/-! ### Transfers -/

section Transfers

variable {es older : List Event}

theorem source_transfer (hes : ∀ e ∈ es, e.OfTransfer) : source (es ++ older) = source older := by
  induction es with
  | nil => rfl
  | cons e es ih =>
    have htail := ih (fun e he => hes e (by simp [he]))
    have he := hes e (by simp)
    rw [← htail, List.cons_append]
    cases e
    all_goals first | rfl | exact he.elim

theorem phase_transfer {len got : Nat} (hsource : source older ≠ .other)
    (h : phase older = some ⟨len, got⟩) (hes : ∀ e ∈ es, e.OfTransfer)
    : phase (es ++ older) = some ⟨len, got + (dataOf es).length⟩ := by
  induction es with
  | nil => exact h
  | cons e es ih =>
    have hes' : ∀ e ∈ es, e.OfTransfer := fun e he => hes e (by simp [he])
    have htail := ih hes'
    have he := hes e (by simp)
    rw [List.cons_append, dataOf, List.length_append, ← Nat.add_assoc]
    cases e with
    | read xfer bytes =>
      cases bytes with
      | none => exact htail
      | some bytes => simp [phase, htail, source_transfer hes', hsource, Event.data]
    | textbar percent => exact htail
    | state s =>
      have hs : s = .error := he
      rw [hs]
      exact htail
    | _ => exact he.elim

theorem accounted_transfer (hes : ∀ e ∈ es, e.OfTransfer) (h : Accounted older)
    : Accounted (es ++ older) := by
  induction es with
  | nil => exact h
  | cons e es ih =>
    refine ⟨?_, ih (fun e he => hes e (by simp [he]))⟩
    rintro rfl
    exact (hes .await (by simp)).elim

theorem complete_of_unbroken (hsource : source older = .flash) (hes : ∀ e ∈ es, e.OfTransfer)
    (h : Unbroken (es ++ older)) : ∀ e ∈ es, e.Complete := by
  induction es with
  | nil => simp
  | cons e es ih =>
    have hes' : ∀ e ∈ es, e.OfTransfer := fun e he => hes e (by simp [he])
    have he := hes e (by simp)
    intro e' he'
    cases List.mem_cons.mp he' with
    | inr hmem => exact ih hes' h.2 e' hmem
    | inl heq =>
      rw [heq]
      cases e with
      | read xfer bytes => exact h.1 ((source_transfer hes').trans hsource)
      | textbar percent => trivial
      | state s => trivial
      | _ => exact he.elim

theorem Inv.transferred {w w' : World} (h : Inv env P w) (ht : Transferred w es w')
    (hP : P w → Unbroken w'.log → P' w') : Inv env P' w' := by
  refine ⟨Nat.le_trans h.room ht.room, ?_⟩
  intro hunbroken
  have hunbroken' := hunbroken
  rw [ht.log] at hunbroken'
  obtain ⟨haccounted, hw⟩ := h.sound (hunbroken'.suffix (List.suffix_append _ _))
  refine ⟨?_, hP hw hunbroken⟩
  rw [ht.log]
  exact accounted_transfer ht.events haccounted

def Live (len got : Nat) (w : World) : Prop :=
  phase w.log = some ⟨len, got⟩ ∧ w.state ≠ .error

def done (p : Option Phase) : Prop :=
  ∀ q ∈ p, q.got = q.len

def Went (len got : Nat) (ok : Bool) (w : World) : Prop :=
  (ok = true → Live len got w) ∧ (ok = false → On done w)

def Asked (len : Nat) (s : Source) (sent : Bool) (w : World) : Prop :=
  source w.log = s ∧ (sent = true → Live len 0 w) ∧ (sent = false → phase w.log = none)

theorem responseData_spec {s : Source} {w : World} (len : Nat)
    (h : Inv env (fun w => phase w.log = none ∧ source w.log = s) w)
    : wp (responseData env len) (fun sent => Inv env (Asked len s sent)) (fun _ => False) w := by
  unfold responseData
  simp only [wp_bind, wp_pure]
  apply wp_mono (usbWrite_spec env (.data len) w) _ (fun _ => id)
  intro r w' hwritten
  cases hwritten with
  | refused herror =>
    refine h.step rfl (Nat.le_refl _) (by simp) ?_
    rintro _ ⟨hphase, hsource⟩
    exact ⟨hsource, by simp, fun _ => hphase⟩
  | failed hno =>
    have hwrote : Inv env (fun w => phase w.log = none ∧ source w.log = s)
        { w with log := .wrote (.data len) none :: w.log } := by
      refine h.step rfl (Nat.le_refl _) (by simp) ?_
      rintro _ ⟨hphase, hsource⟩
      exact ⟨by simpa [phase] using hphase, hsource⟩
    refine hwrote.step rfl (Nat.le_refl _) (by simp) ?_
    rintro _ ⟨hphase, hsource⟩
    exact ⟨hsource, by simp, fun _ => hphase⟩
  | taken n hno hn =>
    refine h.step rfl (Nat.le_refl _) (by simp) ?_
    rintro _ ⟨hphase, hsource⟩
    refine ⟨hsource, ?_, ?_⟩
    . intro hsent
      have hn : some n = some (Packet.data len).bytes.length := of_decide_eq_true hsent
      exact ⟨by simp [phase, hn], hno⟩
    . intro hsent
      have hn : some n ≠ some (Packet.data len).bytes.length := of_decide_eq_false hsent
      simp only [phase, if_neg hn]
      exact hphase

theorem done_of_none {w : World} (h : phase w.log = none) : On done w := by
  simp [On, done, h]

theorem streamingHandshake_spec {w : World} (len : Nat) (h : Inv env (On (· = none)) w)
    : wp (streamingHandshake env len) (fun sent => Inv env (Went len 0 sent)) (fun _ => False) w := by
  unfold streamingHandshake
  simp only [emit, wp_bind, wp_modify]
  have hcall : Inv env (fun w' => phase w'.log = none ∧ source w'.log = source w.log)
      { w with log := .call (.handshake len) :: w.log } := by
    refine h.step rfl (Nat.le_refl _) (by simp) ?_
    intro _ hphase
    exact ⟨hphase, rfl⟩
  apply wp_mono (responseData_spec len hcall) _ (fun _ => id)
  intro sent w' h'
  apply h'.mono
  rintro ⟨_, hlive, hnone⟩
  exact ⟨hlive, fun hsent => done_of_none (hnone hsent)⟩

theorem streamingDownload_spec {w : World} {len got : Nat} (size : Nat) (h : Inv env (Live len got) w)
    : wp (streamingDownload env size)
        (fun r => Inv env (fun w' => r.isSome = true ∧ Live len (got + size) w')) (fun _ => False) w := by
  unfold streamingDownload
  simp only [emit, wp_bind, wp_modify, wp_pure]
  have hcall : Inv env (fun w => Live len got w ∧ source w.log = .flash)
      { w with log := .call (.receive size) :: w.log } := by
    refine h.step rfl (Nat.le_refl _) (by simp) ?_
    intro _ hlive
    exact ⟨hlive, rfl⟩
  apply wp_mono (usbRead_spec env size _) _ (fun _ => id)
  rintro ⟨ok, bytes⟩ w' ⟨es, hreceived⟩
  apply hcall.transferred hreceived.toTransferred
  rintro ⟨⟨hphase, hstate⟩, hsource⟩ hunbroken
  have hlog := hreceived.log
  rw [hlog] at hunbroken
  obtain ⟨hok, hcount⟩ := hreceived.complete hstate (complete_of_unbroken hsource hreceived.events hunbroken)
  dsimp only at hok hcount
  refine ⟨by simp [hok, hcount], ?_, ?_⟩
  . rw [hlog, phase_transfer (by simp [hsource]) hphase hreceived.events, hreceived.data, hcount]
  . rw [hreceived.state, hok]
    exact hstate

theorem usbReadProgress_spec (hmax : env.downloadMax < 2 ^ 31) {w : World} {len : Nat} {s : Source}
    (hlen : len ≤ env.downloadMax) (hs : s ≠ .other) (h : Inv env (Asked len s true) w)
    : wp (usbReadProgress env len)
        (fun r => Inv env (fun w' => (s = .flash → r = len) ∧ (r = len → phase w'.log = some ⟨len, len⟩)))
        (fun _ => False) w := by
  have hroom := h.room
  apply wp_mono (usbReadProgress_filled (by omega) (by omega)) _ (fun _ => id)
  rintro r w' ⟨es, hfilled⟩
  apply h.transferred hfilled.toTransferred
  rintro ⟨hsource, hlive, _⟩ hunbroken
  obtain ⟨hphase, hstate⟩ := hlive rfl
  have hlog := hfilled.log
  rw [hlog] at hunbroken
  refine ⟨?_, ?_⟩
  . intro hflash
    exact hfilled.complete hstate (complete_of_unbroken (hsource.trans hflash) hfilled.events hunbroken)
  . intro hr
    obtain ⟨_, hcount, _⟩ := hfilled.done hr
    rw [hlog, phase_transfer (by rwa [hsource]) hphase hfilled.events, hcount]
    simp

theorem downloadTo_spec (hmax : env.downloadMax < 2 ^ 31) {w : World} (size : Nat)
    (h : Inv env (On (· = none)) w)
    : wp (downloadTo env size)
        (fun r => Inv env (On (· = if r.isSome then some ⟨size, size⟩ else none))) (Inv env (On (· = none)))
        w := by
  unfold downloadTo
  simp only [emit, wp_bind, wp_modify]
  have hcall : Inv env (fun w => phase w.log = none ∧ source w.log = .flash)
      { w with log := .call (.downloadTo size) :: w.log } := by
    refine h.step rfl (Nat.le_refl _) (by simp) ?_
    intro _ hphase
    exact ⟨hphase, rfl⟩
  split
  . simp only [wp_bind, wp_pure]
    exact fail_on _ _ (hcall.mono And.left)
  . next hsize =>
    simp only [wp_bind]
    apply wp_mono (responseData_spec size hcall) _ (fun _ => False.elim)
    intro sent w1 h1
    cases sent with
    | false =>
      apply h1.mono
      rintro ⟨_, _, hnone⟩
      exact hnone rfl
    | true =>
      simp only [Bool.not_true, Bool.false_eq_true, ↓reduceIte, wp_bind]
      apply wp_mono (usbReadProgress_spec hmax (by omega) (by simp) h1) _ (fun _ => False.elim)
      intro r w2 h2
      split
      . next hbad =>
        have hno : Inv env (On (· = none)) { w2 with state := .error, log := .state .error :: w2.log } := by
          refine h2.step rfl (Nat.le_refl _) (by simp) ?_
          rintro _ ⟨hr, _⟩
          have := hr rfl
          omega
        exact hno
      . next hgood =>
        apply h2.mono
        rintro ⟨hr, hphase⟩
        exact hphase (hr rfl)

def Settled (w : World) : Prop :=
  w.state = .error ∨ ∀ p ∈ phase w.log, p.got = p.len

theorem Inv.settled {w : World} (h : Inv env (On done) w) : Inv env Settled w :=
  h.mono Or.inr

theorem cmdDownload_spec (hmax : env.downloadMax < 2 ^ 31) {w : World} (arg : Bytes)
    (h : Inv env (On (· = none)) w)
    : wp (cmdDownload env arg) (fun _ => Inv env Settled) (Inv env Settled) w := by
  unfold cmdDownload
  simp only [emit, setDownloadSize, wp_bind, wp_modify]
  generalize strtou 32 16 arg = len
  have hcall : Inv env (fun w => phase w.log = none ∧ source w.log = .download)
      { w with downloadSize := 0, log := .download :: w.log } := by
    refine h.step rfl (Nat.le_refl _) (by simp) ?_
    intro _ hphase
    exact ⟨hphase, rfl⟩
  split
  . simp only [wp_bind, wp_pure]
    have hstart : Inv env (On done) { w with downloadSize := 0, log := .download :: w.log } :=
      hcall.mono (fun hw => done_of_none hw.1)
    exact wp_mono (fail_on _ _ hstart) (fun _ _ => Inv.settled) (fun _ => Inv.settled)
  . next hlen =>
    simp only [wp_bind]
    apply wp_mono (responseData_spec len hcall) _ (fun _ => False.elim)
    intro sent w1 h1
    cases sent with
    | false =>
      apply h1.mono
      rintro ⟨_, _, hphase⟩
      exact Or.inr (done_of_none (hphase rfl))
    | true =>
      simp only [Bool.not_true, Bool.false_eq_true, ↓reduceIte, wp_bind]
      apply wp_mono (usbReadProgress_spec hmax (by omega) (by simp) h1) _ (fun _ => False.elim)
      intro r w2 h2
      split
      . have hleft : Inv env Settled { w2 with state := .error, log := .state .error :: w2.log } :=
          h2.step rfl (Nat.le_refl _) (by simp) (fun _ _ => Or.inl rfl)
        exact hleft
      . next hgood =>
        have hr : r = len := by omega
        have hdone : Inv env (On done) { w2 with downloadSize := len } := by
          refine ⟨h2.room, fun hunbroken => ⟨(h2.sound hunbroken).1, ?_⟩⟩
          have hphase := (h2.sound hunbroken).2.2 hr
          simp [On, done, hphase]
        simp only [wp_bind, wp_modify]
        exact wp_mono (okay_on [] _ hdone) (fun _ _ => Inv.settled) (fun _ => Inv.settled)

end Transfers

/-! ### `flash:` -/

section Flash

open cmdStreamFlash
open Streaming (bufSize)

theorem program_done {p : HProg Unit} (hp : p.Only Tame) {w : World} (h : Inv env (On done) w)
    : wp (p.interp (runOp env)) (fun _ => Inv env (On done)) (Inv env (fun _ => True)) w :=
  wp_mono (program_on hp w h) (fun _ _ => id) (fun _ => Inv.halts)

theorem outside_live {w : World} {len got : Nat} (q : Outside) (h : Inv env (Live len got) w)
    : wp (askOutside env q)
        (fun ok => Inv env (fun w' => Live len got w' ∧ (ok = false → Fallible q = true → len ≤ got)))
        (fun _ => False) w := by
  rw [wp_askOutside]
  refine h.step rfl (Nat.le_refl _) (by simp) ?_
  rintro hat ⟨hphase, hstate⟩
  refine ⟨⟨hphase, hstate⟩, ?_⟩
  intro hok hq
  exact hat hq hok _ hphase

def Filling (len size finished got : Nat) : Prop :=
  (len + bufSize ≤ 2 ^ 32 ∧ size ≤ bufSize ∧ got = finished ∧ finished ≤ len)
    ∨ (2 ^ 32 < len + bufSize ∧ size = bufSize ∧ bufSize ∣ finished ∧ finished < 2 ^ 32)

theorem Filling.next {len size finished got : Nat} (hlen : len < 2 ^ 32)
    (h : Filling len size finished got) (hmore : finished < len)
    : Filling len (nextSize len size finished) (u32 (finished + nextSize len size finished))
        (got + nextSize len size finished) := by
  cases h with
  | inl h =>
    obtain ⟨hfit, hsize, hgot, hle⟩ := h
    left
    unfold bufSize at *
    have hsum : u32 (finished + size) = finished + size := u32_of_lt (by omega)
    have hnext : nextSize len size finished ≤ size ∧ finished + nextSize len size finished ≤ len := by
      unfold nextSize
      rw [hsum]
      split
      all_goals omega
    rw [u32_of_lt (by omega)]
    omega
  | inr h =>
    -- `len` is so near to the end of the range that the test never cuts a chunk.
    obtain ⟨hwrap, hsize, ⟨k, hk⟩, hlt⟩ := h
    right
    unfold bufSize at *
    have hnext : nextSize len size finished = size := by
      unfold nextSize u32
      rw [if_neg (by omega)]
    rw [hnext]
    refine ⟨hwrap, hsize, ?_, u32_lt _⟩
    rw [hsize, hk, ← Nat.mul_succ]
    unfold u32
    omega

theorem Filling.eq_of_end {len size finished got : Nat} (h : Filling len size finished got)
    (hend : ¬finished < len) : got = len := by
  unfold Filling bufSize at h
  omega

theorem fill_spec {w : World} {fuel len i size finished got : Nat} (hlen : len < 2 ^ 32)
    (hfilling : Filling len size finished got) (h : Inv env (Live len got) w)
    : wp ((fill fuel len i size finished).interp (runOp env))
        (fun r w' => match r with
          | none => Inv env (fun _ => False) w'
          | some (broken, size', finished') => ∃ got', Inv env (Live len got') w'
            ∧ Filling len size' finished' got' ∧ (broken = false → got' = len))
        (Inv env (fun _ => True)) w := by
  induction fuel generalizing i size finished got w with
  | zero => exact h.step rfl (Nat.le_refl _) (by simp) (fun _ _ => trivial)
  | succ fuel ih =>
    unfold fill
    split
    . next hend =>
      simp only [Prog.wp_interp_bind, Prog.wp_interp_perform, Prog.wp_interp_pure]
      apply wp_mono (outside_live .pipeBroken h) _ (fun _ => False.elim)
      intro broken w1 h1
      exact ⟨got, h1.mono And.left, hfilling, fun _ => hfilling.eq_of_end (by simpa using hend)⟩
    . next hmore =>
      have hmore : finished < len := by simpa using hmore
      simp only [Prog.wp_interp_bind, Prog.wp_interp_perform]
      apply wp_mono (outside_live .pipeBroken h) _ (fun _ => False.elim)
      intro broken w1 h1
      split
      . exact ⟨got, h1.mono And.left, hfilling, by simp⟩
      . simp only [Prog.wp_interp_bind, Prog.wp_interp_perform]
        apply wp_mono (outside_live (.bufFull i) (h1.mono And.left)) _ (fun _ => False.elim)
        intro full w2 h2
        split
        . exact ih hfilling (h2.mono And.left)
        . simp only [Prog.wp_interp_bind, Prog.wp_interp_perform]
          apply wp_mono (streamingDownload_spec _ (h2.mono And.left)) _ (fun _ => False.elim)
          intro r w3 h3
          cases r with
          | none =>
            apply h3.mono
            rintro ⟨hno, _⟩
            contradiction
          | some bytes => exact ih (hfilling.next hlen hmore) (h3.mono And.right)

theorem drain_spec {w : World} {fuel len size finished got : Nat} (hlen : len < 2 ^ 32)
    (hfilling : Filling len size finished got) (h : Inv env (Live len got) w)
    : wp ((drain fuel len size finished).interp (runOp env)) (fun _ => Inv env (On done))
        (Inv env (fun _ => True)) w := by
  induction fuel generalizing size finished got w with
  | zero => exact h.step rfl (Nat.le_refl _) (by simp) (fun _ _ => trivial)
  | succ fuel ih =>
    unfold drain
    split
    . next hend =>
      have hgot := hfilling.eq_of_end (by simpa using hend)
      apply h.mono
      rintro ⟨hphase, _⟩
      simp [On, done, hphase, hgot]
    . next hmore =>
      have hmore : finished < len := by simpa using hmore
      simp only [Prog.wp_interp_bind, Prog.wp_interp_perform]
      apply wp_mono (streamingDownload_spec _ h) _ (fun _ => False.elim)
      intro r w1 h1
      cases r with
      | none =>
        apply h1.mono
        rintro ⟨hno, _⟩
        contradiction
      | some bytes => exact ih (hfilling.next hlen hmore) (h1.mono And.right)

theorem Inv.done_of_live {w : World} {len got : Nat} (h : Inv env (Live len got) w) (hgot : got = len)
    : Inv env (On done) w := by
  apply h.mono
  rintro ⟨hphase, _⟩
  simp [On, done, hphase, hgot]

theorem transfer_spec (cfg : Config) (device : Bytes) (ptn : Option Disk.PartInfo) {w : World}
    {len size : Nat} (hlen : len < 2 ^ 32) (hfilling : Filling len size size size)
    (h : Inv env (Live len size) w)
    : wp ((transfer cfg device ptn len size).interp (runOp env)) (fun _ => Inv env (On done))
        (Inv env (fun _ => True)) w := by
  unfold transfer
  simp only [Prog.wp_interp_bind]
  apply wp_mono (fill_spec hlen hfilling h) _ (fun _ => id)
  intro r w1 h1
  split
  . exact program_done (tame.abort _ _) (h1.mono False.elim)
  . next size' finished' =>
    obtain ⟨got, hlive, hfilling', _⟩ := h1
    simp only [Prog.wp_interp_bind]
    apply wp_mono (drain_spec hlen hfilling' hlive) _ (fun _ => id)
    intro _ w2 h2
    exact program_done (tame.abort _ _) h2
  . next size' finished' =>
    obtain ⟨got, hlive, _, hgot⟩ := h1
    exact program_done ((tameDisk cfg).joinReader device ptn _ _) (hlive.done_of_live (hgot rfl))

theorem fallible_spec {w : World} {len got : Nat} {q : Outside} (hq : Fallible q = true) (hgot : got ≤ len)
    (h : Inv env (Live len got) w)
    : wp (askOutside env q) (fun ok => Inv env (Went len got ok)) (fun _ => False) w := by
  apply wp_mono (outside_live q h) _ (fun _ => id)
  intro ok w' h'
  apply h'.mono
  rintro ⟨hlive, hfail⟩
  refine ⟨fun _ => hlive, ?_⟩
  intro hok
  have heq : got = len := Nat.le_antisymm hgot (hfail hok hq)
  simp [On, done, hlive.1, heq]

theorem initBuffers_spec {w : World} {len : Nat} (h : Inv env (Live len 0) w)
    : wp (initBuffers.interp (runOp env)) (fun ok => Inv env (Went len 0 ok)) (Inv env (fun _ => True)) w := by
  unfold initBuffers
  simp only [Prog.wp_interp_bind, Prog.wp_interp_perform]
  apply wp_mono (fallible_spec rfl (Nat.zero_le _) h) _ (fun _ => False.elim)
  intro ok w1 h1
  cases ok with
  | false => exact h1
  | true =>
    simp only [Bool.not_true, Bool.false_eq_true, ↓reduceIte, Prog.wp_interp_bind, Prog.wp_interp_perform]
    apply wp_mono (fallible_spec rfl (Nat.zero_le _) (h1.mono (fun hw => hw.1 rfl))) _ (fun _ => False.elim)
    intro ok w2 h2
    cases ok with
    | true => exact h2
    | false =>
      simp only [Bool.not_false, ↓reduceIte, Prog.wp_interp_bind, Prog.wp_interp_perform]
      apply wp_mono (runOp_on (show Tame (.outside (.bufferFree 0)) from trivial) w2 (h2.mono (fun hw => hw.2 rfl)))
      . intro _ w3 h3
        exact h3.mono (fun hw => ⟨by simp, fun _ => hw⟩)
      . intro w3 h3
        exact h3.halts

theorem must_spec {q : Outside} {reason : Bytes} {p : HProg Unit} {w : World} {len got : Nat}
    (hq : Fallible q = true) (hgot : got ≤ len) (h : Inv env (Live len got) w)
    (hp : ∀ w', Inv env (Live len got) w'
      → wp (p.interp (runOp env)) (fun _ => Inv env (On done)) (Inv env (fun _ => True)) w')
    : wp (Prog.interp (runOp env) (do if !(← HProg.outside q) then abort reason false else p))
        (fun _ => Inv env (On done)) (Inv env (fun _ => True)) w := by
  simp only [Prog.wp_interp_bind, Prog.wp_interp_perform]
  apply wp_mono (fallible_spec hq hgot h) _ (fun _ => False.elim)
  intro ok w' h'
  cases ok with
  | false => exact program_done (tame.abort _ _) (h'.mono (fun hw => hw.2 rfl))
  | true => exact hp w' (h'.mono (fun hw => hw.1 rfl))

theorem startReader_spec (cfg : Config) (device : Bytes) (ptn : Option Disk.PartInfo) (magic : Bytes)
    {w : World} {len size : Nat} (hlen : len < 2 ^ 32) (hsize : size ≤ len)
    (hfilling : Filling len size size size) (h : Inv env (Live len size) w)
    : wp ((startReader cfg device ptn len size magic).interp (runOp env)) (fun _ => Inv env (On done))
        (Inv env (fun _ => True)) w := by
  apply must_spec rfl hsize h
  intro w1 h1
  apply must_spec rfl hsize h1
  intro w2 h2
  apply must_spec rfl hsize h2
  intro w3 h3
  exact transfer_spec cfg device ptn hlen hfilling h3

theorem stream_spec (cfg : Config) (device : Bytes) (ptn : Option Disk.PartInfo) {w : World} {len : Nat}
    (hlen : len < 2 ^ 32) (h : Inv env (On (· = none)) w)
    : wp ((stream cfg device ptn len).interp (runOp env)) (fun _ => Inv env (On done))
        (Inv env (fun _ => True)) w := by
  unfold stream
  simp only [Prog.wp_interp_bind, Prog.wp_interp_perform]
  apply wp_mono (streamingHandshake_spec len h) _ (fun _ => False.elim)
  intro sent w1 h1
  cases sent with
  | false => exact program_done (tame.abort _ _) (h1.mono (fun hw => hw.2 rfl))
  | true =>
    simp only [Bool.not_true, Bool.false_eq_true, ↓reduceIte, Prog.wp_interp_bind]
    apply wp_mono (initBuffers_spec (h1.mono (fun hw => hw.1 rfl))) _ (fun _ => id)
    intro ok w2 h2
    cases ok with
    | false => exact program_done (tame.abort _ _) (h2.mono (fun hw => hw.2 rfl))
    | true =>
      simp only [Bool.not_true, Bool.false_eq_true, ↓reduceIte, Prog.wp_interp_bind, Prog.wp_interp_perform]
      generalize hsize : (if len > bufSize then bufSize else len) = size
      apply wp_mono (streamingDownload_spec size (h2.mono (fun hw => hw.1 rfl))) _ (fun _ => False.elim)
      intro r w3 h3
      cases r with
      | none =>
        apply program_done (tame.abort _ _)
        apply h3.mono
        rintro ⟨hno, _⟩
        contradiction
      | some bytes =>
        simp only [Prog.wp_interp_bind, Prog.wp_interp_perform, runOp, wp_bind, wp_get, wp_pure]
        have hle : size ≤ len := by
          split at hsize
          all_goals omega
        have hfilling : Filling len size size size := by
          unfold Filling bufSize at *
          split at hsize
          all_goals omega
        rw [Nat.zero_add] at h3
        exact startReader_spec cfg device ptn _ hlen hle hfilling (h3.mono And.right)

theorem flashPlugin_spec (hmax : env.downloadMax < 2 ^ 31) (cb : Callback (Bytes × Nat)) {w : World}
    (len : Nat) (h : Inv env (On (· = none)) w)
    : wp ((flashPlugin cb len).interp (runOp env)) (fun _ => Inv env (On done)) (Inv env (fun _ => True))
        w := by
  unfold flashPlugin
  simp only [Prog.wp_interp_bind, Prog.wp_interp_perform]
  apply wp_mono (downloadTo_spec hmax len h) _ (fun _ => Inv.halts)
  intro r w1 h1
  cases r with
  | none => exact program_done (tame.abort _ _) (h1.mono done_of_none)
  | some data =>
    have hcome : Inv env (On done) w1 := by
      apply h1.mono
      intro hphase
      have hphase : phase w1.log = some ⟨len, len⟩ := hphase
      simp [On, done, hphase]
    simp only [Prog.wp_interp_bind]
    apply wp_mono (program_on (tame.callback cb _) w1 hcome) _ (fun _ => Inv.halts)
    intro ok w2 h2
    split
    . exact program_done (tame.finish _) h2
    . exact program_done (tame.abort _ _) h2

theorem flashPartition_spec (cfg : Config) (partName : Bytes) {w : World} {len : Nat} (hlen : len < 2 ^ 32)
    (h : Inv env (On (· = none)) w)
    : wp ((flashPartition cfg partName len).interp (runOp env)) (fun _ => Inv env (On done))
        (Inv env (fun _ => True)) w := by
  have habort (reason : Bytes) {w' : World} (h' : Inv env (On (· = none)) w') :=
    program_done (tame.abort reason false) (h'.mono done_of_none)
  unfold flashPartition
  simp only [Prog.wp_interp_bind]
  apply wp_mono (program_on ((tameDisk cfg).findPartDevice partName) w h) _ (fun _ => Inv.halts)
  intro device w1 h1
  cases device with
  | none => exact habort _ h1
  | some device =>
    simp only [Prog.wp_interp_bind]
    apply wp_mono (program_on (tameDisk cfg).disk w1 h1) _ (fun _ => Inv.halts)
    intro dinfo w2 h2
    split
    . exact habort _ h2
    . split
      . exact habort _ h2
      . exact stream_spec cfg device _ hlen h2

theorem parse_lt {cmd partName : Bytes} {len : Nat} (h : parse cmd = some (partName, len)) : len < 2 ^ 32 := by
  unfold parse at h
  dsimp only at h
  split at h
  . contradiction
  . cases h
    exact strtou_lt _ _ _

theorem cmdStreamFlash_spec (hmax : env.downloadMax < 2 ^ 31) (cfg : Config) (cmd : Bytes) {w : World}
    (h : Inv env (On (· = none)) w)
    : wp ((cmdStreamFlash cfg cmd).interp (runOp env)) (fun _ => Inv env (On done))
        (Inv env (fun _ => True)) w := by
  unfold cmdStreamFlash
  simp only [Prog.wp_interp_bind, Prog.wp_interp_perform]
  have hstrdup := runOp_on (Q := (· = none)) (show Tame (.outside .strdup) from trivial) w h
  apply wp_mono hstrdup _ (fun _ => Inv.halts)
  intro copied w1 h1
  split
  . exact program_done (tame.abort _ _) (h1.mono done_of_none)
  . split
    . exact program_done (tame.abort _ _) (h1.mono done_of_none)
    . next partName len hparse =>
      have hlen := parse_lt hparse
      split
      . exact program_done (tameDisk cfg).listPartitions (h1.mono done_of_none)
      . split
        . simp only [Prog.wp_interp_bind]
          apply wp_mono (program_on (tameDisk cfg).disk w1 h1) _ (fun _ => Inv.halts)
          intro dinfo w2 h2
          exact stream_spec cfg _ none hlen h2
        . split
          . exact flashPlugin_spec hmax _ len h1
          . exact flashPartition_spec cfg partName hlen h1

end Flash

/-! ### The loop -/

theorem Inv.await {w : World} (h : Inv env Settled w) (hstate : w.state ≠ .error)
    : Inv env (Pulling (· = none)) { w with log := .await :: w.log } := by
  refine ⟨h.room, ?_⟩
  rintro ⟨_, hunbroken⟩
  obtain ⟨haccounted, hsettled⟩ := h.sound hunbroken
  exact ⟨⟨fun _ => hsettled.resolve_left hstate, haccounted⟩, rfl, rfl⟩

theorem offline_settled {w : World} (h : Inv env P w)
    : Inv env Settled { w with state := .offline, log := .state .offline :: w.log } :=
  h.step rfl (Nat.le_refl _) (by simp) (fun _ _ => Or.inr (by simp [phase]))

theorem fail_settled (text : Bytes) {w : World} (h : Inv env (On done) w)
    : wp (fastbootFail env text) (fun _ => Inv env Settled) (Inv env (fun _ => True)) w :=
  wp_mono (fail_on text w h) (fun _ _ => Inv.settled) (fun _ => Inv.halts)

theorem handler_settled (hmax : env.downloadMax < 2 ^ 31) {cfg : Config} {varlist : List Var} {cmd : Cmd}
    (hcmd : cmd ∈ cmds cfg varlist) (arg : Bytes) {w : World} (h : Inv env (On (· = none)) w)
    : wp (runHandler env cmd.handle arg) (fun _ => Inv env Settled) (Inv env (fun _ => True)) w := by
  obtain hdownload | hflash | ⟨run, hrun, honly⟩ := (tameDisk cfg).handle_cases hcmd
  . rw [hdownload]
    exact wp_mono (cmdDownload_spec hmax arg h) (fun _ _ => id) (fun _ => Inv.halts)
  . rw [hflash]
    simp only [runHandler, wp_bind, wp_get]
    exact wp_mono (cmdStreamFlash_spec hmax cfg arg h) (fun _ _ => Inv.settled) (fun _ => id)
  . rw [hrun]
    simp only [runHandler, wp_bind, wp_get]
    exact wp_mono (oemProgram_on (honly _ _) w (h.mono done_of_none)) (fun _ _ => Inv.settled)
      (fun _ => Inv.halts)

theorem commandLoop_settled (hmax : env.downloadMax < 2 ^ 31) (cfg : Config) (varlist : List Var) (w : World)
    (h : Inv env Settled w)
    : wp (commandLoop env (cmds cfg varlist)) (fun _ => Inv env Settled) (Inv env (fun _ => True)) w := by
  apply commandLoop_spec (fun _ => offline_settled h)
    (fun hstate => wp_mono (pulling_keptByReads.usbRead 64 _ (h.await hstate)) (fun _ _ => id)
      (fun _ => Inv.halts))
  . exact fun _ _ => offline_settled
  . intro packet w1 h1
    have hcommand : Inv env (On (· = none))
        { w1 with state := .command, log := .state .command :: w1.log } :=
      (h1.mono And.left).neutral (by simp [Neutral]) rfl (Nat.le_refl _)
    apply dispatch_spec
    . intro text
      exact fail_settled text (hcommand.mono done_of_none)
    . intro text w' hw' h'
      exact fail_settled text (h'.mono (fun hsettled => hsettled.resolve_left (by simp [hw'])))
    . intro cmd hmem _ _
      rw [wp_bind]
      apply wp_mono (emit_on (by trivial) _ hcommand) _ (fun _ => Inv.halts)
      intro _ w2 h2
      exact handler_settled hmax hmem _ h2

end DataPhase

/--
In every run in which nothing fails while a `flash:` has data to come, the data that has been asked for
has come whenever the next command is read on the same connection.
-/
theorem accounted_of_unbroken {env : Env} {cfg : Config} {varlist : List Var} {base : Bytes} {s : Server}
    (hmax : env.downloadMax < 2 ^ 31) (hbase : env.downloadMax ≤ base.length)
    (h : Serves env (cmds cfg varlist) base s) (hunbroken : Unbroken s.world.log)
    : Accounted s.world.log := by
  have hstart : DataPhase.Inv env DataPhase.Settled (start base).world :=
    ⟨hbase, fun _ => ⟨trivial, Or.inr (by simp [start, phase])⟩⟩
  have hall := serves_induction hstart (DataPhase.commandLoop_settled hmax cfg varlist) h
  by_cases hrunning : s.halted = none
  . exact ((hall.1 hrunning).sound hunbroken).1
  . exact ((hall.2 hrunning).sound hunbroken).1

def imageHost (answers : Outside → Bool) : Env :=
  { hostOf [str "flash:disk:00000006", str "reboot"] with outside := fun _ => answers }

theorem imageHost_accounted
    : ∃ s, Serves (imageHost (· ≠ .pipeBroken)) (cmds (plain (some oneDisk) []) []) (List.replicate 8 0) s
        ∧ Unbroken s.world.log ∧ .call (.okay []) ∈ s.world.log ∧ s.world.reads = 3
        ∧ Accounted s.world.log := by
  have hrun : (System.run (serve (imageHost (· ≠ .pipeBroken)) (cmds (plain (some oneDisk) []) []))
      (start (List.replicate 8 0)) [(), ()]).any
      (fun s => Unbroken s.world.log ∧ .call (.okay []) ∈ s.world.log ∧ s.world.reads = 3) = true := by
    decide +kernel
  obtain ⟨s, hs, hunbroken, hokay, hreads⟩ := System.Reaches.exists_of_run (fun _ _ _ => trivial) hrun
  exact ⟨s, hs, hunbroken, hokay, hreads, accounted_of_unbroken (by decide) (by decide) hs hunbroken⟩

theorem imageHost_notAccounted
    : ∃ s, Serves (imageHost (· ≠ .bufferInit 0)) (cmds (plain (some oneDisk) []) []) (List.replicate 8 0) s
        ∧ .handle (str "reboot") ∈ s.world.log ∧ ¬Accounted s.world.log := by
  have hrun : (System.run (serve (imageHost (· ≠ .bufferInit 0)) (cmds (plain (some oneDisk) []) []))
      (start (List.replicate 8 0)) [(), ()]).any
      (fun s => .handle (str "reboot") ∈ s.world.log ∧ ¬Accounted s.world.log) = true := by
    decide +kernel
  exact System.Reaches.exists_of_run (fun _ _ _ => trivial) hrun

end Aboot
