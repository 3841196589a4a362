import Tboot.Fastboot.Lemmas.Transfer

/-!
This module contains the packets that answer a command: how many there are of them, and when the last one
is the only one that ends the command.
-/

open Proc History

namespace Fastboot

def codes : List Event → List Code
  | [] => []
  | .await :: _ => []
  | .state .offline :: _ => []
  | .wrote (.reply code _) _ :: older => code :: codes older
  | _ :: older => codes older

def firstEnd : List Event → Option Bytes
  | [] => none
  | .await :: _ => none
  | .state .offline :: _ => none
  | .call (.okay text) :: older => (firstEnd older).or (some text)
  | .call (.fail text) :: older => (firstEnd older).or (some text)
  | _ :: older => firstEnd older

def serving : List Event → Bool
  | [] => false
  | .await :: _ => true
  | .state .offline :: _ => false
  | _ :: older => serving older

def OneTerminal : List Code → Prop
  | [] => False
  | c :: infos => c ≠ .info ∧ ∀ i ∈ infos, i = .info

instance : DecidablePred OneTerminal
  | [] => inferInstanceAs (Decidable False)
  | c :: infos => inferInstanceAs (Decidable (c ≠ .info ∧ ∀ i ∈ infos, i = .info))

def AnsweredAt (e : Event) (older : List Event) : Prop :=
  e = .await → serving older = true → OneTerminal (codes older)

def ShortAt (e : Event) (older : List Event) : Prop :=
  e = .await → serving older = true → ∀ text, firstEnd older = some text → (cstr text).length ≤ 59

/-- The host has been asked for data, and nothing but their transfer has happened since. -/
def awaitsData : List Event → Bool
  | .wrote (.data _) _ :: _ => true
  | .read _ _ :: older => awaitsData older
  | .textbar _ :: older => awaitsData older
  | .state .error :: older => awaitsData older
  | _ => false

/--
No `read` and no `write` fails. Besides, a reply is written as a whole, and the host sends all of the data that it has
been asked for; a command, or the answer to a file, may have any length.
-/
def TransportAt (e : Event) (older : List Event) : Prop :=
  match e with
  | .read _ got => if awaitsData older then e.Complete else got.isSome = true
  | .wrote (.reply _ _) _ => e.Complete
  | .wrote _ count => count.isSome = true
  | _ => True

instance (e : Event) (older : List Event) : Decidable (AnsweredAt e older) :=
  inferInstanceAs (Decidable (e = .await → serving older = true → OneTerminal (codes older)))

instance (e : Event) (older : List Event) : Decidable (TransportAt e older) :=
  match e with
  | .read xfer got => inferInstanceAs (Decidable
      (if awaitsData older then Event.Complete (.read xfer got) else got.isSome = true))
  | .wrote (.reply code text) count => inferInstanceAs (Decidable (Event.Complete (.wrote (.reply code text) count)))
  | .wrote (.data _) count | .wrote (.file _) count => inferInstanceAs (Decidable (count.isSome = true))
  | .await | .state _ | .call _ | .handle _ | .download | .oem _ | .textbar _ | .outside _ _ | .halt _ =>
    .isTrue trivial

abbrev Answered (log : List Event) : Prop :=
  Always AnsweredAt log

abbrev Short (log : List Event) : Prop :=
  Always ShortAt log

abbrev TransportOk (log : List Event) : Prop :=
  Always TransportAt log

namespace Reply

def Silent : Event → Prop
  | .await => False
  | .state s => s ≠ .offline
  | .call (.okay _) => False
  | .call (.fail _) => False
  | _ => True

def Quiet (e : Event) : Prop :=
  Silent e ∧ ∀ code text n, e ≠ .wrote (.reply code text) n

structure SameCommand (log log' : List Event) : Prop where
  serves : serving log' = serving log
  ends : firstEnd log' = firstEnd log
  answered : Answered log' ↔ Answered log
  short : Short log' ↔ Short log

section Silent

variable {e : Event} {es older : List Event}

theorem Silent.ne_await (he : Silent e) : e ≠ .await := by
  rintro rfl
  exact he

theorem firstEnd_silent (he : Silent e) : firstEnd (e :: older) = firstEnd older := by
  conv_lhs => unfold firstEnd
  split
  all_goals simp_all [Silent]

theorem serving_silent (he : Silent e) : serving (e :: older) = serving older := by
  conv_lhs => unfold serving
  split
  all_goals simp_all [Silent]

theorem sameCommand_append (hes : ∀ e ∈ es, Silent e) : SameCommand older (es ++ older) := by
  induction es with
  | nil => exact ⟨rfl, rfl, Iff.rfl, Iff.rfl⟩
  | cons e es ih =>
    have he : Silent e := hes e (by simp)
    have htail := ih (fun e he => hes e (by simp [he]))
    rw [List.cons_append]
    refine ⟨?_, ?_, ?_, ?_⟩
    . rw [serving_silent he, htail.serves]
    . rw [firstEnd_silent he, htail.ends]
    . rw [← htail.answered]
      simp [Answered, AnsweredAt, he.ne_await]
    . rw [← htail.short]
      simp [Short, ShortAt, he.ne_await]

theorem codes_quiet (older : List Event) (hes : ∀ e ∈ es, Quiet e) : codes (es ++ older) = codes older := by
  induction es with
  | nil => rfl
  | cons e es ih =>
    rw [← ih (fun e he => hes e (by simp [he])), List.cons_append]
    obtain ⟨hsilent, hreply⟩ := hes e (by simp)
    conv_lhs => unfold codes
    split
    all_goals simp_all [Silent]

theorem codes_replies {code : Code} (hes : ∀ e ∈ es, ∃ text n, e = .wrote (.reply code text) n)
    : codes (es ++ older) = List.replicate es.length code ++ codes older := by
  induction es with
  | nil => rfl
  | cons e es ih =>
    obtain ⟨text, n, rfl⟩ := hes e (by simp)
    have htail := ih (fun e he => hes e (by simp [he]))
    simp only [List.cons_append, codes, htail, List.length_cons, List.replicate_succ]

end Silent

def Ended (log : List Event) : Prop :=
  ∃ text n c infos, firstEnd log = some text ∧ codes log = List.replicate (n + 1) c ++ infos
    ∧ c ≠ .info ∧ (∀ i ∈ infos, i = .info) ∧ (n = 0 ↔ (cstr text).length ≤ 59)

theorem Ended.oneTerminal_iff {log : List Event} (h : Ended log)
    : OneTerminal (codes log) ↔ ∀ text, firstEnd log = some text → (cstr text).length ≤ 59 := by
  obtain ⟨text, n, c, infos, hend, hcodes, hc, hinfos, hn⟩ := h
  simp only [hend, Option.some.injEq, forall_eq']
  rw [← hn, hcodes]
  constructor
  . rintro ⟨_, hall⟩
    by_contra hne
    obtain ⟨m, rfl⟩ := Nat.exists_eq_succ_of_ne_zero hne
    exact hc (hall c (by simp [List.replicate_succ]))
  . rintro rfl
    exact ⟨hc, hinfos⟩

structure Handling (w : World) : Prop where
  serves : serving w.log = true
  phase : (w.state = .command ∧ firstEnd w.log = none ∧ ∀ c ∈ codes w.log, c = .info)
    ∨ (w.state = .complete ∧ Ended w.log)
  answered : Answered w.log ↔ Short w.log

structure Inv (env : Env) (w : World) : Prop where
  room : env.downloadMax ≤ w.downloadBase.length
  handling : TransportOk w.log → Handling w

variable {env : Env}

theorem Handling.noError {w : World} (h : Handling w) : w.state ≠ .error := by
  cases h.phase with
  | inl hphase => simp [hphase.1]
  | inr hphase => simp [hphase.1]

theorem Handling.quiet {w w' : World} (h : Handling w) (es : List Event)
    (hquiet : ∀ e ∈ es, Quiet e) (hlog : w'.log = es ++ w.log) (hstate : w'.state = w.state)
    : Handling w' := by
  have hsilent : ∀ e ∈ es, Silent e := fun e he => (hquiet e he).1
  have hsame : SameCommand w.log (es ++ w.log) := sameCommand_append hsilent
  have hcodes := codes_quiet w.log hquiet
  rw [← hlog] at hsame hcodes
  refine ⟨hsame.serves.trans h.serves, ?_, ?_⟩
  . rw [hstate, hsame.ends, hcodes]
    unfold Ended
    rw [hsame.ends, hcodes]
    exact h.phase
  . rw [hsame.answered, hsame.short]
    exact h.answered

/-! ### The transport -/

theorem inv_of_not_transportOk {w : World} (hroom : env.downloadMax ≤ w.downloadBase.length)
    (h : ¬TransportOk w.log) : Inv env w :=
  ⟨hroom, fun hok => absurd hok h⟩

theorem Inv.quiet {w w' : World} {e : Event} (h : Inv env w) (he : Quiet e)
    (hlog : w'.log = e :: w.log) (hstate : w'.state = w.state)
    (hroom : w.downloadBase.length ≤ w'.downloadBase.length) : Inv env w' := by
  refine ⟨Nat.le_trans h.room hroom, ?_⟩
  intro hok
  rw [hlog] at hok
  exact (h.handling hok.2).quiet [e] (by simpa using he) hlog hstate

theorem quiet_of_ofTransfer {e : Event} (h : e.OfTransfer) : Quiet e := by
  cases e
  all_goals simp_all [Event.OfTransfer, Quiet, Silent]

theorem awaitsData_transfer {es older : List Event} (hes : ∀ e ∈ es, e.OfTransfer)
    : awaitsData (es ++ older) = awaitsData older := by
  induction es with
  | nil => rfl
  | cons e es ih =>
    have htail := ih (fun e he => hes e (by simp [he]))
    have he : e.OfTransfer := hes e (by simp)
    cases e
    all_goals simp_all [Event.OfTransfer, awaitsData]

theorem complete_of_awaitsData {es older : List Event} (hdata : awaitsData older = true)
    (hes : ∀ e ∈ es, e.OfTransfer) (h : TransportOk (es ++ older)) : ∀ e ∈ es, e.Complete := by
  induction es with
  | nil => simp
  | cons e es ih =>
    have hes' : ∀ e ∈ es, e.OfTransfer := fun e he => hes e (by simp [he])
    have hfirst : TransportAt e (es ++ older) := h.1
    have he : e.OfTransfer := hes e (by simp)
    intro e' he'
    cases List.mem_cons.mp he' with
    | inr hmem => exact ih hes' h.2 e' hmem
    | inl heq =>
      rw [heq]
      cases e with
      | read xfer got =>
        unfold TransportAt at hfirst
        dsimp only at hfirst
        rw [awaitsData_transfer hes', if_pos hdata] at hfirst
        exact hfirst
      | textbar => trivial
      | state => trivial
      | _ => exact he.elim

theorem not_transportOk_of_read {xfer : Nat} {log : List Event} (h : .read xfer none ∈ log)
    : ¬TransportOk log := by
  induction log with
  | nil => simp at h
  | cons e older ih =>
    rintro ⟨hfirst, hrest⟩
    cases List.mem_cons.mp h with
    | inr hmem => exact ih hmem hrest
    | inl heq =>
      rw [← heq] at hfirst
      unfold TransportAt at hfirst
      dsimp only at hfirst
      split at hfirst
      all_goals contradiction

theorem Inv.transferred {w w' : World} {es : List Event} {P : Prop} (h : Inv env w)
    (htransferred : Transferred w es w')
    (hdone : w.state ≠ .error → TransportOk (es ++ w.log) → P ∧ w'.state = w.state)
    : Inv env w' ∧ (TransportOk w'.log → P) := by
  have hquiet : ∀ e ∈ es, Quiet e := fun e he => quiet_of_ofTransfer (htransferred.events e he)
  have hgood (hok : TransportOk w'.log) : Handling w ∧ P ∧ w'.state = w.state := by
    rw [htransferred.log] at hok
    have hw := h.handling (hok.suffix (List.suffix_append _ _))
    exact ⟨hw, hdone hw.noError hok⟩
  refine ⟨⟨Nat.le_trans h.room htransferred.room, ?_⟩, ?_⟩
  . intro hok
    obtain ⟨hw, _, hstate⟩ := hgood hok
    exact hw.quiet es hquiet htransferred.log hstate
  . intro hok
    exact (hgood hok).2.1

theorem usbRead_inv (len : Nat) : Keeps (Inv env) (usbRead env len) := by
  intro w h
  apply wp_mono (usbRead_spec env len w) _ (fun _ => False.elim)
  rintro r w' ⟨es, hreceived⟩
  refine (h.transferred (P := True) hreceived.toTransferred ?_).1
  intro hstate hok
  refine ⟨trivial, ?_⟩
  rw [hreceived.state]
  cases hr : r.1 with
  | true => rfl
  | false =>
    obtain ⟨xfer, hmem⟩ := hreceived.failed hstate hr
    exact absurd hok (not_transportOk_of_read (List.mem_append_left _ hmem))

theorem usbReadProgress_spec (hmax : env.downloadMax < 2 ^ 31) {len : Nat}
    (hlen : len ≤ env.downloadMax) {w : World} (h : Inv env w) (hdata : awaitsData w.log = true)
    : wp (usbReadProgress env len) (fun r w' => Inv env w' ∧ (TransportOk w'.log → r = len))
        (fun _ => False) w := by
  have hroom := h.room
  apply wp_mono (usbReadProgress_filled (by omega) (by omega)) _ (fun _ => id)
  rintro r w' ⟨es, hfilled⟩
  apply h.transferred hfilled.toTransferred
  intro hstate hok
  have hr := hfilled.complete hstate (complete_of_awaitsData hdata hfilled.events hok)
  exact ⟨hr, (hfilled.done hr).1⟩

theorem not_transportOk_of_written {code : Code} {text : Bytes} {w w' : World} {r : Option Nat}
    (h : Written (.reply code text) w r w') (hstate : w.state ≠ .error)
    (hr : r ≠ some (Packet.reply code text).bytes.length) : ¬TransportOk w'.log := by
  cases h with
  | refused herror => contradiction
  | failed =>
    rintro ⟨_, hwrote, _⟩
    contradiction
  | taken n =>
    rintro ⟨hwrote, _⟩
    exact hr hwrote

theorem usbWrite_inv (packet : Packet) (hpacket : ∀ code text, packet ≠ .reply code text) {w : World}
    (h : Inv env w)
    : wp (usbWrite env packet)
        (fun r w' => Inv env w' ∧ ∀ n, r = some n → w'.log = .wrote packet (some n) :: w.log)
        (fun _ => False) w := by
  apply wp_mono (usbWrite_spec env packet w) _ (fun _ => id)
  intro r w' hwritten
  cases hwritten with
  | refused herror =>
    have hnot : ¬TransportOk w.log := fun hok => (h.handling hok).noError herror
    exact ⟨inv_of_not_transportOk h.room (fun hok => hnot hok.2), by simp⟩
  | failed hno =>
    refine ⟨inv_of_not_transportOk h.room ?_, by simp⟩
    rintro ⟨_, hwrote, _⟩
    cases packet with
    | reply code text => exact hpacket code text rfl
    | data => contradiction
    | file => contradiction
  | taken n hno hn =>
    have hquiet : Quiet (.wrote packet (some n)) := ⟨trivial, by simpa using hpacket⟩
    refine ⟨h.quiet hquiet rfl rfl (Nat.le_refl _), ?_⟩
    intro m hm
    rw [← hm]

/-! ### Replies -/

theorem reply_length (code : Code) (text : Bytes)
    : (Packet.reply code text).bytes.length = 4 + text.length := by
  rw [Packet.bytes, List.length_append, text_length]

structure Sent (code : Code) (w : World) (es : List Event) (w' : World) : Prop where
  log : w'.log = es ++ w.log
  events : ∀ e ∈ es, ∃ text n, e = .wrote (.reply code text) n
  state : w'.state = w.state
  base : w'.downloadBase = w.downloadBase

theorem Sent.trans {code : Code} {w w1 w2 : World} {es es' : List Event} (h1 : Sent code w es w1)
    (h2 : Sent code w1 es' w2) : Sent code w (es' ++ es) w2 := by
  refine ⟨?_, ?_, h2.state.trans h1.state, h2.base.trans h1.base⟩
  . rw [h2.log, h1.log, List.append_assoc]
  . intro e he
    cases List.mem_append.mp he with
    | inl he => exact h2.events e he
    | inr he => exact h1.events e he

theorem suffix_keptByIo (env : Env) (log : List Event) (base : Bytes)
    : KeptByIo env fun w => log <:+ w.log ∧ w.downloadBase = base where
  read := fun _ _ h => ⟨h.1.trans (List.suffix_cons _ _), h.2⟩
  error := fun _ h => ⟨h.1.trans (List.suffix_cons _ _), h.2⟩
  write := fun _ _ h => ⟨h.1.trans (List.suffix_cons _ _), h.2⟩

theorem ack_loop_not_transportOk {code : Code} {reason : Bytes} {below : Nat → UInt8} {fuel : Nat}
    {pos : Int} {w : World} (h : ¬TransportOk w.log)
    : wp (fastbootAck.loop env code reason below fuel pos)
        (fun _ w' => ¬TransportOk w'.log ∧ w'.downloadBase = w.downloadBase)
        (fun w' => ¬TransportOk w'.log ∧ w'.downloadBase = w.downloadBase) w := by
  have hwrite (text : Bytes) := (suffix_keptByIo env w.log w.downloadBase).usbWrite (.reply code text)
  have hkeeps := fastbootAck.loop_keeps hwrite reason below fuel pos
  have hstop (w' : World) (hw' : w.log <:+ w'.log ∧ w'.downloadBase = w.downloadBase)
      : ¬TransportOk w'.log ∧ w'.downloadBase = w.downloadBase :=
    ⟨fun hok => h (hok.suffix hw'.1), hw'.2⟩
  apply wp_mono (hkeeps w ⟨List.suffix_refl _, rfl⟩)
  . intro _
    exact hstop
  . exact hstop

def Acked (code : Code) (left : Nat) (w w' : World) : Prop :=
  ∃ n es, es.length = n + 1 ∧ (n = 0 ↔ left ≤ 59) ∧ Sent code w es w'

theorem Acked.last {code : Code} {left : Nat} {e : Event} {w w' : World} (hsent : Sent code w [e] w')
    (hleft : left ≤ 59) : Acked code left w w' :=
  ⟨0, _, rfl, by omega, hsent⟩

theorem Acked.more {code : Code} {left rest : Nat} {e : Event} {w w1 w' : World}
    (hsent : Sent code w [e] w1) (h : Acked code rest w1 w') (hleft : 59 < left)
    : Acked code left w w' := by
  obtain ⟨n, es, hcount, _, hrest⟩ := h
  exact ⟨n + 1, es ++ [e], by simp [hcount], by omega, hsent.trans hrest⟩

theorem ack_loop_short {code : Code} {reason text : Bytes} {below : Nat → UInt8} {fuel : Nat}
    {pos : Int} {w w1 : World} {r : Option Nat} (hwritten : Written (.reply code text) w r w1)
    (hstate : w.state ≠ .error) (hr : r ≠ some (Packet.reply code text).bytes.length)
    : wp (if textAt below reason pos ≠ [] then fastbootAck.loop env code reason below fuel pos
          else pure ())
        (fun _ w' => ¬TransportOk w'.log ∧ w'.downloadBase = w.downloadBase)
        (fun w' => ¬TransportOk w'.log ∧ w'.downloadBase = w.downloadBase) w1 := by
  have hnot := not_transportOk_of_written hwritten hstate hr
  have hbase : w1.downloadBase = w.downloadBase := by
    cases hwritten
    all_goals rfl
  rw [← hbase]
  split
  . exact ack_loop_not_transportOk hnot
  . exact ⟨hnot, rfl⟩

theorem ack_loop_spec {code : Code} {reason : Bytes} {below : Nat → UInt8} {fuel pos : Nat}
    {w : World} (hstate : w.state ≠ .error) (hpos : pos ≤ reason.length)
    (hfuel : reason.length - pos < fuel)
    : wp (fastbootAck.loop env code reason below fuel pos)
        (fun _ w' => (TransportOk w'.log → Acked code (reason.length - pos) w w')
          ∧ w'.downloadBase = w.downloadBase)
        (fun w' => ¬TransportOk w'.log ∧ w'.downloadBase = w.downloadBase) w := by
  induction fuel generalizing pos w with
  | zero => omega
  | succ fuel ih =>
    unfold fastbootAck.loop
    rw [textAt_natCast]
    simp only [wp_bind]
    apply wp_mono (usbWrite_spec env _ w) _ (fun _ => False.elim)
    intro r w1 hwritten
    by_cases hr : r = some (Packet.reply code ((reason.drop pos).take 59)).bytes.length
    . -- The whole packet has been taken, and the position goes on by its text.
      have hlen : ((reason.drop pos).take 59).length = min 59 (reason.length - pos) := by simp
      cases hwritten with
      | refused => contradiction
      | failed => contradiction
      | taken n =>
        simp only [Option.some.injEq, reply_length, hlen] at hr
        have hnext : (pos : Int) + toResult (some n) - 4
            = ((pos + min 59 (reason.length - pos) : Nat) : Int) := by
          change (pos : Int) + (n : Int) - 4 = _
          omega
        rw [hnext, textAt_natCast]
        have hsent : Sent code w [.wrote (.reply code ((reason.drop pos).take 59)) (some n)]
            { w with
              writes := w.writes + 1
              log := .wrote (.reply code ((reason.drop pos).take 59)) (some n) :: w.log } :=
          ⟨rfl, by simp, rfl, rfl⟩
        split
        . next hmore =>
          have hmore : 59 < reason.length - pos := by
            rw [ne_eq, List.drop_eq_nil_iff] at hmore
            omega
          have hfuel' : reason.length - (pos + min 59 (reason.length - pos)) < fuel := by omega
          apply wp_mono (ih (by exact hstate) (by omega) hfuel') _ (fun _ => id)
          rintro _ w' ⟨hrest, hbase⟩
          refine ⟨?_, hbase⟩
          intro hok
          exact .more hsent (hrest hok) hmore
        . next hdone =>
          have hdone : reason.length - pos ≤ 59 := by
            rw [ne_eq, not_not, List.drop_eq_nil_iff] at hdone
            omega
          refine ⟨?_, rfl⟩
          intro _
          exact .last hsent hdone
    . -- Then the position may even go back, and the log is not in order, whatever is sent.
      apply wp_mono (ack_loop_short hwritten hstate hr) _ (fun _ => id)
      rintro _ w' ⟨hnot, hbase⟩
      exact ⟨fun hok => absurd hok hnot, hbase⟩

theorem fastbootAck_spec (code : Code) (reason : Bytes) (w : World)
    : wp (fastbootAck env code reason)
        (fun _ w' => (TransportOk w'.log
          → (w.state = .command → Acked code (cstr reason).length w w')
            ∧ (w.state ≠ .command → w' = w)) ∧ w'.downloadBase = w.downloadBase)
        (fun w' => ¬TransportOk w'.log ∧ w'.downloadBase = w.downloadBase) w := by
  unfold fastbootAck
  simp only [wp_bind, wp_get]
  split
  . next hno => exact ⟨fun _ => ⟨fun hcommand => absurd hcommand hno, fun _ => rfl⟩, rfl⟩
  . next hcommand =>
    have hcommand : w.state = .command := by simpa using hcommand
    have hstate : w.state ≠ .error := by simp [hcommand]
    apply wp_mono (ack_loop_spec hstate (Nat.zero_le _) (by omega)) _ (fun _ => id)
    rintro _ w' ⟨hacked, hbase⟩
    refine ⟨?_, hbase⟩
    intro hok
    exact ⟨fun _ => hacked hok, fun hno => absurd hcommand hno⟩

theorem Sent.sameCommand {code : Code} {w w' : World} {es : List Event} (h : Sent code w es w')
    : SameCommand w.log w'.log := by
  have hsilent : ∀ e ∈ es, Silent e := by
    intro e he
    obtain ⟨text, n, rfl⟩ := h.events e he
    trivial
  rw [h.log]
  exact sameCommand_append hsilent

theorem Sent.codes {code : Code} {w w' : World} {es : List Event} (h : Sent code w es w')
    : codes w'.log = List.replicate es.length code ++ Fastboot.codes w.log := by
  rw [h.log]
  exact codes_replies h.events

theorem Handling.info {w w' : World} {es : List Event} (h : Handling w) (hcommand : w.state = .command)
    (hsent : Sent .info w es w') : Handling w' := by
  have hsame := hsent.sameCommand
  refine ⟨hsame.serves.trans h.serves, Or.inl ?_, ?_⟩
  . cases h.phase with
    | inr hphase => simp [hphase.1] at hcommand
    | inl hphase =>
      refine ⟨hsent.state.trans hcommand, hsame.ends.trans hphase.2.1, ?_⟩
      rw [hsent.codes]
      intro c hc
      cases List.mem_append.mp hc with
      | inl hc => exact List.eq_of_mem_replicate hc
      | inr hc => exact hphase.2.2 c hc
  . rw [hsame.answered, hsame.short]
    exact h.answered

theorem fastbootInfo_inv (text : Bytes) : Keeps (Inv env) (fastbootInfo env text) := by
  intro w h
  unfold fastbootInfo
  simp only [emit, wp_bind, wp_modify]
  have hcall : Inv env { w with log := .call (.info text) :: w.log } :=
    h.quiet (e := .call (.info text)) ⟨trivial, by simp⟩ rfl rfl (Nat.le_refl _)
  apply wp_mono (fastbootAck_spec .info text _)
  . rintro _ w' ⟨hacked, hbase⟩
    refine ⟨hbase ▸ h.room, ?_⟩
    intro hok
    obtain ⟨hsent, hsame⟩ := hacked hok
    by_cases hcommand : w.state = .command
    . obtain ⟨n, es, _, _, hsent⟩ := hsent hcommand
      rw [hsent.log] at hok
      exact (hcall.handling (hok.suffix (List.suffix_append _ _))).info hcommand hsent
    . rw [hsame hcommand] at hok ⊢
      exact hcall.handling hok
  . rintro w' ⟨hnot, hbase⟩
    exact inv_of_not_transportOk (hbase ▸ h.room) hnot

inductive IsEnd (text : Bytes) : Code → Api → Prop where
  | okay : IsEnd text .okay (.okay text)
  | fail : IsEnd text .fail (.fail text)

theorem IsEnd.firstEnd {text : Bytes} {code : Code} {call : Api} (h : IsEnd text code call)
    (older : List Event)
    : firstEnd (.call call :: older) = (Fastboot.firstEnd older).or (some text) := by
  cases h
  all_goals rfl

theorem IsEnd.log {text : Bytes} {code : Code} {call : Api} (h : IsEnd text code call)
    (older : List Event)
    : serving (.call call :: older) = serving older ∧ codes (.call call :: older) = codes older
      ∧ (Answered (.call call :: older) ↔ Answered older)
      ∧ (Short (.call call :: older) ↔ Short older) := by
  cases h
  all_goals simp [serving, codes, AnsweredAt, ShortAt]

theorem Handling.ends {text : Bytes} {code : Code} {call : Api} {w w' : World}
    (hend : IsEnd text code call) (h : Handling w)
    (hsent : w.state = .command
      → Acked code (cstr text).length { w with log := .call call :: w.log } w')
    (hidle : w.state ≠ .command → w' = { w with log := .call call :: w.log })
    : Handling { w' with state := .complete, log := .state .complete :: w'.log } := by
  obtain ⟨hserving, hcodes, hanswered, hshort⟩ := hend.log w.log
  -- It is enough to know the log before `STATE_COMPLETE` is set.
  have henough (hsame : SameCommand (.call call :: w.log) w'.log) (hended : Ended w'.log)
      : Handling { w' with state := .complete, log := .state .complete :: w'.log } := by
    have hquiet : ∀ e ∈ [Event.state .complete], Quiet e := by simp [Quiet, Silent]
    have hlast : SameCommand w'.log ([.state .complete] ++ w'.log) :=
      sameCommand_append (fun e he => (hquiet e he).1)
    refine ⟨?_, Or.inr ⟨rfl, ?_⟩, ?_⟩
    . exact (hlast.serves.trans hsame.serves).trans (hserving.trans h.serves)
    . unfold Ended
      have hcodes' := codes_quiet w'.log hquiet
      simp only [List.cons_append, List.nil_append] at hcodes' hlast
      rw [hcodes', hlast.ends]
      exact hended
    . exact (hlast.answered.trans (hsame.answered.trans hanswered)).trans
        (h.answered.trans (hlast.short.trans (hsame.short.trans hshort)).symm)
  cases h.phase with
  | inl hphase =>
    -- the first end of the command, which is sent
    obtain ⟨hcommand, hnone, hinfos⟩ := hphase
    obtain ⟨n, es, hcount, hn, hsent⟩ := hsent hcommand
    have hsame := hsent.sameCommand
    apply henough hsame
    refine ⟨text, n, code, codes w.log, ?_, ?_, ?_, hinfos, hn⟩
    . rw [hsame.ends]
      exact (hend.firstEnd w.log).trans (by rw [hnone]; rfl)
    . rw [hsent.codes, hcount]
      exact congrArg _ hcodes
    . cases hend
      all_goals simp
  | inr hphase =>
    -- The command has been ended before, and nothing is sent in `STATE_COMPLETE`.
    obtain ⟨hcomplete, hended⟩ := hphase
    have hw' := hidle (by simp [hcomplete])
    rw [hw']
    rw [hw'] at henough
    apply henough ⟨rfl, rfl, Iff.rfl, Iff.rfl⟩
    obtain ⟨text', n, c, infos, hfirst, hcodes', hrest⟩ := hended
    refine ⟨text', n, c, infos, ?_, hcodes.trans hcodes', hrest⟩
    rw [hend.firstEnd, hfirst]
    rfl

theorem end_inv {text : Bytes} {code : Code} {call : Api} (hend : IsEnd text code call)
    : Keeps (Inv env) (do emit (.call call); fastbootAck env code text; setState .complete) := by
  intro w h
  simp only [emit, wp_bind, wp_modify]
  apply wp_mono (fastbootAck_spec code text _)
  . rintro _ w' ⟨hacked, hbase⟩
    refine ⟨hbase ▸ h.room, ?_⟩
    intro hok
    obtain ⟨hsent, hidle⟩ := hacked hok.2
    have hw : TransportOk w.log := by
      by_cases hcommand : w.state = .command
      . obtain ⟨n, es, _, _, hsent⟩ := hsent hcommand
        have hok' := hok.2
        rw [hsent.log] at hok'
        exact (hok'.suffix (List.suffix_append _ _)).2
      . have hok' := hok.2
        rw [hidle hcommand] at hok'
        exact hok'.2
    exact (h.handling hw).ends hend hsent hidle
  . rintro w' ⟨hnot, hbase⟩
    exact inv_of_not_transportOk (hbase ▸ h.room) hnot

/-! ### The handlers -/

section Handlers

variable (hmax : env.downloadMax < 2 ^ 31)

theorem fail_inv (text : Bytes) : Keeps (Inv env) (fastbootFail env text) :=
  end_inv .fail

theorem quiet_of_passive {e : Event} (he : e.Passive) : Quiet e := by
  cases e with
  | call a =>
    cases a
    all_goals simp_all [Event.Passive, Quiet, Silent]
  | _ => simp_all [Event.Passive, Quiet, Silent]

theorem emit_inv {e : Event} (he : Quiet e) : Keeps (Inv env) (emit e) :=
  fun _ h => h.quiet he rfl rfl (Nat.le_refl _)

theorem store_inv (offset : Nat) (bytes : Bytes) : Keeps (Inv env) (store offset bytes) :=
  fun _ h => ⟨Nat.le_trans h.room (store_room _ _ _),
    fun hok => (h.handling hok).quiet [] (by simp) rfl rfl⟩

theorem responseData_inv (len : Nat) {w : World} (h : Inv env w)
    : wp (responseData env len) (fun sent w' => Inv env w' ∧ (sent = true → awaitsData w'.log = true))
        (fun _ => False) w := by
  unfold responseData
  simp only [wp_bind, wp_pure]
  apply wp_mono (usbWrite_inv (.data len) (by simp) h) _ (fun _ => id)
  rintro r w' ⟨hinv, hlog⟩
  refine ⟨hinv, ?_⟩
  intro hsent
  rw [hlog _ (of_decide_eq_true hsent)]
  rfl

theorem size_inv (n : Nat) : Keeps (Inv env) (setDownloadSize n) :=
  fun _ h => ⟨h.room, fun hok => (h.handling hok).quiet [] (by simp) rfl rfl⟩

theorem usbWrite_keeps (packet : Packet) (hpacket : ∀ code text, packet ≠ .reply code text)
    : Keeps (Inv env) (usbWrite env packet) :=
  fun _ h => wp_mono (usbWrite_inv packet hpacket h) (fun _ _ hr => hr.1) (fun _ => False.elim)

include hmax

theorem dataPhase_inv {α : Type} {size : Nat} (hsize : size ≤ env.downloadMax) (failed : α) {next : Fb α}
    (hnext : Keeps (Inv env) next)
    : Keeps (Inv env) (do
        if !(← responseData env size) then
          return failed
        let r ← usbReadProgress env size
        if r < 0 ∨ r ≠ size then
          setState .error
          return failed
        next) := by
  intro w h
  simp only [wp_bind]
  apply wp_mono (responseData_inv size h) _ (fun _ => False.elim)
  rintro sent w1 ⟨hinv1, hdata⟩
  split
  . exact hinv1
  . next hsent =>
    simp only [wp_bind]
    apply wp_mono (usbReadProgress_spec hmax hsize hinv1 (hdata (by simpa using hsent))) _ (fun _ => False.elim)
    rintro r w2 ⟨hinv2, hr⟩
    split
    . next hshort =>
      have hnot : ¬TransportOk (.state .error :: w2.log) := by
        intro hok
        have := hr hok.2
        omega
      exact inv_of_not_transportOk hinv2.room hnot
    . exact hnext w2 hinv2

theorem downloadTo_inv (size : Nat) : Keeps (Inv env) (downloadTo env size) := by
  unfold downloadTo
  apply Keeps.bind (emit_inv (by simp [Quiet, Silent]))
  intro _
  apply Keeps.ite
  . intro _
    exact failWith_keeps fail_inv _ _
  . intro hsize
    apply dataPhase_inv hmax (Nat.le_of_not_lt hsize)
    exact Keeps.bind Keeps.get (fun _ => Keeps.pure _)

theorem cmdDownload_inv (arg : Bytes) : Keeps (Inv env) (cmdDownload env arg) := by
  unfold cmdDownload
  apply Keeps.bind (emit_inv (by simp [Quiet, Silent]))
  intro _
  apply Keeps.bind (size_inv _)
  intro _
  apply Keeps.ite
  . intro _
    exact failWith_keeps fail_inv _ _
  . intro hsize
    apply dataPhase_inv hmax (Nat.le_of_not_lt hsize)
    exact Keeps.bind (size_inv _) (fun _ => end_inv .okay)

theorem inv_keptByParts : KeptByParts env (Inv env) where
  read := usbRead_inv
  write := usbWrite_keeps
  emit := fun e he => emit_inv (quiet_of_passive he)
  outside := fun _ _ h => h.quiet (by simp [Quiet, Silent]) rfl rfl (Nat.le_refl _)
  info := fastbootInfo_inv
  okay := fun _ => end_inv .okay
  fail := fail_inv
  downloadTo := downloadTo_inv hmax
  pullFile := pullFile_keeps (fun _ he => emit_inv (quiet_of_passive he)) store_inv size_inv fail_inv
    (fun _ => usbWrite_keeps _ (by simp)) (usbRead_inv 64)

end Handlers

/-! ### The loop -/

structure Between (env : Env) (w : World) : Prop where
  room : env.downloadMax ≤ w.downloadBase.length
  phase : TransportOk w.log
    → (w.state = .offline ∧ serving w.log = false) ∨ (w.state = .complete ∧ Ended w.log)
  answered : TransportOk w.log → (Answered w.log ↔ Short w.log)

theorem Between.await {w : World} (h : Between env w) (hok : TransportOk w.log)
    : Answered (.await :: w.log) ↔ Short (.await :: w.log) := by
  have hat : AnsweredAt .await w.log ↔ ShortAt .await w.log := by
    unfold AnsweredAt ShortAt
    cases h.phase hok with
    | inl hphase => simp [hphase.2]
    | inr hphase => rw [hphase.2.oneTerminal_iff]
  exact and_congr hat (h.answered hok)

theorem Between.read {w w' : World} {es : List Event} (h : Between env w)
    (hes : ∀ e ∈ es, e.OfTransfer) (hlog : w'.log = es ++ .await :: w.log)
    (hok : TransportOk w'.log) : Answered w'.log ↔ Short w'.log := by
  have hsame : SameCommand (.await :: w.log) (es ++ .await :: w.log) :=
    sameCommand_append (fun e he => (quiet_of_ofTransfer (hes e he)).1)
  rw [hlog] at hok ⊢
  rw [hsame.answered, hsame.short]
  exact h.await (hok.suffix (List.suffix_append _ _)).2

theorem between_offline {w : World} (hroom : env.downloadMax ≤ w.downloadBase.length)
    (h : TransportOk w.log → (Answered w.log ↔ Short w.log))
    : Between env { w with state := .offline, log := .state .offline :: w.log } := by
  refine ⟨hroom, fun _ => Or.inl ⟨rfl, rfl⟩, ?_⟩
  rintro ⟨_, hok⟩
  simpa [AnsweredAt, ShortAt] using h hok

theorem Between.command {w w' : World} {es : List Event} (h : Between env w)
    (hes : ∀ e ∈ es, e.OfTransfer) (hlog : w'.log = es ++ .await :: w.log)
    (hroom : env.downloadMax ≤ w'.downloadBase.length)
    : Inv env { w' with state := .command, log := .state .command :: w'.log } := by
  refine ⟨hroom, ?_⟩
  rintro ⟨_, hok⟩
  have hanswered := h.read hes hlog hok
  have hquiet : ∀ e ∈ .state .command :: es, Quiet e := by
    intro e he
    cases List.mem_cons.mp he with
    | inl heq => simp [heq, Quiet, Silent]
    | inr hmem => exact quiet_of_ofTransfer (hes e hmem)
  have hsame : SameCommand (.await :: w.log) (.state .command :: es ++ .await :: w.log) :=
    sameCommand_append (fun e he => (hquiet e he).1)
  have hcodes := codes_quiet (.await :: w.log) hquiet
  refine ⟨?_, Or.inl ⟨rfl, ?_, ?_⟩, ?_⟩
  . rw [hlog]
    exact hsame.serves
  . rw [hlog]
    exact hsame.ends
  . rw [hlog]
    rw [List.cons_append] at hcodes
    rw [hcodes]
    simp [codes]
  . simpa [AnsweredAt, ShortAt] using hanswered

theorem Inv.between {w : World} (h : Inv env w) (hstate : w.state ≠ .command) : Between env w := by
  refine ⟨h.room, ?_, fun hok => (h.handling hok).answered⟩
  intro hok
  cases (h.handling hok).phase with
  | inl hphase => exact absurd hphase.1 hstate
  | inr hphase => exact Or.inr hphase

theorem commandLoop_between (hmax : env.downloadMax < 2 ^ 31) (cmdlist : List Cmd) {w : World}
    (h : Between env w)
    : wp (commandLoop env cmdlist) (fun _ => Between env) (Inv env) w := by
  apply commandLoop_spec (fun _ => between_offline h.room h.answered)
    (fun _ => wp_mono (usbRead_spec env 64 _) (fun _ _ => id) (fun _ => False.elim))
  . rintro packet w1 ⟨es, hreceived⟩
    exact between_offline (Nat.le_trans h.room hreceived.room) (h.read hreceived.events hreceived.log)
  . rintro packet w1 ⟨es, hreceived⟩
    have hinv := h.command hreceived.events hreceived.log (Nat.le_trans h.room hreceived.room)
    have hkeeps := (inv_keptByParts hmax).dispatch (fun _ => emit_inv (by simp [Quiet, Silent]))
      (fun _ => emit_inv (by simp [Quiet, Silent])) (fun _ => emit_inv (by simp [Quiet, Silent]))
      (cmdDownload_inv hmax) cmdlist (cmdBuffer packet)
    apply wp_mono (wp_and (hkeeps _ hinv) (dispatch_not_command _ _ _ _))
    . rintro _ w2 ⟨hinv2, hstate⟩
      exact hinv2.between hstate
    . rintro w2 ⟨hinv2, _⟩
      exact hinv2

end Reply

/--
In a run in which no `read` or `write` fails and no reply and no data fall short, every command is answered by
informations and then one packet that ends it exactly when the text that first ends a command always fits into one
packet.
-/
theorem answered_iff_short {env : Env} {cmdlist : List Cmd} {base : Bytes} {s : Server}
    (hmax : env.downloadMax < 2 ^ 31) (hbase : env.downloadMax ≤ base.length)
    (h : Serves env cmdlist base s) (hok : TransportOk s.world.log)
    : Answered s.world.log ↔ Short s.world.log := by
  have hstart : Reply.Between env (start base).world :=
    ⟨hbase, fun _ => Or.inl ⟨rfl, rfl⟩, fun _ => Iff.rfl⟩
  have hall := serves_induction hstart (fun _ => Reply.commandLoop_between hmax cmdlist) h
  by_cases hrunning : s.halted = none
  . exact (hall.1 hrunning).answered hok
  . exact ((hall.2 hrunning).handling hok).answered

def patientHost : Env :=
  hostOf [str "getvar:serialno", str "getvar:serialno"]

def publishing (n : Nat) : List Cmd :=
  initCmds [] [⟨str "serialno", List.replicate n 48⟩]

def savingHost : Env :=
  { hostOf [str "getvar:serialno", str "pull", str "SAVE00000002", str "getvar:serialno"] with
    downloadMax := 16
    downloadMax_lt := by decide }

def pulling : List Cmd :=
  register (publishing 59) (str "pull") (.program fun _ _ => do
    if ← HProg.pullFile (.file 2 (some (str "ab"))) then
      HProg.info (str "saved")
    HProg.okay [])

theorem savingHost_answered
    : ∃ s, Serves savingHost pulling (List.replicate 16 0) s ∧ TransportOk s.world.log
        ∧ .read 64 (some (str "SAVE00000002")) ∈ s.world.log ∧ Answered s.world.log ∧ Short s.world.log := by
  have hrun : (System.run (serve savingHost pulling) (start (List.replicate 16 0)) [(), (), ()]).any
      (fun s => TransportOk s.world.log ∧ .read 64 (some (str "SAVE00000002")) ∈ s.world.log
        ∧ Answered s.world.log) = true := by
    decide +kernel
  obtain ⟨s, hs, hok, hread, hanswered⟩ := System.Reaches.exists_of_run (fun _ _ _ => trivial) hrun
  have hiff := answered_iff_short (by decide) (by decide) hs hok
  exact ⟨s, hs, hok, hread, hanswered, hiff.mp hanswered⟩

theorem patientHost_notAnswered
    : ∃ s, Serves patientHost (publishing 60) (List.replicate 8 0) s ∧ TransportOk s.world.log
        ∧ ¬Answered s.world.log := by
  have hrun : (System.run (serve patientHost (publishing 60)) (start (List.replicate 8 0)) [(), ()]).any
      (fun s => TransportOk s.world.log ∧ ¬Answered s.world.log) = true := by
    decide +kernel
  exact System.Reaches.exists_of_run (fun _ _ _ => trivial) hrun

end Fastboot
