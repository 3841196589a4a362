import Tboot.Fastboot.Lemmas.Overrun

/-!
This module contains for which answers of the host `pull_file` reports a success that the host has not
confirmed.
-/

open Proc

namespace Fastboot

open pullFile

/-- The header and the contents have been written as a whole, and the next packet of the host confirms the size. -/
inductive Confirmed : Fd → List Event → Prop where
  | intro {data reply : Bytes} (rest : Bytes) (later earlier : List Event) (hreply : offset ≤ reply.length)
      (hsize : IsHex8 ((reply.take offset).drop 4) data.length)
      : Confirmed (.file data.length (some (data ++ rest)))
          (later ++ .read 64 (some reply)
            :: .wrote (.file (header data.length ++ data)) (some (offset + data.length)) :: earlier)

def Refused (fd : Fd) (w w' : World) : Prop :=
  ∃ es text, w'.log = es ++ w.log ∧ .call (.fail text) ∈ es ∧ ¬ Confirmed fd es

/--
The result is 0 with a confirmation only, and -1 without one. It is 0 or -1 unless `fastboot_fail` does not
come to an end.
-/
def ReportsConfirmed (env : Env) (fd : Fd) (w : World) : Prop :=
  wp (pullFile env fd) (fun r w' => ∃ es, w'.log = es ++ w.log ∧ (r = true ↔ Confirmed fd es)) (Refused fd w) w

/-- `download_max - offset`, as it is computed -/
def pullRoom (env : Env) : Nat :=
  u32 (env.downloadMax + 2 ^ 32 - offset)

/-- The file is let pass, all of it can be read, and the host takes the packet as a whole. -/
structure Sends (env : Env) (w : World) (size : Nat) (contents : Bytes) : Prop where
  fits : size ≤ pullRoom env
  whole : (contents.take (pullRoom env)).length = size
  state : w.state ≠ .error
  taken : ∃ n, env.write w.writes = some n ∧ u32 (offset + size) ≤ n

/-- Bytes that the host has not sent, or that are not eight digits, are taken for the size. -/
inductive Misread (env : Env) (w : World) (size : Nat) : Prop where
  | stale : env.read w.reads = none → strtou 32 16 (answer (env.fresh w.reads) []) = size → Misread env w size
  | lenient (reply : Bytes) : env.read w.reads = some reply → offset ≤ reply.length
      → strtou 32 16 ((reply.take offset).drop 4) = size → ¬ IsHex8 ((reply.take offset).drop 4) size
      → Misread env w size

namespace Pull

variable {env : Env} {fd : Fd} {w : World}

/-! ### The comparisons, as they are made in C -/

def unsigned (r : Int) : Nat :=
  (r % 2 ^ 32).toNat

theorem usbWrite_unsigned {packet : Packet} (hlength : packet.bytes.length < 2 ^ 32 - 1)
    : wp (usbWrite env packet)
        (fun r _ => unsigned (toResult r) = packet.bytes.length ↔ r = some packet.bytes.length)
        (fun _ => False) w := by
  apply wp_mono (usbWrite_spec env packet w) _ (fun _ => id)
  intro r w' hwritten
  cases hwritten with
  | refused _ =>
    simp only [toResult, unsigned, reduceCtorEq, iff_false]
    omega
  | failed _ =>
    simp only [toResult, unsigned, reduceCtorEq, iff_false]
    omega
  | taken n _ hn =>
    simp only [toResult, unsigned, Option.some.injEq]
    omega

theorem usbRead_unsigned
    : wp (usbRead env 64)
        (fun r _ => unsigned (if r.1 then r.2.length else -1) < offset ↔ r.1 = true ∧ r.2.length < offset)
        (fun _ => False) w := by
  apply wp_mono (usbRead_readOnly env 64 w) _ (fun _ => id)
  rintro ⟨ok, reply⟩ w' ⟨es, hread⟩
  have hlength : reply.length ≤ 64 := hread.length_le
  cases ok with
  | false => simp [unsigned, offset]
  | true =>
    simp only [unsigned, ↓reduceIte, true_and]
    omega

/-! ### Without a read there is no confirmation -/

def NoRead : Event → Prop
  | .read _ (some _) => False
  | _ => True

theorem noRead_fail (log : List Event) (text : Bytes)
    : Keeps (Extends NoRead log) (do fastbootAck env .fail text; setState .complete) := by
  apply Keeps.bind
  . apply fastbootAck_keeps
    intro _
    apply usbWrite_keeps
    . exact fun _ h => h.cons (show NoRead (.state .error) from trivial) rfl
    . exact fun _ h => h.cons (show NoRead (.wrote _ _) from trivial) rfl
  . intro _
    exact fun _ h => h.cons (show NoRead (.state .complete) from trivial) rfl

def Unanswered (fd : Fd) (es : List Event) : Prop :=
  ∀ size contents reply, fd = .file size contents → .read 64 (some reply) ∈ es → offset ≤ reply.length
    → ¬ IsHex8 ((reply.take offset).drop 4) size

theorem Unanswered.not_confirmed {es : List Event} (h : Unanswered fd es) : ¬ Confirmed fd es := by
  intro hconfirmed
  cases hconfirmed with
  | intro rest later earlier hreply hsize => exact h _ _ _ rfl (by simp) hreply hsize

theorem Unanswered.append {es later : List Event} (h : Unanswered fd es) (hlater : ∀ e ∈ later, NoRead e)
    : Unanswered fd (later ++ es) := by
  intro size contents reply hfd hread
  cases List.mem_append.mp hread with
  | inl hread => exact absurd (hlater _ hread) id
  | inr hread => exact h size contents reply hfd hread

theorem refused {w1 : World} {es : List Event} (hlog : w1.log = es ++ w.log) (h : Unanswered fd es) (text : Bytes)
    : wp (do fastbootFail env text; return false) (fun r w' => r = false ∧ Refused fd w w') (Refused fd w) w1 := by
  have hrefused : ∀ w', Extends NoRead (.call (.fail text) :: w1.log) w' → Refused fd w w' := by
    rintro w' ⟨later, hlog', hlater⟩
    refine ⟨later ++ .call (.fail text) :: es, text, ?_, by simp, ?_⟩
    . rw [hlog', hlog]
      simp
    . apply Unanswered.not_confirmed
      apply Unanswered.append _ hlater
      exact @Unanswered.append fd es [.call (.fail text)] h (by simp [NoRead])
  have hstart : Extends NoRead (.call (.fail text) :: w1.log) { w1 with log := .call (.fail text) :: w1.log } :=
    Extends.refl _
  unfold fastbootFail
  rw [wp_bind]
  apply wp_mono (noRead_fail _ text _ hstart)
  . intro _ w' h'
    exact ⟨rfl, hrefused w' h'⟩
  . exact hrefused

/-! ### What comes before the read -/

def receive (env : Env) (size : Nat) (stack : Bytes) : Fb Bool := do
  let (ok, reply) ← usbRead env 64
  if ok && reply.length < offset then
    fastbootFail env (str "get invalid response")
    return false
  if size ≠ strtou 32 16 (answer stack reply) then
    fastbootFail env (str "saved bytes doesn't equal sent bytes")
    return false
  return true

theorem send_wp {size : Nat} {packet : Bytes} (hlength : packet.length = offset + size)
    (hpacket : w.downloadBase.take (offset + size) = packet) (hsize : offset + size < 2 ^ 32) (hstate : w.state ≠ .error)
    (htaken : ∃ n, env.write w.writes = some n ∧ offset + size ≤ n) {Q : Bool → World → Prop} {E : World → Prop}
    (hreceive : ∀ w1, w1.state = w.state → w1.reads = w.reads
      → w1.log = .wrote (.file packet) (some (offset + size)) :: w.log
      → wp (receive env size (env.fresh w.reads)) Q E w1)
    : wp (send env size) Q E w := by
  obtain ⟨n, hwrite, hn⟩ := htaken
  have hcount : min (offset + size) n = offset + size := by omega
  unfold send
  rw [u32_of_lt hsize]
  simp only [wp_bind, setDownloadSize, wp_modify, wp_get, hpacket, usbWrite, hstate, ↓reduceIte, sysWrite, hwrite,
    Packet.bytes, hlength, Option.map_some, hcount, wp_set, wp_pure, ne_eq, not_true_eq_false]
  unfold receive at hreceive
  simp only [wp_bind, ne_eq] at hreceive
  apply hreceive
  all_goals rfl

def sent (env : Env) (size : Nat) (contents : Bytes) : List Event :=
  [.wrote (.file (header size ++ contents.take (env.downloadMax - offset))) (some (offset + size)),
    .call (.pullFile (.file size (some contents)))]

theorem unanswered_sent (env : Env) (size : Nat) (contents : Bytes)
    : Unanswered (.file size (some contents)) (sent env size contents) := by
  simp [Unanswered, sent]

section Room

variable (hmax : offset < env.downloadMax)

include hmax

theorem room_eq : u32 (env.downloadMax + 2 ^ 32 - offset) = env.downloadMax - offset := by
  have hlt := env.downloadMax_lt
  unfold u32 offset at *
  omega

theorem pullRoom_eq : pullRoom env = env.downloadMax - offset := by
  unfold pullRoom
  exact room_eq hmax

theorem header_length {size : Nat} (hsize : size ≤ env.downloadMax - offset) : (header size).length = offset := by
  have hlt := env.downloadMax_lt
  have hdigits := (hex8_length_iff size).mpr (by omega)
  have hlength : (header size).length = 4 + (hex8 size).length := List.length_append
  unfold offset
  omega

theorem packet_eq {size : Nat} {contents : Bytes} (base : Bytes) (hheader : (header size).length = offset)
    (hwhole : contents.length = size)
    : let stored := ((header size).take (env.downloadMax - 1) ++ [0]).take env.downloadMax
      let base := base.take 0 ++ stored ++ base.drop (0 + stored.length)
      (base.take offset ++ contents ++ base.drop (offset + size)).take (offset + size)
        = header size ++ contents := by
  have hstored : ((header size).take (env.downloadMax - 1) ++ [0]).take env.downloadMax = header size ++ [0] := by
    have hall : (header size).length ≤ env.downloadMax - 1 := by omega
    rw [List.take_of_length_le hall]
    apply List.take_of_length_le
    rw [List.length_append, hheader]
    exact hmax
  intro stored base'
  have hbase : base'.take offset = header size := by
    unfold base' stored
    rw [hstored, List.take_zero, List.nil_append, List.append_assoc, List.take_left' hheader]
  rw [hbase]
  apply List.take_left'
  rw [List.length_append, hheader, hwhole]

theorem sends_wp {size : Nat} {contents : Bytes} (h : Sends env w size contents) {Q : Bool → World → Prop}
    {E : World → Prop}
    (hreceive : ∀ w1, w1.state = w.state → w1.reads = w.reads
      → w1.log = sent env size contents ++ w.log → wp (receive env size (env.fresh w.reads)) Q E w1)
    : wp (pullFile env (.file size (some contents))) Q E w := by
  have hlt := env.downloadMax_lt
  obtain ⟨hfits, hwhole, hstate, htaken⟩ := h
  rw [pullRoom_eq hmax] at hfits hwhole
  have hroom := room_eq hmax
  have hsmall : ¬ env.downloadMax - offset < size := by omega
  have hsize : offset + size < 2 ^ 32 := by omega
  rw [u32_of_lt hsize] at htaken
  have hheader := header_length hmax hfits
  have hlength : (header size ++ contents.take (env.downloadMax - offset)).length = offset + size := by
    rw [List.length_append, hheader, hwhole]
  unfold pullFile body
  simp only [wp_bind, emit, wp_modify, hroom, gt_iff_lt, hsmall, hheader, ne_eq, not_true_eq_false, ↓reduceIte,
    store, Option.map_some, Option.getD_some, hwhole]
  apply send_wp hlength
  . exact packet_eq hmax _ hheader hwhole
  . exact hsize
  . exact hstate
  . exact htaken
  . exact hreceive

end Room

theorem usbWrite_short (packet : Packet) {len : Nat} {w : World}
    (hnot : w.state ≠ .error → ∀ n, env.write w.writes = some n → n < len)
    : wp (usbWrite env packet) (fun r w' => r ≠ some len ∧ Extends NoRead w.log w') (fun _ => False) w := by
  unfold usbWrite
  simp only [wp_bind, wp_get]
  split
  . exact ⟨by simp, (Extends.refl w).cons (show NoRead (.state .error) from trivial) rfl⟩
  . next hstate =>
    have hwrote (count : Option Nat) : Extends NoRead w.log
        { w with writes := w.writes + 1, log := .wrote packet count :: w.log } :=
      (Extends.refl w).cons (show NoRead (.wrote packet count) from trivial) rfl
    simp only [wp_bind, sysWrite, wp_get, wp_set, wp_pure]
    cases hwrite : env.write w.writes with
    | none => exact ⟨by simp, (hwrote none).cons (show NoRead (.state .error) from trivial) rfl⟩
    | some n =>
      refine ⟨?_, hwrote _⟩
      have hshort := hnot hstate n hwrite
      intro hcount
      have heq : min packet.bytes.length n = len := by simpa using hcount
      omega

theorem unsent_send {w0 : World} {es : List Event} {size : Nat} (hlog : w0.log = es ++ w.log) (h : Unanswered fd es)
    (hnot : w0.state ≠ .error → ∀ n, env.write w0.writes = some n → n < u32 (offset + size))
    : wp (send env size) (fun r w' => r = false ∧ Refused fd w w') (Refused fd w) w0 := by
  unfold send
  simp only [wp_bind, setDownloadSize, wp_modify, wp_get]
  refine wp_mono (usbWrite_short _ hnot) ?_ (fun _ => False.elim)
  rintro r w1 ⟨hr, later, hlog1, hlater⟩
  rw [if_pos hr]
  apply refused _ (h.append hlater)
  rw [hlog1, List.append_assoc]
  exact congrArg (later ++ ·) hlog

theorem unsent (hnot : ∀ size contents, fd = .file size (some contents) → ¬ Sends env w size contents)
    : wp (pullFile env fd) (fun r w' => r = false ∧ Refused fd w w') (Refused fd w) w := by
  have hcall : Unanswered fd [.call (.pullFile fd)] := by simp [Unanswered]
  unfold pullFile body
  simp only [wp_bind, emit, wp_modify]
  cases fd with
  | invalid => exact refused rfl hcall _
  | cannotStat => exact refused rfl hcall _
  | file size contents =>
    have hroom : u32 (env.downloadMax + 2 ^ 32 - offset) = pullRoom env := rfl
    have hsends : ∀ contents', contents = some contents' → size ≤ pullRoom env
        → (contents'.take (pullRoom env)).length = size → w.state ≠ .error
        → ∀ n, env.write w.writes = some n → n < u32 (offset + size) := by
      rintro contents' rfl hfits hwhole hstate n hwrite
      apply Nat.lt_of_not_le
      intro hn
      exact hnot size contents' rfl ⟨hfits, hwhole, hstate, n, hwrite, hn⟩
    rw [hroom]
    generalize pullRoom env = room at hsends
    simp only [store]
    split
    . exact refused rfl hcall _
    next hsmall =>
    split
    . exact refused rfl hcall _
    split
    . exact refused rfl hcall _
    next hwhole =>
    cases contents with
    | none => simp at hwhole
    | some contents =>
      have hlength : (contents.take room).length = size := by simpa using hwhole
      simp only [wp_bind, wp_modify]
      refine unsent_send ?_ hcall (hsends contents rfl (Nat.le_of_not_lt hsmall) hlength)
      rfl

/-! ### The reply -/

theorem usbRead_failed {w : World} (hstate : w.state ≠ .error) (hread : env.read w.reads = none)
    : wp (usbRead env 64) (fun r w' => r = (false, []) ∧ w'.log = [.state .error, .read 64 none] ++ w.log)
        (fun _ => False) w := by
  unfold usbRead
  simp only [wp_bind, wp_get, hstate, ↓reduceIte]
  unfold usbRead.loop
  simp only [OfNat.ofNat_ne_zero, gt_iff_lt, Nat.reduceLT, ↓reduceIte, sysRead, hread, Option.map_none, wp_bind, wp_get,
    wp_set, wp_pure]
  exact ⟨trivial, rfl⟩

theorem answer_reply (stack : Bytes) {reply : Bytes} (hreply : offset ≤ reply.length)
    : answer stack reply = (reply.take offset).drop 4 := by
  unfold answer
  rw [List.take_append_of_le_length hreply]

theorem take_reply (packet : Bytes)
    : (offset ≤ (packet.take 64).length ↔ offset ≤ packet.length) ∧ (packet.take 64).take offset = packet.take offset := by
  constructor
  . rw [List.length_take]
    unfold offset
    omega
  . rw [List.take_take]
    rfl

theorem confirmed {size n : Nat} {contents reply : Bytes} (hwhole : (contents.take n).length = size)
    (hreply : offset ≤ reply.length) (hsize : IsHex8 ((reply.take offset).drop 4) size) (later earlier : List Event)
    : Confirmed (.file size (some contents))
        (later ++ .read 64 (some reply)
          :: .wrote (.file (header size ++ contents.take n)) (some (offset + size)) :: earlier) := by
  subst hwhole
  have h := Confirmed.intro (contents.drop n) later earlier hreply hsize
  rw [List.take_append_drop] at h
  exact h

section Receive

theorem afterRead_log {w w1 : World} {packet : Bytes} (hread : env.read w.reads = some packet) (hreads : w1.reads = w.reads)
    : (usbRead.afterRead env 64 w1).log = .read 64 (some (packet.take 64)) :: w1.log := by
  unfold usbRead.afterRead
  rw [hreads, hread, Option.map_some]

variable {size : Nat} {contents : Bytes} {w1 : World} {es : List Event}
  (hstate : w1.state ≠ .error) (hreads : w1.reads = w.reads)

theorem unanswered_read (h : Unanswered (.file size (some contents)) es) (reply : Bytes)
    (hreply : offset ≤ reply.length → ¬ IsHex8 ((reply.take offset).drop 4) size)
    : Unanswered (.file size (some contents)) (.read 64 (some reply) :: es) := by
  intro size' contents' reply' hfd hread
  cases List.mem_cons.mp hread with
  | inl heq =>
    obtain ⟨rfl, -⟩ := Fd.file.inj hfd
    obtain rfl : reply' = reply := by simpa using heq
    exact hreply
  | inr hread => exact h size' contents' reply' hfd hread

include hstate hreads

theorem receive_misread (hlog : w1.log = es ++ w.log) (hes : Unanswered (.file size (some contents)) es)
    (h : Misread env w size)
    : wp (receive env size (env.fresh w.reads))
        (fun r w' => r = true ∧ ∃ es, w'.log = es ++ w.log ∧ Unanswered (.file size (some contents)) es)
        (fun _ => False) w1 := by
  unfold receive
  rw [wp_bind]
  cases h with
  | stale hread hstale =>
    apply wp_mono (usbRead_failed hstate (hreads ▸ hread)) _ (fun _ => id)
    rintro r w' ⟨rfl, hlog'⟩
    simp only [Bool.false_and, Bool.false_eq_true, ↓reduceIte, hstale, ne_eq, not_true_eq_false, wp_pure, true_and]
    refine ⟨[.state .error, .read 64 none] ++ es, ?_, ?_⟩
    . rw [hlog', hlog, List.append_assoc]
    . exact hes.append (by simp [NoRead])
  | lenient packet hread hreply hvalue hnot =>
    obtain ⟨hlength, htake⟩ := take_reply packet
    apply wp_mono (usbRead_packet hstate (hreads ▸ hread)) _ (fun _ => id)
    rintro r w' ⟨rfl, rfl⟩
    have hlong : ¬ (packet.take 64).length < offset := by omega
    simp only [Bool.true_and, hlong, decide_false, Bool.false_eq_true, ↓reduceIte, answer_reply _ (hlength.mpr hreply),
      htake, hvalue, ne_eq, not_true_eq_false, wp_pure, true_and]
    refine ⟨.read 64 (some (packet.take 64)) :: es, ?_, ?_⟩
    . rw [afterRead_log hread hreads, hlog, List.cons_append]
    . apply unanswered_read hes
      intro _
      rw [htake]
      exact hnot

theorem receive_reports
    (hlog : w1.log = sent env size contents ++ w.log)
    (hwhole : (contents.take (env.downloadMax - offset)).length = size) (hnot : ¬ Misread env w size)
    : wp (receive env size (env.fresh w.reads))
        (fun r w' => ∃ es, w'.log = es ++ w.log ∧ (r = true ↔ Confirmed (.file size (some contents)) es))
        (Refused (.file size (some contents)) w) w1 := by
  have hes := unanswered_sent env size contents
  have hreports : ∀ r w', r = false ∧ Refused (.file size (some contents)) w w'
      → ∃ es, w'.log = es ++ w.log ∧ (r = true ↔ Confirmed (.file size (some contents)) es) := by
    rintro r w' ⟨rfl, es, _, hes, _, hno⟩
    exact ⟨es, hes, by simp [hno]⟩
  unfold receive
  rw [wp_bind]
  cases hread : env.read w.reads with
  | none =>
    have hstale : size ≠ strtou 32 16 (answer (env.fresh w.reads) []) := fun h => hnot (.stale hread h.symm)
    apply wp_mono (usbRead_failed hstate (hreads ▸ hread)) _ (fun _ => False.elim)
    rintro r w' ⟨rfl, hlog'⟩
    simp only [Bool.false_and, Bool.false_eq_true, ↓reduceIte, hstale, ne_eq, not_false_eq_true]
    have hlog'' : w'.log = ([.state .error, .read 64 none] ++ sent env size contents) ++ w.log := by
      rw [hlog', hlog, ← List.append_assoc]
    exact wp_mono (refused hlog'' (hes.append (by simp [NoRead])) _) hreports (fun _ => id)
  | some packet =>
    obtain ⟨hlength, htake⟩ := take_reply packet
    apply wp_mono (usbRead_packet hstate (hreads ▸ hread)) _ (fun _ => False.elim)
    rintro r w' ⟨rfl, rfl⟩
    have hlog' := afterRead_log hread hreads
    rw [hlog, ← List.cons_append] at hlog'
    simp only [Bool.true_and, decide_eq_true_eq]
    split
    . next hshort =>
      have hun := unanswered_read hes (packet.take 64) (fun hlong => absurd hlong (by omega))
      exact wp_mono (refused hlog' hun _) hreports (fun _ => id)
    next hlong =>
    have hreply : offset ≤ (packet.take 64).length := by omega
    rw [answer_reply _ hreply, htake]
    split
    . next hvalue =>
      have hun := unanswered_read hes (packet.take 64) (fun _ hhex => hvalue (htake ▸ hhex.strtou_eq).symm)
      exact wp_mono (refused hlog' hun _) hreports (fun _ => id)
    next hvalue =>
    have hhex : IsHex8 ((packet.take offset).drop 4) size := by
      apply Classical.byContradiction
      intro hno
      exact hnot (.lenient packet hread (hlength.mp hreply) (by simpa using Eq.symm (Classical.not_not.mp hvalue)) hno)
    refine ⟨_, hlog', ?_⟩
    have hdone := confirmed hwhole hreply (htake ▸ hhex) [] [.call (.pullFile (.file size (some contents)))]
    exact iff_of_true rfl hdone

end Receive

theorem sends_not_misread {size : Nat} {contents : Bytes} (hmax : offset < env.downloadMax)
    (hsends : Sends env w size contents) (h : ReportsConfirmed env (.file size (some contents)) w)
    : ¬ Misread env w size := by
  intro hmisread
  have hwrong : wp (pullFile env (.file size (some contents)))
      (fun r w' => r = true ∧ ∃ es, w'.log = es ++ w.log ∧ Unanswered (.file size (some contents)) es)
      (fun _ => False) w := by
    apply sends_wp hmax hsends
    intro w1 hstate hreads hlog
    exact receive_misread (hstate ▸ hsends.state) hreads hlog (unanswered_sent env size contents) hmisread
  have hboth : wp (pullFile env (.file size (some contents))) (fun _ _ => False) (fun _ => False) w := by
    apply wp_mono (wp_and h hwrong)
    . rintro r w' ⟨⟨es, hes, hiff⟩, hr, es', hes', hun⟩
      obtain rfl : es = es' := List.append_cancel_right (hes.symm.trans hes')
      exact hun.not_confirmed (hiff.mp hr)
    . rintro w' ⟨_, hfalse⟩
      exact hfalse
  exact (wp_const _).mp hboth

end Pull

namespace Pull

def confirmingHost : Env :=
  { hostOf [str "FILE00000001"] with downloadMax := 1048576, downloadMax_lt := by decide }

def emptyArea : Env :=
  { hostOf [] with downloadMax := 0, downloadMax_lt := Nat.two_pow_pos 32 }

def silentHost : Env :=
  { hostOf [] with
    fresh := fun _ => str "FILE00000001"
    downloadMax := 1048576
    downloadMax_lt := by decide }

def world : World :=
  ⟨.command, [], 0, 0, 0, 0, []⟩

end Pull

end Fastboot
