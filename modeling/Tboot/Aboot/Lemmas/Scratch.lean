import Tboot.Aboot.Impl.Oem
import Tboot.Fastboot.Lemmas.Transfer

/-!
This module contains what the scratch area holds between commands: the payload of the last `download:`
command, as long as nothing else is stored over it.
-/

open Proc History

namespace Aboot

open Fastboot

/-- What is known of the payload: what a `download:` that has not ended has got, and the last whole one -/
structure Payload where
  attempt : Option Bytes
  last : Bytes
  deriving DecidableEq, Repr

attribute [ext] Payload

def Payload.after (p : Payload) : Event → Payload
  | .download => ⟨some [], []⟩
  | .read _ (some bytes) => { p with attempt := p.attempt.map (· ++ bytes) }
  | .call (.okay _) =>
    match p.attempt with
    | none => p
    | some got => ⟨none, got⟩
  | .await => { p with attempt := none }
  | _ => p

def payload : List Event → Payload
  | [] => ⟨none, []⟩
  | e :: older => (payload older).after e

def Held (w : World) : Prop :=
  w.downloadSize = (payload w.log).last.length
    ∧ w.downloadBase.take w.downloadSize = (payload w.log).last

instance (w : World) : Decidable (Held w) :=
  inferInstanceAs (Decidable (_ ∧ _))

/--
`download_to` and `pull_file` are only called when they refuse what they are asked for, or when there is
no payload, which `pull_file` must then leave so.
-/
def CarefulAt (env : Env) (e : Event) (older : List Event) : Prop :=
  match e with
  | .call (.downloadTo size) => size > env.downloadMax ∨ (payload older).last = []
  | .call (.pullFile (.file size contents)) =>
    let room := u32 (env.downloadMax + 2 ^ 32 - pullFile.offset)
    size > room
      ∨ ((payload older).last = [] ∧ (contents.map (List.take room)).map List.length ≠ some size)
  | _ => True

instance (env : Env) (e : Event) (older : List Event) : Decidable (CarefulAt env e older) := by
  unfold CarefulAt
  split
  all_goals infer_instance

abbrev Careful (env : Env) (log : List Event) : Prop :=
  Always (CarefulAt env) log

namespace Scratch

section Payload

variable {p : Payload} {e : Event}

theorem after_idle (hp : p.attempt = none) (he : e ≠ .download) : p.after e = p := by
  obtain ⟨attempt, last⟩ := p
  simp only at hp
  subst hp
  unfold Payload.after
  split
  all_goals simp_all

theorem after_last (he : e ≠ .download) (hokay : ∀ text, e ≠ .call (.okay text))
    : (p.after e).last = p.last := by
  unfold Payload.after
  split
  all_goals simp_all

theorem payload_transfer {es older : List Event} {got last : Bytes}
    (h : payload older = ⟨some got, last⟩) (hes : ∀ e ∈ es, e.OfTransfer)
    : payload (es ++ older) = ⟨some (got ++ dataOf es), last⟩ := by
  induction es with
  | nil => simpa [dataOf] using h
  | cons e es ih =>
    have htail := ih (fun e he => hes e (by simp [he]))
    have he := hes e (by simp)
    rw [List.cons_append, payload, htail, dataOf, ← List.append_assoc]
    cases e with
    | read xfer bytes =>
      cases bytes with
      | none => simp [Payload.after, Event.data]
      | some bytes => rfl
    | textbar percent => simp [Payload.after, Event.data]
    | state s => simp [Payload.after, Event.data]
    | _ => exact he.elim

end Payload

structure Between (env : Env) (w : World) : Prop where
  room : env.downloadMax ≤ w.downloadBase.length
  held : Careful env w.log → Held w

structure Inv (env : Env) (w : World) : Prop extends Between env w where
  idle : Careful env w.log → (payload w.log).attempt = none

structure Vacant (env : Env) (w : World) : Prop where
  room : env.downloadMax ≤ w.downloadBase.length
  vacant : Careful env w.log → payload w.log = ⟨none, []⟩ ∧ w.downloadSize = 0

variable {env : Env}

theorem Inv.vacant {w : World} (h : Inv env w) (hlast : Careful env w.log → (payload w.log).last = [])
    : Vacant env w := by
  refine ⟨h.room, ?_⟩
  intro hcareful
  refine ⟨Payload.ext (h.idle hcareful) (hlast hcareful), ?_⟩
  rw [(h.held hcareful).1, hlast hcareful]
  rfl

theorem Vacant.inv {w : World} (h : Vacant env w) : Inv env w := by
  refine ⟨⟨h.room, ?_⟩, ?_⟩
  . intro hcareful
    obtain ⟨hpayload, hsize⟩ := h.vacant hcareful
    simp [Held, hpayload, hsize]
  . intro hcareful
    rw [(h.vacant hcareful).1]

/-! ### Steps -/

section Step

variable {w w' : World} {e : Event}

theorem Between.step (h : Between env w) (hlog : w'.log = e :: w.log)
    (hbase : w'.downloadBase = w.downloadBase) (hsize : w'.downloadSize = w.downloadSize)
    (he : e ≠ .download) (hokay : ∀ text, e ≠ .call (.okay text)) : Between env w' := by
  refine ⟨hbase ▸ h.room, ?_⟩
  rw [hlog]
  rintro ⟨_, hcareful⟩
  have hheld := h.held hcareful
  have hlast : (payload (e :: w.log)).last = (payload w.log).last := after_last he hokay
  unfold Held at hheld ⊢
  rw [hbase, hsize, hlog, hlast]
  exact hheld

theorem Inv.step (h : Inv env w) (hlog : w'.log = e :: w.log)
    (hbase : w'.downloadBase = w.downloadBase) (hsize : w'.downloadSize = w.downloadSize)
    (he : e ≠ .download) : Inv env w' := by
  have hpayload (hcareful : Careful env w.log) : payload (e :: w.log) = payload w.log :=
    after_idle (h.idle hcareful) he
  refine ⟨⟨hbase ▸ h.room, ?_⟩, ?_⟩
  . rw [hlog]
    rintro ⟨_, hcareful⟩
    have hheld := h.held hcareful
    unfold Held at hheld ⊢
    rw [hbase, hsize, hlog, hpayload hcareful]
    exact hheld
  . rw [hlog]
    rintro ⟨_, hcareful⟩
    rw [hpayload hcareful]
    exact h.idle hcareful

theorem Vacant.step (h : Vacant env w) (hlog : w'.log = e :: w.log)
    (hbase : w.downloadBase.length ≤ w'.downloadBase.length)
    (hsize : w'.downloadSize = w.downloadSize) (he : e ≠ .download) : Vacant env w' := by
  refine ⟨Nat.le_trans h.room hbase, ?_⟩
  rw [hlog, hsize]
  rintro ⟨_, hcareful⟩
  obtain ⟨hpayload, hzero⟩ := h.vacant hcareful
  refine ⟨?_, hzero⟩
  rw [payload, hpayload]
  exact after_idle rfl he

end Step

theorem between_keptByIo : KeptByIo env (Between env) where
  read := fun _ _ h => h.step rfl rfl rfl (by simp) (by simp)
  error := fun _ h => h.step rfl rfl rfl (by simp) (by simp)
  write := fun _ _ h => h.step rfl rfl rfl (by simp) (by simp)

theorem inv_keptByIo : KeptByIo env (Inv env) where
  read := fun _ _ h => h.step rfl rfl rfl (by simp)
  error := fun _ h => h.step rfl rfl rfl (by simp)
  write := fun _ _ h => h.step rfl rfl rfl (by simp)

theorem vacant_keptByIo : KeptByIo env (Vacant env) where
  read := fun _ _ h => h.step rfl (Nat.le_refl _) rfl (by simp)
  error := fun _ h => h.step rfl (Nat.le_refl _) rfl (by simp)
  write := fun _ _ h => h.step rfl (Nat.le_refl _) rfl (by simp)

theorem between_fail (text : Bytes) : Keeps (Between env) (fastbootFail env text) :=
  between_keptByIo.fastbootFail (fun _ h => h.step rfl rfl rfl (by simp) (by simp))
    (fun _ h => h.step rfl rfl rfl (by simp) (by simp))

theorem inv_emit {e : Event} (he : e ≠ .download) : Keeps (Inv env) (emit e) :=
  fun _ h => h.step rfl rfl rfl he

theorem inv_fail (text : Bytes) : Keeps (Inv env) (fastbootFail env text) :=
  inv_keptByIo.fastbootFail (fun _ h => h.step rfl rfl rfl (by simp)) (inv_emit (by simp))

theorem vacant_emit {e : Event} (he : e ≠ .download) : Keeps (Vacant env) (emit e) :=
  fun _ h => h.step rfl (Nat.le_refl _) rfl he

theorem vacant_fail (text : Bytes) : Keeps (Vacant env) (fastbootFail env text) :=
  vacant_keptByIo.fastbootFail (fun _ h => h.step rfl (Nat.le_refl _) rfl (by simp))
    (vacant_emit (by simp))

theorem vacant_store (offset : Nat) (bytes : Bytes) : Keeps (Vacant env) (store offset bytes) :=
  fun _ h => ⟨Nat.le_trans h.room (store_room _ _ _), h.vacant⟩

theorem vacant_usbReadProgress (len : Nat) : Keeps (Vacant env) (usbReadProgress env len) :=
  vacant_keptByIo.usbReadProgress vacant_store (fun _ => vacant_emit (by simp)) len

/-! ### Transfers to and from the scratch area -/

theorem downloadTo_inv (size : Nat) : Keeps (Inv env) (downloadTo env size) := by
  intro w h
  unfold downloadTo
  simp only [emit, wp_bind, wp_modify]
  have hcall : Inv env { w with log := .call (.downloadTo size) :: w.log } :=
    h.step rfl rfl rfl (by simp)
  split
  . exact failWith_keeps inv_fail _ _ _ hcall
  . next hsize =>
    have hvacant : Vacant env { w with log := .call (.downloadTo size) :: w.log } := by
      apply hcall.vacant
      rintro ⟨hat, hcareful⟩
      rw [payload, after_idle (h.idle hcareful) (by simp)]
      exact hat.resolve_left hsize
    simp only [wp_bind]
    apply wp_mono (vacant_keptByIo.responseData size _ hvacant) _ (fun _ => Vacant.inv)
    intro sent w1 h1
    split
    . exact h1.inv
    . simp only [wp_bind]
      apply wp_mono (vacant_usbReadProgress size w1 h1) _ (fun _ => Vacant.inv)
      intro r w2 h2
      split
      . exact (vacant_keptByIo.error w2 h2).inv
      . exact h2.inv

structure Spoilt (env : Env) (w : World) : Prop where
  room : env.downloadMax ≤ w.downloadBase.length
  careless : ¬Careful env w.log

theorem Spoilt.inv {w : World} (h : Spoilt env w) : Inv env w :=
  ⟨⟨h.room, fun hcareful => absurd hcareful h.careless⟩, fun hcareful => absurd hcareful h.careless⟩

theorem Spoilt.step {w w' : World} {e : Event} (h : Spoilt env w) (hlog : w'.log = e :: w.log)
    (hbase : w'.downloadBase = w.downloadBase) : Spoilt env w' := by
  refine ⟨hbase ▸ h.room, ?_⟩
  rw [hlog]
  rintro ⟨_, hcareful⟩
  exact h.careless hcareful

theorem spoilt_keptByIo : KeptByIo env (Spoilt env) where
  read := fun _ _ h => h.step rfl rfl
  error := fun _ h => h.step rfl rfl
  write := fun _ _ h => h.step rfl rfl

theorem spoilt_send (size : Nat) : Keeps (Spoilt env) (pullFile.send env size) := by
  apply pullFile_send_keeps
  . exact fun _ => spoilt_keptByIo.fastbootFail (fun _ h => h.step rfl rfl) (fun _ h => h.step rfl rfl)
  . exact fun _ h => ⟨h.room, h.careless⟩
  . exact fun _ => spoilt_keptByIo.usbWrite _
  . exact spoilt_keptByIo.usbRead 64

theorem pullFile_inv (fd : Fd) : Keeps (Inv env) (pullFile env fd) := by
  intro w h
  unfold pullFile pullFile.body
  simp only [emit, wp_bind, wp_modify]
  have hcall : Inv env { w with log := .call (.pullFile fd) :: w.log } := h.step rfl rfl rfl (by simp)
  cases fd with
  | invalid => exact failWith_keeps inv_fail _ _ _ hcall
  | cannotStat => exact failWith_keeps inv_fail _ _ _ hcall
  | file size contents =>
    dsimp only
    split
    . exact failWith_keeps inv_fail _ _ _ hcall
    . next hroom =>
      have hvacant : Vacant env { w with log := .call (.pullFile (.file size contents)) :: w.log } := by
        refine hcall.vacant ?_
        rintro ⟨hat, hcareful⟩
        rw [payload, after_idle (h.idle hcareful) (by simp)]
        exact (hat.resolve_left hroom).1
      simp only [wp_bind, store, wp_modify]
      have hheader (bytes : Bytes) := vacant_store 0 bytes _ hvacant
      split
      . exact wp_mono (failWith_keeps vacant_fail _ _ _ (hheader _)) (fun _ _ => Vacant.inv)
          (fun _ => Vacant.inv)
      . simp only [wp_bind, wp_modify]
        have hcontents (bytes bytes' : Bytes) := vacant_store pullFile.offset bytes' _ (hheader bytes)
        split
        . exact wp_mono (failWith_keeps vacant_fail _ _ _ (hcontents _ _)) (fun _ _ => Vacant.inv)
            (fun _ => Vacant.inv)
        . next hmatch =>
          -- The file is sent: nothing but a careless call leads here.
          have hcareless (hcareful : Careful env (.call (.pullFile (.file size contents)) :: w.log)) : False :=
            hmatch (hcareful.1.resolve_left hroom).2
          exact wp_mono (spoilt_send size _ ⟨(hcontents _ _).room, hcareless⟩) (fun _ _ => Spoilt.inv)
            (fun _ => Spoilt.inv)

/-! ### `download:` -/

structure Loading (env : Env) (got : Bytes) (w : World) : Prop where
  room : env.downloadMax ≤ w.downloadBase.length
  payload : payload w.log = ⟨some got, []⟩
  size : w.downloadSize = 0

theorem Loading.between {got : Bytes} {w : World} (h : Loading env got w) : Between env w := by
  refine ⟨h.room, ?_⟩
  intro _
  simp [Held, h.payload, h.size]

theorem loading_responseData {got : Bytes} (len : Nat) {w : World} (h : Loading env got w)
    : wp (responseData env len) (fun _ => Loading env got) (fun _ => False) w := by
  unfold responseData
  simp only [wp_bind, wp_pure]
  apply wp_mono (usbWrite_spec env (.data len) w) _ (fun _ => id)
  intro r w' hwritten
  cases hwritten
  all_goals
    refine ⟨h.room, ?_, h.size⟩
    simp [Aboot.payload, h.payload, Payload.after]

theorem loading_usbReadProgress (hmax : env.downloadMax < 2 ^ 31) {len : Nat}
    (hlen : len ≤ env.downloadMax) {w : World} (h : Loading env [] w)
    : wp (usbReadProgress env len)
        (fun r w' => ∃ got, Loading env got w' ∧ (r = len → got.length = len ∧ w'.downloadBase.take len = got))
        (fun _ => False) w := by
  have hroom := h.room
  apply wp_mono (usbReadProgress_filled (by omega) (by omega)) _ (fun _ => id)
  rintro r w' ⟨es, hfilled⟩
  refine ⟨dataOf es, ⟨Nat.le_trans hroom hfilled.room, ?_, ?_⟩, ?_⟩
  . rw [hfilled.log]
    exact payload_transfer h.payload hfilled.events
  . rw [hfilled.size]
    exact h.size
  . intro hr
    obtain ⟨_, hcount, hbase⟩ := hfilled.done hr
    exact ⟨hcount, hbase⟩

theorem loading_okay {got : Bytes} {w : World} (h : Loading env got w)
    (hbase : w.downloadBase.take got.length = got)
    : wp (do setDownloadSize got.length; fastbootOkay env []) (fun _ => Between env) (Between env) w := by
  unfold fastbootOkay
  simp only [setDownloadSize, emit, wp_bind, wp_modify]
  have hheld : Between env { w with downloadSize := got.length, log := .call (.okay []) :: w.log } := by
    refine ⟨h.room, ?_⟩
    intro _
    simp [Held, Aboot.payload, h.payload, Payload.after, hbase]
  apply wp_mono (between_keptByIo.fastbootAck .okay [] _ hheld) _ (fun _ => id)
  intro _ w' h'
  exact h'.step rfl rfl rfl (by simp) (by simp)

theorem cmdDownload_spec (hmax : env.downloadMax < 2 ^ 31) (arg : Bytes) {w : World} (h : Inv env w)
    : wp (cmdDownload env arg) (fun _ => Between env) (Between env) w := by
  unfold cmdDownload
  simp only [emit, setDownloadSize, wp_bind, wp_modify]
  generalize strtou 32 16 arg = len
  have hstart : Loading env [] { w with downloadSize := 0, log := .download :: w.log } :=
    ⟨h.room, rfl, rfl⟩
  split
  . exact failWith_keeps between_fail _ _ _ hstart.between
  . next hlen =>
    simp only [wp_bind]
    apply wp_mono (loading_responseData len hstart) _ (fun _ => False.elim)
    intro sent w1 h1
    split
    . exact h1.between
    . simp only [wp_bind]
      apply wp_mono (loading_usbReadProgress hmax (by omega) h1) _ (fun _ => False.elim)
      rintro r w2 ⟨got, h2, hdone⟩
      split
      . exact between_keptByIo.error w2 h2.between
      . next hr =>
        have hr : r = len := by omega
        obtain ⟨hcount, hbase⟩ := hdone hr
        rw [← hcount] at hbase ⊢
        exact loading_okay h2 hbase

/-! ### The loop -/

theorem inv_keptByParts : KeptByParts env (Inv env) where
  read := inv_keptByIo.usbRead
  write := fun packet _ => inv_keptByIo.usbWrite packet
  emit := fun e he => inv_emit (fun heq => by simp [heq, Event.Passive] at he)
  outside := fun _ _ h => h.step rfl rfl rfl (by simp)
  info := fun _ => inv_keptByIo.fastbootInfo (inv_emit (by simp))
  okay := fun _ => inv_keptByIo.fastbootOkay (fun _ h => h.step rfl rfl rfl (by simp)) (inv_emit (by simp))
  fail := inv_fail
  downloadTo := downloadTo_inv
  pullFile := pullFile_inv

theorem inv_program (p : HProg Unit) : Keeps (Inv env) (p.interp (runOp env)) :=
  inv_keptByParts.program (Prog.only_true p) (fun _ _ => inv_emit (by simp)) (fun _ _ => inv_emit (by simp))

theorem commandLoop_between (hmax : env.downloadMax < 2 ^ 31) (cmdlist : List Cmd)
    : Keeps (Between env) (commandLoop env cmdlist) := by
  intro w h
  have hawait : Inv env { w with log := .await :: w.log } :=
    ⟨h.step rfl rfl rfl (by simp) (by simp), fun _ => rfl⟩
  apply commandLoop_spec (fun _ => h.step rfl rfl rfl (by simp) (by simp))
    (fun _ => wp_mono (inv_keptByIo.usbRead 64 _ hawait) (fun _ _ => id) (fun _ => Inv.toBetween))
  . intro packet w1 h1
    exact h1.toBetween.step rfl rfl rfl (by simp) (by simp)
  . intro packet w1 h1
    have hcommand : Inv env { w1 with state := .command, log := .state .command :: w1.log } :=
      h1.step rfl rfl rfl (by simp)
    apply dispatch_spec (fun text => between_fail text _ hcommand.toBetween)
      (fun text w' _ => between_fail text w')
    intro cmd _ _ _
    rw [wp_bind]
    apply wp_mono (inv_emit (by simp) _ hcommand) _ (fun _ => Inv.toBetween)
    intro _ w2 h2
    cases cmd.handle with
    | program run =>
      exact wp_mono (inv_program _ w2 h2) (fun _ _ => Inv.toBetween) (fun _ => Inv.toBetween)
    | download => exact cmdDownload_spec hmax _ h2

end Scratch

/--
In every run in which `download_to` and `pull_file` are called carefully, the scratch area holds the payload
of the last `download:` command whenever the server is between two commands.
-/
theorem held_of_careful {env : Env} {cmdlist : List Cmd} {base : Bytes} {s : Server}
    (hmax : env.downloadMax < 2 ^ 31) (hbase : env.downloadMax ≤ base.length)
    (h : Serves env cmdlist base s) (hcareful : Careful env s.world.log) : Held s.world := by
  have hbetween : Scratch.Between env s.world := by
    apply serves_invariant _ (Scratch.commandLoop_between hmax cmdlist) h
    exact ⟨hbase, fun _ => ⟨rfl, rfl⟩⟩
  exact hbetween.held hcareful

def fwPlugin : Config where
  diskInfo := none
  volumes := []
  flashCmds := [(str "fw", ⟨fun _ => pure true, fun _ => trivial⟩)]
  oemCmds := []
  pushDir := str "/tmp"
  patience := 0

def payloadLast : Env :=
  hostOf [str "flash:fw:00000004", str "BBBB", str "download:00000004", str "AAAA"]

theorem payloadLast_held
    : ∃ s, Serves payloadLast (cmds fwPlugin []) (List.replicate 8 0) s ∧ Careful payloadLast s.world.log
        ∧ .call (.downloadTo 4) ∈ s.world.log ∧ s.world.downloadSize = 4 ∧ Held s.world := by
  have hrun : (System.run (serve payloadLast (cmds fwPlugin [])) (start (List.replicate 8 0)) [(), ()]).any
      (fun s => Careful payloadLast s.world.log ∧ .call (.downloadTo 4) ∈ s.world.log
        ∧ s.world.downloadSize = 4) = true := by
    decide +kernel
  obtain ⟨s, hs, hcareful, hcall, hsize⟩ := System.Reaches.exists_of_run (fun _ _ _ => trivial) hrun
  exact ⟨s, hs, hcareful, hcall, hsize, held_of_careful (by decide) (by decide) hs hcareful⟩

def twoPayloads : Env :=
  hostOf [str "download:00000004", str "AAAA", str "flash:fw:00000004", str "BBBB"]

theorem twoPayloads_notHeld
    : ∃ s, Serves twoPayloads (cmds fwPlugin []) (List.replicate 8 0) s ∧ s.halted = none
        ∧ (payload s.world.log).last = str "AAAA" ∧ s.world.downloadBase.take s.world.downloadSize = str "BBBB"
        ∧ ¬Held s.world := by
  have hrun : (System.run (serve twoPayloads (cmds fwPlugin [])) (start (List.replicate 8 0)) [(), ()]).any
      (fun s => s.halted = none ∧ (payload s.world.log).last = str "AAAA"
        ∧ s.world.downloadBase.take s.world.downloadSize = str "BBBB" ∧ ¬Held s.world) = true := by
    decide +kernel
  exact System.Reaches.exists_of_run (fun _ _ _ => trivial) hrun

end Aboot
