import Tboot.Fastboot.Lemmas.Transfer

/-!
This module contains what becomes of `STATE_ERROR`: it lasts until the loop is left, unless a handler
ends its command with `fastboot_okay` or `fastboot_fail` in it.
-/

open Proc History

namespace Fastboot

def lastState : List Event → FbState
  | [] => .offline
  | .state s :: _ => s
  | _ :: older => lastState older

def StickyAt (e : Event) (older : List Event) : Prop :=
  match e with
  | .state s => lastState older = .error → s = .error ∨ s = .offline
  | .await => lastState older ≠ .error
  | _ => True

instance (e : Event) (older : List Event) : Decidable (StickyAt e older) :=
  match e with
  | .state s => inferInstanceAs (Decidable (lastState older = .error → s = .error ∨ s = .offline))
  | .await => inferInstanceAs (Decidable (lastState older ≠ .error))
  | .read _ _ | .wrote _ _ | .call _ | .handle _ | .download | .oem _ | .textbar _ | .outside _ _ | .halt _ =>
    .isTrue trivial

abbrev Sticky (log : List Event) : Prop :=
  Always StickyAt log

def inEnd : List Event → Bool
  | [] => false
  | .call (.okay _) :: _ => true
  | .call (.fail _) :: _ => true
  | .state .complete :: _ => false
  | _ :: older => inEnd older

/-- No command is ended in `STATE_ERROR`, and no `write` fails while a command is ended. -/
def CleanAt (e : Event) (older : List Event) : Prop :=
  match e with
  | .call (.okay _) => lastState older ≠ .error
  | .call (.fail _) => lastState older ≠ .error
  | .wrote _ none => inEnd older = false
  | _ => True

instance (e : Event) (older : List Event) : Decidable (CleanAt e older) := by
  unfold CleanAt
  split
  all_goals infer_instance

abbrev Clean (log : List Event) : Prop :=
  Always CleanAt log

namespace Sticky

structure Inv (w : World) : Prop where
  state : w.state = lastState w.log
  sticky : Clean w.log → Sticky w.log

structure Ending (w : World) : Prop extends Inv w where
  within : inEnd w.log = true
  noError : Clean w.log → w.state ≠ .error

variable {env : Env}

theorem inv_emit {e : Event} {w w' : World} (h : Inv w) (hstate : w'.state = w.state)
    (hlog : w'.log = e :: w.log) (hlast : lastState (e :: w.log) = lastState w.log)
    (hsticky : StickyAt e w.log) : Inv w' := by
  constructor
  . rw [hstate, hlog, hlast]
    exact h.state
  . rw [hlog]
    rintro ⟨_, hclean⟩
    exact ⟨hsticky, h.sticky hclean⟩

theorem inv_setState {s : FbState} {w : World} (h : Inv w)
    (hs : Clean w.log → StickyAt (.state s) w.log)
    : Inv { w with state := s, log := .state s :: w.log } := by
  constructor
  . rfl
  . rintro ⟨_, hclean⟩
    exact ⟨hs hclean, h.sticky hclean⟩

theorem inv_congr {w w' : World} (h : Inv w) (hstate : w'.state = w.state) (hlog : w'.log = w.log)
    : Inv w' := by
  constructor
  . rw [hstate, hlog]
    exact h.state
  . rw [hlog]
    exact h.sticky

theorem inv_keptByIo : KeptByIo env Inv := by
  refine ⟨⟨?_, ?_⟩, ?_⟩
  . intro xfer w h
    exact inv_emit h rfl rfl rfl trivial
  . intro w h
    exact inv_setState h (fun _ _ => Or.inl rfl)
  . intro packet w h
    exact inv_emit h rfl rfl rfl trivial

theorem ending_usbWrite (packet : Packet) : Keeps Ending (usbWrite env packet) := by
  intro w h
  unfold usbWrite
  simp only [wp_bind, wp_get]
  split
  . next herror =>
    have hunclean : ¬Clean w.log := fun hclean => h.noError hclean herror
    refine ⟨inv_setState h.toInv (fun _ _ => Or.inl rfl), h.within, ?_⟩
    rintro ⟨_, hclean⟩
    contradiction
  . simp only [sysWrite, wp_bind, wp_get, wp_set, wp_pure]
    have hinv : Inv { w with
        writes := w.writes + 1
        log := .wrote packet ((env.write w.writes).map (min packet.bytes.length)) :: w.log } :=
      inv_emit h.toInv rfl rfl rfl trivial
    split
    . next hfail =>
      refine ⟨inv_setState hinv (fun _ _ => Or.inl rfl), h.within, ?_⟩
      rintro ⟨_, hwrote, _⟩
      rw [hfail] at hwrote
      have hwithin := h.within
      rw [hwrote] at hwithin
      contradiction
    . refine ⟨hinv, h.within, ?_⟩
      rintro ⟨_, hclean⟩
      exact h.noError hclean

theorem inv_end {code : Code} {call : Api} (text : Bytes) (hcall : call = .okay text ∨ call = .fail text)
    : Keeps Inv (do emit (.call call); fastbootAck env code text; setState .complete) := by
  intro w h
  simp only [emit, wp_bind, wp_modify]
  have hending : Ending { w with log := .call call :: w.log } := by
    refine ⟨inv_emit h rfl rfl rfl trivial, ?_, ?_⟩
    . cases hcall with
      | inl heq => rw [heq]; rfl
      | inr heq => rw [heq]; rfl
    . rintro ⟨hcleanAt, _⟩
      have hstate := h.state
      cases hcall with
      | inl heq =>
        rw [heq] at hcleanAt
        exact hstate ▸ hcleanAt
      | inr heq =>
        rw [heq] at hcleanAt
        exact hstate ▸ hcleanAt
  apply wp_mono (fastbootAck_keeps (fun _ => ending_usbWrite _) text _ hending)
  . intro _ w' h'
    -- `STATE_COMPLETE` would overwrite `STATE_ERROR`, which is not there in a clean log.
    apply inv_setState h'.toInv
    intro hclean herror
    exact absurd (h'.state.trans herror) (h'.noError hclean)
  . intro w' h'
    exact h'.toInv

theorem inv_neutral {e : Event} (hstate : ∀ s, e ≠ .state s) (hawait : e ≠ .await)
    : Keeps Inv (emit e) := by
  intro w h
  have hlast : lastState (e :: w.log) = lastState w.log := by
    cases e
    all_goals first | rfl | simp_all
  have hsticky : StickyAt e w.log := by
    cases e
    all_goals first | trivial | simp_all
  have hinv : Inv { w with log := e :: w.log } := inv_emit h rfl rfl hlast hsticky
  exact hinv

theorem inv_passive (e : Event) (he : e.Passive) : Keeps Inv (emit e) := by
  apply inv_neutral
  . rintro s rfl
    exact he
  . rintro rfl
    exact he

theorem inv_store (offset : Nat) (bytes : Bytes) : Keeps Inv (store offset bytes) :=
  fun _ h => inv_congr h rfl rfl

theorem inv_size (n : Nat) : Keeps Inv (setDownloadSize n) :=
  fun _ h => inv_congr h rfl rfl

theorem inv_fail (text : Bytes) : Keeps Inv (fastbootFail env text) :=
  inv_end text (Or.inr rfl)

theorem inv_okay (text : Bytes) : Keeps Inv (fastbootOkay env text) :=
  inv_end text (Or.inl rfl)

theorem inv_cmdDownload (arg : Bytes) : Keeps Inv (cmdDownload env arg) :=
  inv_keptByIo.cmdDownload inv_passive inv_store inv_size inv_fail (inv_neutral (by simp) (by simp)) inv_okay arg

theorem inv_keptByParts : KeptByParts env Inv where
  read := inv_keptByIo.usbRead
  write := fun packet _ => inv_keptByIo.usbWrite packet
  emit := inv_passive
  outside := fun _ _ h => inv_emit h rfl rfl rfl trivial
  info := fun _ => inv_keptByIo.fastbootInfo (inv_neutral (by simp) (by simp))
  okay := inv_okay
  fail := inv_fail
  downloadTo := inv_keptByIo.downloadTo inv_passive inv_store inv_fail
  pullFile := pullFile_keeps inv_passive inv_store inv_size inv_fail
    (fun _ => inv_keptByIo.usbWrite _) (inv_keptByIo.usbRead 64)

theorem inv_commandLoop (cmdlist : List Cmd) : Keeps Inv (commandLoop env cmdlist) := by
  intro w h
  have hread (hno : w.state ≠ .error)
      : wp (usbRead env 64) (fun r w' => Inv w' ∧ (r.1 = true → w'.state ≠ .error)) Inv
          { w with log := .await :: w.log } := by
    have hawait : Inv { w with log := .await :: w.log } := by
      refine inv_emit h rfl rfl rfl ?_
      change lastState w.log ≠ .error
      rw [← h.state]
      exact hno
    apply wp_mono (wp_and (usbRead_spec env 64 _) (inv_keptByIo.usbRead 64 _ hawait))
    . rintro ⟨ok, packet⟩ w1 ⟨⟨es, hreceived⟩, hinv⟩
      refine ⟨hinv, ?_⟩
      rintro rfl
      have hstate : w1.state = w.state := hreceived.state
      rwa [hstate]
    . rintro w1 ⟨_, hinv⟩
      exact hinv
  apply commandLoop_spec (fun _ => inv_setState h (fun _ _ => Or.inr rfl)) hread
  . rintro packet w1 ⟨hinv, _⟩
    exact inv_setState hinv (fun _ _ => Or.inr rfl)
  . rintro packet w1 ⟨hinv, hno⟩
    apply inv_keptByParts.dispatch (fun _ => inv_neutral (by simp) (by simp))
      (fun _ => inv_neutral (by simp) (by simp)) (fun _ => inv_neutral (by simp) (by simp)) inv_cmdDownload
    apply inv_setState hinv
    intro _ herror
    exact absurd (hinv.state.trans herror) (hno rfl)

end Sticky

/--
In every run in which no command is ended in `STATE_ERROR` and no `write` fails while a command is ended,
`STATE_ERROR` lasts until the loop is left, and no command is read before.
-/
theorem sticky_of_clean {env : Env} {cmdlist : List Cmd} {base : Bytes} {s : Server}
    (h : Serves env cmdlist base s) (hclean : Clean s.world.log) : Sticky s.world.log := by
  have hinv : Sticky.Inv s.world := by
    apply serves_invariant _ (Sticky.inv_commandLoop cmdlist) h
    exact ⟨rfl, fun _ => trivial⟩
  exact hinv.sticky hclean

def stoppingHost : Env :=
  hostOf [str "download:00000004", str "ab", str "getvar:fastboot"]

theorem stoppingHost_sticky
    : ∃ s, Serves stoppingHost (initCmds [] []) (List.replicate 8 0) s
        ∧ [.state .command, .read 64 (some (str "getvar:fastboot")), .await, .state .offline, .state .error]
          <:+: s.world.log
        ∧ Clean s.world.log ∧ Sticky s.world.log := by
  have hrun : (System.run (serve stoppingHost (initCmds [] [])) (start (List.replicate 8 0)) [(), (), ()]).any
      (fun s => [.state .command, .read 64 (some (str "getvar:fastboot")), .await, .state .offline, .state .error]
          <:+: s.world.log ∧ Clean s.world.log) = true := by
    decide +kernel
  obtain ⟨s, hs, herror, hclean⟩ := System.Reaches.exists_of_run (fun _ _ _ => trivial) hrun
  exact ⟨s, hs, herror, hclean, sticky_of_clean hs hclean⟩

def askingHost (count : Option Nat) : Env :=
  { hostOf [str "getvar:fastboot", str "getvar:fastboot"] with write := fun _ => count }

theorem askingHost_notSticky
    : ∃ s, Serves (askingHost none) (initCmds [] []) [] s ∧ ¬Sticky s.world.log := by
  have hrun : (System.run (serve (askingHost none) (initCmds [] [])) (start []) [(), ()]).any
      (fun s => ¬Sticky s.world.log) = true := by
    decide +kernel
  exact System.Reaches.exists_of_run (fun _ _ _ => trivial) hrun

end Fastboot
