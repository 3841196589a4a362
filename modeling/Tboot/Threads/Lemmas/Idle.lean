import Tboot.Threads.Lemmas.Basic

/-!
This module contains what keeps the idle timer going: whenever the display is not off, an alarm is armed,
its signal is on its way, or the main thread is going to arm it again.
-/

namespace Threads

variable {inp : Input} {s t : State} {a : Act}

def MainPc.resets : MainPc → Bool
  | .lcdInit | .lcdAlarm | .setCommand _ | .clearAlarm _ | .callLcd _ | .setLcd _ _ | .find _
  | .testDisable _ | .disable _ | .battery _ | .lock | .disableKeypress | .callHandler | .handler
  | .enableKeypress | .unlock | .testCommand | .failUnanswered | .resetAlarm => true
  | _ => false

def MainPc.active : MainPc → Bool
  | .clearAlarm _ | .callLcd _ | .setLcd _ _ | .find _ | .testDisable _ | .disable _ | .battery _ | .lock
  | .disableKeypress | .callHandler | .handler | .enableKeypress | .unlock | .testCommand
  | .failUnanswered => true
  | _ => false

theorem MainPc.resets_of_active {pc : MainPc} (h : pc.active = true) : pc.resets = true := by
  unfold active at h
  split at h
  all_goals
    first
      | rfl
      | cases h

def InputPc.lighting : InputPc → Bool
  | .testLcd _ | .callLcd | .setLcd _ => true
  | _ => false

def UeventPc.lighting : UeventPc → Bool
  | .callLcd _ _ | .setLcd _ _ _ => true
  | _ => false

def MainPc.knows (inp : Input) : MainPc → Bool
  | .find buffer => known inp buffer
  | _ => true

def MainPc.refuses (low : Bool) : MainPc → Bool
  | .battery buffer => refused low buffer
  | _ => false

/--
Every packet is a known command and not refused for a low battery, and the alarm does not expire while
another thread is between `RESET_ALARM` and its assignment to `lcd_state`.
-/
def handledInTime (inp : Input) (s : State) : Act → Prop
  | .main => s.main.knows inp = true
  | .battery low => s.main.refuses low = false
  | .expire => s.input.lighting = false ∧ s.uevent.lighting = false
  | _ => True

instance (inp : Input) (s : State) : (a : Act) → Decidable (handledInTime inp s a)
  | .main => inferInstanceAs (Decidable (_ = true))
  | .battery _ => inferInstanceAs (Decidable (_ = false))
  | .expire => inferInstanceAs (Decidable (_ ∧ _))
  | .opened _ | .packet _ | .handlerState _ | .handlerReturn | .autoboot | .autobootBoot _ | .key _
  | .input | .inputLeave _ | .inputBoot _ | .uevent | .status _ | .signal =>
    inferInstanceAs (Decidable True)

structure Timer where
  alarm : Bool
  sigalrm : Bool
  lcd : Option Lcd
  sig : SigPc
  mainResets : Bool
  inputLights : Bool
  ueventLights : Bool

def State.timer (s : State) : Timer where
  alarm := s.alarm
  sigalrm := s.sigalrm
  lcd := s.lcd
  sig := s.sig
  mainResets := s.main.resets
  inputLights := s.input.lighting
  ueventLights := s.uevent.lighting

namespace Timer

variable {m : Timer}

def Live (m : Timer) : Prop :=
  m.alarm = true ∨ m.sigalrm = true ∨ m.mainResets = true

/-- A signal handler that is at work makes up for the alarm that it has come from. -/
structure Alive (m : Timer) : Prop where
  idle : m.sig = .wait → m.lcd = some .on ∨ m.lcd = some .dim → m.Live
  lit : m.sig = .testDim → m.lcd = some .on → m.Live
  sets : ∀ lcd, m.sig = .setLcd lcd → lcd ≠ .on
  input : m.inputLights = true → m.alarm = true ∨ m.mainResets = true
  uevent : m.ueventLights = true → m.alarm = true ∨ m.mainResets = true

theorem live_of_reset (h : m.alarm = true ∨ m.mainResets = true) : m.Live := by
  rcases h with halarm | hresets
  . exact .inl halarm
  . exact .inr (.inr hresets)

theorem alive_of_reset (hsets : ∀ lcd, m.sig = .setLcd lcd → lcd ≠ .on)
    (h : m.alarm = true ∨ m.mainResets = true)
    : m.Alive where
  idle _ _ := live_of_reset h
  lit _ _ := live_of_reset h
  sets := hsets
  input _ := h
  uevent _ := h

namespace Alive

theorem mono {resets : Bool} (h : m.Alive) (hresets : m.mainResets = true → resets = true)
    : Alive { m with mainResets := resets } where
  idle hsig hlcd := by
    rcases h.idle hsig hlcd with halarm | hsigalrm | hmain
    . exact .inl halarm
    . exact .inr (.inl hsigalrm)
    . exact .inr (.inr (hresets hmain))
  lit hsig hlcd := by
    rcases h.lit hsig hlcd with halarm | hsigalrm | hmain
    . exact .inl halarm
    . exact .inr (.inl hsigalrm)
    . exact .inr (.inr (hresets hmain))
  sets := h.sets
  input hlights := (h.input hlights).imp_right hresets
  uevent hlights := (h.uevent hlights).imp_right hresets

theorem input_off {lights : Bool} (h : m.Alive) (hoff : lights = false)
    : Alive { m with inputLights := lights } where
  idle := h.idle
  lit := h.lit
  sets := h.sets
  input hlights := by simp [hoff] at hlights
  uevent := h.uevent

theorem uevent_off {lights : Bool} (h : m.Alive) (hoff : lights = false)
    : Alive { m with ueventLights := lights } where
  idle := h.idle
  lit := h.lit
  sets := h.sets
  input := h.input
  uevent hlights := by simp [hoff] at hlights

theorem handles {sigalrm : Bool} {sig : SigPc} (h : m.Alive)
    (hsig : sig = .testActive ∨ sig = .callLcd ∨ sig = .arm)
    : Alive { m with sigalrm := sigalrm, sig := sig } where
  idle hwait := by simp [show sig = .wait from hwait] at hsig
  lit htest := by simp [show sig = .testDim from htest] at hsig
  sets lcd hset := by simp [show sig = .setLcd lcd from hset] at hsig
  input := h.input
  uevent := h.uevent

end Alive

end Timer

theorem menuAction_lighting : s.menuAction.lighting = false := by
  rcases menuAction_cases s with haction | haction | ⟨haction, _⟩
  all_goals
    rw [haction]
    rfl

theorem next_lighting (src : Source) : src.next.lighting = false := by
  cases src
  all_goals
    rfl

theorem Lcd.call_idle_ne (lcd : Lcd) : lcd.call .idle ≠ .on := by
  cases lcd
  all_goals
    simp [call, lcdStateOn, lcdStateDim, lcdStateOff]

theorem resetAlarm_alarm (hdim : 0 < inp.lcdDimTimeout) : (s.resetAlarm inp).alarm = true := by
  have hne : inp.lcdDimTimeout ≠ 0 := by omega
  simp [State.resetAlarm, State.setAlarm, hne]

theorem setAlarm_alarm {seconds : Int} (h : 0 < seconds) : (s.setAlarm seconds).alarm = true := by
  have hne : seconds ≠ 0 := by omega
  simp [State.setAlarm, hne]

def Active (s : State) : Prop :=
  s.fastbootState = .command → s.main.active = true

theorem Active.ne_command (h : Active s) (hpc : s.main.active = false) : s.fastbootState ≠ .command := by
  intro hcommand
  rw [h hcommand] at hpc
  cases hpc

theorem active_of_mainMoves (h : Active s) (hguard : handledInTime inp s a) (hmove : MainMoves inp s a t)
    : Active t := by
  cases hmove with
  | @find buffer hpc =>
    have hknown : known inp buffer = true := by
      simpa [handledInTime, hpc, MainPc.knows] using hguard
    simp [Active, hknown, MainPc.active]
  | @battery buffer low hpc =>
    have hrefused : refused low buffer = false := by
      simpa [handledInTime, hpc, MainPc.refuses] using hguard
    simp [Active, hrefused, MainPc.active]
  | testDisable =>
    intro _
    simp only
    split
    all_goals
      rfl
  | testCommand =>
    intro hcommand
    rw [show s.fastbootState = .command from hcommand]
    rfl
  | handlerState hpc =>
    intro _
    rw [show s.main = .handler from hpc]
    rfl
  | lcdAlarm hpc => exact fun hcommand => absurd hcommand (h.ne_command (by rw [hpc]; rfl))
  | menuSelected hpc => exact fun hcommand => absurd hcommand (h.ne_command (by rw [hpc]; rfl))
  | resetAlarm hpc => exact fun hcommand => absurd hcommand (h.ne_command (by rw [hpc]; rfl))
  | clearAlarm => exact fun _ => rfl
  | callNull => exact h
  | _ => simp_all [Active, MainPc.active]

theorem active_of_moves (h : Active s) (hguard : handledInTime inp s a) (hmove : Moves inp s a t)
    : Active t := by
  rcases moves_cases hmove with hmain | hautoboot | hinput | hdisplay
  . exact active_of_mainMoves h hguard hmain
  . cases hautoboot
    all_goals
      exact h
  . cases hinput
    all_goals
      exact h
  . rw [hdisplay]
    exact h

open Timer (alive_of_reset live_of_reset)

theorem alive_of_mainMoves (hdim : 0 < inp.lcdDimTimeout) (h : s.timer.Alive)
    (hguard : handledInTime inp s a) (hmove : MainMoves inp s a t)
    : t.timer.Alive := by
  cases hmove with
  | lcdAlarm => exact alive_of_reset h.sets (.inl (resetAlarm_alarm (s := s) hdim))
  | resetAlarm => exact alive_of_reset h.sets (.inl (resetAlarm_alarm (s := s) hdim))
  | @find buffer hpc =>
    have hknown : known inp buffer = true := by
      simpa [handledInTime, hpc, MainPc.knows] using hguard
    apply alive_of_reset
    . exact h.sets
    . simp [State.timer, hknown, MainPc.resets]
  | @battery buffer low hpc =>
    have hrefused : refused low buffer = false := by
      simpa [handledInTime, hpc, MainPc.refuses] using hguard
    apply alive_of_reset
    . exact h.sets
    . simp [State.timer, hrefused, MainPc.resets]
  | testDisable =>
    apply alive_of_reset
    . exact h.sets
    . simp only [State.timer, apply_ite MainPc.resets]
      simp [MainPc.resets]
  | testCommand =>
    apply alive_of_reset
    . exact h.sets
    . simp only [State.timer, apply_ite MainPc.resets]
      simp [MainPc.resets]
  -- The main thread was not going to arm the alarm before the step either.
  | createUevent hpc => exact (h.uevent_off rfl).mono (by simp [State.timer, hpc, MainPc.resets])
  | testAutoboot hpc => exact h.mono (by simp [State.timer, hpc, MainPc.resets])
  | menuItem hpc => exact h.mono (by simp [State.timer, hpc, MainPc.resets])
  | menuSelected hpc => exact h.mono (by simp [State.timer, hpc, MainPc.resets])
  | createAutoboot hpc => exact h.mono (by simp [State.timer, hpc, MainPc.resets])
  | testEnabled hpc => exact h.mono (by simp [State.timer, hpc, MainPc.resets])
  | testPower hpc => exact h.mono (by simp [State.timer, hpc, MainPc.resets])
  | openDevice hpc => exact h.mono (by simp [State.timer, hpc, MainPc.resets])
  | leave hpc => exact h.mono (by simp [State.timer, hpc, MainPc.resets])
  | await hpc => exact h.mono (by simp [State.timer, hpc, MainPc.resets])
  | readFail hpc => exact h.mono (by simp [State.timer, hpc, MainPc.resets])
  | fail hpc => exact h.mono (by simp [State.timer, hpc, MainPc.resets])
  | callNull | handlerState => exact h
  | _ => exact alive_of_reset h.sets (.inr rfl)

theorem alive_of_inputMoves (hdim : 0 < inp.lcdDimTimeout) (h : s.timer.Alive)
    (hmove : InputMoves inp s a t)
    : t.timer.Alive := by
  cases hmove with
  | resetAlarm => exact alive_of_reset h.sets (.inl (resetAlarm_alarm (s := s) hdim))
  | testLcd hpc =>
    apply alive_of_reset
    . exact h.sets
    . exact h.input (by simp [State.timer, hpc, InputPc.lighting])
  | callLcd hpc =>
    apply alive_of_reset
    . exact h.sets
    . exact h.input (by simp [State.timer, hpc, InputPc.lighting])
  | setLcd hpc =>
    apply alive_of_reset
    . exact h.sets
    . exact h.input (by simp [State.timer, hpc, InputPc.lighting])
  | callNull => exact h
  | key =>
    apply h.input_off
    split
    all_goals
      rfl
  | countdownKey =>
    apply h.input_off
    split
    all_goals
      rfl
  | testDisable =>
    apply h.input_off
    split
    all_goals
      rfl
  | menuAction => exact h.input_off menuAction_lighting
  | _ => exact h.input_off rfl

theorem alive_of_ueventMoves (hdim : 0 < inp.lcdDimTimeout) (h : s.timer.Alive)
    (hmove : UeventMoves inp s a t)
    : t.timer.Alive := by
  cases hmove with
  | wait => exact h.uevent_off rfl
  | @test src =>
    apply h.uevent_off
    split
    . exact next_lighting src
    . rfl
  | resetAlarm => exact alive_of_reset h.sets (.inl (resetAlarm_alarm (s := s) hdim))
  | callLcd hpc =>
    apply alive_of_reset
    . exact h.sets
    . exact h.uevent (by simp [State.timer, hpc, UeventPc.lighting])
  | callNull => exact h
  | setLcd hpc =>
    apply alive_of_reset
    . exact h.sets
    . exact h.uevent (by simp [State.timer, hpc, UeventPc.lighting])

theorem alive_of_signalMoves (hoff : 0 < inp.lcdOffTimeout) (h : s.timer.Alive) (hactive : Active s)
    (hmove : SignalMoves inp s a t)
    : t.timer.Alive := by
  cases hmove with
  | wait => exact h.handles (by simp)
  | testActive =>
    split
    . next hcommand =>
      have hresets : s.main.resets = true := MainPc.resets_of_active (hactive hcommand)
      exact alive_of_reset (by simp [State.timer]) (.inr hresets)
    . exact h.handles (by simp)
  | @callLcd lcd =>
    refine ⟨by simp [State.timer], by simp [State.timer], ?_, h.input, h.uevent⟩
    intro lcd' hsig
    cases hsig
    exact Lcd.call_idle_ne lcd
  | callNull => exact h
  | @setLcd lcd hpc =>
    have hne : lcd ≠ .on := h.sets lcd hpc
    refine ⟨by simp [State.timer], ?_, by simp [State.timer], h.input, h.uevent⟩
    intro _ hlcd
    cases hlcd
    exact absurd rfl hne
  | testDim hpc =>
    split
    . exact h.handles (by simp)
    . next hdim =>
      refine ⟨?_, by simp [State.timer], by simp [State.timer], h.input, h.uevent⟩
      rintro _ (hon | hdim')
      . exact h.lit hpc hon
      . exact absurd hdim' hdim
  | arm => exact alive_of_reset (by simp [State.timer]) (.inl (setAlarm_alarm (s := s) hoff))

theorem alive_of_expire (h : s.timer.Alive) (hguard : handledInTime inp s .expire)
    : Timer.Alive { s.timer with alarm := false, sigalrm := true } where
  idle _ _ := .inr (.inl rfl)
  lit _ _ := .inr (.inl rfl)
  sets := h.sets
  input hlights := by
    have hoff : s.input.lighting = false := hguard.1
    simp [State.timer, hoff] at hlights
  uevent hlights := by
    have hoff : s.uevent.lighting = false := hguard.2
    simp [State.timer, hoff] at hlights

theorem alive_of_moves (hdim : 0 < inp.lcdDimTimeout) (hoff : 0 < inp.lcdOffTimeout) (h : s.timer.Alive)
    (hactive : Active s) (hguard : handledInTime inp s a) (hmove : Moves inp s a t)
    : t.timer.Alive := by
  cases hmove with
  | main hmain => exact alive_of_mainMoves hdim h hguard hmain
  | autoboot hautoboot =>
    cases hautoboot
    all_goals
      exact h
  | input hinput => exact alive_of_inputMoves hdim h hinput
  | uevent huevent => exact alive_of_ueventMoves hdim h huevent
  | signal hsignal => exact alive_of_signalMoves hoff h hactive hsignal
  | expire => exact alive_of_expire h hguard

theorem init_alive : init.timer.Alive := by
  apply alive_of_reset
  . simp [State.timer, init]
  . exact .inr rfl

theorem alive_of_reaches (hdim : 0 < inp.lcdDimTimeout) (hoff : 0 < inp.lcdOffTimeout)
    (h : System.Reaches (step inp) (handledInTime inp) init s)
    : s.timer.Alive := by
  have hboth : Active s ∧ s.timer.Alive := by
    apply h.invariant (P := fun s => Active s ∧ s.timer.Alive)
    . exact ⟨by simp [Active, init], init_alive⟩
    . intro t u a ht hguard hstep
      have hmove := moves_of_step hstep
      exact ⟨active_of_moves ht.1 hguard hmove, alive_of_moves hdim hoff ht.2 ht.1 hguard hmove⟩
  exact hboth.2

theorem idle_timer_armed (hdim : 0 < inp.lcdDimTimeout) (hoff : 0 < inp.lcdOffTimeout)
    (h : System.Reaches (step inp) (handledInTime inp) init s) (hread : s.main = .read)
    (hpending : s.sigalrm = false) (hsig : s.sig = .wait)
    (hlcd : s.lcd = some .on ∨ s.lcd = some .dim)
    : s.alarm = true := by
  have halive := alive_of_reaches hdim hoff h
  rcases halive.idle hsig hlcd with halarm | hsigalrm | hresets
  . exact halarm
  . rw [show s.sigalrm = true from hsigalrm] at hpending
    cases hpending
  . simp [State.timer, hread, MainPc.resets] at hresets

section Runs

def noAutoboot : Input :=
  { countsFrom 8 with useAutoboot := false }

def serving : List Act :=
  List.flatten [List.replicate 4 .main, openServer]

def handledThenDim : List Act :=
  List.flatten
    [serving, serve (str "flash:"), [.handlerState true, .handlerReturn], List.replicate 5 .main,
      [.expire], List.replicate 6 .signal, press .volumeUp, [.input, .input, .input]]

theorem idle_timer_armed_after_command
    : ∃ s, System.Reaches (step noAutoboot) (handledInTime noAutoboot) init s
        ∧ s.main = .read ∧ s.sigalrm = false ∧ s.sig = .wait ∧ s.lcd = some .on ∧ s.alarm = true := by
  have hrun : (System.guardedRun (step noAutoboot) (handledInTime noAutoboot) init
      handledThenDim).any
        (fun s => s.main = .read ∧ s.sigalrm = false ∧ s.sig = .wait ∧ s.lcd = some .on) = true := by
    decide
  obtain ⟨s, hs, hread, hpending, hsig, hlcd⟩ := System.Reaches.exists_of_guardedRun hrun
  have halarm := idle_timer_armed (by decide) (by decide) hs hread hpending hsig (.inl hlcd)
  exact ⟨s, hs, hread, hpending, hsig, hlcd, halarm⟩

/-- An unknown packet: the alarm is cleared and not armed again. -/
def unknownPacket : List Act :=
  List.flatten [serving, [.packet (some (str "x"))], List.replicate 7 .main]

def refusedPacket : List Act :=
  List.flatten
    [serving, [.packet (some (str "erase:"))], List.replicate 6 .main, [.battery true, .main, .main]]

def TimerLost (s : State) : Prop :=
  s.main = .read ∧ s.sigalrm = false ∧ s.sig = .wait ∧ s.lcd = some .on ∧ s.alarm = false

instance : DecidablePred TimerLost :=
  fun _ => inferInstanceAs (Decidable (_ ∧ _))

theorem idle_timer_lost
    : ∃ s, System.Reaches (step noAutoboot) (fun _ _ => True) init s ∧ TimerLost s := by
  have hunknown : (System.run (step noAutoboot) init unknownPacket).any (TimerLost ·) = true := by
    decide
  exact System.Reaches.exists_of_run (fun _ _ _ => trivial) hunknown

example : (System.run (step noAutoboot) init refusedPacket).any (TimerLost ·) = true := by
  decide

/-- The display is dim, and a key has set the alarm; it expires before the key has lit the display. -/
def expiredUnderKey : List Act :=
  List.flatten
    [serving, [.expire], List.replicate 6 .signal, press .volumeUp, [.expire], List.replicate 5 .signal,
      [.input, .input, .input]]

example : (System.run (step noAutoboot) init expiredUnderKey).any (TimerLost ·) = true := by
  decide

end Runs

end Threads
