import Tboot.Threads.Impl

/-!
This module contains what a single step of each thread can do.
-/

namespace Threads

variable {inp : Input} {s t : State} {a : Act}

inductive MainMoves (inp : Input) (s : State) : Act → State → Prop where
  | lcdInit (hpc : s.main = .lcdInit)
      : MainMoves inp s .main { s with lcd := some .on, main := .lcdAlarm }
  | lcdAlarm (hpc : s.main = .lcdAlarm)
      : MainMoves inp s .main { s.resetAlarm inp with main := .createUevent }
  | createUevent (hpc : s.main = .createUevent)
      : MainMoves inp s .main { s with uevent := .test .usb, main := .testAutoboot }
  | testAutoboot (hpc : s.main = .testAutoboot)
      : MainMoves inp s .main
          { s with
            main :=
              if inp.useAutoboot && !inp.updateLocation then
                .menuItem (bootItems inp)
              else
                .testEnabled }
  | menuItem {item : MenuItem} {rest : List MenuItem} (hpc : s.main = .menuItem (item :: rest))
      : MainMoves inp s .main { s with items := s.items ++ [item], main := .menuItem rest }
  | menuSelected (hpc : s.main = .menuItem [])
      : MainMoves inp s .main { s.menuSelected 3 with main := .createAutoboot }
  | createAutoboot (hpc : s.main = .createAutoboot)
      : MainMoves inp s .main { s with autoboot := .enable, main := .testEnabled }
  | testEnabled (hpc : s.main = .testEnabled)
      : MainMoves inp s .main
          { s with main := if s.autobootEnabled then .testEnabled else .testPower }
  | testPower (hpc : s.main = .testPower)
      : MainMoves inp s .main
          { s with main := if s.powerPressed then .testEnabled else .openDevice }
  | openDevice {ok : Bool} (hpc : s.main = .openDevice)
      : MainMoves inp s (.opened ok) { s with main := if ok then .testError else .openDevice }
  | leave (hpc : s.main = .testError) (herror : s.fastbootState = .error)
      : MainMoves inp s .main { s with fastbootState := .offline, main := .openDevice }
  | await (hpc : s.main = .testError) (herror : s.fastbootState ≠ .error)
      : MainMoves inp s .main { s with main := .read }
  | readFail (hpc : s.main = .read)
      : MainMoves inp s (.packet none) { s with fastbootState := .offline, main := .openDevice }
  | read {packet : Bytes} (hpc : s.main = .read) (hlen : packet.length ≤ 64)
      : MainMoves inp s (.packet (some packet))
          { s with main := .setCommand (Fastboot.cmdBuffer packet) }
  | setCommand {buffer : Bytes} (hpc : s.main = .setCommand buffer)
      : MainMoves inp s .main { s with fastbootState := .command, main := .clearAlarm buffer }
  | clearAlarm {buffer : Bytes} (hpc : s.main = .clearAlarm buffer)
      : MainMoves inp s .main { s.clearAlarm with main := .callLcd buffer }
  | callLcd {buffer : Bytes} {lcd : Lcd} (hpc : s.main = .callLcd buffer) (hlcd : s.lcd = some lcd)
      : MainMoves inp s .main { s with main := .setLcd buffer (lcd.call .command) }
  | callNull {buffer : Bytes} (hpc : s.main = .callLcd buffer) (hlcd : s.lcd = none)
      : MainMoves inp s .main { s with running := false }
  | setLcd {buffer : Bytes} {lcd : Lcd} (hpc : s.main = .setLcd buffer lcd)
      : MainMoves inp s .main { s with lcd := some lcd, main := .find buffer }
  | find {buffer : Bytes} (hpc : s.main = .find buffer)
      : MainMoves inp s .main
          { s with main := if known inp buffer then .testDisable buffer else .fail }
  | testDisable {buffer : Bytes} (hpc : s.main = .testDisable buffer)
      : MainMoves inp s .main
          { s with main := if s.autobootEnabled then .disable buffer else .battery buffer }
  | disable {buffer : Bytes} (hpc : s.main = .disable buffer)
      : MainMoves inp s .main { s with autobootEnabled := false, main := .battery buffer }
  | battery {buffer : Bytes} {low : Bool} (hpc : s.main = .battery buffer)
      : MainMoves inp s (.battery low) { s with main := if refused low buffer then .fail else .lock }
  | fail (hpc : s.main = .fail)
      : MainMoves inp s .main { s with fastbootState := .complete, main := .testError }
  | lock (hpc : s.main = .lock) (hmutex : s.actionMutex = false)
      : MainMoves inp s .main { s with actionMutex := true, main := .disableKeypress }
  | disableKeypress (hpc : s.main = .disableKeypress)
      : MainMoves inp s .main { s with ignoreKeypress := true, main := .callHandler }
  | callHandler (hpc : s.main = .callHandler)
      : MainMoves inp s .main { s with main := .handler }
  | handlerState {ok : Bool} (hpc : s.main = .handler)
      : MainMoves inp s (.handlerState ok)
          { s with fastbootState := if ok then .complete else .error }
  | handlerReturn (hpc : s.main = .handler)
      : MainMoves inp s .handlerReturn { s with main := .enableKeypress }
  | enableKeypress (hpc : s.main = .enableKeypress)
      : MainMoves inp s .main { s with ignoreKeypress := false, main := .unlock }
  | unlock (hpc : s.main = .unlock)
      : MainMoves inp s .main { s with actionMutex := false, main := .testCommand }
  | testCommand (hpc : s.main = .testCommand)
      : MainMoves inp s .main
          { s with
            main := if s.fastbootState = .command then .failUnanswered else .resetAlarm }
  | failUnanswered (hpc : s.main = .failUnanswered)
      : MainMoves inp s .main { s with fastbootState := .complete, main := .resetAlarm }
  | resetAlarm (hpc : s.main = .resetAlarm)
      : MainMoves inp s .main { s.resetAlarm inp with main := .testError }

inductive AutobootMoves (inp : Input) (s : State) : Act → State → Prop where
  | enable (hpc : s.autoboot = .enable)
      : AutobootMoves inp s .autoboot
          { s with
            autobootEnabled := true
            autoboot :=
              if inp.autobootDelaySecs ≤ 0 then .early else .testEnabled (countdownFrom inp) }
  | early (hpc : s.autoboot = .early)
      : AutobootMoves inp s .autoboot
          { s with autoboot := if s.autobootEnabled then .boot .mount else .returned }
  | testEnabled {seconds : Nat} (hpc : s.autoboot = .testEnabled seconds)
      : AutobootMoves inp s .autoboot
          { s with
            autoboot :=
              if seconds ≠ 0 ∧ s.autobootEnabled then .testPower seconds else .readEnabled }
  | testPower {seconds : Nat} (hpc : s.autoboot = .testPower seconds)
      : AutobootMoves inp s .autoboot
          { s with autoboot := if s.powerPressed then .readEnabled else .tick seconds }
  | tick {seconds : Nat} (hpc : s.autoboot = .tick seconds)
      : AutobootMoves inp s .autoboot { s with autoboot := .testEnabled (seconds - 1) }
  | readEnabled (hpc : s.autoboot = .readEnabled)
      : AutobootMoves inp s .autoboot { s with autoboot := .clearEnabled s.autobootEnabled }
  | clearEnabled {ret : Bool} (hpc : s.autoboot = .clearEnabled ret)
      : AutobootMoves inp s .autoboot
          { s with
            autobootEnabled := false
            autoboot := if ret then .boot .mount else .returned }
  | mount {ok : Bool} (hpc : s.autoboot = .boot .mount)
      : AutobootMoves inp s (.autobootBoot ok)
          { s with autoboot := .boot (if ok then .precheck else .umount) }
  | precheck {ok : Bool} (hpc : s.autoboot = .boot .precheck)
      : AutobootMoves inp s (.autobootBoot ok)
          { s with autoboot := .boot (if ok then .kexec else .clearPower) }
  | kexec {ok : Bool} (hpc : s.autoboot = .boot .kexec)
      : AutobootMoves inp s (.autobootBoot ok)
          { s with running := !ok, autoboot := .boot .clearPower }
  | clearPower {ok : Bool} (hpc : s.autoboot = .boot .clearPower)
      : AutobootMoves inp s (.autobootBoot ok)
          { s with powerPressed := false, autoboot := .boot .umount }
  | umount {ok : Bool} (hpc : s.autoboot = .boot .umount)
      : AutobootMoves inp s (.autobootBoot ok) { s with autoboot := .returned }

inductive InputMoves (inp : Input) (s : State) : Act → State → Prop where
  | key {ev : InputEvent} (hpc : s.input = .wait)
      : InputMoves inp s (.key ev)
          { s with input := if s.ignoreKeypress then .wait else .testEnabled ev }
  | countdownKey {ev : InputEvent} (hpc : s.input = .testEnabled ev)
      (henabled : s.autobootEnabled = true) (hkey : ev.isKey = true)
      : InputMoves inp s .input
          { s with input := if ev.code = .power then .pressPower else .testDisable }
  | menuKey {ev : InputEvent} (hpc : s.input = .testEnabled ev)
      (henabled : ¬(s.autobootEnabled = true ∧ ev.isKey = true)) (hkey : ev.isKey = true)
      (hvalue : ev.value = 1) (hcode : ev.code ≠ .other)
      : InputMoves inp s .input { s with input := .resetAlarm ev.code }
  | otherKey {ev : InputEvent} (hpc : s.input = .testEnabled ev)
      : InputMoves inp s .input { s with input := .wait }
  | pressPower (hpc : s.input = .pressPower)
      : InputMoves inp s .input { s with powerPressed := true, input := .wait }
  | testDisable (hpc : s.input = .testDisable)
      : InputMoves inp s .input { s with input := if s.autobootEnabled then .disable else .wait }
  | disable (hpc : s.input = .disable)
      : InputMoves inp s .input { s with autobootEnabled := false, input := .wait }
  | resetAlarm {code : KeyCode} (hpc : s.input = .resetAlarm code)
      : InputMoves inp s .input { s.resetAlarm inp with input := .testLcd code }
  | testLcd {code : KeyCode} (hpc : s.input = .testLcd code)
      : InputMoves inp s .input
          { s with input := if s.lcd = some .on then .menu code else .callLcd }
  | callLcd {lcd : Lcd} (hpc : s.input = .callLcd) (hlcd : s.lcd = some lcd)
      : InputMoves inp s .input { s with input := .setLcd (lcd.call .key) }
  | callNull (hpc : s.input = .callLcd) (hlcd : s.lcd = none)
      : InputMoves inp s .input { s with running := false }
  | setLcd {lcd : Lcd} (hpc : s.input = .setLcd lcd)
      : InputMoves inp s .input { s with lcd := some lcd, input := .wait }
  | menuMove {code : KeyCode} {selected : Nat} (hpc : s.input = .menu code) (hcode : code ≠ .power)
      : InputMoves inp s .input { s.menuSelected selected with input := .wait }
  | menuAction (hpc : s.input = .menu .power)
      : InputMoves inp s .input { s with input := s.menuAction }
  | leave {ok : Bool} (hpc : s.input = .leave)
      : InputMoves inp s (.inputLeave ok) { s with running := !ok, input := .wait }
  | mount {ok : Bool} (hpc : s.input = .boot .mount)
      : InputMoves inp s (.inputBoot ok)
          { s with input := .boot (if ok then .precheck else .umount) }
  | precheck {ok : Bool} (hpc : s.input = .boot .precheck)
      : InputMoves inp s (.inputBoot ok)
          { s with input := .boot (if ok then .kexec else .clearPower) }
  | kexec {ok : Bool} (hpc : s.input = .boot .kexec)
      : InputMoves inp s (.inputBoot ok) { s with running := !ok, input := .boot .clearPower }
  | clearPower {ok : Bool} (hpc : s.input = .boot .clearPower)
      : InputMoves inp s (.inputBoot ok)
          { s with powerPressed := false, input := .boot .umount }
  | umount {ok : Bool} (hpc : s.input = .boot .umount)
      : InputMoves inp s (.inputBoot ok) { s with input := .wait }

inductive UeventMoves (inp : Input) (s : State) : Act → State → Prop where
  | wait (hpc : s.uevent = .wait)
      : UeventMoves inp s .uevent { s with uevent := .test .usb }
  | test {src : Source} {status : Status} (hpc : s.uevent = .test src)
      : UeventMoves inp s (.status status)
          { s with
            uevent := if s.saved src = status then src.next else .resetAlarm src status }
  | resetAlarm {src : Source} {status : Status} (hpc : s.uevent = .resetAlarm src status)
      : UeventMoves inp s .uevent { s.resetAlarm inp with uevent := .callLcd src status }
  | callLcd {src : Source} {status : Status} {lcd : Lcd} (hpc : s.uevent = .callLcd src status)
      (hlcd : s.lcd = some lcd)
      : UeventMoves inp s .uevent { s with uevent := .setLcd src status (lcd.call .usbEvent) }
  | callNull {src : Source} {status : Status} (hpc : s.uevent = .callLcd src status)
      (hlcd : s.lcd = none)
      : UeventMoves inp s .uevent { s with running := false }
  | setLcd {src : Source} {status : Status} {lcd : Lcd} (hpc : s.uevent = .setLcd src status lcd)
      : UeventMoves inp s .uevent
          { s with
            lcd := some lcd
            saved := fun src' => if src' = src then status else s.saved src'
            uevent := src.next }

inductive SignalMoves (inp : Input) (s : State) : Act → State → Prop where
  | wait (hpc : s.sig = .wait) (hsig : s.sigalrm = true)
      : SignalMoves inp s .signal { s with sigalrm := false, sig := .testActive }
  | testActive (hpc : s.sig = .testActive)
      : SignalMoves inp s .signal
          { s with sig := if s.fastbootState = .command then .wait else .callLcd }
  | callLcd {lcd : Lcd} (hpc : s.sig = .callLcd) (hlcd : s.lcd = some lcd)
      : SignalMoves inp s .signal { s with sig := .setLcd (lcd.call .idle) }
  | callNull (hpc : s.sig = .callLcd) (hlcd : s.lcd = none)
      : SignalMoves inp s .signal { s with running := false }
  | setLcd {lcd : Lcd} (hpc : s.sig = .setLcd lcd)
      : SignalMoves inp s .signal { s with lcd := some lcd, sig := .testDim }
  | testDim (hpc : s.sig = .testDim)
      : SignalMoves inp s .signal { s with sig := if s.lcd = some .dim then .arm else .wait }
  | arm (hpc : s.sig = .arm)
      : SignalMoves inp s .signal { s.setAlarm inp.lcdOffTimeout with sig := .wait }

inductive Moves (inp : Input) (s : State) : Act → State → Prop where
  | main {a : Act} {t : State} (h : MainMoves inp s a t) : Moves inp s a t
  | autoboot {a : Act} {t : State} (h : AutobootMoves inp s a t) : Moves inp s a t
  | input {a : Act} {t : State} (h : InputMoves inp s a t) : Moves inp s a t
  | uevent {a : Act} {t : State} (h : UeventMoves inp s a t) : Moves inp s a t
  | signal {a : Act} {t : State} (h : SignalMoves inp s a t) : Moves inp s a t
  | expire (halarm : s.alarm = true) : Moves inp s .expire { s with alarm := false, sigalrm := true }

theorem callLcd_cases (s : State) (ev : LcdEvent) (next : Lcd → State)
    : (∃ lcd, s.lcd = some lcd ∧ callLcd s ev next = next (lcd.call ev))
        ∨ (s.lcd = none ∧ callLcd s ev next = { s with running := false }) := by
  unfold callLcd
  split
  . next lcd hlcd => exact .inl ⟨lcd, hlcd, rfl⟩
  . next hlcd => exact .inr ⟨hlcd, rfl⟩

theorem mainMoves_of_mainStep (h : mainStep inp s a = some t) : MainMoves inp s a t := by
  unfold mainStep at h
  split at h
  case h_11 hpc =>
    split at h
    . next herror =>
      cases h
      exact .leave hpc herror
    . next herror =>
      cases h
      exact .await hpc herror
  case h_13 hpc =>
    split at h
    . next hlen =>
      cases h
      exact .read hpc hlen
    . cases h
  case h_16 hpc =>
    cases h
    rcases callLcd_cases s .command _ with ⟨lcd, hlcd, heq⟩ | ⟨hlcd, heq⟩
    . rw [heq]
      exact .callLcd hpc hlcd
    . rw [heq]
      exact .callNull hpc hlcd
  case h_23 hpc =>
    split at h
    . cases h
    . next hmutex =>
      cases h
      exact .lock hpc (by simpa using hmutex)
  all_goals
    cases h
  all_goals
    constructor
    assumption

theorem autobootMoves_of_autobootStep (h : autobootStep inp s a = some t)
    : AutobootMoves inp s a t := by
  unfold autobootStep at h
  split at h
  case h_8 pc ok hpc =>
    cases pc
    all_goals
      cases h
      constructor
      assumption
  all_goals
    cases h
  all_goals
    constructor
    assumption

theorem inputMoves_of_inputStep (h : inputStep inp s a = some t) : InputMoves inp s a t := by
  unfold inputStep at h
  split at h
  case h_2 ev hpc =>
    split at h
    . next hif =>
      cases h
      simp only [Bool.and_eq_true] at hif
      exact .countdownKey hpc hif.1 hif.2
    . next hif =>
      split at h
      . next hkey =>
        cases h
        simp only [Bool.and_eq_true, beq_iff_eq, bne_iff_ne] at hif hkey
        exact .menuKey hpc hif hkey.1.1 hkey.1.2 hkey.2
      . cases h
        exact .otherKey hpc
  case h_8 hpc =>
    cases h
    rcases callLcd_cases s .key _ with ⟨lcd, hlcd, heq⟩ | ⟨hlcd, heq⟩
    . rw [heq]
      exact .callLcd hpc hlcd
    . rw [heq]
      exact .callNull hpc hlcd
  case h_10 hpc =>
    cases h
    exact .menuMove hpc (by simp)
  case h_11 hpc =>
    cases h
    exact .menuMove hpc (by simp)
  case h_14 pc ok hpc =>
    cases pc
    all_goals
      cases h
      constructor
      assumption
  all_goals
    cases h
  all_goals
    constructor
    assumption

theorem ueventMoves_of_ueventStep (h : ueventStep inp s a = some t) : UeventMoves inp s a t := by
  unfold ueventStep at h
  split at h
  case h_4 hpc =>
    cases h
    rcases callLcd_cases s .usbEvent _ with ⟨lcd, hlcd, heq⟩ | ⟨hlcd, heq⟩
    . rw [heq]
      exact .callLcd hpc hlcd
    . rw [heq]
      exact .callNull hpc hlcd
  all_goals
    cases h
  all_goals
    constructor
    assumption

theorem signalMoves_of_signalStep (h : signalStep inp s a = some t) : SignalMoves inp s a t := by
  unfold signalStep at h
  split at h
  case h_1 hpc =>
    split at h
    . next hsig =>
      cases h
      exact .wait hpc hsig
    . cases h
  case h_3 hpc =>
    cases h
    rcases callLcd_cases s .idle _ with ⟨lcd, hlcd, heq⟩ | ⟨hlcd, heq⟩
    . rw [heq]
      exact .callLcd hpc hlcd
    . rw [heq]
      exact .callNull hpc hlcd
  all_goals
    cases h
  all_goals
    constructor
    assumption

theorem moves_of_step (h : step inp s a = some t) : Moves inp s a t := by
  unfold step at h
  split at h
  . cases a with
    | main => exact .main (mainMoves_of_mainStep h)
    | opened => exact .main (mainMoves_of_mainStep h)
    | packet => exact .main (mainMoves_of_mainStep h)
    | battery => exact .main (mainMoves_of_mainStep h)
    | handlerState => exact .main (mainMoves_of_mainStep h)
    | handlerReturn => exact .main (mainMoves_of_mainStep h)
    | autoboot => exact .autoboot (autobootMoves_of_autobootStep h)
    | autobootBoot => exact .autoboot (autobootMoves_of_autobootStep h)
    | key => exact .input (inputMoves_of_inputStep h)
    | input => exact .input (inputMoves_of_inputStep h)
    | inputLeave => exact .input (inputMoves_of_inputStep h)
    | inputBoot => exact .input (inputMoves_of_inputStep h)
    | uevent => exact .uevent (ueventMoves_of_ueventStep h)
    | status => exact .uevent (ueventMoves_of_ueventStep h)
    | signal => exact .signal (signalMoves_of_signalStep h)
    | expire =>
      have hexpire : expireStep s = some t := h
      unfold expireStep at hexpire
      split at hexpire
      . next halarm =>
        cases hexpire
        exact .expire halarm
      . cases hexpire
  . cases h

structure Display where
  lcd : Option Lcd
  alarm : Bool
  sigalrm : Bool
  saved : Source → Status
  running : Bool
  uevent : UeventPc
  sig : SigPc

def State.display (s : State) : Display :=
  ⟨s.lcd, s.alarm, s.sigalrm, s.saved, s.running, s.uevent, s.sig⟩

def State.withDisplay (s : State) (d : Display) : State :=
  { s with
    lcd := d.lcd
    alarm := d.alarm
    sigalrm := d.sigalrm
    saved := d.saved
    running := d.running
    uevent := d.uevent
    sig := d.sig }

theorem UeventMoves.withDisplay (h : UeventMoves inp s a t) : t = s.withDisplay t.display := by
  cases h
  all_goals
    rfl

theorem SignalMoves.withDisplay (h : SignalMoves inp s a t) : t = s.withDisplay t.display := by
  cases h
  all_goals
    rfl

theorem moves_cases (h : Moves inp s a t)
    : MainMoves inp s a t ∨ AutobootMoves inp s a t ∨ InputMoves inp s a t
        ∨ t = s.withDisplay t.display := by
  cases h with
  | main hmain => exact .inl hmain
  | autoboot hautoboot => exact .inr (.inl hautoboot)
  | input hinput => exact .inr (.inr (.inl hinput))
  | uevent huevent => exact .inr (.inr (.inr huevent.withDisplay))
  | signal hsignal => exact .inr (.inr (.inr hsignal.withDisplay))
  | expire => exact .inr (.inr (.inr rfl))

def State.menuBoots (s : State) : Bool :=
  s.items[s.selected]?.any MenuItem.boots

theorem menuAction_cases (s : State)
    : s.menuAction = .wait ∨ s.menuAction = .leave
        ∨ (s.menuAction = .boot .mount ∧ s.menuBoots = true) := by
  unfold State.menuAction State.menuBoots
  cases s.items[s.selected]? with
  | none => exact .inl rfl
  | some item =>
    rw [Option.any_some]
    cases hboots : item.boots
    . exact .inr (.inl (by simp [hboots]))
    . exact .inr (.inr (by simp [hboots]))

section Created

def MainPc.setsUp : MainPc → Bool
  | .lcdInit | .lcdAlarm | .createUevent | .testAutoboot | .menuItem _ | .createAutoboot => true
  | _ => false

def NotCreated (s : State) : Prop :=
  s.main.setsUp = true → s.autoboot = .absent

theorem AutobootMoves.ne_absent (h : AutobootMoves inp s a t) : s.autoboot ≠ .absent := by
  cases h
  all_goals
    simp [*]

theorem notCreated_of_mainMoves (h : NotCreated s) (hmove : MainMoves inp s a t) : NotCreated t := by
  cases hmove with
  | lcdInit hpc => exact fun _ => h (by simp [hpc, MainPc.setsUp])
  | lcdAlarm hpc => exact fun _ => h (by simp [hpc, MainPc.setsUp])
  | createUevent hpc => exact fun _ => h (by simp [hpc, MainPc.setsUp])
  | testAutoboot hpc => exact fun _ => h (by simp [hpc, MainPc.setsUp])
  | menuItem hpc => exact fun _ => h (by simp [hpc, MainPc.setsUp])
  | menuSelected hpc => exact fun _ => h (by simp [hpc, MainPc.setsUp])
  | callNull | handlerState => exact h
  | _ =>
    simp only [NotCreated, apply_ite MainPc.setsUp]
    simp [MainPc.setsUp]

theorem notCreated_of_moves (h : NotCreated s) (hmove : Moves inp s a t) : NotCreated t := by
  rcases moves_cases hmove with hmain | hautoboot | hinput | hdisplay
  . exact notCreated_of_mainMoves h hmain
  . intro hup
    apply absurd _ hautoboot.ne_absent
    apply h
    cases hautoboot
    all_goals
      exact hup
  . cases hinput
    all_goals
      exact h
  . rw [hdisplay]
    exact h

end Created

section Runs

/-!
A device that boots by itself after some seconds, and pieces of its runs.
-/

def countsFrom (secs : Int) : Input where
  useAutoboot := true
  updateLocation := false
  autobootDelaySecs := secs
  enableNfs := false
  lcdDimTimeout := 30
  lcdOffTimeout := 30
  cmdlist := Aboot.cmds ⟨none, [], [], [], [], 0⟩ []

def setUp : List Act :=
  List.replicate 9 .main

def press (code : KeyCode) : List Act :=
  [.key ⟨true, code, 1⟩, .input, .input]

def openServer : List Act :=
  [.main, .main, .opened true, .main]

def serve (packet : Bytes) : List Act :=
  List.flatten
    [[.packet (some packet)], List.replicate 6 .main, [.battery false], List.replicate 3 .main]

end Runs

end Threads
