import Tboot.Boot.Impl.Kernel

/-!
This module contains the threads of tboot and the variables they share: the main thread, which sets up
the others, waits for the countdown and then serves commands; `autoboot_thread`; the input thread with
`input_callback`; the uevent thread with `ui_callback`; and the thread that takes the signals. An access
to a shared variable is a step of its own. The model begins with the input thread just created, at
`lcd_state_init`.
-/

namespace Threads

open Fastboot (FbState Cmd batteryCmds cmdBuffer)

/-- What the command line, the configuration and the registrations have left; timeouts as `atoi` reads them -/
structure Input where
  useAutoboot : Bool
  updateLocation : Bool
  autobootDelaySecs : Int
  enableNfs : Bool
  lcdDimTimeout : Int
  lcdOffTimeout : Int
  cmdlist : List Cmd

inductive LcdEvent where
  | command
  | key
  | idle
  | usbEvent
  deriving DecidableEq, Repr

inductive Lcd where
  | on
  | dim
  | off
  deriving DecidableEq, Repr

def lcdStateOn : LcdEvent → Lcd
  | .idle => .dim
  | _ => .on

def lcdStateDim : LcdEvent → Lcd
  | .idle => .off
  | .command | .key | .usbEvent => .on

def lcdStateOff : LcdEvent → Lcd
  | .command | .key | .usbEvent => .on
  | _ => .off

def Lcd.call : Lcd → LcdEvent → Lcd
  | .on => lcdStateOn
  | .dim => lcdStateDim
  | .off => lcdStateOff

inductive MenuItem where
  | poweroff
  | reboot
  | rebootPreos
  | boot (item : Boot.MenuItem)
  deriving DecidableEq, Repr

def MenuItem.boots : MenuItem → Bool
  | .boot _ => true
  | _ => false

inductive KeyCode where
  | power
  | volumeUp
  | volumeDown
  | other
  deriving DecidableEq, Repr

structure InputEvent where
  isKey : Bool
  code : KeyCode
  value : Int
  deriving DecidableEq, Repr

inductive Status where
  | unknown
  | connected
  | disconnected
  deriving DecidableEq, Repr

inductive Source where
  | usb
  | charger
  deriving DecidableEq, Repr

/-- The steps that `start_default_kernel` and the other items of the menu that boot have in common -/
inductive BootPc where
  | mount
  | precheck
  | kexec
  /-- in `start_kernel`, at `power_pressed = 0` -/
  | clearPower
  | umount
  deriving DecidableEq, Repr

inductive AutobootPc where
  | absent
  | enable
  /-- at `return autoboot_enabled` of a countdown from 0 -/
  | early
  | testEnabled (seconds : Nat)
  | testPower (seconds : Nat)
  | tick (seconds : Nat)
  | readEnabled
  | clearEnabled (ret : Bool)
  | boot (pc : BootPc)
  | returned
  deriving DecidableEq, Repr

inductive InputPc where
  | wait
  | testEnabled (ev : InputEvent)
  | pressPower
  | testDisable
  | disable
  | resetAlarm (code : KeyCode)
  | testLcd (code : KeyCode)
  | callLcd
  | setLcd (lcd : Lcd)
  | menu (code : KeyCode)
  | leave
  | boot (pc : BootPc)
  deriving DecidableEq, Repr

inductive UeventPc where
  | absent
  | wait
  | test (src : Source)
  | resetAlarm (src : Source) (status : Status)
  | callLcd (src : Source) (status : Status)
  | setLcd (src : Source) (status : Status) (lcd : Lcd)
  deriving DecidableEq, Repr

inductive SigPc where
  | wait
  | testActive
  | callLcd
  | setLcd (lcd : Lcd)
  | testDim
  | arm
  deriving DecidableEq, Repr

inductive MainPc where
  | lcdInit
  | lcdAlarm
  | createUevent
  | testAutoboot
  | menuItem (rest : List MenuItem)
  | createAutoboot
  | testEnabled
  | testPower
  | openDevice
  | testError
  | read
  | setCommand (buffer : Bytes)
  | clearAlarm (buffer : Bytes)
  | callLcd (buffer : Bytes)
  | setLcd (buffer : Bytes) (lcd : Lcd)
  | find (buffer : Bytes)
  | testDisable (buffer : Bytes)
  | disable (buffer : Bytes)
  | battery (buffer : Bytes)
  | fail
  | lock
  | disableKeypress
  | callHandler
  | handler
  | enableKeypress
  | unlock
  | testCommand
  | failUnanswered
  | resetAlarm
  deriving DecidableEq, Repr

structure State where
  autobootEnabled : Bool
  powerPressed : Bool
  ignoreKeypress : Bool
  actionMutex : Bool
  fastbootState : FbState
  /-- `lcd_state`, a null pointer at first -/
  lcd : Option Lcd
  alarm : Bool
  sigalrm : Bool
  items : List MenuItem
  selected : Nat
  saved : Source → Status
  /-- cleared by what does not return: `kexec`, a reboot, the call of a null pointer -/
  running : Bool
  main : MainPc
  autoboot : AutobootPc
  input : InputPc
  uevent : UeventPc
  sig : SigPc

def init : State where
  autobootEnabled := false
  powerPressed := false
  ignoreKeypress := false
  actionMutex := false
  fastbootState := .offline
  lcd := none
  alarm := false
  sigalrm := false
  items := [.poweroff, .reboot, .rebootPreos]
  selected := 0
  saved := fun _ => .unknown
  running := true
  main := .lcdInit
  autoboot := .absent
  input := .wait
  uevent := .absent
  sig := .wait

inductive Act where
  | main
  | opened (ok : Bool)
  | packet (r : Option Bytes)
  | battery (low : Bool)
  | handlerState (ok : Bool)
  | handlerReturn
  | autoboot
  | autobootBoot (ok : Bool)
  | key (ev : InputEvent)
  | input
  | inputLeave (ok : Bool)
  | inputBoot (ok : Bool)
  | uevent
  | status (status : Status)
  | expire
  | signal
  deriving DecidableEq, Repr

namespace State

def setAlarm (s : State) (seconds : Int) : State :=
  { s with alarm := seconds != 0 }

/-- `RESET_ALARM`, taken as one step -/
def resetAlarm (inp : Input) (s : State) : State :=
  (s.setAlarm 0).setAlarm inp.lcdDimTimeout

def clearAlarm (s : State) : State :=
  s.setAlarm 0

def menuSelected (s : State) (selected : Nat) : State :=
  { s with selected := (selected + s.items.length) % s.items.length }

def menuAction (s : State) : InputPc :=
  match s.items[s.selected]? with
  | some item => if item.boots then .boot .mount else .leave
  | none => .wait

end State

def bootItems (inp : Input) : List MenuItem :=
  .boot .kernel :: .boot .kernelBak :: .boot .mmc :: if inp.enableNfs then [.boot .nfs] else []

def known (inp : Input) (buffer : Bytes) : Bool :=
  inp.cmdlist.any fun cmd => cmd.name.isPrefixOf buffer

def refused (low : Bool) (buffer : Bytes) : Bool :=
  low && batteryCmds.any fun name => name.isPrefixOf buffer

/-- `lcd_state(ev)`, whose value `next` is to assign -/
def callLcd (s : State) (ev : LcdEvent) (next : Lcd → State) : State :=
  match s.lcd with
  | some lcd => next (lcd.call ev)
  | none => { s with running := false }

def mainStep (inp : Input) (s : State) (a : Act) : Option State :=
  match s.main, a with
  | .lcdInit, .main => some { s with lcd := some .on, main := .lcdAlarm }
  | .lcdAlarm, .main => some { s.resetAlarm inp with main := .createUevent }
  | .createUevent, .main => some { s with uevent := .test .usb, main := .testAutoboot }
  | .testAutoboot, .main =>
    some { s with
      main :=
        if inp.useAutoboot && !inp.updateLocation then .menuItem (bootItems inp) else .testEnabled }
  | .menuItem (item :: rest), .main =>
    some { s with items := s.items ++ [item], main := .menuItem rest }
  | .menuItem [], .main => some { s.menuSelected 3 with main := .createAutoboot }
  | .createAutoboot, .main => some { s with autoboot := .enable, main := .testEnabled }
  | .testEnabled, .main =>
    some { s with main := if s.autobootEnabled then .testEnabled else .testPower }
  | .testPower, .main => some { s with main := if s.powerPressed then .testEnabled else .openDevice }
  | .openDevice, .opened ok => some { s with main := if ok then .testError else .openDevice }
  | .testError, .main =>
    if s.fastbootState = .error then
      some { s with fastbootState := .offline, main := .openDevice }
    else
      some { s with main := .read }
  | .read, .packet none => some { s with fastbootState := .offline, main := .openDevice }
  | .read, .packet (some packet) =>
    if packet.length ≤ 64 then some { s with main := .setCommand (cmdBuffer packet) } else none
  | .setCommand buffer, .main => some { s with fastbootState := .command, main := .clearAlarm buffer }
  | .clearAlarm buffer, .main => some { s.clearAlarm with main := .callLcd buffer }
  | .callLcd buffer, .main => some (callLcd s .command fun lcd => { s with main := .setLcd buffer lcd })
  | .setLcd buffer lcd, .main => some { s with lcd := some lcd, main := .find buffer }
  | .find buffer, .main =>
    some { s with main := if known inp buffer then .testDisable buffer else .fail }
  | .testDisable buffer, .main =>
    some { s with main := if s.autobootEnabled then .disable buffer else .battery buffer }
  | .disable buffer, .main => some { s with autobootEnabled := false, main := .battery buffer }
  | .battery buffer, .battery low =>
    some { s with main := if refused low buffer then .fail else .lock }
  | .fail, .main => some { s with fastbootState := .complete, main := .testError }
  | .lock, .main =>
    if s.actionMutex then none else some { s with actionMutex := true, main := .disableKeypress }
  | .disableKeypress, .main => some { s with ignoreKeypress := true, main := .callHandler }
  | .callHandler, .main => some { s with main := .handler }
  | .handler, .handlerState ok => some { s with fastbootState := if ok then .complete else .error }
  | .handler, .handlerReturn => some { s with main := .enableKeypress }
  | .enableKeypress, .main => some { s with ignoreKeypress := false, main := .unlock }
  | .unlock, .main => some { s with actionMutex := false, main := .testCommand }
  | .testCommand, .main =>
    some { s with main := if s.fastbootState = .command then .failUnanswered else .resetAlarm }
  | .failUnanswered, .main => some { s with fastbootState := .complete, main := .resetAlarm }
  | .resetAlarm, .main => some { s.resetAlarm inp with main := .testError }
  | _, _ => none

/--
A step of a boot: the state behind it and where the boot goes on, `none` at its end. `ok` is the outcome
of what the step calls.
-/
def bootStep (s : State) (pc : BootPc) (ok : Bool) : State × Option BootPc :=
  match pc with
  | .mount => (s, some (if ok then .precheck else .umount))
  | .precheck => (s, some (if ok then .kexec else .clearPower))
  | .kexec => ({ s with running := !ok }, some .clearPower)
  | .clearPower => ({ s with powerPressed := false }, some .umount)
  | .umount => (s, none)

def countdownFrom (inp : Input) : Nat :=
  (if inp.autobootDelaySecs > 100 then 100 else inp.autobootDelaySecs).toNat

def autobootStep (inp : Input) (s : State) (a : Act) : Option State :=
  match s.autoboot, a with
  | .enable, .autoboot =>
    some { s with
      autobootEnabled := true
      autoboot := if inp.autobootDelaySecs ≤ 0 then .early else .testEnabled (countdownFrom inp) }
  | .early, .autoboot =>
    some { s with autoboot := if s.autobootEnabled then .boot .mount else .returned }
  | .testEnabled seconds, .autoboot =>
    some { s with
      autoboot := if seconds ≠ 0 ∧ s.autobootEnabled then .testPower seconds else .readEnabled }
  | .testPower seconds, .autoboot =>
    some { s with autoboot := if s.powerPressed then .readEnabled else .tick seconds }
  | .tick seconds, .autoboot => some { s with autoboot := .testEnabled (seconds - 1) }
  | .readEnabled, .autoboot => some { s with autoboot := .clearEnabled s.autobootEnabled }
  | .clearEnabled ret, .autoboot =>
    some { s with autobootEnabled := false, autoboot := if ret then .boot .mount else .returned }
  | .boot pc, .autobootBoot ok =>
    let (s', next) := bootStep s pc ok
    some { s' with autoboot := (next.map .boot).getD .returned }
  | _, _ => none

def inputStep (inp : Input) (s : State) (a : Act) : Option State :=
  match s.input, a with
  | .wait, .key ev => some { s with input := if s.ignoreKeypress then .wait else .testEnabled ev }
  | .testEnabled ev, .input =>
    if s.autobootEnabled && ev.isKey then
      some { s with input := if ev.code = .power then .pressPower else .testDisable }
    else if ev.isKey && ev.value == 1 && ev.code != .other then
      some { s with input := .resetAlarm ev.code }
    else
      some { s with input := .wait }
  | .pressPower, .input => some { s with powerPressed := true, input := .wait }
  | .testDisable, .input => some { s with input := if s.autobootEnabled then .disable else .wait }
  | .disable, .input => some { s with autobootEnabled := false, input := .wait }
  | .resetAlarm code, .input => some { s.resetAlarm inp with input := .testLcd code }
  | .testLcd code, .input => some { s with input := if s.lcd = some .on then .menu code else .callLcd }
  | .callLcd, .input => some (callLcd s .key fun lcd => { s with input := .setLcd lcd })
  | .setLcd lcd, .input => some { s with lcd := some lcd, input := .wait }
  | .menu .volumeUp, .input =>
    some { s.menuSelected (s.selected + s.items.length - 1) with input := .wait }
  | .menu .volumeDown, .input => some { s.menuSelected (s.selected + 1) with input := .wait }
  | .menu .power, .input => some { s with input := s.menuAction }
  | .leave, .inputLeave ok => some { s with running := !ok, input := .wait }
  | .boot pc, .inputBoot ok =>
    let (s', next) := bootStep s pc ok
    some { s' with input := (next.map .boot).getD .wait }
  | _, _ => none

/-- Where `ui_callback` goes on once it is done with a status -/
def Source.next : Source → UeventPc
  | .usb => .test .charger
  | .charger => .wait

def ueventStep (inp : Input) (s : State) (a : Act) : Option State :=
  match s.uevent, a with
  | .wait, .uevent => some { s with uevent := .test .usb }
  | .test src, .status status =>
    some { s with uevent := if s.saved src = status then src.next else .resetAlarm src status }
  | .resetAlarm src status, .uevent => some { s.resetAlarm inp with uevent := .callLcd src status }
  | .callLcd src status, .uevent =>
    some (callLcd s .usbEvent fun lcd => { s with uevent := .setLcd src status lcd })
  | .setLcd src status lcd, .uevent =>
    some { s with
      lcd := some lcd
      saved := fun src' => if src' = src then status else s.saved src'
      uevent := src.next }
  | _, _ => none

def signalStep (inp : Input) (s : State) (a : Act) : Option State :=
  match s.sig, a with
  | .wait, .signal => if s.sigalrm then some { s with sigalrm := false, sig := .testActive } else none
  | .testActive, .signal =>
    some { s with sig := if s.fastbootState = .command then .wait else .callLcd }
  | .callLcd, .signal => some (callLcd s .idle fun lcd => { s with sig := .setLcd lcd })
  | .setLcd lcd, .signal => some { s with lcd := some lcd, sig := .testDim }
  | .testDim, .signal => some { s with sig := if s.lcd = some .dim then .arm else .wait }
  | .arm, .signal => some { s.setAlarm inp.lcdOffTimeout with sig := .wait }
  | _, _ => none

def expireStep (s : State) : Option State :=
  if s.alarm then some { s with alarm := false, sigalrm := true } else none

def step (inp : Input) (s : State) (a : Act) : Option State :=
  if s.running then
    match a with
    | .main | .opened _ | .packet _ | .battery _ | .handlerState _ | .handlerReturn => mainStep inp s a
    | .autoboot | .autobootBoot _ => autobootStep inp s a
    | .key _ | .input | .inputLeave _ | .inputBoot _ => inputStep inp s a
    | .uevent | .status _ => ueventStep inp s a
    | .signal => signalStep inp s a
    | .expire => expireStep s
  else
    none

end Threads
