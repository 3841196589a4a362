import Tboot.Threads.Lemmas.Basic

/-!
This module contains what `autoboot_thread` leaves behind: the two flags that the main thread waits for
before it starts to serve commands.
-/

namespace Threads

variable {inp : Input} {s t : State} {a : Act}

structure Countdown where
  enabled : Bool
  power : Bool
  autoboot : AutobootPc

def State.countdown (s : State) : Countdown :=
  ⟨s.autobootEnabled, s.powerPressed, s.autoboot⟩

def AutobootPc.counting : AutobootPc → Bool
  | .testEnabled _ | .testPower _ | .tick _ | .readEnabled => true
  | _ => false

def MainPc.disables : MainPc → Bool
  | .disable _ => true
  | _ => false

/--
The countdown has a second to count, the power key counts only as long as the countdown is still to read
it, a key or a command that cancels comes before the power key, and the mount of a boot that the power
key has asked for succeeds.
-/
def keysInTime (inp : Input) (s : State) : Act → Prop
  | .autoboot => s.autoboot = .enable → 0 < inp.autobootDelaySecs
  | .autobootBoot ok => s.autoboot = .boot .mount → ok = false → s.powerPressed = false
  | .input =>
    (s.input = .pressPower → s.autoboot.counting = true ∧ s.autobootEnabled = true)
      ∧ (s.input = .disable → s.powerPressed = false)
  | .main => s.main.disables = true → s.powerPressed = false
  | _ => True

instance (inp : Input) (s : State) : (a : Act) → Decidable (keysInTime inp s a)
  | .autoboot => inferInstanceAs (Decidable (_ → _))
  | .autobootBoot _ => inferInstanceAs (Decidable (_ → _ → _))
  | .input => inferInstanceAs (Decidable (_ ∧ _))
  | .main => inferInstanceAs (Decidable (_ → _))
  | .opened _ | .packet _ | .battery _ | .handlerState _ | .handlerReturn | .key _ | .inputLeave _
  | .inputBoot _ | .uevent | .status _ | .expire | .signal => inferInstanceAs (Decidable True)

/-- The power key is never left pressed: either the countdown returns 1, or `start_kernel` clears it. -/
def Countdown.Kept (c : Countdown) : Prop :=
  match c.autoboot with
  | .absent | .enable | .boot .umount | .returned => c.enabled = false ∧ c.power = false
  | .early => False
  | .testEnabled _ | .testPower _ | .tick _ | .readEnabled => c.power = true → c.enabled = true
  | .clearEnabled ret => c.power = true → ret = true
  | .boot _ => c.enabled = false

namespace Countdown.Kept

theorem cancel {c : Countdown} (h : c.Kept) (hpower : c.power = false)
    : Kept { c with enabled := false } := by
  unfold Kept at *
  split at h
  all_goals
    simp_all

theorem clearPower {c : Countdown} (h : c.Kept) : Kept { c with power := false } := by
  unfold Kept at *
  split at h
  all_goals
    simp_all

theorem pressPower {c : Countdown} (hcounting : c.autoboot.counting = true) (henabled : c.enabled = true)
    : Kept { c with power := true } := by
  unfold Kept AutobootPc.counting at *
  split at hcounting
  all_goals
    simp_all

end Countdown.Kept

theorem kept_of_mainMoves (h : s.countdown.Kept) (hnew : NotCreated s) (hguard : keysInTime inp s a)
    (hmove : MainMoves inp s a t)
    : t.countdown.Kept := by
  cases hmove with
  | createAutoboot hpc =>
    have habsent : s.autoboot = .absent := hnew (by simp [hpc, MainPc.setsUp])
    unfold State.countdown at h
    rw [habsent] at h
    exact h
  | disable hpc =>
    apply h.cancel
    apply hguard
    rw [hpc]
    rfl
  | _ => exact h

theorem kept_of_autobootMoves (h : s.countdown.Kept) (hguard : keysInTime inp s a)
    (hmove : AutobootMoves inp s a t)
    : t.countdown.Kept := by
  cases hmove with
  | enable hpc =>
    have hdelay : 0 < inp.autobootDelaySecs := hguard hpc
    simp only [State.countdown, Countdown.Kept, hpc] at h ⊢
    rw [if_neg (by omega)]
    simp
  | early hpc => simp [State.countdown, Countdown.Kept, hpc] at h
  | testEnabled hpc =>
    simp only [State.countdown, hpc] at h ⊢
    split
    all_goals
      exact h
  | testPower hpc =>
    simp only [State.countdown, hpc] at h ⊢
    split
    all_goals
      exact h
  | tick hpc =>
    simp only [State.countdown, Countdown.Kept, hpc] at h ⊢
    exact h
  | readEnabled hpc =>
    simp only [State.countdown, Countdown.Kept, hpc] at h ⊢
    exact h
  | @clearEnabled ret hpc =>
    simp only [State.countdown, Countdown.Kept, hpc] at h ⊢
    cases ret
    . simpa using h
    . simp
  | @mount ok hpc =>
    have hpower := hguard hpc
    simp only [State.countdown, Countdown.Kept, hpc] at h ⊢
    cases ok
    . exact ⟨h, hpower rfl⟩
    . exact h
  | @precheck ok hpc =>
    simp only [State.countdown, Countdown.Kept, hpc] at h ⊢
    cases ok
    all_goals
      exact h
  | kexec hpc =>
    simp only [State.countdown, Countdown.Kept, hpc] at h ⊢
    exact h
  | clearPower hpc =>
    simp only [State.countdown, Countdown.Kept, hpc] at h ⊢
    exact ⟨h, trivial⟩
  | umount hpc =>
    simp only [State.countdown, Countdown.Kept, hpc] at h ⊢
    exact h

theorem kept_of_inputMoves (h : s.countdown.Kept) (hguard : keysInTime inp s a)
    (hmove : InputMoves inp s a t)
    : t.countdown.Kept := by
  cases hmove with
  | pressPower hpc =>
    have hcounting := hguard.1 hpc
    exact Countdown.Kept.pressPower (c := s.countdown) hcounting.1 hcounting.2
  | disable hpc =>
    apply h.cancel
    exact hguard.2 hpc
  | clearPower => exact h.clearPower
  | _ => exact h

theorem kept_of_moves (h : s.countdown.Kept) (hnew : NotCreated s) (hguard : keysInTime inp s a)
    (hmove : Moves inp s a t)
    : t.countdown.Kept := by
  rcases moves_cases hmove with hmain | hautoboot | hinput | hdisplay
  . exact kept_of_mainMoves h hnew hguard hmain
  . exact kept_of_autobootMoves h hguard hautoboot
  . exact kept_of_inputMoves h hguard hinput
  . rw [hdisplay]
    exact h

theorem kept_of_reaches (h : System.Reaches (step inp) (keysInTime inp) init s)
    : s.countdown.Kept := by
  have hboth : NotCreated s ∧ s.countdown.Kept := by
    apply h.invariant (P := fun s => NotCreated s ∧ s.countdown.Kept)
    . exact ⟨fun _ => rfl, rfl, rfl⟩
    . intro t u a ht hguard hstep
      have hmove := moves_of_step hstep
      exact ⟨notCreated_of_moves ht.1 hmove, kept_of_moves ht.2 ht.1 hguard hmove⟩
  exact hboth.2

def WaitEnds (inp : Input) (s : State) : Prop :=
  (s.main = .testEnabled → (System.run (step inp) s [.main, .main]).map State.main = some .openDevice)
    ∧ (s.main = .testPower → (System.run (step inp) s [.main]).map State.main = some .openDevice)

instance (inp : Input) (s : State) : Decidable (WaitEnds inp s) :=
  inferInstanceAs (Decidable (_ ∧ _))

theorem step_testEnabled (hrunning : s.running = true) (hpc : s.main = .testEnabled)
    (henabled : s.autobootEnabled = false)
    : step inp s .main = some { s with main := .testPower } := by
  rw [step, if_pos hrunning]
  unfold mainStep
  simp [hpc, henabled]

theorem step_testPower (hrunning : s.running = true) (hpc : s.main = .testPower)
    (hpower : s.powerPressed = false)
    : step inp s .main = some { s with main := .openDevice } := by
  rw [step, if_pos hrunning]
  unfold mainStep
  simp [hpc, hpower]

theorem waitEnds (hrunning : s.running = true) (henabled : s.autobootEnabled = false)
    (hpower : s.powerPressed = false)
    : WaitEnds inp s := by
  constructor
  . intro hpc
    simp only [System.run, step_testEnabled hrunning hpc henabled, Option.bind_some]
    rw [step_testPower]
    . simp
    . exact hrunning
    . rfl
    . exact hpower
  . intro hpc
    simp [System.run, step_testPower hrunning hpc hpower]

theorem autoboot_returned_flags_clear (h : System.Reaches (step inp) (keysInTime inp) init s)
    (hreturned : s.autoboot = .returned)
    : s.autobootEnabled = false ∧ s.powerPressed = false ∧ (s.running = true → WaitEnds inp s) := by
  have hkept := kept_of_reaches h
  simp only [State.countdown, Countdown.Kept, hreturned] at hkept
  rcases hkept with ⟨henabled, hpower⟩
  exact ⟨henabled, hpower, fun hrunning => waitEnds hrunning henabled hpower⟩

section Runs

/-- The power key ends the countdown, and the kernel is missing. -/
def powerThenMissing : List Act :=
  List.flatten
    [setUp, [.autoboot], press .power, List.replicate 4 .autoboot,
      [.autobootBoot true, .autobootBoot false, .autobootBoot true, .autobootBoot true]]

theorem autoboot_returned_flags_clear_missing
    : ∃ s, System.Reaches (step (countsFrom 8)) (keysInTime (countsFrom 8)) init s
        ∧ s.autoboot = .returned
        ∧ s.autobootEnabled = false ∧ s.powerPressed = false ∧ WaitEnds (countsFrom 8) s := by
  have hrun : (System.guardedRun (step (countsFrom 8)) (keysInTime (countsFrom 8)) init
      powerThenMissing).any (fun s => s.autoboot = .returned ∧ s.running = true) = true := by
    decide
  obtain ⟨s, hs, hreturned, hrunning⟩ := System.Reaches.exists_of_guardedRun hrun
  have hclear := autoboot_returned_flags_clear hs hreturned
  exact ⟨s, hs, hreturned, hclear.1, hclear.2.1, hclear.2.2 hrunning⟩

/-- The countdown from 0 does not clear `autoboot_enabled`; the partition cannot be mounted. -/
def countdownFromZero : List Act :=
  List.flatten [setUp, [.autoboot, .autoboot, .autobootBoot false, .autobootBoot true]]

/-- The power key ends the countdown; the partition cannot be mounted, and `start_kernel` is not reached. -/
def powerThenUnmounted : List Act :=
  List.flatten
    [setUp, [.autoboot], press .power, List.replicate 4 .autoboot,
      [.autobootBoot false, .autobootBoot true]]

def ServerBlocked (inp : Input) (s : State) : Prop :=
  s.autoboot = .returned ∧ s.running = true ∧ (s.autobootEnabled = true ∨ s.powerPressed = true)
    ∧ ¬WaitEnds inp s

instance (inp : Input) : DecidablePred (ServerBlocked inp) :=
  fun _ => inferInstanceAs (Decidable (_ ∧ _))

theorem autoboot_returned_server_blocked
    : (∃ s, System.Reaches (step (countsFrom 0)) (fun _ _ => True) init s
          ∧ ServerBlocked (countsFrom 0) s)
        ∧ (∃ s, System.Reaches (step (countsFrom 8)) (fun _ _ => True) init s
          ∧ ServerBlocked (countsFrom 8) s ∧ s.autobootEnabled = false) := by
  have hzero : (System.run (step (countsFrom 0)) init countdownFromZero).any
      (fun s => ServerBlocked (countsFrom 0) s) = true := by
    decide
  have hunmounted : (System.run (step (countsFrom 8)) init powerThenUnmounted).any
      (fun s => ServerBlocked (countsFrom 8) s ∧ s.autobootEnabled = false) = true := by
    decide
  constructor
  . exact System.Reaches.exists_of_run (fun _ _ _ => trivial) hzero
  . exact System.Reaches.exists_of_run (fun _ _ _ => trivial) hunmounted

/-- The power key and another one come within one second. -/
def powerThenCancel : List Act :=
  List.flatten
    [setUp, [.autoboot], press .power, press .volumeUp, [.input], List.replicate 3 .autoboot]

example : (System.run (step (countsFrom 8)) init powerThenCancel).any
    (fun s => ServerBlocked (countsFrom 8) s) = true := by
  decide

end Runs

end Threads
