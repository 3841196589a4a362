import Tboot.Threads.Lemmas.Basic

/-!
This module contains when the handler of a command and a boot, which both touch the disk, exclude each
other. A boot does not take `action_mutex`: what keeps it off is that the keys are ignored while a handler
runs, and that the main thread has waited for the countdown.
-/

namespace Threads

variable {inp : Input} {s t : State} {a : Act}

def AutobootPc.booting : AutobootPc → Bool
  | .boot _ => true
  | _ => false

def InputPc.booting : InputPc → Bool
  | .boot _ => true
  | _ => false

def State.booting (s : State) : Prop :=
  s.autoboot.booting = true ∨ s.input.booting = true

instance (s : State) : Decidable s.booting :=
  inferInstanceAs (Decidable (_ ∨ _))

/-- The autoboot thread is done, or it is going to return without a boot. -/
def AutobootPc.settled (enabled : Bool) : AutobootPc → Bool
  | .absent | .returned => true
  | .early | .testEnabled _ | .testPower _ | .tick _ | .readEnabled => !enabled
  | .clearEnabled ret => !ret
  | .enable | .boot _ => false

/-- The key that the input thread deals with is not going to start a boot, which the power key does if `menu`. -/
def InputPc.settled (menu : Bool) : InputPc → Bool
  | .testEnabled ev => !(ev.isKey && ev.value == 1 && ev.code == .power && menu)
  | .resetAlarm code | .testLcd code | .menu code => !(code == .power && menu)
  | .boot _ => false
  | _ => true

def State.settled (s : State) : Prop :=
  s.autoboot.settled s.autobootEnabled = true ∧ s.input.settled s.menuBoots = true

instance (s : State) : Decidable s.settled :=
  inferInstanceAs (Decidable (_ ∧ _))

/-- A handler is called only when no other thread is in a boot or on its way to one. -/
def calledSettled (s : State) (a : Act) : Prop :=
  a = .main → s.main = .callHandler → s.settled

instance (s : State) (a : Act) : Decidable (calledSettled s a) :=
  inferInstanceAs (Decidable (_ → _ → _))

def MainPc.keysOff : MainPc → Bool
  | .callHandler | .handler | .enableKeypress => true
  | _ => false

def MainPc.handling : MainPc → Bool
  | .handler => true
  | _ => false

def KeysOff (s : State) : Prop :=
  s.main.keysOff = true → s.ignoreKeypress = true

def HandlerSettled (s : State) : Prop :=
  s.main.handling = true → s.settled

theorem keysOff_of_mainMoves (h : KeysOff s) (hmove : MainMoves inp s a t) : KeysOff t := by
  cases hmove with
  | disableKeypress => exact fun _ => rfl
  | callHandler hpc => exact fun _ => h (by simp [hpc, MainPc.keysOff])
  | handlerReturn hpc => exact fun _ => h (by simp [hpc, MainPc.keysOff])
  | callNull | handlerState => exact h
  | _ =>
    simp only [KeysOff, apply_ite MainPc.keysOff]
    simp [MainPc.keysOff]

theorem keysOff_of_moves (h : KeysOff s) (hmove : Moves inp s a t) : KeysOff t := by
  rcases moves_cases hmove with hmain | hautoboot | hinput | hdisplay
  . exact keysOff_of_mainMoves h hmain
  . cases hautoboot
    all_goals
      exact h
  . cases hinput
    all_goals
      exact h
  . rw [hdisplay]
    exact h

theorem handlerSettled_of_mainMoves (h : HandlerSettled s) (hguard : calledSettled s a)
    (hmove : MainMoves inp s a t)
    : HandlerSettled t := by
  cases hmove with
  | callHandler hpc => exact fun _ => hguard rfl hpc
  | callNull | handlerState => exact h
  | _ =>
    simp only [HandlerSettled, apply_ite MainPc.handling]
    simp [MainPc.handling]

theorem AutobootPc.settled_false {pc : AutobootPc} {enabled : Bool} (h : pc.settled enabled = true)
    : pc.settled false = true := by
  unfold settled at *
  split at h
  all_goals
    simp_all

theorem settled_of_autobootMoves (h : s.settled) (hmove : AutobootMoves inp s a t) : t.settled := by
  refine ⟨?_, ?_⟩
  . have hautoboot := h.1
    cases hmove with
    | enable hpc => simp [hpc, AutobootPc.settled] at hautoboot
    | early hpc =>
      simp only [hpc, AutobootPc.settled, Bool.not_eq_true'] at hautoboot
      simp [hautoboot, AutobootPc.settled]
    | testEnabled hpc =>
      simp only [hpc, AutobootPc.settled, Bool.not_eq_true'] at hautoboot
      simp [hautoboot, AutobootPc.settled]
    | testPower hpc =>
      simp only [hpc, AutobootPc.settled] at hautoboot
      simp only
      split
      all_goals
        exact hautoboot
    | tick hpc => simpa [hpc, AutobootPc.settled] using hautoboot
    | readEnabled hpc => simpa [hpc, AutobootPc.settled] using hautoboot
    | clearEnabled hpc =>
      simp only [hpc, AutobootPc.settled, Bool.not_eq_true'] at hautoboot
      simp [hautoboot, AutobootPc.settled]
    | mount hpc => simp [hpc, AutobootPc.settled] at hautoboot
    | precheck hpc => simp [hpc, AutobootPc.settled] at hautoboot
    | kexec hpc => simp [hpc, AutobootPc.settled] at hautoboot
    | clearPower hpc => simp [hpc, AutobootPc.settled] at hautoboot
    | umount hpc => simp [hpc, AutobootPc.settled] at hautoboot
  . have hinput := h.2
    cases hmove
    all_goals
      exact hinput

theorem settled_of_inputMoves (h : s.settled) (hkeys : s.ignoreKeypress = true)
    (hmove : InputMoves inp s a t)
    : t.settled := by
  have hinput := h.2
  cases hmove with
  | key hpc =>
    refine ⟨h.1, ?_⟩
    simp [hkeys, InputPc.settled]
  | countdownKey =>
    refine ⟨h.1, ?_⟩
    simp only
    split
    all_goals
      rfl
  | @menuKey ev hpc henabled hkey hvalue =>
    have hcode : (InputPc.resetAlarm ev.code).settled s.menuBoots = true := by
      simpa [hpc, InputPc.settled, hkey, hvalue] using hinput
    exact ⟨h.1, hcode⟩
  | disable => exact ⟨AutobootPc.settled_false h.1, rfl⟩
  | resetAlarm hpc =>
    refine ⟨h.1, ?_⟩
    rw [hpc] at hinput
    exact hinput
  | testLcd hpc =>
    refine ⟨h.1, ?_⟩
    rw [hpc] at hinput
    simp only
    split
    . exact hinput
    . rfl
  | menuAction hpc =>
    refine ⟨h.1, ?_⟩
    rcases menuAction_cases s with haction | haction | ⟨_, hboots⟩
    . rw [haction]
      rfl
    . rw [haction]
      rfl
    . simp [hpc, InputPc.settled, hboots] at hinput
  | testDisable =>
    refine ⟨h.1, ?_⟩
    simp only
    split
    all_goals
      rfl
  | mount hpc => simp [hpc, InputPc.settled] at hinput
  | precheck hpc => simp [hpc, InputPc.settled] at hinput
  | kexec hpc => simp [hpc, InputPc.settled] at hinput
  | clearPower hpc => simp [hpc, InputPc.settled] at hinput
  | umount hpc => simp [hpc, InputPc.settled] at hinput
  | callNull => exact h
  | _ => exact ⟨h.1, rfl⟩

theorem handlerSettled_of_moves (h : HandlerSettled s) (hkeys : KeysOff s) (hguard : calledSettled s a)
    (hmove : Moves inp s a t)
    : HandlerSettled t := by
  rcases moves_cases hmove with hmain | hautoboot | hinput | hdisplay
  . exact handlerSettled_of_mainMoves h hguard hmain
  . intro hhandling
    have hbefore : s.main.handling = true := by
      cases hautoboot
      all_goals
        exact hhandling
    exact settled_of_autobootMoves (h hbefore) hautoboot
  . intro hhandling
    have hbefore : s.main.handling = true := by
      cases hinput
      all_goals
        exact hhandling
    have hoff : s.main.keysOff = true := by
      unfold MainPc.handling at hbefore
      split at hbefore
      . next hpc =>
        rw [hpc]
        rfl
      . cases hbefore
    exact settled_of_inputMoves (h hbefore) (hkeys hoff) hinput
  . rw [hdisplay]
    exact h

theorem handlerSettled_of_reaches (h : System.Reaches (step inp) calledSettled init s)
    : HandlerSettled s := by
  have hboth : KeysOff s ∧ HandlerSettled s := by
    apply h.invariant (P := fun s => KeysOff s ∧ HandlerSettled s)
    . simp [KeysOff, HandlerSettled, init, MainPc.keysOff, MainPc.handling]
    . intro t u a ht hguard hstep
      have hmove := moves_of_step hstep
      exact ⟨keysOff_of_moves ht.1 hmove, handlerSettled_of_moves ht.2 ht.1 hguard hmove⟩
  exact hboth.2

theorem State.settled.not_booting (h : s.settled) : ¬s.booting := by
  rintro (hbooting | hbooting)
  . have hautoboot := h.1
    unfold AutobootPc.booting at hbooting
    split at hbooting
    . next hpc => simp [hpc, AutobootPc.settled] at hautoboot
    . cases hbooting
  . have hinput := h.2
    unfold InputPc.booting at hbooting
    split at hbooting
    . next hpc => simp [hpc, InputPc.settled] at hinput
    . cases hbooting

theorem handler_excludes_boot (h : System.Reaches (step inp) calledSettled init s)
    : ¬(s.main = .handler ∧ s.booting) := by
  rintro ⟨hpc, hbooting⟩
  have hsettled : s.settled := handlerSettled_of_reaches h (by simp [hpc, MainPc.handling])
  exact hsettled.not_booting hbooting

section Runs

def cancelled : List Act :=
  List.flatten
    [setUp, [.autoboot], press .volumeUp, [.input], List.replicate 3 .autoboot, openServer]

theorem handler_excludes_boot_cancelled
    : ∃ s, System.Reaches (step (countsFrom 8)) calledSettled init s
        ∧ s.main = .handler ∧ ¬(s.main = .handler ∧ s.booting) := by
  have hrun : (System.guardedRun (step (countsFrom 8)) calledSettled init
      (cancelled ++ serve (str "flash:"))).any (fun s => s.main = .handler) = true := by
    decide
  obtain ⟨s, hs, hhandler⟩ := System.Reaches.exists_of_guardedRun hrun
  exact ⟨s, hs, hhandler, handler_excludes_boot hs⟩

/--
The countdown ends by itself and clears `autoboot_enabled`, which is what the main thread has waited for:
it serves a command while the kernel is being started.
-/
def servedInAutoboot : List Act :=
  List.flatten [setUp, List.replicate 7 .autoboot, openServer, serve (str "flash:")]

/-- The power key starts the kernel from the menu, and then a command arrives. -/
def servedInMenu : List Act :=
  List.flatten [cancelled, press .power, [.input, .input], serve (str "flash:")]

theorem handler_during_boot
    : (∃ s, System.Reaches (step (countsFrom 1)) (fun _ _ => True) init s
          ∧ s.main = .handler ∧ s.autoboot.booting = true)
        ∧ (∃ s, System.Reaches (step (countsFrom 8)) (fun _ _ => True) init s
          ∧ s.main = .handler ∧ s.input.booting = true) := by
  have hautoboot : (System.run (step (countsFrom 1)) init servedInAutoboot).any
      (fun s => s.main = .handler ∧ s.autoboot.booting = true) = true := by
    decide
  have hmenu : (System.run (step (countsFrom 8)) init servedInMenu).any
      (fun s => s.main = .handler ∧ s.input.booting = true) = true := by
    decide
  constructor
  . exact System.Reaches.exists_of_run (fun _ _ _ => trivial) hautoboot
  . exact System.Reaches.exists_of_run (fun _ _ _ => trivial) hmenu

end Runs

section NoAutoboot

/-!
Without autoboot there is no thread that boots and no item of the menu that does.
-/

def MainPc.setsBoot : MainPc → Bool
  | .menuItem _ | .createAutoboot => true
  | _ => false

def NoBoot (s : State) : Prop :=
  s.main.setsBoot = false ∧ s.autoboot = .absent ∧ s.input.booting = false
    ∧ ∀ item ∈ s.items, item.boots = false

theorem noBoot_of_mainMoves (hoff : (inp.useAutoboot && !inp.updateLocation) = false) (h : NoBoot s)
    (hmove : MainMoves inp s a t)
    : NoBoot t := by
  have hmain := h.1
  cases hmove with
  | testAutoboot =>
    refine ⟨?_, h.2⟩
    simp [hoff, MainPc.setsBoot]
  | menuItem hpc => simp [hpc, MainPc.setsBoot] at hmain
  | menuSelected hpc => simp [hpc, MainPc.setsBoot] at hmain
  | createAutoboot hpc => simp [hpc, MainPc.setsBoot] at hmain
  | callNull | handlerState => exact h
  | _ =>
    refine ⟨?_, h.2⟩
    simp only [apply_ite MainPc.setsBoot]
    simp [MainPc.setsBoot]

theorem menuBoots_of_items (h : ∀ item ∈ s.items, item.boots = false) : s.menuBoots = false := by
  unfold State.menuBoots
  cases hitem : s.items[s.selected]? with
  | none => rfl
  | some item =>
    rw [Option.any_some]
    exact h item (List.mem_of_getElem? hitem)

theorem noBoot_of_inputMoves (h : NoBoot s) (hmove : InputMoves inp s a t) : NoBoot t := by
  have hinput := h.2.2.1
  cases hmove with
  | menuAction =>
    refine ⟨h.1, h.2.1, ?_, h.2.2.2⟩
    rcases menuAction_cases s with haction | haction | ⟨_, hboots⟩
    . rw [haction]
      rfl
    . rw [haction]
      rfl
    . rw [menuBoots_of_items h.2.2.2] at hboots
      cases hboots
  | mount hpc => simp [hpc, InputPc.booting] at hinput
  | precheck hpc => simp [hpc, InputPc.booting] at hinput
  | kexec hpc => simp [hpc, InputPc.booting] at hinput
  | clearPower hpc => simp [hpc, InputPc.booting] at hinput
  | umount hpc => simp [hpc, InputPc.booting] at hinput
  | callNull => exact h
  | _ =>
    refine ⟨h.1, h.2.1, ?_, h.2.2.2⟩
    simp only [apply_ite InputPc.booting]
    simp [InputPc.booting]

theorem noBoot_of_moves (hoff : (inp.useAutoboot && !inp.updateLocation) = false) (h : NoBoot s)
    (hmove : Moves inp s a t)
    : NoBoot t := by
  rcases moves_cases hmove with hmain | hautoboot | hinput | hdisplay
  . exact noBoot_of_mainMoves hoff h hmain
  . exact absurd h.2.1 hautoboot.ne_absent
  . exact noBoot_of_inputMoves h hinput
  . rw [hdisplay]
    exact h

theorem NoBoot.settled (h : NoBoot s) : s.settled := by
  refine ⟨?_, ?_⟩
  . rw [h.2.1]
    rfl
  . have hinput := h.2.2.1
    rw [menuBoots_of_items h.2.2.2]
    cases hpc : s.input with
    | boot pc => simp [hpc, InputPc.booting] at hinput
    | _ => simp [InputPc.settled]

theorem calledSettled_without_autoboot (hoff : (inp.useAutoboot && !inp.updateLocation) = false)
    (h : System.Reaches (step inp) (fun _ _ => True) init s)
    : System.Reaches (step inp) calledSettled init s := by
  apply h.strengthen (P := NoBoot)
  . simp [NoBoot, init, MainPc.setsBoot, InputPc.booting, MenuItem.boots]
  . intro t u a ht _ hstep
    exact noBoot_of_moves hoff ht (moves_of_step hstep)
  . intro t u a ht _ _ _ _
    exact ht.settled

end NoAutoboot

end Threads
