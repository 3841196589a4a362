import Tboot.Aboot.Lemmas.Basic
import Tboot.Fastboot.Lemmas.Transfer

/-!
This module contains what a packet can do when the battery is low. The gate of the loop looks at the
packet, `cmd_oem` at the tokens in it; a packet passes when they see different things.
-/

open Proc

namespace Aboot

open Fastboot

def Destroys (e : Event) : Prop :=
  e = .handle (str "flash:") ∨ e = .handle (str "erase:") ∨ e = .oem (str "system")

instance (e : Event) : Decidable (Destroys e) :=
  inferInstanceAs (Decidable (_ ∨ _ ∨ _))

def turn (env : Env) (cmdlist : List Cmd) (w : World) : List Event :=
  let w' := ((commandLoop env cmdlist).exec w).2
  w'.log.take (w'.log.length - w.log.length)

def Blocked (packet : Bytes) : Prop :=
  ∀ (env : Env) (cfg : Config) (varlist : List Var) (w : World), w.state ≠ .error
    → env.read w.reads = some packet → env.capacity (w.reads + 1) < env.batThreshold
    → ∀ e ∈ turn env (cmds cfg varlist) w, ¬Destroys e

/-- The first argument of `oem` is `system`, but what is between them is not one blank. -/
def Bypasses (packet : Bytes) : Prop :=
  str "oem" <+: packet ∧ ¬str "oem system" <+: packet
    ∧ (oemArgv (cstr (packet.drop 3))).head? = some (str "system")

instance : DecidablePred Bypasses :=
  fun _ => inferInstanceAs (Decidable (_ ∧ _ ∧ _))

namespace Battery

theorem isPrefixOf_cmdBuffer {name packet : Bytes} (hname : 0 ∉ name)
    : name.isPrefixOf (cmdBuffer packet) = true ↔ name <+: packet := by
  rw [List.isPrefixOf_iff_prefix]
  exact prefix_append_zeros hname

theorem turn_of_extends {env : Env} {cmdlist : List Cmd} {w : World} {p : Event → Prop}
    (h : wp (commandLoop env cmdlist) (fun _ => Extends p w.log) (Extends p w.log) w)
    : ∀ e ∈ turn env cmdlist w, p e := by
  rw [wp_const] at h
  obtain ⟨es, hlog, hall⟩ := h
  have hturn : turn env cmdlist w = es := by
    unfold turn
    simp [hlog]
  rw [hturn]
  exact hall

def afterPacket (env : Env) (w : World) : World :=
  { w with
    state := .command
    reads := w.reads + 1
    log := [.state .command, .read 64 ((env.read w.reads).map (List.take 64)), .await] ++ w.log }

theorem commandLoop_packet {env : Env} {cmdlist : List Cmd} {w : World} {packet : Bytes}
    {I E : World → Prop} (hstate : w.state ≠ .error) (hread : env.read w.reads = some packet)
    (h : wp (dispatch env cmdlist (cmdBuffer (packet.take 64))) (fun _ => I) E (afterPacket env w))
    : wp (commandLoop env cmdlist) (fun _ => I) E w := by
  have hpacket := usbRead_packet (w := { w with log := .await :: w.log }) hstate hread
  apply commandLoop_spec (fun herror => absurd herror hstate)
    (fun _ => wp_mono hpacket (fun _ _ => id) (fun _ => False.elim))
  . rintro packet' w1 ⟨hno, _⟩
    cases hno
  . rintro packet' w1 ⟨heq, rfl⟩
    cases heq
    exact h

/-! ### What the gate stops -/

theorem spares_inner (e : Event) (he : e.Inner) : ¬Destroys e := by
  rintro (rfl | rfl | rfl)
  all_goals exact he

theorem program_spares {env : Env} {log : List Event} {p : HProg Unit} (hp : p.Only Tame)
    : Keeps (Extends (¬Destroys ·) log) (p.interp (runOp env)) :=
  (extends_keptByParts spares_inner).program hp (fun _ hno => hno.elim)
    (fun _ _ => extends_emit (by simp [Destroys]))

theorem cmdOem_spares {env : Env} {cfg : Config} {log : List Event} {arg data : Bytes}
    (harg : (oemArgv arg).head? ≠ some (str "system"))
    : Keeps (Extends (¬Destroys ·) log) ((cmdOem cfg arg data).interp (runOp env)) := by
  apply (extends_keptByParts spares_inner).program (tame.cmdOem arg data)
  . rintro name (hno | ⟨name', hname, hhead⟩)
    . exact hno.elim
    . apply extends_emit
      rintro (heq | heq | heq)
      . cases heq
      . cases heq
      . cases hname
        cases heq
        exact harg hhead
  . exact fun _ _ => extends_emit (by simp [Destroys])

theorem handler_spares {env : Env} {log : List Event} {name arg : Bytes}
    {run : Bytes → Bytes → HProg Unit} (hname : ¬Destroys (.handle name))
    (hrun : ∀ data, Keeps (Extends (¬Destroys ·) log) ((run arg data).interp (runOp env)))
    : Keeps (Extends (¬Destroys ·) log) (do
        emit (.handle name)
        runHandler env (.program run) arg) := by
  apply Keeps.bind (extends_emit hname)
  intro _
  apply Keeps.bind Keeps.get
  intro w
  exact hrun _

def Gated (packet : Bytes) : Prop :=
  (batteryCmds.any fun name => name.isPrefixOf (cmdBuffer packet)) = true

theorem gated_of_isPrefixOf (name : Bytes) {cmd packet : Bytes} (hname : name ∈ batteryCmds)
    (hcmd : name <+: cmd) (hpacket : cmd.isPrefixOf (cmdBuffer packet) = true) : Gated packet := by
  rw [List.isPrefixOf_iff_prefix] at hpacket
  unfold Gated
  rw [List.any_eq_true]
  exact ⟨name, hname, List.isPrefixOf_iff_prefix.mpr (hcmd.trans hpacket)⟩

theorem oem_argv {packet : Bytes} (hname : (str "oem").isPrefixOf (cmdBuffer packet) = true)
    (hgate : ¬Gated packet) (hbypass : ¬Bypasses packet)
    : (oemArgv (cstr ((cmdBuffer packet).drop (str "oem").length))).head? ≠ some (str "system") := by
  have hoem : str "oem" <+: packet := (isPrefixOf_cmdBuffer (by decide)).mp hname
  have hsystem : ¬str "oem system" <+: packet := by
    intro h
    exact hgate (gated_of_isPrefixOf _ (by decide) List.prefix_rfl ((isPrefixOf_cmdBuffer (by decide)).mpr h))
  unfold cmdBuffer
  rw [cstr_drop_zeros]
  intro hhead
  exact hbypass ⟨hoem, hsystem, hhead⟩

theorem passed_spares {env : Env} {cfg : Config} {varlist : List Var} {packet : Bytes}
    {log : List Event} {cmd : Cmd} (hmem : cmd ∈ cmds cfg varlist) (hbypass : ¬Bypasses packet)
    (hname : cmd.name.isPrefixOf (cmdBuffer packet) = true) (hgate : ¬Gated packet)
    : Keeps (Extends (¬Destroys ·) log) (do
        emit (.handle cmd.name)
        runHandler env cmd.handle (cstr ((cmdBuffer packet).drop cmd.name.length))) := by
  simp only [cmds, initCmds, registerCommands, register, List.mem_cons, List.not_mem_nil, or_false] at hmem
  -- `download:` and `getvar:` of `fastboot_init` come first, then the commands of `aboot.c`, the last one first.
  rcases hmem with rfl | rfl | rfl | rfl | rfl | rfl | rfl | rfl
  all_goals dsimp only at hname ⊢
  . exact Keeps.bind (extends_emit (by decide)) (fun _ => extends_cmdDownload spares_inner _)
  . exact handler_spares (by decide) (fun _ => program_spares (tame.cmdGetvar _ _))
  . exact absurd (gated_of_isPrefixOf (str "flash") (by decide) (by decide) hname) hgate
  . exact absurd (gated_of_isPrefixOf (str "erase") (by decide) (by decide) hname) hgate
  . exact handler_spares (by decide) (fun _ => program_spares tame.cmdReboot)
  . exact handler_spares (by decide) (fun _ => program_spares tame.cmdReboot)
  . exact handler_spares (by decide) (fun _ => program_spares tame.cmdBoot)
  . exact handler_spares (by decide) (fun _ => cmdOem_spares (oem_argv hname hgate hbypass))

theorem dispatch_spares {env : Env} {cfg : Config} {varlist : List Var} {packet : Bytes}
    {log : List Event} {w : World} (hlow : checkBattery env w = true) (hbypass : ¬Bypasses packet)
    (h : Extends (¬Destroys ·) log w)
    : wp (dispatch env (cmds cfg varlist) (cmdBuffer packet)) (fun _ => Extends (¬Destroys ·) log)
        (Extends (¬Destroys ·) log) w := by
  apply dispatch_spec (fun text => extends_fail spares_inner text w h)
    (fun text w' _ => extends_fail spares_inner text w')
  intro cmd hmem hname hgate
  rw [hlow, Bool.true_and] at hgate
  exact passed_spares hmem hbypass hname (by simp [Gated, hgate]) w h

/-! ### What passes -/

def systemPlugin : Config where
  diskInfo := none
  volumes := []
  flashCmds := []
  oemCmds := [(str "system", ⟨fun _ => pure true, fun _ => trivial⟩)]
  pushDir := str "/tmp"
  patience := 0

def lowHost (packet : Bytes) : Env :=
  { hostOf [packet] with capacity := fun _ => 0, batThreshold := 1 }

def Called (w : World) : Prop :=
  .oem (str "system") ∈ w.log

section Called

variable {env : Env}

theorem Called.extends {w w' : World} (h : Called w) (hw' : Extends (fun _ => True) w.log w')
    : Called w' := by
  obtain ⟨es, hlog, _⟩ := hw'
  unfold Called
  rw [hlog]
  exact List.mem_append_right es h

theorem called_keeps {α : Type} {x : Fb α} (hx : ∀ log, Keeps (Extends (fun _ => True) log) x)
    : Keeps Called x := by
  intro w h
  apply wp_mono (hx w.log w (Extends.refl w))
  . intro _ w'
    exact h.extends
  . intro w'
    exact h.extends

theorem called_fail (text : Bytes) : Keeps Called (fastbootFail env text) :=
  called_keeps (fun _ => extends_fail (fun _ _ => trivial) text)

theorem called_program (p : HProg Unit) : Keeps Called (p.interp (runOp env)) := by
  apply called_keeps
  intro log
  exact (extends_keptByParts (fun _ _ => trivial)).program (Prog.only_true p)
    (fun _ _ => extends_emit trivial) (fun _ _ => extends_emit trivial)

theorem cmdOem_called {arg data : Bytes} {w : World}
    (harg : (oemArgv arg).head? = some (str "system")) (hmem : env.outside w.outsides .strdup = true)
    : wp ((cmdOem systemPlugin arg data).interp (runOp env)) (fun _ => Called) Called w := by
  have hne : arg.dropWhile (· = 32) ≠ [] := by
    intro hnil
    simp [oemArgv, hnil, tokens, cstr] at harg
  obtain ⟨rest, hargv⟩ := List.head?_eq_some_iff.mp harg
  unfold oemArgv at hargv
  unfold cmdOem
  simp only [hne, ↓reduceIte, hargv, cmdOem.call]
  simp only [Prog.wp_interp_bind, Prog.wp_interp_perform, runOp, wp_askOutside, hmem, Bool.not_true,
    Bool.false_eq_true, ↓reduceIte]
  have hlookup : systemPlugin.oemCmds.lookup (str "system") = some ⟨fun _ => pure true, fun _ => trivial⟩ := by
    rfl
  rw [hlookup]
  rw [Prog.wp_interp_bind, Prog.wp_interp_perform]
  apply called_program
  exact List.mem_cons_self

end Called

theorem dispatch_called {packet : Bytes} {env : Env} {w : World} (hbypass : Bypasses packet)
    (hmem : env.outside w.outsides .strdup = true)
    : wp (dispatch env (cmds systemPlugin []) (cmdBuffer packet)) (fun _ => Called) Called w := by
  obtain ⟨⟨rest, rfl⟩, hsystem, hargv⟩ := hbypass
  have hfind : (cmds systemPlugin []).find? (fun cmd => cmd.name.isPrefixOf (cmdBuffer (str "oem" ++ rest)))
      = some ⟨str "oem", .program fun arg data => cmdOem systemPlugin arg data⟩ := by
    rfl
  have hgate : (batteryCmds.any fun name => name.isPrefixOf (cmdBuffer (str "oem" ++ rest))) = false := by
    have hflash : (str "flash").isPrefixOf (cmdBuffer (str "oem" ++ rest)) = false := rfl
    have herase : (str "erase").isPrefixOf (cmdBuffer (str "oem" ++ rest)) = false := rfl
    have hoem : (str "oem system").isPrefixOf (cmdBuffer (str "oem" ++ rest)) = false := by
      rw [Bool.eq_false_iff]
      intro h
      exact hsystem ((isPrefixOf_cmdBuffer (by decide)).mp h)
    simp [batteryCmds, hflash, herase, hoem]
  have harg : cstr ((cmdBuffer (str "oem" ++ rest)).drop (str "oem").length)
      = cstr ((str "oem" ++ rest).drop 3) :=
    cstr_drop_zeros _ _ _
  unfold dispatch
  rw [hfind]
  simp only [wp_bind, wp_get, hgate, Bool.and_false, Bool.false_eq_true, ↓reduceIte, emit, wp_modify,
    runHandler, harg]
  apply wp_mono (cmdOem_called hargv (by exact hmem)) _ (fun _ => id)
  intro _ w1 h1
  split
  . exact called_fail _ w1 h1
  . exact h1

theorem not_blocked {packet : Bytes} (hbypass : Bypasses (packet.take 64)) : ¬Blocked packet := by
  intro hblocked
  have hcalled : wp (commandLoop (lowHost packet) (cmds systemPlugin [])) (fun _ => Called) Called
      (start []).world :=
    commandLoop_packet (by decide) rfl (dispatch_called hbypass rfl)
  rw [wp_const] at hcalled
  have hlow : (lowHost packet).capacity 1 < (lowHost packet).batThreshold := by
    change (0 : Int) < 1
    decide
  -- The log of the start is empty, so that the events of the turn are the whole log.
  have hturn : turn (lowHost packet) (cmds systemPlugin []) (start []).world
      = ((commandLoop (lowHost packet) (cmds systemPlugin [])).exec (start []).world).2.log :=
    List.take_of_length_le (Nat.le_refl _)
  have hspared := hblocked (lowHost packet) systemPlugin [] (start []).world (by decide) rfl hlow
  rw [hturn] at hspared
  exact hspared _ hcalled (Or.inr (Or.inr rfl))

theorem blocked {packet : Bytes} (hbypass : ¬Bypasses (packet.take 64)) : Blocked packet := by
  intro env cfg varlist w hstate hread hlow
  apply turn_of_extends
  apply commandLoop_packet hstate hread
  apply dispatch_spares _ hbypass
  . refine ⟨[_, _, _], rfl, ?_⟩
    simp [Destroys]
  . exact decide_eq_true hlow

end Battery

theorem blocked_iff_not_bypasses (packet : Bytes) : Blocked packet ↔ ¬Bypasses (packet.take 64) := by
  constructor
  . intro hblocked hbypass
    exact Battery.not_blocked hbypass hblocked
  . exact Battery.blocked

theorem twoBlanks_notBlocked
    : ¬Blocked (str "oem  system") ∧ ¬Blocked (str "oem\tsystem") ∧ ¬Blocked (str "oemsystem") := by
  refine ⟨?_, ?_, ?_⟩
  all_goals
    apply Battery.not_blocked
    decide

end Aboot
