import Tboot.Fastboot.Lemmas.Dispatch
import Tboot.Aboot.Lemmas.Basic

/-!
This module contains that the commands of `aboot.c` and `fastboot.c` are registered in an order in which the
first match is the most specific one.
-/

open Proc

namespace Fastboot

def registerAll (registered : List Cmd) : List Cmd :=
  registered.foldl (fun cmdlist cmd => register cmdlist cmd.name cmd.handle) []

theorem registerAll_eq (registered : List Cmd) : registerAll registered = registered.reverse := by
  have hfold (cmdlist : List Cmd)
      : registered.foldl (fun cmdlist cmd => register cmdlist cmd.name cmd.handle) cmdlist = registered.reverse ++ cmdlist := by
    induction registered generalizing cmdlist with
    | nil => rfl
    | cons cmd registered ih =>
      rw [List.foldl_cons, ih, List.reverse_cons, List.append_assoc]
      rfl
  unfold registerAll
  rw [hfold, List.append_nil]

end Fastboot

namespace Aboot

open Fastboot PrefixTable

def registered (cfg : Config) (varlist : List Var) : List Cmd :=
  (cmds cfg varlist).reverse

theorem registered_names (cfg : Config) (varlist : List Var)
    : (registered cfg varlist).map Cmd.name
        = [str "oem", str "boot", str "reboot", str "reboot-bootloader", str "erase:", str "flash:", str "getvar:",
            str "download:"] :=
  rfl

theorem registered_ordered (cfg : Config) (varlist : List Var) : Ordered Cmd.name (registered cfg varlist) := by
  have hnames : Ordered id ((registered cfg varlist).map Cmd.name) := by
    rw [registered_names]
    decide
  exact List.pairwise_map.mp hnames

theorem registered_nonzero (cfg : Config) (varlist : List Var) : ∀ cmd ∈ registered cfg varlist, 0 ∉ cmd.name := by
  have hnames : ∀ name ∈ (registered cfg varlist).map Cmd.name, 0 ∉ name := by
    rw [registered_names]
    decide
  intro cmd hcmd
  exact hnames cmd.name (List.mem_map_of_mem hcmd)

/--
Every turn of the loop, after any turns before it, does with the packet what the most specific command
asks for; and in every table that is filled in such an order the first match is the longest.
-/
theorem commandLoop_most_specific
    : (∀ (cfg : Config) (varlist : List Var) (env : Env) (base : Bytes) (s : Buffered.Server),
        Buffered.Serves env (cmds cfg varlist) base s →
          (fun _ => ()) <$> Buffered.commandLoop env (cmds cfg varlist) s.buffer
            = Longest.commandLoop env (registered cfg varlist))
      ∧ ∀ regs : List Cmd, Ordered Cmd.name regs → ∀ packet,
          ((registerAll regs).find? fun cmd => cmd.name.isPrefixOf packet) = longest Cmd.name regs packet
          ∧ (∀ cmd, longest Cmd.name regs packet = some cmd
              ↔ ∃ earlier later, PrefixTable.Longest Cmd.name regs packet cmd earlier later)
          ∧ (longest Cmd.name regs packet = none ↔ ∀ cmd ∈ regs, ¬ cmd.name <+: packet) := by
  constructor
  . intro cfg varlist env base s hserves
    have hcmds : cmds cfg varlist = (registered cfg varlist).reverse := (List.reverse_reverse _).symm
    have hname : ∀ cmd ∈ cmds cfg varlist, 0 ∉ cmd.name :=
      fun cmd hcmd => registered_nonzero cfg varlist cmd (List.mem_reverse.mpr hcmd)
    rw [Buffered.commandLoop_clean (Buffered.serves_clean hserves) hname, hcmds]
    exact commandLoop_longest (registered_ordered cfg varlist) (registered_nonzero cfg varlist)
  . intro regs hordered packet
    refine ⟨?_, longest_eq_some_iff regs packet, longest_eq_none_iff regs packet⟩
    rw [registerAll_eq]
    exact scan_eq_longest hordered packet

def twoPackets : Env :=
  hostOf [str "unknown command", str "getvar:fastboot"]

theorem commandLoop_most_specific_getvar
    : (∃ s, Buffered.Serves twoPackets (cmds (plain none []) []) [] s ∧ (s.buffer.take 7) = str "unknown"
        ∧ .handle (str "getvar:") ∈ ((Longest.commandLoop twoPackets (registered (plain none []) [])).exec s.world).2.log
        ∧ (fun _ => ()) <$> Buffered.commandLoop twoPackets (cmds (plain none []) []) s.buffer
            = Longest.commandLoop twoPackets (registered (plain none []) []))
      ∧ ((registerAll (registered (plain none []) [])).find? fun cmd => cmd.name.isPrefixOf (str "reboot-bootloader"))
          = longest Cmd.name (registered (plain none []) []) (str "reboot-bootloader") := by
  have hrun : (System.run (Buffered.serve twoPackets (cmds (plain none []) [])) (Buffered.start []) [()]).any
      (fun s => s.buffer.take 7 = str "unknown"
        ∧ .handle (str "getvar:")
          ∈ ((Longest.commandLoop twoPackets (registered (plain none []) [])).exec s.world).2.log) = true := by
    decide +kernel
  obtain ⟨s, hs, hbuffer, hhandle⟩ := System.Reaches.exists_of_run (fun _ _ _ => trivial) hrun
  exact ⟨⟨s, hs, hbuffer, hhandle, commandLoop_most_specific.1 _ _ _ _ s hs⟩,
    (commandLoop_most_specific.2 _ (registered_ordered _ _) _).1⟩

end Aboot
