import Tboot.Util.PrefixTable
import Tboot.Fastboot.Impl.Buffer
import Tboot.Fastboot.Lemmas.Slices

/-!
This module contains the refinement of the command loop: what it does with a packet, whatever packets came
before, is to give the rest of it to the most specific command.
-/

open Proc

namespace Fastboot

open PrefixTable

/-! ### What the loop is for -/

namespace Longest

def perform (env : Env) (cmd : Cmd) (packet : Bytes) : Fb Unit := do
  let w ← get
  if checkBattery env w && batteryCmds.any fun name => name.isPrefixOf packet then
    fastbootFail env (str "can't do this operation when battery low")
  else
    emit (.handle cmd.name)
    runHandler env cmd.handle (cstr (packet.drop cmd.name.length))
    let w ← get
    if w.state = .command then
      fastbootFail env (str "unknown reason")

def dispatch (env : Env) (registered : List Cmd) (packet : Bytes) : Fb Unit :=
  match longest Cmd.name registered packet with
  | none => fastbootFail env (str "unknown command")
  | some cmd => perform env cmd packet

def commandLoop (env : Env) (registered : List Cmd) : Fb Unit := do
  let w ← get
  if w.state = .error then
    setState .offline
  else
    emit .await
    let (ok, packet) ← usbRead env 64
    if !ok then
      setState .offline
    else
      setState .command
      dispatch env registered packet

end Longest

/-! ### Zeros behind a packet -/

variable {env : Env} {cmdlist : List Cmd}

theorem isPrefixOf_zeros {name packet : Bytes} (hname : 0 ∉ name) (n : Nat)
    : name.isPrefixOf (packet ++ List.replicate n 0) = name.isPrefixOf packet := by
  rw [Bool.eq_iff_iff, List.isPrefixOf_iff_prefix, List.isPrefixOf_iff_prefix]
  exact prefix_append_zeros hname

theorem battery_zeros (packet : Bytes) (n : Nat)
    : (batteryCmds.any fun name => name.isPrefixOf (packet ++ List.replicate n 0))
        = batteryCmds.any fun name => name.isPrefixOf packet := by
  have hflash := @isPrefixOf_zeros (str "flash") packet (by decide) n
  have herase := @isPrefixOf_zeros (str "erase") packet (by decide) n
  have hsystem := @isPrefixOf_zeros (str "oem system") packet (by decide) n
  unfold batteryCmds
  simp only [List.any_cons, List.any_nil, hflash, herase, hsystem]

theorem dispatch_zeros (hname : ∀ cmd ∈ cmdlist, 0 ∉ cmd.name) (packet : Bytes) (n : Nat)
    : dispatch env cmdlist (packet ++ List.replicate n 0) = dispatch env cmdlist packet := by
  have hfind : (cmdlist.find? fun cmd => cmd.name.isPrefixOf (packet ++ List.replicate n 0))
      = cmdlist.find? fun cmd => cmd.name.isPrefixOf packet :=
    scan_congr (fun cmd hcmd => prefix_append_zeros (hname cmd hcmd))
  unfold dispatch
  rw [hfind, battery_zeros]
  simp only [cstr_drop_zeros]

theorem dispatch_longest {registered : List Cmd} (hordered : Ordered Cmd.name registered) (packet : Bytes)
    : dispatch env registered.reverse packet = Longest.dispatch env registered packet := by
  have hfind : (registered.reverse.find? fun cmd => cmd.name.isPrefixOf packet) = longest Cmd.name registered packet :=
    scan_eq_longest hordered packet
  unfold dispatch Longest.dispatch
  rw [hfind]
  rfl

theorem commandLoop_longest {registered : List Cmd} (hordered : Ordered Cmd.name registered)
    (hname : ∀ cmd ∈ registered, 0 ∉ cmd.name)
    : commandLoop env registered.reverse = Longest.commandLoop env registered := by
  have hname' : ∀ cmd ∈ registered.reverse, 0 ∉ cmd.name := fun cmd hcmd => hname cmd (List.mem_reverse.mp hcmd)
  have hdispatch (packet : Bytes) : dispatch env registered.reverse (cmdBuffer packet) = Longest.dispatch env registered packet := by
    rw [← dispatch_longest hordered]
    exact dispatch_zeros hname' packet _
  unfold commandLoop Longest.commandLoop
  simp only [hdispatch]

/-! ### The buffer -/

namespace Buffered

/-- Only the first 64 bytes are ever used. -/
def Clean (buffer : Bytes) : Prop :=
  buffer.drop 64 = List.replicate (bufferSize - 64) 0

theorem clean_zeros : Clean (List.replicate bufferSize 0) :=
  List.drop_replicate

theorem clean_packet {packet : Bytes} (hpacket : packet.length ≤ 64)
    : Clean (packet ++ List.replicate (bufferSize - packet.length) 0) := by
  unfold Clean bufferSize
  rw [List.drop_append, List.drop_eq_nil_of_le hpacket, List.nil_append, List.drop_replicate]
  congr 1
  omega

section Turn

variable {buffer : Bytes} (h : Clean buffer)

include h

theorem cleared : List.replicate 64 0 ++ buffer.drop 64 = List.replicate bufferSize 0 := by
  rw [h, List.replicate_append_replicate]
  rfl

theorem filled (packet : Bytes)
    : packet ++ (List.replicate 64 0 ++ buffer.drop 64).drop packet.length
        = packet ++ List.replicate (bufferSize - packet.length) 0 := by
  rw [cleared h, List.drop_replicate]

theorem terminated (packet : Bytes)
    : (packet ++ (List.replicate 64 0 ++ buffer.drop 64).drop packet.length).set packet.length 0
        = packet ++ List.replicate (bufferSize - packet.length) 0 := by
  rw [filled h, List.set_append_right _ _ (Nat.le_refl _), Nat.sub_self]
  cases bufferSize - packet.length with
  | zero => rfl
  | succ n => rfl

theorem commandLoop_clean (hname : ∀ cmd ∈ cmdlist, 0 ∉ cmd.name)
    : (fun _ => ()) <$> commandLoop env cmdlist buffer = Fastboot.commandLoop env cmdlist := by
  have hdispatch (packet : Bytes)
      : dispatch env cmdlist (packet ++ List.replicate (bufferSize - packet.length) 0)
          = dispatch env cmdlist (cmdBuffer packet) := by
    rw [dispatch_zeros hname]
    exact (dispatch_zeros hname packet _).symm
  unfold commandLoop Fastboot.commandLoop
  rw [map_bind]
  apply bind_congr
  intro w
  split
  . rfl
  . rw [map_bind]
    apply bind_congr
    intro _
    rw [map_bind]
    apply bind_congr
    rintro ⟨ok, packet⟩
    dsimp only
    rw [terminated h, hdispatch]
    split
    . rfl
    . rw [map_bind]
      apply bind_congr
      intro _
      rw [map_bind]
      exact bind_pure_unit

theorem clean_keeps (w : World)
    : wp (commandLoop env cmdlist buffer) (fun buffer' _ => Clean buffer') (fun _ => True) w := by
  unfold commandLoop
  simp only [wp_bind, wp_get]
  split
  . exact h
  . simp only [wp_bind, emit, wp_modify]
    refine wp_mono (usbRead_readOnly env 64 _) ?_ (fun _ _ => trivial)
    rintro ⟨ok, packet⟩ w' ⟨es, hread⟩
    have hclean := clean_packet hread.length_le
    dsimp only
    rw [terminated h, filled h]
    split
    . exact hclean
    . simp only [wp_bind, setState, wp_modify, wp_pure]
      exact wp_mono (wp_true _) (fun _ _ _ => hclean) (fun _ => id)

end Turn

variable {base : Bytes} {s : Server}

theorem serves_clean (h : Serves env cmdlist base s) : Clean s.buffer := by
  apply System.Reaches.invariant (P := fun s => Clean s.buffer) clean_zeros _ h
  intro t u _ ht _ hstep
  have hkeeps : wp (commandLoop env cmdlist t.buffer) (fun buffer' _ => Clean buffer') (fun _ => True) t.world :=
    clean_keeps ht t.world
  unfold serve at hstep
  split at hstep
  . contradiction
  . unfold wp at hkeeps
    split at hstep
    . next buffer w hexec =>
      rw [hexec] at hkeeps
      obtain rfl := Option.some.inj hstep
      exact hkeeps
    . obtain rfl := Option.some.inj hstep
      exact ht

/-- The buffer makes no difference to the server. -/
theorem serves_server (hname : ∀ cmd ∈ cmdlist, 0 ∉ cmd.name) (h : Serves env cmdlist base s)
    : Fastboot.Serves env cmdlist base s.toServer := by
  induction h with
  | refl => exact .refl
  | @tail t u _ hrun _ hstep ih =>
    apply System.Reaches.tail (a := ()) ih trivial
    have hloop : (fun _ => ()) <$> commandLoop env cmdlist t.buffer = Fastboot.commandLoop env cmdlist :=
      commandLoop_clean (serves_clean hrun) hname
    unfold serve at hstep
    unfold Fastboot.serve Server.run
    cases hrunning : t.halted with
    | some e =>
      rw [hrunning] at hstep
      contradiction
    | none =>
      rw [hrunning] at hstep
      rw [← hloop, exec_map]
      dsimp only at hstep ⊢
      split at hstep
      . next buffer w hexec =>
        rw [hexec]
        obtain rfl := Option.some.inj hstep
        rfl
      . next e w hexec =>
        rw [hexec]
        obtain rfl := Option.some.inj hstep
        rfl

end Buffered

end Fastboot
