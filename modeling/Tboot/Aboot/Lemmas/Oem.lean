import Tboot.Aboot.Lemmas.Basic
import Tboot.Fastboot.Lemmas.Basic

/-!
This module contains what `cmd_oem` makes of its argument: the runs between the blanks, of which there are
none when the argument has tabs but no text.
-/

namespace Aboot

open Fastboot

def blank (c : UInt8) : Bool :=
  c = 32 || c = 9

theorem contains_blank (c : UInt8) : (str " \t").contains c = blank c := by
  have hblanks : str " \t" = [32, 9] := by decide
  rw [hblanks]
  simp [blank, List.contains_eq_mem]

theorem tokens_blank {s : Bytes} (h : 0 ∉ s) : tokens (str " \t") s = pieces blank s := by
  rw [tokens_of_not_mem _ h]
  apply pieces_congr
  intro c _
  exact contains_blank c

namespace cmdOem

theorem split_eq (room : Nat) (str1 : Option Bytes) (saveptr : Bytes)
    : (split room str1 saveptr).1 = (tokens (str " \t") (str1.getD saveptr)).take room := by
  induction room generalizing str1 saveptr with
  | zero =>
    rw [List.take_zero]
    rfl
  | succ room ih =>
    obtain ⟨hfirst, hothers⟩ := strtok_spec str1 (str " \t") saveptr
    unfold split
    rw [Scan.bind_apply]
    cases hargs : tokens (str " \t") (str1.getD saveptr) with
    | nil =>
      rw [hargs] at hfirst
      rw [hfirst]
      rfl
    | cons arg args =>
      rw [hargs] at hfirst hothers
      rw [List.tail_cons] at hothers
      rw [hfirst, List.take_succ_cons, ← hothers]
      exact congrArg (List.cons arg) (ih none _)

end cmdOem

def argvOf (arg saveptr : Bytes) : List Bytes :=
  (cmdOem.split cmdOem.maxOemArgs (some (arg.dropWhile (· = 32))) saveptr).1

theorem argvOf_eq_oemArgv (arg saveptr : Bytes) : argvOf arg saveptr = oemArgv arg :=
  cmdOem.split_eq _ _ _

theorem argvOf_eq {arg : Bytes} (hstring : 0 ∉ arg) (saveptr : Bytes)
    : argvOf arg saveptr = (pieces blank arg).take cmdOem.maxOemArgs := by
  have hsub : arg.dropWhile (· = 32) <:+ arg := List.dropWhile_suffix _
  rw [argvOf_eq_oemArgv]
  unfold oemArgv
  rw [tokens_blank (fun h => hstring (hsub.subset h)), pieces_dropWhile]
  intro c hc
  simp_all [blank]

theorem argvOf_eq_nil_iff {arg : Bytes} (hstring : 0 ∉ arg) (saveptr : Bytes)
    : argvOf arg saveptr = [] ↔ ∀ c ∈ arg, blank c = true := by
  rw [argvOf_eq hstring, ← pieces_eq_nil_iff, List.take_eq_nil_iff]
  apply or_iff_right
  decide

def callWith (cfg : Config) (argv : List Bytes) (data : Bytes) : HProg Unit := do
  if !(← HProg.outside .strdup) then
    HProg.fail (str "memory allocation error")
  else
    cmdOem.call cfg argv data

theorem cmdOem_eq_callWith {arg : Bytes} (hspaces : ∃ c ∈ arg, c ≠ 32) (cfg : Config) (data saveptr : Bytes)
    : cmdOem cfg arg data = callWith cfg (argvOf arg saveptr) data := by
  have hne : arg.dropWhile (· = 32) ≠ [] := by
    intro hnil
    obtain ⟨c, hmem, hc⟩ := hspaces
    exact hc (by simpa using List.dropWhile_eq_nil_iff.mp hnil c hmem)
  rw [argvOf_eq_oemArgv]
  unfold cmdOem callWith
  simp only [hne, ↓reduceIte]
  rfl

/-! ### The null pointer -/

def NotNull (op : Op) : Prop :=
  op ≠ .halt (.segv .argv)

theorem push_notNull (cfg : Config) (argv : List Bytes) (data : Bytes) : (cmdOem.push cfg argv data).Only NotNull := by
  unfold cmdOem.push
  split
  all_goals simp [NotNull]

theorem callback_notNull (cb : Callback (List Bytes)) (argv : List Bytes) : (cb.run argv).Only NotNull := by
  apply (cb.only argv).mono
  intro op hop hnull
  rw [hnull] at hop
  exact hop

theorem call_notNull (cfg : Config) {argv : List Bytes} (hargv : argv ≠ []) (data : Bytes)
    : (cmdOem.call cfg argv data).Only NotNull := by
  unfold cmdOem.call
  split
  . contradiction
  . split
    . next cb _ =>
      rw [Prog.Only.perform_bind_iff]
      refine ⟨nofun, fun _ => ?_⟩
      apply Prog.Only.bind (callback_notNull cb _)
      simp [NotNull]
    . split
      . exact push_notNull _ _ _
      . simp [NotNull]

/-! ### The argument -/

structure Tokenised (arg saveptr : Bytes) (words : List Bytes) : Prop where
  runs : Runs blank arg words
  argv : argvOf arg saveptr = words.take cmdOem.maxOemArgs
  argc : 1 ≤ (argvOf arg saveptr).length
  first : ∃ name ∈ words, (argvOf arg saveptr)[0]? = some name
  called : ∀ cfg data, cmdOem cfg arg data = callWith cfg (argvOf arg saveptr) data
  notNull : ∀ cfg data, (cmdOem cfg arg data).Only NotNull

theorem tokenised_of_text {arg : Bytes} (hstring : 0 ∉ arg) (htext : ∃ c ∈ arg, blank c = false) (saveptr : Bytes)
    : Tokenised arg saveptr (pieces blank arg) := by
  have hspaces : ∃ c ∈ arg, c ≠ 32 := by
    obtain ⟨c, hmem, hc⟩ := htext
    refine ⟨c, hmem, ?_⟩
    intro h
    rw [h] at hc
    contradiction
  have hne : argvOf arg saveptr ≠ [] := by
    intro hnil
    obtain ⟨c, hmem, hc⟩ := htext
    rw [(argvOf_eq_nil_iff hstring saveptr).mp hnil c hmem] at hc
    contradiction
  have hargv := argvOf_eq hstring saveptr
  have hcalled (cfg : Config) (data : Bytes) := cmdOem_eq_callWith hspaces cfg data saveptr
  refine ⟨runs_iff.mpr rfl, hargv, List.length_pos_iff.mpr hne, ?_, hcalled, ?_⟩
  . obtain ⟨name, rest, hcons⟩ := List.exists_cons_of_ne_nil hne
    refine ⟨name, ?_, by rw [hcons]; rfl⟩
    apply List.mem_of_mem_take (i := cmdOem.maxOemArgs)
    rw [← hargv, hcons]
    exact List.mem_cons_self
  . intro cfg data
    rw [hcalled cfg data]
    simp [callWith, NotNull, call_notNull cfg hne data]

/--
The argument is taken apart as it should be if it has some text in it; of tabs alone the loop makes no
argument, and the null pointer in `argv[0]` is looked up.
-/
theorem tokenised_iff {arg : Bytes} (hstring : 0 ∉ arg)
    : (∀ saveptr, ∃ words, Tokenised arg saveptr words) ↔ ∃ c ∈ arg, c ≠ 32 ∧ c ≠ 9 := by
  have htext : (∃ c ∈ arg, c ≠ 32 ∧ c ≠ 9) ↔ ∃ c ∈ arg, blank c = false := by simp [blank]
  rw [htext]
  constructor
  . intro h
    obtain ⟨words, htokenised⟩ := h []
    have hne := List.length_pos_iff.mp htokenised.argc
    rw [Ne, argvOf_eq_nil_iff hstring] at hne
    simpa using hne
  . intro h saveptr
    exact ⟨_, tokenised_of_text hstring h saveptr⟩

theorem tokenised_tab_text
    : 0 ∉ str "\ta" ∧ ∀ saveptr, ∃ words, Tokenised (str "\ta") saveptr words := by
  refine ⟨by decide, ?_⟩
  apply (tokenised_iff (by decide)).mpr
  decide

theorem tab_null_argv
    : (∃ c ∈ str "\t", c ≠ 32)
        ∧ (¬ ∃ words, Tokenised (str "\t") [] words)
        ∧ (System.run (serve (hostOf [str "oem\t"]) (cmds (plain none []) [])) (start []) [()]).map Server.halted
            = some (some (.segv .argv)) := by
  refine ⟨by decide, ?_, by decide⟩
  intro h
  obtain ⟨words, htokenised⟩ := h
  have hnil : argvOf (str "\t") [] = [] := by decide
  have hargc := htokenised.argc
  rw [hnil] at hargc
  contradiction

end Aboot
