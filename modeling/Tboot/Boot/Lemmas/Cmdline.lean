import Tboot.Boot.Impl.Cmdline
import Mathlib.Data.List.Induction

/-!
This module contains what the kernel's command line does to tboot's settings: each is set by the last word
for it, but for the directory of the second stage, whose word sets the partition.
-/

namespace Boot

inductive Opt where
  | bootloader
  | delay
  | scratch
  | bootpart
  | bootdir
  | updatepause
  | platform
  deriving DecidableEq, Repr

def Opt.name : Opt → Bytes
  | .bootloader => str "tboot.bootloader"
  | .delay => str "tboot.delay"
  | .scratch => str "tboot.scratch"
  | .bootpart => str "tboot.bootpart"
  | .bootdir => str "tboot.bootdir"
  | .updatepause => str "tboot.updatepause"
  | .platform => str "tboot.platform"

def valueOf (o : Opt) (word : Bytes) : Option Bytes :=
  let key := o.name ++ str "="
  if key.isPrefixOf word then some (word.drop key.length) else none

def words (line : Bytes) : List Bytes :=
  line.splitOn 32

def lastValue (o : Opt) (line : Bytes) : Option Bytes :=
  ((words line).filterMap (valueOf o)).getLast?

/-- The settings when each is determined by the last word for its own option -/
def ownSettings (line : Bytes) : Settings :=
  let initial : Settings := {}
  { gUseAutoboot := ((lastValue .bootloader line).map atoi).getD initial.gUseAutoboot
    g2ndstagebootPart := (lastValue .bootpart line).getD initial.g2ndstagebootPart
    g2ndstagebootDir := (lastValue .bootdir line).getD initial.g2ndstagebootDir
    gAutobootDelaySecs := ((lastValue .delay line).map atoi).getD initial.gAutobootDelaySecs
    gScratchSize := ((lastValue .scratch line).map atoi).getD initial.gScratchSize
    gUpdatePause := ((lastValue .updatepause line).map atoi).getD initial.gUpdatePause
    platform := ((lastValue .platform line).map platformOf).getD initial.platform }

def partAfterDir (words : List Bytes) : Bool :=
  (words.reverse.takeWhile fun word => (valueOf .bootdir word).isNone).any fun word =>
    (valueOf .bootpart word).isSome

def DirHarmless (line : Bytes) : Prop :=
  lastValue .bootdir line = none
    ∨ (lastValue .bootdir line = some (str "boot")
      ∧ (lastValue .bootpart line = some (str "boot") ∨ partAfterDir (words line) = true))

instance (line : Bytes) : Decidable (DirHarmless line) :=
  inferInstanceAs (Decidable (_ ∨ _))

namespace Cmdline

/-! ### The words of the line -/

theorem eachWord_eq_foldlM {σ : Type} {callback : Bytes → σ → Option σ} (hnil : ∀ s, callback [] s = some s)
    (ptr : Bytes) (s : σ)
    : eachWord callback ptr s = (words ptr).foldlM (fun s word => callback word s) s := by
  unfold words
  fun_induction eachWord callback ptr s with
  | case1 s => simp [hnil]
  | case2 s c cs word hx =>
    rw [splitOn_of_drop_takeWhile_nil hx]
    simp [word]
  | case3 s c cs word y x hx hlen ih =>
    rw [splitOn_of_drop_takeWhile_cons hx, List.foldlM_cons]
    simp only [ih]
    rfl

theorem cstr_readCmdline {line contents : Bytes} (hnul : 0 ∉ line) (hlen : line.length ≤ 1023)
    (hend : line.getLast? ≠ some 10) (hcontents : contents = line ∨ contents = line ++ [10])
    : cstr (readCmdline (.contents contents)) = line := by
  have hread : readCmdline (.contents contents) = line := by
    unfold readCmdline
    dsimp only
    rcases hcontents with rfl | rfl
    . rw [List.take_of_length_le hlen, if_neg hend]
    . by_cases hfull : line.length = 1023
      . rw [← hfull, List.take_left, if_neg hend]
      . rw [List.take_of_length_le (by simp; omega)]
        simp
  rw [hread]
  exact cstr_of_not_mem hnul

/-! ### One word -/

def assign (o : Opt) (value : Bytes) (st : Settings) : Settings :=
  match o with
  | .bootloader => { st with gUseAutoboot := atoi value }
  | .delay => { st with gAutobootDelaySecs := atoi value }
  | .scratch => { st with gScratchSize := atoi value }
  | .bootpart => { st with g2ndstagebootPart := value }
  | .bootdir => { st with g2ndstagebootPart := value }
  | .updatepause => { st with gUpdatePause := atoi value }
  | .platform => { st with platform := platformOf value }

theorem name_not_mem (o : Opt) : 61 ∉ o.name := by
  cases o
  all_goals decide

theorem valueOf_some_iff {o : Opt} {word value : Bytes}
    : valueOf o word = some value ↔ word = o.name ++ 61 :: value := by
  have hkey : o.name ++ str "=" = o.name ++ [61] := rfl
  unfold valueOf
  simp only [hkey, List.isPrefixOf_iff_prefix]
  constructor
  . intro h
    split at h
    . next hpre =>
      obtain ⟨rest, rfl⟩ := hpre
      rw [List.drop_left] at h
      cases h
      simp
    . contradiction
  . rintro rfl
    have hassoc : o.name ++ 61 :: value = (o.name ++ [61]) ++ value := by simp
    rw [hassoc, if_pos (List.prefix_append _ _), List.drop_left]

theorem name_injective : ∀ o o' : Opt, o.name = o'.name → o = o' := by
  intro o o'
  cases o
  all_goals cases o'
  all_goals decide

theorem parse_named (mem : Nat → Bool) (o : Opt) (value : Bytes) (g : Globals)
    : parseCmdlineOption mem (o.name ++ 61 :: value) g
        = if o = .bootpart ∨ o = .bootdir then setBootPart mem value g
          else some { g with settings := assign o value g.settings } := by
  unfold parseCmdlineOption
  rw [takeWhile_ne_append (name_not_mem o)]
  dsimp only
  rw [List.drop_left]
  cases o
  all_goals rfl

theorem parse_named_settings {mem : Nat → Bool} {o : Opt} {value : Bytes} {g g' : Globals}
    (h : parseCmdlineOption mem (o.name ++ 61 :: value) g = some g')
    : g'.settings = assign o value g.settings := by
  rw [parse_named] at h
  split at h
  . next hpart =>
    unfold setBootPart at h
    split at h
    . cases h
      rcases hpart with rfl | rfl
      all_goals rfl
    . contradiction
  . cases h
    rfl

theorem valueOf_eq {o : Opt} {word value : Bytes} (h : valueOf o word = some value) (o' : Opt)
    : valueOf o' word = if o' = o then some value else none := by
  split
  . next heq => rw [heq, h]
  . next hne =>
    cases h' : valueOf o' word with
    | none => rfl
    | some value' =>
      rw [valueOf_some_iff] at h h'
      have hname : o'.name = o.name := by
        rw [← takeWhile_ne_append (name_not_mem o') value', ← h', h, takeWhile_ne_append (name_not_mem o)]
      exact absurd (name_injective o' o hname) hne

theorem parse_other {mem : Nat → Bool} {word : Bytes} {g : Globals} (h : ∀ o, valueOf o word = none)
    : parseCmdlineOption mem word g = some g := by
  unfold parseCmdlineOption
  dsimp only
  cases hdrop : word.drop (word.takeWhile (· ≠ 61)).length with
  | nil => rfl
  | cons x value =>
    have hword := eq_append_of_drop_takeWhile_ne hdrop
    have hne (o : Opt) : word.takeWhile (· ≠ 61) ≠ o.name := by
      intro hname
      rw [hname] at hword
      have hnone := h o
      rw [valueOf_some_iff.mpr hword] at hnone
      contradiction
    by_cases hempty : word.takeWhile (· ≠ 61) = []
    . exact if_pos hempty
    . refine (if_neg hempty).trans ?_
      by_cases htboot : (str "tboot").isPrefixOf (word.takeWhile (· ≠ 61)) = true
      . refine (if_neg (not_not_intro htboot)).trans ?_
        refine (if_neg (hne .bootloader)).trans ?_
        refine (if_neg (hne .delay)).trans ?_
        refine (if_neg (hne .scratch)).trans ?_
        refine (if_neg (hne .bootpart)).trans ?_
        refine (if_neg (hne .bootdir)).trans ?_
        refine (if_neg (hne .updatepause)).trans ?_
        exact if_neg (hne .platform)
      . exact if_pos htboot

theorem parse_cases {mem : Nat → Bool} {word : Bytes} {g g' : Globals}
    (h : parseCmdlineOption mem word g = some g')
    : (∃ o value, valueOf o word = some value ∧ g'.settings = assign o value g.settings)
      ∨ ((∀ o, valueOf o word = none) ∧ g'.settings = g.settings) := by
  by_cases hsome : ∃ o value, valueOf o word = some value
  . obtain ⟨o, value, hvalue⟩ := hsome
    rw [valueOf_some_iff.mp hvalue] at h
    exact Or.inl ⟨o, value, hvalue, parse_named_settings h⟩
  . have hnone (o : Opt) : valueOf o word = none := by
      rw [Option.eq_none_iff_forall_not_mem]
      intro value hvalue
      exact hsome ⟨o, value, hvalue⟩
    rw [parse_other hnone] at h
    cases h
    exact Or.inr ⟨hnone, rfl⟩

/-! ### All words -/

def lastOf (opts : List Opt) (ws : List Bytes) : Option Bytes :=
  (ws.filterMap fun word => opts.findSome? fun o => valueOf o word).getLast?

theorem lastOf_append (opts : List Opt) (ws : List Bytes) (word : Bytes)
    : lastOf opts (ws ++ [word]) = (opts.findSome? fun o => valueOf o word).or (lastOf opts ws) := by
  unfold lastOf
  rw [List.filterMap_append]
  cases h : opts.findSome? fun o => valueOf o word
  all_goals simp [h]

theorem findSome_valueOf {o : Opt} {word value : Bytes} (h : valueOf o word = some value) (opts : List Opt)
    : (opts.findSome? fun o' => valueOf o' word) = if o ∈ opts then some value else none := by
  induction opts with
  | nil => rfl
  | cons o' opts ih =>
    rw [List.findSome?_cons, valueOf_eq h, ih]
    by_cases heq : o' = o
    . simp [heq]
    . simp [heq, Ne.symm heq]

section Words

variable {mem : Nat → Bool} {β : Type} {field : Settings → β} {conv : Bytes → β} {opts : List Opt}

theorem field_words (hassign : ∀ o value st, field (assign o value st) = if o ∈ opts then conv value else field st)
    {ws : List Bytes} {g g' : Globals}
    (h : ws.foldlM (fun g word => parseCmdlineOption mem word g) g = some g')
    : field g'.settings = ((lastOf opts ws).map conv).getD (field g.settings) := by
  induction ws using List.reverseRecOn generalizing g' with
  | nil =>
    cases h
    rfl
  | append_singleton ws word ih =>
    rw [List.foldlM_append] at h
    obtain ⟨g1, h1, h2⟩ := Option.bind_eq_some_iff.mp h
    have hone : parseCmdlineOption mem word g1 = some g' := by simpa using h2
    rw [lastOf_append]
    rcases parse_cases hone with ⟨o, value, hvalue, hset⟩ | ⟨hnone, hset⟩
    . rw [hset, hassign, findSome_valueOf hvalue, ih h1]
      split
      all_goals rfl
    . have hfind : (opts.findSome? fun o => valueOf o word) = none := by
        rw [List.findSome?_eq_none_iff]
        exact fun o _ => hnone o
      rw [hset, ih h1, hfind, Option.none_or]

end Words

theorem partAfterDir_append (ws : List Bytes) (word : Bytes)
    : partAfterDir (ws ++ [word])
        = ((valueOf .bootdir word).isNone && ((valueOf .bootpart word).isSome || partAfterDir ws)) := by
  unfold partAfterDir
  rw [List.reverse_append, List.reverse_singleton, List.singleton_append, List.takeWhile_cons]
  cases (valueOf .bootdir word).isNone
  all_goals rfl

theorem lastOf_part_dir (ws : List Bytes)
    : lastOf [.bootpart, .bootdir] ws
        = if lastOf [.bootdir] ws = none ∨ partAfterDir ws = true then lastOf [.bootpart] ws
          else lastOf [.bootdir] ws := by
  induction ws using List.reverseRecOn with
  | nil => rfl
  | append_singleton ws word ih =>
    simp only [lastOf_append, partAfterDir_append, List.findSome?_cons, List.findSome?_nil]
    generalize partAfterDir ws = after at *
    generalize lastOf [.bootpart] ws = part at *
    generalize lastOf [.bootdir] ws = dir at *
    cases hdir : valueOf .bootdir word with
    | some value =>
      rw [valueOf_eq hdir .bootpart]
      rfl
    | none =>
      rw [ih]
      cases valueOf .bootpart word with
      | some value => simp
      | none => rfl

theorem lastValue_eq (o : Opt) (line : Bytes) : lastValue o line = lastOf [o] (words line) := by
  unfold lastValue lastOf
  simp

theorem parse_nil (mem : Nat → Bool) (g : Globals) : parseCmdlineOption mem [] g = some g :=
  rfl

theorem import_settings {mem : Nat → Bool} {line contents : Bytes} {g : Globals} (hnul : 0 ∉ line)
    (hlen : line.length ≤ 1023) (hend : line.getLast? ≠ some 10)
    (hcontents : contents = line ∨ contents = line ++ [10])
    (h : importKernelCmdline (parseCmdlineOption mem) (.contents contents) {} = some g)
    : g.settings = { ownSettings line with
        g2ndstagebootPart := (lastOf [.bootpart, .bootdir] (words line)).getD (str "platform")
        g2ndstagebootDir := str "boot" } := by
  unfold importKernelCmdline at h
  rw [cstr_readCmdline hnul hlen hend hcontents, eachWord_eq_foldlM (parse_nil mem)] at h
  have hfield {β : Type} (field : Settings → β) (conv : Bytes → β) (opts : List Opt)
      (hassign : ∀ o value st, field (assign o value st) = if o ∈ opts then conv value else field st)
      : field g.settings = ((lastOf opts (words line)).map conv).getD (field {}) :=
    field_words hassign h
  have hautoboot := hfield Settings.gUseAutoboot atoi [.bootloader] (fun o _ _ => by cases o <;> rfl)
  have hpart := hfield Settings.g2ndstagebootPart id [.bootpart, .bootdir] (fun o _ _ => by cases o <;> rfl)
  have hdir := hfield Settings.g2ndstagebootDir id [] (fun o _ _ => by cases o <;> rfl)
  have hdelay := hfield Settings.gAutobootDelaySecs atoi [.delay] (fun o _ _ => by cases o <;> rfl)
  have hscratch := hfield Settings.gScratchSize atoi [.scratch] (fun o _ _ => by cases o <;> rfl)
  have hpause := hfield Settings.gUpdatePause atoi [.updatepause] (fun o _ _ => by cases o <;> rfl)
  have hplatform := hfield Settings.platform platformOf [.platform] (fun o _ _ => by cases o <;> rfl)
  simp only [← lastValue_eq] at hautoboot hdelay hscratch hpause hplatform
  rw [Option.map_id] at hpart
  have hnone : lastOf [] (words line) = none := by simp [lastOf]
  rw [hnone] at hdir
  ext1
  all_goals assumption

theorem parse_isSome {mem : Nat → Bool} (hmem : ∀ n, mem n = true) (word : Bytes) (g : Globals)
    : (parseCmdlineOption mem word g).isSome = true := by
  by_cases hsome : ∃ o value, valueOf o word = some value
  . obtain ⟨o, value, hvalue⟩ := hsome
    rw [valueOf_some_iff.mp hvalue, parse_named]
    split
    . unfold setBootPart
      rw [if_pos (hmem _)]
      rfl
    . rfl
  . rw [parse_other]
    . rfl
    . intro o
      rw [Option.eq_none_iff_forall_not_mem]
      intro value hvalue
      exact hsome ⟨o, value, hvalue⟩

theorem import_isSome {mem : Nat → Bool} (hmem : ∀ n, mem n = true) (file : CmdlineFile) (g : Globals)
    : (importKernelCmdline (parseCmdlineOption mem) file g).isSome = true := by
  unfold importKernelCmdline
  rw [eachWord_eq_foldlM (parse_nil mem)]
  induction words (cstr (readCmdline file)) generalizing g with
  | nil => rfl
  | cons word ws ih =>
    obtain ⟨g', hg'⟩ := Option.isSome_iff_exists.mp (parse_isSome hmem word g)
    rw [List.foldlM_cons, hg']
    exact ih g'

theorem part_ne_boot : str "platform" ≠ str "boot" := by
  decide

end Cmdline

open Cmdline in
/-- The settings are those of their own options, just where no word for the directory does harm. -/
theorem import_ownSettings_iff (mem : Nat → Bool) (line contents : Bytes) (g : Globals) (hnul : 0 ∉ line)
    (hlen : line.length ≤ 1023) (hend : line.getLast? ≠ some 10)
    (hcontents : contents = line ∨ contents = line ++ [10])
    (h : importKernelCmdline (parseCmdlineOption mem) (.contents contents) {} = some g)
    : g.settings = ownSettings line ↔ DirHarmless line := by
  have heq : g.settings = ownSettings line
      ↔ (lastOf [.bootpart, .bootdir] (words line)).getD (str "platform")
            = (lastValue .bootpart line).getD (str "platform")
          ∧ (lastValue .bootdir line).getD (str "boot") = str "boot" := by
    rw [import_settings hnul hlen hend hcontents h, Settings.ext_iff]
    simp [ownSettings, eq_comm]
  rw [heq, lastOf_part_dir, ← lastValue_eq, ← lastValue_eq]
  unfold DirHarmless
  have hne := part_ne_boot
  cases hdir : lastValue .bootdir line with
  | none => simp
  | some dir =>
    simp only [reduceCtorEq, false_or, Option.getD_some, Option.some_inj]
    by_cases hafter : partAfterDir (words line) = true
    . simp [hafter]
    . rw [if_neg hafter, Option.getD_some, and_comm]
      simp only [hafter, or_false, Bool.false_eq_true]
      apply and_congr_right
      rintro rfl
      cases lastValue .bootpart line with
      | none => simp [part_ne_boot.symm]
      | some part => simp [eq_comm]

def dirThenPart : Bytes :=
  str "quiet tboot.bootdir=boot tboot.delay=3 tboot.bootpart=system"

theorem import_ownSettings_dirThenPart
    : importKernelCmdline (parseCmdlineOption fun _ => true) (.contents (dirThenPart ++ [10])) {}
          = some ⟨{ g2ndstagebootPart := str "system", gAutobootDelaySecs := 3 }, 2⟩
        ∧ { g2ndstagebootPart := str "system", gAutobootDelaySecs := 3 } = ownSettings dirThenPart := by
  have himport : importKernelCmdline (parseCmdlineOption fun _ => true) (.contents (dirThenPart ++ [10])) {}
      = some ⟨{ g2ndstagebootPart := str "system", gAutobootDelaySecs := 3 }, 2⟩ := by
    unfold importKernelCmdline
    rw [Cmdline.eachWord_eq_foldlM (Cmdline.parse_nil _)]
    decide
  refine ⟨himport, ?_⟩
  exact (import_ownSettings_iff _ dirThenPart _ _ (by decide) (by decide) (by decide) (Or.inr rfl) himport).mpr
    (by decide)

theorem import_not_ownSettings
    : ∃ g, importKernelCmdline (parseCmdlineOption fun _ => true) (.contents (str "tboot.bootdir=boot2\n")) {}
          = some g
        ∧ g.settings.g2ndstagebootPart = str "boot2" ∧ g.settings.g2ndstagebootDir = str "boot"
        ∧ (ownSettings (str "tboot.bootdir=boot2")).g2ndstagebootPart = str "platform"
        ∧ (ownSettings (str "tboot.bootdir=boot2")).g2ndstagebootDir = str "boot2" := by
  refine ⟨⟨{ g2ndstagebootPart := str "boot2" }, 1⟩, ?_, rfl, rfl, ?_, ?_⟩
  . unfold importKernelCmdline
    rw [Cmdline.eachWord_eq_foldlM (Cmdline.parse_nil _)]
    decide
  . decide
  . decide

end Boot
