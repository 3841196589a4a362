import Tboot.Aboot.Impl.Stdio
import Tboot.Aboot.Lemmas.Basic

/-!
This module contains what `oem push` answers, and what is in the file afterwards.
-/

namespace Aboot

open Fastboot cmdOem

namespace Storage

section Exec

variable (env : Storage) (s : State)

theorem exec_perform_bind {α : Type} {op : Op} {r : op.Resp} {t : State} (h : (env.run op).exec s = (.ok r, t))
    (f : op.Resp → HProg α)
    : ((Prog.perform op >>= f).interp env.run).exec s = ((f r).interp env.run).exec t := by
  change (env.run op >>= fun r => (f r).interp env.run).exec s = _
  rw [Proc.exec_bind, h]

theorem exec_perform {op : Op} {r : op.Resp} {t : State} (h : (env.run op).exec s = (.ok r, t))
    : ((Prog.perform op : HProg op.Resp).interp env.run).exec s = (.ok r, t) := by
  change (env.run op >>= fun r => pure r).exec s = _
  rw [Proc.exec_bind, h]
  rfl

theorem exec_reply_fail (text : Bytes) : (env.run (.api (.fail text))).exec s = (.ok (), s.reply .fail text) :=
  rfl

theorem exec_reply_okay (text : Bytes) : (env.run (.api (.okay text))).exec s = (.ok (), s.reply .okay text) :=
  rfl

theorem exec_fopen (path : Bytes)
    : (env.run (.outside (.fopen path))).exec s = (.ok (env.fopen path s).1, (env.fopen path s).2) :=
  rfl

theorem exec_fwrite (contents : Bytes)
    : (env.run (.outside (.fwrite contents))).exec s = (.ok (env.fwrite contents s).1, (env.fwrite contents s).2) :=
  rfl

theorem exec_fclose : (env.run (.outside .fclose)).exec s = (.ok true, env.fclose s) :=
  rfl

end Exec

def saved (env : Storage) (path data : Bytes) (s : State) : State :=
  let result := OutStream.empty.fwrite env.taken env.chunks data
  let s := { s.put path (result.2.fclose env.taken) with truncated := s.truncated ++ [path] }
  if result.1 then s.reply .okay path else s.reply .fail (str "oem push, fwrite")

def outcome (env : Storage) (path data : Bytes) (s : State) : State :=
  if env.strdup = false then
    s.reply .fail (str "memory allocation error")
  else if tooLarge env.statfs data then
    s.reply .fail (str "file size is too large.")
  else if env.opens = false then
    s.reply .fail (str "create file failed.")
  else
    env.saved path data s

structure Pushes (cfg : Config) (arg file : Bytes) : Prop where
  argv : oemArgv arg = [str "push", file]
  builtin : cfg.oemCmds.lookup (str "push") = none
  notHelp : ¬(file = str "-h" ∨ file = str "--help")

def opened (path : Bytes) (s : State) : State :=
  { s.put path [] with truncated := s.truncated ++ [path], fp := some (path, OutStream.empty) }

theorem fclose_fwrite (env : Storage) (path data : Bytes) {s : State} (hfp : s.fp = none) (code : Code) (text : Bytes)
    : env.fclose ((env.fwrite data (opened path s)).2.reply code text)
        = State.reply code text
            { s.put path ((OutStream.empty.fwrite env.taken env.chunks data).2.fclose env.taken) with
              truncated := s.truncated ++ [path] } := by
  unfold opened fwrite fclose State.reply State.put
  simp only [State.mk.injEq, hfp, and_true]
  funext p
  split
  all_goals simp

def save (tmpfile data : Bytes) : HProg Unit := do
  if !(← HProg.outside (.fwrite data)) then
    HProg.fail (str "oem push, fwrite")
    let _ ← HProg.outside .fclose
  else
    HProg.okay tmpfile
    let _ ← HProg.outside .fclose

theorem exec_save (env : Storage) (path data : Bytes) {s : State} (hfp : s.fp = none)
    : ((save path data).interp env.run).exec (opened path s) = (.ok (), env.saved path data s) := by
  have hsaved : (env.fwrite data (opened path s)).1 = (OutStream.empty.fwrite env.taken env.chunks data).1 := rfl
  unfold save saved
  dsimp only
  rw [exec_perform_bind env _ (exec_fwrite env _ _), hsaved]
  cases (OutStream.empty.fwrite env.taken env.chunks data).1 with
  | true =>
    have hokay := exec_reply_okay env (env.fwrite data (opened path s)).2 path
    rw [if_neg (by simp), if_pos rfl, exec_perform_bind env _ hokay, exec_perform_bind env _ (exec_fclose env _),
      fclose_fwrite env _ _ hfp]
    rfl
  | false =>
    have hfail := exec_reply_fail env (env.fwrite data (opened path s)).2 (str "oem push, fwrite")
    rw [if_pos (by rfl), if_neg (by simp), exec_perform_bind env _ hfail, exec_perform_bind env _ (exec_fclose env _),
      fclose_fwrite env _ _ hfp]
    rfl

theorem exec_push (env : Storage) (cfg : Config) {file : Bytes} (hfile : ¬(file = str "-h" ∨ file = str "--help"))
    (data : Bytes) {s : State} (hfp : s.fp = none)
    : ((push cfg [str "push", file] data).interp env.run).exec s
        = (.ok (),
            if tooLarge env.statfs data then
              s.reply .fail (str "file size is too large.")
            else if env.opens = false then
              s.reply .fail (str "create file failed.")
            else
              env.saved (pushPath cfg.pushDir file) data s) := by
  have hstatfs : (env.run (.statfs cfg.pushDir)).exec s = (.ok env.statfs, s) := rfl
  unfold push
  dsimp only
  rw [if_neg hfile, exec_perform_bind env _ hstatfs]
  by_cases hlarge : tooLarge env.statfs data = true
  . rw [if_pos hlarge, if_pos hlarge, exec_perform env _ (exec_reply_fail env _ _)]
  . rw [if_neg hlarge, if_neg hlarge, exec_perform_bind env _ (exec_fopen env _ _)]
    unfold fopen
    cases env.opens with
    | false => exact exec_perform env _ (exec_reply_fail env _ _)
    | true => exact exec_save env _ data hfp

theorem exec_cmdOem (env : Storage) {cfg : Config} {arg file : Bytes} (h : Pushes cfg arg file) (data : Bytes)
    (files : Bytes → Option Bytes)
    : ((cmdOem cfg arg data).interp env.run).exec (State.start files)
        = (.ok (), env.outcome (pushPath cfg.pushDir file) data (State.start files)) := by
  have hne : arg.dropWhile (· = 32) ≠ [] := by
    intro hnil
    have hargv := h.argv
    unfold oemArgv at hargv
    rw [hnil] at hargv
    contradiction
  have hargv : (tokens (str " \t") (arg.dropWhile (· = 32))).take maxOemArgs = [str "push", file] := h.argv
  have hstrdup : (env.run (.outside .strdup)).exec (State.start files) = (.ok env.strdup, State.start files) := rfl
  unfold cmdOem outcome
  dsimp only
  rw [if_neg hne, exec_perform_bind env _ hstrdup, hargv]
  cases env.strdup with
  | false =>
    exact exec_perform env _ (exec_reply_fail env _ _)
  | true =>
    rw [if_neg (by simp), if_neg (by simp)]
    unfold call
    dsimp only
    rw [h.builtin]
    dsimp only
    rw [if_pos rfl]
    exact exec_push env cfg h.notHelp data rfl

/-! ### The truth -/

section Truth

variable (env : Storage) (data : Bytes)

theorem fwrite_empty_fst_iff
    : (OutStream.empty.fwrite env.taken env.chunks data).1 = true
        ↔ OutStream.WritesWhole env.taken 0 data.length env.chunks :=
  OutStream.flushes_fst_iff

theorem fclose_fwrite_eq_iff (hwhole : OutStream.WritesWhole env.taken 0 data.length env.chunks)
    : (OutStream.empty.fwrite env.taken env.chunks data).2.fclose env.taken = data
        ↔ data.length - env.chunks.sum ≤ env.taken env.chunks.length := by
  have hcontents : (OutStream.empty.fwrite env.taken env.chunks data).2.contents = data :=
    OutStream.flushes_contents env.chunks
  have hclose := @OutStream.fclose_eq_contents_iff env.taken (OutStream.empty.fwrite env.taken env.chunks data).2
  obtain ⟨file, hflushes⟩ := @OutStream.flushes_of_whole env.taken ⟨[], data, 0⟩ _ hwhole
  have hfwrite : OutStream.empty.fwrite env.taken env.chunks data
      = (true, ⟨file, data.drop env.chunks.sum, 0 + env.chunks.length⟩) :=
    hflushes
  rw [hcontents] at hclose
  rw [hclose, hfwrite, List.length_drop, Nat.zero_add]

end Truth

def after (env : Storage) (cfg : Config) (arg data : Bytes) (files : Bytes → Option Bytes) : State :=
  (((cmdOem cfg arg data).interp env.run).exec (State.start files)).2

/--
`OKAY` is answered only if the file holds the data in the end; and if there is no room for them and another
megabyte, the answer is `FAIL`, and no file has been touched.
-/
structure Truthful (env : Storage) (cfg : Config) (arg file data : Bytes) (files : Bytes → Option Bytes) : Prop where
  okay : ∀ text, (.okay, text) ∈ (env.after cfg arg data files).replies
    → (env.after cfg arg data files).files (pushPath cfg.pushDir file) = some data
  full : ∀ bsize bfree, env.statfs = some (bsize, bfree) → bsize * bfree < data.length + 2 ^ 20
    → (∃ text, (.fail, text) ∈ (env.after cfg arg data files).replies)
      ∧ (∀ text, (.okay, text) ∉ (env.after cfg arg data files).replies)
      ∧ (env.after cfg arg data files).truncated = [] ∧ (env.after cfg arg data files).files = files

/-- If the file is opened, there is a megabyte at least, and what `fwrite` has left is written by `fclose`. -/
def Reliable (env : Storage) (data : Bytes) : Prop :=
  env.strdup = true → env.opens = true → tooLarge env.statfs data = false →
    (∀ bsize bfree, env.statfs = some (bsize, bfree) → 2 ^ 20 ≤ bsize * bfree)
      ∧ (OutStream.WritesWhole env.taken 0 data.length env.chunks
          → data.length - env.chunks.sum ≤ env.taken env.chunks.length)

theorem tooLarge_of_lt {bsize bfree : Nat} {data : Bytes} (hsz : data.length < 2 ^ 32) (hmega : 2 ^ 20 ≤ bsize * bfree)
    (hlt : bsize * bfree < data.length + 2 ^ 20) : tooLarge (some (bsize, bfree)) data = true := by
  unfold tooLarge u32
  simp only [gt_iff_lt, decide_eq_true_eq]
  omega

theorem outcome_cases (env : Storage) (path data : Bytes) (s : State)
    : (¬(env.strdup = true ∧ env.opens = true ∧ tooLarge env.statfs data = false)
          ∧ ∃ text, env.outcome path data s = s.reply .fail text)
      ∨ (env.strdup = true ∧ env.opens = true ∧ tooLarge env.statfs data = false
          ∧ env.outcome path data s = env.saved path data s) := by
  unfold outcome
  cases env.strdup with
  | false => exact Or.inl ⟨by simp, _, rfl⟩
  | true =>
    cases tooLarge env.statfs data with
    | true => exact Or.inl ⟨by simp, _, rfl⟩
    | false =>
      cases env.opens with
      | false => exact Or.inl ⟨by simp, _, rfl⟩
      | true => exact Or.inr ⟨rfl, rfl, rfl, rfl⟩

theorem saved_truncated (env : Storage) (path data : Bytes) (s : State)
    : (env.saved path data s).truncated = s.truncated ++ [path] := by
  unfold saved
  dsimp only
  split
  all_goals rfl

theorem saved_files (env : Storage) (path data : Bytes) (s : State)
    : (env.saved path data s).files path
        = some ((OutStream.empty.fwrite env.taken env.chunks data).2.fclose env.taken) := by
  unfold saved
  dsimp only
  split
  all_goals exact if_pos rfl

theorem saved_okay_iff (env : Storage) (path data : Bytes) (files : Bytes → Option Bytes)
    : (∃ text, (.okay, text) ∈ (env.saved path data (State.start files)).replies)
        ↔ OutStream.WritesWhole env.taken 0 data.length env.chunks := by
  rw [← fwrite_empty_fst_iff]
  unfold saved
  dsimp only
  split
  all_goals
    next hsaved => simp [hsaved, State.reply, State.start, State.put]

section Truthful

variable {env : Storage} {cfg : Config} {arg file data : Bytes} {files : Bytes → Option Bytes}

theorem truthful_of_refused {text : Bytes} (h : env.after cfg arg data files = (State.start files).reply .fail text)
    : Truthful env cfg arg file data files := by
  constructor
  . intro text' hokay
    rw [h] at hokay
    simp [State.reply, State.start] at hokay
  . intro bsize bfree _ _
    rw [h]
    refine ⟨⟨text, by simp [State.reply]⟩, ?_, rfl, rfl⟩
    intro text' hokay
    simp [State.reply, State.start] at hokay

theorem truthful_iff_of_saved (hsz : data.length < 2 ^ 32) (hfits : tooLarge env.statfs data = false)
    (h : env.after cfg arg data files = env.saved (pushPath cfg.pushDir file) data (State.start files))
    : Truthful env cfg arg file data files
        ↔ (∀ bsize bfree, env.statfs = some (bsize, bfree) → 2 ^ 20 ≤ bsize * bfree)
          ∧ (OutStream.WritesWhole env.taken 0 data.length env.chunks
              → data.length - env.chunks.sum ≤ env.taken env.chunks.length) := by
  constructor
  . intro htruthful
    constructor
    . intro bsize bfree hstatfs
      by_contra hlt
      have htruncated := (htruthful.full bsize bfree hstatfs (by omega)).2.2.1
      rw [h, saved_truncated] at htruncated
      simp at htruncated
    . intro hwhole
      obtain ⟨text, hokay⟩ := (saved_okay_iff env (pushPath cfg.pushDir file) data files).mpr hwhole
      rw [← h] at hokay
      have hfile := htruthful.okay text hokay
      rw [h, saved_files] at hfile
      exact (fclose_fwrite_eq_iff env data hwhole).mp (Option.some.inj hfile)
  . rintro ⟨hmega, hflush⟩
    constructor
    . intro text hokay
      rw [h] at hokay ⊢
      have hwhole := (saved_okay_iff env _ data files).mp ⟨text, hokay⟩
      rw [saved_files, (fclose_fwrite_eq_iff env data hwhole).mpr (hflush hwhole)]
    . intro bsize bfree hstatfs hlt
      have hlarge := tooLarge_of_lt hsz (hmega bsize bfree hstatfs) hlt
      rw [← hstatfs, hfits] at hlarge
      contradiction

end Truthful

theorem truthful_iff (env : Storage) {cfg : Config} {arg file : Bytes} (h : Pushes cfg arg file) {data : Bytes}
    (hsz : data.length < 2 ^ 32) (files : Bytes → Option Bytes)
    : Truthful env cfg arg file data files ↔ Reliable env data := by
  have hafter : env.after cfg arg data files = env.outcome (pushPath cfg.pushDir file) data (State.start files) :=
    congrArg Prod.snd (exec_cmdOem env h data files)
  unfold Reliable
  cases outcome_cases env (pushPath cfg.pushDir file) data (State.start files) with
  | inl hrefused =>
    obtain ⟨hnot, text, houtcome⟩ := hrefused
    rw [houtcome] at hafter
    constructor
    . intro _ hstrdup hopens hfits
      exact absurd ⟨hstrdup, hopens, hfits⟩ hnot
    . intro _
      exact truthful_of_refused hafter
  | inr hopened =>
    obtain ⟨hstrdup, hopens, hfits, houtcome⟩ := hopened
    rw [houtcome] at hafter
    rw [truthful_iff_of_saved hsz hfits hafter]
    simp only [hstrdup, hopens, hfits, true_imp_iff]

theorem pushes_plain : Pushes (plain none []) (str "push a") (str "a") := by
  constructor
  all_goals decide +kernel

def roomy : Storage where
  strdup := true
  statfs := some (4096, 1024)
  opens := true
  chunks := []
  taken _ := 4096

theorem truthful_roomy : Truthful roomy (plain none []) (str "push a") (str "a") (str "data") fun _ => none := by
  apply (truthful_iff roomy pushes_plain (by decide) _).mpr
  intro _ _ _
  refine ⟨?_, ?_⟩
  . intro bsize bfree hstatfs
    cases hstatfs
    decide
  . intro _
    decide

/-- The write is left to `fclose`, and fails. -/
def failing : Storage :=
  { roomy with taken := fun _ => 0 }

def full : Storage :=
  { roomy with statfs := some (4096, 0) }

theorem not_truthful
    : ((failing.after (plain none []) (str "push a") (str "data") fun _ => none).replies = [(.okay, str "/tmp/a")]
        ∧ ¬Truthful failing (plain none []) (str "push a") (str "a") (str "data") fun _ => none)
      ∧ ((full.after (plain none []) (str "push a") (str "data") fun _ => none).truncated = [str "/tmp/a"]
        ∧ ¬Truthful full (plain none []) (str "push a") (str "a") (str "data") fun _ => none) := by
  have hokay : (failing.after (plain none []) (str "push a") (str "data") fun _ => none).replies
      = [(.okay, str "/tmp/a")] := by
    decide +kernel
  have htruncated : (full.after (plain none []) (str "push a") (str "data") fun _ => none).truncated
      = [str "/tmp/a"] := by
    decide +kernel
  refine ⟨⟨hokay, ?_⟩, htruncated, ?_⟩
  . intro h
    have hfile := h.okay (str "/tmp/a") (by rw [hokay]; simp)
    revert hfile
    decide +kernel
  . intro h
    have hnone := (h.full 4096 0 rfl (by decide)).2.2.1
    rw [htruncated] at hnone
    exact List.cons_ne_nil _ _ hnone

end Storage

end Aboot
