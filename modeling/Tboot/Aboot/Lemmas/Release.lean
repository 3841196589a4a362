import Tboot.Aboot.Lemmas.Basic

/-!
This module contains the account of what `cmd_stream_flash` holds: the buffers it makes and frees, and the
reader thread it creates, joins and cancels. One block of clean-up serves every exit; it is right where the
reader has been joined, or has come to its end unnoticed, and nowhere else.
-/

namespace Aboot

open Fastboot Fastboot.HProg

/--
`buf i` is the buffer that `buf[i]` points to. Buffers are numbered as they are made, and `freed` has the
number of a buffer as often as it has been freed. Whether the reader, once created, has `ended` by itself
when the clean-up begins is not known to the function.
-/
structure Account where
  ended : Bool
  buf : Nat → Option Nat := fun _ => none
  made : Nat := 0
  freed : List Nat := []
  created : Bool := false
  joined : Bool := false
  cancelled : Bool := false
  freedInUse : Bool := false
  strayCancel : Bool := false

namespace Account

def readerRuns (a : Account) : Bool :=
  a.created && !a.joined && !a.cancelled && !a.ended

def bufferInit (a : Account) (i : Nat) (ok : Bool) : Account :=
  if ok then
    { a with buf := fun j => if j = i then some a.made else a.buf j, made := a.made + 1 }
  else
    { a with buf := fun j => if j = i then none else a.buf j }

-- The pointer is passed by value: `buf[i]` still has it afterwards.
def bufferFree (a : Account) (i : Nat) : Account :=
  match a.buf i with
  | none => a
  | some k => { a with freed := k :: a.freed, freedInUse := a.freedInUse || a.readerRuns }

def pthreadCancel (a : Account) : Account :=
  { a with cancelled := true, strayCancel := a.strayCancel || !a.created || a.joined }

def note (a : Account) : Sigma Op.Resp → Account
  | ⟨.outside (.bufferInit i), ok⟩ => a.bufferInit i ok
  | ⟨.outside (.bufferFree i), _⟩ => a.bufferFree i
  | ⟨.outside .pthreadCreate, ok⟩ => { a with created := a.created || ok }
  | ⟨.outside .pthreadJoin, ok⟩ => { a with joined := a.joined || ok }
  | ⟨.outside .pthreadCancel, _⟩ => a.pthreadCancel
  | _ => a

structure Released (a : Account) : Prop where
  freedOnce : ∀ k < a.made, a.freed.count k = 1
  notInUse : a.freedInUse = false
  noStray : a.strayCancel = false

end Account

def account (ended : Bool) (path : List (Sigma Op.Resp)) : Account :=
  path.foldl Account.note { ended }

def readerCreated (path : List (Sigma Op.Resp)) : Prop :=
  ⟨.outside .pthreadCreate, true⟩ ∈ path

def readerJoined (path : List (Sigma Op.Resp)) : Prop :=
  ⟨.outside .pthreadJoin, true⟩ ∈ path

/-- With an empty name of a partition, `flash:` only lists what can be flashed. -/
def onlyLists (cmd : Bytes) (path : List (Sigma Op.Resp)) : Prop :=
  path.head? = some ⟨.outside .strdup, true⟩ ∧ cmd.head? = some 58

namespace Release

open Account cmdStreamFlash

def Quiet : Op → Prop
  | .outside (.bufferInit _) => False
  | .outside (.bufferFree _) => False
  | .outside .pthreadCreate => False
  | .outside .pthreadJoin => False
  | .outside .pthreadCancel => False
  | _ => True

theorem note_quiet (a : Account) (op : Op) (r : op.Resp) (h : Quiet op) : a.note ⟨op, r⟩ = a := by
  unfold note
  split
  all_goals simp_all [Quiet]

theorem quiet_post {α : Type} {p : HProg α} {a : Account} {Q : α → Account → Prop} (hp : p.Only Quiet)
    (hQ : ∀ x, Q x a) : p.post note Q a := by
  apply Prog.post_mono (Prog.post_of_only note_quiet hp)
  rintro x t rfl
  exact hQ x

theorem quiet_bind {α β : Type} {p : HProg α} {f : α → HProg β} {a : Account} {Q : β → Account → Prop}
    (hp : p.Only Quiet) (hf : ∀ x, (f x).post note Q a) : (p >>= f).post note Q a :=
  (Prog.post_bind p f).mpr (quiet_post hp hf)

theorem outside_bind {β : Type} {q : Outside} {f : Bool → HProg β} {a : Account} {Q : β → Account → Prop}
    : (outside q >>= f).post note Q a ↔ ∀ ok : Bool, (f ok).post note Q (a.note ⟨.outside q, ok⟩) :=
  Iff.rfl

def Exits (_ : Unit) (a : Account) : Prop :=
  a.Released ↔ a.joined = true ∨ (a.created = true ∧ a.ended = true)

structure NoReader (a : Account) : Prop where
  joined : a.joined = false
  created : a.created = false
  cancelled : a.cancelled = false

structure Full (a : Account) : Prop where
  buf0 : a.buf 0 = some 0
  buf1 : a.buf 1 = some 1
  made : a.made = 2
  freed : a.freed = []
  notInUse : a.freedInUse = false
  noStray : a.strayCancel = false

structure Running (a : Account) : Prop extends Full a where
  unjoined : a.joined = false
  created : a.created = true
  uncancelled : a.cancelled = false

structure Joined (a : Account) : Prop extends Full a where
  joined : a.joined = true

section Flags

variable (a : Account) (i : Nat)

@[simp]
theorem bufferInit_joined (ok : Bool) : (a.bufferInit i ok).joined = a.joined := by
  cases ok
  all_goals rfl

@[simp]
theorem bufferInit_created (ok : Bool) : (a.bufferInit i ok).created = a.created := by
  cases ok
  all_goals rfl

@[simp]
theorem bufferInit_ended (ok : Bool) : (a.bufferInit i ok).ended = a.ended := by
  cases ok
  all_goals rfl

@[simp]
theorem bufferFree_ended : (a.bufferFree i).ended = a.ended := by
  unfold bufferFree
  split
  all_goals rfl

@[simp]
theorem bufferFree_joined : (a.bufferFree i).joined = a.joined := by
  unfold bufferFree
  split
  all_goals rfl

@[simp]
theorem bufferFree_created : (a.bufferFree i).created = a.created := by
  unfold bufferFree
  split
  all_goals rfl

end Flags

section CleanUp

variable {a : Account}

theorem NoReader.cleanup (h : NoReader a) : (cmdStreamFlash.cleanup false).post note Exits a := by
  intro _ _ _
  change Exits () ((a.bufferFree 0).bufferFree 1).pthreadCancel
  refine iff_of_false ?_ (by simp [pthreadCancel, h.joined, h.created])
  intro hreleased
  have hstray := hreleased.noStray
  simp [pthreadCancel, h.created] at hstray

theorem Full.free (h : Full a)
    : (a.bufferFree 0).bufferFree 1 = { a with freed := [1, 0], freedInUse := a.readerRuns } := by
  have h0 : a.bufferFree 0 = { a with freed := [0], freedInUse := a.readerRuns } := by
    simp [bufferFree, h.buf0, h.freed, h.notInUse]
  rw [h0]
  simp [bufferFree, readerRuns, h.buf1]

theorem freed_once : ∀ k < 2, [1, 0].count k = 1 := by
  decide

theorem Joined.cleanup (h : Joined a) : (cmdStreamFlash.cleanup true).post note Exits a := by
  intro _ _
  change Exits () ((a.bufferFree 0).bufferFree 1)
  rw [h.free]
  refine iff_of_true ⟨?_, ?_, h.noStray⟩ (Or.inl h.joined)
  . simpa [h.made] using freed_once
  . simp [readerRuns, h.joined]

theorem Running.cleanup (h : Running a) : (cmdStreamFlash.cleanup false).post note Exits a := by
  intro _ _ _
  change Exits () ((a.bufferFree 0).bufferFree 1).pthreadCancel
  rw [h.free]
  have hruns : a.readerRuns = !a.ended := by simp [readerRuns, h.unjoined, h.created, h.uncancelled]
  by_cases hended : a.ended = true
  . refine iff_of_true ⟨?_, ?_, ?_⟩ (Or.inr ⟨h.created, hended⟩)
    . simpa [pthreadCancel, h.made] using freed_once
    . simp [pthreadCancel, hruns, hended]
    . simp [pthreadCancel, h.noStray, h.created, h.unjoined]
  . refine iff_of_false ?_ (by simp [pthreadCancel, h.unjoined, hended])
    intro hreleased
    have hnot := hreleased.notInUse
    simp [pthreadCancel, hruns, hended] at hnot

theorem NoReader.abort (h : NoReader a) (reason : Bytes)
    : (cmdStreamFlash.abort reason false).post note Exits a :=
  quiet_bind (by simp [Quiet]) (fun _ => h.cleanup)

theorem NoReader.finish (h : NoReader a) : (cmdStreamFlash.finish false).post note Exits a :=
  quiet_bind (by simp [Quiet]) (fun _ => h.cleanup)

theorem Running.abort (h : Running a) (reason : Bytes)
    : (cmdStreamFlash.abort reason false).post note Exits a :=
  quiet_bind (by simp [Quiet]) (fun _ => h.cleanup)

theorem Joined.abort (h : Joined a) (reason : Bytes) : (cmdStreamFlash.abort reason true).post note Exits a :=
  quiet_bind (by simp [Quiet]) (fun _ => h.cleanup)

theorem Joined.finish (h : Joined a) : (cmdStreamFlash.finish true).post note Exits a :=
  quiet_bind (by simp [Quiet]) (fun _ => h.cleanup)

end CleanUp

/-! ### The parts that neither make nor free -/

theorem disk_quiet (cfg : Config) : cfg.disk.Only Quiet := by
  unfold Config.disk
  split
  . exact Prog.Only.pure _
  . exact Prog.Only.bind (by simp [Quiet]) (fun no => no.elim)

theorem findPartDevice_quiet (cfg : Config) (name : Bytes) : (findPartDevice cfg name).Only Quiet := by
  apply Prog.Only.bind (disk_quiet cfg)
  simp [Quiet]

theorem listPartitions_quiet (cfg : Config) : (listPartitions cfg).Only Quiet := by
  simp only [listPartitions, Prog.Only.perform_bind_iff]
  refine ⟨trivial, fun _ => Prog.Only.bind (Prog.Only.forM ?_) fun _ => ?_⟩
  . intro cmd
    simp [listCallback, Quiet]
  . simp only [listParts, Prog.Only.perform_bind_iff]
    refine ⟨trivial, fun _ => ⟨trivial, fun _ => ⟨trivial, fun _ => ?_⟩⟩⟩
    apply Prog.Only.bind (disk_quiet cfg)
    intro dinfo
    apply Prog.Only.bind
    . apply Prog.Only.forM
      simp [Quiet]
    . simp [Quiet]

theorem callback_quiet {α : Type} (cb : Callback α) (x : α) : (cb.run x).Only Quiet := by
  apply (cb.only x).mono
  intro op hop
  unfold ofPlugin at hop
  split at hop
  all_goals trivial

theorem syncTable_quiet (cfg : Config) (device : Bytes) : (syncTable cfg device).Only Quiet := by
  apply Prog.Only.bind (disk_quiet cfg)
  simp [Quiet]

theorem doExtChecks_quiet (cfg : Config) (ptn : Option Disk.PartInfo) : (doExtChecks cfg ptn).Only Quiet := by
  unfold doExtChecks
  split
  . exact Prog.Only.pure _
  . split
    . apply Prog.Only.bind (findPartDevice_quiet cfg _)
      intro device
      split
      . exact Prog.Only.pure _
      . simp [Quiet]
    . exact Prog.Only.pure _

theorem fill_quiet (fuel len i size finished : Nat) : (fill fuel len i size finished).Only Quiet := by
  induction fuel generalizing i size finished with
  | zero => exact Prog.Only.bind (by simp [Quiet]) (fun no => no.elim)
  | succ fuel ih =>
    simp only [fill, Prog.Only.ite_iff, Prog.Only.perform_bind_iff, Prog.Only.pure, implies_true, and_true,
      true_and, Quiet]
    refine fun _ broken _ full => ⟨fun _ => ih _ _ _, fun _ r => ?_⟩
    cases r with
    | none => exact Prog.Only.pure _
    | some bytes => exact ih _ _ _

theorem drain_quiet (fuel len size finished : Nat) : (drain fuel len size finished).Only Quiet := by
  induction fuel generalizing size finished with
  | zero => exact Prog.Only.bind (by simp [Quiet]) (fun no => no.elim)
  | succ fuel ih =>
    simp only [drain, Prog.Only.ite_iff, Prog.Only.perform_bind_iff, Prog.Only.pure, implies_true, true_and]
    refine fun _ => ⟨trivial, fun r => ?_⟩
    cases r with
    | none => exact Prog.Only.pure _
    | some bytes => exact ih _ _

/-! ### The exits -/

section Exits

variable {a : Account} {cfg : Config} {device : Bytes} {ptn : Option Disk.PartInfo} {len size : Nat}
  {ended : Bool}

theorem noReader_start : NoReader { ended } :=
  ⟨rfl, rfl, rfl⟩

theorem check_exits (h : Joined a) : (check cfg device ptn).post note Exits a := by
  apply quiet_bind (syncTable_quiet cfg device)
  intro opened
  split
  . exact h.abort _
  . apply quiet_bind (doExtChecks_quiet cfg ptn)
    intro checks
    split
    . exact h.abort _
    . exact h.finish
    . apply quiet_bind (by simp [Quiet])
      intro ok
      split
      . exact h.finish
      . exact h.abort _

theorem joinReader_exits {finished : Nat} (h : Running a)
    : (joinReader cfg device ptn len finished).post note Exits a := by
  unfold joinReader
  rw [outside_bind]
  intro joined
  cases joined with
  | false =>
    have hsame : a.note ⟨.outside .pthreadJoin, false⟩ = a := by simp [note]
    rw [hsame]
    exact h.abort _
  | true =>
    have hfull := h.toFull
    have hjoined : Joined (a.note ⟨.outside .pthreadJoin, true⟩) :=
      ⟨⟨hfull.1, hfull.2, hfull.3, hfull.4, hfull.5, hfull.6⟩, by simp [note]⟩
    rw [if_neg (by decide)]
    split
    . exact hjoined.abort _
    . apply quiet_bind (by simp [Quiet])
      intro exit
      split
      . exact hjoined.abort _
      . exact check_exits hjoined

theorem transfer_exits (h : Running a) : (transfer cfg device ptn len size).post note Exits a := by
  apply quiet_bind (fill_quiet _ _ _ _ _)
  intro r
  split
  . exact h.abort _
  . exact quiet_bind (drain_quiet _ _ _ _) (fun _ => h.abort _)
  . exact joinReader_exits h

theorem startReader_exits {magic : Bytes} (h : Full a) (hnone : NoReader a)
    : (startReader cfg device ptn len size magic).post note Exits a := by
  apply quiet_bind (by simp [Quiet])
  intro printed
  split
  . exact hnone.abort _
  . apply quiet_bind (by simp [Quiet])
    intro opened
    split
    . exact hnone.abort _
    . rw [outside_bind]
      intro created
      cases created with
      | false =>
        have hsame : a.note ⟨.outside .pthreadCreate, false⟩ = a := by simp [note]
        rw [hsame]
        exact hnone.abort _
      | true =>
        apply transfer_exits
        exact ⟨⟨h.1, h.2, h.3, h.4, h.5, h.6⟩, hnone.joined, by simp [note], hnone.cancelled⟩

-- Where the second buffer cannot be made, `buf[0]` is left pointing to the one that was freed.
theorem initBuffers_post
    : initBuffers.post note (fun ok a => NoReader a ∧ (ok = true → Full a)) { ended } := by
  unfold initBuffers
  rw [outside_bind]
  intro ok0
  cases ok0 with
  | false => exact ⟨⟨rfl, rfl, rfl⟩, by simp⟩
  | true =>
    rw [if_neg (by decide), outside_bind]
    intro ok1
    cases ok1 with
    | false =>
      rw [if_pos (by decide), outside_bind]
      intro _
      exact ⟨⟨rfl, rfl, rfl⟩, by simp⟩
    | true => exact ⟨⟨rfl, rfl, rfl⟩, fun _ => ⟨rfl, rfl, rfl, rfl, rfl, rfl⟩⟩

theorem stream_exits : (stream cfg device ptn len).post note Exits { ended } := by
  apply quiet_bind (by simp [Quiet])
  intro shaken
  split
  . exact noReader_start.abort _
  rw [Prog.post_bind]
  apply Prog.post_mono initBuffers_post
  rintro ok a ⟨hnone, hfull⟩
  cases ok with
  | false => exact hnone.abort _
  | true =>
    apply quiet_bind (by simp [Quiet])
    intro r
    cases r with
    | none => exact hnone.abort _
    | some bytes =>
      apply quiet_bind (by simp [Quiet])
      intro memory
      exact startReader_exits (hfull rfl) hnone

theorem flashPlugin_exits (cb : Callback (Bytes × Nat)) : (flashPlugin cb len).post note Exits { ended } := by
  apply quiet_bind (by simp [Quiet])
  intro r
  cases r with
  | none => exact noReader_start.abort _
  | some data =>
    apply quiet_bind (callback_quiet cb _)
    intro ok
    cases ok with
    | false => exact noReader_start.abort _
    | true => exact noReader_start.finish

theorem flashPartition_exits (partName : Bytes)
    : (flashPartition cfg partName len).post note Exits { ended } := by
  apply quiet_bind (findPartDevice_quiet cfg partName)
  intro device
  cases device with
  | none => exact noReader_start.abort _
  | some device =>
    apply quiet_bind (disk_quiet cfg)
    intro dinfo
    split
    . exact noReader_start.abort _
    . split
      . exact noReader_start.abort _
      . exact stream_exits

end Exits

section Flags

variable (path : List (Sigma Op.Resp)) (a : Account)

-- A flag that one answer sets, and nothing clears, says that the answer has come.
theorem foldl_flag {flag : Account → Bool} {x : Sigma Op.Resp}
    (hnote : ∀ a y, flag (a.note y) = true ↔ flag a = true ∨ y = x)
    : flag (path.foldl note a) = true ↔ flag a = true ∨ x ∈ path := by
  induction path generalizing a with
  | nil => simp
  | cons y path ih => rw [List.foldl_cons, ih, hnote, or_assoc, List.mem_cons, eq_comm (b := x)]

theorem note_joined (y : Sigma Op.Resp)
    : (a.note y).joined = true ↔ a.joined = true ∨ y = ⟨.outside .pthreadJoin, true⟩ := by
  unfold note
  split
  all_goals simp_all [pthreadCancel]

theorem note_created (y : Sigma Op.Resp)
    : (a.note y).created = true ↔ a.created = true ∨ y = ⟨.outside .pthreadCreate, true⟩ := by
  unfold note
  split
  all_goals simp_all [pthreadCancel]

theorem note_ended (y : Sigma Op.Resp) : (a.note y).ended = a.ended := by
  unfold note
  split
  all_goals simp_all [pthreadCancel]

theorem foldl_ended : (path.foldl note a).ended = a.ended := by
  induction path generalizing a with
  | nil => rfl
  | cons y path ih => rw [List.foldl_cons, ih, note_ended]

end Flags

section Ended

variable (ended : Bool) (path : List (Sigma Op.Resp))

theorem joined_account_iff : (account ended path).joined = true ↔ readerJoined path := by
  unfold account readerJoined
  rw [foldl_flag path _ note_joined]
  simp

theorem created_account_iff : (account ended path).created = true ↔ readerCreated path := by
  unfold account readerCreated
  rw [foldl_flag path _ note_created]
  simp

theorem ended_account : (account ended path).ended = ended :=
  foldl_ended path { ended }

end Ended

theorem parse_some {cmd partName : Bytes} {len : Nat} (h : parse cmd = some (partName, len))
    : partName = [] ↔ cmd.head? = some 58 := by
  have hname : partName = cmd.takeWhile (· ≠ 58) := by
    unfold parse at h
    dsimp only at h
    split at h
    . contradiction
    . cases h
      rfl
  have hcmd : cmd ≠ [] := by
    rintro rfl
    simp [parse] at h
  obtain ⟨c, rest, rfl⟩ := List.exists_cons_of_ne_nil hcmd
  rw [hname]
  simp [List.takeWhile_cons]

theorem parse_none {cmd : Bytes} (h : parse cmd = none) : cmd.head? ≠ some 58 := by
  intro hhead
  obtain ⟨rest, rfl⟩ := List.head?_eq_some_iff.mp hhead
  simp [parse] at h

def ExitsOr (lists : Prop) (_ : Unit) (a : Account) : Prop :=
  a.Released ↔ lists ∨ a.joined = true ∨ (a.created = true ∧ a.ended = true)

theorem exitsOr_of_exits {p : HProg Unit} {lists : Prop} {a : Account} (hp : p.post note Exits a)
    (hno : ¬lists) : p.post note (ExitsOr lists) a := by
  apply Prog.post_mono hp
  intro _ a h
  unfold Exits at h
  unfold ExitsOr
  rw [h, or_iff_right hno]

theorem cmdStreamFlash_exits {cfg : Config} {cmd : Bytes} {path : List (Sigma Op.Resp)} {ended ok : Bool}
    (hends : (cmdStreamFlash cfg cmd).Ends (⟨.outside .strdup, ok⟩ :: path) ())
    : ExitsOr (ok = true ∧ cmd.head? = some 58) () (path.foldl note { ended }) := by
  obtain ⟨_, _, heq, hrest⟩ := Prog.ends_perform_bind.mp hends
  cases heq
  apply Prog.post_of_ends hrest
  cases ok with
  | false => exact exitsOr_of_exits (noReader_start.abort _) (by simp)
  | true =>
    rw [if_neg (by decide)]
    split
    . next hparse =>
      apply exitsOr_of_exits (noReader_start.abort _)
      rintro ⟨_, hhead⟩
      exact parse_none hparse hhead
    . next partName len hparse =>
      have hname := parse_some hparse
      split
      . next hnil =>
        apply quiet_post (listPartitions_quiet cfg)
        intro _
        have hreleased : ({ ended } : Account).Released := ⟨by simp, rfl, rfl⟩
        exact iff_of_true hreleased (Or.inl ⟨rfl, hname.mp hnil⟩)
      . next hnil =>
        have hno : ¬(true = true ∧ cmd.head? = some 58) := fun h => hnil (hname.mpr h.2)
        split
        . exact exitsOr_of_exits (quiet_bind (disk_quiet cfg) (fun _ => stream_exits)) hno
        . split
          . exact exitsOr_of_exits (flashPlugin_exits _) hno
          . exact exitsOr_of_exits (flashPartition_exits _) hno

theorem account_exits {cfg : Config} {cmd : Bytes} {path : List (Sigma Op.Resp)}
    (hends : (cmdStreamFlash cfg cmd).Ends path ()) (ended : Bool)
    : ExitsOr (onlyLists cmd path) () (account ended path) := by
  obtain ⟨ok, rest, rfl, _⟩ := Prog.ends_perform_bind.mp hends
  have hlists : onlyLists cmd (⟨.outside .strdup, ok⟩ :: rest) ↔ ok = true ∧ cmd.head? = some 58 := by
    simp [onlyLists]
  have hexits : ExitsOr (ok = true ∧ cmd.head? = some 58) () (rest.foldl note { ended }) := cmdStreamFlash_exits hends
  have haccount : account ended (⟨.outside .strdup, ok⟩ :: rest) = rest.foldl note { ended } := rfl
  rw [haccount]
  unfold ExitsOr at hexits ⊢
  rw [hexits, hlists]

end Release

/--
Every buffer that was made is freed once, none under the reader, and only a reader that is there is
cancelled: just when the command does no more than list, the reader has been joined, or it was created and
had come to its end before.
-/
theorem cmdStreamFlash_releases_iff (cfg : Config) (cmd : Bytes) (path : List (Sigma Op.Resp))
    (ended : Bool) (hends : (cmdStreamFlash cfg cmd).Ends path ())
    : (account ended path).Released
        ↔ onlyLists cmd path ∨ readerJoined path ∨ (readerCreated path ∧ ended = true) := by
  have hexits := Release.account_exits hends ended
  unfold Release.ExitsOr at hexits
  rw [hexits, Release.joined_account_iff, Release.created_account_iff, Release.ended_account]

section Paths

-- The answers to `flash:disk:4` until both buffers are asked for, and those from there to the join
def toBuffers (second : Bool) : List (Sigma Op.Resp) :=
  [⟨.outside .strdup, true⟩, ⟨.api (.handshake 4), true⟩, ⟨.outside (.bufferInit 0), true⟩,
    ⟨.outside (.bufferInit 1), second⟩]

def toJoin (join : Bool) : List (Sigma Op.Resp) :=
  [⟨.api (.receive 4), some (str "data")⟩, ⟨.fresh, []⟩, ⟨.outside .asprintf, true⟩,
    ⟨.outside (.popen (cmdStreamFlash.cmdLine (str "data") oneDisk.device)), true⟩,
    ⟨.outside .pthreadCreate, true⟩, ⟨.outside .pipeBroken, false⟩, ⟨.outside .pthreadJoin, join⟩]

def frees : List (Sigma Op.Resp) :=
  [⟨.outside (.bufferFree 0), true⟩, ⟨.outside (.bufferFree 1), true⟩]

def flashed : List (Sigma Op.Resp) :=
  toBuffers true ++ toJoin true
    ++ [⟨.outside .readerExit, true⟩, ⟨.outside (.openDevice oneDisk.device), true⟩, ⟨.api (.okay []), ()⟩] ++ frees

theorem cmdStreamFlash_releases_flashed
    : (cmdStreamFlash (plain (some oneDisk) []) (str "disk:4")).Ends flashed ()
        ∧ (account false flashed).Released := by
  have hends : (cmdStreamFlash (plain (some oneDisk) []) (str "disk:4")).Ends flashed () := by
    repeat constructor
  have hjoined : readerJoined flashed := by simp [readerJoined, flashed, toJoin]
  exact ⟨hends, (cmdStreamFlash_releases_iff _ _ _ _ hends).mpr (Or.inr (Or.inl hjoined))⟩

def failed (reason : Bytes) : List (Sigma Op.Resp) :=
  ⟨.api (.fail reason), ()⟩ :: frees ++ [⟨.outside .pthreadCancel, true⟩]

def notParsed : List (Sigma Op.Resp) :=
  ⟨.outside .strdup, true⟩ :: failed (str "invalid cmd.")

def oneBuffer : List (Sigma Op.Resp) :=
  toBuffers false ++ ⟨.outside (.bufferFree 0), true⟩ :: failed (str "out of memory")

def notJoined : List (Sigma Op.Resp) :=
  toBuffers true ++ toJoin false ++ failed (str "join reader thread failed")

/--
A thread that was never created is cancelled, a buffer is freed twice, and the buffers are freed under the
reader.
-/
theorem cmdStreamFlash_not_released
    : ((cmdStreamFlash (plain (some oneDisk) []) (str "disk")).Ends notParsed ()
          ∧ (account false notParsed).strayCancel = true)
        ∧ ((cmdStreamFlash (plain (some oneDisk) []) (str "disk:4")).Ends oneBuffer ()
          ∧ (account false oneBuffer).made = 1 ∧ (account false oneBuffer).freed = [0, 0])
        ∧ ((cmdStreamFlash (plain (some oneDisk) []) (str "disk:4")).Ends notJoined ()
          ∧ (account false notJoined).freedInUse = true)
        ∧ ¬(account false notParsed).Released ∧ ¬(account false oneBuffer).Released ∧ ¬(account false notJoined).Released := by
  refine ⟨⟨?_, rfl⟩, ⟨?_, rfl, rfl⟩, ⟨?_, rfl⟩, ?_, ?_, ?_⟩
  . repeat constructor
  . repeat constructor
  . repeat constructor
  . exact fun h => Bool.noConfusion h.noStray
  . exact fun h => absurd (h.freedOnce 0 (by decide)) (by decide)
  . exact fun h => Bool.noConfusion h.notInUse

end Paths

/-- In the server the answers of the path are those that its environment gives. -/
theorem cmdStreamFlash_run (env : Env) (cfg : Config) (cmd : Bytes) (ended : Bool) (w : World)
    : Proc.wp ((cmdStreamFlash cfg cmd).interp (runOp env))
        (fun _ w' => ∃ path, Prog.Answers (runOp env) path w w'
          ∧ Release.ExitsOr (onlyLists cmd path) () (account ended path))
        (fun _ => True) w := by
  apply Proc.wp_mono (Prog.interp_ends _ w) _ (fun _ => id)
  rintro _ w' ⟨path, hends, hanswers⟩
  exact ⟨path, hanswers, Release.account_exits hends ended⟩

end Aboot
