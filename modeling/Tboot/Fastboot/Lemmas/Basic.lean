import Tboot.Fastboot.Impl.Loop
import Tboot.Util.History

/-!
This module contains how what the system calls of the transport keep is kept by everything that is made
of them, and the induction over the turns of the server.
-/

open Proc

namespace Fastboot

structure KeptByReads (env : Env) (I : World → Prop) : Prop where
  read : ∀ xfer, Keeps I (sysRead env xfer)
  error : Keeps I (setState .error)

namespace KeptByReads

variable {env : Env} {I : World → Prop}

theorem usbRead_loop (h : KeptByReads env I) (fuel len : Nat) (got : Bytes)
    : Keeps I (usbRead.loop env fuel len got) := by
  induction fuel generalizing len got with
  | zero => exact Keeps.pure _
  | succ fuel ih =>
    unfold usbRead.loop
    apply Keeps.ite
    . intro _
      exact Keeps.pure _
    . intro _
      apply Keeps.bind (h.read _)
      intro r
      cases r with
      | none =>
        apply Keeps.bind h.error
        intro _
        exact Keeps.pure _
      | some bytes =>
        apply Keeps.ite
        . intro _
          exact Keeps.pure _
        . intro _
          exact ih _ _

theorem usbRead (h : KeptByReads env I) (len : Nat) : Keeps I (usbRead env len) := by
  unfold Fastboot.usbRead
  apply Keeps.bind Keeps.get
  intro w
  apply Keeps.ite
  . intro _
    apply Keeps.bind h.error
    intro _
    exact Keeps.pure _
  . intro _
    exact h.usbRead_loop _ _ _

section Progress

variable (hstore : ∀ offset bytes, Keeps I (store offset bytes))
  (hbar : ∀ percent, Keeps I (emit (.textbar percent)))

include hstore hbar

theorem usbReadProgress_loop (h : KeptByReads env I) (fuel len slice percent finished : Nat)
    : Keeps I (usbReadProgress.loop env fuel len slice percent finished) := by
  induction fuel generalizing slice percent finished with
  | zero => exact Keeps.throw _
  | succ fuel ih =>
    unfold usbReadProgress.loop
    apply Keeps.bind (h.usbRead _)
    intro r
    apply Keeps.bind (hstore _ _)
    intro _
    apply Keeps.ite
    . intro _
      exact Keeps.pure _
    . intro _
      have hrest (slice percent finished : Nat)
          : Keeps I (if finished > len then (pure (-1) : Fb Int)
              else if finished = len then pure (toInt32 finished)
              else if u32 (finished + slice) > len then
                usbReadProgress.loop env fuel len (len - finished) 99 finished
              else usbReadProgress.loop env fuel len slice percent finished) := by
        apply Keeps.ite
        . intro _
          exact Keeps.pure _
        . intro _
          apply Keeps.ite
          . intro _
            exact Keeps.pure _
          . intro _
            apply Keeps.ite
            all_goals
              intro _
              exact ih _ _ _
      apply Keeps.ite
      . intro _
        apply Keeps.bind (hbar _)
        intro _
        exact hrest _ _ _
      . intro _
        exact hrest _ _ _

theorem usbReadProgress (h : KeptByReads env I) (len : Nat) : Keeps I (usbReadProgress env len) := by
  unfold Fastboot.usbReadProgress
  apply Keeps.ite
  . intro _
    apply Keeps.bind (h.usbRead _)
    intro r
    apply Keeps.bind (hstore _ _)
    intro _
    exact Keeps.pure _
  . intro _
    exact h.usbReadProgress_loop hstore hbar _ _ _ _ _

end Progress

end KeptByReads

namespace fastbootAck

theorem loop_keeps {env : Env} {I : World → Prop} {code : Code}
    (h : ∀ text, Keeps I (usbWrite env (.reply code text))) (reason : Bytes) (below : Nat → UInt8) (fuel : Nat) (pos : Int)
    : Keeps I (loop env code reason below fuel pos) := by
  induction fuel generalizing pos with
  | zero => exact Keeps.throw _
  | succ fuel ih =>
    unfold loop
    apply Keeps.bind (h _)
    intro count
    apply Keeps.ite
    . intro _
      exact ih _
    . intro _
      exact Keeps.pure _

end fastbootAck

theorem fastbootAck_keeps {env : Env} {I : World → Prop} {code : Code}
    (h : ∀ text, Keeps I (usbWrite env (.reply code text))) (reason : Bytes)
    : Keeps I (fastbootAck env code reason) := by
  unfold fastbootAck
  apply Keeps.bind Keeps.get
  intro w
  apply Keeps.ite
  . intro _
    exact Keeps.pure _
  . intro _
    exact fastbootAck.loop_keeps h _ _ _ _

theorem usbWrite_keeps {env : Env} {I : World → Prop} {packet : Packet}
    (herror : Keeps I (setState .error)) (hwrite : Keeps I (sysWrite env packet))
    : Keeps I (usbWrite env packet) := by
  unfold usbWrite
  apply Keeps.bind Keeps.get
  intro w
  apply Keeps.ite
  . intro _
    apply Keeps.bind herror
    intro _
    exact Keeps.pure _
  . intro _
    apply Keeps.bind hwrite
    intro count
    cases count with
    | none =>
      apply Keeps.bind herror
      intro _
      exact Keeps.pure _
    | some n => exact Keeps.pure _

theorem end_keeps {env : Env} {I : World → Prop} {code : Code} {call : Api} {text : Bytes}
    (hcall : Keeps I (emit (.call call))) (hwrite : ∀ text, Keeps I (usbWrite env (.reply code text)))
    (hdone : Keeps I (setState .complete))
    : Keeps I (do emit (.call call); fastbootAck env code text; setState .complete) := by
  apply Keeps.bind hcall
  intro _
  apply Keeps.bind (fastbootAck_keeps hwrite text)
  intro _
  exact hdone

structure KeptByIo (env : Env) (I : World → Prop) : Prop extends KeptByReads env I where
  write : ∀ packet, Keeps I (sysWrite env packet)

namespace KeptByIo

variable {env : Env} {I : World → Prop}

theorem usbWrite (h : KeptByIo env I) (packet : Packet) : Keeps I (usbWrite env packet) :=
  usbWrite_keeps h.error (h.write packet)

theorem responseData (h : KeptByIo env I) (len : Nat) : Keeps I (responseData env len) := by
  apply Keeps.bind (h.usbWrite _)
  intro _
  exact Keeps.pure _

theorem fastbootAck (h : KeptByIo env I) (code : Code) (reason : Bytes)
    : Keeps I (fastbootAck env code reason) :=
  fastbootAck_keeps (fun _ => h.usbWrite _) reason

theorem fastbootInfo (h : KeptByIo env I) {text : Bytes} (hcall : Keeps I (emit (.call (.info text))))
    : Keeps I (fastbootInfo env text) := by
  apply Keeps.bind hcall
  intro _
  exact h.fastbootAck _ _

section End

variable (hdone : Keeps I (setState .complete))

include hdone

theorem fastbootOkay (h : KeptByIo env I) {text : Bytes} (hcall : Keeps I (emit (.call (.okay text))))
    : Keeps I (fastbootOkay env text) :=
  end_keeps hcall (fun _ => h.usbWrite _) hdone

theorem fastbootFail (h : KeptByIo env I) {text : Bytes} (hcall : Keeps I (emit (.call (.fail text))))
    : Keeps I (fastbootFail env text) :=
  end_keeps hcall (fun _ => h.usbWrite _) hdone

end End

end KeptByIo

def Event.Passive : Event → Prop
  | .call (.handshake _) => True
  | .call (.receive _) => True
  | .call (.downloadTo _) => True
  | .call (.pullFile _) => True
  | .textbar _ => True
  | _ => False

theorem failWith_keeps {env : Env} {I : World → Prop} {α : Type}
    (h : ∀ text, Keeps I (fastbootFail env text)) (text : Bytes) (a : α)
    : Keeps I (do fastbootFail env text; return a) := by
  apply Keeps.bind (h text)
  intro _
  exact Keeps.pure a

section Transfers

variable {env : Env} {I : World → Prop} (hemit : ∀ e : Event, e.Passive → Keeps I (emit e))
  (hstore : ∀ offset bytes, Keeps I (store offset bytes)) (hsize : ∀ n, Keeps I (setDownloadSize n))
  (hfail : ∀ text, Keeps I (Fastboot.fastbootFail env text))

theorem dataPhase_keeps {α : Type} {failed : α} {size : Nat} {next : Fb α} (hio : KeptByIo env I)
    (hread : Keeps I (usbReadProgress env size)) (hnext : Keeps I next)
    : Keeps I (do
        if !(← responseData env size) then
          return failed
        let r ← usbReadProgress env size
        if r < 0 ∨ r ≠ size then
          setState .error
          return failed
        next) := by
  apply Keeps.bind (hio.responseData _)
  intro sent
  apply Keeps.ite
  . intro _
    exact Keeps.pure _
  . intro _
    apply Keeps.bind hread
    intro r
    apply Keeps.ite
    . intro _
      apply Keeps.bind hio.error
      intro _
      exact Keeps.pure _
    . intro _
      exact hnext

include hfail

theorem downloadTo_keeps (hio : KeptByIo env I) {size : Nat} (hcall : Keeps I (emit (.call (.downloadTo size))))
    (hread : size ≤ env.downloadMax → Keeps I (usbReadProgress env size)) : Keeps I (downloadTo env size) := by
  unfold downloadTo
  apply Keeps.bind hcall
  intro _
  apply Keeps.ite
  . intro _
    exact failWith_keeps hfail _ _
  . intro hle
    apply dataPhase_keeps hio (hread (by omega))
    apply Keeps.bind Keeps.get
    intro w
    exact Keeps.pure _

theorem cmdDownload_keeps (hio : KeptByIo env I) (hdownload : Keeps I (emit .download))
    (hokay : ∀ text, Keeps I (Fastboot.fastbootOkay env text))
    (hset : ∀ len ≤ env.downloadMax, Keeps I (setDownloadSize len))
    (hread : ∀ len ≤ env.downloadMax, Keeps I (usbReadProgress env len)) (arg : Bytes)
    : Keeps I (cmdDownload env arg) := by
  unfold cmdDownload
  apply Keeps.bind hdownload
  intro _
  apply Keeps.bind (hset _ (Nat.zero_le _))
  intro _
  apply Keeps.ite
  . intro _
    exact failWith_keeps hfail _ _
  . intro hle
    apply dataPhase_keeps hio (hread _ (by omega))
    apply Keeps.bind (hset _ (by omega))
    intro _
    exact hokay _

theorem pullFile_send_keeps {size : Nat} (hset : Keeps I (setDownloadSize (u32 (pullFile.offset + size))))
    (hwrite : ∀ bytes, Keeps I (usbWrite env (.file bytes))) (hread : Keeps I (usbRead env 64))
    : Keeps I (pullFile.send env size) := by
  unfold pullFile.send
  apply Keeps.bind hset
  intro _
  apply Keeps.bind Keeps.get
  intro w
  apply Keeps.bind (hwrite _)
  intro count
  apply Keeps.ite
  . intro _
    exact failWith_keeps hfail _ _
  intro _
  apply Keeps.bind hread
  intro r
  apply Keeps.ite
  . intro _
    exact failWith_keeps hfail _ _
  intro _
  apply Keeps.ite
  . intro _
    exact failWith_keeps hfail _ _
  intro _
  exact Keeps.pure _

theorem pullFile_body_keeps (hheader : ∀ bytes : Bytes, bytes.length ≤ env.downloadMax → Keeps I (store 0 bytes))
    (hcontents : ∀ bytes : Bytes, bytes.length ≤ u32 (env.downloadMax + 2 ^ 32 - pullFile.offset)
      → Keeps I (store pullFile.offset bytes))
    (hsend : ∀ size ≤ u32 (env.downloadMax + 2 ^ 32 - pullFile.offset), Keeps I (pullFile.send env size)) (fd : Fd)
    : Keeps I (pullFile.body env fd) := by
  cases fd with
  | invalid => exact failWith_keeps hfail _ _
  | cannotStat => exact failWith_keeps hfail _ _
  | file size contents =>
    apply Keeps.ite
    . intro _
      exact failWith_keeps hfail _ _
    intro hroom
    apply Keeps.bind (hheader _ (List.length_take_le _ _))
    intro _
    apply Keeps.ite
    . intro _
      exact failWith_keeps hfail _ _
    intro _
    have hgot : ((contents.map (List.take (u32 (env.downloadMax + 2 ^ 32 - pullFile.offset)))).getD []).length
        ≤ u32 (env.downloadMax + 2 ^ 32 - pullFile.offset) := by
      cases contents with
      | none => exact Nat.zero_le _
      | some bytes =>
        rw [Option.map_some, Option.getD_some]
        exact List.length_take_le _ _
    apply Keeps.bind (hcontents _ hgot)
    intro _
    apply Keeps.ite
    . intro _
      exact failWith_keeps hfail _ _
    intro _
    exact hsend size (by omega)

include hemit hstore

theorem KeptByIo.downloadTo (hio : KeptByIo env I) (size : Nat) : Keeps I (downloadTo env size) :=
  downloadTo_keeps hfail hio (hemit _ trivial) (fun _ => hio.usbReadProgress hstore (fun _ => hemit _ trivial) _)

include hsize

theorem KeptByIo.cmdDownload (hio : KeptByIo env I) (hdownload : Keeps I (emit .download))
    (hokay : ∀ text, Keeps I (Fastboot.fastbootOkay env text)) (arg : Bytes)
    : Keeps I (cmdDownload env arg) :=
  cmdDownload_keeps hfail hio hdownload hokay (fun _ _ => hsize _)
    (fun _ _ => hio.usbReadProgress hstore (fun _ => hemit _ trivial) _) arg

theorem pullFile_keeps (hwrite : ∀ bytes, Keeps I (usbWrite env (.file bytes)))
    (hread : Keeps I (usbRead env 64)) (fd : Fd) : Keeps I (pullFile env fd) := by
  apply Keeps.bind (hemit _ (by trivial))
  intro _
  apply pullFile_body_keeps hfail (fun _ _ => hstore _ _) (fun _ _ => hstore _ _)
  intro size _
  exact pullFile_send_keeps hfail (hsize _) hwrite hread

end Transfers

theorem wp_askOutside {env : Env} {q : Outside} {Q : Bool → World → Prop} {E : World → Prop} {w : World}
    : wp (askOutside env q) Q E w
        ↔ Q (env.outside w.outsides q)
            { w with outsides := w.outsides + 1, log := .outside q (env.outside w.outsides q) :: w.log } :=
  Iff.rfl

theorem wp_halt {α : Type} {env : Env} {h : Halt} {Q : α → World → Prop} {E : World → Prop} {w : World}
    : wp ((HProg.halt h : HProg α).interp (runOp env)) Q E w ↔ E { w with log := .halt h :: w.log } :=
  Iff.rfl

structure KeptByParts (env : Env) (I : World → Prop) : Prop where
  read : ∀ len, Keeps I (usbRead env len)
  write : ∀ packet, (∀ code text, packet ≠ .reply code text) → Keeps I (usbWrite env packet)
  emit : ∀ e : Event, e.Passive → Keeps I (emit e)
  outside : ∀ q, Keeps I (askOutside env q)
  info : ∀ text, Keeps I (fastbootInfo env text)
  okay : ∀ text, Keeps I (fastbootOkay env text)
  fail : ∀ text, Keeps I (fastbootFail env text)
  downloadTo : ∀ size, Keeps I (downloadTo env size)
  pullFile : ∀ fd, Keeps I (pullFile env fd)

theorem dispatch_spec {env : Env} {cmdlist : List Cmd} {J E : World → Prop} {buffer : Bytes} {w : World}
    (hrefuse : ∀ text, wp (fastbootFail env text) (fun _ => J) E w)
    (hfail : ∀ text w', w'.state = .command → J w' → wp (fastbootFail env text) (fun _ => J) E w')
    (hhandler : ∀ cmd ∈ cmdlist, cmd.name.isPrefixOf buffer = true
      → (checkBattery env w && batteryCmds.any fun name => name.isPrefixOf buffer) = false
      → wp (do emit (.handle cmd.name); runHandler env cmd.handle (cstr (buffer.drop cmd.name.length)))
          (fun _ => J) E w)
    : wp (dispatch env cmdlist buffer) (fun _ => J) E w := by
  unfold dispatch
  split
  . exact hrefuse _
  . next cmd hfind =>
    simp only [wp_bind, wp_get]
    split
    . exact hrefuse _
    . next hgate =>
      have hname : cmd.name.isPrefixOf buffer = true := by
        have hsome := List.find?_some hfind
        exact hsome
      have hhandled := hhandler cmd (List.mem_of_find?_eq_some hfind) hname (by simpa using hgate)
      rw [wp_bind] at hhandled
      simp only [wp_bind, wp_get]
      apply wp_mono hhandled _ (fun _ => id)
      intro _ w1 h1
      apply wp_mono h1 _ (fun _ => id)
      intro _ w2 h2
      split
      . next hcommand => exact hfail _ w2 hcommand h2
      . exact h2

-- `R` is what is known once the packet has been read, or could not be.
theorem commandLoop_spec {env : Env} {cmdlist : List Cmd} {I E : World → Prop}
    {R : Bool × Bytes → World → Prop} {w : World}
    (hleave : w.state = .error → I { w with state := .offline, log := .state .offline :: w.log })
    (hread : w.state ≠ .error → wp (usbRead env 64) R E { w with log := .await :: w.log })
    (hoffline : ∀ packet w', R (false, packet) w'
      → I { w' with state := .offline, log := .state .offline :: w'.log })
    (hdispatch : ∀ packet w', R (true, packet) w'
      → wp (dispatch env cmdlist (cmdBuffer packet)) (fun _ => I) E
          { w' with state := .command, log := .state .command :: w'.log })
    : wp (commandLoop env cmdlist) (fun _ => I) E w := by
  unfold commandLoop
  simp only [wp_bind, wp_get]
  split
  . next herror => exact hleave herror
  . next hno =>
    simp only [emit, wp_bind, wp_modify]
    apply wp_mono (hread hno) _ (fun _ => id)
    rintro ⟨ok, packet⟩ w' hr
    cases ok with
    | false => exact hoffline packet w' hr
    | true => exact hdispatch packet w' hr

namespace KeptByParts

variable {env : Env} {I : World → Prop}

theorem runOp (h : KeptByParts env I) {op : Op}
    (hoem : ∀ name, op = .oem name → Keeps I (Fastboot.emit (.oem name)))
    (hhalt : ∀ h, op = .halt h → Keeps I (Fastboot.emit (.halt h))) : Keeps I (runOp env op) := by
  cases op with
  | api a =>
    cases a with
    | info text => exact h.info text
    | okay text => exact h.okay text
    | fail text => exact h.fail text
    | handshake len =>
      apply Keeps.bind (h.emit _ (by trivial))
      intro _
      apply Keeps.bind (h.write _ (by simp))
      intro _
      exact Keeps.pure _
    | receive len =>
      apply Keeps.bind (h.emit _ (by trivial))
      intro _
      apply Keeps.bind (h.read _)
      intro r
      exact Keeps.pure _
    | downloadTo size => exact h.downloadTo size
    | pullFile fd => exact h.pullFile fd
  | outside q => exact h.outside q
  | oem name => exact hoem name rfl
  | statfs dir =>
    apply Keeps.bind Keeps.get
    intro w
    apply Keeps.bind (h.outside _)
    intro ok
    exact Keeps.pure _
  | fresh =>
    apply Keeps.bind Keeps.get
    intro w
    exact Keeps.pure _
  | halt h =>
    apply Keeps.bind (hhalt h rfl)
    intro _
    exact Keeps.throw _

theorem program (h : KeptByParts env I) {p : HProg Unit} {S : Op → Prop} (hp : p.Only S)
    (hoem : ∀ name, S (.oem name) → Keeps I (Fastboot.emit (.oem name)))
    (hhalt : ∀ h, S (.halt h) → Keeps I (Fastboot.emit (.halt h)))
    : Keeps I (p.interp (Fastboot.runOp env)) := by
  apply Prog.interp_keeps _ hp
  intro op hop
  apply h.runOp
  . rintro name rfl
    exact hoem name hop
  . rintro h rfl
    exact hhalt h hop

theorem runHandler (h : KeptByParts env I) (hoem : ∀ name, Keeps I (Fastboot.emit (.oem name)))
    (hhalt : ∀ h, Keeps I (Fastboot.emit (.halt h)))
    (hdownload : ∀ arg, Keeps I (cmdDownload env arg)) (handle : Handler) (arg : Bytes)
    : Keeps I (runHandler env handle arg) := by
  cases handle with
  | program run =>
    apply Keeps.bind Keeps.get
    intro w
    exact h.program (Prog.only_true _) (fun name _ => hoem name) (fun h _ => hhalt h)
  | download => exact hdownload arg

theorem dispatch (h : KeptByParts env I) (hhandle : ∀ name, Keeps I (Fastboot.emit (.handle name)))
    (hoem : ∀ name, Keeps I (Fastboot.emit (.oem name))) (hhalt : ∀ h, Keeps I (Fastboot.emit (.halt h)))
    (hdownload : ∀ arg, Keeps I (cmdDownload env arg)) (cmdlist : List Cmd) (buffer : Bytes)
    : Keeps I (dispatch env cmdlist buffer) := by
  intro w hw
  apply dispatch_spec (fun text => h.fail text w hw) (fun text w' _ => h.fail text w')
  intro cmd _ _ _
  exact Keeps.bind (hhandle _) (fun _ => h.runHandler hoem hhalt hdownload _ _) w hw

end KeptByParts

/-! ### The log only grows. -/

def Event.Inner : Event → Prop
  | .await => False
  | .handle _ => False
  | .oem _ => False
  | .halt _ => False
  | _ => True

def Extends (p : Event → Prop) (log : List Event) (w : World) : Prop :=
  ∃ es, w.log = es ++ log ∧ ∀ e ∈ es, p e

section Extends

variable {env : Env} {p : Event → Prop} {log : List Event}

theorem Extends.refl (w : World) : Extends p w.log w :=
  ⟨[], rfl, by simp⟩

theorem Extends.cons {w w' : World} {e : Event} (h : Extends p log w) (he : p e)
    (hlog : w'.log = e :: w.log) : Extends p log w' := by
  obtain ⟨es, hes, hall⟩ := h
  refine ⟨e :: es, ?_, ?_⟩
  . rw [hlog, hes, List.cons_append]
  . intro e' he'
    cases List.mem_cons.mp he' with
    | inl heq => exact heq ▸ he
    | inr hmem => exact hall e' hmem

theorem extends_emit {e : Event} (he : p e) : Keeps (Extends p log) (emit e) :=
  fun _ h => h.cons he rfl

variable (hp : ∀ e : Event, e.Inner → p e)

include hp

theorem extends_keptByIo : KeptByIo env (Extends p log) where
  read := fun xfer _ h => h.cons (hp (.read xfer _) trivial) rfl
  error := fun _ h => h.cons (hp (.state .error) trivial) rfl
  write := fun packet _ h => h.cons (hp (.wrote packet _) trivial) rfl

theorem extends_passive (e : Event) (he : e.Passive) : Keeps (Extends p log) (emit e) := by
  apply extends_emit
  apply hp
  cases e
  all_goals trivial

theorem extends_fail (text : Bytes) : Keeps (Extends p log) (fastbootFail env text) :=
  (extends_keptByIo hp).fastbootFail (extends_emit (hp (.state .complete) trivial))
    (extends_emit (hp (.call (.fail text)) trivial))

theorem extends_okay (text : Bytes) : Keeps (Extends p log) (fastbootOkay env text) :=
  (extends_keptByIo hp).fastbootOkay (extends_emit (hp (.state .complete) trivial))
    (extends_emit (hp (.call (.okay text)) trivial))

theorem extends_cmdDownload (arg : Bytes) : Keeps (Extends p log) (cmdDownload env arg) :=
  (extends_keptByIo hp).cmdDownload (extends_passive hp) (fun _ _ _ h => h) (fun _ _ h => h)
    (extends_fail hp) (extends_emit (hp .download trivial)) (extends_okay hp) arg

theorem extends_keptByParts : KeptByParts env (Extends p log) where
  read := (extends_keptByIo hp).usbRead
  write := fun packet _ => (extends_keptByIo hp).usbWrite packet
  emit := extends_passive hp
  outside := fun q _ h => h.cons (hp (.outside q _) trivial) rfl
  info := fun text => (extends_keptByIo hp).fastbootInfo (extends_emit (hp (.call (.info text)) trivial))
  okay := extends_okay hp
  fail := extends_fail hp
  downloadTo := (extends_keptByIo hp).downloadTo (extends_passive hp) (fun _ _ _ h => h) (extends_fail hp)
  pullFile := pullFile_keeps (extends_passive hp) (fun _ _ _ h => h) (fun _ _ h => h) (extends_fail hp)
    (fun _ => (extends_keptByIo hp).usbWrite _) ((extends_keptByIo hp).usbRead 64)

end Extends

/-! ### Turns of the loop -/

theorem fastbootFail_complete (env : Env) (text : Bytes) (w : World)
    : wp (fastbootFail env text) (fun _ w' => w'.state = .complete) (fun _ => True) w := by
  unfold fastbootFail
  simp only [emit, setState, wp_bind, wp_modify]
  apply wp_mono (wp_true _)
  . simp
  . simp

theorem dispatch_not_command (env : Env) (cmdlist : List Cmd) (buffer : Bytes) (w : World)
    : wp (dispatch env cmdlist buffer) (fun _ w' => w'.state ≠ .command) (fun _ => True) w := by
  have hfail (text : Bytes) (w : World)
      : wp (fastbootFail env text) (fun _ w' => w'.state ≠ .command) (fun _ => True) w := by
    apply wp_mono (fastbootFail_complete env text w) _ (fun _ => id)
    intro _ w' hw'
    simp [hw']
  unfold dispatch
  split
  . exact hfail _ _
  . simp only [wp_bind, wp_get]
    split
    . exact hfail _ _
    . simp only [emit, wp_bind, wp_modify, wp_get]
      apply wp_mono (wp_true _) _ (fun _ => id)
      intro _ w' _
      split
      . exact hfail _ _
      . next hstate => exact hstate

theorem Server.run_spec {s t : Server} {x : Fb Unit} {I E : World → Prop} (h : s.run x = some t)
    (hwp : s.halted = none → wp x (fun _ => I) E s.world)
    : (t.halted = none → I t.world) ∧ (t.halted ≠ none → E t.world) := by
  unfold Server.run at h
  split at h
  . contradiction
  . next hrunning =>
    replace hwp := hwp hrunning
    unfold wp at hwp
    split at h
    . next hexec =>
      rw [hexec] at hwp
      cases h
      exact ⟨fun _ => hwp, fun hno => absurd rfl hno⟩
    . next hexec =>
      rw [hexec] at hwp
      cases h
      exact ⟨fun hno => by contradiction, fun _ => hwp⟩

theorem serves_induction {env : Env} {cmdlist : List Cmd} {base : Bytes} {I E : World → Prop}
    (hstart : I (start base).world)
    (hturn : ∀ w, I w → wp (commandLoop env cmdlist) (fun _ => I) E w) {s : Server}
    (h : Serves env cmdlist base s)
    : (s.halted = none → I s.world) ∧ (s.halted ≠ none → E s.world) := by
  apply System.Reaches.invariant (P := fun s =>
    (s.halted = none → I s.world) ∧ (s.halted ≠ none → E s.world)) _ _ h
  . exact ⟨fun _ => hstart, fun hno => absurd rfl hno⟩
  . intro t u _ ht _ hstep
    exact Server.run_spec hstep (fun hrunning => hturn t.world (ht.1 hrunning))

theorem serves_invariant {env : Env} {cmdlist : List Cmd} {base : Bytes} {I : World → Prop}
    (hstart : I (start base).world) (hturn : Keeps I (commandLoop env cmdlist)) {s : Server}
    (h : Serves env cmdlist base s) : I s.world := by
  have hall := serves_induction hstart hturn h
  by_cases hrunning : s.halted = none
  . exact hall.1 hrunning
  . exact hall.2 hrunning

def hostOf (packets : List Bytes) : Env where
  read := fun n => packets[n]?
  write := fun _ => some 64
  outside := fun _ _ => true
  statfs := fun _ => (0, 0)
  capacity := fun _ => 100
  batThreshold := 0
  below := fun _ _ => 0
  fresh := fun _ => []
  patience := 0
  downloadMax := 8
  downloadMax_lt := by decide

end Fastboot
