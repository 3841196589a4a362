import Tboot.Disk.Impl.Apply
import Tboot.Disk.Lemmas.Exact

/-!
This module contains what a first `process_disk_config` leaves for the `apply_disk_config` that follows
it: when the two write the same partition table as `apply_disk_config` alone.
-/

namespace Disk

/-! ### The layout after the first pass -/

def PartInfo.unplaced (pinfo : PartInfo) : PartInfo :=
  { pinfo with startLba := 0 }

namespace DiskInfo

variable (dinfo : DiskInfo)

def dataLba (cnt cur : Nat) : Nat :=
  u32 (cur + dinfo.ebrLen cnt)

def restLba (cnt cur : Nat) : Nat :=
  u32 (dinfo.numLba.toNat + 2 ^ 32 - dinfo.dataLba cnt cur)

def lenLba (cnt cur : Nat) (pinfo : PartInfo) : Nat :=
  if pinfo.lenKb = fillDisk then
    dinfo.restLba cnt cur
  else if dinfo.logical cnt then
    kbToLba pinfo.lenKb dinfo.sectSize.toNat
  else
    u32 (lenLba64 pinfo.lenKb dinfo.sect64)

def nextLba (cnt cur : Nat) (pinfo : PartInfo) : Nat :=
  u32 (dinfo.dataLba cnt cur + dinfo.lenLba cnt cur pinfo)

def restKb (cnt cur : Nat) : UInt32 :=
  UInt32.ofNat (u64 (dinfo.restLba cnt cur * dinfo.sect64) / 1024)

def books (cnt : Nat) (pinfo : PartInfo) : Bool :=
  dinfo.logical cnt ∧ pinfo.lenKb = fillDisk

def book (cnt cur : Nat) (pinfo : PartInfo) : PartInfo :=
  if dinfo.books cnt pinfo then { pinfo with lenKb := dinfo.restKb cnt cur } else pinfo

def bookedFrom (cnt cur : Nat) : List PartInfo → List PartInfo
  | [] => []
  | pinfo :: rest =>
    dinfo.book cnt cur pinfo :: bookedFrom (cnt + 1) (dinfo.nextLba cnt cur pinfo) rest

theorem bookedFrom_cons (cnt cur : Nat) (pinfo : PartInfo) (rest : List PartInfo)
    : dinfo.bookedFrom cnt cur (pinfo :: rest)
        =
      dinfo.book cnt cur pinfo :: dinfo.bookedFrom (cnt + 1) (dinfo.nextLba cnt cur pinfo) rest :=
  rfl

def booked : DiskInfo :=
  { dinfo with partLst := dinfo.bookedFrom 0 dinfo.skipLba.toNat dinfo.partLst }

/--
The length of the rest of the disk, rounded down to kilobytes, gives back the same number of sectors,
and passes the test for space.
-/
def KeepsRest (cnt cur : Nat) : Prop :=
  dinfo.restKb cnt cur = fillDisk
    ∨ kbToLba (dinfo.restKb cnt cur) dinfo.sectSize.toNat = dinfo.restLba cnt cur
      ∧ u32 (cur + u32 ((dinfo.restKb cnt cur).toNat / dinfo.sectSize.toNat * 1024) + 1)
        ≤ dinfo.numLba.toNat

instance (cnt cur : Nat) : Decidable (dinfo.KeepsRest cnt cur) :=
  inferInstanceAs (Decidable (_ ∨ _))

def KeepsLengths (cnt cur : Nat) : List PartInfo → Prop
  | [] => True
  | pinfo :: rest =>
    (dinfo.books cnt pinfo = true → dinfo.KeepsRest cnt cur)
      ∧ KeepsLengths (cnt + 1) (dinfo.nextLba cnt cur pinfo) rest

end DiskInfo

def DiskInfo.linkLen (dinfo : DiskInfo) (lba : Nat) (pnext : PartInfo) : Nat :=
  if pnext.lenKb ≠ fillDisk then
    u32 (1 + kbToLba pnext.lenKb dinfo.sectSize.toNat)
  else
    u32 (dinfo.numLba.toNat + 2 ^ 32 - lba)

def DiskInfo.record (dinfo : DiskInfo) (cnt cur ext : Nat) (pinfo : PartInfo)
    (pnext : Option PartInfo) : WriteItem :=
  let lba := dinfo.nextLba cnt cur pinfo
  let nextPtr :=
    match pnext with
    | some pnext =>
      cfgPentry pcPartNormal pcPartTypeExtended (u32 (lba + 2 ^ 32 - ext)) (dinfo.linkLen lba pnext)
    | none => PcPartition.zero
  ⟨u64 (cur * dinfo.sect64),
    .bootRecord ⟨cfgPentry pcPartNormal pinfo.type 1 (dinfo.lenLba cnt cur pinfo), nextPtr,
      pcBiosBootSig⟩⟩

def DiskInfo.place (dinfo : DiskInfo) (cnt cur : Nat) (pinfo : PartInfo) : PartInfo :=
  { dinfo.book cnt cur pinfo with startLba := UInt32.ofNat (dinfo.dataLba cnt cur) }

variable {dinfo : DiskInfo} {mem : Nat → Bool}

namespace configMbr

/-! ### The loop does not look at the starts -/

theorem addPart_congr {cnt : Nat} {p q : PartInfo} {pnext qnext : Option PartInfo} (c : Cursor)
    (h : p.unplaced = q.unplaced) (hnext : pnext.map PartInfo.lenKb = qnext.map PartInfo.lenKb)
    : addPart dinfo mem cnt p pnext c = addPart dinfo mem cnt q qnext c := by
  obtain ⟨name, flags, type, lenKb, start⟩ := p
  obtain ⟨_, _, _, _, start'⟩ := q
  simp only [PartInfo.unplaced, PartInfo.mk.injEq, and_true] at h
  obtain ⟨rfl, rfl, rfl, rfl⟩ := h
  have hext : mkExtPentry dinfo ⟨name, flags, type, lenKb, start⟩ c.curLba c.extLba pnext
        (mem c.wrList.length)
      = mkExtPentry dinfo ⟨name, flags, type, lenKb, start'⟩ c.curLba c.extLba qnext
        (mem c.wrList.length) := by
    unfold mkExtPentry
    cases pnext with
    | none =>
      cases qnext with
      | none => rfl
      | some qnext => contradiction
    | some pnext =>
      cases qnext with
      | none => contradiction
      | some qnext =>
        simp only [Option.map_some, Option.some.injEq] at hnext
        simp only [hnext, Option.isSome_some]
  have hpri : mkPriPentry dinfo (some ⟨name, flags, type, lenKb, start⟩) cnt c.curLba
        (mem c.wrList.length)
      = mkPriPentry dinfo (some ⟨name, flags, type, lenKb, start'⟩) cnt c.curLba
        (mem c.wrList.length) := rfl
  unfold addPart
  rw [hext, hpri]
  split
  . rfl
  . split
    . next item p' lba hentry => rw [(mkPriPentry_some hentry).right.left]; rfl
    . rfl

theorem unplaced_lenKb {p q : PartInfo} (h : p.unplaced = q.unplaced) : p.lenKb = q.lenKb := by
  unfold PartInfo.unplaced at h
  simp only [PartInfo.mk.injEq] at h
  exact h.right.right.right.left

theorem head?_lenKb {ps qs : List PartInfo} (h : ps.map PartInfo.unplaced = qs.map PartInfo.unplaced)
    : ps.head?.map PartInfo.lenKb = qs.head?.map PartInfo.lenKb := by
  have hhead := congrArg (fun l => l.head?.map PartInfo.lenKb) h
  simp only [List.head?_map, Option.map_map] at hhead
  exact hhead

theorem loop_congr {cnt : Nat} {ps qs : List PartInfo} (c : Cursor)
    (h : ps.map PartInfo.unplaced = qs.map PartInfo.unplaced)
    : loop dinfo mem cnt c ps = loop dinfo mem cnt c qs := by
  induction ps generalizing cnt c qs with
  | nil =>
    cases qs with
    | nil => rfl
    | cons q qs => contradiction
  | cons p ps ih =>
    cases qs with
    | nil => contradiction
    | cons q qs =>
      simp only [List.map_cons, List.cons.injEq] at h
      have hspace (c1 : Cursor) : hasSpace dinfo p c1 = hasSpace dinfo q c1 := by
        unfold hasSpace
        rw [unplaced_lenKb h.left]
      unfold loop
      simp only [hspace, addPart_congr _ h.left (head?_lenKb h.right), ih _ h.right]

theorem loop_partLst {cnt : Nat} {lst : List PartInfo} (c : Cursor) (ps : List PartInfo)
    (hlen : lst.length = dinfo.partLst.length)
    : loop { dinfo with partLst := lst } mem cnt c ps = loop dinfo mem cnt c ps := by
  have hopen (cnt : Nat) (c : Cursor)
      : openExtended { dinfo with partLst := lst } mem cnt c = openExtended dinfo mem cnt c := by
    unfold openExtended
    rw [hlen]
    rfl
  induction ps generalizing cnt c with
  | nil => rfl
  | cons p ps ih =>
    unfold loop
    simp only [hopen, ih]
    rfl

/-! ### What the loop leaves in the layout -/

theorem loop_cons_ok {cnt : Nat} {pinfo : PartInfo} {rest : List PartInfo} {c c' : Cursor}
    : loop dinfo mem cnt c (pinfo :: rest) = .ok c'
        ↔ ∃ c1 c2, openExtended dinfo mem cnt c = some c1 ∧ hasSpace dinfo pinfo c1 = true
            ∧ addPart dinfo mem cnt pinfo rest.head? c1 = some c2
            ∧ loop dinfo mem (cnt + 1) c2 rest = .ok c' := by
  constructor
  . intro h
    unfold loop at h
    split at h
    . contradiction
    . next c1 hopen =>
      split at h
      . next hspace =>
        split at h
        . contradiction
        . next c2 hadd => exact ⟨c1, c2, hopen, hspace, hadd, h⟩
      . contradiction
  . intro ⟨c1, c2, hopen, hspace, hadd, hrest⟩
    unfold loop
    simp only [hopen, hspace, hadd, ↓reduceIte]
    exact hrest

theorem mkExtPentry_eq {cnt : Nat} (p : PartInfo) (lba ext : Nat) (pnext : Option PartInfo)
    (hlogical : dinfo.logical cnt = true)
    : mkExtPentry dinfo p lba ext pnext true
        =
      if p.lenKb = fillDisk ∧ pnext.isSome then
        none
      else
        some (dinfo.record cnt lba ext p pnext, dinfo.place cnt lba p, dinfo.nextLba cnt lba p) := by
  have hdata : dinfo.dataLba cnt lba = u32 (lba + 1) := by
    unfold DiskInfo.dataLba DiskInfo.ebrLen
    rw [if_pos hlogical]
  have hlen : (if p.lenKb ≠ fillDisk then kbToLba p.lenKb dinfo.sectSize.toNat
        else u32 (dinfo.numLba.toNat + 2 ^ 32 - u32 (lba + 1)))
      = dinfo.lenLba cnt lba p := by
    unfold DiskInfo.lenLba DiskInfo.restLba
    rw [hdata, hlogical, ite_not, if_pos rfl]
  have hplace : { p with
        lenKb := if p.lenKb ≠ fillDisk then p.lenKb
          else UInt32.ofNat (u64 (dinfo.lenLba cnt lba p * dinfo.sect64) / 1024)
        startLba := UInt32.ofNat (u32 (lba + 1)) }
      = dinfo.place cnt lba p := by
    unfold DiskInfo.place DiskInfo.book DiskInfo.books DiskInfo.restKb DiskInfo.lenLba
    rw [hdata, hlogical]
    by_cases hfill : p.lenKb = fillDisk
    . simp [hfill]
    . simp [hfill]
  unfold mkExtPentry
  dsimp only [Bool.not_true, Bool.false_eq_true, ↓reduceIte]
  rw [hlen, hplace, ← hdata]
  rfl

theorem addPart_logical {cnt : Nat} {c : Cursor} (p : PartInfo) (pnext : Option PartInfo)
    (hlogical : dinfo.logical cnt = true) (hext : c.extended = true)
    : addPart dinfo (fun _ => true) cnt p pnext c
        =
      if p.lenKb = fillDisk ∧ pnext.isSome then
        none
      else
        some { c with
          curLba := dinfo.nextLba cnt c.curLba p
          wrList := dinfo.record cnt c.curLba c.extLba p pnext :: c.wrList
          parts := c.parts ++ [dinfo.place cnt c.curLba p] } := by
  unfold addPart
  rw [if_pos hext, mkExtPentry_eq _ _ _ _ hlogical]
  by_cases hbad : p.lenKb = fillDisk ∧ pnext.isSome
  . rw [if_pos hbad, if_pos hbad]
  . rw [if_neg hbad, if_neg hbad]
    rfl

theorem addPart_primary {cnt : Nat} {c c2 : Cursor} {p : PartInfo} {pnext : Option PartInfo}
    (hlogical : dinfo.logical cnt = false) (hext : c.extended = false) (hlba : c.curLba < 2 ^ 32)
    (h : addPart dinfo mem cnt p pnext c = some c2)
    : c2.curLba = dinfo.nextLba cnt c.curLba p ∧ c2.extended = c.extended
      ∧ c2.parts = c.parts ++ [dinfo.place cnt c.curLba p] := by
  have hdata : dinfo.dataLba cnt c.curLba = c.curLba := by
    unfold DiskInfo.dataLba DiskInfo.ebrLen
    rw [hlogical, if_neg (by decide), Nat.add_zero]
    exact u32_of_lt hlba
  have hlen : u32 (if p.lenKb ≠ fillDisk then lenLba64 p.lenKb dinfo.sect64
        else u32 (dinfo.numLba.toNat + 2 ^ 32 - c.curLba))
      = dinfo.lenLba cnt c.curLba p := by
    unfold DiskInfo.lenLba DiskInfo.restLba
    rw [hdata, hlogical, ite_not]
    by_cases hfill : p.lenKb = fillDisk
    . rw [if_pos hfill, if_pos hfill, u32_of_lt (u32_lt _)]
    . rw [if_neg hfill, if_neg hfill, if_neg (by decide)]
  have hplace : { p with startLba := UInt32.ofNat c.curLba } = dinfo.place cnt c.curLba p := by
    unfold DiskInfo.place DiskInfo.book DiskInfo.books
    rw [hdata, hlogical]
    simp
  unfold addPart at h
  simp only [hext, Bool.false_eq_true, ↓reduceIte] at h
  split at h
  . next item p' lba hentry =>
    have hp' := (mkPriPentry_some hentry).right.left
    unfold mkPriPentry at hentry
    split at hentry
    . contradiction
    . split at hentry
      . contradiction
      . simp only [Option.some.injEq, Prod.mk.injEq] at hentry h
        rw [hlen] at hentry
        rw [← h, ← hentry.right.right, hp', Option.getD_some, hplace]
        unfold DiskInfo.nextLba
        rw [hdata]
        rw [hext]
        exact ⟨rfl, rfl, rfl⟩
  . contradiction

theorem book_of_not_books {cnt cur : Nat} {p : PartInfo} (h : ¬ dinfo.books cnt p = true)
    : dinfo.book cnt cur p = p :=
  if_neg h

theorem addPart_place {cnt : Nat} {c c2 : Cursor} {p : PartInfo} {pnext : Option PartInfo}
    (hext : c.extended = dinfo.logical cnt) (hlba : c.curLba < 2 ^ 32)
    (h : addPart dinfo (fun _ => true) cnt p pnext c = some c2)
    : c2.curLba = dinfo.nextLba cnt c.curLba p ∧ c2.extended = c.extended
      ∧ c2.parts = c.parts ++ [dinfo.place cnt c.curLba p]
      ∧ (dinfo.books cnt p = true → pnext = none) := by
  cases hlogical : dinfo.logical cnt with
  | false =>
    rw [hlogical] at hext
    obtain ⟨hnext, hext2, hparts⟩ := addPart_primary hlogical hext hlba h
    refine ⟨hnext, hext2, hparts, ?_⟩
    unfold DiskInfo.books
    rw [hlogical]
    simp
  | true =>
    rw [hlogical] at hext
    rw [addPart_logical p pnext hlogical hext, Option.ite_none_left_eq_some] at h
    simp only [Option.some.injEq] at h
    rw [← h.right]
    refine ⟨rfl, rfl, rfl, ?_⟩
    intro hbooks
    have hfill := (decide_eq_true_iff.mp hbooks).right
    cases pnext with
    | none => rfl
    | some pnext => exact absurd ⟨hfill, rfl⟩ h.left

/-! ### The second pass -/

theorem book_lenKb {cnt cur : Nat} {p : PartInfo} (h : dinfo.books cnt p = true)
    : (dinfo.book cnt cur p).lenKb = dinfo.restKb cnt cur := by
  unfold DiskInfo.book
  rw [if_pos h]

theorem book_book (cnt cur : Nat) (p : PartInfo)
    : dinfo.book cnt cur (dinfo.book cnt cur p) = dinfo.book cnt cur p := by
  by_cases hbooks : dinfo.books cnt p = true
  . unfold DiskInfo.book
    rw [if_pos hbooks]
    split
    all_goals rfl
  . rw [book_of_not_books hbooks, book_of_not_books hbooks]

theorem lenLba_book {cnt cur : Nat} {p : PartInfo} (hbooks : dinfo.books cnt p = true)
    (hkeeps : dinfo.KeepsRest cnt cur)
    : dinfo.lenLba cnt cur (dinfo.book cnt cur p) = dinfo.lenLba cnt cur p := by
  have ⟨hlogical, hfill⟩ := decide_eq_true_iff.mp hbooks
  unfold DiskInfo.lenLba
  rw [book_lenKb hbooks, if_pos hfill, if_pos hlogical]
  split
  . rfl
  . next hne => exact (hkeeps.resolve_left hne).left

theorem hasSpace_book {cnt : Nat} {p : PartInfo} {c : Cursor} (hbooks : dinfo.books cnt p = true)
    (hkeeps : dinfo.KeepsRest cnt c.curLba) (hext : c.extended = dinfo.logical cnt)
    (h : hasSpace dinfo p c = true) : hasSpace dinfo (dinfo.book cnt c.curLba p) c = true := by
  have ⟨hlogical, hfill⟩ := decide_eq_true_iff.mp hbooks
  have hroom := hasSpace_spec h
  unfold hasSpace
  rw [if_neg (by omega), book_lenKb hbooks]
  split
  . next hne =>
    have hle := (hkeeps.resolve_left hne).right
    unfold Cursor.ext
    rw [hext, if_pos hlogical]
    exact decide_eq_true hle
  . rfl

theorem addPart_book {cnt : Nat} {p : PartInfo} {c : Cursor} (hbooks : dinfo.books cnt p = true)
    (hkeeps : dinfo.KeepsRest cnt c.curLba) (hext : c.extended = dinfo.logical cnt)
    : addPart dinfo (fun _ => true) cnt (dinfo.book cnt c.curLba p) none c
        =
      addPart dinfo (fun _ => true) cnt p none c := by
  have hlogical := (decide_eq_true_iff.mp hbooks).left
  have hnext : dinfo.nextLba cnt c.curLba (dinfo.book cnt c.curLba p) = dinfo.nextLba cnt c.curLba p := by
    unfold DiskInfo.nextLba
    rw [lenLba_book hbooks hkeeps]
  have htype : (dinfo.book cnt c.curLba p).type = p.type := by
    unfold DiskInfo.book
    rw [if_pos hbooks]
  rw [hlogical] at hext
  rw [addPart_logical _ _ hlogical hext, addPart_logical _ _ hlogical hext]
  unfold DiskInfo.record DiskInfo.place
  rw [book_book, hnext, htype, lenLba_book hbooks hkeeps]
  simp

theorem u32_one_add_diff (n : Nat) {m : Nat} (h : m < 2 ^ 32)
    : u32 (1 + u32 (n + 2 ^ 32 - u32 (m + 1))) = u32 (n + 2 ^ 32 - m) := by
  unfold u32
  omega

theorem linkLen_book {cnt lba : Nat} {p : PartInfo} (hlba : lba < 2 ^ 32)
    (hkeeps : dinfo.books cnt p = true → dinfo.KeepsRest cnt lba)
    : dinfo.linkLen lba (dinfo.book cnt lba p) = dinfo.linkLen lba p := by
  by_cases hbooks : dinfo.books cnt p = true
  . have ⟨hlogical, hfill⟩ := decide_eq_true_iff.mp hbooks
    unfold DiskInfo.linkLen
    rw [book_lenKb hbooks, ite_not, ite_not, if_pos hfill]
    by_cases hsame : dinfo.restKb cnt lba = fillDisk
    . rw [if_pos hsame]
    . rw [if_neg hsame, ((hkeeps hbooks).resolve_left hsame).left]
      unfold DiskInfo.restLba DiskInfo.dataLba DiskInfo.ebrLen
      rw [if_pos hlogical, u32_one_add_diff _ hlba]
  . rw [book_of_not_books hbooks]

theorem addPart_next {cnt : Nat} {p next next' : PartInfo} {c : Cursor}
    (hext : c.extended = dinfo.logical cnt)
    (hlink : dinfo.linkLen (dinfo.nextLba cnt c.curLba p) next'
      = dinfo.linkLen (dinfo.nextLba cnt c.curLba p) next)
    : addPart dinfo (fun _ => true) cnt p (some next') c
        =
      addPart dinfo (fun _ => true) cnt p (some next) c := by
  cases hlogical : dinfo.logical cnt with
  | false =>
    rw [hlogical] at hext
    unfold addPart
    simp only [hext, Bool.false_eq_true, ↓reduceIte]
  | true =>
    rw [hlogical] at hext
    rw [addPart_logical _ _ hlogical hext, addPart_logical _ _ hlogical hext]
    unfold DiskInfo.record
    simp only [hlink, Option.isSome_some]

theorem between_succ {cnt : Nat} {c c2 : Cursor} {p : PartInfo} (hext : c.extended = dinfo.logical cnt)
    (hnext : c2.curLba = dinfo.nextLba cnt c.curLba p) (hext2 : c2.extended = c.extended)
    : Between dinfo (cnt + 1) c2 := by
  constructor
  . rw [hnext]
    exact u32_lt _
  . rw [hext2, hext]
    rfl

theorem loop_booked {cnt : Nat} {ps : List PartInfo} {c c' : Cursor} (hc : Between dinfo cnt c)
    (hkeeps : dinfo.KeepsLengths cnt c.curLba ps)
    (h : loop dinfo (fun _ => true) cnt c ps = .ok c')
    : loop dinfo (fun _ => true) cnt c (dinfo.bookedFrom cnt c.curLba ps) = .ok c' := by
  induction ps generalizing cnt c with
  | nil => exact h
  | cons p rest ih =>
    rw [loop_cons_ok] at h
    obtain ⟨c1, c2, hopen, hspace, hadd, hrest⟩ := h
    obtain ⟨hcur, hext, _⟩ := openExtended_spec hc hopen
    have hlba : c1.curLba < 2 ^ 32 := by
      rw [hcur]
      exact hc.lba_lt
    obtain ⟨hnext, hext2, _, hlast⟩ := addPart_place hext hlba hadd
    rw [DiskInfo.bookedFrom_cons]
    unfold DiskInfo.KeepsLengths at hkeeps
    have hc2 := between_succ hext hnext hext2
    rw [← hcur, ← hnext] at hkeeps ⊢
    have hrest' := ih hc2 hkeeps.right hrest
    rw [loop_cons_ok]
    refine ⟨c1, c2, hopen, ?_, ?_, hrest'⟩
    . by_cases hbooks : dinfo.books cnt p = true
      . exact hasSpace_book hbooks (hkeeps.left hbooks) hext hspace
      . rw [book_of_not_books hbooks]
        exact hspace
    . cases rest with
      | nil =>
        by_cases hbooks : dinfo.books cnt p = true
        . exact (addPart_book hbooks (hkeeps.left hbooks) hext).trans hadd
        . rw [book_of_not_books hbooks]
          exact hadd
      | cons next rest =>
        have hbooks : ¬ dinfo.books cnt p = true := by
          intro hbooks
          exact absurd (hlast hbooks) (by simp)
        rw [book_of_not_books hbooks, DiskInfo.bookedFrom_cons]
        rw [List.head?_cons] at hadd ⊢
        have hlink := linkLen_book (hnext ▸ u32_lt _) hkeeps.right.left
        rw [hnext] at hlink ⊢
        exact (addPart_next hext hlink).trans hadd

theorem openExtended_parts {cnt : Nat} {c c1 : Cursor} (h : openExtended dinfo mem cnt c = some c1)
    : c1.parts = c.parts := by
  unfold openExtended at h
  split at h
  . split at h
    . simp only [Option.some.injEq] at h
      rw [← h]
      rfl
    . contradiction
  . simp only [Option.some.injEq] at h
    rw [h]

theorem loop_ok_parts {cnt : Nat} {ps : List PartInfo} {c c' : Cursor} (hc : Between dinfo cnt c)
    (h : loop dinfo (fun _ => true) cnt c ps = .ok c')
    : c'.parts.map PartInfo.unplaced = c.parts.map PartInfo.unplaced
        ++ (dinfo.bookedFrom cnt c.curLba ps).map PartInfo.unplaced := by
  induction ps generalizing cnt c with
  | nil =>
    unfold loop at h
    simp only [Except.ok.injEq] at h
    rw [h]
    exact (List.append_nil _).symm
  | cons p rest ih =>
    rw [loop_cons_ok] at h
    obtain ⟨c1, c2, hopen, _, hadd, hrest⟩ := h
    obtain ⟨hcur, hext, _⟩ := openExtended_spec hc hopen
    obtain ⟨hnext, hext2, hparts, _⟩ := addPart_place hext (hcur ▸ hc.lba_lt) hadd
    rw [ih (between_succ hext hnext hext2) hrest, hparts, openExtended_parts hopen, hnext, hcur]
    rw [DiskInfo.bookedFrom_cons, List.map_append, List.append_assoc]
    rfl

theorem loop_error_parts {cnt : Nat} {ps : List PartInfo} {c c' : Cursor} (hc : Between dinfo cnt c)
    (h : loop dinfo (fun _ => true) cnt c ps = .error c')
    : ∃ qs, c'.parts = c.parts ++ qs
        ∧ qs.map PartInfo.unplaced = (ps.take qs.length).map PartInfo.unplaced := by
  induction ps generalizing cnt c with
  | nil =>
    unfold loop at h
    contradiction
  | cons p rest ih =>
    unfold loop at h
    split at h
    . simp only [Except.error.injEq] at h
      exact ⟨[], by rw [h, List.append_nil], rfl⟩
    . next c1 hopen =>
      obtain ⟨hcur, hext, _⟩ := openExtended_spec hc hopen
      have hparts1 := openExtended_parts hopen
      split at h
      . split at h
        . simp only [Except.error.injEq] at h
          exact ⟨[], by rw [← h, List.append_nil, hparts1], rfl⟩
        . next c2 hadd =>
          obtain ⟨hnext, hext2, hparts, hlast⟩ := addPart_place hext (hcur ▸ hc.lba_lt) hadd
          obtain ⟨qs, hqs, htake⟩ := ih (between_succ hext hnext hext2) h
          -- A partition that fills the disk is the last one, and the loop does not fail behind it.
          have hbooks : ¬ dinfo.books cnt p = true := by
            intro hbooks
            have hnone := hlast hbooks
            rw [List.head?_eq_none_iff] at hnone
            rw [hnone] at h
            contradiction
          refine ⟨dinfo.place cnt c1.curLba p :: qs, ?_, ?_⟩
          . rw [hqs, hparts, hparts1, List.append_assoc]
            rfl
          . rw [List.length_cons, List.take_succ_cons, List.map_cons, List.map_cons, htake]
            unfold DiskInfo.place
            rw [book_of_not_books hbooks]
            rfl
      . simp only [Except.error.injEq] at h
        exact ⟨[], by rw [← h, List.append_nil, hparts1], rfl⟩

theorem cfgPentry_len {status status' type type' : UInt8} {start start' len len' : Nat}
    (h : cfgPentry status type start len = cfgPentry status' type' start' len')
    (hlen : len < 2 ^ 32) (hlen' : len' < 2 ^ 32) : len = len' := by
  have heq : UInt32.ofNat len = UInt32.ofNat len' := congrArg PcPartition.lenLba h
  rw [← UInt32.toNat_inj, UInt32.toNat_ofNat', UInt32.toNat_ofNat'] at heq
  rwa [Nat.mod_eq_of_lt hlen, Nat.mod_eq_of_lt hlen'] at heq

theorem logical_of_bytes {r s : PcBootRecord} (h : r.bytes = s.bytes) : r.logical = s.logical := by
  unfold PcBootRecord.bytes at h
  have hptable := List.append_cancel_left h
  have hlogical := (List.append_inj hptable (by simp)).left
  rw [← PcPartition.ofBytes_bytes r.logical, hlogical, PcPartition.ofBytes_bytes]

theorem lenLba_lt (cnt cur : Nat) (p : PartInfo) : dinfo.lenLba cnt cur p < 2 ^ 32 := by
  unfold DiskInfo.lenLba
  split
  . exact u32_lt _
  . split
    all_goals exact u32_lt _

theorem keepsRest_of_same {cnt : Nat} {p : PartInfo} {c c2 d d2 : Cursor}
    (hbooks : dinfo.books cnt p = true) (hext : c.extended = dinfo.logical cnt)
    (hext' : d.extended = dinfo.logical cnt) (hcur : d.curLba = c.curLba)
    (hadd : addPart dinfo (fun _ => true) cnt p none c = some c2)
    (hspace : hasSpace dinfo (dinfo.book cnt c.curLba p) d = true)
    (hadd' : addPart dinfo (fun _ => true) cnt (dinfo.book cnt c.curLba p) none d = some d2)
    (hsame : c2.wrList.head?.map WriteItem.patch = d2.wrList.head?.map WriteItem.patch)
    : dinfo.KeepsRest cnt c.curLba := by
  have ⟨hlogical, hfill⟩ := decide_eq_true_iff.mp hbooks
  rw [hlogical] at hext hext'
  by_cases hkb : dinfo.restKb cnt c.curLba = fillDisk
  . exact Or.inl hkb
  . right
    constructor
    . rw [addPart_logical _ _ hlogical hext, Option.ite_none_left_eq_some] at hadd
      rw [addPart_logical _ _ hlogical hext', Option.ite_none_left_eq_some] at hadd'
      simp only [Option.some.injEq] at hadd hadd'
      rw [← hadd.right, ← hadd'.right, hcur] at hsame
      simp only [List.head?_cons, Option.map_some, Option.some.injEq, WriteItem.patch,
        Patch.mk.injEq] at hsame
      have hentry := cfgPentry_len (logical_of_bytes hsame.right)
      have hlen : dinfo.lenLba cnt c.curLba p = dinfo.restLba cnt c.curLba := if_pos hfill
      have hlen' : dinfo.lenLba cnt c.curLba (dinfo.book cnt c.curLba p)
          = kbToLba (dinfo.restKb cnt c.curLba) dinfo.sectSize.toNat := by
        unfold DiskInfo.lenLba
        rw [book_lenKb hbooks, if_neg hkb, if_pos hlogical]
      rw [← hlen, ← hlen']
      exact (hentry (lenLba_lt _ _ _) (lenLba_lt _ _ _)).symm
    . unfold hasSpace at hspace
      rw [book_lenKb hbooks, if_pos hkb] at hspace
      split at hspace
      . contradiction
      . unfold Cursor.ext at hspace
        rw [hext', if_pos rfl, hcur] at hspace
        exact of_decide_eq_true hspace

theorem keepsLengths_of_same {cnt : Nat} {ps : List PartInfo} {c d c' d' : Cursor}
    (hc : Between dinfo cnt c) (hd : Between dinfo cnt d) (hcur : d.curLba = c.curLba)
    (h : loop dinfo (fun _ => true) cnt c ps = .ok c')
    (h' : loop dinfo (fun _ => true) cnt d (dinfo.bookedFrom cnt c.curLba ps) = .ok d')
    (hsame : c'.wrList.head?.map WriteItem.patch = d'.wrList.head?.map WriteItem.patch)
    : dinfo.KeepsLengths cnt c.curLba ps := by
  induction ps generalizing cnt c d with
  | nil => trivial
  | cons p rest ih =>
    rw [DiskInfo.bookedFrom_cons] at h'
    rw [loop_cons_ok] at h h'
    obtain ⟨c1, c2, hopen, _, hadd, hrest⟩ := h
    obtain ⟨d1, d2, hopen', hspace', hadd', hrest'⟩ := h'
    obtain ⟨hcur1, hext, _⟩ := openExtended_spec hc hopen
    obtain ⟨hcur1', hext', _⟩ := openExtended_spec hd hopen'
    obtain ⟨hnext, hext2, _, hlast⟩ := addPart_place hext (hcur1 ▸ hc.lba_lt) hadd
    obtain ⟨hnext', hext2', _, _⟩ := addPart_place hext' (hcur1' ▸ hd.lba_lt) hadd'
    by_cases hbooks : dinfo.books cnt p = true
    . have hnil := hlast hbooks
      rw [List.head?_eq_none_iff] at hnil
      rw [hnil] at hadd hadd' hrest hrest' ⊢
      unfold loop at hrest hrest'
      simp only [DiskInfo.bookedFrom, Except.ok.injEq] at hrest hrest'
      rw [← hrest, ← hrest'] at hsame
      refine ⟨fun _ => ?_, trivial⟩
      rw [← hcur1] at hadd' hspace' ⊢
      exact keepsRest_of_same hbooks hext hext' (by omega) hadd hspace' hadd' hsame
    . have hc2 := between_succ hext hnext hext2
      have hd2 := between_succ hext' hnext' hext2'
      rw [book_of_not_books hbooks] at hnext'
      refine ⟨fun h => absurd h hbooks, ?_⟩
      rw [hcur1] at hnext
      rw [hcur1', hcur, ← hnext] at hnext'
      rw [← hnext] at hrest' ⊢
      exact ih hc2 hd2 hnext' hrest hrest'

theorem keepsLengths_of_few {cnt cur : Nat} (ps : List PartInfo)
    (hfew : dinfo.partLst.length ≤ pcNumBootRecordParts) : dinfo.KeepsLengths cnt cur ps := by
  induction ps generalizing cnt cur with
  | nil => trivial
  | cons p rest ih =>
    refine ⟨?_, ih⟩
    intro hbooks
    have hlogical := (decide_eq_true_iff.mp hbooks).left
    unfold DiskInfo.logical at hlogical
    rw [decide_eq_true_iff] at hlogical
    omega

theorem bookedFrom_length (cnt cur : Nat) (ps : List PartInfo)
    : (dinfo.bookedFrom cnt cur ps).length = ps.length := by
  induction ps generalizing cnt cur with
  | nil => rfl
  | cons p rest ih => rw [DiskInfo.bookedFrom_cons, List.length_cons, List.length_cons, ih]

theorem blanks_partLst (lst : List PartInfo) (wrList : List WriteItem) (cnt more : Nat)
    : blanks { dinfo with partLst := lst } mem wrList cnt more = blanks dinfo mem wrList cnt more := by
  induction more generalizing wrList cnt with
  | zero => rfl
  | succ more ih =>
    unfold blanks
    simp only [ih]
    rfl

theorem blanks_some (wrList : List WriteItem) {cnt more : Nat} (hle : cnt + more ≤ pcNumBootRecordParts)
    : ∃ wrList', blanks dinfo (fun _ => true) wrList cnt more = some wrList' := by
  induction more generalizing wrList cnt with
  | zero => exact ⟨wrList, rfl⟩
  | succ more ih =>
    unfold blanks mkPriPentry
    rw [if_neg (by omega)]
    exact ih _ (by omega)

end configMbr

theorem configMbr_of_loop (dinfo : DiskInfo) {c : configMbr.Cursor}
    (h : configMbr.loop dinfo (fun _ => true) 0 ⟨dinfo.skipLba.toNat, 0, false, [], []⟩ dinfo.partLst
      = .ok c)
    : ∃ blanked, configMbr.blanks dinfo (fun _ => true) c.wrList dinfo.partLst.length
          (pcNumBootRecordParts - dinfo.partLst.length) = some blanked
        ∧ configMbr dinfo (fun _ => true)
            = (some (emptyItem :: blanked), { dinfo with partLst := c.parts }) := by
  have hblanks : ∃ blanked, configMbr.blanks dinfo (fun _ => true) c.wrList dinfo.partLst.length
      (pcNumBootRecordParts - dinfo.partLst.length) = some blanked := by
    by_cases hfew : dinfo.partLst.length ≤ pcNumBootRecordParts
    . exact configMbr.blanks_some _ (by omega)
    . rw [Nat.sub_eq_zero_of_le (by omega)]
      exact ⟨c.wrList, rfl⟩
  obtain ⟨blanked, hblanks⟩ := hblanks
  refine ⟨blanked, hblanks, ?_⟩
  unfold configMbr
  rw [h]
  dsimp only
  rw [hblanks]
  rfl

theorem between_start (dinfo : DiskInfo)
    : configMbr.Between dinfo 0 ⟨dinfo.skipLba.toNat, 0, false, [], []⟩ :=
  ⟨dinfo.skipLba.toNat_lt, rfl⟩

section SecondPass

variable {c : configMbr.Cursor} {lst : List PartInfo}
  (hlst : lst.map PartInfo.unplaced
    = (dinfo.bookedFrom 0 dinfo.skipLba.toNat dinfo.partLst).map PartInfo.unplaced)

include hlst

theorem length_of_booked : lst.length = dinfo.partLst.length := by
  have hlength := congrArg List.length hlst
  rwa [List.length_map, List.length_map, configMbr.bookedFrom_length] at hlength

theorem loop_second
    : configMbr.loop { dinfo with partLst := lst } mem 0 ⟨dinfo.skipLba.toNat, 0, false, [], []⟩ lst
        =
      configMbr.loop dinfo mem 0 ⟨dinfo.skipLba.toNat, 0, false, [], []⟩
        (dinfo.bookedFrom 0 dinfo.skipLba.toNat dinfo.partLst) := by
  rw [configMbr.loop_partLst _ _ (length_of_booked hlst)]
  exact configMbr.loop_congr _ hlst

theorem configMbr_second {wrList : List WriteItem} {dinfo' : DiskInfo}
    (hkeeps : dinfo.KeepsLengths 0 dinfo.skipLba.toNat dinfo.partLst)
    (h : configMbr dinfo (fun _ => true) = (some wrList, dinfo'))
    : configMbr { dinfo with partLst := lst } (fun _ => true) = (some wrList, dinfo') := by
  obtain ⟨c, blanked, hloop, hblanks, hwrList, hdinfo⟩ := configMbr_some h
  have hloop' := configMbr.loop_booked (between_start dinfo) hkeeps hloop
  rw [← loop_second hlst] at hloop'
  obtain ⟨blanked', hblanks', hconfig⟩ := configMbr_of_loop { dinfo with partLst := lst } hloop'
  dsimp only at hblanks'
  rw [length_of_booked hlst, configMbr.blanks_partLst, hblanks, Option.some.injEq] at hblanks'
  rw [hconfig, hwrList, hdinfo, hblanks']

theorem keepsLengths_of_configMbr {wrList wrList' : List WriteItem} {dinfo' dinfo'' : DiskInfo}
    (h : configMbr dinfo (fun _ => true) = (some wrList, dinfo'))
    (h' : configMbr { dinfo with partLst := lst } (fun _ => true) = (some wrList', dinfo''))
    (hsame : wrList'.map WriteItem.patch = wrList.map WriteItem.patch)
    : dinfo.KeepsLengths 0 dinfo.skipLba.toNat dinfo.partLst := by
  by_cases hfew : dinfo.partLst.length ≤ pcNumBootRecordParts
  . exact configMbr.keepsLengths_of_few dinfo.partLst hfew
  . obtain ⟨c, blanked, hloop, hblanks, hwrList, _⟩ := configMbr_some h
    obtain ⟨d, blanked', hloop', hblanks', hwrList', _⟩ := configMbr_some h'
    dsimp only at hloop' hblanks'
    rw [loop_second hlst] at hloop'
    rw [length_of_booked hlst, Nat.sub_eq_zero_of_le (by omega)] at hblanks'
    rw [Nat.sub_eq_zero_of_le (by omega)] at hblanks
    unfold configMbr.blanks at hblanks hblanks'
    rw [Option.some.injEq] at hblanks hblanks'
    rw [hwrList, hwrList', ← hblanks, ← hblanks', List.map_cons, List.map_cons, List.cons.injEq] at hsame
    apply configMbr.keepsLengths_of_same (between_start dinfo) (between_start dinfo) rfl hloop hloop'
    rw [← List.head?_map, ← List.head?_map, hsame.right]

end SecondPass

/-! ### Validation -/

theorem total_congr {acc : Nat} {ps qs : List PartInfo}
    (h : ps.map PartInfo.unplaced = qs.map PartInfo.unplaced)
    : validate.total acc ps = validate.total acc qs := by
  induction ps generalizing acc qs with
  | nil =>
    cases qs with
    | nil => rfl
    | cons q qs => contradiction
  | cons p ps ih =>
    cases qs with
    | nil => contradiction
    | cons q qs =>
      simp only [List.map_cons, List.cons.injEq] at h
      have hnil : ps = [] ↔ qs = [] := by
        rw [← List.map_eq_nil_iff (f := PartInfo.unplaced), h.right, List.map_eq_nil_iff]
      have htype : p.type = q.type := by
        have hhead := h.left
        unfold PartInfo.unplaced at hhead
        simp only [PartInfo.mk.injEq] at hhead
        exact hhead.right.right.left
      unfold validate.total
      simp only [configMbr.unplaced_lenKb h.left, htype, ih h.right, ne_eq, hnil]

theorem filled_le (bytes : UInt64) (sect : Nat)
    : u64 ((UInt32.ofNat (bytes.toNat / sect)).toNat * sect) ≤ bytes.toNat := by
  calc
    u64 ((UInt32.ofNat (bytes.toNat / sect)).toNat * sect)
      ≤ (UInt32.ofNat (bytes.toNat / sect)).toNat * sect := Nat.mod_le _ _
    _ ≤ bytes.toNat / sect * sect := by
        rw [UInt32.toNat_ofNat']
        exact Nat.mul_le_mul_right _ (Nat.mod_le _ _)
    _ ≤ bytes.toNat := Nat.div_mul_le_self _ _

theorem diskSize_blk_again {dinfo1 : DiskInfo} {sectSz : UInt32} {bytes : Option UInt64} {size : Nat}
    (h : validate.diskSize dinfo (.blk (some sectSz) bytes) = some (dinfo1, size))
    : ∃ size' ≤ size, validate.diskSize dinfo1 (.blk (some sectSz) bytes) = some (dinfo1, size') := by
  unfold validate.diskSize at h
  dsimp only at h
  split at h
  . contradiction
  . next hsect =>
    split at h
    . next hzero =>
      split at h
      . contradiction
      . next bytes =>
        simp only [Option.some.injEq, Prod.mk.injEq] at h
        rw [← h.left, ← h.right]
        unfold validate.diskSize
        dsimp only
        rw [if_neg hsect]
        split
        . exact ⟨bytes.toNat, Nat.le_refl _, rfl⟩
        . exact ⟨_, filled_le bytes _, rfl⟩
    . next hnonzero =>
      simp only [Option.some.injEq, Prod.mk.injEq] at h
      rw [← h.left, ← h.right]
      unfold validate.diskSize
      dsimp only
      rw [if_neg hsect, if_neg hnonzero]
      exact ⟨_, Nat.le_refl _, rfl⟩

theorem diskSize_reg_again {dinfo1 : DiskInfo} {bytes : Nat} {size : Nat}
    (h : validate.diskSize dinfo (.reg bytes) = some (dinfo1, size))
    : ∃ size', validate.diskSize dinfo1 (.reg bytes) = some (dinfo1, size') := by
  unfold validate.diskSize at h
  dsimp only at h
  split at h
  . contradiction
  . next hsect =>
    split at h
    . next hnonzero =>
      simp only [Option.some.injEq, Prod.mk.injEq] at h
      rw [← h.left]
      unfold validate.diskSize
      dsimp only
      rw [if_neg hsect, if_pos hnonzero]
      exact ⟨_, rfl⟩
    . simp only [Option.some.injEq, Prod.mk.injEq] at h
      rw [← h.left]
      unfold validate.diskSize
      dsimp only
      rw [if_neg hsect]
      split
      all_goals exact ⟨_, rfl⟩

theorem diskSize_again {dinfo1 : DiskInfo} {node : DeviceNode} {size : Nat}
    (h : validate.diskSize dinfo node = some (dinfo1, size))
    : ∃ size', validate.diskSize dinfo1 node = some (dinfo1, size')
        ∧ ((∃ sectSz bytes, node = .blk sectSz bytes) → size' ≤ size) := by
  cases node with
  | cannotOpen => contradiction
  | cannotStat => contradiction
  | other => contradiction
  | blk sectSz bytes =>
    cases sectSz with
    | none => contradiction
    | some sectSz =>
      rcases diskSize_blk_again h with ⟨size', hle, hsize'⟩
      exact ⟨size', hsize', fun _ => hle⟩
  | reg bytes =>
    rcases diskSize_reg_again h with ⟨size', hsize'⟩
    refine ⟨size', hsize', ?_⟩
    simp

theorem diskSize_partLst {dinfo1 : DiskInfo} {node : DeviceNode} {size : Nat} (lst : List PartInfo)
    (h : validate.diskSize dinfo node = some (dinfo1, size))
    : validate.diskSize { dinfo with partLst := lst } node = some ({ dinfo1 with partLst := lst }, size) := by
  have hmap : validate.diskSize { dinfo with partLst := lst } node
      = (validate.diskSize dinfo node).map fun r => ({ r.1 with partLst := lst }, r.2) := by
    unfold validate.diskSize
    split
    all_goals dsimp only [Option.map_none]
    . split
      . rfl
      . split
        . split
          all_goals rfl
        . rfl
    . split
      . rfl
      . split
        all_goals rfl
  rw [hmap, h]
  rfl

def validSize (dinfo : DiskInfo) (node : DeviceNode) (size : Nat) : Bool :=
  match validate.total (u32 (dinfo.skipLba.toNat * dinfo.sectSize.toNat)) dinfo.partLst with
  | none => false
  | some totalSize =>
    match node with
    | .blk _ _ => totalSize ≤ size
    | _ => true

theorem validate_eq {dinfo1 : DiskInfo} {node : DeviceNode} {size : Nat}
    (h : validate.diskSize dinfo node = some (dinfo1, size))
    : validate dinfo node = (validSize dinfo1 node size, dinfo1) := by
  unfold validate validSize
  rw [h]
  dsimp only
  cases validate.total (u32 (dinfo1.skipLba.toNat * dinfo1.sectSize.toNat)) dinfo1.partLst with
  | none => rfl
  | some total =>
    cases node
    all_goals rfl

theorem validSize_congr {node : DeviceNode} {size : Nat} {lst lst' : List PartInfo}
    (hlst : lst.map PartInfo.unplaced = lst'.map PartInfo.unplaced)
    : validSize { dinfo with partLst := lst } node size
        =
      validSize { dinfo with partLst := lst' } node size := by
  unfold validSize
  dsimp only
  rw [total_congr hlst]

theorem validate_again {dinfo1 : DiskInfo} {node : DeviceNode} {size : Nat} {lst lst' : List PartInfo}
    (h : validate.diskSize dinfo node = some (dinfo1, size))
    (hlst : lst.map PartInfo.unplaced = lst'.map PartInfo.unplaced)
    : validate { dinfo1 with partLst := lst } node
        =
      ((validate { dinfo1 with partLst := lst' } node).1, { dinfo1 with partLst := lst }) := by
  obtain ⟨size', hsize, _⟩ := diskSize_again h
  rw [validate_eq (diskSize_partLst lst hsize), validate_eq (diskSize_partLst lst' hsize),
    validSize_congr hlst]

theorem validSize_mono {node : DeviceNode} {size size' : Nat}
    (hle : (∃ sectSz bytes, node = .blk sectSz bytes) → size' ≤ size)
    (h : validSize dinfo node size' = true) : validSize dinfo node size = true := by
  unfold validSize at *
  split at h
  . contradiction
  . cases node with
    | blk sectSz bytes =>
      exact decide_eq_true (Nat.le_trans (of_decide_eq_true h) (hle ⟨sectSz, bytes, rfl⟩))
    | _ => rfl

theorem validateAndConfig_eq {dinfo1 : DiskInfo} {node : DeviceNode} {valid : Bool}
    (h : validate dinfo node = (valid, dinfo1))
    : validateAndConfig dinfo node mem
        =
      if valid = true ∧ dinfo1.scheme = partSchemeMbr then configMbr dinfo1 mem else (none, dinfo1) := by
  unfold validateAndConfig
  rw [h]
  cases valid with
  | false => rfl
  | true =>
    dsimp only
    by_cases hscheme : dinfo1.scheme = partSchemeMbr
    . rw [if_pos hscheme, if_pos ⟨rfl, hscheme⟩]
    . rw [if_neg hscheme, if_neg fun hboth => hscheme hboth.right]

theorem configMbr_refused {dinfo' : DiskInfo} (h : configMbr dinfo (fun _ => true) = (none, dinfo'))
    : ∃ c lst, configMbr.loop dinfo (fun _ => true) 0 ⟨dinfo.skipLba.toNat, 0, false, [], []⟩
            dinfo.partLst = .error c
        ∧ dinfo' = { dinfo with partLst := lst }
        ∧ lst = c.parts ++ dinfo.partLst.drop c.parts.length
        ∧ lst.map PartInfo.unplaced = dinfo.partLst.map PartInfo.unplaced := by
  cases hloop : configMbr.loop dinfo (fun _ => true) 0 ⟨dinfo.skipLba.toNat, 0, false, [], []⟩
      dinfo.partLst with
  | ok c =>
    obtain ⟨blanked, _, hconfig⟩ := configMbr_of_loop dinfo hloop
    rw [hconfig] at h
    simp only [Prod.mk.injEq, reduceCtorEq, false_and] at h
  | error c =>
    obtain ⟨qs, hparts, htake⟩ := configMbr.loop_error_parts (between_start dinfo) hloop
    rw [List.nil_append] at hparts
    unfold configMbr at h
    rw [hloop] at h
    simp only [Prod.mk.injEq, true_and] at h
    refine ⟨c, _, rfl, h.symm, rfl, ?_⟩
    rw [hparts, List.map_append, htake, ← List.map_append, List.take_append_drop]

theorem refused_again {dinfo' : DiskInfo} {node : DeviceNode}
    (h : validateAndConfig dinfo node (fun _ => true) = (none, dinfo'))
    : ∃ dinfo'', validateAndConfig dinfo' node (fun _ => true) = (none, dinfo'')
        ∧ dinfo''.partLst = dinfo'.partLst := by
  cases hsize : validate.diskSize dinfo node with
  | none =>
    have hvalid : validate dinfo node = (false, dinfo) := by
      unfold validate
      rw [hsize]
    have hdinfo : dinfo' = dinfo := by
      rw [validateAndConfig_eq hvalid] at h
      exact (Prod.ext_iff.mp h).right.symm
    rw [hdinfo] at h ⊢
    exact ⟨dinfo, h, rfl⟩
  | some sized =>
    obtain ⟨dinfo1, size⟩ := sized
    obtain ⟨size', hsize', hle⟩ := diskSize_again hsize
    have hvalid := validate_eq hsize
    have hvalid' := validate_eq hsize'
    rw [validateAndConfig_eq hvalid] at h
    split at h
    . next hok =>
      obtain ⟨c, lst, hloop, hdinfo, hlst, hsame⟩ := configMbr_refused h
      have hagain := validate_again hsize hsame
      rw [hdinfo, validateAndConfig_eq hagain]
      split
      . have hlength : lst.length = dinfo1.partLst.length := by
          simpa using congrArg List.length hsame
        have hloop' : configMbr.loop { dinfo1 with partLst := lst } (fun _ => true) 0
            ⟨dinfo1.skipLba.toNat, 0, false, [], []⟩ lst = .error c := by
          rw [configMbr.loop_partLst _ _ hlength, configMbr.loop_congr _ hsame, hloop]
        unfold configMbr
        rw [hloop']
        refine ⟨_, rfl, ?_⟩
        dsimp only
        rw [hlst, List.drop_left]
      . exact ⟨_, rfl, rfl⟩
    . next hbad =>
      have hdinfo := (Prod.ext_iff.mp h).right
      dsimp only at hdinfo
      rw [← hdinfo, validateAndConfig_eq hvalid', if_neg]
      . exact ⟨dinfo1, rfl, rfl⟩
      . intro hok
        exact hbad ⟨validSize_mono hle hok.left, hok.right⟩

/-! ### Main result -/

theorem processDiskConfig_snd (dinfo : DiskInfo) (env : ConfigEnv)
    : (processDiskConfig dinfo env).2 = (validateAndConfig dinfo env.node env.mem).2 := by
  unfold processDiskConfig
  split
  all_goals next heq => rw [heq]

theorem applyDiskConfig_written (dinfo : DiskInfo) (env : ConfigEnv) (write : Nat → Bool) (sync : Bool)
    : (applyDiskConfig dinfo env write sync).2.1
        = (wlistCommit write 0 ((validateAndConfig dinfo env.node env.mem).1.getD [])).2
      ∧ (applyDiskConfig dinfo env write sync).2.2 = (validateAndConfig dinfo env.node env.mem).2 := by
  unfold applyDiskConfig
  split
  . next heq =>
    rw [heq]
    exact ⟨rfl, rfl⟩
  . next heq =>
    rw [heq]
    exact ⟨rfl, rfl⟩

theorem wlistCommit_all (n : Nat) (lst : List WriteItem) : (wlistCommit (fun _ => true) n lst).2 = lst := by
  induction lst generalizing n with
  | nil => rfl
  | cons item lst ih =>
    unfold wlistCommit
    rw [if_pos rfl]
    dsimp only
    rw [ih]

/--
The partition table as written, and the starts and lengths in the layout, are the same with and without
a `process_disk_config` before the `apply_disk_config`, on one device and with memory for both.
-/
def ProcessIsDryRun (dinfo : DiskInfo) (node : DeviceNode) : Prop :=
  let env : ConfigEnv := ⟨node, fun _ => true⟩
  ∀ write sync,
    let alone := (applyDiskConfig dinfo env write sync).2
    let after := (applyDiskConfig (processDiskConfig dinfo env).2 env write sync).2
    after.1.map WriteItem.patch = alone.1.map WriteItem.patch ∧ after.2.partLst = alone.2.partLst

/--
The layout with the length of a logical partition that fills the disk put in is still valid on the
device counted in whole sectors, and the length put in is the length it had.
-/
def Repeatable (dinfo : DiskInfo) (node : DeviceNode) : Prop :=
  ∀ dinfo1 size, validate.diskSize dinfo node = some (dinfo1, size) →
    (validate dinfo1.booked node).1 = true
      ∧ dinfo1.KeepsLengths 0 dinfo1.skipLba.toNat dinfo1.partLst

theorem accepted_inv {dinfo' : DiskInfo} {node : DeviceNode} {wrList : List WriteItem}
    (h : validateAndConfig dinfo node (fun _ => true) = (some wrList, dinfo'))
    : ∃ dinfo1 size lst, validate.diskSize dinfo node = some (dinfo1, size)
        ∧ dinfo1.scheme = partSchemeMbr
        ∧ configMbr dinfo1 (fun _ => true) = (some wrList, dinfo')
        ∧ dinfo' = { dinfo1 with partLst := lst }
        ∧ lst.map PartInfo.unplaced = dinfo1.booked.partLst.map PartInfo.unplaced := by
  cases hsize : validate.diskSize dinfo node with
  | none =>
    have hvalid : validate dinfo node = (false, dinfo) := by
      unfold validate
      rw [hsize]
    rw [validateAndConfig_eq hvalid, if_neg (by simp)] at h
    simp only [Prod.mk.injEq, reduceCtorEq, false_and] at h
  | some sized =>
    obtain ⟨dinfo1, size⟩ := sized
    rw [validateAndConfig_eq (validate_eq hsize)] at h
    split at h
    . next hok =>
      obtain ⟨c, _, hloop, _, _, hdinfo⟩ := configMbr_some h
      exact ⟨dinfo1, size, c.parts, rfl, hok.right, h, hdinfo,
        configMbr.loop_ok_parts (between_start dinfo1) hloop⟩
    . simp only [Prod.mk.injEq, reduceCtorEq, false_and] at h

theorem same_of_repeatable {dinfo' : DiskInfo} {node : DeviceNode} {wrList : List WriteItem}
    (h : validateAndConfig dinfo node (fun _ => true) = (some wrList, dinfo'))
    (hrep : Repeatable dinfo node)
    : validateAndConfig dinfo' node (fun _ => true) = (some wrList, dinfo') := by
  obtain ⟨dinfo1, size, lst, hsize, hscheme, hconfig, hdinfo, hlst⟩ := accepted_inv h
  obtain ⟨hvalid, hkeeps⟩ := hrep dinfo1 size hsize
  have hagain := validate_again hsize hlst
  rw [show (validate { dinfo1 with partLst := dinfo1.booked.partLst } node).1 = true from hvalid] at hagain
  have hsecond := configMbr_second hlst hkeeps hconfig
  rw [← hdinfo] at hagain hsecond
  rw [validateAndConfig_eq hagain, if_pos ⟨rfl, by rw [hdinfo]; exact hscheme⟩]
  exact hsecond

theorem repeatable_of_same {dinfo' dinfo'' : DiskInfo} {node : DeviceNode}
    {wrList wrList' : List WriteItem}
    (h : validateAndConfig dinfo node (fun _ => true) = (some wrList, dinfo'))
    (h' : validateAndConfig dinfo' node (fun _ => true) = (some wrList', dinfo''))
    (hsame : wrList'.map WriteItem.patch = wrList.map WriteItem.patch)
    : Repeatable dinfo node := by
  obtain ⟨dinfo1, size, lst, hsize, hscheme, hconfig, hdinfo, hlst⟩ := accepted_inv h
  have hagain := validate_again hsize hlst
  rw [hdinfo, validateAndConfig_eq hagain] at h'
  split at h'
  . next hok =>
    intro dinfo2 size2 hsize2
    rw [hsize] at hsize2
    simp only [Option.some.injEq, Prod.mk.injEq] at hsize2
    rw [← hsize2.left]
    exact ⟨hok.left, keepsLengths_of_configMbr hlst hconfig h' hsame⟩
  . simp only [Prod.mk.injEq, reduceCtorEq, false_and] at h'

theorem process_isDryRun_iff (dinfo : DiskInfo) (node : DeviceNode)
    : ProcessIsDryRun dinfo node
        ↔ ((validateAndConfig dinfo node fun _ => true).1.isSome = true → Repeatable dinfo node) := by
  unfold ProcessIsDryRun
  simp only [applyDiskConfig_written, processDiskConfig_snd]
  generalize hfirst : validateAndConfig dinfo node (fun _ => true) = first
  obtain ⟨wrList, dinfo'⟩ := first
  dsimp only
  cases wrList with
  | none =>
    obtain ⟨dinfo'', hsecond, hparts⟩ := refused_again hfirst
    rw [hsecond]
    refine ⟨fun _ h => absurd h (by decide), fun _ _ _ => ⟨rfl, hparts⟩⟩
  | some wrList =>
    constructor
    . intro hdry _
      have hwritten := (hdry (fun _ => true) true).left
      rw [wlistCommit_all, wlistCommit_all] at hwritten
      generalize hsecond : validateAndConfig dinfo' node (fun _ => true) = second at hwritten
      obtain ⟨wrList', dinfo''⟩ := second
      cases wrList' with
      | none =>
        obtain ⟨_, _, _, _, _, hconfig, _⟩ := accepted_inv hfirst
        obtain ⟨_, _, _, _, hwrList, _⟩ := configMbr_some hconfig
        rw [hwrList] at hwritten
        contradiction
      | some wrList' => exact repeatable_of_same hfirst hsecond hwritten
    . intro hrep write sync
      rw [same_of_repeatable hfirst (hrep rfl)]
      exact ⟨rfl, rfl⟩

/--
Six partitions on eight megabytes: the boot records of the three logical partitions leave an odd number
of sectors for the last one, of which the second pass keeps all but one.
-/
def oddRest : DiskInfo :=
  let part (name : String) (lenKb : UInt32) : PartInfo := ⟨str name, 0, pcPartTypeLinux, lenKb, 0⟩
  ⟨str "/dev/mmcblk0", partSchemeMbr, 512, 2048, 0,
    [part "boot" 1024, part "recovery" 1024, part "misc" 1024, part "cache" 1024, part "system" 1024,
      part "data" fillDisk]⟩

theorem process_not_dryRun : ¬ ProcessIsDryRun oddRest (.blk (some 512) (some 8388608)) := by
  intro h
  have hwritten := (h (fun _ => true) true).left
  revert hwritten
  decide +kernel

end Disk
