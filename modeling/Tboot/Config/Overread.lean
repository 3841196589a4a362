import Tboot.Config.Exact

/-!
This module contains which config files are parsed without a look at the memory behind them. The string
functions of `config_parser.c` go on until there is a zero, so that nothing but a zero in the file stops
them.
-/

namespace Config

theorem valueIn_append {lines lines' : List Bytes} {key : Bytes}
    (h : ∀ line ∈ lines, (tokens delim line).head? ≠ some key) : valueIn (lines ++ lines') key = valueIn lines' key := by
  induction lines with
  | nil => rfl
  | cons line lines ih =>
    rw [List.cons_append, valueIn_cons, if_neg (h line List.mem_cons_self)]
    exact ih (fun line hline => h line (List.mem_cons_of_mem _ hline))

theorem not_key_of_length {lines : List Bytes} {key : Bytes} (h : ∀ line ∈ lines, line.length < key.length)
    : ∀ line ∈ lines, (tokens delim line).head? ≠ some key := by
  intro line hline hhead
  have hle := length_le_of_mem_tokens (List.mem_of_mem_head? hhead)
  have hlt := h line hline
  omega

theorem getElem?_comment (before text : Bytes) (i : Nat)
    : (before ++ 35 :: text)[before.length + 1 + i]? = text[i]? := by
  rw [List.getElem?_append_right (by omega)]
  have hindex : before.length + 1 + i - before.length = i + 1 := by omega
  rw [hindex, List.getElem?_cons_succ]

theorem getElem?_behind (before text rest : Bytes) (i : Nat)
    : (before ++ 35 :: (text ++ 10 :: rest))[before.length + 1 + (text.length + 1 + i)]? = rest[i]? := by
  rw [getElem?_comment, List.getElem?_append_right (by omega)]
  have hindex : text.length + 1 + i - text.length = i + 1 := by omega
  rw [hindex, List.getElem?_cons_succ]

section Behind

variable {len : Nat} (hlen : 0 < len) {a b : Bytes} (hb : len ≤ b.length)
  (hhash : ∀ i, (a ++ 10 :: b)[i]? = some 35 → i + len ≤ a.length)

include hlen hhash

theorem newline_mem {before text : Bytes} (heq : a ++ 10 :: b = before ++ 35 :: text)
    : before.length + len ≤ a.length ∧ text[a.length - before.length - 1]? = some 10 := by
  have hclose := hhash before.length (by rw [heq]; simp)
  refine ⟨hclose, ?_⟩
  have hend : (a ++ 10 :: b)[a.length]? = some 10 := by simp
  have hindex : a.length = before.length + 1 + (a.length - before.length - 1) := by omega
  rw [heq, hindex, getElem?_comment] at hend
  exact hend

include hb

theorem moved_behind {before text rest : Bytes} (heq : a ++ 10 :: b = before ++ 35 :: (text ++ 10 :: rest))
    (htext : 10 ∉ text)
    : ∃ a', moved len text rest = a' ++ 10 :: b ∧ before.length + 1 + a'.length = a.length
      ∧ ∀ i, (a' ++ 10 :: b)[i]? = some 35 → i + len ≤ a'.length := by
  obtain ⟨hclose, hnewline⟩ := newline_mem hlen hhash heq
  have hlength := congrArg List.length heq
  simp only [List.length_append, List.length_cons] at hlength
  have hfirst : before.length + 1 + text.length ≤ a.length := by
    apply Nat.le_of_not_lt
    intro hlt
    rw [List.getElem?_append_left (by omega)] at hnewline
    exact htext (List.mem_of_getElem? hnewline)
  have hcomment : text ++ 10 :: rest = a.drop (before.length + 1) ++ 10 :: b := by
    have hdrop := congrArg (List.drop (before.length + 1)) heq
    rw [List.drop_append_of_le_length (by omega), List.append_cons before, List.drop_left' (by simp)] at hdrop
    exact hdrop.symm
  have hdrop : (text ++ 10 :: rest).drop (len - 1) = a.drop (before.length + len) ++ 10 :: b := by
    have hle : len - 1 ≤ (a.drop (before.length + 1)).length := by
      rw [List.length_drop]
      omega
    have hindex : before.length + 1 + (len - 1) = before.length + len := by omega
    rw [hcomment, List.drop_append_of_le_length hle, List.drop_drop, hindex]
  have hmoved : moved len text rest = (rest.take (len - 1) ++ a.drop (before.length + len)) ++ 10 :: b := by
    unfold moved
    rw [if_neg (by omega), hdrop, List.append_assoc]
  refine ⟨_, hmoved, ?_, ?_⟩
  . simp only [List.length_append, List.length_take, List.length_drop]
    omega
  . intro i hi
    rw [List.append_assoc, ← hdrop] at hi
    simp only [List.length_append, List.length_take, List.length_drop]
    by_cases hsmall : i < len - 1
    . rw [List.getElem?_append_left (by rw [List.length_take]; omega), List.getElem?_take_of_lt hsmall] at hi
      rw [← getElem?_behind before text rest i, ← heq] at hi
      have hle := hhash _ hi
      omega
    . rw [List.getElem?_append_right (by rw [List.length_take]; omega), List.getElem?_drop, List.length_take] at hi
      have hindex : len - 1 + (i - min (len - 1) rest.length) = i := by omega
      rw [hindex, ← getElem?_comment before, ← heq] at hi
      have hle := hhash _ hi
      omega

end Behind

theorem removeComments_behind {len : Nat} (hlen : 0 < len) {a b : Bytes} (hb : len ≤ b.length)
    (hhash : ∀ i, (a ++ 10 :: b)[i]? = some 35 → i + len ≤ a.length)
    : ∃ a', removeComments len (a ++ 10 :: b) = a' ++ 10 :: b ∧ a'.length ≤ a.length := by
  induction hn : a.length using Nat.strongRecOn generalizing a with
  | ind n ih =>
    subst hn
    obtain hnot | ⟨before, text, heq, hbefore, htext⟩ | ⟨before, text, rest, heq, hbefore, htext⟩
      := comments_cases (a ++ 10 :: b)
    . exact ⟨a, removeComments_of_not_mem hnot, Nat.le_refl _⟩
    . exact absurd (List.mem_of_getElem? (newline_mem hlen hhash heq).2) htext
    . obtain ⟨a1, hmoved, hlength, hhash1⟩ := moved_behind hlen hb hhash heq htext
      obtain ⟨a2, hremoved, hle⟩ := ih a1.length (by omega) hhash1 rfl
      refine ⟨before ++ 10 :: a2, ?_, ?_⟩
      . rw [heq, removeComments_next hbefore htext, hmoved, hremoved]
        simp
      . rw [List.length_append, List.length_cons]
        omega

/-! ### A key behind the file -/

def longKey (n : Nat) : Bytes :=
  List.replicate (n + 1) 107

theorem longKey_length (n : Nat) : (longKey n).length = n + 1 :=
  List.length_replicate

theorem mem_longKey {n : Nat} {c : UInt8} (h : c ∈ longKey n) : c = 107 :=
  List.eq_of_mem_replicate h

def keyBehind (len n : Nat) : Bytes :=
  List.replicate len 10 ++ 10 :: (longKey n ++ str "=V")

theorem line_not_mem {n : Nat} {c : UInt8} (hkey : c ≠ 107) (hvalue : c ∉ str "=V") : c ∉ longKey n ++ str "=V" := by
  intro hc
  cases List.mem_append.mp hc with
  | inl hc => exact hkey (mem_longKey hc)
  | inr hc => exact hvalue hc

theorem keyBehind_not_mem {len n : Nat} {c : UInt8} (hnewline : c ≠ 10) (hkey : c ≠ 107) (hvalue : c ∉ str "=V")
    : c ∉ keyBehind len n := by
  intro hc
  cases List.mem_append.mp hc with
  | inl hc => exact hnewline (List.eq_of_mem_replicate hc)
  | inr hc =>
    cases List.mem_cons.mp hc with
    | inl hc => exact hnewline hc
    | inr hc => exact line_not_mem hkey hvalue hc

theorem tokens_line (n : Nat) : tokens delim (longKey n ++ str "=V") = [longKey n, str "V"] := by
  have hword : ∀ c ∈ longKey n, delim.contains c = false := by
    intro c hc
    rw [mem_longKey hc]
    decide
  have hne : longKey n ≠ [] := by simp [longKey]
  have hsplit : longKey n ++ str "=V" = longKey n ++ 61 :: str "V" := rfl
  rw [tokens_of_not_mem delim (line_not_mem (by decide) (by decide)), hsplit, pieces_append hne hword (by decide)]
  rfl

theorem value_without {len n : Nat} {text : Bytes} (hlen : text.length ≤ len) (hn : text.length ≤ n)
    : valueIn ((removeComments len text).splitOn 10) (longKey n) = none := by
  have hshort : ∀ line ∈ configLines text, line.length < (longKey n).length := by
    intro line hline
    obtain ⟨whole, hwhole, rfl⟩ := List.mem_map.mp hline
    have hle : (uncomment whole).length ≤ whole.length := (List.takeWhile_prefix _).length_le
    have hle' := length_le_of_mem_splitOnP hwhole
    rw [longKey_length]
    omega
  have hvalue := @valueIn_append (configLines text) [] (longKey n) (not_key_of_length hshort)
  rw [List.append_nil] at hvalue
  rw [splitOn_removeComments hlen, hvalue]
  rfl

theorem value_behind {len n : Nat} {text : Bytes} (hlen : 0 < len) (hn : text.length + len ≤ n)
    : valueIn ((removeComments len (text ++ keyBehind len n)).splitOn 10) (longKey n) = some (str "V") := by
  have hb : len ≤ (longKey n ++ str "=V").length := by
    rw [List.length_append, longKey_length]
    omega
  have hassoc : text ++ keyBehind len n = text ++ List.replicate len 10 ++ 10 :: (longKey n ++ str "=V") := by
    unfold keyBehind
    rw [List.append_assoc]
  have hhash : ∀ i, (text ++ List.replicate len 10 ++ 10 :: (longKey n ++ str "=V"))[i]? = some 35
      → i + len ≤ (text ++ List.replicate len 10).length := by
    intro i hi
    rw [List.length_append, List.length_replicate]
    apply Nat.add_le_add_right
    apply Nat.le_of_not_lt
    intro hlt
    rw [← hassoc, List.getElem?_append_right (Nat.le_of_lt hlt)] at hi
    exact keyBehind_not_mem (by decide) (by decide) (by decide) (List.mem_of_getElem? hi)
  obtain ⟨a, hremoved, hle⟩ := removeComments_behind hlen hb hhash
  have hshort : ∀ line ∈ a.splitOn 10, line.length < (longKey n).length := by
    intro line hline
    have hle' := length_le_of_mem_splitOnP hline
    rw [List.length_append, List.length_replicate] at hle
    rw [longKey_length]
    omega
  have hlines : (a ++ 10 :: (longKey n ++ str "=V")).splitOn 10 = a.splitOn 10 ++ [longKey n ++ str "=V"] := by
    rw [List.splitOn_append_cons_self, List.splitOn_eq_singleton (line_not_mem (by decide) (by decide))]
  rw [hassoc, hremoved, hlines, valueIn_append (not_key_of_length hshort), valueIn_cons, tokens_line]
  exact if_pos rfl

/-! ### A zero in the file -/

namespace InPlace

open Heap

theorem loop_append {len fuel : Nat} (hlen : 0 < len) {mem : Bytes} {dst : Nat} (hzero : 0 ∈ mem.drop dst) (tail : Bytes)
    : removeComments.loop len fuel (mem ++ tail) dst = (removeComments.loop len fuel mem dst).map (· ++ tail)
      ∧ ∀ mem', removeComments.loop len fuel mem dst = some mem' → mem'.length = mem.length := by
  induction fuel generalizing mem dst with
  | zero => exact ⟨rfl, fun _ h => nomatch h⟩
  | succ fuel ih =>
    unfold removeComments.loop
    rw [strchr_append hzero]
    cases hhash : strchr mem dst 35 with
    | none => exact ⟨rfl, fun mem' h => congrArg List.length (Option.some.inj h).symm⟩
    | some p =>
      obtain ⟨before, after, hfound⟩ := strchr_eq_some hhash
      have hzero' : 0 ∈ mem.drop p := by
        rw [hfound.drop_pos]
        exact List.mem_cons_of_mem _ (hfound.zero_mem hzero)
      dsimp only
      rw [strchr_append hzero']
      cases hnewline : strchr mem p 10 with
      | none =>
        dsimp only
        rw [List.set_append_left _ _ hfound.lt_length]
        refine ⟨rfl, ?_⟩
        intro mem' hmem'
        rw [← Option.some.inj hmem', List.length_set]
      | some q =>
        obtain ⟨text, rest, more, hcomment⟩ := exists_comment hfound hnewline hzero
        have hzero'' : 0 ∈ mem.drop q := by
          rw [hcomment.drop_src]
          simp
        have hpos := hcomment.pos
        have hfits := hcomment.fits len
        have hlength := memmove_length (show p ≤ q by omega) hfits
        have happend := memmove_append (show p ≤ q by omega) hfits tail
        dsimp only
        rw [string_append hzero'', hcomment.count, happend, ← hlength]
        exact ih (hcomment.zero_memmove hlen)

theorem removeComments_append {len : Nat} (hlen : 0 < len) {mem : Bytes} (hzero : 0 ∈ mem)
    : ∃ mem', mem'.length = mem.length ∧ ∀ tail, removeComments len (mem ++ tail) = some (mem' ++ tail)
        ∧ string (mem' ++ tail) 0 = Config.removeComments len (cstr mem) := by
  obtain ⟨mem', hmem', _⟩ := removeComments_spec hlen hzero
  have hzero' : 0 ∈ mem.drop 0 := hzero
  refine ⟨mem', (loop_append hlen hzero' []).2 mem' hmem', ?_⟩
  intro tail
  have happend : removeComments len (mem ++ tail) = some (mem' ++ tail) := by
    unfold removeComments at hmem' ⊢
    rw [string_append hzero', (loop_append hlen hzero' tail).1, hmem', Option.map_some]
  obtain ⟨mem'', hmem'', hstring⟩ := removeComments_spec hlen (List.mem_append_left tail hzero)
  obtain rfl : mem' ++ tail = mem'' := Option.some.inj (happend.symm.trans hmem'')
  have hcstr : cstr (mem ++ tail) = cstr mem := string_append hzero' tail
  rw [hcstr] at hstring
  exact ⟨happend, hstring⟩

/-! ### The memory behind the file -/

def values (file : File) (mem : Memory) (keys : List (Option Bytes)) (save : Bytes) : List (Option Bytes) :=
  (lookups (configParserInit file mem) keys save).1.map Prod.fst

def parsers (file : File) (mem : Memory) (keys : List (Option Bytes)) (save : Bytes) : List Parser :=
  configParserInit file mem :: (lookups (configParserInit file mem) keys save).1.map Prod.snd

/-- Whatever memory holds behind the file, the lookups give the same, and leave it as it is. -/
structure FileOnly (file : File) (mem : Memory) : Prop where
  defined : ∀ heap, configParserInit file { mem with heap := heap } ≠ .undefined
  same : ∀ heap heap' keys save,
    values file { mem with heap := heap } keys save = values file { mem with heap := heap' } keys save
  untouched : ∀ heap keys save, ∀ cp ∈ parsers file { mem with heap := heap } keys save, ∀ len data,
    cp = .ready len data → data.drop len = heap.drop len

/-- Nothing of the file comes into memory, or a zero does. -/
def Stops (file : File) (mem : Memory) : Prop :=
  match file with
  | .cannotOpen => True
  | .cannotStat => mem.cpNull = true
  | .opened size read =>
    if size = 0 then mem.cpNull = true
    else mem.mallocCp = false ∨ mem.mallocData = false ∨ read = some [] ∨ 0 ∈ file.text

theorem lookups_null (keys : List (Option Bytes)) (save : Bytes)
    : (lookups .null keys save).1 = keys.map fun _ => (none, .null) := by
  induction keys generalizing save with
  | nil => rfl
  | cons key keys ih =>
    have hget : configParserGet .null key save = ((none, .null), save) := by
      cases key with
      | none => rfl
      | some key =>
        unfold configParserGet
        dsimp only
        split
        all_goals rfl
    rw [lookups_cons, hget, ih, List.map_cons]

theorem fileOnly_of_null {file : File} {mem : Memory}
    (h : ∀ heap, configParserInit file { mem with heap := heap } = .null) : FileOnly file mem := by
  refine ⟨?_, ?_, ?_⟩
  . intro heap
    rw [h heap]
    exact Parser.noConfusion
  . intro heap heap' keys save
    unfold values
    rw [h heap, h heap']
  . intro heap keys save cp hcp len data hready
    unfold parsers at hcp
    rw [h heap, lookups_null, hready] at hcp
    simp at hcp

section Opened

variable {size : Nat} {mem : Memory} (hsize : size ≠ 0) (hcp : mem.mallocCp = true) (hdata : mem.mallocData = true)

include hsize hcp hdata

theorem fileOnly_of_zero {text : Bytes} (hzero : 0 ∈ text) : FileOnly (.opened size (some text)) mem := by
  have hread : readLen (some text) ≠ 0 := by
    have hpos := List.length_pos_of_mem hzero
    exact Nat.ne_of_gt hpos
  obtain ⟨text', hlength, happend⟩ := removeComments_append (Nat.pos_of_ne_zero hread) hzero
  have hinit (heap : Bytes) : configParserInit (.opened size (some text)) { mem with heap := heap }
      = .ready text.length (text' ++ heap.drop text.length) :=
    @configParserInit_ready size (some text) { mem with heap := heap } _ hsize hcp hdata hread
      (List.mem_append_left _ hzero) (happend _).1
  have hstring (heap : Bytes) := (happend (heap.drop text.length)).2
  refine ⟨?_, ?_, ?_⟩
  . intro heap
    rw [hinit heap]
    exact Parser.noConfusion
  . intro heap heap' keys save
    unfold values
    rw [hinit heap, hinit heap', lookups_ready, lookups_ready, hstring heap, hstring heap']
    simp
  . intro heap keys save cp hcp len data hready
    have heq : cp = .ready text.length (text' ++ heap.drop text.length) := by
      unfold parsers at hcp
      rw [hinit heap, lookups_ready] at hcp
      simp only [List.mem_cons, List.map_map, List.mem_map, Function.comp_apply] at hcp
      obtain heq | ⟨_, _, heq⟩ := hcp
      . exact heq
      . exact heq.symm
    obtain ⟨rfl, rfl⟩ := Parser.ready.inj (hready.symm.trans heq)
    exact List.drop_left' hlength

theorem values_overread {read : Option Bytes} (hread : readLen read ≠ 0) (key : Bytes) {heap s : Bytes}
    (htext : 0 ∉ File.text (.opened size read)) (hs : 0 ∉ s)
    (hheap : heap.drop (File.text (.opened size read)).length = s ++ [0])
    : values (.opened size read) { mem with heap := heap } [some key] []
        = [valueIn ((Config.removeComments (readLen read) (File.text (.opened size read) ++ s)).splitOn 10) (cstr key)] := by
  have hmem : dataAfterRead { mem with heap := heap } read = File.text (.opened size read) ++ s ++ 0 :: [] := by
    rw [List.append_assoc, ← hheap]
    cases read with
    | none => rfl
    | some text => rfl
  generalize File.text (.opened size read) = text at *
  have hnot : 0 ∉ text ++ s := by simp [htext, hs]
  have hzero : 0 ∈ text ++ s ++ 0 :: [] := by simp
  obtain ⟨data, hremoved, hstring⟩ := removeComments_spec (Nat.pos_of_ne_zero hread) hzero
  rw [cstr_append_zero hnot] at hstring
  rw [← hmem] at hzero hremoved
  have hinit := @configParserInit_ready size read { mem with heap := heap } data hsize hcp hdata hread hzero hremoved
  unfold values
  rw [hinit, lookups_ready, hstring]
  rfl

theorem not_fileOnly {read : Option Bytes} (hread : readLen read ≠ 0) (htext : 0 ∉ File.text (.opened size read))
    : ¬ FileOnly (.opened size read) mem := by
  intro h
  have hlen := @text_length_le size read
  generalize hn : (File.text (.opened size read)).length + readLen read = n
  have hkey : cstr (longKey n) = longKey n := by
    apply cstr_of_not_mem
    intro hzero
    exact absurd (mem_longKey hzero) (by decide)
  have hbehind : 0 ∉ keyBehind (readLen read) n := keyBehind_not_mem (by decide) (by decide) (by decide)
  have hwithout := values_overread hsize hcp hdata hread (longKey n) htext List.not_mem_nil List.drop_left
  have hwith := values_overread hsize hcp hdata hread (longKey n) htext hbehind List.drop_left
  rw [hkey, List.append_nil, value_without hlen (by omega)] at hwithout
  rw [hkey, value_behind (Nat.pos_of_ne_zero hread) (by omega)] at hwith
  rw [h.same _ (File.text (.opened size read) ++ (keyBehind (readLen read) n ++ [0])), hwith] at hwithout
  simp at hwithout

end Opened

theorem fileOnly_opened_iff {size : Nat} (hsize : size ≠ 0) (read : Option Bytes) (mem : Memory)
    : FileOnly (.opened size read) mem
        ↔ mem.mallocCp = false ∨ mem.mallocData = false ∨ read = some [] ∨ 0 ∈ File.text (.opened size read) := by
  have hnull (hreason : mem.mallocCp = false ∨ mem.mallocData = false ∨ readLen read = 0)
      : FileOnly (.opened size read) mem := by
    apply fileOnly_of_null
    intro heap
    unfold configParserInit
    dsimp only
    rw [if_neg hsize]
    split
    . rfl
    split
    . rfl
    rw [if_pos (by simp_all)]
  constructor
  . intro h
    cases hcp : mem.mallocCp with
    | false => exact Or.inl rfl
    | true =>
      cases hdata : mem.mallocData with
      | false => exact Or.inr (Or.inl rfl)
      | true =>
        by_cases hempty : readLen read = 0
        . cases read with
          | none => contradiction
          | some text => exact Or.inr (Or.inr (Or.inl (congrArg some (List.length_eq_zero_iff.mp hempty))))
        . apply Decidable.byContradiction
          intro hnot
          exact not_fileOnly hsize hcp hdata hempty (fun hzero => hnot (Or.inr (Or.inr (Or.inr hzero)))) h
  . intro h
    cases hcp : mem.mallocCp with
    | false => exact hnull (Or.inl hcp)
    | true =>
      cases hdata : mem.mallocData with
      | false => exact hnull (Or.inr (Or.inl hdata))
      | true =>
        rw [hcp, hdata] at h
        obtain hfalse | hfalse | rfl | hzero := h
        . contradiction
        . contradiction
        . exact hnull (Or.inr (Or.inr rfl))
        . cases read with
          | none => exact absurd hzero List.not_mem_nil
          | some text => exact fileOnly_of_zero hsize hcp hdata hzero

theorem fileOnly_iff (file : File) (mem : Memory) : FileOnly file mem ↔ Stops file mem := by
  -- `config_parser_free` is called on a `cp` that has not been assigned to.
  have hunassigned {file : File} (hinit : ∀ heap, configParserInit file { mem with heap := heap }
      = if mem.cpNull then .null else .undefined) : FileOnly file mem ↔ mem.cpNull = true := by
    constructor
    . intro h
      apply Decidable.byContradiction
      intro hnull
      exact h.defined [] ((hinit []).trans (if_neg hnull))
    . intro hnull
      exact fileOnly_of_null (fun heap => (hinit heap).trans (if_pos hnull))
  cases file with
  | cannotOpen => exact iff_of_true (fileOnly_of_null (fun _ => rfl)) trivial
  | cannotStat => exact hunassigned (fun _ => rfl)
  | opened size read =>
    unfold Stops
    dsimp only
    by_cases hsize : size = 0
    . rw [if_pos hsize]
      exact hunassigned (fun _ => if_pos hsize)
    . rw [if_neg hsize]
      exact fileOnly_opened_iff hsize read mem

def shortFile : File :=
  .opened 3 (some (str "a=1"))

theorem shortFile_overread
    : values shortFile (enough (str "???" ++ [0])) [some (str "a")] [] = [some (str "1")]
      ∧ values shortFile (enough (str "???2" ++ [0])) [some (str "a")] [] = [some (str "12")]
      ∧ ¬ FileOnly shortFile (enough []) := by
  have hvalues {heap s : Bytes} (hs : 0 ∉ s) (hhash : 35 ∉ str "a=1" ++ s) (hheap : heap.drop 3 = s ++ [0])
      : values shortFile (enough heap) [some (str "a")] [] = [valueIn ((str "a=1" ++ s).splitOn 10) (str "a")] := by
    have h := @values_overread 3 (enough heap) (by decide) rfl rfl (some (str "a=1")) (by decide) (str "a") heap s
      (by decide) hs hheap
    have hremoved : Config.removeComments (readLen (some (str "a=1"))) (File.text (.opened 3 (some (str "a=1"))) ++ s)
        = str "a=1" ++ s :=
      removeComments_of_not_mem hhash
    have hkey : cstr (str "a") = str "a" := by decide
    rw [hremoved, hkey] at h
    exact h
  have hzero : values shortFile (enough (str "???" ++ [0])) [some (str "a")] [] = [some (str "1")] :=
    (@hvalues _ [] (by decide) (by decide) (by decide)).trans (by decide)
  have hmore : values shortFile (enough (str "???2" ++ [0])) [some (str "a")] [] = [some (str "12")] :=
    (@hvalues _ (str "2") (by decide) (by decide) (by decide)).trans (by decide)
  refine ⟨hzero, hmore, ?_⟩
  intro h
  have hsame := h.same (str "???" ++ [0]) (str "???2" ++ [0]) [some (str "a")] []
  exact absurd (hzero.symm.trans (hsame.trans hmore)) (by decide)

end InPlace

end Config
