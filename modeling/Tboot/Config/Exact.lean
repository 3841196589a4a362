import Tboot.Config.InPlace
import Tboot.Config.Lemmas

/-!
This module contains what `config_parser.c` does in place: the string at `cp->data` becomes the text
without its comments, and a lookup leaves it as it was.
-/

namespace Config

/-! ### Comments, one at a time -/

def moved (len : Nat) (text rest : Bytes) : Bytes :=
  if rest.length + 2 ≤ len then rest else rest.take (len - 1) ++ (text ++ 10 :: rest).drop (len - 1)

section Comments

variable {len : Nat} {before text : Bytes} (hbefore : 35 ∉ before)

include hbefore

theorem removeComments_hash (comment : Bytes)
    : removeComments len (before ++ 35 :: comment)
        = match (35 :: comment).drop ((35 :: comment).takeWhile (· ≠ 10)).length with
          | [] => before
          | newline :: rest =>
            before ++ newline :: removeComments len
              (if rest.length + 2 ≤ len then rest else rest.take (len - 1) ++ comment.drop (len - 1)) := by
  have htake : (before ++ 35 :: comment).takeWhile (· ≠ 35) = before := takeWhile_ne_append hbefore comment
  conv_lhs => rw [removeComments]
  split
  . next hdst =>
    rw [htake, List.drop_left] at hdst
    contradiction
  . next hash comment' hdst =>
    rw [htake, List.drop_left] at hdst
    obtain ⟨rfl, rfl⟩ := List.cons.inj hdst
    dsimp only
    split
    . next hsrc => rw [hsrc, htake]
    . next newline rest hsrc => rw [hsrc, htake]

theorem removeComments_last (htext : 10 ∉ text) : removeComments len (before ++ 35 :: text) = before := by
  have hnewline : (35 :: text).takeWhile (· ≠ 10) = 35 :: text := by
    apply List.takeWhile_eq_self_iff.mpr
    intro c hc
    have hnot : 10 ∉ 35 :: text := by simpa using htext
    exact decide_eq_true (ne_of_mem_of_not_mem hc hnot)
  rw [removeComments_hash hbefore, hnewline, List.drop_length]

theorem removeComments_next (htext : 10 ∉ text) (rest : Bytes)
    : removeComments len (before ++ 35 :: (text ++ 10 :: rest))
        = before ++ 10 :: removeComments len (moved len text rest) := by
  have hnewline : (35 :: (text ++ 10 :: rest)).takeWhile (· ≠ 10) = 35 :: text :=
    takeWhile_ne_append (s := 35 :: text) (by simpa using htext) rest
  have hdrop : (35 :: (text ++ 10 :: rest)).drop (35 :: text).length = 10 :: rest := by simp
  rw [removeComments_hash hbefore, hnewline, hdrop]
  rfl

end Comments

theorem comments_cases (s : Bytes)
    : 35 ∉ s
      ∨ (∃ before text, s = before ++ 35 :: text ∧ 35 ∉ before ∧ 10 ∉ text)
      ∨ ∃ before text rest, s = before ++ 35 :: (text ++ 10 :: rest) ∧ 35 ∉ before ∧ 10 ∉ text := by
  by_cases hhash : 35 ∈ s
  . obtain ⟨before, comment, rfl, hbefore⟩ := List.eq_append_cons_of_mem hhash
    by_cases hnewline : 10 ∈ comment
    . obtain ⟨text, rest, rfl, htext⟩ := List.eq_append_cons_of_mem hnewline
      exact Or.inr (Or.inr ⟨before, text, rest, rfl, hbefore, htext⟩)
    . exact Or.inr (Or.inl ⟨before, comment, rfl, hbefore, hnewline⟩)
  . exact Or.inl hhash

theorem removeComments_newline (len : Nat) (s : Bytes) : removeComments len (10 :: s) = 10 :: removeComments len s := by
  have hnot {before : Bytes} (h : 35 ∉ before) : 35 ∉ 10 :: before := by simpa using h
  obtain hhash | ⟨before, text, rfl, hbefore, htext⟩ | ⟨before, text, rest, rfl, hbefore, htext⟩ := comments_cases s
  . rw [removeComments_of_not_mem hhash, removeComments_of_not_mem (hnot hhash)]
  . rw [removeComments_last hbefore htext, ← List.cons_append, removeComments_last (hnot hbefore) htext]
  . rw [removeComments_next hbefore htext, ← List.cons_append, removeComments_next (hnot hbefore) htext, List.cons_append]

namespace InPlace

open Heap

theorem moved_not_mem {text rest : Bytes} (htext : 0 ∉ text) (hrest : 0 ∉ rest) (len : Nat) : 0 ∉ moved len text rest := by
  have hcomment : 0 ∉ text ++ 10 :: rest := by simp [htext, hrest]
  unfold moved
  split
  . exact hrest
  . simp only [List.mem_append, not_or]
    exact ⟨fun h => hrest (List.mem_of_mem_take h), fun h => hcomment (List.mem_of_mem_drop h)⟩

theorem moved_length_le (len : Nat) (text rest : Bytes) : (moved len text rest).length ≤ text.length + 1 + rest.length := by
  unfold moved
  split
  . omega
  . simp only [List.length_append, List.length_take, List.length_drop, List.length_cons]
    omega

theorem moved_eq (text rest more : Bytes) {len : Nat} (hlen : 0 < len)
    : ∃ more', (10 :: (rest ++ 0 :: more)).take (min (rest.length + 2) len)
          ++ (35 :: (text ++ 10 :: (rest ++ 0 :: more))).drop (min (rest.length + 2) len)
        = 10 :: moved len text rest ++ 0 :: more' := by
  unfold moved
  split
  . next hle =>
    have htake : (10 :: (rest ++ 0 :: more)).take (rest.length + 2) = 10 :: rest ++ [0] := by
      simp [List.take_append, List.take_succ_cons]
    rw [Nat.min_eq_left hle, htake, List.append_assoc]
    exact ⟨_, rfl⟩
  . next hlt =>
    obtain ⟨n, rfl⟩ := Nat.exists_eq_succ_of_ne_zero (show len ≠ 0 by omega)
    have hn : n ≤ rest.length := by omega
    have hn' : n ≤ (text ++ 10 :: rest).length := by
      rw [List.length_append, List.length_cons]
      omega
    have hdrop : (text ++ 10 :: (rest ++ 0 :: more)).drop n = (text ++ 10 :: rest).drop n ++ 0 :: more := by
      rw [← List.cons_append, ← List.append_assoc, List.drop_append_of_le_length hn']
    rw [Nat.min_eq_right (by omega), List.take_succ_cons, List.drop_succ_cons, List.take_append_of_le_length hn, hdrop]
    refine ⟨more, ?_⟩
    simp

structure Comment (mem : Bytes) (dst src : Nat) (text rest more : Bytes) : Prop where
  drop : mem.drop dst = 35 :: (text ++ 10 :: (rest ++ 0 :: more))
  pos : src = dst + (text.length + 1)
  line : 10 ∉ text
  text : 0 ∉ text
  rest : 0 ∉ rest

theorem exists_comment {mem : Bytes} {line dst src : Nat} {before after : Bytes} (hdst : Found mem line 35 dst before after)
    (hsrc : strchr mem dst 10 = some src) (hzero : 0 ∈ mem.drop line)
    : ∃ text rest more, Comment mem dst src text rest more := by
  obtain ⟨passed, behind, hfound⟩ := strchr_eq_some hsrc
  have hdrop := hdst.drop_pos
  rw [hfound.drop] at hdrop
  cases passed with
  | nil => exact absurd (List.cons.inj hdrop).1 (by decide)
  | cons c text =>
    obtain ⟨rfl, hafter⟩ := List.cons.inj hdrop
    have hzero' : 0 ∈ behind := by
      apply hfound.zero_mem
      rw [hdst.drop_pos]
      exact List.mem_cons_of_mem _ (hdst.zero_mem hzero)
    obtain ⟨more, hmore⟩ := eq_cstr_append hzero'
    refine ⟨text, cstr behind, more, ?_, hfound.pos, ?_, ?_, zero_not_mem_cstr behind⟩
    . rw [hfound.drop, ← hmore]
      rfl
    . exact fun h => hfound.first (List.mem_cons_of_mem _ h)
    . exact fun h => hfound.inside (List.mem_cons_of_mem _ h)

namespace Comment

variable {mem : Bytes} {dst src : Nat} {text rest more : Bytes}

theorem drop_src (h : Comment mem dst src text rest more) : mem.drop src = 10 :: (rest ++ 0 :: more) := by
  rw [h.pos, ← List.drop_drop, h.drop, List.drop_succ_cons, List.drop_left]

theorem string_src (h : Comment mem dst src text rest more) : string mem src = 10 :: rest := by
  have hnot : 0 ∉ 10 :: rest := by simpa using h.rest
  exact string_of_drop hnot h.drop_src

theorem string_dst (h : Comment mem dst src text rest more) : string mem dst = 35 :: (text ++ 10 :: rest) := by
  have hnot : 0 ∉ 35 :: (text ++ 10 :: rest) := by simp [h.text, h.rest]
  have hdrop : mem.drop dst = 35 :: (text ++ 10 :: rest) ++ 0 :: more := by
    rw [h.drop]
    simp
  exact string_of_drop hnot hdrop

theorem string_before (h : Comment mem dst src text rest more) {line : Nat} {before after : Bytes}
    (hfound : Found mem line 35 dst before after) : string mem line = before ++ 35 :: (text ++ 10 :: rest) := by
  rw [hfound.string_eq, ← hfound.string_pos, h.string_dst]

theorem fits (h : Comment mem dst src text rest more) (len : Nat) : src + min (rest.length + 2) len ≤ mem.length := by
  have hlength := congrArg List.length h.drop_src
  simp only [List.length_drop, List.length_cons, List.length_append] at hlength
  omega

theorem count (h : Comment mem dst src text rest more) : (string mem src).length + 1 = rest.length + 2 := by
  rw [h.string_src, List.length_cons]

theorem memmove_drop (h : Comment mem dst src text rest more) {len : Nat} (hlen : 0 < len)
    : ∃ more', (memmove mem dst src (min (rest.length + 2) len)).drop dst = 10 :: moved len text rest ++ 0 :: more' := by
  have hfits := h.fits len
  have hpos := h.pos
  rw [Heap.memmove_drop (by omega), ← List.drop_drop, h.drop_src, h.drop]
  exact moved_eq text rest more hlen

theorem string_memmove (h : Comment mem dst src text rest more) {len : Nat} (hlen : 0 < len)
    : string (memmove mem dst src (min (rest.length + 2) len)) dst = 10 :: moved len text rest := by
  obtain ⟨more', hdrop⟩ := h.memmove_drop hlen
  have hnot : 0 ∉ 10 :: moved len text rest := by simpa using moved_not_mem h.text h.rest len
  exact string_of_drop hnot hdrop

theorem zero_memmove (h : Comment mem dst src text rest more) {len : Nat} (hlen : 0 < len)
    : 0 ∈ (memmove mem dst src (min (rest.length + 2) len)).drop dst := by
  obtain ⟨more', hdrop⟩ := h.memmove_drop hlen
  rw [hdrop]
  simp

end Comment

theorem next_hash {mem s : Bytes} {p q : Nat} (hdrop : mem.drop p = 10 :: s) (h : strchr mem p 35 = some q) : p < q := by
  obtain ⟨passed, rest, hfound⟩ := strchr_eq_some h
  have hpos := hfound.pos
  cases passed with
  | nil =>
    have hhead := hfound.drop
    rw [hdrop] at hhead
    exact absurd (List.cons.inj hhead).1 (by decide)
  | cons c passed =>
    rw [List.length_cons] at hpos
    omega

/-- Every turn finds a `#` further on, and does to the string what `removeComments` does to it. -/
theorem loop_spec {len fuel : Nat} (hlen : 0 < len) {mem : Bytes} {dst : Nat} (hzero : 0 ∈ mem.drop dst)
    (hfuel : 0 < fuel) (hnext : ∀ q, strchr mem dst 35 = some q → dst + (string mem dst).length - q < fuel)
    : ∃ mem', removeComments.loop len fuel mem dst = some mem' ∧ mem'.take dst = mem.take dst
      ∧ string mem' dst = Config.removeComments len (string mem dst) := by
  induction fuel generalizing mem dst with
  | zero => contradiction
  | succ fuel ih =>
    unfold removeComments.loop
    cases hhash : strchr mem dst 35 with
    | none => exact ⟨mem, rfl, rfl, (removeComments_of_not_mem (strchr_eq_none hhash)).symm⟩
    | some p =>
      obtain ⟨before, after, hfound⟩ := strchr_eq_some hhash
      dsimp only
      cases hnewline : strchr mem p 10 with
      | none =>
        have hlast : 10 ∉ cstr after := by
          have hnot := strchr_eq_none hnewline
          rw [hfound.string_pos] at hnot
          exact fun h => hnot (List.mem_cons_of_mem _ h)
        refine ⟨mem.set p 0, rfl, hfound.set_take 0, ?_⟩
        rw [hfound.string_eq, removeComments_last hfound.first hlast]
        exact string_of_drop hfound.inside (hfound.set_drop 0)
      | some q =>
        obtain ⟨text, rest, more, hcomment⟩ := exists_comment hfound hnewline hzero
        obtain ⟨more', hdrop⟩ := hcomment.memmove_drop hlen
        have hzero1 := hcomment.zero_memmove hlen
        have htake := @memmove_take mem p q (min (rest.length + 2) len) (Nat.le_of_lt hfound.lt_length)
        have hstring := hcomment.string_before hfound
        have hstring1 := hcomment.string_memmove hlen
        have hmoved := moved_length_le len text rest
        have hspace := hnext p hhash
        rw [hstring, hfound.pos] at hspace
        simp only [List.length_append, List.length_cons] at hspace
        dsimp only
        rw [hcomment.count]
        generalize memmove mem p q (min (rest.length + 2) len) = mem1 at hdrop hzero1 htake hstring1 ⊢
        have hnext1 : ∀ q, strchr mem1 p 35 = some q → p + (string mem1 p).length - q < fuel := by
          intro q' hq'
          have hlt := next_hash hdrop hq'
          rw [hstring1, List.length_cons]
          omega
        obtain ⟨mem', hloop, htake', hresult⟩ := ih hzero1 (by omega) hnext1
        rw [htake] at htake'
        refine ⟨mem', hloop, ?_, ?_⟩
        . have hpos := hfound.pos
          have hdst := congrArg (List.take dst) htake'
          rw [List.take_take, List.take_take, Nat.min_eq_left (by omega)] at hdst
          exact hdst
        . rw [hfound.string_of_take htake', hresult, hstring1, hstring, removeComments_next hfound.first hcomment.line,
            removeComments_newline]

theorem removeComments_spec {len : Nat} (hlen : 0 < len) {mem : Bytes} (hzero : 0 ∈ mem)
    : ∃ mem', removeComments len mem = some mem' ∧ string mem' 0 = Config.removeComments len (cstr mem) := by
  have hnext : ∀ q, strchr mem 0 35 = some q → 0 + (string mem 0).length - q < (string mem 0).length + 1 := by
    intro q _
    omega
  have hzero' : 0 ∈ mem.drop 0 := hzero
  obtain ⟨mem', hloop, _, hstring⟩ := loop_spec hlen hzero' (Nat.succ_pos _) hnext
  exact ⟨mem', hloop, hstring⟩

/-! ### Lookups -/

theorem loop_last {mem : Bytes} {line : Nat} (h : strchr mem line 10 = none) (key : Bytes)
    : configParserGet.loop key mem line
        = strtok (some (string mem line)) delim >>= fun tok1 =>
            if tok1 = some key then strtok none delim >>= fun tok2 => pure (tok2, mem) else pure (none, mem) := by
  rw [configParserGet.loop]
  have hcut : put mem (strchr mem line 10) 0 = mem := by rw [h, put]
  have hback : put mem (strchr mem line 10) 10 = mem := by rw [h, put]
  simp only [hcut, hback]
  apply bind_congr
  intro tok1
  split
  . rfl
  . split
    . rfl
    . next p hp =>
      rw [h] at hp
      contradiction

theorem loop_next {mem : Bytes} {line p : Nat} {passed rest : Bytes} (h : Found mem line 10 p passed rest)
    (hp : strchr mem line 10 = some p) (key : Bytes)
    : configParserGet.loop key mem line
        = strtok (some passed) delim >>= fun tok1 =>
            if tok1 = some key then strtok none delim >>= fun tok2 => pure (tok2, mem)
            else configParserGet.loop key mem (p + 1) := by
  rw [configParserGet.loop]
  have hcut : put mem (strchr mem line 10) 0 = mem.set p 0 := by rw [hp, put]
  have hback : put (mem.set p 0) (strchr mem line 10) 10 = mem := by rw [hp, put, List.set_set, h.set_self]
  have hline : string (mem.set p 0) line = passed := string_of_drop h.inside (h.set_drop 0)
  simp only [hcut, hback, hline]
  apply bind_congr
  intro tok1
  split
  . rfl
  . split
    . next hnone =>
      rw [hp] at hnone
      contradiction
    . next p' hp' =>
      rw [hp] at hp'
      obtain rfl := Option.some.inj hp'
      rw [List.set_set, h.set_self]

/-- A lookup finds what it finds in the string, and restores every newline. -/
theorem configParserGet_loop (key mem : Bytes) (line : Nat)
    : configParserGet.loop key mem line = (fun value => (value, mem)) <$> Config.configParserGet (string mem line) key := by
  induction hleft : mem.length - line using Nat.strongRecOn generalizing line with
  | ind n ih =>
    subst hleft
    cases hnewline : strchr mem line 10 with
    | none =>
      have hline : (string mem line).takeWhile (· ≠ 10) = string mem line := by
        apply List.takeWhile_eq_self_iff.mpr
        intro c hc
        exact decide_eq_true (ne_of_mem_of_not_mem hc (strchr_eq_none hnewline))
      have hend : (string mem line).drop ((string mem line).takeWhile (· ≠ 10)).length = [] := by
        rw [hline, List.drop_length]
      rw [loop_last hnewline, configParserGet_last hend, map_bind, hline]
      apply bind_congr
      intro tok1
      split
      . rfl
      . rfl
    | some p =>
      obtain ⟨passed, rest, hfound⟩ := strchr_eq_some hnewline
      have hline : (string mem line).takeWhile (· ≠ 10) = passed := by
        rw [hfound.string_eq]
        exact takeWhile_ne_append hfound.first _
      have hend : (string mem line).drop ((string mem line).takeWhile (· ≠ 10)).length = 10 :: cstr rest := by
        rw [hline, hfound.string_eq, List.drop_left]
      have hrest : string mem (p + 1) = cstr rest := by
        unfold string
        rw [hfound.drop_succ]
      have hlt := hfound.lt_length
      have hpos := hfound.pos
      rw [loop_next hfound hnewline, configParserGet_next hend, map_bind, hline]
      apply bind_congr
      intro tok1
      split
      . rfl
      . rw [ih _ (by omega) (p + 1) rfl, hrest]

theorem valueIn_nil (lines : List Bytes) : valueIn lines [] = none := by
  have hfind : (lines.find? fun line => (tokens delim line).head? = some []) = none := by
    apply List.find?_eq_none.mpr
    intro line _ hhead
    have hmem : [] ∈ tokens delim line := List.mem_of_mem_head? (of_decide_eq_true hhead)
    unfold tokens at hmem
    simp at hmem
  unfold valueIn
  rw [hfind, Option.bind_none]

def lookup (lines : List Bytes) (key : Option Bytes) : Option Bytes :=
  key.bind fun key => valueIn lines (cstr key)

theorem configParserGet_ready (len : Nat) (data : Bytes) (key : Option Bytes) (save : Bytes)
    : (configParserGet (.ready len data) key save).1 = (lookup ((string data 0).splitOn 10) key, .ready len data) := by
  cases key with
  | none => rfl
  | some key =>
    unfold configParserGet lookup
    rw [Option.bind_some]
    dsimp only
    split
    . next hempty =>
      rw [List.length_eq_zero_iff.mp hempty, valueIn_nil]
      rfl
    . rw [configParserGet_loop, ← configParserGet_spec _ _ save]
      rfl

theorem lookups_cons (cp : Parser) (key : Option Bytes) (keys : List (Option Bytes)) (save : Bytes)
    : (lookups cp (key :: keys) save).1
        = (configParserGet cp key save).1
          :: (lookups (configParserGet cp key save).1.2 keys (configParserGet cp key save).2).1 :=
  rfl

theorem lookups_ready (len : Nat) (data : Bytes) (keys : List (Option Bytes)) (save : Bytes)
    : (lookups (.ready len data) keys save).1
        = keys.map fun key => (lookup ((string data 0).splitOn 10) key, .ready len data) := by
  induction keys generalizing save with
  | nil => rfl
  | cons key keys ih =>
    have hget := configParserGet_ready len data key save
    rw [lookups_cons, hget, ih, List.map_cons]

/-! ### The two models -/

def Parser.view : Parser → Config.Parser
  | .undefined => .undefined
  | .null => .null
  | .ready _ data => .ready (string data 0)

theorem configParserInit_view (file : File) (mem : Memory)
    : (configParserInit file mem).view = Config.configParserInit file mem := by
  cases file with
  | cannotOpen => rfl
  | cannotStat => exact apply_ite Parser.view _ _ _
  | opened size read =>
    unfold configParserInit Config.configParserInit
    dsimp only
    split
    . exact apply_ite Parser.view _ _ _
    split
    . rfl
    split
    . rfl
    split
    . rfl
    next hread =>
    split
    . next hzero =>
      obtain ⟨data, hdata, hstring⟩ := removeComments_spec (Nat.pos_of_ne_zero hread) hzero
      rw [hdata, ← hstring]
      rfl
    . rfl

theorem configParserInit_ready {size : Nat} {read : Option Bytes} {mem : Memory} {data : Bytes} (hsize : size ≠ 0)
    (hcp : mem.mallocCp = true) (hdata : mem.mallocData = true) (hread : readLen read ≠ 0)
    (hzero : 0 ∈ dataAfterRead mem read) (hremoved : removeComments (readLen read) (dataAfterRead mem read) = some data)
    : configParserInit (.opened size read) mem = .ready (readLen read) data := by
  unfold configParserInit
  simp only [hsize, hcp, hdata, hread, hzero, hremoved, Bool.not_true, Bool.false_eq_true, ↓reduceIte]

theorem lookups_exact {size : Nat} {text : Bytes} {mem : Memory} (htext : text ≠ []) (hsize : text.length ≤ size)
    (hcp : mem.mallocCp = true) (hdata : mem.mallocData = true) (hterminated : Terminated (.opened size (some text)) mem)
    : ∃ data, configParserInit (.opened size (some text)) mem = .ready text.length data
      ∧ string data 0 = [10].intercalate (configLines text)
      ∧ ∀ keys save, (lookups (.ready text.length data) keys save).1
          = keys.map fun key => (lookup (configLines text) key, .ready text.length data) := by
  obtain ⟨hzero, hcstr⟩ := cstr_dataAfterRead hterminated
  have hpos : 0 < text.length := List.length_pos_of_ne_nil htext
  have hread : readLen (some text) ≠ 0 := Nat.ne_of_gt hpos
  have hopened : size ≠ 0 := by omega
  obtain ⟨data, hremoved, hstring⟩ := removeComments_spec (Nat.pos_of_ne_zero hread) hzero
  have hlines : (string data 0).splitOn 10 = configLines text := by
    rw [hstring, hcstr]
    exact splitOn_removeComments text_length_le
  refine ⟨data, ?_, ?_, ?_⟩
  . exact configParserInit_ready hopened hcp hdata hread hzero hremoved
  . rw [← hlines, List.intercalate_splitOn]
  . intro keys save
    rw [lookups_ready, hlines]

def twoLines : Bytes :=
  str "a=1 #c\nb 2\n"

theorem lookups_exact_twoLines
    : ∃ data, configParserInit (.opened 12 (some twoLines)) (enough (List.replicate 16 0)) = .ready 11 data
      ∧ string data 0 = str "a=1 \nb 2\n"
      ∧ (lookups (.ready 11 data) [some (str "b"), some (str "c"), some (str "a")] []).1
          = [(some (str "2"), .ready 11 data), (none, .ready 11 data), (some (str "1"), .ready 11 data)] := by
  obtain ⟨data, hinit, hstring, hlookups⟩ := @lookups_exact 12 twoLines (enough (List.replicate 16 0))
    (by decide) (by decide) rfl rfl ⟨by decide, by decide⟩
  have hlength : twoLines.length = 11 := by decide
  have hb : lookup (configLines twoLines) (some (str "b")) = some (str "2") := by decide
  have hc : lookup (configLines twoLines) (some (str "c")) = none := by decide
  have ha : lookup (configLines twoLines) (some (str "a")) = some (str "1") := by decide
  rw [hlength] at hinit hlookups
  refine ⟨data, hinit, ?_, ?_⟩
  . rw [hstring]
    decide
  . rw [hlookups]
    simp only [List.map_cons, List.map_nil, hb, hc, ha]

end InPlace

end Config
