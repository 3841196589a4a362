import Tboot.ConfigUtils.Impl
import Mathlib.Data.List.DropRight

/-!
This module contains the lexer on the text itself, of which it cuts one token after the other, and the proof
that the lexer in place finds the same tokens and leaves the strings alone that it has found before.
-/

namespace ConfigUtils

/-- What is left of the text, and the mark in front of it that has been read already -/
structure Input where
  next : Option Mark
  rest : Bytes
  deriving DecidableEq, Repr

def skipBlanks : (comment : Bool) → Bytes → Bytes
  | _, [] => []
  | true, c :: s => skipBlanks (c ≠ 10) s
  | false, c :: s =>
    if isspace c then
      skipBlanks false s
    else if c = 35 then
      skipBlanks true s
    else
      c :: s

def isWord (c : UInt8) : Bool :=
  !(isspace c || (markOf c).isSome)

/-- The rest of the line without the blanks at its end, which stay if it is the last -/
def cutValue (s : Bytes) : Bytes × Input :=
  let line := s.takeWhile (· ≠ 10)
  match s.drop line.length with
  | [] => (line, ⟨none, []⟩)
  | _ :: rest => (line.rdropWhile isspace, ⟨none, rest⟩)

def cutText (s : Bytes) : Bytes × Input :=
  let word := s.takeWhile isWord
  match s.drop word.length with
  | [] => (word, ⟨none, []⟩)
  | c :: rest => (word, ⟨markOf c, rest⟩)

def Input.lex (inp : Input) (value : Bool) : Token Bytes × Input :=
  match inp.next with
  | some m => (.mark m, ⟨none, inp.rest⟩)
  | none =>
    match skipBlanks false inp.rest with
    | [] => (.eof, inp)
    | c :: s =>
      match markOf c with
      | some m => (.mark m, ⟨none, s⟩)
      | none =>
        let (text, inp) := if value then cutValue s else cutText s
        (.text (c :: text), inp)

def Input.lexer : Lexer Input Bytes where
  lex := fun inp value => some (inp.lex value)
  string := fun _ text => text
  empty := []

def parse (text : Bytes) : Option Disk.Cnode :=
  (parseAll Input.lexer (2 * text.length + 1) ⟨none, text⟩ ⟨[], [], []⟩).map fun (_, root) => root.read id

theorem cutValue_last {s : Bytes} (h : 10 ∉ s) : cutValue s = (s, ⟨none, []⟩) := by
  have htake : s.takeWhile (· ≠ 10) = s := by
    rw [List.takeWhile_eq_self_iff]
    intro c hc
    exact decide_eq_true (ne_of_mem_of_not_mem hc h)
  unfold cutValue
  dsimp only
  rw [htake, List.drop_length]

theorem cutValue_line {line : Bytes} (h : 10 ∉ line) (rest : Bytes)
    : cutValue (line ++ 10 :: rest) = (line.rdropWhile isspace, ⟨none, rest⟩) := by
  unfold cutValue
  dsimp only
  rw [takeWhile_ne_append h, List.drop_left]

theorem cutText_last {word : Bytes} (h : ∀ c ∈ word, isWord c = true) : cutText word = (word, ⟨none, []⟩) := by
  unfold cutText
  dsimp only
  rw [List.takeWhile_eq_self_iff.mpr h, List.drop_length]

theorem cutText_word {word : Bytes} {c : UInt8} (h : ∀ c ∈ word, isWord c = true) (hc : isWord c = false)
    (rest : Bytes) : cutText (word ++ c :: rest) = (word, ⟨markOf c, rest⟩) := by
  have htake : (word ++ c :: rest).takeWhile isWord = word := by
    rw [List.takeWhile_append_of_pos h, List.takeWhile_cons_of_neg (by simp [hc]), List.append_nil]
  unfold cutText
  dsimp only
  rw [htake, List.drop_left]

/-! ### The parts of the lexer in place -/

theorem isspace_zero : isspace 0 = false := by
  decide

theorem markOf_of_isspace {c : UInt8} (h : isspace c = true) : markOf c = none := by
  have hall : ∀ n : Fin 256, isspace (UInt8.ofFin n) = true → markOf (UInt8.ofFin n) = none := by
    decide +kernel
  exact hall c.toFin h

theorem skip_eq (comment : Bool) {s : Bytes} (hs : 0 ∉ s) (more : Bytes) (p : Nat)
    : ∃ blanks, s = blanks ++ skipBlanks comment s
        ∧ skip comment (s ++ 0 :: more) p = some (p + blanks.length) := by
  induction s generalizing comment p with
  | nil =>
    refine ⟨[], rfl, ?_⟩
    cases comment
    all_goals simp [skip, isspace_zero]
  | cons c s ih =>
    rw [List.mem_cons, not_or] at hs
    have hc : c ≠ 0 := Ne.symm hs.1
    have hcons : ∀ comment', skipBlanks comment (c :: s) = skipBlanks comment' s
        → skip comment (c :: s ++ 0 :: more) p = skip comment' (s ++ 0 :: more) (p + 1)
        → ∃ blanks, c :: s = blanks ++ skipBlanks comment (c :: s)
            ∧ skip comment (c :: s ++ 0 :: more) p = some (p + blanks.length) := by
      intro comment' hblanks hskip
      obtain ⟨blanks, hs', hp⟩ := ih comment' hs.2 (p + 1)
      refine ⟨c :: blanks, ?_, ?_⟩
      . rw [hblanks, List.cons_append, ← hs']
      . rw [hskip, hp, List.length_cons]
        congr 1
        omega
    cases comment with
    | true => exact hcons (c ≠ 10) rfl (by simp [skip, hc])
    | false =>
      by_cases hspace : isspace c = true
      . exact hcons false (by simp [skipBlanks, hspace]) (by simp [skip, hspace])
      . by_cases hcomment : c = 35
        . subst hcomment
          exact hcons true rfl rfl
        . exact ⟨[], by simp [skipBlanks, hspace, hcomment], by simp [skip, hspace, hcomment]⟩

theorem scan_eq {stop : UInt8 → Bool} {passed : Bytes} {c : UInt8} (h : ∀ d ∈ passed, stop d = false)
    (hc : stop c = true) (rest : Bytes) (p : Nat)
    : scan stop (passed ++ c :: rest) p = some (p + passed.length) := by
  induction passed generalizing p with
  | nil => simp [scan, hc]
  | cons d passed ih =>
    rw [List.cons_append, scan, h d List.mem_cons_self, if_neg Bool.false_ne_true,
      ih (fun x hx => h x (List.mem_cons_of_mem d hx)), List.length_cons]
    congr 1
    omega

theorem getD_length_append (before : Bytes) (c : UInt8) (rest : Bytes)
    : (before ++ c :: rest).getD before.length 0 = c := by
  simp [List.getD_eq_getElem?_getD]

theorem set_length_append (before : Bytes) (c d : UInt8) (rest : Bytes)
    : (before ++ c :: rest).set before.length d = before ++ d :: rest := by
  simp [List.set_append_right]

theorem strip_eq (before : Bytes) (c : UInt8) (line rest : Bytes)
    : ∃ zeros, strip before.length (before.length + line.length) (before ++ c :: line ++ 0 :: rest)
          = before ++ c :: line.rdropWhile isspace ++ 0 :: zeros ++ rest
        ∧ (line.rdropWhile isspace ++ zeros).length = line.length := by
  induction line using List.reverseRecOn generalizing rest with
  | nil =>
    refine ⟨[], ?_, rfl⟩
    cases before
    all_goals simp [strip]
  | append_singleton line x ih =>
    have hpos : before.length + (line ++ [x]).length = (before ++ c :: line).length := by
      simp only [List.length_append, List.length_cons, List.length_nil]
    have hmem : before ++ c :: (line ++ [x]) ++ 0 :: rest = before ++ c :: line ++ x :: 0 :: rest := by simp
    have hlen : (before ++ c :: line).length = before.length + line.length + 1 := by
      rw [List.length_append, List.length_cons, Nat.add_assoc]
    have hget := getD_length_append (before ++ c :: line) x (0 :: rest)
    have hset := set_length_append (before ++ c :: line) x 0 (0 :: rest)
    rw [hlen] at hget hset
    rw [hpos, hlen, hmem, strip, hget, hset]
    by_cases hx : isspace x = true
    . obtain ⟨zeros, hstrip, hzeros⟩ := ih (0 :: rest)
      rw [if_pos ⟨by omega, hx⟩, hstrip, List.rdropWhile_concat_pos _ _ _ hx]
      refine ⟨zeros ++ [0], by simp, ?_⟩
      rw [← List.append_assoc, List.length_append, hzeros]
      simp
    . rw [if_neg (fun h => hx h.2), List.rdropWhile_concat_neg _ _ _ hx]
      exact ⟨[], by simp, by simp⟩

/-! ### The same tokens -/

/-- The lexer in place stands where the other one does. -/
structure Cstate.At (cs : Cstate) (inp : Input) : Prop where
  next : cs.next = inp.next
  drop : ∃ more, cs.mem.drop cs.data = inp.rest ++ 0 :: more
  clean : 0 ∉ inp.rest

structure Cstate.Cut (cs cs' : Cstate) (s : Nat) (text : Bytes) (inp : Input) : Prop where
  at_ : cs'.At inp
  stop : s + text.length ≤ cs'.data
  drop : ∃ more, cs'.mem.drop s = text ++ 0 :: more
  kept : cs'.mem.take (s + 1) = cs.mem.take (s + 1)

theorem exists_first {p : UInt8 → Bool} (s : Bytes)
    : (∀ c ∈ s, p c = false) ∨ ∃ before c rest, s = before ++ c :: rest ∧ (∀ c ∈ before, p c = false) ∧ p c = true := by
  cases hfind : s.find? p with
  | none =>
    left
    intro c hc
    simpa using List.find?_eq_none.mp hfind c hc
  | some c =>
    obtain ⟨hc, before, rest, hs, hbefore⟩ := List.find?_eq_some_iff_append.mp hfind
    exact Or.inr ⟨before, c, rest, hs, fun d hd => by simpa using hbefore d hd, hc⟩

section Cut

variable {cs : Cstate} (hnext : cs.next = none) {before rest more : Bytes} {c : UInt8}
  (hmem : cs.mem = before ++ c :: rest ++ 0 :: more) (hrest : 0 ∉ rest)
include hnext hmem hrest

omit hrest in
theorem Cstate.cut_last : cs.Cut { cs with data := (before ++ c :: rest).length } before.length (c :: rest) ⟨none, []⟩ := by
  constructor
  . refine ⟨hnext, ⟨more, ?_⟩, List.not_mem_nil⟩
    rw [hmem]
    exact List.drop_left
  . rw [List.length_append]
  . refine ⟨more, ?_⟩
    rw [hmem, List.append_assoc]
    exact List.drop_left
  . rfl

omit hnext in
theorem Cstate.cut_at {word text zeros rest' : Bytes} {d : UInt8} (next : Option Mark)
    (hword : rest = word ++ d :: rest') (hlen : (text ++ zeros).length = word.length)
    : cs.Cut ⟨before ++ c :: text ++ 0 :: zeros ++ (rest' ++ 0 :: more), (before ++ c :: word).length + 1, next⟩
        before.length (c :: text) ⟨next, rest'⟩ := by
  have hlength : (before ++ c :: text ++ 0 :: zeros).length = (before ++ c :: word).length + 1 := by
    simp only [List.length_append, List.length_cons] at hlen ⊢
    omega
  constructor
  . refine ⟨rfl, ⟨more, ?_⟩, ?_⟩
    . rw [← hlength]
      exact List.drop_left
    . rw [hword] at hrest
      intro h
      exact hrest (List.mem_append_right _ (List.mem_cons_of_mem _ h))
  . simp only [List.length_append, List.length_cons] at hlen ⊢
    omega
  . refine ⟨zeros ++ (rest' ++ 0 :: more), ?_⟩
    rw [List.append_assoc, List.append_assoc, List.drop_left]
    simp
  . rw [hmem]
    simp [List.take_append]

omit hnext hrest in
theorem Cstate.drop_succ : cs.mem.drop (before.length + 1) = rest ++ 0 :: more := by
  rw [hmem, ← List.drop_drop, List.append_assoc, List.drop_left]
  rfl

omit hnext hrest in
theorem Cstate.getD_end : cs.mem.getD (before ++ c :: rest).length 0 = 0 := by
  rw [hmem]
  exact getD_length_append _ _ _

omit hnext hrest in
theorem Cstate.at_word {word rest' : Bytes} {d : UInt8} (hword : rest = word ++ d :: rest')
    : cs.mem.getD (before ++ c :: word).length 0 = d
      ∧ cs.mem.set (before ++ c :: word).length 0 = before ++ c :: word ++ 0 :: (rest' ++ 0 :: more) := by
  have hsplit : cs.mem = before ++ c :: word ++ d :: (rest' ++ 0 :: more) := by
    rw [hmem, hword]
    simp
  rw [hsplit]
  exact ⟨getD_length_append _ _ _, set_length_append _ _ _ _⟩

omit hnext hmem hrest in
theorem length_word (before : Bytes) (c : UInt8) (word : Bytes)
    : before.length + 1 + word.length = (before ++ c :: word).length := by
  rw [List.length_append, List.length_cons]
  omega

theorem Cstate.lexValue_eq
    : ∃ cs', cs.lexValue before.length = some (.text (some before.length), cs')
        ∧ cs.Cut cs' before.length (c :: (cutValue rest).1) (cutValue rest).2 := by
  unfold Cstate.lexValue
  rw [drop_succ hmem]
  cases @exists_first (fun c => c = 10) rest with
  | inl hlast =>
    have hline : 10 ∉ rest := fun h => by simpa using hlast 10 h
    have hscan : scan (fun c => c = 0 || c = 10) (rest ++ 0 :: more) (before.length + 1) = some _ :=
      scan_eq (fun d hd => by simp [ne_of_mem_of_not_mem hd hline, ne_of_mem_of_not_mem hd hrest]) rfl more _
    rw [hscan, length_word before c rest, cutValue_last hline]
    simp only [bind, Option.bind, getD_end hmem, ↓reduceIte]
    exact ⟨_, rfl, cut_last hnext hmem⟩
  | inr hfirst =>
    obtain ⟨line, d, rest', hword, hbefore, hd⟩ := hfirst
    have hd : d = 10 := of_decide_eq_true hd
    subst hd
    have hline : 10 ∉ line := fun h => by simpa using hbefore 10 h
    have hzero : 0 ∉ line := fun h => hrest (hword ▸ List.mem_append_left _ h)
    have hscan : scan (fun c => c = 0 || c = 10) (rest ++ 0 :: more) (before.length + 1)
        = some (before.length + 1 + line.length) := by
      rw [hword, List.append_assoc]
      exact scan_eq (fun d hd => by simp [ne_of_mem_of_not_mem hd hline, ne_of_mem_of_not_mem hd hzero]) rfl _ _
    obtain ⟨hget, hset⟩ := at_word hmem hword
    obtain ⟨zeros, hstrip, hzeros⟩ := strip_eq before c line (rest' ++ 0 :: more)
    have hback : (before ++ c :: line).length - 1 = before.length + line.length := by
      rw [← length_word]
      omega
    rw [hscan, length_word before c line]
    simp only [bind, Option.bind, hget, hset, hback, hstrip]
    refine ⟨_, rfl, ?_⟩
    rw [hword, cutValue_line hline, hnext]
    exact cut_at hmem hrest none hword hzeros

omit hnext hmem hrest in
theorem stop_eq {d : UInt8} (hd : d ≠ 0) : (isspace d || d = 0 || (markOf d).isSome) = !isWord d := by
  simp [isWord, hd]

theorem Cstate.lexText_eq
    : ∃ cs', cs.lexText before.length = some (.text (some before.length), cs')
        ∧ cs.Cut cs' before.length (c :: (cutText rest).1) (cutText rest).2 := by
  unfold Cstate.lexText
  rw [drop_succ hmem]
  cases @exists_first (fun c => !isWord c) rest with
  | inl hlast =>
    have hscan : scan (fun c => isspace c || c = 0 || (markOf c).isSome) (rest ++ 0 :: more) (before.length + 1)
        = some _ :=
      scan_eq (fun d hd => (stop_eq (ne_of_mem_of_not_mem hd hrest)).trans (hlast d hd)) rfl more _
    rw [hscan, length_word before c rest, cutText_last (fun d hd => by simpa using hlast d hd)]
    simp only [bind, Option.bind, getD_end hmem, isspace_zero, Bool.false_eq_true, ↓reduceIte]
    exact ⟨_, rfl, cut_last hnext hmem⟩
  | inr hfirst =>
    obtain ⟨word, d, rest', hword, hbefore, hd⟩ := hfirst
    have hzero : 0 ∉ word := fun h => hrest (hword ▸ List.mem_append_left _ h)
    have hd0 : d ≠ 0 := fun h => hrest (hword ▸ h ▸ List.mem_append_right _ List.mem_cons_self)
    have hscan : scan (fun c => isspace c || c = 0 || (markOf c).isSome) (rest ++ 0 :: more) (before.length + 1)
        = some (before.length + 1 + word.length) := by
      rw [hword, List.append_assoc]
      exact scan_eq (fun x hx => (stop_eq (ne_of_mem_of_not_mem hx hzero)).trans (hbefore x hx))
        ((stop_eq hd0).trans hd) _ _
    obtain ⟨hget, hset⟩ := at_word hmem hword
    have hcut := cutText_word (fun x hx => by simpa using hbefore x hx) (by simpa using hd) rest'
    have hdone := fun next => @cut_at cs before rest more c hmem hrest word word [] rest' d next hword (by simp)
    rw [hscan, length_word before c word, hword, hcut]
    simp only [bind, Option.bind, hget, hset]
    split
    . next hspace =>
      rw [markOf_of_isspace hspace, hnext]
      refine ⟨_, rfl, ?_⟩
      simpa using hdone none
    . refine ⟨_, rfl, ?_⟩
      simpa using hdone (markOf d)

end Cut

/-- A string of the tree: it ends before the place where the lexer stands, or there. -/
def Cstate.Live (cs : Cstate) : Option Nat → Prop
  | none => True
  | some p => ∃ text more, cs.mem.drop p = text ++ 0 :: more ∧ 0 ∉ text ∧ p + text.length ≤ cs.data

structure Cstate.Keeps (cs cs' : Cstate) : Prop where
  le : cs.data ≤ cs'.data
  take : cs'.mem.take (cs.data + 1) = cs.mem.take (cs.data + 1)

theorem drop_of_take {mem mem' text more : Bytes} {p n : Nat} (htake : mem'.take n = mem.take n)
    (hdrop : mem.drop p = text ++ 0 :: more) (hn : p + text.length < n)
    : ∃ more', mem'.drop p = text ++ 0 :: more' := by
  have hlen := congrArg List.length hdrop
  have hlen' := congrArg List.length htake
  simp only [List.length_drop, List.length_append, List.length_cons, List.length_take] at hlen hlen'
  have hp : p ≤ (mem'.take n).length := by
    rw [List.length_take]
    omega
  obtain ⟨k, hk⟩ : ∃ k, n - p = text.length + (k + 1) := ⟨n - p - text.length - 1, by omega⟩
  refine ⟨more.take k ++ mem'.drop n, ?_⟩
  conv_lhs => rw [← List.take_append_drop n mem', List.drop_append_of_le_length hp, htake, List.drop_take, hdrop, hk]
  rw [List.take_length_add_append, List.take_succ_cons]
  simp

theorem Cstate.Keeps.live {cs cs' : Cstate} (h : cs.Keeps cs') {t : Option Nat} (ht : cs.Live t)
    : cs'.Live t ∧ Cstate.lexer.string cs' t = Cstate.lexer.string cs t := by
  cases t with
  | none => exact ⟨trivial, rfl⟩
  | some p =>
    obtain ⟨text, more, hdrop, htext, hle⟩ := ht
    obtain ⟨more', hdrop'⟩ := drop_of_take h.take hdrop (by omega)
    refine ⟨⟨text, more', hdrop', htext, Nat.le_trans hle h.le⟩, ?_⟩
    exact (Heap.string_of_drop htext hdrop').trans (Heap.string_of_drop htext hdrop).symm

def Token.map {τ τ' : Type} (f : τ → τ') : Token τ → Token τ'
  | .eof => .eof
  | .text t => .text (f t)
  | .mark m => .mark m

theorem Cstate.Cut.found {cs cs' : Cstate} {s : Nat} {text : Bytes} {inp : Input} (h : cs.Cut cs' s text inp)
    (htext : 0 ∉ text) (hs : cs.data ≤ s)
    : Token.text text = (Token.text (some s)).map (Cstate.lexer.string cs') ∧ cs'.At inp ∧ cs.Keeps cs'
      ∧ ∀ t, Token.text (some s) = .text t → cs'.Live t := by
  obtain ⟨more, hdrop⟩ := h.drop
  refine ⟨?_, h.at_, ⟨?_, ?_⟩, ?_⟩
  . exact congrArg Token.text (Heap.string_of_drop htext hdrop).symm
  . have hstop := h.stop
    omega
  . have hkept := congrArg (List.take (cs.data + 1)) h.kept
    rw [List.take_take, List.take_take, Nat.min_eq_left (by omega)] at hkept
    exact hkept
  . intro t ht
    cases ht
    exact ⟨text, more, hdrop, htext, h.stop⟩

theorem not_mem_cutValue {s : Bytes} (h : 0 ∉ s) : 0 ∉ (cutValue s).1 := by
  have hsub : (cutValue s).1 <+: s := by
    unfold cutValue
    dsimp only
    split
    . exact List.takeWhile_prefix _
    . exact (List.rdropWhile_prefix _ _).trans (List.takeWhile_prefix _)
  exact fun hmem => h (hsub.subset hmem)

theorem not_mem_cutText {s : Bytes} (h : 0 ∉ s) : 0 ∉ (cutText s).1 := by
  have hsub : (cutText s).1 <+: s := by
    unfold cutText
    dsimp only
    split
    all_goals exact List.takeWhile_prefix _
  exact fun hmem => h (hsub.subset hmem)

theorem Cstate.At.lex {cs : Cstate} {inp : Input} (h : cs.At inp) (value : Bool)
    : ∃ tok cs', cs.lex value = some (tok, cs')
        ∧ (inp.lex value).1 = tok.map (Cstate.lexer.string cs') ∧ cs'.At (inp.lex value).2 ∧ cs.Keeps cs'
        ∧ ∀ t, tok = .text t → cs'.Live t := by
  obtain ⟨next, rest⟩ := inp
  obtain ⟨hnext, ⟨more, hdrop⟩, hclean⟩ := h
  dsimp only at hnext hdrop hclean
  unfold Cstate.lex Input.lex
  dsimp only
  rw [hnext]
  cases next with
  | some m =>
    refine ⟨_, _, rfl, rfl, ⟨rfl, ⟨more, hdrop⟩, hclean⟩, ⟨Nat.le_refl _, rfl⟩, ?_⟩
    intro t ht
    cases ht
  | none =>
    obtain ⟨blanks, hrest, hskip⟩ := skip_eq false hclean more cs.data
    rw [hdrop, hskip]
    simp only [bind, Option.bind]
    have hmem : cs.mem = cs.mem.take cs.data ++ blanks ++ (skipBlanks false rest ++ 0 :: more) := by
      conv_lhs => rw [← List.take_append_drop cs.data cs.mem, hdrop, hrest]
      simp
    have hlen : (cs.mem.take cs.data ++ blanks).length = cs.data + blanks.length := by
      have hlen := congrArg List.length hdrop
      simp only [List.length_drop, List.length_append, List.length_cons, List.length_take] at hlen ⊢
      omega
    generalize cs.mem.take cs.data ++ blanks = before at hmem hlen
    rw [← hlen]
    cases hleft : skipBlanks false rest with
    | nil =>
      rw [hleft] at hmem
      have hget : cs.mem.getD before.length 0 = 0 := by
        rw [hmem]
        exact getD_length_append _ _ _
      rw [hget]
      refine ⟨_, _, rfl, rfl, ⟨hnext, ⟨more, hdrop⟩, hclean⟩, ⟨Nat.le_refl _, rfl⟩, ?_⟩
      intro t ht
      cases ht
    | cons c s =>
      rw [hleft] at hmem hrest
      have hc : c ≠ 0 := fun h => hclean (hrest ▸ h ▸ List.mem_append_right _ List.mem_cons_self)
      have hs : 0 ∉ s := fun h => hclean (hrest ▸ List.mem_append_right _ (List.mem_cons_of_mem c h))
      have hget : cs.mem.getD before.length 0 = c := by
        rw [hmem]
        exact getD_length_append _ _ _
      rw [hget, if_neg hc]
      dsimp only
      cases markOf c with
      | some m =>
        refine ⟨_, _, rfl, rfl, ⟨rfl, ⟨more, ?_⟩, hs⟩, ⟨?_, rfl⟩, ?_⟩
        . rw [hmem, ← List.drop_drop, List.drop_left]
          rfl
        . dsimp only
          omega
        . intro t ht
          cases ht
      | none =>
        have hmem' : cs.mem = before ++ c :: s ++ 0 :: more := by
          rw [hmem]
          simp
        have hle : cs.data ≤ before.length := by omega
        cases value with
        | true =>
          obtain ⟨cs', hlex, hcut⟩ := lexValue_eq hnext hmem' hs
          have htext : 0 ∉ c :: (cutValue s).1 := by simp [Ne.symm hc, not_mem_cutValue hs]
          exact ⟨_, cs', hlex, hcut.found htext hle⟩
        | false =>
          obtain ⟨cs', hlex, hcut⟩ := lexText_eq hnext hmem' hs
          have htext : 0 ∉ c :: (cutText s).1 := by simp [Ne.symm hc, not_mem_cutText hs]
          exact ⟨_, cs', hlex, hcut.found htext hle⟩

end ConfigUtils
