import Tboot.ConfigUtils.InPlace

/-!
This module contains the language of the configuration files: what a text says, in whatever way it is laid out,
is what the parser makes of it.
-/

namespace ConfigUtils

/-- A value for a node, or a block; nodes are named by paths. -/
inductive Statement where
  | value (name : Bytes) (subs : List Bytes) (v : Bytes)
  | block (name : Bytes) (subs : List Bytes) (body : List Statement)

/-! ### The meaning of a statement -/

/-- The last child of the name is taken as long as it has no value, else a new one. -/
def Node.place (name : Bytes) (root : Node Bytes) : List (Node Bytes) × Node Bytes × List (Node Bytes) :=
  match splitLast (fun node => node.name = name) root.children with
  | some (before, node, behind) =>
    if node.value = [] then
      (before, node, behind)
    else
      (root.children, ⟨name, [], []⟩, [])
  | none => (root.children, ⟨name, [], []⟩, [])

def Node.enter (name : Bytes) (f : Node Bytes → Node Bytes) (root : Node Bytes) : Node Bytes :=
  let (before, node, behind) := root.place name
  { root with children := before ++ f node :: behind }

def Node.descend (f : Node Bytes → Node Bytes) : List Bytes → Node Bytes → Node Bytes
  | [], node => f node
  | name :: names, node => { node with children := node.children ++ [descend f names ⟨name, [], []⟩] }

mutual

def Statement.eval : Statement → Node Bytes → Node Bytes
  | .value name subs v, root => root.enter name (Node.descend (fun node => { node with value := v }) subs)
  | .block name subs body, root => root.enter name (Node.descend (evalAll body) subs)

def evalAll : List Statement → Node Bytes → Node Bytes
  | [], root => root
  | s :: ss, root => evalAll ss (s.eval root)

end

/-! ### The texts of a statement -/

inductive Blanks : Bytes → Prop where
  | nil : Blanks []
  | space {c : UInt8} {s : Bytes} : isspace c = true → Blanks s → Blanks (c :: s)
  | comment {text s : Bytes} : 10 ∉ text → 0 ∉ text → Blanks s → Blanks (35 :: (text ++ 10 :: s))

/-- What may stand behind a name: a `#` there would belong to it. -/
inductive Gap : Bytes → Prop where
  | nil : Gap []
  | space {c : UInt8} {s : Bytes} : isspace c = true → Blanks s → Gap (c :: s)

def isFirst (c : UInt8) : Bool :=
  isWord c && c ≠ 35 && c ≠ 0

inductive IsName : Bytes → Prop where
  | mk {c : UInt8} {s : Bytes} : isFirst c = true → (∀ d ∈ s, isWord d = true ∧ d ≠ 0) → IsName (c :: s)

inductive IsValue : Bytes → Prop where
  | mk {c : UInt8} {s : Bytes} : isFirst c = true → 10 ∉ s → 0 ∉ s → s.rdropWhile isspace = s → IsValue (c :: s)

inductive WritesSubs : List Bytes → Bytes → Prop where
  | nil : WritesSubs [] []
  | cons {gap blanks name : Bytes} {names : List Bytes} {text : Bytes} : Gap gap → Blanks blanks → IsName name
      → WritesSubs names text → WritesSubs (name :: names) (gap ++ 46 :: (blanks ++ (name ++ text)))

mutual

inductive Writes : Statement → Bytes → Prop where
  | value {name : Bytes} {subs : List Bytes} {path gap v trail : Bytes} : IsName name → WritesSubs subs path → Gap gap
      → gap ≠ [] → IsValue v → (∀ c ∈ trail, isspace c = true ∧ c ≠ 10)
      → Writes (.value name subs v) (name ++ (path ++ (gap ++ (v ++ (trail ++ [10])))))
  | block {name : Bytes} {subs : List Bytes} {path gap text close : Bytes} {body : List Statement} : IsName name
      → WritesSubs subs path → Gap gap → WritesAll body text → Blanks close
      → Writes (.block name subs body) (name ++ (path ++ (gap ++ 123 :: (text ++ (close ++ [125])))))

inductive WritesAll : List Statement → Bytes → Prop where
  | nil : WritesAll [] []
  | cons {blanks text rest : Bytes} {s : Statement} {ss : List Statement} : Blanks blanks → Writes s text
      → WritesAll ss rest → WritesAll (s :: ss) (blanks ++ (text ++ rest))

end

/--
What ends a text: blanks, of which the last may be a comment without its newline, or a mark where a name should
stand, with anything behind it.
-/
inductive Ending : Bytes → Prop where
  | blanks {s : Bytes} : Blanks s → Ending s
  | comment {s text : Bytes} : Blanks s → 10 ∉ text → Ending (s ++ 35 :: text)
  | mark {s : Bytes} {c : UInt8} (rest : Bytes) : Blanks s → (markOf c).isSome = true → Ending (s ++ c :: rest)

/-- Besides, a value may stand at the very end, without a newline; the blanks behind it then belong to it. -/
inductive Trailing : List Statement → Bytes → Prop where
  | ending {s : Bytes} : Ending s → Trailing [] s
  | value {blanks name path gap s : Bytes} {subs : List Bytes} {c : UInt8} : Blanks blanks → IsName name
      → WritesSubs subs path → Gap gap → gap ≠ [] → isFirst c = true → 10 ∉ s
      → Trailing [.value name subs (c :: s)] (blanks ++ (name ++ (path ++ (gap ++ c :: s))))

/-! ### The tokens of the texts -/

theorem isFirst_spec {c : UInt8} (h : isFirst c = true)
    : isWord c = true ∧ isspace c = false ∧ markOf c = none ∧ c ≠ 35 ∧ c ≠ 0 := by
  simp only [isFirst, isWord, Bool.and_eq_true, Bool.not_eq_true', Bool.or_eq_false_iff, decide_eq_true_eq,
    Option.isSome_eq_false_iff, Option.isNone_iff_eq_none] at h ⊢
  exact ⟨h.1.1, h.1.1.1, h.1.1.2, h.1.2, h.2⟩

theorem markOf_spec {c : UInt8} {m : Mark} (h : markOf c = some m) : isspace c = false ∧ c ≠ 35 ∧ isWord c = false := by
  have hall : ∀ n : Fin 256, (markOf (UInt8.ofFin n)).isSome
      → isspace (UInt8.ofFin n) = false ∧ UInt8.ofFin n ≠ 35 ∧ isWord (UInt8.ofFin n) = false := by
    decide +kernel
  exact hall c.toFin (Option.isSome_of_eq_some h)

theorem skipBlanks_comment {text : Bytes} (h : 10 ∉ text) (s : Bytes)
    : skipBlanks true (text ++ 10 :: s) = skipBlanks false s := by
  induction text with
  | nil => rfl
  | cons c text ih =>
    rw [List.mem_cons, not_or] at h
    rw [List.cons_append, skipBlanks, decide_eq_true (Ne.symm h.1)]
    exact ih h.2

theorem skipBlanks_last {text : Bytes} (h : 10 ∉ text) : skipBlanks true text = [] := by
  induction text with
  | nil => rfl
  | cons c text ih =>
    rw [List.mem_cons, not_or] at h
    rw [skipBlanks, decide_eq_true (Ne.symm h.1)]
    exact ih h.2

theorem Blanks.skipBlanks_append {blanks : Bytes} (h : Blanks blanks) (s : Bytes)
    : skipBlanks false (blanks ++ s) = skipBlanks false s := by
  induction h with
  | nil => rfl
  | space hc _ ih => rw [List.cons_append, skipBlanks, if_pos hc, ih]
  | comment htext _ _ ih =>
    rw [List.cons_append, skipBlanks, if_neg (by decide), if_pos rfl, List.append_assoc, List.cons_append,
      skipBlanks_comment htext, ih]

theorem skipBlanks_token {c : UInt8} (hspace : isspace c = false) (hcomment : c ≠ 35) (s : Bytes)
    : skipBlanks false (c :: s) = c :: s := by
  rw [skipBlanks, hspace, if_neg Bool.false_ne_true, if_neg hcomment]

/-- The lexer stands before `s`, of which it may have taken the first byte when it cut off a name there. -/
inductive Before : Input → Bytes → Prop where
  | plain {s : Bytes} : Before ⟨none, s⟩ s
  | space {c : UInt8} {s : Bytes} : isspace c = true → Before ⟨none, s⟩ (c :: s)
  | mark {c : UInt8} {m : Mark} {s : Bytes} : markOf c = some m → Before ⟨some m, s⟩ (c :: s)

theorem Blanks.tail {c : UInt8} {s : Bytes} (h : Blanks (c :: s)) (hc : isspace c = true) : Blanks s := by
  cases h with
  | space _ hs => exact hs
  | comment => exact absurd hc (by decide)

theorem Blanks.head {c : UInt8} {s : Bytes} (h : Blanks (c :: s)) : isspace c = true ∨ c = 35 := by
  cases h with
  | space hc _ => exact .inl hc
  | comment => exact .inr rfl

theorem Gap.blanks {gap : Bytes} (h : Gap gap) : Blanks gap := by
  cases h with
  | nil => exact .nil
  | space hc hs => exact .space hc hs

theorem Before.skipBlanks_rest {inp : Input} {blanks s : Bytes} {c : UInt8} (h : Before inp (blanks ++ c :: s))
    (hblanks : Blanks blanks) (hspace : isspace c = false) (hcomment : c ≠ 35)
    : (inp.next = none ∧ skipBlanks false inp.rest = c :: s)
      ∨ ∃ m, markOf c = some m ∧ inp = ⟨some m, s⟩ := by
  generalize htext : blanks ++ c :: s = text at h
  cases h with
  | plain =>
    left
    rw [← htext, hblanks.skipBlanks_append, skipBlanks_token hspace hcomment]
    exact ⟨rfl, rfl⟩
  | @space d s' hd =>
    cases blanks with
    | nil =>
      injection htext with hc
      rw [hc, hd] at hspace
      contradiction
    | cons b blanks =>
      injection htext with hb hs
      subst hb hs
      left
      rw [List.append_eq, (hblanks.tail hd).skipBlanks_append, skipBlanks_token hspace hcomment]
      exact ⟨rfl, rfl⟩
  | @mark d m s' hd =>
    cases blanks with
    | nil =>
      injection htext with hc hs
      subst hc hs
      exact .inr ⟨m, hd, rfl⟩
    | cons b blanks =>
      injection htext with hb
      subst hb
      obtain ⟨hns, hnc, _⟩ := markOf_spec hd
      cases hblanks.head with
      | inl h => rw [hns] at h; contradiction
      | inr h => contradiction

theorem Before.lex_mark {inp : Input} {blanks s : Bytes} {c : UInt8} {m : Mark} (h : Before inp (blanks ++ c :: s))
    (hblanks : Blanks blanks) (hm : markOf c = some m) (value : Bool) : inp.lex value = (.mark m, ⟨none, s⟩) := by
  obtain ⟨hspace, hcomment, _⟩ := markOf_spec hm
  unfold Input.lex
  cases h.skipBlanks_rest hblanks hspace hcomment with
  | inl h => simp only [h.1, h.2, hm]
  | inr h =>
    obtain ⟨m', hm', hinp⟩ := h
    rw [hm] at hm'
    injection hm' with hm'
    subst hm' hinp
    rfl

theorem Before.lex_text {inp : Input} {blanks s : Bytes} {c : UInt8} (h : Before inp (blanks ++ c :: s))
    (hblanks : Blanks blanks) (hc : isFirst c = true) (value : Bool)
    : inp.lex value = (.text (c :: (if value then cutValue s else cutText s).1),
        (if value then cutValue s else cutText s).2) := by
  obtain ⟨_, hspace, hm, hcomment, _⟩ := isFirst_spec hc
  unfold Input.lex
  cases h.skipBlanks_rest hblanks hspace hcomment with
  | inl h => simp only [h.1, h.2, hm]
  | inr h =>
    obtain ⟨m, hm', _⟩ := h
    rw [hm] at hm'
    contradiction

theorem before_cut {c : UInt8} (hc : isWord c = false) (rest : Bytes) : Before ⟨markOf c, rest⟩ (c :: rest) := by
  cases hm : markOf c with
  | none =>
    apply Before.space
    simpa [isWord, hm] using hc
  | some m => exact .mark hm

theorem Before.lex_name {inp : Input} {blanks name rest : Bytes} {c : UInt8}
    (h : Before inp (blanks ++ (name ++ c :: rest))) (hblanks : Blanks blanks) (hname : IsName name)
    (hc : isWord c = false) : inp.lex false = (.text name, ⟨markOf c, rest⟩) := by
  cases hname with
  | mk hfirst hword =>
    rw [h.lex_text hblanks hfirst, List.append_eq, if_neg Bool.false_ne_true,
      cutText_word (fun d hd => (hword d hd).1) hc]

theorem rdropWhile_append {p : UInt8 → Bool} (s : Bytes) {trail : Bytes} (h : ∀ c ∈ trail, p c = true)
    : (s ++ trail).rdropWhile p = s.rdropWhile p := by
  unfold List.rdropWhile
  rw [List.reverse_append, List.dropWhile_append_of_pos]
  intro c hc
  exact h c (List.mem_reverse.mp hc)

theorem Before.lex_value {inp : Input} {blanks v trail rest : Bytes}
    (h : Before inp (blanks ++ (v ++ (trail ++ 10 :: rest)))) (hblanks : Blanks blanks) (hv : IsValue v)
    (htrail : ∀ c ∈ trail, isspace c = true ∧ c ≠ 10) : inp.lex true = (.text v, ⟨none, rest⟩) := by
  cases hv with
  | @mk c s hfirst hline _ hlast =>
    have hline' : 10 ∉ s ++ trail := by
      rw [List.mem_append, not_or]
      exact ⟨hline, fun hmem => (htrail 10 hmem).2 rfl⟩
    rw [h.lex_text hblanks hfirst, List.append_eq, ← List.append_assoc, if_pos rfl, cutValue_line hline']
    rw [rdropWhile_append s fun c hc => (htrail c hc).1, hlast]

/-! ### The parser on the texts -/

def CutsName (s : Bytes) : Prop :=
  ∃ c rest, s = c :: rest ∧ isWord c = false

theorem CutsName.of_mark {c : UInt8} {m : Mark} (h : markOf c = some m) (rest : Bytes) : CutsName (c :: rest) :=
  ⟨c, rest, rfl, (markOf_spec h).2.2⟩

theorem isWord_of_isspace {c : UInt8} (h : isspace c = true) : isWord c = false := by
  simp [isWord, h]

theorem Gap.cutsName {gap rest : Bytes} (h : Gap gap) (hrest : gap = [] → CutsName rest) : CutsName (gap ++ rest) := by
  cases h with
  | nil => exact hrest rfl
  | space hc => exact ⟨_, _, rfl, isWord_of_isspace hc⟩

theorem WritesSubs.cutsName {subs : List Bytes} {text rest : Bytes} (h : WritesSubs subs text)
    (hrest : CutsName rest) : CutsName (text ++ rest) := by
  cases h with
  | nil => exact hrest
  | cons hgap =>
    rw [List.append_assoc]
    apply hgap.cutsName
    intro _
    exact .of_mark rfl _

theorem Before.lex_name_cut {inp : Input} {blanks name rest : Bytes} (h : Before inp (blanks ++ (name ++ rest)))
    (hblanks : Blanks blanks) (hname : IsName name) (hrest : CutsName rest)
    : ∃ inp', inp.lex false = (.text name, inp') ∧ Before inp' rest := by
  obtain ⟨c, rest, rfl, hc⟩ := hrest
  exact ⟨_, h.lex_name hblanks hname hc, before_cut hc rest⟩

theorem lexer_lex (inp : Input) (value : Bool) : Input.lexer.lex inp value = some (inp.lex value) :=
  rfl

theorem target_eq (inp : Input) (name : Bytes) (root : Node Bytes)
    : target Input.lexer inp name root = root.place name := by
  have hlast : splitLast (fun node => Input.lexer.string inp node.name = Input.lexer.string inp name) root.children
      = splitLast (fun node => node.name = name) root.children := rfl
  unfold target Node.place
  rw [hlast]
  cases splitLast (fun node => node.name = name) root.children with
  | none => rfl
  | some parts =>
    obtain ⟨before, node, behind⟩ := parts
    dsimp only
    by_cases hvalue : node.value = []
    . rw [if_pos hvalue, if_neg (by simp [hvalue, Input.lexer])]
    . rw [if_neg hvalue, if_pos (by simp [hvalue, Input.lexer])]
      rfl

theorem parseExpr_of_parseTail {fuel : Nat} {inp out : Input} {f : Node Bytes → Node Bytes}
    (h : ∀ node, parseTail Input.lexer fuel inp node = some (true, out, f node)) (name : Bytes) (root : Node Bytes)
    : parseExpr Input.lexer (fuel + 1) inp name root = some (true, out, root.enter name f) := by
  rw [parseExpr, target_eq]
  simp only [h, Option.bind_eq_bind, Option.bind_some]
  rfl

theorem WritesSubs.parseTail {subs : List Bytes} {text rest : Bytes} (h : WritesSubs subs text) (hrest : CutsName rest)
    {fuel : Nat} {out : Input} {f : Node Bytes → Node Bytes}
    (hend : ∀ inp node, Before inp rest → parseTail Input.lexer fuel inp node = some (true, out, f node))
    : ∀ inp node, Before inp (text ++ rest)
        → parseTail Input.lexer (fuel + subs.length) inp node = some (true, out, Node.descend f subs node) := by
  induction h with
  | nil => exact hend
  | @cons gap blanks name names text hgap hblanks hname hsubs ih =>
    intro inp node hinp
    rw [List.append_assoc, List.cons_append, List.append_assoc, List.append_assoc] at hinp
    have hdot : inp.lex true = (.mark .dot, _) := hinp.lex_mark hgap.blanks rfl true
    obtain ⟨inp', hlex, hinp'⟩ := Before.plain.lex_name_cut hblanks hname (hsubs.cutsName hrest)
    rw [List.length_cons, ← Nat.add_assoc, ConfigUtils.parseTail]
    simp only [lexer_lex, hdot, hlex, Option.bind_eq_bind, Option.bind_some, ih _ _ hinp']
    rfl

theorem parseTail_value {gap v trail rest : Bytes} (hgap : Blanks gap) (hv : IsValue v)
    (htrail : ∀ c ∈ trail, isspace c = true ∧ c ≠ 10) (fuel : Nat) {inp : Input} (node : Node Bytes)
    (hinp : Before inp (gap ++ (v ++ (trail ++ 10 :: rest))))
    : parseTail Input.lexer (fuel + 1) inp node = some (true, ⟨none, rest⟩, { node with value := v }) := by
  rw [parseTail]
  simp only [lexer_lex, hinp.lex_value hgap hv htrail, Option.bind_eq_bind, Option.bind_some]
  rfl

theorem parseTail_block {gap text : Bytes} (hgap : Blanks gap) (fuel : Nat) {inp : Input} (node : Node Bytes)
    (hinp : Before inp (gap ++ 123 :: text))
    : parseTail Input.lexer (fuel + 1) inp node = parseBlock Input.lexer fuel ⟨none, text⟩ node := by
  have hlex : inp.lex true = (.mark .obrace, ⟨none, text⟩) := hinp.lex_mark hgap rfl true
  rw [parseTail]
  simp only [lexer_lex, hlex, Option.bind_eq_bind, Option.bind_some]

theorem WritesSubs.length_le {subs : List Bytes} {text : Bytes} (h : WritesSubs subs text)
    : subs.length ≤ text.length := by
  induction h with
  | nil => exact Nat.le_refl _
  | cons _ _ _ _ ih =>
    simp only [List.length_cons, List.length_append]
    omega

theorem IsName.length_pos {name : Bytes} (h : IsName name) : 0 < name.length := by
  cases h
  exact Nat.succ_pos _

/-- A statement is parsed, whatever stands before and behind it; its length is enough fuel. -/
def ParsesTo (s : Statement) (text : Bytes) : Prop :=
  0 < text.length ∧ ∀ fuel, text.length ≤ fuel → ∀ blanks rest root, Blanks blanks →
    ∃ name inp, (Input.mk none (blanks ++ (text ++ rest))).lex false = (.text name, inp)
      ∧ parseExpr Input.lexer fuel inp name root = some (true, ⟨none, rest⟩, s.eval root)

def BlockParsesTo (ss : List Statement) (text : Bytes) : Prop :=
  ∀ fuel, text.length < fuel → ∀ close rest node, Blanks close →
    parseBlock Input.lexer fuel ⟨none, text ++ (close ++ 125 :: rest)⟩ node = some (true, ⟨none, rest⟩, evalAll ss node)

theorem parsesTo_of_parseTail {s : Statement} {name path tail : Bytes} {subs : List Bytes}
    {f : Node Bytes → Node Bytes} (hname : IsName name) (hpath : WritesSubs subs path)
    (heval : ∀ root, s.eval root = root.enter name (Node.descend f subs))
    (hcut : ∀ rest, CutsName (tail ++ rest))
    (htail : ∀ fuel, tail.length ≤ fuel → ∀ rest inp node, Before inp (tail ++ rest)
      → parseTail Input.lexer fuel inp node = some (true, ⟨none, rest⟩, f node))
    : ParsesTo s (name ++ (path ++ tail)) := by
  have hpos := hname.length_pos
  have hsubs := hpath.length_le
  unfold ParsesTo
  simp only [List.length_append, List.append_assoc]
  refine ⟨by omega, ?_⟩
  intro fuel hfuel blanks rest root hblanks
  obtain ⟨inp, hlex, hinp⟩ := Before.plain.lex_name_cut hblanks hname (hpath.cutsName (hcut rest))
  refine ⟨name, inp, hlex, ?_⟩
  obtain ⟨fuel', rfl⟩ : ∃ fuel', fuel = fuel' + subs.length + 1 := ⟨fuel - subs.length - 1, by omega⟩
  rw [heval]
  apply parseExpr_of_parseTail
  intro node
  apply hpath.parseTail (hcut rest) _ inp node hinp
  intro inp node hinp
  exact htail fuel' (by omega) rest inp node hinp

theorem parsesTo_value {name path gap v trail : Bytes} {subs : List Bytes} (hname : IsName name)
    (hpath : WritesSubs subs path) (hgap : Gap gap) (hne : gap ≠ []) (hv : IsValue v)
    (htrail : ∀ c ∈ trail, isspace c = true ∧ c ≠ 10)
    : ParsesTo (.value name subs v) (name ++ (path ++ (gap ++ (v ++ (trail ++ [10]))))) := by
  apply parsesTo_of_parseTail hname hpath
  . intro root
    rw [Statement.eval]
  . intro rest
    rw [List.append_assoc]
    exact hgap.cutsName fun h => absurd h hne
  . intro fuel hfuel rest inp node hinp
    obtain ⟨fuel', rfl⟩ : ∃ fuel', fuel = fuel' + 1 := by
      simp only [List.length_append, List.length_singleton] at hfuel
      exact ⟨fuel - 1, by omega⟩
    simp only [List.append_assoc, List.cons_append, List.nil_append] at hinp
    exact parseTail_value hgap.blanks hv htrail fuel' node hinp

theorem parsesTo_block {name path gap text close : Bytes} {subs : List Bytes} {body : List Statement}
    (hname : IsName name) (hpath : WritesSubs subs path) (hgap : Gap gap) (hbody : BlockParsesTo body text)
    (hclose : Blanks close)
    : ParsesTo (.block name subs body) (name ++ (path ++ (gap ++ 123 :: (text ++ (close ++ [125]))))) := by
  apply parsesTo_of_parseTail hname hpath
  . intro root
    rw [Statement.eval]
  . intro rest
    rw [List.append_assoc]
    exact hgap.cutsName fun _ => .of_mark rfl _
  . intro fuel hfuel rest inp node hinp
    simp only [List.length_append, List.length_cons, List.length_nil] at hfuel
    obtain ⟨fuel', rfl⟩ : ∃ fuel', fuel = fuel' + 1 := ⟨fuel - 1, by omega⟩
    simp only [List.append_assoc, List.cons_append, List.nil_append] at hinp
    rw [parseTail_block hgap.blanks fuel' node hinp]
    exact hbody fuel' (by omega) close rest node hclose

theorem blockParsesTo_nil : BlockParsesTo [] [] := by
  intro fuel hfuel close rest node hclose
  obtain ⟨fuel', rfl⟩ : ∃ fuel', fuel = fuel' + 1 := ⟨fuel - 1, by simp only [List.length_nil] at hfuel; omega⟩
  have hlex : (Input.mk none (close ++ 125 :: rest)).lex false = (.mark .cbrace, ⟨none, rest⟩) :=
    Before.plain.lex_mark hclose rfl false
  rw [List.nil_append, parseBlock, evalAll]
  simp only [lexer_lex, hlex, Option.bind_eq_bind, Option.bind_some]
  rfl

theorem blockParsesTo_cons {blanks text rest : Bytes} {s : Statement} {ss : List Statement} (hblanks : Blanks blanks)
    (hs : ParsesTo s text) (hss : BlockParsesTo ss rest) : BlockParsesTo (s :: ss) (blanks ++ (text ++ rest)) := by
  intro fuel hfuel close rest' node hclose
  obtain ⟨hpos, hs⟩ := hs
  simp only [List.length_append] at hfuel
  obtain ⟨fuel', rfl⟩ : ∃ fuel', fuel = fuel' + 1 := ⟨fuel - 1, by omega⟩
  simp only [List.append_assoc]
  obtain ⟨name, inp, hlex, hparse⟩ := hs fuel' (by omega) blanks (rest ++ (close ++ 125 :: rest')) node hblanks
  rw [parseBlock, evalAll]
  simp only [lexer_lex, hlex, hparse, Option.bind_eq_bind, Option.bind_some]
  exact hss fuel' (by omega) close rest' _ hclose

mutual

theorem Writes.parsesTo {s : Statement} {text : Bytes} (h : Writes s text) : ParsesTo s text :=
  match h with
  | .value hname hpath hgap hne hv htrail => parsesTo_value hname hpath hgap hne hv htrail
  | .block hname hpath hgap hbody hclose => parsesTo_block hname hpath hgap hbody.blockParsesTo hclose

theorem WritesAll.blockParsesTo {ss : List Statement} {text : Bytes} (h : WritesAll ss text) : BlockParsesTo ss text :=
  match h with
  | .nil => blockParsesTo_nil
  | .cons hblanks hs hss => blockParsesTo_cons hblanks hs.parsesTo hss.blockParsesTo

end

theorem Ending.lex {rest : Bytes} (h : Ending rest)
    : ∀ inp text, (Input.mk none rest).lex false ≠ (.text text, inp) := by
  intro inp text
  cases h with
  | blanks h =>
    have hskip : skipBlanks false rest = [] := by
      rw [← List.append_nil rest, h.skipBlanks_append, skipBlanks]
    simp [Input.lex, hskip]
  | @comment s text h htext =>
    have hskip : skipBlanks false (s ++ 35 :: text) = [] := by
      rw [h.skipBlanks_append, skipBlanks, if_neg (by decide), if_pos rfl, skipBlanks_last htext]
    simp [Input.lex, hskip]
  | @mark s c rest h hm =>
    obtain ⟨m, hm⟩ := Option.isSome_iff_exists.mp hm
    rw [Before.plain.lex_mark h hm false]
    simp

theorem parseTail_last {gap s : Bytes} {c : UInt8} (hgap : Blanks gap) (hc : isFirst c = true) (hline : 10 ∉ s)
    (fuel : Nat) {inp : Input} (node : Node Bytes) (hinp : Before inp (gap ++ c :: s))
    : parseTail Input.lexer (fuel + 1) inp node = some (true, ⟨none, []⟩, { node with value := c :: s }) := by
  have hlex : inp.lex true = (.text (c :: s), ⟨none, []⟩) := by
    rw [hinp.lex_text hgap hc, if_pos rfl, cutValue_last hline]
  rw [parseTail]
  simp only [lexer_lex, hlex, Option.bind_eq_bind, Option.bind_some]
  rfl

theorem Ending.parseAll {rest : Bytes} (h : Ending rest) (fuel : Nat) (root : Node Bytes)
    : ∃ inp, parseAll Input.lexer (fuel + 1) ⟨none, rest⟩ root = some (inp, root) := by
  rw [ConfigUtils.parseAll]
  simp only [lexer_lex, Option.bind_eq_bind, Option.bind_some]
  split
  next text inp hlex => exact absurd hlex (h.lex inp text)
  next inp _ _ => exact ⟨inp, rfl⟩

theorem Trailing.parseAll {last : List Statement} {rest : Bytes} (h : Trailing last rest) {fuel : Nat}
    (hfuel : rest.length < fuel) (root : Node Bytes)
    : ∃ inp, parseAll Input.lexer fuel ⟨none, rest⟩ root = some (inp, evalAll last root) := by
  cases h with
  | ending hrest =>
    obtain ⟨fuel', rfl⟩ : ∃ fuel', fuel = fuel' + 1 := ⟨fuel - 1, by omega⟩
    rw [evalAll]
    exact hrest.parseAll fuel' root
  | @value blanks name path gap s subs c hblanks hname hpath hgap hne hc hline =>
    have hpos := hname.length_pos
    have hsubs := hpath.length_le
    have hgapPos := List.length_pos_of_ne_nil hne
    simp only [List.length_append, List.length_cons] at hfuel
    obtain ⟨fuel', rfl⟩ : ∃ fuel', fuel = fuel' + 1 + subs.length + 1 + 1 := ⟨fuel - subs.length - 3, by omega⟩
    have hcut : CutsName (gap ++ c :: s) := hgap.cutsName fun h => absurd h hne
    obtain ⟨inp, hlex, hinp⟩ := Before.plain.lex_name_cut hblanks hname (hpath.cutsName hcut)
    have hparse := parseExpr_of_parseTail (fun node => hpath.parseTail hcut
      (fun inp node => parseTail_last hgap.blanks hc hline fuel' node) inp node hinp) name root
    rw [ConfigUtils.parseAll, evalAll, evalAll, Statement.eval]
    simp only [lexer_lex, hlex, hparse, Option.bind_eq_bind, Option.bind_some]
    exact (Ending.blanks .nil).parseAll _ _

theorem WritesAll.parseAll {ss last : List Statement} {text rest : Bytes} (h : WritesAll ss text)
    (hrest : Trailing last rest)
    : ∀ fuel, text.length + rest.length < fuel → ∀ root, ∃ inp,
        parseAll Input.lexer fuel ⟨none, text ++ rest⟩ root = some (inp, evalAll (ss ++ last) root) := by
  induction ss generalizing text with
  | nil =>
    intro fuel hfuel root
    cases h
    rw [List.nil_append, List.nil_append]
    exact hrest.parseAll (by simpa using hfuel) root
  | cons s ss ih =>
    intro fuel hfuel root
    cases h with
    | @cons blanks text more _ _ hblanks hs hss =>
      obtain ⟨hpos, hs⟩ := hs.parsesTo
      simp only [List.length_append] at hfuel
      obtain ⟨fuel', rfl⟩ : ∃ fuel', fuel = fuel' + 1 := ⟨fuel - 1, by omega⟩
      simp only [List.append_assoc]
      obtain ⟨name, inp, hlex, hparse⟩ := hs fuel' (by omega) blanks (more ++ rest) root hblanks
      rw [ConfigUtils.parseAll, List.cons_append, evalAll]
      simp only [lexer_lex, hlex, hparse, Option.bind_eq_bind, Option.bind_some]
      exact ih hss fuel' (by omega) _

/-! ### The strings in the memory -/

theorem Blanks.zero_not_mem {s : Bytes} (h : Blanks s) : 0 ∉ s := by
  induction h with
  | nil => exact List.not_mem_nil
  | space hc _ ih =>
    rw [List.mem_cons, not_or]
    refine ⟨?_, ih⟩
    intro h0
    rw [← h0] at hc
    contradiction
  | comment _ h0 _ ih => simp [h0, ih]

theorem IsName.zero_not_mem {name : Bytes} (h : IsName name) : 0 ∉ name := by
  cases h with
  | mk hfirst hword =>
    rw [List.mem_cons, not_or]
    exact ⟨(isFirst_spec hfirst).2.2.2.2.symm, fun h0 => (hword 0 h0).2 rfl⟩

theorem IsValue.zero_not_mem {v : Bytes} (h : IsValue v) : 0 ∉ v := by
  cases h with
  | mk hfirst _ h0 _ =>
    rw [List.mem_cons, not_or]
    exact ⟨(isFirst_spec hfirst).2.2.2.2.symm, h0⟩

theorem WritesSubs.zero_not_mem {subs : List Bytes} {text : Bytes} (h : WritesSubs subs text) : 0 ∉ text := by
  induction h with
  | nil => exact List.not_mem_nil
  | cons hgap hblanks hname _ ih =>
    simp [hgap.blanks.zero_not_mem, hblanks.zero_not_mem, hname.zero_not_mem, ih]

mutual

theorem Writes.zero_not_mem {s : Statement} {text : Bytes} (h : Writes s text) : 0 ∉ text :=
  match h with
  | @Writes.value _ _ _ _ _ trail hname hpath hgap _ hv htrail => by
    have htrail0 : 0 ∉ trail := fun h0 => absurd (htrail 0 h0).1 (by decide)
    simp [hname.zero_not_mem, hpath.zero_not_mem, hgap.blanks.zero_not_mem, hv.zero_not_mem, htrail0]
  | .block hname hpath hgap hbody hclose => by
    simp [hname.zero_not_mem, hpath.zero_not_mem, hgap.blanks.zero_not_mem, hbody.zero_not_mem, hclose.zero_not_mem]

theorem WritesAll.zero_not_mem {ss : List Statement} {text : Bytes} (h : WritesAll ss text) : 0 ∉ text :=
  match h with
  | .nil => List.not_mem_nil
  | .cons hblanks hs hss => by
    simp [hblanks.zero_not_mem, hs.zero_not_mem, hss.zero_not_mem]

end

theorem parse_writesAll {ss last : List Statement} {text rest : Bytes} (h : WritesAll ss text)
    (hrest : Trailing last rest) : parse (text ++ rest) = some ((evalAll (ss ++ last) ⟨[], [], []⟩).read id) := by
  obtain ⟨inp, hparse⟩ := h.parseAll hrest (2 * (text ++ rest).length + 1)
    (by rw [List.length_append]; omega) ⟨[], [], []⟩
  rw [parse, hparse]
  rfl

/-! ### A text for every tree -/

def isName : Bytes → Bool
  | [] => false
  | c :: s => isFirst c && s.all fun d => isWord d && d ≠ 0

def isValue : Bytes → Bool
  | [] => false
  | c :: s => isFirst c && !s.contains 10 && !s.contains 0 && s.rdropWhile isspace == s

theorem isName_iff (name : Bytes) : isName name = true ↔ IsName name := by
  constructor
  . intro h
    cases name with
    | nil => cases h
    | cons c s =>
      simp only [isName, Bool.and_eq_true, List.all_eq_true, decide_eq_true_eq] at h
      exact .mk h.1 h.2
  . intro h
    cases h with
    | mk hfirst hword =>
      simp only [isName, Bool.and_eq_true, List.all_eq_true, decide_eq_true_eq]
      exact ⟨hfirst, hword⟩

theorem isValue_iff (v : Bytes) : isValue v = true ↔ IsValue v := by
  constructor
  . intro h
    cases v with
    | nil => cases h
    | cons c s =>
      simp only [isValue, Bool.and_eq_true, Bool.not_eq_true', List.contains_eq_mem, decide_eq_false_iff_not,
        beq_iff_eq] at h
      exact .mk h.1.1.1 h.1.1.2 h.1.2 h.2
  . intro h
    cases h with
    | mk hfirst hline hzero hlast =>
      simp only [isValue, Bool.and_eq_true, Bool.not_eq_true', List.contains_eq_mem, decide_eq_false_iff_not,
        beq_iff_eq]
      exact ⟨⟨⟨hfirst, hline⟩, hzero⟩, hlast⟩

mutual

def Statement.valid : Statement → Bool
  | .value name subs v => isName name && subs.all isName && isValue v
  | .block name subs body => isName name && subs.all isName && validAll body

def validAll : List Statement → Bool
  | [] => true
  | s :: ss => s.valid && validAll ss

end

def printSubs (subs : List Bytes) : Bytes :=
  subs.flatMap (46 :: ·)

mutual

def Statement.print : Statement → Bytes
  | .value name subs v => name ++ (printSubs subs ++ ([32] ++ (v ++ ([] ++ [10]))))
  | .block name subs body => name ++ (printSubs subs ++ ([] ++ 123 :: (printAll body ++ ([] ++ [125]))))

def printAll : List Statement → Bytes
  | [] => []
  | s :: ss => [] ++ (s.print ++ printAll ss)

end

theorem writesSubs_print {subs : List Bytes} (h : subs.all isName = true) : WritesSubs subs (printSubs subs) := by
  induction subs with
  | nil => exact .nil
  | cons name subs ih =>
    rw [List.all_cons, Bool.and_eq_true] at h
    exact .cons .nil .nil ((isName_iff name).mp h.1) (ih h.2)

mutual

theorem Statement.writes_print (s : Statement) (h : s.valid = true) : Writes s s.print := by
  cases s with
  | value name subs v =>
    rw [Statement.valid, Bool.and_eq_true, Bool.and_eq_true, isName_iff, isValue_iff] at h
    rw [Statement.print]
    exact .value h.1.1 (writesSubs_print h.1.2) (.space (by decide) .nil) (by simp) h.2 (by simp)
  | block name subs body =>
    rw [Statement.valid, Bool.and_eq_true, Bool.and_eq_true, isName_iff] at h
    rw [Statement.print]
    exact .block h.1.1 (writesSubs_print h.1.2) .nil (writesAll_printAll body h.2) .nil

theorem writesAll_printAll (ss : List Statement) (h : validAll ss = true) : WritesAll ss (printAll ss) := by
  cases ss with
  | nil =>
    rw [printAll]
    exact .nil
  | cons s ss =>
    rw [validAll, Bool.and_eq_true] at h
    rw [printAll]
    exact .cons .nil (s.writes_print h.1) (writesAll_printAll ss h.2)

end

/--
What a file says does not depend on its layout, and neither an error later on nor what stands behind a zero changes
what has been said before it.
-/
theorem configLoadFile_writesAll {ss last : List Statement} {text rest : Bytes} (h : WritesAll ss text)
    (hrest : Trailing last (cstr rest))
    : configLoadFile (some (text ++ rest)) true = some ((evalAll (ss ++ last) ⟨[], [], []⟩).read id) := by
  rw [configLoadFile_eq_parse, cstr_append h.zero_not_mem, parse_writesAll h hrest]

theorem configLoadFile_writesAll_device
    : configLoadFile (some (printAll [.value (str "device") [str "path"] (str "/dev/sda"),
          .block (str "device") [] [.value (str "scheme") [] (str "mbr")]] ++ str " \x7d x y\n")) true
        = some ((evalAll [.value (str "device") [str "path"] (str "/dev/sda"),
            .block (str "device") [] [.value (str "scheme") [] (str "mbr")]] ⟨[], [], []⟩).read id)
      ∧ configLoadFile (some (printAll [.value (str "device") [str "path"] (str "/dev/sda")] ++ str "a b ")) true
        = some ((evalAll [.value (str "device") [str "path"] (str "/dev/sda"), .value (str "a") [] (str "b ")]
            ⟨[], [], []⟩).read id) := by
  have hmark : Ending (str " \x7d x y\n") :=
    .mark (str " x y\n") (.space (c := 32) (by decide) .nil) (c := 125) (by decide)
  have hvalue : Trailing [.value (str "a") [] (str "b ")] (str "a b ") :=
    .value .nil (.mk (c := 97) (by decide) (by simp)) .nil (.space (c := 32) (by decide) .nil) (by simp) (c := 98)
      (s := [32]) (by decide) (by decide)
  exact ⟨configLoadFile_writesAll (writesAll_printAll _ (by decide)) (.ending hmark),
    configLoadFile_writesAll (writesAll_printAll _ (by decide)) hvalue⟩

end ConfigUtils
