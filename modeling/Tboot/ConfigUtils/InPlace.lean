import Tboot.ConfigUtils.Fuel

/-!
This module contains the proof that the parser builds the same tree in place as it does from the text itself.
-/

namespace ConfigUtils

namespace Node

variable {τ τ' : Type}

def map (f : τ → τ') : Node τ → Node τ'
  | ⟨name, value, children⟩ => ⟨f name, f value, children.map (map f)⟩

def All (P : τ → Prop) : Node τ → Prop
  | ⟨name, value, children⟩ => P name ∧ P value ∧ ∀ child ∈ children, child.All P

theorem all_iff {P : τ → Prop} {node : Node τ}
    : node.All P ↔ P node.name ∧ P node.value ∧ ∀ child ∈ node.children, child.All P := by
  cases node
  rw [All]

theorem map_eq (f : τ → τ') (node : Node τ)
    : node.map f = ⟨f node.name, f node.value, node.children.map (map f)⟩ := by
  cases node
  rw [map]

theorem All.mono {P Q : τ → Prop} (hPQ : ∀ t, P t → Q t) : {node : Node τ} → node.All P → node.All Q
  | ⟨_, _, _⟩, h => by
    unfold All at h ⊢
    exact ⟨hPQ _ h.1, hPQ _ h.2.1, fun child hchild => (h.2.2 child hchild).mono hPQ⟩

theorem All.map_congr {P : τ → Prop} {f g : τ → τ'} (hfg : ∀ t, P t → f t = g t)
    : {node : Node τ} → node.All P → node.map f = node.map g
  | ⟨_, _, _⟩, h => by
    unfold All at h
    unfold map
    rw [hfg _ h.1, hfg _ h.2.1]
    congr 1
    exact List.map_congr_left fun child hchild => (h.2.2 child hchild).map_congr hfg

theorem read_map (string : τ → Bytes) : (node : Node τ) → (node.map string).read id = node.read string
  | ⟨_, _, children⟩ => by
    unfold map read
    rw [List.map_map]
    congr 1
    exact List.map_congr_left fun child hchild => read_map string child

end Node

theorem splitLast_map {τ τ' : Type} {p : Node τ → Bool} {q : Node τ' → Bool} (f : Node τ → Node τ')
    {nodes : List (Node τ)} (h : ∀ node ∈ nodes, q (f node) = p node)
    : splitLast q (nodes.map f)
        = (splitLast p nodes).map fun (before, node, behind) => (before.map f, f node, behind.map f) := by
  induction nodes with
  | nil => rfl
  | cons node nodes ih =>
    rw [List.map_cons, splitLast, splitLast, ih fun x hx => h x (List.mem_cons_of_mem node hx)]
    cases splitLast p nodes with
    | some found => rfl
    | none =>
      rw [Option.map_none, h node List.mem_cons_self]
      dsimp only
      split
      all_goals rfl

theorem splitLast_append {τ : Type} {p : Node τ → Bool} {nodes before behind : List (Node τ)} {node : Node τ}
    (h : splitLast p nodes = some (before, node, behind)) : nodes = before ++ node :: behind := by
  induction nodes generalizing before with
  | nil => cases h
  | cons first nodes ih =>
    unfold splitLast at h
    split at h
    . next found hfound =>
      cases h
      rw [ih hfound]
      rfl
    . split at h
      . cases h
        rfl
      . cases h

theorem Cstate.Keeps.trans {cs cs' cs'' : Cstate} (h : cs.Keeps cs') (h' : cs'.Keeps cs'') : cs.Keeps cs'' := by
  refine ⟨Nat.le_trans h.le h'.le, ?_⟩
  have htake := congrArg (List.take (cs.data + 1)) h'.take
  have hle := h.le
  rw [List.take_take, List.take_take, Nat.min_eq_left (by omega)] at htake
  rw [htake, h.take]

def Cstate.view (cs : Cstate) (node : Node (Option Nat)) : Node Bytes :=
  node.map (Cstate.lexer.string cs)

theorem Cstate.view_eq (cs : Cstate) (node : Node (Option Nat))
    : cs.view node = ⟨Cstate.lexer.string cs node.name, Cstate.lexer.string cs node.value, node.children.map cs.view⟩ :=
  Node.map_eq _ _

section Keeps

variable {cs cs' : Cstate} (h : cs.Keeps cs')
include h

theorem Cstate.Keeps.live_node {node : Node (Option Nat)} (hnode : node.All cs.Live) : node.All cs'.Live :=
  hnode.mono fun _ ht => (h.live ht).1

theorem Cstate.Keeps.view_node {node : Node (Option Nat)} (hnode : node.All cs.Live)
    : cs'.view node = cs.view node :=
  hnode.map_congr fun _ ht => (h.live ht).2

theorem Cstate.Keeps.view_nodes {nodes : List (Node (Option Nat))} (hnodes : ∀ node ∈ nodes, node.All cs.Live)
    : nodes.map cs'.view = nodes.map cs.view :=
  List.map_congr_left fun node hnode => h.view_node (hnodes node hnode)

end Keeps

theorem lex_both {cs : Cstate} {inp : Input} (h : cs.At inp) (value : Bool)
    : ∃ tok cs' inp', Cstate.lexer.lex cs value = some (tok, cs')
        ∧ Input.lexer.lex inp value = some (tok.map (Cstate.lexer.string cs'), inp')
        ∧ cs'.At inp' ∧ cs.Keeps cs' ∧ ∀ t, tok = .text t → cs'.Live t := by
  obtain ⟨tok, cs', hlex, htok, hat, hkeeps, hlive⟩ := h.lex value
  refine ⟨tok, cs', (inp.lex value).2, hlex, ?_, hat, hkeeps, hlive⟩
  rw [← htok]
  rfl

theorem live_create {cs : Cstate} {text : Option Nat} (h : cs.Live text)
    : (configCreate Cstate.lexer text).All cs.Live :=
  Node.all_iff.mpr ⟨h, trivial, by simp [configCreate]⟩

theorem view_create (cs : Cstate) (text : Option Nat)
    : cs.view (configCreate Cstate.lexer text) = configCreate Input.lexer (Cstate.lexer.string cs text) := by
  rw [Cstate.view_eq]
  rfl

theorem target_both {cs : Cstate} {inp : Input} {text : Option Nat} {root : Node (Option Nat)}
    (htext : cs.Live text) (hroot : root.All cs.Live)
    : ∃ before node behind, target Cstate.lexer cs text root = (before, node, behind)
        ∧ target Input.lexer inp (Cstate.lexer.string cs text) (cs.view root)
            = (before.map cs.view, cs.view node, behind.map cs.view)
        ∧ (∀ node ∈ before, node.All cs.Live) ∧ node.All cs.Live ∧ ∀ node ∈ behind, node.All cs.Live := by
  have hchildren := (Node.all_iff.mp hroot).2.2
  have hnew := live_create htext
  have hview := view_create cs text
  have hsplit : splitLast (fun node => Input.lexer.string inp node.name
      = Input.lexer.string inp (Cstate.lexer.string cs text)) (cs.view root).children
        = (splitLast (fun node => Cstate.lexer.string cs node.name = Cstate.lexer.string cs text)
            root.children).map fun (before, node, behind) =>
              (before.map cs.view, cs.view node, behind.map cs.view) := by
    rw [cs.view_eq root]
    apply splitLast_map
    intro node _
    rw [Cstate.view_eq]
    rfl
  unfold target
  rw [hsplit]
  cases hfound : splitLast (fun node => Cstate.lexer.string cs node.name = Cstate.lexer.string cs text)
      root.children with
  | none =>
    refine ⟨root.children, _, [], rfl, ?_, hchildren, hnew, by simp⟩
    rw [← hview, cs.view_eq root]
    rfl
  | some found =>
    obtain ⟨before, node, behind⟩ := found
    have happend := splitLast_append hfound
    rw [happend, List.forall_mem_append, List.forall_mem_cons] at hchildren
    have hvalue : Input.lexer.string inp (cs.view node).value = Cstate.lexer.string cs node.value := by
      rw [Cstate.view_eq]
      rfl
    dsimp only [Option.map_some]
    rw [hvalue]
    split
    . refine ⟨root.children, _, [], rfl, ?_, ?_, hnew, by simp⟩
      . rw [← hview, cs.view_eq root]
        rfl
      . rw [happend, List.forall_mem_append, List.forall_mem_cons]
        exact hchildren
    . exact ⟨before, node, behind, rfl, rfl, hchildren.1, hchildren.2.1, hchildren.2.2⟩

/-- What the parser returns in place, having begun at `cs`, and what it returns for the text -/
structure Same (cs : Cstate) (a : Bool × Cstate × Node (Option Nat)) (b : Bool × Input × Node Bytes) : Prop where
  ok : a.1 = b.1
  at_ : a.2.1.At b.2.1
  keeps : cs.Keeps a.2.1
  live : a.2.2.All a.2.1.Live
  node : b.2.2 = a.2.1.view a.2.2

theorem Same.after {cs cs' : Cstate} {a : Bool × Cstate × Node (Option Nat)} {b : Bool × Input × Node Bytes}
    (hkeeps : cs.Keeps cs') (h : Same cs' a b) : Same cs a b :=
  ⟨h.ok, h.at_, hkeeps.trans h.keeps, h.live, h.node⟩

structure Sim (fuel : Nat) : Prop where
  expr : ∀ {cs : Cstate} {inp : Input} {text : Option Nat} {root : Node (Option Nat)}, cs.At inp → cs.Live text
    → root.All cs.Live → Option.Rel (Same cs) (parseExpr Cstate.lexer fuel cs text root)
        (parseExpr Input.lexer fuel inp (Cstate.lexer.string cs text) (cs.view root))
  tail : ∀ {cs : Cstate} {inp : Input} {node : Node (Option Nat)}, cs.At inp → node.All cs.Live
    → Option.Rel (Same cs) (parseTail Cstate.lexer fuel cs node) (parseTail Input.lexer fuel inp (cs.view node))
  block : ∀ {cs : Cstate} {inp : Input} {node : Node (Option Nat)}, cs.At inp → node.All cs.Live
    → Option.Rel (Same cs) (parseBlock Cstate.lexer fuel cs node) (parseBlock Input.lexer fuel inp (cs.view node))

section Succ

variable {fuel : Nat} (h : Sim fuel) {cs : Cstate} {inp : Input} (hat : cs.At inp)
include h hat

theorem Sim.succ_expr {text : Option Nat} {root : Node (Option Nat)} (htext : cs.Live text) (hroot : root.All cs.Live)
    : Option.Rel (Same cs) (parseExpr Cstate.lexer (fuel + 1) cs text root)
        (parseExpr Input.lexer (fuel + 1) inp (Cstate.lexer.string cs text) (cs.view root)) := by
  obtain ⟨before, node, behind, htarget, htarget', hbefore, hnode, hbehind⟩ :=
    @target_both cs inp text root htext hroot
  have htail := h.tail hat hnode
  rw [parseExpr, parseExpr, htarget, htarget']
  dsimp only [bind, Option.bind]
  generalize parseTail Cstate.lexer fuel cs node = a at htail
  generalize parseTail Input.lexer fuel inp (cs.view node) = b at htail
  cases htail with
  | none => exact Option.Rel.none
  | some hsame =>
    obtain ⟨hname, hvalue, -⟩ := Node.all_iff.mp hroot
    apply Option.Rel.some
    refine ⟨hsame.ok, hsame.at_, hsame.keeps, ?_, ?_⟩
    . refine Node.all_iff.mpr ⟨(hsame.keeps.live hname).1, (hsame.keeps.live hvalue).1, ?_⟩
      rw [List.forall_mem_append, List.forall_mem_cons]
      exact ⟨fun x hx => hsame.keeps.live_node (hbefore x hx), hsame.live,
        fun x hx => hsame.keeps.live_node (hbehind x hx)⟩
    . dsimp only
      rw [hsame.node, cs.view_eq root, Cstate.view_eq _ ⟨root.name, root.value, _⟩]
      dsimp only
      rw [List.map_append, List.map_cons, hsame.keeps.view_nodes hbefore, hsame.keeps.view_nodes hbehind,
        (hsame.keeps.live hname).2, (hsame.keeps.live hvalue).2]

theorem Sim.succ_tail {node : Node (Option Nat)} (hnode : node.All cs.Live)
    : Option.Rel (Same cs) (parseTail Cstate.lexer (fuel + 1) cs node)
        (parseTail Input.lexer (fuel + 1) inp (cs.view node)) := by
  obtain ⟨tok, cs', inp', hlex, hlex', hat', hkeeps, hlive⟩ := lex_both hat true
  have hnode' := hkeeps.live_node hnode
  have hview := hkeeps.view_node hnode
  rw [parseTail, parseTail, hlex, hlex', ← hview]
  dsimp only [bind, Option.bind]
  have hstop : Option.Rel (Same cs) (some (false, cs', node)) (some (false, inp', cs'.view node)) :=
    Option.Rel.some ⟨rfl, hat', hkeeps, hnode', rfl⟩
  cases tok with
  | eof => exact hstop
  | text t =>
    obtain ⟨hname, -, hchildren⟩ := Node.all_iff.mp hnode'
    have ht := hlive t rfl
    apply Option.Rel.some
    refine ⟨rfl, hat', hkeeps, Node.all_iff.mpr ⟨hname, ht, hchildren⟩, ?_⟩
    dsimp only
    rw [Cstate.view_eq, Cstate.view_eq]
  | mark m =>
    cases m with
    | cbrace => exact hstop
    | obrace =>
      have hblock := h.block hat' hnode'
      dsimp only [Token.map]
      generalize parseBlock Cstate.lexer fuel cs' node = a at hblock
      generalize parseBlock Input.lexer fuel inp' (cs'.view node) = b at hblock
      cases hblock with
      | none => exact Option.Rel.none
      | some hsame => exact Option.Rel.some (hsame.after hkeeps)
    | dot =>
      obtain ⟨tok, cs'', inp'', hlex, hlex', hat'', hkeeps', hlive'⟩ := lex_both hat' false
      have hnode'' := hkeeps'.live_node hnode'
      have hview' := hkeeps'.view_node hnode'
      have hkeeps := hkeeps.trans hkeeps'
      dsimp only [Token.map]
      rw [hlex, hlex', ← hview']
      have hstop : Option.Rel (Same cs) (some (false, cs'', node)) (some (false, inp'', cs''.view node)) :=
        Option.Rel.some ⟨rfl, hat'', hkeeps, hnode'', rfl⟩
      cases tok with
      | eof => exact hstop
      | mark m => exact hstop
      | text t =>
        have htail := h.tail hat'' (live_create (hlive' t rfl))
        rw [view_create] at htail
        dsimp only [Token.map]
        generalize parseTail Cstate.lexer fuel cs'' (configCreate Cstate.lexer t) = a at htail
        generalize parseTail Input.lexer fuel inp'' (configCreate Input.lexer (Cstate.lexer.string cs'' t)) = b at htail
        cases htail with
        | none => exact Option.Rel.none
        | some hsame =>
          obtain ⟨hname, hvalue, hchildren⟩ := Node.all_iff.mp hnode''
          apply Option.Rel.some
          refine ⟨hsame.ok, hsame.at_, hkeeps.trans hsame.keeps, ?_, ?_⟩
          . refine Node.all_iff.mpr ⟨(hsame.keeps.live hname).1, (hsame.keeps.live hvalue).1, ?_⟩
            rw [List.forall_mem_append]
            exact ⟨fun x hx => hsame.keeps.live_node (hchildren x hx), by simpa using hsame.live⟩
          . dsimp only
            rw [hsame.node, cs''.view_eq node, Cstate.view_eq _ ⟨node.name, node.value, _⟩]
            dsimp only
            rw [List.map_append, hsame.keeps.view_nodes hchildren, (hsame.keeps.live hname).2,
              (hsame.keeps.live hvalue).2]
            rfl

theorem Sim.succ_block {node : Node (Option Nat)} (hnode : node.All cs.Live)
    : Option.Rel (Same cs) (parseBlock Cstate.lexer (fuel + 1) cs node)
        (parseBlock Input.lexer (fuel + 1) inp (cs.view node)) := by
  obtain ⟨tok, cs', inp', hlex, hlex', hat', hkeeps, hlive⟩ := lex_both hat false
  have hnode' := hkeeps.live_node hnode
  have hview := hkeeps.view_node hnode
  rw [parseBlock, parseBlock, hlex, hlex', ← hview]
  dsimp only [bind, Option.bind]
  have hstop : ∀ ok, Option.Rel (Same cs) (some (ok, cs', node)) (some (ok, inp', cs'.view node)) :=
    fun _ => Option.Rel.some ⟨rfl, hat', hkeeps, hnode', rfl⟩
  cases tok with
  | eof => exact hstop false
  | mark m =>
    cases m
    . exact hstop false
    . exact hstop false
    . exact hstop true
  | text t =>
    have hexpr := h.expr hat' (hlive t rfl) hnode'
    dsimp only [Token.map]
    generalize parseExpr Cstate.lexer fuel cs' t node = a at hexpr
    generalize parseExpr Input.lexer fuel inp' (Cstate.lexer.string cs' t) (cs'.view node) = b at hexpr
    cases hexpr with
    | none => exact Option.Rel.none
    | @some a b hsame =>
      obtain ⟨ok, cs'', node'⟩ := a
      obtain ⟨ok', inp'', _⟩ := b
      obtain ⟨rfl, hat'', hkeeps', hlive', rfl⟩ := hsame
      cases ok with
      | false => exact Option.Rel.some ⟨rfl, hat'', hkeeps.trans hkeeps', hlive', rfl⟩
      | true =>
        have hblock := h.block hat'' hlive'
        dsimp only
        generalize parseBlock Cstate.lexer fuel cs'' node' = a at hblock
        generalize parseBlock Input.lexer fuel inp'' (cs''.view node') = b at hblock
        cases hblock with
        | none => exact Option.Rel.none
        | some hsame => exact Option.Rel.some (hsame.after (hkeeps.trans hkeeps'))

end Succ

theorem sim (fuel : Nat) : Sim fuel := by
  induction fuel with
  | zero =>
    constructor
    . intro cs inp text root _ _ _
      rw [parseExpr, parseExpr]
      exact Option.Rel.none
    . intro cs inp node _ _
      rw [parseTail, parseTail]
      exact Option.Rel.none
    . intro cs inp node _ _
      rw [parseBlock, parseBlock]
      exact Option.Rel.none
  | succ fuel ih => exact ⟨fun h => ih.succ_expr h, fun h => ih.succ_tail h, fun h => ih.succ_block h⟩

theorem parseAll_both (fuel : Nat) {cs : Cstate} {inp : Input} {root : Node (Option Nat)} (hat : cs.At inp)
    (hroot : root.All cs.Live)
    : Option.Rel (fun a b => b.2 = a.1.view a.2)
        (parseAll Cstate.lexer fuel cs root) (parseAll Input.lexer fuel inp (cs.view root)) := by
  induction fuel generalizing cs inp root with
  | zero => exact Option.Rel.none
  | succ fuel ih =>
    obtain ⟨tok, cs', inp', hlex, hlex', hat', hkeeps, hlive⟩ := lex_both hat false
    have hroot' := hkeeps.live_node hroot
    have hview := hkeeps.view_node hroot
    rw [parseAll, parseAll, hlex, hlex', ← hview]
    dsimp only [bind, Option.bind]
    cases tok with
    | eof => exact Option.Rel.some rfl
    | mark m => exact Option.Rel.some rfl
    | text t =>
      have hexpr := (sim fuel).expr hat' (hlive t rfl) hroot'
      dsimp only [Token.map]
      generalize parseExpr Cstate.lexer fuel cs' t root = a at hexpr
      generalize parseExpr Input.lexer fuel inp' (Cstate.lexer.string cs' t) (cs'.view root) = b at hexpr
      cases hexpr with
      | none => exact Option.Rel.none
      | @some a b hsame =>
        obtain ⟨ok, cs'', root'⟩ := a
        obtain ⟨ok', inp'', _⟩ := b
        obtain ⟨rfl, hat'', -, hlive', rfl⟩ := hsame
        cases ok with
        | false => exact Option.Rel.some rfl
        | true => exact ih hat'' hlive'

theorem configLoadFile_eq_parse (file : Bytes) : configLoadFile (some file) true = parse (cstr file) := by
  have hcstr : cstr (file ++ [0]) = cstr file := cstr_append_zeros file 1
  have hat : Cstate.At ⟨file ++ [0], 0, none⟩ ⟨none, cstr file⟩ := by
    obtain ⟨more, hmore⟩ : ∃ more, file ++ [0] = cstr (file ++ [0]) ++ 0 :: more := eq_cstr_append (by simp)
    rw [hcstr] at hmore
    exact ⟨rfl, ⟨more, hmore⟩, zero_not_mem_cstr file⟩
  have hroot : Node.All (Cstate.Live ⟨file ++ [0], 0, none⟩) ⟨none, none, []⟩ :=
    Node.all_iff.mpr ⟨trivial, trivial, by simp⟩
  have hview : Cstate.view ⟨file ++ [0], 0, none⟩ ⟨none, none, []⟩ = ⟨[], [], []⟩ := Cstate.view_eq _ _
  have hboth := parseAll_both (2 * (cstr file).length + 1) hat hroot
  unfold configLoadFile loadFile configLoad parse
  dsimp only
  rw [hview] at hboth
  rw [hcstr]
  generalize parseAll Cstate.lexer _ _ _ = a at hboth
  generalize parseAll Input.lexer _ _ _ = b at hboth
  cases hboth with
  | none => rfl
  | some heq =>
    rw [Option.map_some, Option.map_some, heq]
    exact congrArg some (Node.read_map _ _).symm

/--
Whatever is in the file, the parser comes to an end without a look behind the zero, and the tree that it leaves
in the memory is the one that the text describes: no name and no value is overwritten later.
-/
theorem configLoad_inPlace (file : Bytes)
    : ∃ tree, configLoadFile (some file) true = some tree ∧ parse (cstr file) = some tree := by
  obtain ⟨tree, htree⟩ := Option.isSome_iff_exists.mp (parse_isSome (cstr file))
  exact ⟨tree, (configLoadFile_eq_parse file).trans htree, htree⟩

end ConfigUtils
