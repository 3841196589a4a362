import Tboot.Disk.Impl.Load
import Tboot.Util.Heap

/-!
This module contains the parser of `config_utils.c`, which builds the tree that `load_diskconfig` reads. The
lexer works in place: it puts zeros into the text, and the names and values of the tree are pointers into it.
-/

namespace ConfigUtils

inductive Mark where
  | dot
  | obrace
  | cbrace
  deriving DecidableEq, Repr

def markOf (c : UInt8) : Option Mark :=
  if c = 46 then
    some .dot
  else if c = 123 then
    some .obrace
  else if c = 125 then
    some .cbrace
  else
    none

inductive Token (τ : Type) where
  | eof
  | text (t : τ)
  | mark (m : Mark)
  deriving DecidableEq, Repr

structure Node (τ : Type) where
  name : τ
  value : τ
  children : List (Node τ)

/--
What the parser uses: the next token, which may depend on whether a value is expected, and what the strings of
the tree are at that time. A lexer that reads behind the end of its memory gives nothing.
-/
structure Lexer (σ τ : Type) where
  lex : σ → (value : Bool) → Option (Token τ × σ)
  string : σ → τ → Bytes
  /-- The empty string, which a node has for its value at first -/
  empty : τ

section Parser

variable {σ τ : Type} (L : Lexer σ τ)

def splitLast (p : Node τ → Bool) : List (Node τ) → Option (List (Node τ) × Node τ × List (Node τ))
  | [] => none
  | node :: nodes =>
    match splitLast p nodes with
    | some (before, last, behind) => some (node :: before, last, behind)
    | none => if p node then some ([], node, nodes) else none

def configCreate (name : τ) : Node τ :=
  ⟨name, L.empty, []⟩

def target (s : σ) (text : τ) (root : Node τ) : List (Node τ) × Node τ × List (Node τ) :=
  match splitLast (fun node => L.string s node.name = L.string s text) root.children with
  | none => (root.children, configCreate L text, [])
  | some (before, node, behind) =>
    if L.string s node.value ≠ [] then
      (root.children, configCreate L text, [])
    else
      (before, node, behind)

mutual

/-- True for zero. Every call that is made takes from `fuel`; `none` says that it is used up. -/
def parseExpr (fuel : Nat) (s : σ) (text : τ) (root : Node τ) : Option (Bool × σ × Node τ) :=
  match fuel with
  | 0 => none
  | fuel + 1 => do
    let (before, node, behind) := target L s text root
    let (ok, s, node) ← parseTail fuel s node
    return (ok, s, { root with children := before ++ node :: behind })

/-- The loop of `parse_expr` -/
def parseTail (fuel : Nat) (s : σ) (node : Node τ) : Option (Bool × σ × Node τ) :=
  match fuel with
  | 0 => none
  | fuel + 1 => do
    match ← L.lex s true with
    | (.mark .dot, s) =>
      match ← L.lex s false with
      | (.text text, s) =>
        let (ok, s, child) ← parseTail fuel s (configCreate L text)
        return (ok, s, { node with children := node.children ++ [child] })
      | (_, s) => return (false, s, node)
    | (.text text, s) => return (true, s, { node with value := text })
    | (.mark .obrace, s) => parseBlock fuel s node
    | (_, s) => return (false, s, node)

def parseBlock (fuel : Nat) (s : σ) (node : Node τ) : Option (Bool × σ × Node τ) :=
  match fuel with
  | 0 => none
  | fuel + 1 => do
    match ← L.lex s false with
    | (.text text, s) =>
      match ← parseExpr fuel s text node with
      | (false, s, node) => return (false, s, node)
      | (true, s, node) => parseBlock fuel s node
    | (.mark .cbrace, s) => return (true, s, node)
    | (_, s) => return (false, s, node)

end

def parseAll (fuel : Nat) (s : σ) (root : Node τ) : Option (σ × Node τ) :=
  match fuel with
  | 0 => none
  | fuel + 1 => do
    match ← L.lex s false with
    | (.text text, s) =>
      match ← parseExpr L fuel s text root with
      | (false, s, root) => return (s, root)
      | (true, s, root) => parseAll fuel s root
    | (_, s) => return (s, root)

end Parser

/-! ### The lexer on the memory -/

/-- `cs->data` is a position in `mem`; `cs->next` is the mark that the last text was cut off at. -/
structure Cstate where
  mem : Bytes
  data : Nat
  next : Option Mark
  deriving DecidableEq, Repr

def skip : (comment : Bool) → Bytes → Nat → Option Nat
  | _, [], _ => none
  | true, c :: s, p => if c = 0 then some p else skip (c ≠ 10) s (p + 1)
  | false, c :: s, p =>
    if isspace c then
      skip false s (p + 1)
    else if c = 35 then
      skip true s (p + 1)
    else
      some p

def scan (stop : UInt8 → Bool) : Bytes → Nat → Option Nat
  | [], _ => none
  | c :: s, p => if stop c then some p else scan stop s (p + 1)

def strip (s : Nat) : (data : Nat) → Bytes → Bytes
  | 0, mem => mem
  | data + 1, mem =>
    if s < data + 1 ∧ isspace (mem.getD (data + 1) 0) then
      strip s data (mem.set (data + 1) 0)
    else
      mem

def Cstate.lexValue (cs : Cstate) (s : Nat) : Option (Token (Option Nat) × Cstate) := do
  let data ← scan (fun c => c = 0 || c = 10) (cs.mem.drop (s + 1)) (s + 1)
  if cs.mem.getD data 0 = 0 then
    return (.text (some s), { cs with data })
  else
    return (.text (some s), { cs with mem := strip s (data - 1) (cs.mem.set data 0), data := data + 1 })

def Cstate.lexText (cs : Cstate) (s : Nat) : Option (Token (Option Nat) × Cstate) := do
  let data ← scan (fun c => isspace c || c = 0 || (markOf c).isSome) (cs.mem.drop (s + 1)) (s + 1)
  let c := cs.mem.getD data 0
  if isspace c then
    return (.text (some s), { cs with mem := cs.mem.set data 0, data := data + 1 })
  else if c = 0 then
    return (.text (some s), { cs with data })
  else
    return (.text (some s), { mem := cs.mem.set data 0, data := data + 1, next := markOf c })

/-- Nothing is read again once the end has been seen, so `cs->data` does not matter then. -/
def Cstate.lex (cs : Cstate) (value : Bool) : Option (Token (Option Nat) × Cstate) :=
  match cs.next with
  | some m => some (.mark m, { cs with next := none })
  | none => do
    let s ← skip false (cs.mem.drop cs.data) cs.data
    let c := cs.mem.getD s 0
    if c = 0 then
      return (.eof, cs)
    else
      match markOf c with
      | some m => return (.mark m, { cs with data := s + 1 })
      | none => if value then cs.lexValue s else cs.lexText s

/-- A string is a place in the memory; `none` is the empty string of a new node. -/
def Cstate.lexer : Lexer Cstate (Option Nat) where
  lex := Cstate.lex
  string := fun cs p => (p.map (Heap.string cs.mem)).getD []
  empty := none

/-- Every token but the last takes a byte of the string, and there are at most two calls for a token. -/
def configLoad (root : Node (Option Nat)) (data : Bytes) : Option (Cstate × Node (Option Nat)) :=
  parseAll Cstate.lexer (2 * (cstr data).length + 1) ⟨data, 0, none⟩ root

def loadFile (file : Option Bytes) (mem : Bool) : Option Bytes :=
  match file, mem with
  | some bytes, true => some (bytes ++ [0])
  | _, _ => none

/-- The tree as those see it who read it later, with the memory as it is then -/
def Node.read {τ : Type} (string : τ → Bytes) : Node τ → Disk.Cnode
  | ⟨name, value, children⟩ => ⟨string name, string value, children.map (Node.read string)⟩

def configLoadFile (file : Option Bytes) (mem : Bool) : Option Disk.Cnode :=
  match loadFile file mem with
  | none => some ⟨[], [], []⟩
  | some data => (configLoad ⟨none, none, []⟩ data).map fun (cs, root) => root.read (Cstate.lexer.string cs)

end ConfigUtils
