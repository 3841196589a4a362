import Tboot.ConfigUtils.Grammar

/-!
This module contains what is found in a tree after the statements of a file: of a setting the last one, and of a
block all that its parts have said.
-/

namespace ConfigUtils

open Disk (Cnode configFind configStr configBool)

def Node.toCnode (node : Node Bytes) : Cnode :=
  node.read id

def Node.find (root : Node Bytes) (name : Bytes) : Option (Node Bytes) :=
  root.children.reverse.find? fun node => node.name = name

theorem Node.toCnode_eq (node : Node Bytes)
    : node.toCnode = ⟨node.name, node.value, node.children.map Node.toCnode⟩ := by
  cases node
  unfold toCnode
  rw [read]
  rfl

theorem configFind_toCnode (root : Node Bytes) (name : Bytes)
    : configFind root.toCnode name = (root.find name).map Node.toCnode := by
  rw [Node.toCnode_eq, configFind, Node.find]
  dsimp only
  rw [← List.map_reverse, List.find?_map]
  congr 2
  funext node
  rw [Function.comp_apply, Node.toCnode_eq]

theorem configStr_toCnode (root : Node Bytes) (name : Bytes) (default_ : Option Bytes)
    : configStr root.toCnode name default_ = ((root.find name).map Node.value).or default_ := by
  rw [configStr, configFind_toCnode]
  cases root.find name with
  | none => rfl
  | some node =>
    rw [Option.map_some, Node.toCnode_eq]
    rfl

theorem configBool_toCnode (root : Node Bytes) (name : Bytes)
    : configBool root.toCnode name false
        = ((root.find name).map Node.value).any fun v => v.head?.any fun c => [121, 89, 49].contains c := by
  rw [configBool, configFind_toCnode]
  cases root.find name with
  | none => rfl
  | some node =>
    rw [Option.map_some, Node.toCnode_eq]
    rfl

/-! ### The places of a statement -/

theorem splitLast_none {τ : Type} {p : Node τ → Bool} {nodes : List (Node τ)} (h : splitLast p nodes = none)
    : ∀ x ∈ nodes, p x = false := by
  induction nodes with
  | nil => simp
  | cons node nodes ih =>
    unfold splitLast at h
    split at h
    next => cases h
    next hnone =>
      split at h
      next => cases h
      next hp => simpa [hp] using ih hnone

theorem splitLast_some {τ : Type} {p : Node τ → Bool} {nodes before behind : List (Node τ)} {node : Node τ}
    (h : splitLast p nodes = some (before, node, behind)) : p node = true ∧ ∀ x ∈ behind, p x = false := by
  induction nodes generalizing before with
  | nil => cases h
  | cons first nodes ih =>
    unfold splitLast at h
    split at h
    next hfound =>
      cases h
      exact ih hfound
    next hnone =>
      split at h
      next hp =>
        cases h
        exact ⟨hp, splitLast_none hnone⟩
      next => cases h

theorem Node.find_last {root node : Node Bytes} {name : Bytes} {before behind : List (Node Bytes)}
    (h : root.children = before ++ node :: behind) (hname : node.name = name) (hbehind : ∀ x ∈ behind, x.name ≠ name)
    : root.find name = some node := by
  have hnone : behind.reverse.find? (fun x => x.name = name) = none := by
    simpa using hbehind
  rw [find, h, List.reverse_append, List.reverse_cons, List.find?_append, List.find?_append, hnone, Option.none_or]
  simp [hname]

theorem Node.find_eq_none {root : Node Bytes} {name : Bytes} (h : ∀ node ∈ root.children, node.name ≠ name)
    : root.find name = none := by
  simpa [find] using h

theorem Node.find_other {name : Bytes} {before behind : List (Node Bytes)} {root root' node node' : Node Bytes}
    (h : root.children = before ++ node :: behind) (h' : root'.children = before ++ node' :: behind)
    (hne : node.name ≠ name) (hne' : node'.name ≠ name) : root'.find name = root.find name := by
  rw [find, find, h, h']
  simp [List.find?_append, hne, hne']

theorem Node.place_cases (root : Node Bytes) (name : Bytes)
    : (∃ before node behind, root.place name = (before, node, behind) ∧ root.children = before ++ node :: behind
        ∧ root.find name = some node ∧ node.name = name ∧ node.value = [] ∧ ∀ x ∈ behind, x.name ≠ name)
      ∨ (root.place name = (root.children, ⟨name, [], []⟩, [])
        ∧ ∀ node, root.find name = some node → node.value ≠ []) := by
  unfold place
  split
  next before node behind hsplit =>
    have happend := splitLast_append hsplit
    obtain ⟨hname, hbehind⟩ := splitLast_some hsplit
    have hname : node.name = name := of_decide_eq_true hname
    have hbehind : ∀ x ∈ behind, x.name ≠ name := fun x hx => of_decide_eq_false (hbehind x hx)
    have hfind := find_last happend hname hbehind
    split
    next hvalue => exact .inl ⟨before, node, behind, rfl, happend, hfind, hname, hvalue, hbehind⟩
    next hvalue =>
      refine .inr ⟨rfl, ?_⟩
      intro node' hfind'
      rw [hfind] at hfind'
      injection hfind' with hfind'
      rwa [← hfind']
  next hsplit =>
    refine .inr ⟨rfl, ?_⟩
    intro node' hfind
    have hname := List.find?_some hfind
    have hmem := List.mem_reverse.mp (List.mem_of_find?_eq_some hfind)
    rw [splitLast_none hsplit node' hmem] at hname
    contradiction

def Node.openFor (name : Bytes) (found : Option (Node Bytes)) : Node Bytes :=
  (found.filter fun node => node.value = []).getD ⟨name, [], []⟩

theorem Node.openFor_some {name : Bytes} {node : Node Bytes} (h : node.value = []) : openFor name (some node) = node := by
  rw [openFor, Option.filter_some, if_pos (decide_eq_true h), Option.getD_some]

theorem Node.place_node (root : Node Bytes) (name : Bytes) : (root.place name).2.1 = openFor name (root.find name) := by
  cases root.place_cases name with
  | inl h =>
    obtain ⟨before, node, behind, hplace, -, hfind, -, hvalue, -⟩ := h
    rw [hplace, hfind, openFor_some hvalue]
  | inr h =>
    obtain ⟨hplace, hvalue⟩ := h
    rw [hplace]
    cases hfind : root.find name with
    | none => rfl
    | some node => rw [openFor, Option.filter_some, if_neg (by simp [hvalue node hfind]), Option.getD_none]

theorem Node.openFor_name (root : Node Bytes) (name : Bytes) : (openFor name (root.find name)).name = name := by
  rw [← root.place_node]
  cases root.place_cases name with
  | inl h =>
    obtain ⟨before, node, behind, hplace, -, -, hname, -⟩ := h
    rw [hplace]
    exact hname
  | inr h => rw [h.1]

theorem Node.find_enter_self (root : Node Bytes) (name : Bytes) {f : Node Bytes → Node Bytes}
    (hf : ∀ node, (f node).name = node.name)
    : (root.enter name f).find name = some (f (openFor name (root.find name))) := by
  have hname := (hf _).trans (root.openFor_name name)
  rw [← root.place_node] at hname ⊢
  unfold enter
  cases root.place_cases name with
  | inl h =>
    obtain ⟨before, node, behind, hplace, -, -, -, -, hbehind⟩ := h
    rw [hplace] at hname ⊢
    exact find_last rfl hname hbehind
  | inr h =>
    rw [h.1] at hname ⊢
    exact find_last rfl hname (by simp)

theorem Node.find_enter_ne (root : Node Bytes) {name other : Bytes} {f : Node Bytes → Node Bytes}
    (hf : ∀ node, (f node).name = node.name) (hne : name ≠ other)
    : (root.enter name f).find other = root.find other := by
  unfold enter
  cases root.place_cases name with
  | inl h =>
    obtain ⟨before, node, behind, hplace, hchildren, -, hname, -⟩ := h
    rw [hplace]
    apply find_other hchildren rfl
    . rwa [hname]
    . rwa [hf, hname]
  | inr h =>
    rw [h.1, find, find]
    simp [hf, hne]

/-! ### The statements of a file -/

theorem evalAll_append (ss ss' : List Statement) (root : Node Bytes)
    : evalAll (ss ++ ss') root = evalAll ss' (evalAll ss root) := by
  induction ss generalizing root with
  | nil => rw [List.nil_append, evalAll]
  | cons s ss ih => rw [List.cons_append, evalAll, evalAll, ih]

theorem evalAll_concat (ss : List Statement) (s : Statement) (root : Node Bytes)
    : evalAll (ss ++ [s]) root = s.eval (evalAll ss root) := by
  rw [evalAll_append, evalAll, evalAll]

theorem Statement.eval_head (s : Statement) (root : Node Bytes)
    : (s.eval root).name = root.name ∧ (s.eval root).value = root.value := by
  cases s
  all_goals
    rw [Statement.eval]
    exact ⟨rfl, rfl⟩

theorem evalAll_head (ss : List Statement) (root : Node Bytes)
    : (evalAll ss root).name = root.name ∧ (evalAll ss root).value = root.value := by
  induction ss generalizing root with
  | nil =>
    rw [evalAll]
    exact ⟨rfl, rfl⟩
  | cons s ss ih =>
    rw [evalAll, (ih _).1, (ih _).2]
    exact s.eval_head root

theorem Node.descend_name {f : Node Bytes → Node Bytes} (hf : ∀ node, (f node).name = node.name) (subs : List Bytes)
    (node : Node Bytes) : (descend f subs node).name = node.name := by
  cases subs with
  | nil => exact hf node
  | cons name subs => rfl

def Statement.name : Statement → Bytes
  | value name _ _ => name
  | block name _ _ => name

theorem Statement.find_eval_ne (s : Statement) (root : Node Bytes) {other : Bytes} (h : s.name ≠ other)
    : (s.eval root).find other = root.find other := by
  cases s with
  | value name subs v =>
    have hf : ∀ node : Node Bytes, { node with value := v }.name = node.name := fun _ => rfl
    rw [Statement.eval]
    exact root.find_enter_ne (Node.descend_name hf subs) h
  | block name subs body =>
    rw [Statement.eval]
    exact root.find_enter_ne (Node.descend_name (fun node => (evalAll_head body node).1) subs) h

theorem find_eval_value (name v : Bytes) (root : Node Bytes)
    : ((Statement.value name [] v).eval root).find name
        = some { Node.openFor name (root.find name) with value := v } := by
  rw [Statement.eval]
  exact root.find_enter_self name (fun _ => rfl)

theorem find_eval_block (name : Bytes) (body : List Statement) (root : Node Bytes)
    : ((Statement.block name [] body).eval root).find name
        = some (evalAll body (Node.openFor name (root.find name))) := by
  rw [Statement.eval]
  exact root.find_enter_self name (fun node => (evalAll_head body node).1)

def Statement.settingOf (key : Bytes) : Statement → Option Bytes
  | value name [] v => if name = key then some v else none
  | _ => none

def Statement.bodyOf (key : Bytes) : Statement → Option (List Statement)
  | block name [] body => if name = key then some body else none
  | _ => none

theorem settingOf_eq_some {key v : Bytes} {s : Statement} (h : s.settingOf key = some v) : s = .value key [] v := by
  unfold Statement.settingOf at h
  split at h
  next name v' =>
    split at h
    next hname => rw [hname, Option.some.inj h]
    next => cases h
  next => cases h

theorem bodyOf_eq_some {key : Bytes} {s : Statement} {body : List Statement} (h : s.bodyOf key = some body)
    : s = .block key [] body := by
  unfold Statement.bodyOf at h
  split at h
  next name body' =>
    split at h
    next hname => rw [hname, Option.some.inj h]
    next => cases h
  next => cases h

theorem value_find_evalAll {key : Bytes} {ss : List Statement}
    (h : ∀ s ∈ ss, s.name = key → (s.settingOf key).isSome = true) (root : Node Bytes)
    : ((evalAll ss root).find key).map Node.value
        = (ss.filterMap (Statement.settingOf key)).getLast?.or ((root.find key).map Node.value) := by
  induction ss using List.reverseRecOn with
  | nil =>
    rw [evalAll]
    rfl
  | append_singleton ss s ih =>
    have ih := ih fun s hs => h s (List.mem_append_left _ hs)
    rw [evalAll_concat, List.filterMap_append]
    by_cases hname : s.name = key
    . obtain ⟨v, hv⟩ := Option.isSome_iff_exists.mp (h s (by simp) hname)
      have hs := settingOf_eq_some hv
      rw [List.filterMap_cons_some hv, hs, find_eval_value]
      simp
    . have hnone : s.settingOf key = none := by
        cases hv : s.settingOf key with
        | none => rfl
        | some v =>
          rw [settingOf_eq_some hv] at hname
          exact absurd rfl hname
      rw [s.find_eval_ne _ hname, ih, List.filterMap_cons_none hnone, List.filterMap_nil, List.append_nil]

theorem eval_block_new {name : Bytes} (body : List Statement) {root : Node Bytes} (h : root.find name = none)
    : (Statement.block name [] body).eval root
        = { root with children := root.children ++ [evalAll body ⟨name, [], []⟩] } := by
  rw [Statement.eval, Node.enter]
  cases root.place_cases name with
  | inl hold =>
    obtain ⟨_, _, _, -, -, hfind, -⟩ := hold
    rw [h] at hfind
    cases hfind
  | inr hnew =>
    rw [hnew.1]
    rfl

theorem find_evalAll_blocks {key : Bytes} {ss : List Statement}
    (h : ∀ s ∈ ss, s.name = key → (s.bodyOf key).isSome = true) {root : Node Bytes} (hroot : root.find key = none)
    : (evalAll ss root).find key
        = if ss.filterMap (Statement.bodyOf key) = [] then none
          else some (evalAll (ss.filterMap (Statement.bodyOf key)).flatten ⟨key, [], []⟩) := by
  induction ss using List.reverseRecOn with
  | nil =>
    rw [evalAll]
    exact hroot
  | append_singleton ss s ih =>
    have ih := ih fun s hs => h s (List.mem_append_left _ hs)
    rw [evalAll_concat, List.filterMap_append]
    by_cases hname : s.name = key
    . obtain ⟨body, hbody⟩ := Option.isSome_iff_exists.mp (h s (by simp) hname)
      have hs := bodyOf_eq_some hbody
      have hne : ss.filterMap (Statement.bodyOf key) ++ [body] ≠ [] := by simp
      rw [List.filterMap_cons_some hbody, List.filterMap_nil, if_neg hne, hs, find_eval_block, ih,
        List.flatten_append, List.flatten_singleton, evalAll_append]
      congr 2
      split
      next hnil =>
        rw [hnil, List.flatten_nil, evalAll]
        rfl
      next => exact Node.openFor_some (evalAll_head _ _).2
    . have hnone : s.bodyOf key = none := by
        cases hbody : s.bodyOf key with
        | none => rfl
        | some body =>
          rw [bodyOf_eq_some hbody] at hname
          exact absurd rfl hname
      rw [s.find_eval_ne _ hname, ih, List.filterMap_cons_none hnone, List.filterMap_nil, List.append_nil]

end ConfigUtils
