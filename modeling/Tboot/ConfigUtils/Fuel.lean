import Tboot.ConfigUtils.Text

/-!
This module contains the proof that the parser comes to an end: every token takes something of the text.
-/

namespace ConfigUtils

def Input.left (inp : Input) : Nat :=
  inp.rest.length + if inp.next.isSome then 1 else 0

theorem skipBlanks_length (comment : Bool) (s : Bytes) : (skipBlanks comment s).length ≤ s.length := by
  fun_induction skipBlanks comment s
  all_goals simp only [List.length_cons, List.length_nil] at *
  all_goals omega

theorem cutValue_left (s : Bytes) : (cutValue s).2.left ≤ s.length := by
  unfold cutValue
  dsimp only
  split
  . exact Nat.zero_le _
  . next rest hdrop =>
    have hlen := congrArg List.length hdrop
    rw [List.length_drop, List.length_cons] at hlen
    simp only [Input.left, Option.isSome_none, Bool.false_eq_true, ↓reduceIte]
    omega

theorem cutText_left (s : Bytes) : (cutText s).2.left ≤ s.length := by
  unfold cutText
  dsimp only
  split
  . exact Nat.zero_le _
  . next c rest hdrop =>
    have hlen := congrArg List.length hdrop
    rw [List.length_drop, List.length_cons] at hlen
    unfold Input.left
    dsimp only
    split
    all_goals omega

theorem Input.lex_cases (inp : Input) (value : Bool)
    : inp.lex value = (.eof, inp) ∨ (inp.lex value).2.left < inp.left := by
  obtain ⟨next, rest⟩ := inp
  unfold Input.lex
  cases next with
  | some m =>
    right
    simp [Input.left]
  | none =>
    have hblanks := skipBlanks_length false rest
    have hleft : (Input.mk none rest).left = rest.length := rfl
    dsimp only
    rw [hleft]
    cases hskip : skipBlanks false rest with
    | nil => exact Or.inl rfl
    | cons c s =>
      right
      rw [hskip, List.length_cons] at hblanks
      dsimp only
      split
      . simp only [Input.left, Option.isSome_none, Bool.false_eq_true, ↓reduceIte]
        omega
      . dsimp only
        split
        . have := cutValue_left s
          omega
        . have := cutText_left s
          omega

def Ends (l : Nat) (r : Option (Bool × Input × Node Bytes)) : Prop :=
  ∃ ok inp node, r = some (ok, inp, node) ∧ inp.left ≤ l

theorem Ends.mono {l l' : Nat} {r : Option (Bool × Input × Node Bytes)} (h : Ends l r) (hle : l ≤ l') : Ends l' r := by
  obtain ⟨ok, inp, node, hr, hleft⟩ := h
  exact ⟨ok, inp, node, hr, Nat.le_trans hleft hle⟩

structure Enough (l : Nat) : Prop where
  tail : ∀ {fuel : Nat} {inp : Input}, 2 * l + 1 ≤ fuel → inp.left ≤ l → ∀ node, Ends l (parseTail Input.lexer fuel inp node)
  block : ∀ {fuel : Nat} {inp : Input}, 2 * l + 1 ≤ fuel → inp.left ≤ l → ∀ node, Ends l (parseBlock Input.lexer fuel inp node)

theorem Enough.expr {l : Nat} (h : Enough l) {fuel : Nat} {inp : Input} (hfuel : 2 * l + 2 ≤ fuel) (hleft : inp.left ≤ l)
    (text : Bytes) (root : Node Bytes) : Ends l (parseExpr Input.lexer fuel inp text root) := by
  obtain ⟨fuel, rfl⟩ : ∃ n, fuel = n + 1 := ⟨fuel - 1, by omega⟩
  obtain ⟨ok, inp', node, htail, hleft'⟩ := h.tail (show 2 * l + 1 ≤ fuel by omega) hleft (target Input.lexer inp text root).2.1
  rw [parseExpr]
  dsimp only [bind, Option.bind]
  rw [htail]
  exact ⟨_, _, _, rfl, hleft'⟩

section Step

variable {l : Nat} (ih : ∀ l' < l, Enough l') {fuel : Nat} {inp : Input} (hfuel : 2 * l + 1 ≤ fuel) (hleft : inp.left ≤ l)
  (node : Node Bytes)
include ih hfuel hleft

theorem Enough.tail_step : Ends l (parseTail Input.lexer fuel inp node) := by
  obtain ⟨fuel, rfl⟩ : ∃ n, fuel = n + 1 := ⟨fuel - 1, by omega⟩
  have hlex : Input.lexer.lex inp true = some (inp.lex true) := rfl
  have hcases := inp.lex_cases true
  rw [parseTail, hlex]
  dsimp only [bind, Option.bind]
  generalize inp.lex true = r at hcases
  obtain ⟨tok, inp'⟩ := r
  cases hcases with
  | inl heof =>
    cases heof
    exact ⟨_, _, _, rfl, hleft⟩
  | inr hlt =>
    have hleft' : inp'.left < l := Nat.lt_of_lt_of_le hlt hleft
    cases tok with
    | eof => exact ⟨_, _, _, rfl, Nat.le_of_lt hleft'⟩
    | text t => exact ⟨_, _, _, rfl, Nat.le_of_lt hleft'⟩
    | mark m =>
      cases m with
      | cbrace => exact ⟨_, _, _, rfl, Nat.le_of_lt hleft'⟩
      | obrace => exact ((ih _ hleft').block (by omega) (Nat.le_refl _) node).mono (Nat.le_of_lt hleft')
      | dot =>
        have hlex' : Input.lexer.lex inp' false = some (inp'.lex false) := rfl
        have hcases' := inp'.lex_cases false
        dsimp only
        rw [hlex']
        dsimp only
        generalize inp'.lex false = r' at hcases'
        obtain ⟨tok', inp''⟩ := r'
        have hleft'' : inp''.left ≤ inp'.left := by
          cases hcases' with
          | inl heof =>
            cases heof
            exact Nat.le_refl _
          | inr hlt => exact Nat.le_of_lt hlt
        cases tok' with
        | eof => exact ⟨_, _, _, rfl, by omega⟩
        | mark m => exact ⟨_, _, _, rfl, by omega⟩
        | text t =>
          obtain ⟨ok, inp3, child, htail, hleft3⟩ :=
            (ih _ hleft').tail (show _ ≤ fuel by omega) hleft'' (configCreate Input.lexer t)
          dsimp only
          rw [htail]
          exact ⟨_, _, _, rfl, Nat.le_trans hleft3 (Nat.le_of_lt hleft')⟩

theorem Enough.block_step : Ends l (parseBlock Input.lexer fuel inp node) := by
  obtain ⟨fuel, rfl⟩ : ∃ n, fuel = n + 1 := ⟨fuel - 1, by omega⟩
  have hlex : Input.lexer.lex inp false = some (inp.lex false) := rfl
  have hcases := inp.lex_cases false
  rw [parseBlock, hlex]
  dsimp only [bind, Option.bind]
  generalize inp.lex false = r at hcases
  obtain ⟨tok, inp'⟩ := r
  cases hcases with
  | inl heof =>
    cases heof
    exact ⟨_, _, _, rfl, hleft⟩
  | inr hlt =>
    have hleft' : inp'.left < l := Nat.lt_of_lt_of_le hlt hleft
    cases tok with
    | eof => exact ⟨_, _, _, rfl, Nat.le_of_lt hleft'⟩
    | mark m =>
      cases m
      all_goals exact ⟨_, _, _, rfl, Nat.le_of_lt hleft'⟩
    | text t =>
      obtain ⟨ok, inp'', node', hexpr, hleft''⟩ :=
        (ih _ hleft').expr (show _ ≤ fuel by omega) (Nat.le_refl _) t node
      dsimp only
      rw [hexpr]
      cases ok with
      | false => exact ⟨_, _, _, rfl, Nat.le_trans hleft'' (Nat.le_of_lt hleft')⟩
      | true => exact ((ih _ hleft').block (by omega) hleft'' node').mono (Nat.le_of_lt hleft')

end Step

theorem enough (l : Nat) : Enough l := by
  induction l using Nat.strongRecOn with
  | ind l ih => exact ⟨fun hfuel hleft node => Enough.tail_step ih hfuel hleft node,
      fun hfuel hleft node => Enough.block_step ih hfuel hleft node⟩

theorem parseAll_isSome {fuel : Nat} {inp : Input} (hfuel : 2 * inp.left + 1 ≤ fuel) (root : Node Bytes)
    : (parseAll Input.lexer fuel inp root).isSome := by
  induction fuel generalizing inp root with
  | zero => omega
  | succ fuel ih =>
    have hlex : Input.lexer.lex inp false = some (inp.lex false) := rfl
    have hcases := inp.lex_cases false
    rw [parseAll, hlex]
    dsimp only [bind, Option.bind]
    generalize inp.lex false = r at hcases
    obtain ⟨tok, inp'⟩ := r
    cases tok with
    | eof => rfl
    | mark m => rfl
    | text t =>
      cases hcases with
      | inl heof => cases heof
      | inr hlt =>
        dsimp only at hlt
        obtain ⟨ok, inp'', node', hexpr, hleft⟩ := (enough inp'.left).expr (show _ ≤ fuel by omega) (Nat.le_refl _) t root
        dsimp only
        rw [hexpr]
        cases ok with
        | false => rfl
        | true => exact ih (by omega) node'

theorem parse_isSome (text : Bytes) : (parse text).isSome := by
  unfold parse
  rw [Option.isSome_map]
  exact parseAll_isSome (Nat.le_refl _) _

end ConfigUtils
