import Tboot.Util.CString

/-!
This module contains `strtok` as glibc has it, with the place where it goes on as the state: a call gives
the first token of what is left, and leaves the others.
-/

/-- What is left of the string that `strtok` was last called on -/
abbrev Scan := StateM Bytes

theorem Scan.bind_apply {α β : Type} (x : Scan α) (f : α → Scan β) (save : Bytes)
    : (x >>= f) save = f (x save).1 (x save).2 :=
  rfl

def strtok (s : Option Bytes) (delim : Bytes) : Scan (Option Bytes) := fun save =>
  let s := (cstr (s.getD save)).dropWhile delim.contains
  if s = [] then
    (none, [])
  else
    let token := s.takeWhile fun c => !delim.contains c
    (some token, s.drop (token.length + 1))

section Pieces

variable {p : UInt8 → Bool}

def pieces (p : UInt8 → Bool) (s : Bytes) : List Bytes :=
  (s.splitOnP p).filter (· ≠ [])

theorem pieces_sep {c : UInt8} (hc : p c = true) (s : Bytes) : pieces p (c :: s) = pieces p s := by
  unfold pieces
  rw [List.splitOnP_cons_eq_if_modifyHead, if_pos hc]
  simp

theorem pieces_seps {seps : Bytes} (h : ∀ c ∈ seps, p c = true) (s : Bytes) : pieces p (seps ++ s) = pieces p s := by
  induction seps with
  | nil => rfl
  | cons c seps ih =>
    rw [List.cons_append, pieces_sep (h c List.mem_cons_self)]
    apply ih
    intro c hc
    exact h c (List.mem_cons_of_mem _ hc)

theorem pieces_dropWhile {q : UInt8 → Bool} (hq : ∀ c, q c = true → p c = true) (s : Bytes)
    : pieces p (s.dropWhile q) = pieces p s := by
  have hseps : ∀ c ∈ s.takeWhile q, p c = true := fun c hc => hq c (List.mem_takeWhile_imp hc)
  rw [← pieces_seps hseps (s.dropWhile q), List.takeWhile_append_dropWhile]

theorem pieces_word {word : Bytes} (hne : word ≠ []) (hword : ∀ c ∈ word, p c = false)
    : pieces p word = [word] := by
  unfold pieces
  rw [List.splitOnP_eq_singleton hword]
  simp [hne]

theorem pieces_append {word : Bytes} {c : UInt8} (hne : word ≠ []) (hword : ∀ c ∈ word, p c = false)
    (hc : p c = true) (s : Bytes) : pieces p (word ++ c :: s) = word :: pieces p s := by
  unfold pieces
  rw [List.splitOnP_append_cons_of_forall_mem hword c hc]
  simp [hne]

theorem pieces_append_sep {c : UInt8} (hc : p c = true) (s : Bytes) : pieces p (s ++ [c]) = pieces p s := by
  unfold pieces
  rw [List.splitOnP_append_cons s [] hc]
  simp

theorem pieces_congr {q : UInt8 → Bool} {s : Bytes} (h : ∀ c ∈ s, p c = q c) : pieces p s = pieces q s := by
  have hsplit : s.splitOnP p = s.splitOnP q := by
    induction s with
    | nil => rfl
    | cons c s ih =>
      rw [List.splitOnP_cons_eq_if_modifyHead, List.splitOnP_cons_eq_if_modifyHead, h c List.mem_cons_self,
        ih (fun c hc => h c (List.mem_cons_of_mem _ hc))]
  unfold pieces
  rw [hsplit]

theorem length_le_of_mem_splitOnP {s piece : Bytes} (h : piece ∈ s.splitOnP p) : piece.length ≤ s.length := by
  induction s generalizing piece with
  | nil => simp_all
  | cons c s ih =>
    rw [List.splitOnP_cons_eq_if_modifyHead] at h
    split at h
    . cases List.mem_cons.mp h with
      | inl hnil =>
        rw [hnil]
        exact Nat.zero_le _
      | inr hmem => exact Nat.le_succ_of_le (ih hmem)
    . obtain ⟨first, others, hfirst⟩ := List.exists_cons_of_ne_nil (List.splitOnP_ne_nil p s)
      rw [hfirst] at h ih
      cases List.mem_cons.mp h with
      | inl hhead =>
        rw [hhead, List.length_cons, List.length_cons]
        exact Nat.succ_le_succ (ih List.mem_cons_self)
      | inr hmem => exact Nat.le_succ_of_le (ih (List.mem_cons_of_mem _ hmem))

/-! ### Runs -/

/-- The maximal non-empty runs of what is no separator, in their order -/
inductive Runs (p : UInt8 → Bool) : Bytes → List Bytes → Prop where
  | seps {s : Bytes} (h : ∀ c ∈ s, p c = true) : Runs p s []
  | run {seps word rest : Bytes} {words : List Bytes} (hseps : ∀ c ∈ seps, p c = true) (hne : word ≠ [])
      (hword : ∀ c ∈ word, p c = false) (hstop : ∀ c ∈ rest.head?, p c = true) (hrest : Runs p rest words)
      : Runs p (seps ++ (word ++ rest)) (word :: words)

theorem Runs.pieces_eq {s : Bytes} {words : List Bytes} (h : Runs p s words) : pieces p s = words := by
  induction h with
  | @seps s h =>
    have hs := pieces_seps h []
    rw [List.append_nil] at hs
    rw [hs]
    rfl
  | @run seps word rest words hseps hne hword hstop hrest ih =>
    rw [pieces_seps hseps, ← ih]
    cases rest with
    | nil =>
      rw [List.append_nil, pieces_word hne hword]
      rfl
    | cons c rest =>
      have hc : p c = true := hstop c rfl
      rw [pieces_append hne hword hc, pieces_sep hc]

theorem takeWhile_run {s : Bytes} (hne : s ≠ []) (hfirst : ∀ c ∈ s.head?, p c = false)
    : s.takeWhile (fun c => !p c) ≠ [] ∧ (∀ c ∈ s.takeWhile (fun c => !p c), p c = false)
        ∧ ∀ c ∈ (s.dropWhile fun c => !p c).head?, p c = true := by
  refine ⟨?_, ?_, ?_⟩
  . obtain ⟨c, rest, rfl⟩ := List.exists_cons_of_ne_nil hne
    simp [hfirst c rfl]
  . intro c hc
    simpa using List.mem_takeWhile_imp hc
  . intro c hc
    have hstop := List.head?_dropWhile_not (fun c => !p c) s
    rw [Option.mem_def.mp hc] at hstop
    simpa using hstop

theorem head?_dropWhile {s : Bytes} : ∀ c ∈ (s.dropWhile p).head?, p c = false := by
  intro c hc
  have hfirst := List.head?_dropWhile_not p s
  rw [Option.mem_def.mp hc] at hfirst
  exact hfirst

theorem exists_runs (p : UInt8 → Bool) (s : Bytes) : ∃ words, Runs p s words := by
  induction hn : s.length using Nat.strongRecOn generalizing s with
  | ind n ih =>
    have hseps : ∀ c ∈ s.takeWhile p, p c = true := fun c hc => List.mem_takeWhile_imp hc
    have happend : s.takeWhile p ++ s.dropWhile p = s := List.takeWhile_append_dropWhile
    have hfirst : ∀ c ∈ (s.dropWhile p).head?, p c = false := head?_dropWhile
    generalize s.dropWhile p = left at *
    generalize s.takeWhile p = seps at *
    subst happend
    by_cases hleft : left = []
    . subst hleft
      rw [List.append_nil]
      exact ⟨[], .seps hseps⟩
    . obtain ⟨hne, hword, hstop⟩ := takeWhile_run hleft hfirst
      have hsplit : left.takeWhile (fun c => !p c) ++ left.dropWhile (fun c => !p c) = left :=
        List.takeWhile_append_dropWhile
      generalize left.takeWhile (fun c => !p c) = word at *
      generalize left.dropWhile (fun c => !p c) = rest at *
      subst hsplit
      have hlt : rest.length < n := by
        have hpos := List.length_pos_iff.mpr hne
        simp only [List.length_append] at hn
        omega
      obtain ⟨words, hwords⟩ := ih _ hlt rest rfl
      exact ⟨word :: words, .run hseps hne hword hstop hwords⟩

theorem runs_iff {s : Bytes} {words : List Bytes} : Runs p s words ↔ pieces p s = words := by
  constructor
  . exact Runs.pieces_eq
  . intro h
    obtain ⟨words', hwords⟩ := exists_runs p s
    rw [← h, hwords.pieces_eq]
    exact hwords

theorem pieces_eq_nil_iff {s : Bytes} : pieces p s = [] ↔ ∀ c ∈ s, p c = true := by
  constructor
  . intro h
    cases runs_iff.mpr h with
    | seps hs => exact hs
  . intro h
    exact (Runs.seps h).pieces_eq

theorem pieces_first {s : Bytes} (hne : s ≠ []) (hfirst : ∀ c ∈ s.head?, p c = false)
    : pieces p s = s.takeWhile (fun c => !p c)
        :: pieces p (s.drop ((s.takeWhile fun c => !p c).length + 1)) := by
  obtain ⟨hwordne, hword, hstop⟩ := takeWhile_run hne hfirst
  have happend : s.takeWhile (fun c => !p c) ++ s.dropWhile (fun c => !p c) = s :=
    List.takeWhile_append_dropWhile
  generalize s.takeWhile (fun c => !p c) = word at *
  generalize s.dropWhile (fun c => !p c) = rest at *
  subst happend
  cases rest with
  | nil =>
    rw [List.append_nil, List.drop_eq_nil_of_le (Nat.le_succ _)]
    exact pieces_word hwordne hword
  | cons c rest =>
    have hdrop : (word ++ c :: rest).drop (word.length + 1) = rest := by simp
    rw [hdrop]
    exact pieces_append hwordne hword (hstop c rfl) rest

end Pieces

theorem tokens_eq_pieces (delim s : Bytes) : tokens delim s = pieces delim.contains (cstr s) :=
  rfl

theorem tokens_of_not_mem (delim : Bytes) {s : Bytes} (h : 0 ∉ s) : tokens delim s = pieces delim.contains s := by
  rw [tokens_eq_pieces, cstr_of_not_mem h]

theorem length_le_of_mem_tokens {delim s token : Bytes} (h : token ∈ tokens delim s) : token.length ≤ s.length := by
  unfold tokens at h
  exact Nat.le_trans (length_le_of_mem_splitOnP (List.mem_of_mem_filter h)) (List.takeWhile_prefix _).length_le

theorem strtok_spec (s : Option Bytes) (delim save : Bytes)
    : (strtok s delim save).1 = (tokens delim (s.getD save)).head?
        ∧ tokens delim (strtok s delim save).2 = (tokens delim (s.getD save)).tail := by
  have hnul := zero_not_mem_cstr (s.getD save)
  rw [tokens_eq_pieces delim (s.getD save), ← pieces_dropWhile (fun _ => id)]
  unfold strtok
  dsimp only
  have hfirst : ∀ c ∈ ((cstr (s.getD save)).dropWhile delim.contains).head?, delim.contains c = false :=
    head?_dropWhile
  have hsub : (cstr (s.getD save)).dropWhile delim.contains <:+ cstr (s.getD save) := List.dropWhile_suffix _
  generalize (cstr (s.getD save)).dropWhile delim.contains = left at *
  split
  . next hnil =>
    rw [hnil]
    exact ⟨rfl, rfl⟩
  . next hne =>
    rw [pieces_first hne hfirst]
    refine ⟨rfl, ?_⟩
    apply tokens_of_not_mem
    intro hmem
    exact hnul (hsub.subset (List.mem_of_mem_drop hmem))

theorem strtok_cases {s : Option Bytes} {delim save left : Bytes} {token : Option Bytes}
    (h : strtok s delim save = (token, left))
    : token = (tokens delim (s.getD save)).head? ∧ tokens delim left = (tokens delim (s.getD save)).tail := by
  have hspec := strtok_spec s delim save
  rw [h] at hspec
  exact hspec

theorem strtok_none {s : Option Bytes} {delim save : Bytes} (h : (strtok s delim save).1 = none)
    : (strtok s delim save).2 = [] := by
  unfold strtok at *
  dsimp only at *
  split at h
  . next hnil => rw [if_pos hnil]
  . contradiction

theorem strtok_length_lt {s : Option Bytes} {delim save token : Bytes}
    (h : (strtok s delim save).1 = some token) : (strtok s delim save).2.length < (s.getD save).length := by
  unfold strtok at *
  dsimp only at *
  split at h
  . contradiction
  . next hne =>
    rw [if_neg hne]
    have hsub : (cstr (s.getD save)).dropWhile delim.contains <:+ cstr (s.getD save) :=
      List.dropWhile_suffix _
    have hpre : cstr (s.getD save) <+: s.getD save := List.takeWhile_prefix _
    have hpos := List.length_pos_iff.mpr hne
    have hle := Nat.le_trans hsub.length_le hpre.length_le
    dsimp only
    rw [List.length_drop]
    omega
