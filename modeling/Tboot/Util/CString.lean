import Tboot.Util.Bytes
import Mathlib.Data.List.TakeWhile
import Mathlib.Data.Nat.Digits.Lemmas

/-!
This module contains the functions of the C library on strings. A string in memory is a list of bytes;
what a function of the library sees of it ends before the first zero.
-/

def cstr (s : Bytes) : Bytes :=
  s.takeWhile (· ≠ 0)

theorem cstr_of_not_mem {s : Bytes} (h : 0 ∉ s) : cstr s = s := by
  unfold cstr
  rw [List.takeWhile_eq_self_iff]
  intro c hc
  simpa using ne_of_mem_of_not_mem hc h

theorem cstr_append_zeros (s : Bytes) (n : Nat) : cstr (s ++ List.replicate n 0) = cstr s := by
  have hzeros : (List.replicate n (0 : UInt8)).takeWhile (· ≠ 0) = [] := by
    cases n
    all_goals simp [List.replicate_succ]
  unfold cstr
  rw [List.takeWhile_append, hzeros, List.append_nil]
  split
  . next hall => exact ((List.takeWhile_prefix _).eq_of_length hall).symm
  . rfl

theorem cstr_drop_zeros (s : Bytes) (n k : Nat) : cstr ((s ++ List.replicate n 0).drop k) = cstr (s.drop k) := by
  rw [List.drop_append, List.drop_replicate, cstr_append_zeros]

theorem prefix_append_zeros {s t : Bytes} {n : Nat} (hs : 0 ∉ s)
    : s <+: t ++ List.replicate n 0 ↔ s <+: t := by
  constructor
  . intro h
    cases List.prefix_or_prefix_of_prefix h (List.prefix_append t _) with
    | inl hst => exact hst
    | inr hts =>
      obtain ⟨rest, rfl⟩ := hts
      rw [List.prefix_append_right_inj] at h
      cases rest with
      | nil => simp
      | cons c rest =>
        have hc : c = 0 := List.eq_of_mem_replicate (h.subset List.mem_cons_self)
        simp [hc] at hs
  . intro h
    exact h.trans (List.prefix_append _ _)

/-! ### The first place of a character, as `strchr` finds it -/

theorem not_mem_takeWhile_ne (c : UInt8) (s : Bytes) : c ∉ s.takeWhile (· ≠ c) := by
  intro hmem
  simpa using List.mem_takeWhile_imp hmem

theorem not_mem_of_drop_takeWhile_ne {c : UInt8} {s : Bytes}
    (h : s.drop (s.takeWhile (· ≠ c)).length = []) : s.takeWhile (· ≠ c) = s ∧ c ∉ s := by
  have heq : s.takeWhile (· ≠ c) = s := by
    apply (List.takeWhile_prefix _).eq_of_length_le
    exact List.drop_eq_nil_iff.mp h
  refine ⟨heq, ?_⟩
  rw [← heq]
  exact not_mem_takeWhile_ne c s

theorem drop_takeWhile_ne (c : UInt8) (s : Bytes)
    : s.drop (s.takeWhile (· ≠ c)).length = s.dropWhile (· ≠ c) := by
  have happend : s.takeWhile (· ≠ c) ++ s.dropWhile (· ≠ c) = s := List.takeWhile_append_dropWhile
  have hdrop := congrArg (List.drop (s.takeWhile (· ≠ c)).length) happend
  rw [List.drop_left] at hdrop
  exact hdrop.symm

theorem eq_of_drop_takeWhile_ne {c x : UInt8} {s rest : Bytes}
    (h : s.drop (s.takeWhile (· ≠ c)).length = x :: rest) : x = c := by
  rw [drop_takeWhile_ne] at h
  have hhead := List.head?_dropWhile_not (· ≠ c) s
  rw [h] at hhead
  simpa using hhead

theorem eq_append_of_drop_takeWhile_ne {c x : UInt8} {s rest : Bytes}
    (h : s.drop (s.takeWhile (· ≠ c)).length = x :: rest) : s = s.takeWhile (· ≠ c) ++ c :: rest := by
  have hx := eq_of_drop_takeWhile_ne h
  have happend : s.takeWhile (· ≠ c) ++ s.dropWhile (· ≠ c) = s := List.takeWhile_append_dropWhile
  rw [← drop_takeWhile_ne, h, hx] at happend
  exact happend.symm

theorem splitOn_of_drop_takeWhile_nil {c : UInt8} {s : Bytes} (h : s.drop (s.takeWhile (· ≠ c)).length = [])
    : s.splitOn c = [s.takeWhile (· ≠ c)] := by
  obtain ⟨heq, hnot⟩ := not_mem_of_drop_takeWhile_ne h
  rw [heq]
  exact List.splitOn_eq_singleton hnot

theorem splitOn_of_drop_takeWhile_cons {c x : UInt8} {s rest : Bytes}
    (h : s.drop (s.takeWhile (· ≠ c)).length = x :: rest)
    : s.splitOn c = s.takeWhile (· ≠ c) :: rest.splitOn c := by
  conv_lhs => rw [eq_append_of_drop_takeWhile_ne h]
  exact List.splitOn_append_cons_self_of_not_mem (not_mem_takeWhile_ne c s) rest

theorem takeWhile_ne_append {c : UInt8} {s : Bytes} (h : c ∉ s) (rest : Bytes)
    : (s ++ c :: rest).takeWhile (· ≠ c) = s := by
  induction s with
  | nil => simp
  | cons x s ih =>
    have hx : x ≠ c := fun hx => h (hx ▸ List.mem_cons_self)
    simp only [List.cons_append, List.takeWhile_cons]
    rw [if_pos (by simpa using hx), ih (fun hmem => h (List.mem_cons_of_mem x hmem))]

theorem cstr_append_zero {s : Bytes} (h : 0 ∉ s) (rest : Bytes) : cstr (s ++ 0 :: rest) = s :=
  takeWhile_ne_append h rest

theorem zero_not_mem_cstr (s : Bytes) : 0 ∉ cstr s :=
  not_mem_takeWhile_ne 0 s

theorem cstr_append {s : Bytes} (h : 0 ∉ s) (rest : Bytes) : cstr (s ++ rest) = s ++ cstr rest := by
  apply List.takeWhile_append_of_pos
  intro c hc
  exact decide_eq_true (ne_of_mem_of_not_mem hc h)

theorem eq_cstr_append {s : Bytes} (h : 0 ∈ s) : ∃ rest, s = cstr s ++ 0 :: rest := by
  cases hdrop : s.drop (cstr s).length with
  | nil => exact absurd h (not_mem_of_drop_takeWhile_ne hdrop).2
  | cons c rest => exact ⟨rest, eq_append_of_drop_takeWhile_ne hdrop⟩

def isspace (c : UInt8) : Bool :=
  c = 32 || (9 ≤ c && c ≤ 13)

def isdigit (c : UInt8) : Bool :=
  48 ≤ c && c ≤ 57

def tolower (c : UInt8) : UInt8 :=
  if 65 ≤ c ∧ c ≤ 90 then c + 32 else c

def strcaseeq (s t : Bytes) : Bool :=
  s.map tolower = t.map tolower

def digitVal (c : UInt8) : Nat :=
  if isdigit c then
    c.toNat - 48
  else if 97 ≤ tolower c ∧ tolower c ≤ 122 then
    (tolower c).toNat - 97 + 10
  else
    36

def digits (base : Nat) (s : Bytes) : Nat :=
  (s.takeWhile fun c => digitVal c < base).foldl (fun n c => n * base + digitVal c) 0

/-- The digits after the sign, with the base that they are in when `base` is 0 -/
def magnitude (base : Nat) (s : Bytes) : Nat :=
  let hex :=
    match s with
    | 48 :: x :: d :: _ => tolower x = 120 && digitVal d < 16
    | _ => false
  if hex && (base = 0 || base = 16) then
    digits 16 (s.drop 2)
  else if base = 0 then
    digits (if s.head? = some 48 then 8 else 10) s
  else
    digits base s

def strtou (bits base : Nat) (s : Bytes) : Nat :=
  let s := (cstr s).dropWhile isspace
  match s with
  | 45 :: s =>
    let n := magnitude base s
    if n < 2 ^ bits then (2 ^ bits - n) % 2 ^ bits else 2 ^ bits - 1
  | 43 :: s => min (magnitude base s) (2 ^ bits - 1)
  | s => min (magnitude base s) (2 ^ bits - 1)

theorem strtou_lt (bits base : Nat) (s : Bytes) : strtou bits base s < 2 ^ bits := by
  have hpos : 0 < 2 ^ bits := Nat.two_pow_pos bits
  unfold strtou
  dsimp only
  split
  . split
    . exact Nat.mod_lt _ hpos
    . omega
  all_goals omega

structure IsHex8 (ds : Bytes) (n : Nat) : Prop where
  length : ds.length = 8
  hex : ∀ c ∈ ds, digitVal c < 16
  value : digits 16 ds = n

theorem digitVal_plain {c : UInt8} (h : digitVal c < 16)
    : c ≠ 0 ∧ isspace c = false ∧ c ≠ 43 ∧ c ≠ 45 ∧ tolower c ≠ 120 := by
  have hall : ∀ n : Fin 256, digitVal (UInt8.ofFin n) < 16
      → UInt8.ofFin n ≠ 0 ∧ isspace (UInt8.ofFin n) = false ∧ UInt8.ofFin n ≠ 43 ∧ UInt8.ofFin n ≠ 45
        ∧ tolower (UInt8.ofFin n) ≠ 120 := by
    decide +kernel
  exact hall c.toFin h

theorem foldl_digits_lt (base : Nat) (s : Bytes) (hs : ∀ c ∈ s, digitVal c < base) (a : Nat)
    : s.foldl (fun n c => n * base + digitVal c) a < (a + 1) * base ^ s.length := by
  induction s generalizing a with
  | nil => simp
  | cons c s ih =>
    have hc := hs c List.mem_cons_self
    have hle : (a * base + digitVal c + 1) * base ^ s.length ≤ (a + 1) * base * base ^ s.length := by
      apply Nat.mul_le_mul_right
      rw [Nat.succ_mul]
      omega
    rw [List.foldl_cons, List.length_cons, Nat.pow_succ, Nat.mul_comm (base ^ _), ← Nat.mul_assoc]
    exact Nat.lt_of_lt_of_le (ih (fun d hd => hs d (List.mem_cons_of_mem c hd)) _) hle

theorem le_foldl_digits (base : Nat) (s : Bytes) (a : Nat)
    : a * base ^ s.length ≤ s.foldl (fun n c => n * base + digitVal c) a := by
  induction s generalizing a with
  | nil => simp
  | cons c s ih =>
    calc
      a * base ^ (c :: s).length = a * base * base ^ s.length := by
        rw [List.length_cons, Nat.pow_succ, Nat.mul_comm (base ^ _), Nat.mul_assoc]
      _ ≤ (a * base + digitVal c) * base ^ s.length := Nat.mul_le_mul_right _ (Nat.le_add_right _ _)
      _ ≤ (c :: s).foldl (fun n c => n * base + digitVal c) a := ih _

theorem digitVal_pos {c : UInt8} (h : digitVal c < 10) (hne : c ≠ 48) : 0 < digitVal c := by
  have hall : ∀ n : Fin 256, digitVal (UInt8.ofFin n) < 10 → UInt8.ofFin n ≠ 48
      → 0 < digitVal (UInt8.ofFin n) := by
    decide +kernel
  exact hall c.toFin h hne

def IsPlain (c : UInt8) : Prop :=
  c ≠ 0 ∧ isspace c = false ∧ c ≠ 43 ∧ c ≠ 45

theorem isPlain_of_digitVal {c : UInt8} (h : digitVal c < 16) : IsPlain c := by
  obtain ⟨hzero, hspace, hplus, hminus, -⟩ := digitVal_plain h
  exact ⟨hzero, hspace, hplus, hminus⟩

theorem dropWhile_of_plain {s : Bytes} (hs : ∀ c ∈ s, IsPlain c) : (cstr s).dropWhile isspace = s := by
  rw [cstr_of_not_mem fun hzero => (hs 0 hzero).1 rfl]
  cases s with
  | nil => rfl
  | cons c s =>
    apply List.dropWhile_cons_of_neg
    simp [(hs c List.mem_cons_self).2.1]

/-- Without a blank or a sign, all is left to the digits. -/
theorem strtou_of_plain (bits base : Nat) {s : Bytes} (hs : ∀ c ∈ s, IsPlain c)
    : strtou bits base s = min (magnitude base s) (2 ^ bits - 1) := by
  unfold strtou
  rw [dropWhile_of_plain hs]
  dsimp only
  split
  . exact absurd rfl (hs 45 List.mem_cons_self).2.2.2
  . exact absurd rfl (hs 43 List.mem_cons_self).2.2.1
  . rfl

namespace IsHex8

variable {ds : Bytes} {n : Nat}

theorem lt (h : IsHex8 ds n) : n < 2 ^ 32 := by
  have hall : (ds.takeWhile fun c => digitVal c < 16) = ds := by
    apply List.takeWhile_eq_self_iff.mpr
    intro c hc
    exact decide_eq_true (h.hex c hc)
  have hlt := foldl_digits_lt 16 ds h.hex 0
  rw [h.length] at hlt
  rw [← h.value]
  unfold digits
  rw [hall]
  exact hlt

theorem magnitude_eq (h : IsHex8 ds n) : magnitude 16 ds = n := by
  rw [← h.value]
  unfold magnitude
  dsimp only
  split
  . next x d rest =>
    -- An `x` is not a digit.
    have hx := digitVal_plain (h.hex x (by simp))
    simp [hx.2.2.2.2]
  . simp

theorem strtou_eq (h : IsHex8 ds n) : strtou 32 16 ds = n := by
  have hlt := h.lt
  rw [strtou_of_plain 32 16 fun c hc => isPlain_of_digitVal (h.hex c hc), h.magnitude_eq]
  omega

end IsHex8

def strtos (bits base : Nat) (s : Bytes) : Int :=
  let s := (cstr s).dropWhile isspace
  match s with
  | 45 :: s => max (-(magnitude base s : Int)) (-2 ^ (bits - 1))
  | 43 :: s => min (magnitude base s : Int) (2 ^ (bits - 1) - 1)
  | s => min (magnitude base s : Int) (2 ^ (bits - 1) - 1)

theorem strtos_of_plain (bits base : Nat) {s : Bytes} (hs : ∀ c ∈ s, IsPlain c)
    : strtos bits base s = min (magnitude base s : Int) (2 ^ (bits - 1) - 1) := by
  unfold strtos
  rw [dropWhile_of_plain hs]
  dsimp only
  split
  . exact absurd rfl (hs 45 List.mem_cons_self).2.2.2
  . exact absurd rfl (hs 43 List.mem_cons_self).2.2.1
  . rfl

def strstr (s t : Bytes) : Option Bytes :=
  s.tails.find? fun rest => t.isPrefixOf rest

def tokens (seps s : Bytes) : List Bytes :=
  ((cstr s).splitOnP fun c => seps.contains c).filter (· ≠ [])

def hexDigit (n : Nat) : UInt8 :=
  if n < 10 then UInt8.ofNat (48 + n) else UInt8.ofNat (87 + n)

def hex8 (n : Nat) : Bytes :=
  let ds := (Nat.digits 16 n).reverse.map hexDigit
  List.replicate (8 - ds.length) 48 ++ ds

theorem hex8_length_iff (n : Nat) : (hex8 n).length = 8 ↔ n < 2 ^ 32 := by
  have hdigits : (Nat.digits 16 n).length ≤ 8 ↔ n < 16 ^ 8 := Nat.digits_length_le_iff (by decide) n
  unfold hex8
  simp only [List.length_append, List.length_replicate, List.length_map, List.length_reverse]
  omega

def dec (n : Nat) : Bytes :=
  if n = 0 then [48] else (Nat.digits 10 n).reverse.map hexDigit
