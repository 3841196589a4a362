import Tboot.Util.CString

/-!
This module contains numbers as they are written in C, and what `strtoull` makes of them when it is to find
out their base.
-/

structure Numeral where
  text : Bytes
  ne_nil : text ≠ []
  digit : ∀ c ∈ text, digitVal c < 10

namespace Numeral

variable (d : Numeral)

def value : Nat :=
  digits 10 d.text

def leadingZero : Bool :=
  d.text.head? = some 48

/-- The number that they denote as a constant of C, where a zero in front is for octal digits -/
def constant : Nat :=
  digits (if d.leadingZero then 8 else 10) d.text

def take (n : Nat) (hn : 0 < n) : Numeral where
  text := d.text.take n
  ne_nil := by
    intro hnil
    cases List.take_eq_nil_iff.mp hnil with
    | inl hzero => omega
    | inr htext => exact d.ne_nil htext
  digit := by
    intro c hc
    exact d.digit c (List.mem_of_mem_take hc)

theorem take_of_length_le {n : Nat} (hn : 0 < n) (h : d.text.length ≤ n) : d.take n hn = d := by
  unfold take
  simp only [List.take_of_length_le h]

theorem leadingZero_take {n : Nat} (hn : 0 < n) : (d.take n hn).leadingZero = d.leadingZero := by
  unfold leadingZero take
  dsimp only
  rw [List.head?_take, if_neg (by omega)]

theorem constant_eq_value (h : d.leadingZero = false) : d.constant = d.value := by
  unfold constant value
  rw [h]
  rfl

theorem value_eq_foldl : d.value = d.text.foldl (fun n c => n * 10 + digitVal c) 0 := by
  have hall : (d.text.takeWhile fun c => digitVal c < 10) = d.text := by
    apply List.takeWhile_eq_self_iff.mpr
    intro c hc
    exact decide_eq_true (d.digit c hc)
  unfold value digits
  rw [hall]

theorem pow_le_value (h : d.leadingZero = false) : 10 ^ (d.text.length - 1) ≤ d.value := by
  rw [d.value_eq_foldl]
  unfold leadingZero at h
  cases htext : d.text with
  | nil => exact absurd htext d.ne_nil
  | cons c rest =>
    have hc : digitVal c < 10 := d.digit c (by simp [htext])
    have hne : c ≠ 48 := by
      rintro rfl
      simp [htext] at h
    have hpos := digitVal_pos hc hne
    calc
      10 ^ ((c :: rest).length - 1) = 1 * 10 ^ rest.length := by simp
      _ ≤ digitVal c * 10 ^ rest.length := Nat.mul_le_mul_right _ hpos
      _ ≤ rest.foldl (fun n c => n * 10 + digitVal c) (digitVal c) := le_foldl_digits 10 rest _
      _ = (c :: rest).foldl (fun n c => n * 10 + digitVal c) 0 := by simp

theorem value_pos (h : d.leadingZero = false) : 0 < d.value :=
  Nat.lt_of_lt_of_le (Nat.pow_pos (by decide)) (d.pow_le_value h)

theorem magnitude_eq : magnitude 0 d.text = d.constant := by
  unfold magnitude constant leadingZero
  dsimp only
  split
  . next x _ _ htext =>
    -- An `x` is not a digit.
    have hx : digitVal x < 10 := d.digit x (by simp [htext])
    simp [(digitVal_plain (show digitVal x < 16 by omega)).2.2.2.2]
  . simp

end Numeral

/-- The constants of C: decimal digits, octal ones behind a zero, or hexadecimal ones behind `0x` -/
inductive IsConstant : Bytes → Nat → Prop where
  | digits (d : Numeral) : IsConstant d.text d.constant
  | hex {x : UInt8} {ds : Bytes} : tolower x = 120 → ds ≠ [] → (∀ c ∈ ds, digitVal c < 16)
      → IsConstant (48 :: x :: ds) (digits 16 ds)

theorem IsConstant.of_numeral {text : Bytes} {n : Nat} (d : Numeral) (htext : d.text = text) (hn : d.constant = n)
    : IsConstant text n := by
  subst htext hn
  exact .digits d

theorem tolower_eq_x {x : UInt8} (h : tolower x = 120) : x = 88 ∨ x = 120 := by
  have hall : ∀ n : Fin 256, tolower (UInt8.ofFin n) = 120 → UInt8.ofFin n = 88 ∨ UInt8.ofFin n = 120 := by
    decide +kernel
  exact hall x.toFin h

namespace IsConstant

variable {text : Bytes} {n : Nat} (h : IsConstant text n)
include h

theorem ne_nil : text ≠ [] := by
  cases h with
  | digits d => exact d.ne_nil
  | hex => exact List.cons_ne_nil _ _

theorem mem {c : UInt8} (hc : c ∈ text) : digitVal c < 16 ∨ c = 88 ∨ c = 120 := by
  cases h with
  | digits d =>
    have hlt := d.digit c hc
    exact .inl (by omega)
  | @hex x ds hx _ hds =>
    rw [List.mem_cons, List.mem_cons] at hc
    rcases hc with rfl | rfl | hc
    . exact .inl (by decide)
    . exact .inr (tolower_eq_x hx)
    . exact .inl (hds c hc)

theorem plain : ∀ c ∈ text, IsPlain c := by
  intro c hc
  rcases h.mem hc with hlt | rfl | rfl
  . exact isPlain_of_digitVal hlt
  . exact ⟨by decide, by decide, by decide, by decide⟩
  . exact ⟨by decide, by decide, by decide, by decide⟩

theorem magnitude_eq : magnitude 0 text = n := by
  cases h with
  | digits d => exact d.magnitude_eq
  | @hex x ds hx hne hds =>
    cases ds with
    | nil => exact absurd rfl hne
    | cons c ds =>
      have hc : digitVal c < 16 := hds c List.mem_cons_self
      simp [magnitude, hx, hc]

theorem strtou_eq (bits : Nat) : strtou bits 0 text = min n (2 ^ bits - 1) := by
  rw [strtou_of_plain bits 0 h.plain, h.magnitude_eq]

theorem strtos_eq {bits : Nat} (hn : n < 2 ^ (bits - 1)) : strtos bits 0 text = n := by
  have hlt : (n : Int) < 2 ^ (bits - 1) := by exact_mod_cast hn
  rw [strtos_of_plain bits 0 h.plain, h.magnitude_eq]
  omega

end IsConstant
