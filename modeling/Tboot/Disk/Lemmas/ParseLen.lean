import Tboot.Disk.Impl.Load
import Tboot.Util.Decimal

/-!
This module contains what `parse_len` makes of a number with a unit, and when that is the length in kilobytes
that the text says.
-/

namespace Disk

inductive LenUnit where
  | plain
  | K
  | k
  | M
  | m
  deriving DecidableEq, Repr

namespace LenUnit

def text : LenUnit → Bytes
  | plain => []
  | K => [75]
  | k => [107]
  | M => [77]
  | m => [109]

def kilobytes (n : Nat) : LenUnit → Nat
  | plain | K | k => n
  | M | m => 1024 * n

/-- What `parse_len` multiplies by: the unit is cut off from a number of more than 62 digits. -/
def factor (d : Numeral) (u : LenUnit) : Nat :=
  if u = plain ∨ 62 < d.text.length then 1 else 1024

end LenUnit

def copied (d : Numeral) : Numeral :=
  d.take 63 (by decide)

def scaled (n factor : Nat) : Option Nat :=
  if n = 0 then
    none
  else if 2 ^ 64 - 1 ≤ n then
    if factor > 1 then none else some (2 ^ 64 - 1)
  else if n * factor % 2 ^ 64 > 0xffffffff then
    none
  else
    some (n * factor % 2 ^ 64)

theorem suffix_of_constant {t : Bytes} {n : Nat} (h : IsConstant t n) : suffix t = (t, 1) := by
  unfold suffix
  split
  . next hlast => exact absurd (h.mem (List.mem_of_getLast? hlast)) (by decide)
  . next hlast => exact absurd (h.mem (List.mem_of_getLast? hlast)) (by decide)
  . next hlast => exact absurd (h.mem (List.mem_of_getLast? hlast)) (by decide)
  . next hlast => exact absurd (h.mem (List.mem_of_getLast? hlast)) (by decide)
  . rfl

theorem parseLen_of_suffix {s t : Bytes} {multiple factor : Nat} (hs : s.take 63 ≠ [])
    (hsuffix : suffix (s.take 63) = (t, multiple))
    (hfactor : (if multiple > 1024 then multiple / 1024 else multiple) = factor)
    (hone : multiple > 1 ↔ factor > 1) (n : Nat) (hn : strtou 64 0 t = min n (2 ^ 64 - 1))
    : parseLen s = scaled n factor := by
  have hzero : min n (2 ^ 64 - 1) = 0 ↔ n = 0 := by omega
  have hmax : min n (2 ^ 64 - 1) = 2 ^ 64 - 1 ↔ 2 ^ 64 - 1 ≤ n := by omega
  unfold parseLen scaled
  rw [if_neg hs, hsuffix]
  dsimp only
  rw [hn, hfactor]
  simp only [hzero, hone]
  split
  . rfl
  . split
    . next hlarge =>
      rw [hmax] at hlarge
      rw [if_pos hlarge, Nat.min_eq_right hlarge]
    . next hsmall =>
      rw [hmax] at hsmall
      rw [if_neg hsmall, Nat.min_eq_left (by omega)]
      rfl

theorem parseLen_of_constant {t : Bytes} {n : Nat} (h : IsConstant t n) {s : Bytes} (hs : s.take 63 = t)
    : parseLen s = scaled n 1 := by
  refine @parseLen_of_suffix _ t 1 1 ?_ ?_ (by decide) (by decide) _ (h.strtou_eq 64)
  . rw [hs]
    exact h.ne_nil
  . rw [hs, suffix_of_constant h]

theorem parseLen_of_unit {t : Bytes} {n : Nat} (h : IsConstant t n) (u : LenUnit) (hu : u ≠ .plain)
    (hlen : t.length ≤ 62) : parseLen (t ++ u.text) = scaled n 1024 := by
  have htake : (t ++ u.text).take 63 = t ++ u.text := by
    apply List.take_of_length_le
    cases u
    all_goals simp [LenUnit.text]; omega
  have hne : (t ++ u.text).take 63 ≠ [] := by
    rw [htake]
    exact List.append_ne_nil_of_left_ne_nil h.ne_nil _
  cases u with
  | plain => exact absurd rfl hu
  | K | k =>
    refine @parseLen_of_suffix _ t (2 ^ 10) 1024 hne ?_ (by decide) (by decide) _ (h.strtou_eq 64)
    rw [htake]
    simp [suffix, LenUnit.text]
  | M | m =>
    refine @parseLen_of_suffix _ t (2 ^ 20) 1024 hne ?_ (by decide) (by decide) _ (h.strtou_eq 64)
    rw [htake]
    simp [suffix, LenUnit.text]

theorem parseLen_eq (d : Numeral) (u : LenUnit)
    : parseLen (d.text ++ u.text) = scaled (copied d).constant (u.factor d) := by
  unfold LenUnit.factor
  split
  . next h =>
    apply parseLen_of_constant (.digits (copied d))
    cases h with
    | inl hplain =>
      rw [hplain]
      exact congrArg (List.take 63) (List.append_nil d.text)
    | inr hlong => exact List.take_append_of_le_length hlong
  . next h =>
    push Not at h
    unfold copied
    rw [d.take_of_length_le _ (by omega)]
    exact parseLen_of_unit (.digits d) u h.1 h.2

/-! ### The length that the text says -/

theorem configStr_len {node : Cnode} {pinfo : PartInfo} {t : Bytes}
    (hlen : configStr node (str "len") none = some t) (hload : loadPartition node = some pinfo)
    : ∃ len, parseLen t = some len ∧ pinfo.lenKb = UInt32.ofNat len := by
  have hkb : ∀ flags type, (((parseLen t).map UInt32.ofNat).bind fun lenKb =>
      some (⟨node.name, flags, type, lenKb, 0⟩ : PartInfo)) = some pinfo
      → ∃ len, parseLen t = some len ∧ pinfo.lenKb = UInt32.ofNat len := by
    intro flags type hbind
    cases hparse : parseLen t with
    | none => simp [hparse] at hbind
    | some len =>
      rw [hparse] at hbind
      cases hbind
      exact ⟨len, rfl, rfl⟩
  unfold loadPartition at hload
  rw [hlen] at hload
  simp only [Option.bind_eq_bind, Option.bind_eq_some_iff] at hload
  obtain ⟨tmp, _, hload⟩ := hload
  split at hload
  . exact hkb _ _ hload
  . split at hload
    . exact hkb _ _ hload
    . simp at hload

def lenNode (t : Bytes) : Cnode :=
  ⟨str "p", [], [⟨str "type", str "linux", []⟩, ⟨str "len", t, []⟩]⟩

theorem configStr_lenNode (t : Bytes) : configStr (lenNode t) (str "len") none = some t := by
  rfl

theorem loadPartition_lenNode {t : Bytes} {len : Nat} (h : parseLen t = some len)
    : loadPartition (lenNode t) = some ⟨str "p", 0, pcPartTypeLinux, UInt32.ofNat len, 0⟩ := by
  have htype : configStr (lenNode t) (str "type") none = some (str "linux") := rfl
  have hactive : configBool (lenNode t) (str "active") false = false := rfl
  unfold loadPartition
  rw [htype, hactive, configStr_lenNode]
  simp [h]
  rfl

/-- The text is accepted with its length in kilobytes only, and never for the rest of the disk. -/
structure ExactLen (d : Numeral) (u : LenUnit) : Prop where
  accepted : ∀ len, parseLen (d.text ++ u.text) = some len → len = u.kilobytes d.value ∧ len < 2 ^ 32
  rejected : 2 ^ 32 ≤ u.kilobytes d.value → parseLen (d.text ++ u.text) = none
  notFill : ∀ node pinfo, configStr node (str "len") none = some (d.text ++ u.text)
    → loadPartition node = some pinfo → pinfo.lenKb ≠ fillDisk

theorem exactLen_iff_parseLen (d : Numeral) (u : LenUnit)
    : ExactLen d u ↔ ∀ len, parseLen (d.text ++ u.text) = some len
        → len = u.kilobytes d.value ∧ len < 2 ^ 32 - 1 := by
  constructor
  . intro h len hparse
    have haccepted := h.accepted len hparse
    have hfill := h.notFill _ _ (configStr_lenNode _) (loadPartition_lenNode hparse)
    refine ⟨haccepted.1, ?_⟩
    by_contra hge
    have hmax : len = 2 ^ 32 - 1 := by omega
    subst hmax
    exact hfill rfl
  . intro h
    constructor
    . intro len hparse
      have hlen := h len hparse
      omega
    . intro hlarge
      cases hparse : parseLen (d.text ++ u.text) with
      | none => rfl
      | some len =>
        have hlen := h len hparse
        omega
    . intro node pinfo hnode hload
      obtain ⟨len, hparse, hkb⟩ := configStr_len hnode hload
      have hlen := h len hparse
      rw [hkb]
      intro hfill
      have hnat := congrArg UInt32.toNat hfill
      rw [UInt32.toNat_ofNat_of_lt' (by simp [UInt32.size]; omega)] at hnat
      unfold fillDisk at hnat
      simp at hnat
      omega

def ScaledExact (n factor kb : Nat) : Prop :=
  n = 0
    ∨ (2 ^ 64 - 1 ≤ n ∧ 1 < factor)
    ∨ (n < 2 ^ 64 - 1 ∧ 2 ^ 32 ≤ n * factor % 2 ^ 64)
    ∨ (n < 2 ^ 64 - 1 ∧ n * factor % 2 ^ 64 = kb ∧ kb ≠ 2 ^ 32 - 1)

theorem scaled_exact_iff (n factor kb : Nat)
    : (∀ len, scaled n factor = some len → len = kb ∧ len < 2 ^ 32 - 1) ↔ ScaledExact n factor kb := by
  unfold scaled ScaledExact
  generalize n * factor % 2 ^ 64 = product
  split
  . next hzero => simp [hzero]
  . split
    . split
      . simp
        omega
      . simp
        omega
    . split
      . simp
        omega
      . simp
        omega

/--
The texts that say what `parse_len` reads. Octal digits, after a zero, are compared with what they would
be in decimal; of the others, `K` is multiplied as `M` is, and only a product that is too large in 64 bits
is refused.
-/
def SaysLen (d : Numeral) (u : LenUnit) : Prop :=
  if d.leadingZero then
    ScaledExact (copied d).constant (u.factor d) (u.kilobytes d.value)
  else
    match u with
    | .plain => d.value < 2 ^ 64 - 1 ∧ d.value ≠ 2 ^ 32 - 1
    | .K | .k =>
      d.text.length ≤ 62 ∧ (2 ^ 64 - 1 ≤ d.value ∨ 2 ^ 32 ≤ d.value * 1024 % 2 ^ 64)
    | .M | .m =>
      d.text.length ≤ 62 ∧ (d.value < 2 ^ 22 ∨ 2 ^ 64 - 1 ≤ d.value ∨ 2 ^ 32 ≤ d.value * 1024 % 2 ^ 64)

theorem large_constant_take {d : Numeral} (h : d.leadingZero = false) (hlen : 62 < d.text.length)
    : 2 ^ 64 - 1 ≤ (copied d).constant := by
  have hzero : (copied d).leadingZero = false := (d.leadingZero_take _).trans h
  have hle := (copied d).pow_le_value hzero
  have htake : (copied d).text.length = 63 := by
    unfold copied Numeral.take
    rw [List.length_take]
    omega
  rw [htake] at hle
  rw [Numeral.constant_eq_value _ hzero]
  omega

theorem constant_take_of_short {d : Numeral} (h : d.leadingZero = false) (hlen : d.text.length ≤ 62)
    : (copied d).constant = d.value := by
  unfold copied
  rw [d.take_of_length_le _ (by omega), d.constant_eq_value h]

theorem exactLen_iff_scaledExact (d : Numeral) (u : LenUnit)
    : ExactLen d u
        ↔ ScaledExact (copied d).constant (u.factor d) (u.kilobytes d.value) := by
  rw [exactLen_iff_parseLen, parseLen_eq, scaled_exact_iff]

theorem not_scaledExact_of_large {n kb : Nat} (h : 2 ^ 64 - 1 ≤ n) : ¬ ScaledExact n 1 kb := by
  unfold ScaledExact
  omega

theorem scaledExact_plain_iff {n : Nat} (hpos : 0 < n)
    : ScaledExact n 1 n ↔ n < 2 ^ 64 - 1 ∧ n ≠ 2 ^ 32 - 1 := by
  unfold ScaledExact
  rw [Nat.mul_one]
  by_cases hlt : n < 2 ^ 64 - 1
  . rw [Nat.mod_eq_of_lt (by omega)]
    omega
  . omega

/-- The product is no longer `n`: 1023 is odd. -/
theorem scaledExact_K_iff {n : Nat} (hpos : 0 < n)
    : ScaledExact n 1024 n ↔ 2 ^ 64 - 1 ≤ n ∨ 2 ^ 32 ≤ n * 1024 % 2 ^ 64 := by
  unfold ScaledExact
  omega

theorem scaledExact_M_iff {n : Nat} (hpos : 0 < n)
    : ScaledExact n 1024 (1024 * n) ↔ n < 2 ^ 22 ∨ 2 ^ 64 - 1 ≤ n ∨ 2 ^ 32 ≤ n * 1024 % 2 ^ 64 := by
  unfold ScaledExact
  omega

theorem scaledExact_iff_saysLen {d : Numeral} (h : d.leadingZero = false) (u : LenUnit)
    : ScaledExact (copied d).constant (u.factor d) (u.kilobytes d.value) ↔ SaysLen d u := by
  have hpos := d.value_pos h
  have hlarge : 62 < d.text.length → 2 ^ 64 - 1 ≤ d.value := by
    intro hlen
    have hle := d.pow_le_value h
    have hpow : 10 ^ 62 ≤ 10 ^ (d.text.length - 1) := Nat.pow_le_pow_right (by decide) (by omega)
    omega
  have hzero : ¬ d.leadingZero = true := by simp [h]
  unfold SaysLen
  rw [if_neg hzero]
  unfold LenUnit.factor
  by_cases hlen : d.text.length ≤ 62
  . have hshort : ¬ 62 < d.text.length := by omega
    rw [constant_take_of_short h hlen]
    cases u with
    | plain => simpa [LenUnit.kilobytes] using scaledExact_plain_iff hpos
    | K | k => simpa [LenUnit.kilobytes, hlen, hshort] using scaledExact_K_iff hpos
    | M | m => simpa [LenUnit.kilobytes, hlen, hshort] using scaledExact_M_iff hpos
  . have hno : ¬ ScaledExact (copied d).constant 1 (u.kilobytes d.value) := by
      exact not_scaledExact_of_large (large_constant_take h (by omega))
    rw [if_pos (Or.inr (by omega))]
    cases u with
    | plain =>
      have hmax := hlarge (by omega)
      simp only [hno, false_iff]
      omega
    | K | k | M | m => simp [hno, hlen]

theorem exactLen_iff_saysLen (d : Numeral) (u : LenUnit) : ExactLen d u ↔ SaysLen d u := by
  rw [exactLen_iff_scaledExact]
  cases h : d.leadingZero with
  | false => exact scaledExact_iff_saysLen h u
  | true =>
    unfold SaysLen
    rw [if_pos h]

theorem parseLen_kilobytes_as_megabytes
    : parseLen (str "1024K") = some 1048576 ∧ parseLen (str "1M") = some 1024
      ∧ ¬ ExactLen ⟨str "1024", by decide, by decide +kernel⟩ .K := by
  have hparse : parseLen (str "1024K") = some 1048576 := by decide +kernel
  refine ⟨hparse, by decide +kernel, ?_⟩
  intro h
  have hlen := (h.accepted 1048576 hparse).1
  revert hlen
  decide +kernel

end Disk
