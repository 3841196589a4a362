import Mathlib.Data.List.Basic

/-!
This module contains the byte strings all other modules work on: C strings as lists of bytes,
and consecutive slices of an unbounded stream of bytes.
-/

abbrev Bytes := List UInt8

def str (s : String) : Bytes :=
  s.toList.map fun c => UInt8.ofNat c.toNat

namespace Bytes

def slice (host : Nat → UInt8) (pos size : Nat) : Bytes :=
  (List.range' pos size).map host

variable (host : Nat → UInt8)

@[simp]
theorem slice_length (pos size : Nat) : (slice host pos size).length = size := by
  simp [slice]

@[simp]
theorem slice_zero (pos : Nat) : slice host pos 0 = [] := by
  simp [slice]

theorem slice_append (pos n m : Nat)
    : slice host pos n ++ slice host (pos + n) m = slice host pos (n + m) := by
  unfold slice
  rw [← List.map_append]
  rw [List.range'_append_1]

theorem slice_prefix (pos : Nat) {n m : Nat} (h : n ≤ m)
    : slice host pos n <+: slice host pos m := by
  refine ⟨slice host (pos + n) (m - n), ?_⟩
  rw [slice_append]
  congr
  omega

theorem slice_getElem? (pos : Nat) {n i : Nat} (h : i < n)
    : (slice host pos n)[i]? = some (host (pos + i)) := by
  simp [slice, h]

end Bytes
