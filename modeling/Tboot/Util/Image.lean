import Tboot.Util.Bytes
import Tboot.Util.Region
import Mathlib.Algebra.Group.Nat.Defs

/-!
This module contains the contents of a disk as a function from addresses to bytes, lists of writes to it,
and numbers in little-endian order: what has been written is read back when no later write touches it.
-/

abbrev Image := Nat → UInt8

structure Patch where
  offset : Nat
  data : Bytes
  deriving DecidableEq, Repr

namespace Patch

def extent (p : Patch) : Region Nat :=
  ⟨p.offset, p.offset + p.data.length⟩

def write (img : Image) (p : Patch) : Image :=
  fun i => if p.offset ≤ i then (p.data[i - p.offset]?).getD (img i) else img i

def writeAll (img : Image) (ps : List Patch) : Image :=
  ps.foldl write img

@[simp]
theorem writeAll_cons (img : Image) (p : Patch) (ps : List Patch)
    : writeAll img (p :: ps) = writeAll (p.write img) ps :=
  rfl

theorem write_of_not_mem {img : Image} {p : Patch} {i : Nat} (h : i ∉ p.extent.points)
    : p.write img i = img i := by
  unfold write
  split
  . next hle =>
    have hout : p.data.length ≤ i - p.offset := by
      unfold extent Region.points at h
      rw [Set.mem_Ico] at h
      dsimp only at h
      omega
    rw [List.getElem?_eq_none hout]
    rfl
  . rfl

theorem slice_write_of_apart {img : Image} {p : Patch} {pos n : Nat}
    (h : Region.Apart ⟨pos, pos + n⟩ p.extent)
    : Bytes.slice (p.write img) pos n = Bytes.slice img pos n := by
  unfold Bytes.slice
  apply List.map_congr_left
  intro i hi
  apply write_of_not_mem
  apply Set.disjoint_left.mp h
  unfold Region.points
  rw [Set.mem_Ico]
  simpa using hi

theorem slice_write_self (img : Image) (p : Patch)
    : Bytes.slice (p.write img) p.offset p.data.length = p.data := by
  apply List.ext_getElem?
  intro i
  by_cases hi : i < p.data.length
  . rw [Bytes.slice_getElem? _ _ hi]
    simp [write, hi]
  . rw [List.getElem?_eq_none (by simp; omega)]
    rw [List.getElem?_eq_none (by omega)]

theorem write_write (img : Image) (pos : Nat) (a b : Bytes)
    : write (write img ⟨pos, a⟩) ⟨pos + a.length, b⟩ = write img ⟨pos, a ++ b⟩ := by
  funext i
  unfold write
  dsimp only
  by_cases hpos : pos ≤ i
  . rw [if_pos hpos, if_pos hpos, List.getElem?_append]
    by_cases hmid : pos + a.length ≤ i
    . rw [if_pos hmid, if_neg (by omega), List.getElem?_eq_none (l := a) (by omega)]
      have hsub : i - (pos + a.length) = i - pos - a.length := by omega
      rw [hsub]
      rfl
    . rw [if_neg hmid, if_pos (by omega)]
  . rw [if_neg (by omega), if_neg hpos, if_neg hpos]

theorem slice_writeAll_of_apart {img : Image} {ps : List Patch} {pos n : Nat}
    (h : ∀ p ∈ ps, Region.Apart ⟨pos, pos + n⟩ p.extent)
    : Bytes.slice (writeAll img ps) pos n = Bytes.slice img pos n := by
  induction ps generalizing img with
  | nil => rfl
  | cons p ps ih =>
    rw [writeAll_cons]
    rw [ih fun q hq => h q (List.mem_cons_of_mem p hq)]
    exact slice_write_of_apart (h p List.mem_cons_self)

theorem slice_writeAll_of_mem {img : Image} {ps : List Patch} {p : Patch}
    (hapart : (ps.map extent).Pairwise Region.Apart) (hmem : p ∈ ps)
    : Bytes.slice (writeAll img ps) p.offset p.data.length = p.data := by
  induction ps generalizing img with
  | nil => contradiction
  | cons q ps ih =>
    rw [List.map_cons, List.pairwise_cons] at hapart
    rw [writeAll_cons]
    cases List.mem_cons.mp hmem with
    | inl heq =>
      rw [heq, slice_writeAll_of_apart]
      . exact slice_write_self img q
      . intro r hr
        exact hapart.left r.extent (List.mem_map_of_mem hr)
    | inr hrest => exact ih hapart.right hrest

end Patch

namespace Bytes

variable {host : Nat → UInt8}

theorem slice_of_append {pos n : Nat} {xs ys : Bytes} (h : slice host pos n = xs ++ ys)
    : slice host pos xs.length = xs ∧ slice host (pos + xs.length) ys.length = ys := by
  have hn : n = xs.length + ys.length := by
    have := congrArg List.length h
    simpa using this
  rw [hn, ← slice_append] at h
  exact List.append_inj h (by simp)

/-! ### Little-endian numbers -/

def le (n : Nat) : Nat → Bytes
  | 0 => []
  | width + 1 => UInt8.ofNat n :: le (n / 256) width

def ofLe : Bytes → Nat
  | [] => 0
  | b :: bs => b.toNat + 256 * ofLe bs

@[simp]
theorem le_length (n width : Nat) : (le n width).length = width := by
  induction width generalizing n with
  | zero => rfl
  | succ width ih =>
    unfold le
    rw [List.length_cons, ih]

theorem ofLe_le (n width : Nat) : ofLe (le n width) = n % 256 ^ width := by
  induction width generalizing n with
  | zero =>
    rw [Nat.pow_zero, Nat.mod_one]
    rfl
  | succ width ih =>
    unfold le ofLe
    have hbyte : (UInt8.ofNat n).toNat = n % 256 := UInt8.toNat_ofNat'
    rw [ih, hbyte]
    rw [Nat.pow_succ', Nat.mod_mul]

end Bytes
