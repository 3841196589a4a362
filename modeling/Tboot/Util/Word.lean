import Mathlib.Data.Nat.Bitwise

/-!
This module contains the unsigned integers of the source as natural numbers, with the reduction to
their width written where the source computes in that width.
-/

def u32 (n : Nat) : Nat := n % 2 ^ 32

def u64 (n : Nat) : Nat := n % 2 ^ 64

theorem u32_lt (n : Nat) : u32 n < 2 ^ 32 := by
  apply Nat.mod_lt
  simp

theorem u32_of_lt {n : Nat} (h : n < 2 ^ 32) : u32 n = n :=
  Nat.mod_eq_of_lt h

theorem u64_of_lt {n : Nat} (h : n < 2 ^ 64) : u64 n = n :=
  Nat.mod_eq_of_lt h

/-- `n & ~(m - 1)` on 64 bits -/
def maskOff (n m : Nat) : Nat :=
  n &&& (2 ^ 64 - 1 - u64 (m + (2 ^ 64 - 1)))

theorem maskOff_two_pow {n k : Nat} (hn : n < 2 ^ 64) (hk : k < 64)
    : maskOff n (2 ^ k) = n / 2 ^ k * 2 ^ k := by
  have hpow : 2 ^ k ≤ 2 ^ 64 := Nat.pow_le_pow_right (by simp) (by omega)
  have hpos : 0 < 2 ^ k := by
    apply Nat.pow_pos
    simp
  have hmask : 2 ^ 64 - 1 - u64 (2 ^ k + (2 ^ 64 - 1)) = (2 ^ (64 - k) - 1) <<< k := by
    have hsplit : 2 ^ 64 = 2 ^ (64 - k) * 2 ^ k := by
      rw [← Nat.pow_add, Nat.sub_add_cancel (by omega)]
    have hwrap : u64 (2 ^ k + (2 ^ 64 - 1)) = 2 ^ k - 1 := by
      have hlt : 2 ^ k < 2 ^ 64 := Nat.pow_lt_pow_right (by simp) hk
      unfold u64
      omega
    rw [hwrap, Nat.shiftLeft_eq, Nat.sub_mul, ← hsplit]
    omega
  unfold maskOff
  rw [hmask]
  apply Nat.eq_of_testBit_eq
  intro i
  rw [← Nat.shiftRight_eq_div_pow, ← Nat.shiftLeft_eq]
  rw [Nat.testBit_and, Nat.testBit_shiftLeft, Nat.testBit_shiftLeft, Nat.testBit_shiftRight]
  rw [Nat.testBit_two_pow_sub_one]
  by_cases hik : k ≤ i
  . have hback : k + (i - k) = i := by omega
    simp only [hik, decide_true, Bool.true_and, hback]
    by_cases hi : i < 64
    . have : i - k < 64 - k := by omega
      simp [this]
    . have hbit : n.testBit i = false := by
        apply Nat.testBit_lt_two_pow
        refine Nat.lt_of_lt_of_le hn ?_
        exact Nat.pow_le_pow_right (by simp) (by omega)
      simp [hbit]
  . simp [hik]
