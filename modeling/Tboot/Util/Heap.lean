import Tboot.Util.CString

/-!
This module contains what the functions of the C library do to strings in place. The memory from some
address on is a list of bytes, and a pointer into it is a position; a list that goes on behind the
terminating zero of a string is left alone there.
-/

namespace Heap

def string (mem : Bytes) (p : Nat) : Bytes :=
  cstr (mem.drop p)

def strchr (mem : Bytes) (p : Nat) (c : UInt8) : Option Nat :=
  if c ∈ string mem p then some (p + ((string mem p).takeWhile (· ≠ c)).length) else none

def memmove (mem : Bytes) (dst src n : Nat) : Bytes :=
  mem.take dst ++ (mem.drop src).take n ++ mem.drop (dst + n)

def store (mem : Bytes) (p : Nat) (s : Bytes) : Bytes :=
  mem.take p ++ s ++ mem.drop (p + s.length)

theorem store_append (s t : Bytes) {mem : Bytes} : store (s ++ mem) s.length t = s ++ t ++ mem.drop t.length := by
  unfold store
  rw [List.take_left, List.drop_append, List.drop_eq_nil_of_le (by omega), List.nil_append]
  congr 2
  omega

variable {mem : Bytes} {p q : Nat} {c : UInt8}

theorem string_of_drop {s more : Bytes} (hs : 0 ∉ s) (h : mem.drop p = s ++ 0 :: more) : string mem p = s := by
  unfold string
  rw [h, cstr_append_zero hs]

theorem string_append (h : 0 ∈ mem.drop p) (tail : Bytes) : string (mem ++ tail) p = string mem p := by
  have hp : p ≤ mem.length := by
    apply Nat.le_of_not_lt
    intro hlt
    rw [List.drop_eq_nil_of_le (Nat.le_of_lt hlt)] at h
    exact absurd h (List.not_mem_nil)
  obtain ⟨rest, hrest⟩ := eq_cstr_append h
  unfold string
  rw [List.drop_append_of_le_length hp, hrest, List.append_assoc, List.cons_append,
    cstr_append_zero (zero_not_mem_cstr _), cstr_append_zero (zero_not_mem_cstr _)]

theorem strchr_append (h : 0 ∈ mem.drop p) (tail : Bytes) : strchr (mem ++ tail) p c = strchr mem p c := by
  unfold strchr
  rw [string_append h]

theorem strchr_eq_none (h : strchr mem p c = none) : c ∉ string mem p := by
  unfold strchr at h
  split at h
  . contradiction
  . assumption

/-- What `strchr` has found: the first `c`, before the string has come to its end -/
structure Found (mem : Bytes) (p : Nat) (c : UInt8) (q : Nat) (passed rest : Bytes) : Prop where
  drop : mem.drop p = passed ++ c :: rest
  pos : q = p + passed.length
  first : c ∉ passed
  inside : 0 ∉ passed
  nonzero : c ≠ 0

theorem strchr_eq_some (h : strchr mem p c = some q) : ∃ passed rest, Found mem p c q passed rest := by
  unfold strchr at h
  split at h
  . next hmem =>
    obtain ⟨rest, hrest⟩ : ∃ rest, string mem p = (string mem p).takeWhile (· ≠ c) ++ c :: rest := by
      cases hdrop : (string mem p).drop ((string mem p).takeWhile (· ≠ c)).length with
      | nil => exact absurd hmem (not_mem_of_drop_takeWhile_ne hdrop).2
      | cons x rest => exact ⟨rest, eq_append_of_drop_takeWhile_ne hdrop⟩
    obtain ⟨tail, htail⟩ : string mem p <+: mem.drop p := List.takeWhile_prefix _
    refine ⟨(string mem p).takeWhile (· ≠ c), rest ++ tail, ?_, (Option.some.inj h).symm, not_mem_takeWhile_ne c _, ?_, ?_⟩
    . rw [← htail]
      conv_lhs => rw [hrest]
      simp
    . intro hzero
      exact zero_not_mem_cstr _ ((List.takeWhile_prefix _).subset hzero)
    . intro hzero
      rw [hzero] at hmem
      exact zero_not_mem_cstr _ hmem
  . contradiction

namespace Found

variable {passed rest : Bytes}

theorem drop_pos (h : Found mem p c q passed rest) : mem.drop q = c :: rest := by
  rw [h.pos, ← List.drop_drop, h.drop, List.drop_left]

theorem string_eq (h : Found mem p c q passed rest) : string mem p = passed ++ c :: cstr rest := by
  have hnot : 0 ∉ passed ++ [c] := by
    simp [h.inside, Ne.symm h.nonzero]
  have hdrop : mem.drop p = passed ++ [c] ++ rest := by
    rw [h.drop, List.append_cons]
  unfold string
  rw [hdrop, cstr_append hnot, List.append_cons passed c (cstr rest)]

theorem string_pos (h : Found mem p c q passed rest) : string mem q = c :: cstr rest := by
  have hnot : 0 ∉ [c] := by simp [Ne.symm h.nonzero]
  unfold string
  rw [h.drop_pos]
  exact cstr_append hnot rest

theorem lt_length (h : Found mem p c q passed rest) : q < mem.length := by
  have hlen := congrArg List.length h.drop_pos
  simp only [List.length_drop, List.length_cons] at hlen
  omega

theorem take_drop (h : Found mem p c q passed rest) : (mem.take q).drop p = passed := by
  rw [List.drop_take, h.drop, h.pos, Nat.add_sub_cancel_left, List.take_left]

theorem string_of_take (h : Found mem p c q passed rest) {mem' : Bytes} (htake : mem'.take q = mem.take q)
    : string mem' p = passed ++ string mem' q := by
  have hdrop : mem'.drop p = passed ++ mem'.drop q := by
    have hle : p ≤ (mem'.take q).length := by
      have hlt := h.lt_length
      have hpos := h.pos
      rw [htake, List.length_take]
      omega
    conv_lhs => rw [← List.take_append_drop q mem', List.drop_append_of_le_length hle, htake, h.take_drop]
  unfold string
  rw [hdrop, cstr_append h.inside]

theorem set_take (h : Found mem p c q passed rest) (x : UInt8) : (mem.set q x).take p = mem.take p := by
  apply List.take_set_of_le
  have hpos := h.pos
  omega

theorem set_drop (h : Found mem p c q passed rest) (x : UInt8) : (mem.set q x).drop p = passed ++ x :: rest := by
  have hpos := h.pos
  rw [List.drop_set, if_neg (by omega), h.drop, hpos, Nat.add_sub_cancel_left, List.set_append_right _ _ (Nat.le_refl _),
    Nat.sub_self, List.set_cons_zero]

theorem set_self (h : Found mem p c q passed rest) : mem.set q c = mem := by
  have htake : (mem.set q c).take p = mem.take p := h.set_take c
  rw [← List.take_append_drop p (mem.set q c), htake, h.set_drop, ← h.drop, List.take_append_drop]

theorem drop_succ (h : Found mem p c q passed rest) : mem.drop (q + 1) = rest := by
  rw [← List.drop_drop, h.drop_pos, List.drop_one, List.tail_cons]

theorem zero_mem (h : Found mem p c q passed rest) (hzero : 0 ∈ mem.drop p) : 0 ∈ rest := by
  rw [h.drop] at hzero
  cases List.mem_append.mp hzero with
  | inl hpassed => exact absurd hpassed h.inside
  | inr hrest =>
    cases List.mem_cons.mp hrest with
    | inl heq => exact absurd heq.symm h.nonzero
    | inr hrest => exact hrest

end Found

section Memmove

variable {dst src n : Nat}

theorem memmove_take (hdst : dst ≤ mem.length) : (memmove mem dst src n).take dst = mem.take dst := by
  unfold memmove
  rw [List.append_assoc, List.take_left' (List.length_take_of_le hdst)]

theorem memmove_drop (hdst : dst ≤ mem.length)
    : (memmove mem dst src n).drop dst = (mem.drop src).take n ++ mem.drop (dst + n) := by
  unfold memmove
  rw [List.append_assoc, List.drop_left' (List.length_take_of_le hdst)]

variable (hle : dst ≤ src) (hfit : src + n ≤ mem.length)

include hle hfit

theorem memmove_length : (memmove mem dst src n).length = mem.length := by
  unfold memmove
  simp only [List.length_append, List.length_take, List.length_drop]
  omega

theorem memmove_append (tail : Bytes) : memmove (mem ++ tail) dst src n = memmove mem dst src n ++ tail := by
  have hn : n ≤ (mem.drop src).length := by
    rw [List.length_drop]
    omega
  unfold memmove
  rw [List.take_append_of_le_length (by omega), List.drop_append_of_le_length (by omega),
    List.take_append_of_le_length hn, List.drop_append_of_le_length (by omega), List.append_assoc _ _ tail]

end Memmove

end Heap
