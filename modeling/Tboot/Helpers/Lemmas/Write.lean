import Tboot.Helpers.Impl

/-!
This module contains what `named_file_write` leaves in the file when it returns 0. An interrupted `write`
moves the buffer back by a byte, and an old file that is longer keeps its end.
-/

namespace Helpers

namespace NamedFileWrite

def Inside (a : NamedFileWrite) (s : State) : Prop :=
  0 ≤ s.pos ∧ s.pos + s.left ≤ a.sz

/-- If it returns 0, the file is the buffer, and no turn has gone beyond the buffer. -/
def WritesBuffer (a : NamedFileWrite) : Prop :=
  ∀ k, a.ReturnsAfter k →
    (a.after k).file = a.bytes 0 a.sz ∧ ∀ j, j < k → a.Inside (a.after j) ∧ (a.after j).left ≤ a.sz

/-! ### The turns, from the results alone -/

def ret (a : NamedFileWrite) (k : Nat) : Int :=
  match a.write k with
  | some n => min n 0x7fffffff
  | none => -1

def total (a : NamedFileWrite) : Nat → Int
  | 0 => 0
  | k + 1 => a.total k + a.ret k

/-- The sum is short of `sz`, and has not gone down so far that `sz` wraps around. -/
def Short (a : NamedFileWrite) (k : Nat) : Prop :=
  a.sz - 2 ^ 32 < a.total k ∧ a.total k < a.sz

/-- The results come to `sz`, or all around it, at the `k`-th. -/
def Finishes (a : NamedFileWrite) (k : Nat) : Prop :=
  a.opened = true ∧ (∀ j, j < k → a.Short j ∧ ¬a.Fails j) ∧ ¬a.Short k

def Uninterrupted (a : NamedFileWrite) (k : Nat) : Prop :=
  ∀ j, j < k → (a.write j).isSome

structure Sums (a : NamedFileWrite) (k : Nat) (s : State) : Prop where
  short : a.Short k → s.pos = a.total k ∧ (s.left : Int) = a.sz - a.total k
  done : ¬a.Short k → s.left = 0

theorem Sums.turn {a : NamedFileWrite} {k : Nat} {s : State} (h : Sums a k s) (hshort : a.Short k)
    : Sums a (k + 1) (a.turn k s) := by
  have hlt := a.sz_lt
  obtain ⟨hpos, hleft⟩ := h.short hshort
  unfold Short at *
  constructor
  all_goals
    unfold NamedFileWrite.turn count Short total ret
    cases a.write k with
    | some n =>
      dsimp only [Option.map_some]
      omega
    | none =>
      dsimp only [Option.map_none]
      unfold u32
      omega

theorem sums_after {a : NamedFileWrite} {k : Nat} (h : ∀ j, j < k → a.Short j) : Sums a k (a.after k) := by
  induction k with
  | zero =>
    have hlt := a.sz_lt
    unfold after start
    constructor
    all_goals
      unfold Short total
      intro _
      dsimp only
      omega
  | succ k ih =>
    have hk : ∀ j, j < k → a.Short j := by
      intro j hj
      exact h j (by omega)
    exact (ih hk).turn (h k (by omega))

theorem left_ne_zero_iff {a : NamedFileWrite} {k : Nat} (h : ∀ j, j < k → a.Short j)
    : (a.after k).left ≠ 0 ↔ a.Short k := by
  have hsums := sums_after h
  constructor
  . intro hleft
    by_contra hdone
    exact hleft (hsums.done hdone)
  . intro hshort
    have hleft := (hsums.short hshort).2
    unfold Short at hshort
    omega

theorem turns_iff {a : NamedFileWrite} {k : Nat} : a.Turns k ↔ ∀ j, j < k → a.Short j ∧ ¬a.Fails j := by
  induction k with
  | zero => simp [Turns]
  | succ k ih =>
    unfold Turns at ih ⊢
    simp only [Nat.forall_lt_succ_right]
    rw [ih]
    apply and_congr_right
    intro hk
    rw [left_ne_zero_iff fun j hj => (hk j hj).1]

theorem returnsAfter_iff {a : NamedFileWrite} {k : Nat} : a.ReturnsAfter k ↔ a.Finishes k := by
  unfold ReturnsAfter Finishes
  rw [turns_iff]
  apply and_congr_right
  intro _
  apply and_congr_right
  intro hk
  rw [← left_ne_zero_iff fun j hj => (hk j hj).1, not_not]

/-! ### Without an interruption -/

theorem bytes_length (a : NamedFileWrite) (pos : Int) (n : Nat) : (a.bytes pos n).length = n := by
  simp [bytes]

theorem bytes_append (a : NamedFileWrite) (n m : Nat) : a.bytes 0 n ++ a.bytes n m = a.bytes 0 (n + m) := by
  unfold bytes
  rw [List.range_add, List.map_append, List.map_map]
  simp [Function.comp_def]

def written (a : NamedFileWrite) (n : Nat) : State where
  pos := n
  left := a.sz - n
  offset := n
  file := a.bytes 0 n ++ (a.old.getD []).drop n

theorem turn_written {a : NamedFileWrite} {k n m : Nat} (h : a.count k (a.sz - n) = some m)
    : a.turn k (a.written n) = a.written (n + m) := by
  have hstore : Heap.store (a.bytes 0 n ++ (a.old.getD []).drop n) n (a.bytes n m)
      = a.bytes 0 (n + m) ++ (a.old.getD []).drop (n + m) := by
    have happend := @Heap.store_append (a.bytes 0 n) (a.bytes n m) ((a.old.getD []).drop n)
    rw [bytes_length, bytes_length, bytes_append, List.drop_drop] at happend
    exact happend
  unfold turn written
  simp only [h, hstore, Nat.sub_sub]
  rfl

theorem after_of_uninterrupted {a : NamedFileWrite} {k : Nat} (h : a.Uninterrupted k)
    : ∃ n, n ≤ a.sz ∧ a.after k = a.written n := by
  induction k with
  | zero => exact ⟨0, Nat.zero_le _, rfl⟩
  | succ k ih =>
    obtain ⟨n, hn, hafter⟩ := ih fun j hj => h j (by omega)
    obtain ⟨m, hm⟩ := Option.isSome_iff_exists.mp (h k (by omega))
    have hcount : a.count k (a.sz - n) = some (min (a.sz - n) (min m 0x7fffffff)) := by
      unfold count
      rw [hm]
      rfl
    refine ⟨n + min (a.sz - n) (min m 0x7fffffff), by omega, ?_⟩
    unfold after
    rw [hafter, turn_written hcount]

theorem written_inside {a : NamedFileWrite} {n : Nat} (hn : n ≤ a.sz)
    : a.Inside (a.written n) ∧ (a.written n).left ≤ a.sz := by
  unfold Inside written
  dsimp only
  omega

theorem written_file_iff (a : NamedFileWrite)
    : (a.written a.sz).file = a.bytes 0 a.sz ↔ (a.old.getD []).length ≤ a.sz := by
  unfold written
  simp

theorem uninterrupted_exact_iff {a : NamedFileWrite} {k : Nat} (h : a.ReturnsAfter k) (hall : a.Uninterrupted k)
    : ((a.after k).file = a.bytes 0 a.sz ∧ ∀ j, j < k → a.Inside (a.after j) ∧ (a.after j).left ≤ a.sz)
        ↔ (a.old.getD []).length ≤ a.sz := by
  obtain ⟨n, hn, hafter⟩ := after_of_uninterrupted hall
  have hleft : (a.after k).left = a.sz - n := by rw [hafter, written]
  have hsz : n = a.sz := by
    have hzero := h.2.2
    omega
  rw [hafter, hsz, written_file_iff]
  apply and_iff_left
  intro j hj
  obtain ⟨m, hm, hbefore⟩ := after_of_uninterrupted fun i hi => hall i (Nat.lt_trans hi hj)
  rw [hbefore]
  exact written_inside hm

/-! ### With interruptions -/

def interruptions (a : NamedFileWrite) (k : Nat) : Nat :=
  (List.range k).countP fun j => (a.write j).isNone

/-- The file has all bytes that were written, and each interruption has taken the buffer back by one. -/
structure Repeats (a : NamedFileWrite) (k : Nat) (s : State) : Prop where
  pos : s.pos = s.offset - a.interruptions k
  length : s.offset ≤ s.file.length

theorem Repeats.turn {a : NamedFileWrite} {k : Nat} {s : State} (h : Repeats a k s)
    : Repeats a (k + 1) (a.turn k s) := by
  have hpos := h.pos
  have hlength := h.length
  have hcount : a.interruptions (k + 1) = a.interruptions k + if (a.write k).isNone then 1 else 0 := by
    unfold interruptions
    rw [List.range_succ, List.countP_append, List.countP_singleton]
  constructor
  all_goals
    rw [NamedFileWrite.turn, count]
    cases hwrite : a.write k with
    | none =>
      rw [hwrite] at hcount
      simp at hcount ⊢
      omega
    | some n =>
      rw [hwrite] at hcount
      simp [Heap.store, bytes_length] at hcount ⊢
      omega

theorem repeats_after (a : NamedFileWrite) (k : Nat) : Repeats a k (a.after k) := by
  induction k with
  | zero =>
    constructor
    all_goals simp [after, start, interruptions]
  | succ k ih => exact ih.turn

theorem pos_add_left {a : NamedFileWrite} {k : Nat} (h : ∀ j, j < k → (a.after j).left ≤ a.sz)
    : (a.after k).pos + (a.after k).left = a.sz := by
  induction k with
  | zero => simp [after, start]
  | succ k ih =>
    have hk := ih fun j hj => h j (by omega)
    have hle := h k (by omega)
    have hlt := a.sz_lt
    unfold after turn count
    cases a.write k with
    | none =>
      simp only [Option.map_none]
      rw [u32_of_lt (by omega)]
      omega
    | some n =>
      simp only [Option.map_some]
      omega

theorem uninterrupted_of_exact {a : NamedFileWrite} {k : Nat} (h : a.ReturnsAfter k)
    (hfile : (a.after k).file = a.bytes 0 a.sz) (hinside : ∀ j, j < k → a.Inside (a.after j) ∧ (a.after j).left ≤ a.sz)
    : a.Uninterrupted k := by
  have hrepeats := repeats_after a k
  have hpos := hrepeats.pos
  have hlength := hrepeats.length
  have hsum := pos_add_left fun j hj => (hinside j hj).2
  have hzero := h.2.2
  rw [hfile, bytes_length] at hlength
  have hnone : a.interruptions k = 0 := by omega
  intro j hj
  have hj' := List.countP_eq_zero.mp hnone j (List.mem_range.mpr hj)
  simpa [Option.isSome_iff_ne_none] using hj'

theorem writesBuffer_iff (a : NamedFileWrite)
    : a.WritesBuffer ↔ ∀ k, a.Finishes k → a.Uninterrupted k ∧ (a.old.getD []).length ≤ a.sz := by
  unfold WritesBuffer
  apply forall_congr'
  intro k
  rw [← returnsAfter_iff]
  apply imp_congr_right
  intro hreturns
  constructor
  . intro h
    have hall := uninterrupted_of_exact hreturns h.1 h.2
    exact ⟨hall, (uninterrupted_exact_iff hreturns hall).mp h⟩
  . intro h
    exact (uninterrupted_exact_iff hreturns h.1).mpr h.2

def overLonger : NamedFileWrite where
  mem _ := 65
  sz := 1
  sz_lt := by decide
  old := some (str "old")
  opened := true
  write _ := some 1
  eintr _ := false

def interrupted : NamedFileWrite where
  mem i := if i = 0 then 65 else 0
  sz := 1
  sz_lt := by decide
  old := none
  opened := true
  write k := if k = 0 then none else some 2
  eintr _ := true

theorem not_writesBuffer
    : (overLonger.ReturnsAfter 1 ∧ (overLonger.after 1).file = str "Ald" ∧ ¬overLonger.WritesBuffer)
      ∧ (interrupted.ReturnsAfter 2 ∧ (interrupted.after 2).file = [0, 65] ∧ ¬interrupted.WritesBuffer) := by
  have hlonger : overLonger.ReturnsAfter 1 := by decide +kernel
  have hinterrupted : interrupted.ReturnsAfter 2 := by decide +kernel
  refine ⟨⟨hlonger, by decide +kernel, ?_⟩, hinterrupted, by decide +kernel, ?_⟩
  . intro h
    exact absurd (h 1 hlonger).1 (by decide +kernel)
  . intro h
    exact absurd (h 2 hinterrupted).1 (by decide +kernel)

end NamedFileWrite

end Helpers
