import Mathlib.Algebra.Ring.Nat
import Tboot.Util.Bytes

/-!
This module contains output streams of the C library, from `fopen` to `fclose`. `taken` tells of each `write`
to the file how many bytes of it get there; when these are not all, the write has failed.
-/

structure OutStream where
  file : Bytes
  buffer : Bytes
  writes : Nat
  deriving DecidableEq, Repr

namespace OutStream

def empty : OutStream :=
  ⟨[], [], 0⟩

def flush (taken : Nat → Nat) (n : Nat) (s : OutStream) : Bool × OutStream :=
  let asked := min n s.buffer.length
  let count := min (taken s.writes) asked
  (count = asked, ⟨s.file ++ s.buffer.take count, s.buffer.drop count, s.writes + 1⟩)

def flushes (taken : Nat → Nat) : List Nat → OutStream → Bool × OutStream
  | [], s => (true, s)
  | n :: ns, s =>
    match s.flush taken n with
    | (true, s) => flushes taken ns s
    | (false, s) => (false, s)

/-- `fwrite`, with the sizes of what it writes to the file itself; the rest stays in the buffer. -/
def fwrite (taken : Nat → Nat) (chunks : List Nat) (data : Bytes) (s : OutStream) : Bool × OutStream :=
  flushes taken chunks { s with buffer := s.buffer ++ data }

def fclose (taken : Nat → Nat) (s : OutStream) : Bytes :=
  (s.flush taken s.buffer.length).2.file

def contents (s : OutStream) : Bytes :=
  s.file ++ s.buffer

/-- Every `write` of these sizes is complete, from the `k`-th on, when there are `left` bytes. -/
def WritesWhole (taken : Nat → Nat) : (k left : Nat) → List Nat → Prop
  | _, _, [] => True
  | k, left, n :: ns => min n left ≤ taken k ∧ WritesWhole taken (k + 1) (left - n) ns

section Lemmas

variable {taken : Nat → Nat} {s : OutStream}

theorem flush_contents (n : Nat) : (s.flush taken n).2.contents = s.contents := by
  unfold flush contents
  rw [List.append_assoc, List.take_append_drop]

theorem flushes_contents (ns : List Nat) : (flushes taken ns s).2.contents = s.contents := by
  induction ns generalizing s with
  | nil => rfl
  | cons n ns ih =>
    have hkeep := @flush_contents taken s n
    unfold flushes
    split
    . next s' hflush =>
      rw [hflush] at hkeep
      rw [ih, hkeep]
    . next s' hflush =>
      rw [hflush] at hkeep
      exact hkeep

theorem flush_of_le {n : Nat} (h : min n s.buffer.length ≤ taken s.writes)
    : s.flush taken n = (true, ⟨s.file ++ s.buffer.take n, s.buffer.drop n, s.writes + 1⟩) := by
  unfold flush
  dsimp only
  rw [Nat.min_eq_right h]
  cases Nat.le_total n s.buffer.length with
  | inl hle =>
    rw [Nat.min_eq_left hle]
    simp
  | inr hge =>
    rw [Nat.min_eq_right hge, List.take_of_length_le hge, List.drop_eq_nil_of_le hge, List.take_length,
      List.drop_length]
    simp

theorem flush_of_lt {n : Nat} (h : taken s.writes < min n s.buffer.length) : (s.flush taken n).1 = false := by
  unfold flush
  simp
  omega

theorem flushes_of_whole {ns : List Nat} (h : WritesWhole taken s.writes s.buffer.length ns)
    : ∃ file, flushes taken ns s = (true, ⟨file, s.buffer.drop ns.sum, s.writes + ns.length⟩) := by
  induction ns generalizing s with
  | nil => exact ⟨s.file, rfl⟩
  | cons n ns ih =>
    obtain ⟨file, hrest⟩ := @ih ⟨s.file ++ s.buffer.take n, s.buffer.drop n, s.writes + 1⟩ (by simpa using h.2)
    refine ⟨file, ?_⟩
    unfold flushes
    rw [flush_of_le h.1]
    dsimp only at hrest ⊢
    rw [hrest, List.drop_drop, List.sum_cons, List.length_cons, Nat.add_right_comm, Nat.add_assoc]

theorem flushes_fst_iff {ns : List Nat}
    : (flushes taken ns s).1 = true ↔ WritesWhole taken s.writes s.buffer.length ns := by
  induction ns generalizing s with
  | nil => simp [flushes, WritesWhole]
  | cons n ns ih =>
    unfold flushes WritesWhole
    cases Nat.lt_or_ge (taken s.writes) (min n s.buffer.length) with
    | inl hlt =>
      have hfalse := flush_of_lt hlt
      rcases hflush : s.flush taken n with ⟨ok, s'⟩
      rw [hflush] at hfalse
      dsimp only at hfalse
      rw [hfalse]
      simp
      omega
    | inr hge =>
      rw [flush_of_le hge]
      dsimp only
      rw [ih, and_iff_right hge, List.length_drop]

theorem fclose_eq_contents_iff : s.fclose taken = s.contents ↔ s.buffer.length ≤ taken s.writes := by
  unfold fclose flush contents
  dsimp only
  rw [List.append_cancel_left_eq, Nat.min_self]
  constructor
  . intro h
    have hlen := congrArg List.length h
    rw [List.length_take] at hlen
    omega
  . intro h
    exact List.take_of_length_le (by omega)

end Lemmas

end OutStream
