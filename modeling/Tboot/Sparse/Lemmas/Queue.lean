import Tboot.Sparse.Impl.BackedBlock
import Tboot.Util.Spans
import Mathlib.Algebra.Ring.Nat
import Mathlib.Algebra.BigOperators.Group.List.Basic

/-!
This module contains the proofs about `queue_bb`: the list stays in order, and holds what has been queued.
-/

namespace Sparse

open Spans

/-! ### The blocks of the image -/

def BackedBlock.stop (blockSize : Nat) (bb : BackedBlock) : Nat :=
  bb.block + divRoundUp bb.len blockSize

def BackedBlock.byteAt (env : Env) (blockSize : Nat) (bb : BackedBlock) (pos : Nat) : Option UInt8 :=
  if bb.block * blockSize ≤ pos ∧ pos < bb.block * blockSize + bb.len then
    some (bb.backing.byte env (pos - bb.block * blockSize))
  else
    none

def Holds (env : Env) (blockSize : Nat) (blocks : List BackedBlock) (pos : Nat) (b : UInt8) : Prop :=
  ∃ bb ∈ blocks, bb.byteAt env blockSize pos = some b

def Covered (blockSize : Nat) (blocks : List BackedBlock) (k : Nat) : Prop :=
  ∃ bb ∈ blocks, bb.block ≤ k ∧ k < bb.stop blockSize

abbrev InOrder (blockSize : Nat) (blocks : List BackedBlock) : Prop :=
  Ordered BackedBlock.block (BackedBlock.stop blockSize) blocks

theorem holds_append {env : Env} {blockSize pos : Nat} {b : UInt8} {l₁ l₂ : List BackedBlock}
    : Holds env blockSize (l₁ ++ l₂) pos b ↔ Holds env blockSize l₁ pos b ∨ Holds env blockSize l₂ pos b := by
  simp [Holds, or_and_right, exists_or]

theorem holds_cons {env : Env} {blockSize pos : Nat} {b : UInt8} {bb : BackedBlock} {l : List BackedBlock}
    : Holds env blockSize (bb :: l) pos b ↔ bb.byteAt env blockSize pos = some b ∨ Holds env blockSize l pos b := by
  simp [Holds]

theorem covered_append {blockSize k : Nat} {l₁ l₂ : List BackedBlock}
    : Covered blockSize (l₁ ++ l₂) k ↔ Covered blockSize l₁ k ∨ Covered blockSize l₂ k := by
  simp [Covered, or_and_right, exists_or]

theorem covered_cons {blockSize k : Nat} {bb : BackedBlock} {l : List BackedBlock}
    : Covered blockSize (bb :: l) k ↔ (bb.block ≤ k ∧ k < bb.stop blockSize) ∨ Covered blockSize l k := by
  simp [Covered]

section Merge

variable {blockSize : Nat} {a b c : BackedBlock}

structure Joins (blockSize : Nat) (a b : BackedBlock) : Prop where
  block : u32 (a.block + a.len / blockSize) = b.block
  continues : a.backing.continues a.len b.backing = true

instance (blockSize : Nat) (a b : BackedBlock) : Decidable (Joins blockSize a b) :=
  decidable_of_iff (u32 (a.block + a.len / blockSize) = b.block ∧ a.backing.continues a.len b.backing = true)
    ⟨fun h => ⟨h.1, h.2⟩, fun h => ⟨h.1, h.2⟩⟩

theorem sameType_of_continues {a b : Backing} {len : Nat} (h : a.continues len b = true) : a.sameType b = true := by
  cases a
  all_goals
    cases b
    all_goals first
      | rfl
      | cases h

theorem mergeBb_eq (hsize : 0 < blockSize) (hlt : a.block < b.block)
    : mergeBb blockSize a b
        = .ok (if Joins blockSize a b then some { a with len := u32 (a.len + b.len) } else none) := by
  unfold mergeBb
  rw [if_neg (by omega)]
  by_cases hjoins : Joins blockSize a b
  . rw [sameType_of_continues hjoins.continues, if_neg (by decide), if_neg (by omega), if_neg (fun h => h hjoins.block),
      if_pos hjoins.continues, if_pos hjoins]
    rfl
  . rw [if_neg hjoins, if_neg (show ¬blockSize = 0 by omega)]
    split
    . rfl
    . split
      . rfl
      . next hblock =>
        rw [if_neg fun hcontinues => hjoins ⟨by simpa using hblock, hcontinues⟩]
        rfl

theorem divRoundUp_pos (hsize : 0 < blockSize) {n : Nat} (hn : 0 < n) : 0 < divRoundUp n blockSize := by
  unfold divRoundUp
  exact Nat.div_pos (by omega) hsize

theorem le_divRoundUp_mul (hsize : 0 < blockSize) (n : Nat) : n ≤ divRoundUp n blockSize * blockSize := by
  unfold divRoundUp
  have hmod := Nat.div_add_mod (n + blockSize - 1) blockSize
  have hlt := Nat.mod_lt (n + blockSize - 1) hsize
  rw [Nat.mul_comm]
  omega

theorem divRoundUp_mul_add (hsize : 0 < blockSize) (k n : Nat)
    : divRoundUp (k * blockSize + n) blockSize = k + divRoundUp n blockSize := by
  unfold divRoundUp
  rw [show k * blockSize + n + blockSize - 1 = n + blockSize - 1 + blockSize * k by rw [Nat.mul_comm]; omega,
    Nat.add_mul_div_left _ _ hsize, Nat.add_comm]

/-- A block that is followed by one with the next number is full. -/
theorem len_eq_of_joins (hsize : 0 < blockSize) (hjoins : Joins blockSize a b) (hle : a.stop blockSize ≤ b.block)
    (hlt : b.block < 2 ^ 32) : a.len = (b.block - a.block) * blockSize ∧ a.block ≤ b.block := by
  have hblock := hjoins.block
  have hdiv : a.len / blockSize ≤ divRoundUp a.len blockSize := Nat.div_le_div_right (by omega)
  unfold BackedBlock.stop at hle
  have hexact : a.block + a.len / blockSize = b.block := by
    unfold u32 at hblock
    rw [Nat.mod_eq_of_lt (by omega)] at hblock
    exact hblock
  have hround := le_divRoundUp_mul hsize a.len
  have hfloor := Nat.div_mul_le_self a.len blockSize
  have heq : divRoundUp a.len blockSize = a.len / blockSize := by omega
  rw [heq] at hround
  refine ⟨?_, by omega⟩
  rw [show b.block - a.block = a.len / blockSize by omega]
  omega

theorem stop_join (hsize : 0 < blockSize) (hlen : a.len = (b.block - a.block) * blockSize) (hle : a.block ≤ b.block)
    : ({ a with len := a.len + b.len } : BackedBlock).stop blockSize = b.stop blockSize := by
  unfold BackedBlock.stop
  dsimp only
  rw [hlen, divRoundUp_mul_add hsize]
  omega

theorem byte_continues {x y : Backing} {len : Nat} (h : x.continues len y = true) (hlen : 4 ∣ len) (env : Env) (i : Nat)
    : x.byte env (len + i) = y.byte env i := by
  cases x with
  | data ptr => cases h
  | file filename offset =>
    cases y with
    | file filename' offset' =>
      obtain ⟨rfl, rfl⟩ : filename = filename' ∧ offset + len = offset' := of_decide_eq_true h
      rw [Backing.byte, Backing.byte, Nat.add_assoc]
    | _ => cases h
  | fd num offset =>
    cases y with
    | fd num' offset' =>
      obtain ⟨rfl, rfl⟩ : num = num' ∧ offset + len = offset' := of_decide_eq_true h
      rw [Backing.byte, Backing.byte, Nat.add_assoc]
    | _ => cases h
  | fill val =>
    cases y with
    | fill val' =>
      obtain rfl : val = val' := of_decide_eq_true h
      rw [Backing.byte, Backing.byte, fillByte, fillByte, show (len + i) % 4 = i % 4 by omega]
    | _ => cases h

theorem byteAt_join (hlen : a.len = (b.block - a.block) * blockSize) (hle : a.block ≤ b.block) (hsize : 4 ∣ blockSize)
    (hcontinues : a.backing.continues a.len b.backing = true) (env : Env) (pos : Nat) (byte : UInt8)
    : ({ a with len := a.len + b.len } : BackedBlock).byteAt env blockSize pos = some byte
        ↔ a.byteAt env blockSize pos = some byte ∨ b.byteAt env blockSize pos = some byte := by
  have hfour : 4 ∣ a.len := hlen ▸ Dvd.dvd.mul_left hsize _
  have hstart : b.block * blockSize = a.block * blockSize + a.len := by
    rw [hlen, ← Nat.add_mul]
    congr 1
    omega
  unfold BackedBlock.byteAt
  dsimp only
  rw [hstart]
  by_cases hpos : pos < a.block * blockSize + a.len
  . rw [if_neg (show ¬(a.block * blockSize + a.len ≤ pos ∧ _) by omega)]
    by_cases hlow : a.block * blockSize ≤ pos
    . rw [if_pos (by omega), if_pos (by omega)]
      simp
    . rw [if_neg (by omega), if_neg (by omega)]
      simp
  . rw [if_neg (show ¬(a.block * blockSize ≤ pos ∧ pos < a.block * blockSize + a.len) by omega)]
    by_cases hhigh : pos < a.block * blockSize + a.len + b.len
    . have hbyte := byte_continues hcontinues hfour env (pos - (a.block * blockSize + a.len))
      rw [show a.len + (pos - (a.block * blockSize + a.len)) = pos - a.block * blockSize by omega] at hbyte
      rw [if_pos (by omega), if_pos (by omega), hbyte]
      simp
    . rw [if_neg (by omega), if_neg (by omega)]
      simp

end Merge

/-! ### The list -/

def total (blocks : List BackedBlock) : Nat :=
  (blocks.map BackedBlock.len).sum

theorem total_append (l₁ l₂ : List BackedBlock) : total (l₁ ++ l₂) = total l₁ + total l₂ := by
  simp [total]

theorem total_cons (bb : BackedBlock) (l : List BackedBlock) : total (bb :: l) = bb.len + total l := by
  simp [total]

def Loose (blockSize : Nat) (blocks : List BackedBlock) : Prop :=
  blocks.Pairwise fun a b => ¬Joins blockSize a b ∧ ¬Joins blockSize b a

theorem Loose.perm {blockSize : Nat} {l l' : List BackedBlock} (h : Loose blockSize l) (hperm : l.Perm l')
    : Loose blockSize l' :=
  (hperm.pairwise_iff And.symm).mp h

structure Good (blockSize : Nat) (blocks : List BackedBlock) : Prop where
  inOrder : InOrder blockSize blocks
  block_lt : ∀ bb ∈ blocks, bb.block < 2 ^ 32
  room : Loose blockSize blocks ∨ total blocks < 2 ^ 32

structure Same (blockSize : Nat) (blocks blocks' : List BackedBlock) : Prop where
  good : Good blockSize blocks'
  total : total blocks' = total blocks
  holds : ∀ env pos byte, Holds env blockSize blocks' pos byte ↔ Holds env blockSize blocks pos byte
  covered : ∀ k, Covered blockSize blocks' k ↔ Covered blockSize blocks k

theorem Same.refl {blockSize : Nat} {blocks : List BackedBlock} (h : Good blockSize blocks)
    : Same blockSize blocks blocks :=
  ⟨h, rfl, fun _ _ _ => Iff.rfl, fun _ => Iff.rfl⟩

theorem Same.trans {blockSize : Nat} {l₁ l₂ l₃ : List BackedBlock} (h : Same blockSize l₁ l₂)
    (h' : Same blockSize l₂ l₃) : Same blockSize l₁ l₃ :=
  ⟨h'.good, h'.total.trans h.total, fun env pos byte => (h'.holds env pos byte).trans (h.holds env pos byte),
    fun k => (h'.covered k).trans (h.covered k)⟩

theorem Good.join {blockSize : Nat} {l₁ l₂ : List BackedBlock} {a b : BackedBlock} (hsize : 0 < blockSize)
    (hfour : 4 ∣ blockSize) (h : Good blockSize (l₁ ++ a :: b :: l₂)) (hjoins : Joins blockSize a b)
    : Same blockSize (l₁ ++ a :: b :: l₂) (l₁ ++ { a with len := u32 (a.len + b.len) } :: l₂) := by
  obtain ⟨hordered, hblock, hroom⟩ := h
  have htotal : total (l₁ ++ a :: b :: l₂) < 2 ^ 32 := by
    apply hroom.resolve_left
    intro hloose
    have hpair := (List.pairwise_append.mp hloose).2.1
    exact ((List.pairwise_cons.mp hpair).1 b List.mem_cons_self).1 hjoins
  simp only [total_append, total_cons] at htotal
  obtain ⟨h₁, habl, hbefore⟩ := Ordered.append_iff.mp hordered
  obtain ⟨ha, hbl, habehind⟩ := Ordered.cons_iff.mp habl
  obtain ⟨hb, h₂, hbehind⟩ := Ordered.cons_iff.mp hbl
  obtain ⟨hlen, hle⟩ := len_eq_of_joins hsize hjoins (habehind b List.mem_cons_self) (hblock b (by simp))
  have hu32 : u32 (a.len + b.len) = a.len + b.len := u32_of_lt (by omega)
  have hstop := stop_join hsize hlen hle
  rw [hu32]
  refine ⟨⟨?_, ?_, ?_⟩, ?_, ?_, ?_⟩
  . rw [InOrder, Ordered.append_iff, Ordered.cons_iff, hstop]
    refine ⟨h₁, ⟨?_, h₂, hbehind⟩, ?_⟩
    . exact Nat.lt_of_le_of_lt hle hb
    . intro x hx y hy
      cases List.mem_cons.mp hy with
      | inl heq =>
        rw [heq]
        exact hbefore x hx a List.mem_cons_self
      | inr hy => exact hbefore x hx y (List.mem_cons_of_mem _ (List.mem_cons_of_mem _ hy))
  . intro x hx
    simp only [List.mem_append, List.mem_cons] at hx
    rcases hx with hx | rfl | hx
    . exact hblock x (List.mem_append_left _ hx)
    . exact hblock a (by simp)
    . exact hblock x (by simp [hx])
  . right
    simp only [total_append, total_cons]
    omega
  . simp only [total_append, total_cons]
    omega
  . intro env pos byte
    simp only [holds_append, holds_cons, byteAt_join hlen hle hfour hjoins.continues, or_assoc]
  . intro k
    have hastop : a.stop blockSize = b.block := by
      rw [BackedBlock.stop, hlen, ← Nat.add_zero ((b.block - a.block) * blockSize), divRoundUp_mul_add hsize,
        show divRoundUp 0 blockSize = 0 from Nat.div_eq_of_lt (by omega)]
      omega
    simp only [covered_append, covered_cons, hstop, hastop, ← or_assoc]
    have hiff : (a.block ≤ k ∧ k < b.stop blockSize) ↔ (a.block ≤ k ∧ k < b.block) ∨ (b.block ≤ k ∧ k < b.stop blockSize) := by
      omega
    rw [or_assoc (b := a.block ≤ k ∧ k < b.block), ← hiff]

theorem mergeNext_spec {blockSize : Nat} {l₁ l₂ : List BackedBlock} {new : BackedBlock} (hsize : 0 < blockSize)
    (hfour : 4 ∣ blockSize) (h : Good blockSize (l₁ ++ new :: l₂))
    : ∃ new' rest, mergeNext blockSize new l₂ = .ok (new', rest) ∧ new'.block = new.block
        ∧ Same blockSize (l₁ ++ new :: l₂) (l₁ ++ new' :: rest)
        ∧ ((∀ next ∈ l₂, ¬Joins blockSize new next) → new' = new ∧ rest = l₂) := by
  cases l₂ with
  | nil => exact ⟨new, [], rfl, rfl, Same.refl h, fun _ => ⟨rfl, rfl⟩⟩
  | cons next rest =>
    have hlt : new.block < next.block := by
      have hparts := (Ordered.append_iff.mp h.inOrder).2.1
      have hbehind := (Ordered.cons_iff.mp hparts).2.2 next List.mem_cons_self
      have hproper := (Ordered.cons_iff.mp hparts).1
      omega
    rw [mergeNext, mergeBb_eq hsize hlt]
    by_cases hjoins : Joins blockSize new next
    . rw [if_pos hjoins]
      refine ⟨_, rest, rfl, rfl, h.join hsize hfour hjoins, ?_⟩
      intro hnone
      exact absurd hjoins (hnone next List.mem_cons_self)
    . rw [if_neg hjoins]
      exact ⟨new, next :: rest, rfl, rfl, Same.refl h, fun _ => ⟨rfl, rfl⟩⟩

def BackedBlockList.LastValid (bbl : BackedBlockList) : Prop :=
  ∀ i, bbl.lastUsed = .at i → i < bbl.dataBlocks.length

/-- The outcome of `queue_bb`, where `blocks` is the list with the new block at its place -/
structure Queued (old : BackedBlockList) (new : BackedBlock) (blocks : List BackedBlock) (bbl : BackedBlockList)
    : Prop where
  blockSize : bbl.blockSize = old.blockSize
  same : Same old.blockSize blocks bbl.dataBlocks
  lastValid : bbl.LastValid
  apart : (∀ bb ∈ old.dataBlocks, ¬Joins old.blockSize new bb ∧ ¬Joins old.blockSize bb new)
    → bbl.dataBlocks = blocks ∧ (old.lastUsed ≠ .freed → bbl.lastUsed ≠ .freed)

theorem insertBehind_spec {bbl : BackedBlockList} {pre after : List BackedBlock} {bb new : BackedBlock}
    (hsize : 0 < bbl.blockSize) (hfour : 4 ∣ bbl.blockSize) (hblocks : bbl.dataBlocks = pre ++ bb :: after)
    (hgood : Good bbl.blockSize (pre ++ bb :: new :: after))
    : ∃ bbl', insertBehind bbl new pre.length = .ok bbl'
        ∧ Queued bbl new (pre ++ bb :: new :: after) bbl' := by
  have happend : ∀ l, pre ++ bb :: l = (pre ++ [bb]) ++ l := by simp
  have hdrop : bbl.dataBlocks.drop (pre.length + 1) = after := by
    rw [hblocks, happend, List.drop_left']
    simp
  have htake : bbl.dataBlocks.take (pre.length + 1) = pre ++ [bb] := by
    rw [hblocks, happend, List.take_left']
    simp
  have htake' : bbl.dataBlocks.take pre.length = pre := by
    rw [hblocks, List.take_left']
    rfl
  have hget : bbl.dataBlocks[pre.length]? = some bb := by
    rw [hblocks]
    simp
  rw [happend] at hgood
  obtain ⟨new', rest, hmerge, hblock, hsame, hunmerged⟩ := mergeNext_spec hsize hfour hgood
  have hlt : bb.block < new'.block := by
    have hparts := Ordered.append_iff.mp hsame.good.inOrder
    have hproper := (Ordered.append_iff.mp hparts.1).2.1.proper bb (by simp)
    have hbehind := hparts.2.2 bb (by simp) new' List.mem_cons_self
    omega
  unfold insertBehind
  rw [hdrop, htake, htake', hget, hmerge]
  dsimp only [bind, Except.bind]
  rw [mergeBb_eq hsize hlt]
  by_cases hjoins : Joins bbl.blockSize bb new'
  . rw [if_pos hjoins]
    rw [← happend, ← happend] at hsame
    refine ⟨_, rfl, rfl, hsame.trans (hsame.good.join hsize hfour hjoins), ?_, ?_⟩
    . intro i hi
      cases hi
    . intro hnone
      have hnext : ∀ next ∈ after, ¬Joins bbl.blockSize new next := by
        intro next hnext
        exact (hnone next (by simp [hblocks, hnext])).1
      rw [(hunmerged hnext).1] at hjoins
      exact absurd hjoins (hnone bb (by simp [hblocks])).2
  . rw [if_neg hjoins]
    refine ⟨_, rfl, rfl, ?_, ?_, ?_⟩
    . rw [happend]
      exact hsame
    . intro i hi
      injection hi with hi
      simp [← hi]
    . intro hnone
      have hnext : ∀ next ∈ after, ¬Joins bbl.blockSize new next := by
        intro next hnext
        exact (hnone next (by simp [hblocks, hnext])).1
      obtain ⟨rfl, rfl⟩ := hunmerged hnext
      exact ⟨(happend _).symm, fun _ => by simp⟩

def insertBb (new : BackedBlock) (blocks : List BackedBlock) : List BackedBlock :=
  (blocks.takeWhile fun bb => bb.block < new.block) ++ new :: blocks.dropWhile fun bb => bb.block < new.block

theorem searchStart_spec {bbl : BackedBlockList} {first new : BackedBlock} {rest : List BackedBlock}
    (hblocks : bbl.dataBlocks = first :: rest) (hordered : InOrder bbl.blockSize bbl.dataBlocks)
    (hlast : bbl.LastValid) (hlt : first.block < new.block)
    : (searchStart bbl new = .error .useAfterFree ∧ bbl.lastUsed = .freed)
      ∨ ∃ start, searchStart bbl new = .ok start
        ∧ search bbl.dataBlocks new start + 1 = (bbl.dataBlocks.takeWhile fun bb => bb.block < new.block).length := by
  have hzero : search bbl.dataBlocks new 0 + 1
      = (bbl.dataBlocks.takeWhile fun bb => bb.block < new.block).length := by
    have hfirst : bbl.dataBlocks[0]? = some first := by
      rw [hblocks]
      rfl
    have hlength := hordered.length_takeWhile_drop hfirst hlt
    unfold search
    omega
  unfold searchStart
  cases hused : bbl.lastUsed with
  | null => exact .inr ⟨0, rfl, hzero⟩
  | freed => exact .inl ⟨rfl, rfl⟩
  | «at» i =>
    have hi := List.getElem?_eq_getElem (hlast i hused)
    right
    simp only [hi]
    split
    . next hgt =>
      have hlength := hordered.length_takeWhile_drop hi hgt
      refine ⟨i, rfl, ?_⟩
      unfold search
      omega
    . exact ⟨0, rfl, hzero⟩

theorem LastValid.shift {bbl : BackedBlockList} {new : BackedBlock} (h : bbl.LastValid)
    : BackedBlockList.LastValid
        { bbl with dataBlocks := new :: bbl.dataBlocks, lastUsed := bbl.lastUsed.shift } := by
  intro i hi
  have hi : bbl.lastUsed.shift = .at i := hi
  cases hused : bbl.lastUsed with
  | null => simp [hused, LastUsed.shift] at hi
  | freed => simp [hused, LastUsed.shift] at hi
  | «at» j =>
    have hj := h j hused
    simp only [hused, LastUsed.shift, LastUsed.at.injEq] at hi
    rw [List.length_cons]
    omega

/-- Whatever `last_used` is, the block comes to its place, unless a block that has been freed is looked at. -/
theorem queueBb_spec {bbl : BackedBlockList} {new : BackedBlock} (hsize : 0 < bbl.blockSize)
    (hfour : 4 ∣ bbl.blockSize) (hordered : InOrder bbl.blockSize bbl.dataBlocks) (hlast : bbl.LastValid)
    (hnew : new.block < new.stop bbl.blockSize)
    (hapart : ∀ bb ∈ bbl.dataBlocks, Apart BackedBlock.block (BackedBlock.stop bbl.blockSize) new bb)
    (hgood : Good bbl.blockSize (insertBb new bbl.dataBlocks))
    : (queueBb bbl new = .error .useAfterFree ∧ bbl.lastUsed = .freed)
      ∨ ∃ bbl', queueBb bbl new = .ok bbl' ∧ Queued bbl new (insertBb new bbl.dataBlocks) bbl' := by
  unfold queueBb
  cases hblocks : bbl.dataBlocks with
  | nil =>
    rw [hblocks] at hgood
    refine .inr ⟨_, rfl, rfl, Same.refl hgood, ?_, fun _ => ⟨rfl, id⟩⟩
    intro i hi
    have := hlast i hi
    simp [hblocks] at this
  | cons first rest =>
    dsimp only
    have hmem : first ∈ bbl.dataBlocks := by simp [hblocks]
    split
    . next hgt =>
      have hinsert : insertBb new bbl.dataBlocks = new :: bbl.dataBlocks := by
        unfold insertBb
        rw [hblocks, List.takeWhile_cons_of_neg (by simp; omega), List.dropWhile_cons_of_neg (by simp; omega)]
        rfl
      rw [hinsert] at hgood
      rw [← hblocks, hinsert]
      refine .inr ⟨_, rfl, rfl, Same.refl hgood, LastValid.shift hlast, fun _ => ⟨rfl, ?_⟩⟩
      intro hfreed
      cases hused : bbl.lastUsed with
      | null => simp [LastUsed.shift]
      | freed => exact absurd hused hfreed
      | «at» i => simp [LastUsed.shift]
    . next hle =>
      have hlt : first.block < new.block := by
        have hproper := hordered.proper first hmem
        cases hapart first hmem with
        | inl h => omega
        | inr h => omega
      rw [← hblocks]
      cases searchStart_spec hblocks hordered hlast hlt with
      | inl herror =>
        left
        rw [herror.1]
        exact ⟨rfl, herror.2⟩
      | inr hok =>
        obtain ⟨start, hstart, hsearch⟩ := hok
        right
        rw [hstart]
        dsimp only [bind, Except.bind]
        generalize hbefore : (bbl.dataBlocks.takeWhile fun bb => bb.block < new.block) = before at hsearch
        generalize hafter : (bbl.dataBlocks.dropWhile fun bb => bb.block < new.block) = after
        have hsplit : bbl.dataBlocks = before ++ after := by
          rw [← hbefore, ← hafter, List.takeWhile_append_dropWhile]
        unfold insertBb at hgood ⊢
        rw [hbefore, hafter] at hgood ⊢
        obtain ⟨pre, bb, rfl⟩ : ∃ pre bb, before = pre ++ [bb] := by
          apply (List.eq_nil_or_concat' before).resolve_left
          rintro rfl
          simp at hsearch
        rw [List.append_assoc] at hgood hsplit ⊢
        have hplace : search bbl.dataBlocks new start = pre.length := by
          rw [List.length_append, List.length_singleton] at hsearch
          omega
        rw [hplace]
        exact insertBehind_spec hsize hfour hsplit hgood

/-! ### Any number of calls -/

theorem insertBb_perm (new : BackedBlock) (blocks : List BackedBlock) : (insertBb new blocks).Perm (new :: blocks) := by
  have hsplit : (blocks.takeWhile fun bb => bb.block < new.block) ++ (blocks.dropWhile fun bb => bb.block < new.block)
      = blocks := List.takeWhile_append_dropWhile
  have hmiddle := @List.perm_middle _ new (blocks.takeWhile fun bb => bb.block < new.block)
    (blocks.dropWhile fun bb => bb.block < new.block)
  rwa [hsplit] at hmiddle

structure Added (blockSize : Nat) (added : List BackedBlock) (bbl : BackedBlockList) : Prop where
  blockSize_eq : bbl.blockSize = blockSize
  lastValid : bbl.LastValid
  good : Good blockSize bbl.dataBlocks
  total : Sparse.total bbl.dataBlocks = Sparse.total added
  holds : ∀ env pos byte, Holds env blockSize bbl.dataBlocks pos byte ↔ Holds env blockSize added pos byte
  covered : ∀ k, Covered blockSize bbl.dataBlocks k ↔ Covered blockSize added k
  loose : Loose blockSize added → bbl.dataBlocks.Perm added ∧ bbl.lastUsed ≠ .freed

theorem added_new (blockSize : Nat) : Added blockSize [] (backedBlockListNew blockSize) := by
  refine ⟨rfl, ?_, ⟨Ordered.nil, by simp [backedBlockListNew], .inl List.Pairwise.nil⟩, rfl,
    fun _ _ _ => Iff.rfl, fun _ => Iff.rfl, fun _ => ⟨List.Perm.nil, by simp [backedBlockListNew]⟩⟩
  intro i hi
  cases hi

structure Addable (blockSize : Nat) (added : List BackedBlock) (new : BackedBlock) : Prop where
  len_pos : 0 < new.len
  block_lt : new.block < 2 ^ 32
  room : Loose blockSize (new :: added) ∨ total (new :: added) < 2 ^ 32
  apart : ∀ bb ∈ added, Apart BackedBlock.block (BackedBlock.stop blockSize) new bb

theorem Added.queueBb {blockSize : Nat} {added : List BackedBlock} {bbl : BackedBlockList} {new : BackedBlock}
    (h : Added blockSize added bbl) (hsize : 0 < blockSize) (hfour : 4 ∣ blockSize) (hnew : Addable blockSize added new)
    : (queueBb bbl new = .error .useAfterFree ∧ bbl.lastUsed = .freed)
      ∨ ∃ bbl', queueBb bbl new = .ok bbl' ∧ Added blockSize (new :: added) bbl' := by
  obtain ⟨rfl, hlast, hgood, htotal, hholds, hcovered, hloose⟩ := h
  obtain ⟨hlen, hblock, hroom, hapart⟩ := hnew
  have hproper : new.block < new.stop bbl.blockSize := by
    have := divRoundUp_pos hsize hlen
    unfold BackedBlock.stop
    omega
  -- A block of the list that was in the way would cover a block that one of the added ones covers.
  have hapart' : ∀ bb ∈ bbl.dataBlocks, Apart BackedBlock.block (BackedBlock.stop bbl.blockSize) new bb := by
    intro bb hbb
    have hbbproper := hgood.inOrder.proper bb hbb
    by_contra hnot
    unfold Apart at hnot
    have hboth : bb.block ≤ max bb.block new.block ∧ max bb.block new.block < bb.stop bbl.blockSize := by omega
    obtain ⟨old, hold, hlow, hhigh⟩ := (hcovered (max bb.block new.block)).mp ⟨bb, hbb, hboth⟩
    cases hapart old hold with
    | inl hle => omega
    | inr hle => omega
  have hperm := insertBb_perm new bbl.dataBlocks
  have htotal' : Sparse.total (insertBb new bbl.dataBlocks) = Sparse.total (new :: added) := by
    rw [Sparse.total, (hperm.map BackedBlock.len).sum_eq, ← Sparse.total, total_cons, total_cons, htotal]
  have hgood' : Good bbl.blockSize (insertBb new bbl.dataBlocks) := by
    refine ⟨hgood.inOrder.insert hapart' hproper, ?_, ?_⟩
    . intro bb hbb
      cases List.mem_cons.mp (hperm.mem_iff.mp hbb) with
      | inl heq => rwa [heq]
      | inr hold => exact hgood.block_lt bb hold
    . cases hroom with
      | inl hall =>
        left
        have hold := (hloose (List.pairwise_cons.mp hall).2).1
        exact hall.perm (hperm.trans (hold.cons new)).symm
      | inr hsum =>
        right
        rwa [htotal']
  cases queueBb_spec hsize hfour hgood.inOrder hlast hproper hapart' hgood' with
  | inl herror => exact .inl herror
  | inr hok =>
    obtain ⟨bbl', hqueue, hsize', hsame, hlast', hunmerged⟩ := hok
    refine .inr ⟨bbl', hqueue, hsize', hlast', hsame.good, ?_, ?_, ?_, ?_⟩
    . rw [hsame.total, htotal']
    . intro env pos byte
      rw [hsame.holds, holds_cons, ← hholds, ← holds_cons]
      unfold Holds
      simp only [hperm.mem_iff]
    . intro k
      rw [hsame.covered, covered_cons, ← hcovered, ← covered_cons]
      unfold Covered
      simp only [hperm.mem_iff]
    . intro hall
      obtain ⟨hnone, hrest⟩ := List.pairwise_cons.mp hall
      obtain ⟨hold, hfreed⟩ := hloose hrest
      obtain ⟨hblocks, hused⟩ := hunmerged fun bb hbb => hnone bb (hold.mem_iff.mp hbb)
      rw [hblocks]
      exact ⟨hperm.trans (hold.cons new), hused hfreed⟩

def addedBlocks (calls : List AddCall) : List BackedBlock :=
  (calls.filter AddCall.mem).map AddCall.bb

/-- Blocks with bytes, each with a place of its own, and with no more to be merged than a length has room for -/
structure Separate (blockSize : Nat) (blocks : List BackedBlock) : Prop where
  proper : ∀ bb ∈ blocks, 0 < bb.len ∧ bb.block < 2 ^ 32
  room : Loose blockSize blocks ∨ total blocks < 2 ^ 32
  apart : blocks.Pairwise fun a b => Apart BackedBlock.block (BackedBlock.stop blockSize) a b

theorem Separate.addable {blockSize : Nat} {rest added : List BackedBlock} {bb : BackedBlock}
    (h : Separate blockSize (rest ++ bb :: added)) : Addable blockSize added bb := by
  have hproper := h.proper bb (by simp)
  refine ⟨hproper.1, hproper.2, ?_, ?_⟩
  . cases h.room with
    | inl hloose => exact .inl (List.pairwise_append.mp hloose).2.1
    | inr htotal =>
      right
      rw [total_append] at htotal
      omega
  . exact (List.pairwise_cons.mp (List.pairwise_append.mp h.apart).2.1).1

theorem addAll_cons (bbl : BackedBlockList) (c : AddCall) (calls : List AddCall)
    : addAll bbl (c :: calls)
        = if c.mem then do addAll (← queueBb bbl c.bb) calls else addAll bbl calls := by
  rw [addAll, backedBlockAdd]
  cases c.mem
  . rfl
  . cases queueBb bbl c.bb
    all_goals rfl

theorem Added.addAll {blockSize : Nat} {added : List BackedBlock} {bbl : BackedBlockList}
    (h : Added blockSize added bbl) (hsize : 0 < blockSize) (hfour : 4 ∣ blockSize) (calls : List AddCall)
    (hseparate : Separate blockSize ((addedBlocks calls).reverse ++ added))
    : (addAll bbl calls = .error .useAfterFree ∧ ¬Loose blockSize ((addedBlocks calls).reverse ++ added))
      ∨ ∃ bbl', addAll bbl calls = .ok bbl' ∧ Added blockSize ((addedBlocks calls).reverse ++ added) bbl' := by
  induction calls generalizing added bbl with
  | nil => exact .inr ⟨bbl, rfl, h⟩
  | cons c calls ih =>
    rw [addAll_cons]
    cases hmem : c.mem with
    | false =>
      have hadded : addedBlocks (c :: calls) = addedBlocks calls := by
        simp [addedBlocks, hmem]
      rw [hadded] at hseparate ⊢
      exact ih h hseparate
    | true =>
      have hadded : (addedBlocks (c :: calls)).reverse ++ added = (addedBlocks calls).reverse ++ c.bb :: added := by
        simp [addedBlocks, hmem]
      rw [hadded] at hseparate ⊢
      cases h.queueBb hsize hfour hseparate.addable with
      | inl herror =>
        left
        rw [if_pos rfl, herror.1]
        refine ⟨rfl, ?_⟩
        intro hloose
        have hold := (List.pairwise_cons.mp (List.pairwise_append.mp hloose).2.1).2
        exact (h.loose hold).2 herror.2
      | inr hok =>
        obtain ⟨bbl', hqueue, hadded'⟩ := hok
        rw [if_pos rfl, hqueue]
        exact ih hadded' hseparate

theorem Separate.reverse {blockSize : Nat} {blocks : List BackedBlock} (h : Separate blockSize blocks)
    : Separate blockSize blocks.reverse := by
  refine ⟨?_, ?_, ?_⟩
  . intro bb hbb
    exact h.proper bb (List.mem_reverse.mp hbb)
  . cases h.room with
    | inl hloose => exact .inl (hloose.perm (List.reverse_perm blocks).symm)
    | inr htotal =>
      right
      rwa [total, ((List.reverse_perm blocks).map BackedBlock.len).sum_eq]
  . rw [List.pairwise_reverse]
    exact h.apart.imp Or.symm

/--
Blocks with a place of their own may be added in any order: if nothing that has been freed is looked at, the list is
in order and has the bytes of all that were added. If none of them can be merged with another, nothing is freed, and
the list has just these blocks.
-/
theorem addAll_spec {blockSize : Nat} (hsize : 0 < blockSize) (hfour : 4 ∣ blockSize) {calls : List AddCall}
    (hseparate : Separate blockSize (addedBlocks calls))
    : (∀ bbl, addAll (backedBlockListNew blockSize) calls = .ok bbl
        → InOrder blockSize bbl.dataBlocks
          ∧ ∀ env pos byte, Holds env blockSize bbl.dataBlocks pos byte
              ↔ Holds env blockSize (addedBlocks calls) pos byte)
      ∧ (∀ fault, addAll (backedBlockListNew blockSize) calls = .error fault → fault = .useAfterFree)
      ∧ (Loose blockSize (addedBlocks calls)
        → ∃ bbl, addAll (backedBlockListNew blockSize) calls = .ok bbl
            ∧ bbl.dataBlocks.Perm (addedBlocks calls)) := by
  have hall := (added_new blockSize).addAll hsize hfour calls
  rw [List.append_nil] at hall
  have hperm := List.reverse_perm (addedBlocks calls)
  cases hall hseparate.reverse with
  | inl herror =>
    rw [herror.1]
    refine ⟨?_, ?_, ?_⟩
    . intro bbl hok
      cases hok
    . intro fault hfault
      injection hfault with hfault
      exact hfault.symm
    . intro hloose
      exact absurd (hloose.perm hperm.symm) herror.2
  | inr hok =>
    obtain ⟨bbl, hrun, hadded⟩ := hok
    rw [hrun]
    refine ⟨?_, ?_, ?_⟩
    . intro bbl' hbbl
      injection hbbl with hbbl
      subst hbbl
      refine ⟨hadded.good.inOrder, ?_⟩
      intro env pos byte
      rw [hadded.holds]
      unfold Holds
      simp only [hperm.mem_iff]
    . intro fault hfault
      cases hfault
    . intro hloose
      exact ⟨bbl, rfl, (hadded.loose (hloose.perm hperm.symm)).1.trans hperm⟩

theorem addAll_spec_disorder
    : ∃ bbl, addAll (backedBlockListNew 4) [⟨⟨5, 4, .data 0⟩, true⟩, ⟨⟨0, 6, .fill 7⟩, true⟩, ⟨⟨9, 4, .data 8⟩, false⟩,
          ⟨⟨3, 8, .fd 1 0⟩, true⟩] = .ok bbl
        ∧ bbl.dataBlocks.Perm [⟨5, 4, .data 0⟩, ⟨0, 6, .fill 7⟩, ⟨3, 8, .fd 1 0⟩] := by
  have hloose : Loose 4 [⟨5, 4, .data 0⟩, ⟨0, 6, .fill 7⟩, ⟨3, 8, .fd 1 0⟩] := by
    unfold Loose
    decide
  refine (addAll_spec (by decide) (by decide) ⟨?_, .inl hloose, ?_⟩).2.2 hloose
  . decide
  . unfold Apart
    decide

end Sparse
