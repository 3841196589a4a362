import Tboot.Helpers.Impl

/-!
This module contains what `array_to_string` returns: the entries joined by the separator, unless there is no
entry or the size of the block does not fit in 32 bits.
-/

namespace Helpers

def Block.Inside (b : Block) : Prop :=
  ∀ i ∈ b.writes, 0 ≤ i ∧ i < b.size

theorem Block.inside_of_subset {b b' : Block} (hsize : b'.size = b.size) (hsub : b.writes ⊆ b'.writes)
    (h : b'.Inside) : b.Inside := by
  intro i hi
  rw [← hsize]
  exact h i (hsub hi)

theorem Block.store_inside_iff (b : Block) (pos : Nat) {s : Bytes} (hs : s ≠ [])
    : (b.store pos s).Inside ↔ b.Inside ∧ pos + s.length ≤ b.size := by
  have hlen : 0 < s.length := List.length_pos_of_ne_nil hs
  constructor
  . intro h
    refine ⟨@inside_of_subset b (b.store pos s) rfl (List.subset_append_left _ _) h, ?_⟩
    have hlast : ((pos + s.length - 1 : Nat) : Int) ∈ (b.store pos s).writes := by
      apply List.mem_append_right
      apply List.mem_map_of_mem
      rw [List.mem_range'_1]
      omega
    have hlt : ((pos + s.length - 1 : Nat) : Int) < b.size := (h _ hlast).2
    omega
  . intro h i hi
    have hsize : (b.store pos s).size = b.size := rfl
    rw [hsize]
    cases List.mem_append.mp hi with
    | inl hold => exact h.1 i hold
    | inr hnew =>
      obtain ⟨n, hn, rfl⟩ := List.mem_map.mp hnew
      rw [List.mem_range'_1] at hn
      omega

namespace arrayToString

def entries : List (Option Bytes) → List Bytes
  | some s :: argv => cstr s :: entries argv
  | _ => []

theorem entries_some (s : Bytes) (argv : List (Option Bytes)) : entries (some s :: argv) = cstr s :: entries argv :=
  rfl

def room (argv : List (Option Bytes)) : Nat :=
  1 + ((entries argv).map fun s => s.length + 1).sum

def separated (seprator : UInt8) (ss : List Bytes) : Bytes :=
  ss.flatMap (· ++ [seprator])

theorem separated_length (seprator : UInt8) (ss : List Bytes)
    : (separated seprator ss).length = (ss.map fun s => s.length + 1).sum := by
  unfold separated
  simp [List.length_flatMap]

theorem separated_eq (seprator : UInt8) {ss : List Bytes} (h : ss ≠ [])
    : separated seprator ss = [seprator].intercalate ss ++ [seprator] := by
  unfold separated
  induction ss with
  | nil => exact absurd rfl h
  | cons s ss ih =>
    cases ss with
    | nil => simp
    | cons t ss =>
      rw [List.flatMap_cons, ih (List.cons_ne_nil _ _), List.intercalate_cons_cons]
      simp

theorem entries_eq_nil {argv : List (Option Bytes)} (h : ∀ s rest, argv = some s :: rest → False)
    : entries argv = [] := by
  unfold entries
  split
  . next s rest => exact (h s rest rfl).elim
  . rfl

theorem blockSize_eq (argv : List (Option Bytes)) {size : Nat} (h : size < 2 ^ 32)
    : blockSize size argv = u32 (size + ((entries argv).map fun s => s.length + 1).sum) := by
  fun_induction blockSize size argv with
  | case1 size s argv ih =>
    rw [ih (u32_lt _), entries_some, List.map_cons, List.sum_cons]
    unfold u32
    rw [Nat.mod_add_mod, Nat.add_assoc]
  | case2 size argv hargv =>
    rw [entries_eq_nil hargv]
    exact (u32_of_lt h).symm

/-! ### The text so far -/

structure Holds (b : Block) (text : Bytes) : Prop where
  room : text.length < b.size
  cstring : 0 ∉ text
  mem : ∃ more, b.mem = text ++ (List.replicate (b.size - text.length) 0 ++ more)
  inside : b.Inside

section Holds

variable {b : Block} {text : Bytes} {seprator : UInt8}

theorem holds_calloc {size : Nat} (hsize : 0 < size) (behind : Bytes) : Holds (Block.calloc size behind) [] := by
  refine ⟨hsize, by simp, ⟨behind, rfl⟩, ?_⟩
  intro i hi
  simp [Block.calloc] at hi

theorem Holds.strlen_eq (h : Holds b text) : b.strlen = text.length := by
  have hroom := h.room
  obtain ⟨more, hmem⟩ := h.mem
  obtain ⟨n, hn⟩ : ∃ n, b.size - text.length = n + 1 := ⟨b.size - text.length - 1, by omega⟩
  unfold Block.strlen
  rw [hmem, hn, List.replicate_succ, List.cons_append, cstr_append_zero h.cstring]

theorem Holds.sprintf_inside_iff (h : Holds b text) (s : Bytes)
    : (sprintf b s seprator).Inside ↔ text.length + ((cstr s).length + 1) < b.size := by
  unfold sprintf
  rw [Block.store_inside_iff _ _ (by simp), h.strlen_eq]
  simp [h.inside]
  omega

theorem Holds.sprintf (h : Holds b text) (hsep : seprator ≠ 0) (s : Bytes)
    (hroom : text.length + ((cstr s).length + 1) < b.size)
    : Holds (sprintf b s seprator) (text ++ (cstr s ++ [seprator])) := by
  obtain ⟨more, hmem⟩ := h.mem
  refine ⟨?_, ?_, ⟨more, ?_⟩, ?_⟩
  . simpa [arrayToString.sprintf, Block.store] using hroom
  . simp [h.cstring, zero_not_mem_cstr, hsep.symm]
  . have hzeros : b.size - (text.length + ((cstr s).length + 1))
        = b.size - (text.length + ((cstr s).length + 2)) + 1 := by
      omega
    have hdrop : (List.replicate (b.size - text.length) 0 ++ more).drop ((cstr s).length + 2)
        = List.replicate (b.size - (text.length + ((cstr s).length + 2))) 0 ++ more := by
      rw [List.drop_append_of_le_length (by simp; omega), List.drop_replicate, Nat.sub_sub]
    unfold arrayToString.sprintf Block.store
    dsimp only
    rw [h.strlen_eq, hmem, Heap.store_append]
    simp only [List.length_append, List.length_cons, List.length_nil, hzeros, List.replicate_succ]
    simp [hdrop]
  . exact (h.sprintf_inside_iff s).mpr hroom

theorem copy_size (seprator : UInt8) (b : Block) (argv : List (Option Bytes))
    : (copy seprator b argv).size = b.size := by
  fun_induction copy seprator b argv with
  | case1 b s argv ih => exact ih
  | case2 => rfl

theorem inside_of_copy {argv : List (Option Bytes)} (h : (copy seprator b argv).Inside) : b.Inside := by
  fun_induction copy seprator b argv with
  | case1 b s argv ih => exact ((Block.store_inside_iff _ _ (by simp)).mp (ih h)).1
  | case2 => exact h

theorem Holds.after_copy (h : Holds b text) (hsep : seprator ≠ 0) (argv : List (Option Bytes))
    (hinside : (copy seprator b argv).Inside)
    : Holds (copy seprator b argv) (text ++ separated seprator (entries argv)) := by
  fun_induction arrayToString.copy seprator b argv generalizing text with
  | case1 b s argv ih =>
    have hroom := (h.sprintf_inside_iff s).mp (inside_of_copy hinside)
    have hrest := ih (h.sprintf hsep s hroom) hinside
    rw [entries_some]
    simpa [separated] using hrest
  | case2 b argv hargv =>
    rw [entries_eq_nil hargv]
    simpa [separated] using h

theorem Holds.copy_inside (h : Holds b text) (hsep : seprator ≠ 0) (argv : List (Option Bytes))
    (hroom : text.length + (separated seprator (entries argv)).length < b.size)
    : (copy seprator b argv).Inside := by
  fun_induction arrayToString.copy seprator b argv generalizing text with
  | case1 b s argv ih =>
    have hlen : (separated seprator (entries (some s :: argv))).length
        = (cstr s).length + 1 + (separated seprator (entries argv)).length := by
      rw [separated_length, separated_length, entries_some, List.map_cons, List.sum_cons]
    have hs : text.length + ((cstr s).length + 1) < b.size := by omega
    apply ih (h.sprintf hsep s hs)
    simp [arrayToString.sprintf, Block.store]
    omega
  | case2 b argv hargv => exact h.inside

end Holds

/-! ### The last separator -/

theorem terminate_inside_of_inside (b : Block) (h : (terminate b).Inside) : b.Inside ∧ b.strlen ≠ 0 := by
  unfold terminate at h
  split at h
  . have hlast := h (-1) (by simp)
    omega
  . next hne => exact ⟨((Block.store_inside_iff _ _ (by simp)).mp h).1, hne⟩

theorem Holds.terminate {b : Block} {text : Bytes} {seprator : UInt8} (h : Holds b (text ++ [seprator]))
    : cstr (terminate b).mem = text ∧ (terminate b).Inside := by
  have hlen : b.strlen = text.length + 1 := by simpa using h.strlen_eq
  have hroom : text.length + 1 < b.size := by simpa using h.room
  have htext : 0 ∉ text := by
    intro hzero
    exact h.cstring (List.mem_append_left _ hzero)
  obtain ⟨more, hmem⟩ := h.mem
  unfold arrayToString.terminate
  rw [if_neg (by omega), hlen, Nat.add_sub_cancel]
  constructor
  . unfold Block.store
    dsimp only
    rw [hmem, List.append_assoc, Heap.store_append, List.append_assoc]
    exact cstr_append_zero htext _
  . rw [Block.store_inside_iff _ _ (by simp)]
    refine ⟨h.inside, ?_⟩
    simp
    omega

/-- The entries joined by the separator, and no byte written but those of the block -/
def Joins (argv : List (Option Bytes)) (seprator : UInt8) (calloc : Nat → Option Bytes) : Prop :=
  ∃ b, arrayToString argv seprator calloc = some b ∧ cstr b.mem = [seprator].intercalate (entries argv) ∧ b.Inside

theorem blockSize_one (argv : List (Option Bytes)) : blockSize 1 argv = u32 (room argv) :=
  blockSize_eq argv (by decide)

theorem joins_of_room {argv : List (Option Bytes)} {seprator : UInt8} {calloc : Nat → Option Bytes}
    (hsep : seprator ≠ 0) (hne : entries argv ≠ []) (hroom : room argv < 2 ^ 32)
    (hcalloc : (calloc (room argv)).isSome) : Joins argv seprator calloc := by
  obtain ⟨behind, hbehind⟩ := Option.isSome_iff_exists.mp hcalloc
  have hsize : blockSize 1 argv = room argv := (blockSize_one argv).trans (u32_of_lt hroom)
  have hlen := separated_length seprator (entries argv)
  have hstart : Holds (Block.calloc (room argv) behind) [] := holds_calloc (by unfold room; omega) behind
  have hinside : (copy seprator (Block.calloc (room argv) behind) argv).Inside := by
    apply hstart.copy_inside hsep
    rw [hlen, List.length_nil]
    unfold Block.calloc room
    dsimp only
    omega
  have hcopy := hstart.after_copy hsep argv hinside
  rw [List.nil_append, separated_eq seprator hne] at hcopy
  refine ⟨terminate (copy seprator (Block.calloc (room argv) behind) argv), ?_, hcopy.terminate⟩
  unfold arrayToString
  simp only [hsize, hbehind]
  rfl

theorem calloc_strlen_one (behind : Bytes) : (Block.calloc 1 behind).strlen = 0 :=
  (holds_calloc (by decide) behind).strlen_eq

theorem not_inside_copy_of_size_zero {b : Block} {argv : List (Option Bytes)} {seprator : UInt8} (hsize : b.size = 0)
    (hne : entries argv ≠ []) : ¬(copy seprator b argv).Inside := by
  intro h
  unfold copy at h
  split at h
  . next s argv =>
    have hroom := ((Block.store_inside_iff _ _ (by simp)).mp (inside_of_copy h)).2
    simp [hsize] at hroom
  . next hargv => exact hne (entries_eq_nil hargv)

theorem copy_of_entries_nil {argv : List (Option Bytes)} (h : entries argv = []) (seprator : UInt8) (b : Block)
    : copy seprator b argv = b := by
  unfold copy
  split
  . next s argv => exact absurd h (List.cons_ne_nil _ _)
  . rfl

theorem room_of_joins {argv : List (Option Bytes)} {seprator : UInt8} {calloc : Nat → Option Bytes}
    (hsep : seprator ≠ 0) (h : Joins argv seprator calloc)
    : entries argv ≠ [] ∧ room argv < 2 ^ 32 ∧ (calloc (room argv)).isSome := by
  obtain ⟨b, hb, _, hinside⟩ := h
  unfold arrayToString at hb
  obtain ⟨behind, hbehind, hb⟩ := Option.bind_eq_some_iff.mp hb
  cases hb
  obtain ⟨hcopy, hstrlen⟩ := terminate_inside_of_inside _ hinside
  have hne : entries argv ≠ [] := by
    intro hnil
    have hsize : blockSize 1 argv = 1 := by simp [blockSize_one, room, hnil, u32]
    rw [hsize, copy_of_entries_nil hnil] at hstrlen
    exact hstrlen (calloc_strlen_one behind)
  have hroom : room argv < 2 ^ 32 := by
    cases Nat.eq_zero_or_pos (blockSize 1 argv) with
    | inl hzero => exact absurd hcopy (not_inside_copy_of_size_zero hzero hne)
    | inr hpos =>
      -- The writes of the copy, and so what the text needs, have been in the block.
      have hfits := ((holds_calloc hpos behind).after_copy hsep argv hcopy).room
      have hlt : blockSize 1 argv < 2 ^ 32 := by
        rw [blockSize_one]
        exact u32_lt _
      have hsize : (Block.calloc (blockSize 1 argv) behind).size = blockSize 1 argv := rfl
      rw [copy_size, hsize, List.nil_append, separated_length] at hfits
      unfold room
      omega
  rw [blockSize_one, u32_of_lt hroom] at hbehind
  exact ⟨hne, hroom, by simp [hbehind]⟩

theorem joins_iff (argv : List (Option Bytes)) {seprator : UInt8} (hsep : seprator ≠ 0) (calloc : Nat → Option Bytes)
    : Joins argv seprator calloc ↔ entries argv ≠ [] ∧ room argv < 2 ^ 32 ∧ (calloc (room argv)).isSome := by
  constructor
  . exact room_of_joins hsep
  . intro h
    exact joins_of_room hsep h.1 h.2.1 h.2.2

theorem joins_two_entries
    : Joins [some (str "a"), some (str "b"), none] 32 fun _ => some [] := by
  rw [joins_iff _ (by decide)]
  decide +kernel

/-- Without an entry, the zero for the last separator is written before the block. -/
theorem not_joins_nil
    : arrayToString [] 32 (fun _ => some []) = some ⟨1, [0], [-1]⟩ ∧ ¬ Joins [] 32 fun _ => some [] := by
  have hrun : arrayToString [] 32 (fun _ => some []) = some ⟨1, [0], [-1]⟩ := by decide +kernel
  refine ⟨hrun, ?_⟩
  rintro ⟨b, hb, _, hinside⟩
  rw [hrun] at hb
  cases hb
  have hlast := hinside (-1) (by simp)
  omega

end arrayToString

end Helpers
