import Tboot.Ui.Lemmas.Textarea

/-!
This module contains when the log area shows the latest text: exactly the last segments with something to
be seen, one in each row.
-/

namespace Ui

open textareaRefresh

/-! ### The rows -/

theorem Textarea.rowY_succ (ta : Textarea) (j : Nat) : ta.rowY (j + 1) = ta.rowY j + ta.stepY := by
  unfold rowY stepY
  split
  all_goals
    push_cast
    ring

def drawTexts (ta : Textarea) : (j : Nat) → List (Bytes × UInt32) → List Draw
  | _, [] => []
  | j, t :: ts => .setColor t.2 :: .drawString t.1 ta.x (ta.rowY j) :: drawTexts ta (j + 1) ts

theorem drawTexts_injective {ta : Textarea} {j : Nat} {ts ts' : List (Bytes × UInt32)}
    (h : drawTexts ta j ts = drawTexts ta j ts') : ts = ts' := by
  induction ts generalizing j ts' with
  | nil =>
    cases ts' with
    | nil => rfl
    | cons t ts' => simp [drawTexts] at h
  | cons t ts ih =>
    cases ts' with
    | nil => simp [drawTexts] at h
    | cons t' ts' =>
      simp only [drawTexts, List.cons.injEq, Draw.setColor.injEq, Draw.drawString.injEq] at h
      obtain ⟨hcolor, ⟨htext, _⟩, hrest⟩ := h
      rw [Prod.ext htext hcolor, ih hrest]

def visible (ls : List Line) : List (Bytes × UInt32) :=
  (ls.map fun l => (cstr l.text, l.color)).filter (·.1 ≠ [])

theorem drawLines_ok {ta : Textarea} {ls : List Line} (h : ∀ l ∈ ls, 0 ∈ l.text) (j : Nat)
    : drawLines ta.x ta.stepY (ta.rowY j) ls = .ok (drawTexts ta j (visible ls)) := by
  induction ls generalizing j with
  | nil => rfl
  | cons l ls ih =>
    rw [List.forall_mem_cons] at h
    have hstrlen : strlen l = .ok (cstr l.text).length := if_pos h.1
    unfold drawLines
    rw [hstrlen]
    simp only [Except.bind]
    by_cases hempty : cstr l.text = []
    . have hvisible : visible (l :: ls) = visible ls := by simp [visible, hempty]
      simp only [hempty, List.length_nil, if_true, ih h.2, hvisible]
      rfl
    . have hvisible : visible (l :: ls) = (cstr l.text, l.color) :: visible ls := by simp [visible, hempty]
      have hlen : (cstr l.text).length ≠ 0 := by simpa using hempty
      simp only [if_neg hlen, ← ta.rowY_succ, ih h.2, hvisible]
      rfl

theorem drawLines_error {x stepY : Int} {ls : List Line} (h : ∃ l ∈ ls, 0 ∉ l.text) (y : Int)
    : drawLines x stepY y ls = .error .index := by
  induction ls generalizing y with
  | nil => simp at h
  | cons l ls ih =>
    unfold drawLines
    by_cases hzero : 0 ∈ l.text
    . rw [List.exists_mem_cons_iff, or_iff_right (not_not.mpr hzero)] at h
      have hstrlen : strlen l = .ok (cstr l.text).length := if_pos hzero
      rw [hstrlen]
      simp only [Except.bind, ih h]
      rfl
    . have hstrlen : strlen l = .error .index := if_neg hzero
      rw [hstrlen]
      rfl

theorem order_injective {α : Type} {ta : Textarea} {xs ys : List α} (h : ta.order xs = ta.order ys) : xs = ys := by
  unfold Textarea.order at h
  split at h
  . exact List.reverse_injective h
  . exact h

theorem visible_order (ta : Textarea) (ls : List Line) : visible (ta.order ls) = ta.order (visible ls) := by
  unfold Textarea.order
  split
  . simp [visible]
  . rfl

theorem mem_order {α : Type} {ta : Textarea} {xs : List α} {a : α} : a ∈ ta.order xs ↔ a ∈ xs := by
  unfold Textarea.order
  split
  . exact List.mem_reverse
  . rfl

theorem Holds.refresh_iff {ta : Textarea} {len : Nat} {r : RingBuffer Line} (h : Holds ta len r)
    (hcur : ta.lifo = true → 0 ≤ ta.curLine) (ts : List (Bytes × UInt32))
    : textareaRefresh ta = .ok (ta.frame (drawTexts ta 0 (ta.order ts)))
        ↔ (∀ l ∈ r.view, 0 ∈ l.text) ∧ visible r.view = ts := by
  rw [h.refresh_eq hcur]
  by_cases hzero : ∀ l ∈ r.view, 0 ∈ l.text
  . rw [drawLines_ok fun l hl => hzero l (mem_order.mp hl), visible_order]
    rw [and_iff_right hzero]
    simp only [Except.map, Except.ok.injEq]
    constructor
    . intro hdrawn
      unfold Textarea.frame at hdrawn
      simp only [List.cons_append, List.nil_append, List.cons.injEq, true_and, List.append_cancel_right_eq] at hdrawn
      exact order_injective (drawTexts_injective hdrawn)
    . intro hts
      rw [hts]
  . have hex : ∃ l ∈ ta.order r.view, 0 ∉ l.text := by
      simpa [mem_order] using hzero
    rw [drawLines_error hex]
    constructor
    . intro herror
      cases herror
    . intro hview
      exact absurd hview.1 hzero

/-! ### What the segments leave in the ring -/

def readable (ss : List Segment) : List (Bytes × UInt32) :=
  (ss.map fun s => (s.shown, s.color)).filter (·.1 ≠ [])

section Segments

variable {s : Segment} {len : Nat}

theorem zero_not_mem_shown (h : 0 ∉ s.text) : 0 ∉ s.shown := by
  unfold Segment.shown
  split
  . intro hzero
    exact h (List.mem_of_mem_dropLast hzero)
  . exact h

theorem line_text_of_lt (hlen : s.shown.length < len)
    : (s.line len).text = s.shown ++ 0 :: List.replicate (len - s.shown.length - 1) 0 := by
  obtain ⟨n, hn⟩ : ∃ n, len - s.shown.length = n + 1 := ⟨len - s.shown.length - 1, by omega⟩
  unfold Segment.line
  dsimp only
  rw [List.take_of_length_le (by omega), hn, List.replicate_succ]
  rfl

theorem zero_mem_line_iff (h : 0 ∉ s.text) : 0 ∈ (s.line len).text ↔ s.shown.length < len := by
  constructor
  . intro hzero
    by_contra hge
    unfold Segment.line at hzero
    rw [Nat.sub_eq_zero_of_le (by omega), List.replicate_zero, List.append_nil] at hzero
    exact zero_not_mem_shown h (List.mem_of_mem_take hzero)
  . intro hlt
    rw [line_text_of_lt hlt]
    simp

theorem cstr_line (h : 0 ∉ s.text) (hlen : s.shown.length < len) : cstr (s.line len).text = s.shown := by
  rw [line_text_of_lt hlen, cstr_append_zero (zero_not_mem_shown h)]

theorem visible_lines {ss : List Segment} (h : ∀ s ∈ ss, 0 ∉ s.text ∧ s.shown.length < len)
    : visible (ss.map fun s => s.line len) = readable ss := by
  unfold visible readable
  rw [List.map_map]
  congr 1
  apply List.map_congr_left
  intro s hs
  exact Prod.ext (cstr_line (h s hs).1 (h s hs).2) rfl

end Segments

theorem readable_rtake_iff (ss : List Segment) (n : Nat)
    : readable (ss.rtake n) = (readable ss).rtake n
        ↔ ((∃ s ∈ ss.rtake n, s.shown = []) → ∀ s ∈ ss.rdrop n, s.shown = []) := by
  unfold readable
  rw [map_rtake, filter_rtake_eq_iff, ← map_rtake, ← map_rdrop]
  simp

/-! ### A fresh area -/

structure Fresh (ta : Textarea) (len : Nat) : Prop where
  curLine : ta.curLine = -1
  nrLines : 0 < ta.nrLines
  len_pos : 0 < len
  length : ∀ l ∈ ta.lines, l.text.length = len

section Fresh

variable {ta : Textarea} {len : Nat}

def Fresh.ring (h : Fresh ta len) : RingBuffer Line where
  slots := ta.lines
  next := ⟨0, h.nrLines⟩

theorem Fresh.holds (h : Fresh ta len) : Holds ta len h.ring := by
  have hpos := h.nrLines
  refine ⟨rfl, ?_, ?_, h.length⟩
  . rw [h.curLine]
    omega
  . rw [h.curLine]
    exact Int.zero_emod _

theorem Fresh.view_putSegments (h : Fresh ta len) (ss : List Segment)
    : ((ss.map fun s => s.line len).foldl RingBuffer.push h.ring).view
        = ta.lines.drop ss.length ++ (ss.rtake ta.nrLines).map fun s => s.line len := by
  have hview : h.ring.view = ta.lines := List.rotate_zero _
  rw [RingBuffer.view_foldl_push, hview, List.length_map, List.drop_append]
  unfold List.rtake
  rw [List.map_drop]
  rfl

theorem putSegments_nrLines (ta : Textarea) (len : Nat) (ss : List Segment)
    : ∃ curLine lines, ta.putSegments len ss = { ta with curLine, lines } ∧ lines.length = ta.nrLines := by
  induction ss generalizing ta with
  | nil => exact ⟨ta.curLine, ta.lines, rfl, rfl⟩
  | cons s ss ih =>
    obtain ⟨curLine, lines, heq, hlen⟩ := ih (ta.put (s.line len))
    refine ⟨curLine, lines, heq, hlen.trans ?_⟩
    exact List.length_set

theorem Fresh.curLine_nonneg (h : Fresh ta len) {ss : List Segment} (hss : ss ≠ [])
    : 0 ≤ (ta.putSegments len ss).curLine := by
  obtain ⟨ss', s, rfl⟩ := (List.eq_nil_or_concat' ss).resolve_left hss
  obtain ⟨curLine, lines, heq, hlen⟩ := putSegments_nrLines ta len ss'
  have hpos := h.nrLines
  rw [putSegments_append, heq]
  apply Int.emod_nonneg
  change (lines.length : Int) ≠ 0
  omega

/-- The last segments with something to be seen, as a refresh is to draw them -/
def Textarea.latest (ta : Textarea) (ss : List Segment) : List Draw :=
  ta.frame (drawTexts ta 0 (ta.order ((readable ss).rtake ta.nrLines)))

theorem latest_putSegments (ta : Textarea) (len : Nat) (ss ss' : List Segment)
    : (ta.putSegments len ss).latest ss' = ta.latest ss' := by
  obtain ⟨curLine, lines, heq, hlen⟩ := putSegments_nrLines ta len ss
  have hdraw : ∀ j ts, drawTexts { ta with curLine, lines } j ts = drawTexts ta j ts := by
    intro j ts
    induction ts generalizing j with
    | nil => rfl
    | cons t ts ih =>
      unfold drawTexts
      rw [ih]
      rfl
  have hn : ({ ta with curLine, lines } : Textarea).nrLines = ta.nrLines := hlen
  rw [heq]
  unfold Textarea.latest
  rw [hdraw, hn]
  rfl

theorem lifo_putSegments (ta : Textarea) (len : Nat) (ss : List Segment) : (ta.putSegments len ss).lifo = ta.lifo := by
  obtain ⟨curLine, lines, heq, _⟩ := putSegments_nrLines ta len ss
  rw [heq]
  rfl

/--
The ring is as it should be after the segments `ss`: no line is drawn before it has been written, each of the
last segments fits with a zero behind it, and one of which nothing is to be seen does not take the place
of an older one.
-/
structure Clean (ta : Textarea) (len : Nat) (ss : List Segment) : Prop where
  started : ta.lifo = true → ss ≠ []
  fresh : ∀ l ∈ ta.lines.drop ss.length, l.text.head? = some 0
  fits : ∀ s ∈ ss.rtake ta.nrLines, s.shown.length < len
  blanks : (∃ s ∈ ss.rtake ta.nrLines, s.shown = []) → ∀ s ∈ ss.rdrop ta.nrLines, s.shown = []

theorem cstr_eq_nil_iff {t : Bytes} (ht : 0 < t.length) : cstr t = [] ↔ t.head? = some 0 := by
  cases t with
  | nil => simp at ht
  | cons c t => simp [cstr, List.takeWhile_cons]

theorem visible_eq_nil_iff {ls : List Line} (hpos : ∀ l ∈ ls, 0 < l.text.length)
    : visible ls = [] ↔ ∀ l ∈ ls, l.text.head? = some 0 := by
  unfold visible
  rw [List.filter_eq_nil_iff, List.forall_mem_map]
  apply forall₂_congr
  intro l hl
  rw [← cstr_eq_nil_iff (hpos l hl)]
  simp

theorem visible_append (ls ls' : List Line) : visible (ls ++ ls') = visible ls ++ visible ls' := by
  unfold visible
  rw [List.map_append, List.filter_append]

theorem append_eq_rtake_iff {ts : List (Bytes × UInt32)} {ss : List Segment} {n : Nat} (hts : n ≤ ss.length → ts = [])
    : ts ++ readable (ss.rtake n) = (readable ss).rtake n
        ↔ ts = [] ∧ readable (ss.rtake n) = (readable ss).rtake n := by
  constructor
  . intro h
    cases Nat.lt_or_ge ss.length n with
    | inl hlt =>
      have hle : (readable ss).length ≤ ss.length := by
        unfold readable
        exact Nat.le_trans (List.length_filter_le ..) (Nat.le_of_eq (List.length_map _))
      rw [rtake_of_length_le (Nat.le_of_lt hlt), rtake_of_length_le (by omega)] at h ⊢
      exact ⟨List.self_eq_append_left.mp h.symm, rfl⟩
    | inr hge =>
      have hnil := hts hge
      rw [hnil, List.nil_append] at h
      exact ⟨hnil, h⟩
  . rintro ⟨rfl, h⟩
    exact h

theorem Fresh.view_iff (h : Fresh ta len) {ss : List Segment} (hss : ∀ s ∈ ss, 0 ∉ s.text)
    : (∀ l ∈ ta.lines.drop ss.length ++ (ss.rtake ta.nrLines).map fun s => s.line len, 0 ∈ l.text)
          ∧ visible (ta.lines.drop ss.length ++ (ss.rtake ta.nrLines).map fun s => s.line len)
              = (readable ss).rtake ta.nrLines
        ↔ (∀ l ∈ ta.lines.drop ss.length, l.text.head? = some 0)
          ∧ (∀ s ∈ ss.rtake ta.nrLines, s.shown.length < len)
          ∧ ((∃ s ∈ ss.rtake ta.nrLines, s.shown = []) → ∀ s ∈ ss.rdrop ta.nrLines, s.shown = []) := by
  have hcstring : ∀ s ∈ ss.rtake ta.nrLines, 0 ∉ s.text := by
    intro s hs
    exact hss s (List.mem_of_mem_drop hs)
  have hpos : ∀ l ∈ ta.lines.drop ss.length, 0 < l.text.length := by
    intro l hl
    rw [h.length l (List.mem_of_mem_drop hl)]
    exact h.len_pos
  have hold : ta.nrLines ≤ ss.length → visible (ta.lines.drop ss.length) = [] := by
    intro hle
    rw [List.drop_eq_nil_of_le hle]
    rfl
  have hfits : (∀ l ∈ (ss.rtake ta.nrLines).map fun s => s.line len, 0 ∈ l.text)
      ↔ ∀ s ∈ ss.rtake ta.nrLines, s.shown.length < len := by
    rw [List.forall_mem_map]
    apply forall₂_congr
    intro s hs
    exact zero_mem_line_iff (hcstring s hs)
  rw [List.forall_mem_append, hfits, visible_append]
  constructor
  . rintro ⟨⟨_, hlen⟩, hvisible⟩
    rw [visible_lines fun s hs => ⟨hcstring s hs, hlen s hs⟩, append_eq_rtake_iff hold, visible_eq_nil_iff hpos,
      readable_rtake_iff] at hvisible
    exact ⟨hvisible.1, hlen, hvisible.2⟩
  . rintro ⟨hfresh, hlen, hblanks⟩
    refine ⟨⟨?_, hlen⟩, ?_⟩
    . intro l hl
      exact List.mem_of_head? (hfresh l hl)
    . rw [visible_lines fun s hs => ⟨hcstring s hs, hlen s hs⟩, append_eq_rtake_iff hold, visible_eq_nil_iff hpos,
        readable_rtake_iff]
      exact ⟨hfresh, hblanks⟩

theorem Fresh.refresh_latest_iff (h : Fresh ta len) {ss : List Segment} (hss : ∀ s ∈ ss, 0 ∉ s.text)
    : textareaRefresh (ta.putSegments len ss) = .ok (ta.latest ss) ↔ Clean ta len ss := by
  have hholds := h.holds.putSegments ss
  have hn : (ta.putSegments len ss).nrLines = ta.nrLines := by
    obtain ⟨curLine, lines, heq, hlen⟩ := putSegments_nrLines ta len ss
    rw [heq]
    exact hlen
  by_cases hstarted : ta.lifo = true → ss ≠ []
  . have hcur : (ta.putSegments len ss).lifo = true → 0 ≤ (ta.putSegments len ss).curLine := by
      intro hlifo
      rw [lifo_putSegments] at hlifo
      exact h.curLine_nonneg (hstarted hlifo)
    rw [← latest_putSegments ta len ss ss]
    unfold Textarea.latest
    rw [hholds.refresh_iff hcur, h.view_putSegments, hn, h.view_iff hss]
    constructor
    . rintro ⟨hfresh, hfits, hblanks⟩
      exact ⟨hstarted, hfresh, hfits, hblanks⟩
    . intro hclean
      exact ⟨hclean.fresh, hclean.fits, hclean.blanks⟩
  . have hlifo : ta.lifo = true ∧ ss = [] := by simpa using hstarted
    have hnone : ta.putSegments len ss = ta := by
      rw [hlifo.2]
      rfl
    have hcur : ta.curLine < 0 := by
      rw [h.curLine]
      decide
    rw [hnone, Holds.refresh_error hlifo.1 hcur]
    constructor
    . intro herror
      cases herror
    . intro hclean
      exact absurd hclean.started hstarted

end Fresh

/-! ### Messages one after the other -/

def history (font : Font) (msgs : List (Bytes × UInt32)) : List Segment :=
  msgs.flatMap fun msg => logged font (cstr msg.1) msg.2

theorem mem_of_mem_segments {font : Font} {text t : Bytes} {c : UInt8} (ht : t ∈ segments font text) (hc : c ∈ t)
    : c ∈ text := by
  fun_induction segments font text with
  | case1 => simp at ht
  | case2 text _ _ ih =>
    cases List.mem_cons.mp ht with
    | inl hfirst =>
      rw [hfirst] at hc
      exact List.mem_of_mem_take hc
    | inr hrest => exact List.mem_of_mem_drop (ih hrest)

theorem zero_not_mem_history (font : Font) (msgs : List (Bytes × UInt32)) : ∀ s ∈ history font msgs, 0 ∉ s.text := by
  intro s hs hzero
  obtain ⟨msg, _, hlogged⟩ := List.mem_flatMap.mp hs
  obtain ⟨t, ht, rfl⟩ := List.mem_map.mp hlogged
  exact zero_not_mem_cstr _ (mem_of_mem_segments ht hzero)

theorem history_append_singleton (font : Font) (past : List (Bytes × UInt32)) (msg : Bytes × UInt32)
    : history font (past ++ [msg]) = history font past ++ logged font (cstr msg.1) msg.2 := by
  unfold history
  rw [List.flatMap_append, List.flatMap_singleton]

section Messages

variable {ta : Textarea} {len : Nat}

theorem Holds.putline_ok {r : RingBuffer Line} (h : Holds ta len r) (font : Font) (text : Bytes) (color : UInt32)
    (hfits : ∀ s ∈ logged font (cstr text) color, ¬s.Overflows len)
    : textareaPutline font ta text color = .ok (ta.putSegments len (logged font (cstr text) color)) := by
  unfold textareaPutline
  split
  . next hempty =>
    rw [List.length_eq_zero_iff.mp hempty]
    unfold logged
    rw [segments_nil]
    rfl
  . exact putline_go_ok h font _ color hfits

theorem Holds.putline_error {r : RingBuffer Line} (h : Holds ta len r) (font : Font) (text : Bytes) (color : UInt32)
    (hoverflows : ∃ s ∈ logged font (cstr text) color, s.Overflows len)
    : textareaPutline font ta text color = .error .index := by
  unfold textareaPutline
  split
  . next hempty =>
    rw [List.length_eq_zero_iff.mp hempty] at hoverflows
    unfold logged at hoverflows
    rw [segments_nil] at hoverflows
    simp at hoverflows
  . exact putline_go_error h font _ color hoverflows

theorem Fresh.putAndRefresh_iff (h : Fresh ta len) (font : Font) (past : List (Bytes × UInt32)) (msg : Bytes × UInt32)
    (ta' : Textarea)
    : putAndRefresh font (ta.putSegments len (history font past)) msg.1 msg.2
          = .ok (ta', ta.latest (history font (past ++ [msg])))
        ↔ (∀ s ∈ logged font (cstr msg.1) msg.2, ¬s.Overflows len) ∧ Clean ta len (history font (past ++ [msg]))
          ∧ ta' = ta.putSegments len (history font (past ++ [msg])) := by
  have hholds := h.holds.putSegments (history font past)
  have hput : (ta.putSegments len (history font past)).putSegments len (logged font (cstr msg.1) msg.2)
      = ta.putSegments len (history font (past ++ [msg])) := by
    rw [history_append_singleton, putSegments_append]
  have hrefresh := h.refresh_latest_iff (zero_not_mem_history font (past ++ [msg]))
  unfold putAndRefresh
  by_cases hfits : ∀ s ∈ logged font (cstr msg.1) msg.2, ¬s.Overflows len
  . rw [hholds.putline_ok font _ _ hfits, hput, ← hrefresh, and_iff_right hfits]
    simp only [bind, Except.bind]
    cases textareaRefresh (ta.putSegments len (history font (past ++ [msg]))) with
    | error fault => simp
    | ok drawn =>
      simp [pure, Except.pure, and_comm, eq_comm]
  . have hoverflows : ∃ s ∈ logged font (cstr msg.1) msg.2, s.Overflows len := by
      simpa using hfits
    rw [hholds.putline_error font _ _ hoverflows]
    constructor
    . intro herror
      cases herror
    . intro hall
      exact absurd hall.1 hfits

def latestEach (font : Font) (ta : Textarea) (past msgs : List (Bytes × UInt32)) : List (List Draw) :=
  (List.range msgs.length).map fun k => ta.latest (history font (past ++ msgs.take (k + 1)))

theorem latestEach_cons (font : Font) (ta : Textarea) (past : List (Bytes × UInt32)) (msg : Bytes × UInt32)
    (msgs : List (Bytes × UInt32))
    : latestEach font ta past (msg :: msgs)
        = ta.latest (history font (past ++ [msg])) :: latestEach font ta (past ++ [msg]) msgs := by
  unfold latestEach
  rw [List.length_cons, List.range_succ_eq_map, List.map_cons, List.map_map]
  congr 1
  apply List.map_congr_left
  intro k _
  simp

/-- The messages `msgs` after those of `past`: none of them overflows, and the ring is clean after each. -/
def CleanEach (font : Font) (ta : Textarea) (len : Nat) (past msgs : List (Bytes × UInt32)) : Prop :=
  (∀ s ∈ history font msgs, ¬s.Overflows len)
    ∧ ∀ k, k < msgs.length → Clean ta len (history font (past ++ msgs.take (k + 1)))

theorem cleanEach_cons (font : Font) (ta : Textarea) (len : Nat) (past : List (Bytes × UInt32)) (msg : Bytes × UInt32)
    (msgs : List (Bytes × UInt32))
    : CleanEach font ta len past (msg :: msgs)
        ↔ ((∀ s ∈ logged font (cstr msg.1) msg.2, ¬s.Overflows len) ∧ Clean ta len (history font (past ++ [msg])))
          ∧ CleanEach font ta len (past ++ [msg]) msgs := by
  have hhistory : history font (msg :: msgs) = logged font (cstr msg.1) msg.2 ++ history font msgs :=
    List.flatMap_cons
  unfold CleanEach
  rw [hhistory, List.forall_mem_append, List.length_cons, Nat.forall_lt_succ_left]
  simp only [List.take_succ_cons, List.take_zero, List.append_assoc, List.cons_append, List.nil_append]
  tauto

theorem putAll_cons_iff (font : Font) (ta ta' : Textarea) (msg : Bytes × UInt32) (msgs : List (Bytes × UInt32))
    (drawn : List Draw) (rest : List (List Draw))
    : putAll font ta (msg :: msgs) = .ok (ta', drawn :: rest)
        ↔ ∃ ta₁, putAndRefresh font ta msg.1 msg.2 = .ok (ta₁, drawn) ∧ putAll font ta₁ msgs = .ok (ta', rest) := by
  rw [putAll]
  simp only [bind, Except.bind]
  cases putAndRefresh font ta msg.1 msg.2 with
  | error fault => simp
  | ok result =>
    obtain ⟨ta₁, drawn₁⟩ := result
    dsimp only
    constructor
    . intro h
      cases hrest : putAll font ta₁ msgs with
      | error fault =>
        rw [hrest] at h
        cases h
      | ok result =>
        rw [hrest] at h
        cases h
        exact ⟨ta₁, rfl, hrest⟩
    . rintro ⟨_, hmsg, hrest⟩
      cases hmsg
      rw [hrest]
      rfl

theorem Fresh.putAll_iff (h : Fresh ta len) (font : Font) (past msgs : List (Bytes × UInt32))
    : (∃ ta', putAll font (ta.putSegments len (history font past)) msgs = .ok (ta', latestEach font ta past msgs))
        ↔ CleanEach font ta len past msgs := by
  induction msgs generalizing past with
  | nil => simp [putAll, latestEach, CleanEach, history, pure, Except.pure]
  | cons msg msgs ih =>
    rw [latestEach_cons, cleanEach_cons, ← ih]
    simp only [putAll_cons_iff, h.putAndRefresh_iff]
    constructor
    . rintro ⟨ta', ta₁, ⟨hfits, hclean, rfl⟩, hrest⟩
      exact ⟨⟨hfits, hclean⟩, ta', hrest⟩
    . rintro ⟨⟨hfits, hclean⟩, ta', hrest⟩
      exact ⟨ta', _, ⟨hfits, hclean, rfl⟩, hrest⟩

end Messages

/-! ### Calls of `tboot_ui_textline` -/

def TextlineCall.message (call : TextlineCall) : Option (Bytes × UInt32) :=
  match call.mem, call.msg with
  | true, some msg => some (msg.take (lineLenInchar - 1), call.color)
  | _, _ => none

theorem tbootUiTextline_eq (font : Font) (ta : Textarea) (call : TextlineCall)
    : tbootUiTextline font ta call.color call.mem call.msg
        = match call.message with
          | some msg => putAndRefresh font ta msg.1 msg.2
          | none => .ok (ta, []) := by
  unfold tbootUiTextline TextlineCall.message
  cases call.mem with
  | false => rfl
  | true =>
    cases call.msg with
    | none => rfl
    | some msg => rfl

theorem textlines_eq (font : Font) (ta : Textarea) (calls : List TextlineCall)
    : textlines font ta calls
        = (putAll font ta (calls.filterMap TextlineCall.message)).map fun r => (r.1, r.2.flatten) := by
  induction calls generalizing ta with
  | nil => rfl
  | cons call calls ih =>
    unfold textlines
    rw [tbootUiTextline_eq]
    cases hmsg : call.message with
    | none =>
      rw [List.filterMap_cons_none hmsg]
      dsimp only [bind, Except.bind]
      rw [ih]
      cases putAll font ta (calls.filterMap TextlineCall.message) with
      | error fault => rfl
      | ok r => rfl
    | some msg =>
      rw [List.filterMap_cons_some hmsg, putAll]
      dsimp only [bind, Except.bind]
      cases putAndRefresh font ta msg.1 msg.2 with
      | error fault => rfl
      | ok r =>
        dsimp only
        rw [ih]
        cases putAll font r.1 (calls.filterMap TextlineCall.message) with
        | error fault => rfl
        | ok rest => rfl

theorem textlines_of_putAll {font : Font} {ta ta' : Textarea} {calls : List TextlineCall} {drawn : List (List Draw)}
    (h : putAll font ta (calls.filterMap TextlineCall.message) = .ok (ta', drawn))
    : textlines font ta calls = .ok (ta', drawn.flatten) := by
  rw [textlines_eq, h]
  rfl

/-! ### From `textarea_init` on -/

def Textarea.lineLen (ta : Textarea) : Nat :=
  (ta.width.tdiv ta.win.fontWidth).toNat + 1

theorem toNat_tdiv_mul_le {a : Int} {b : Nat} (h : 0 < (a.tdiv b).toNat) : (a.tdiv b).toNat * b ≤ a := by
  have hnonneg : 0 ≤ a := by
    by_contra hneg
    have hle : 0 ≤ (-a).tdiv b := Int.tdiv_nonneg (by omega) (Int.natCast_nonneg b)
    rw [Int.neg_tdiv] at hle
    omega
  rw [Int.toNat_of_nonneg (by omega), Int.tdiv_eq_ediv_of_nonneg hnonneg]
  apply Int.ediv_mul_le
  intro hzero
  rw [hzero, Int.tdiv_zero] at h
  simp at h

section Init

variable {win : Window} {x y width height : Int} {flags textColor : UInt32} {mem : Bool × Bool}
  {fresh : Nat → (Nat → UInt8) × UInt32} {ta : Textarea}

theorem fresh_textareaInit (h : textareaInit win x y width height flags textColor mem fresh = .ok (some ta))
    (hn : 0 < ta.nrLines) : Fresh ta ta.lineLen ∧ ta.nrLines * ta.win.fontHeight ≤ ta.height := by
  unfold textareaInit at h
  dsimp only at h
  split at h
  . cases h
  . split at h
    . cases h
    . split at h
      . cases h
      . split at h
        . cases h
        . split at h
          . cases h
          . cases h
            refine ⟨⟨rfl, hn, Nat.succ_pos _, ?_⟩, ?_⟩
            . intro l hl
              obtain ⟨i, _, rfl⟩ := List.mem_map.mp hl
              exact Bytes.slice_length ..
            . simp only [Textarea.nrLines, List.length_map, List.length_range] at hn ⊢
              exact toNat_tdiv_mul_le hn

theorem rowY_inside (hheight : ta.nrLines * ta.win.fontHeight ≤ ta.height) {j : Nat} (hj : j < ta.nrLines)
    : ta.y ≤ ta.rowY j ∧ ta.rowY j + ta.win.fontHeight ≤ ta.y + ta.height := by
  have hmul : ((j + 1 : Nat) : Int) * ta.win.fontHeight ≤ ta.nrLines * ta.win.fontHeight :=
    Int.mul_le_mul_of_nonneg_right (Int.ofNat_le.mpr hj) (Int.natCast_nonneg _)
  have hnonneg : 0 ≤ (j : Int) * ta.win.fontHeight := Int.mul_nonneg (Int.natCast_nonneg _) (Int.natCast_nonneg _)
  rw [Nat.cast_succ] at hmul
  unfold Textarea.rowY
  rw [Int.add_mul, Int.one_mul] at *
  split
  all_goals omega

theorem rowY_apart (ta : Textarea) {i j : Nat} (hij : i < j)
    : ta.rowY i + ta.win.fontHeight ≤ ta.rowY j ∨ ta.rowY j + ta.win.fontHeight ≤ ta.rowY i := by
  have hmul : ((i + 1 : Nat) : Int) * ta.win.fontHeight ≤ j * ta.win.fontHeight :=
    Int.mul_le_mul_of_nonneg_right (Int.ofNat_le.mpr hij) (Int.natCast_nonneg _)
  rw [Nat.cast_succ, Int.add_mul, Int.one_mul] at hmul
  unfold Textarea.rowY
  split
  . left
    omega
  . right
    simp only [Int.add_mul, Int.one_mul]
    omega

/--
After every message, the refresh draws exactly the latest segments, each in a row of its own inside the
area, and so do calls of `tboot_ui_textline` that come to these messages.
-/
structure ShowsLatest (font : Font) (ta : Textarea) (msgs : List (Bytes × UInt32)) : Prop where
  drawn : ∃ ta', putAll font ta msgs = .ok (ta', latestEach font ta [] msgs)
  called : ∀ calls, calls.filterMap TextlineCall.message = msgs
    → ∃ ta', textlines font ta calls = .ok (ta', (latestEach font ta [] msgs).flatten)
  inside : ∀ j, j < ta.nrLines → ta.y ≤ ta.rowY j ∧ ta.rowY j + ta.win.fontHeight ≤ ta.y + ta.height
  apart : ∀ i j, i < j → ta.rowY i + ta.win.fontHeight ≤ ta.rowY j ∨ ta.rowY j + ta.win.fontHeight ≤ ta.rowY i

theorem showsLatest_iff (hinit : textareaInit win x y width height flags textColor mem fresh = .ok (some ta))
    (hn : 0 < ta.nrLines) (font : Font) (msgs : List (Bytes × UInt32))
    : ShowsLatest font ta msgs ↔ CleanEach font ta ta.lineLen [] msgs := by
  obtain ⟨hfresh, hheight⟩ := fresh_textareaInit hinit hn
  rw [← hfresh.putAll_iff font [] msgs]
  constructor
  . intro h
    exact h.drawn
  . rintro ⟨ta', hput⟩
    refine ⟨⟨ta', hput⟩, ?_, ?_, ?_⟩
    . rintro calls rfl
      exact ⟨ta', textlines_of_putAll hput⟩
    . intro j hj
      exact rowY_inside hheight hj
    . intro i j hij
      exact rowY_apart ta hij

end Init

def unbroken : Font where
  stringBreak text := text.length
  stringBreak_pos _ h := List.length_pos_of_ne_nil h
  stringBreak_le _ _ := Nat.le_refl _

theorem logged_unbroken {text : Bytes} (h : text ≠ []) (color : UInt32)
    : logged unbroken text color = [⟨text, color⟩] := by
  have hall : text.drop (unbroken.stringBreak text) = [] := List.drop_length
  have hfirst : text.take (unbroken.stringBreak text) = text := List.take_length
  unfold logged
  rw [segments_of_ne_nil _ h, hall, segments_nil, hfirst]
  rfl

theorem history_unbroken {msgs : List (Bytes × UInt32)} (h : ∀ msg ∈ msgs, cstr msg.1 ≠ [])
    : history unbroken msgs = msgs.map fun msg => ⟨cstr msg.1, msg.2⟩ := by
  unfold history
  rw [← List.flatMap_singleton' (msgs.map _), List.flatMap_map]
  apply List.flatMap_congr
  intro msg hmsg
  exact logged_unbroken (h msg hmsg) msg.2

def twoLines : Textarea where
  win := ⟨0, 10, 10, by decide⟩
  textColor := 0
  lines := List.replicate 2 ⟨List.replicate 8 0, 0⟩
  curLine := -1
  x := 0
  y := 0
  width := 70
  height := 20
  flags := tafLifo

theorem twoLines_eq
    : textareaInit ⟨0, 10, 10, by decide⟩ 0 0 70 20 tafLifo 0 (true, true) (fun _ => (fun _ => 0, 0))
        = .ok (some twoLines) := by
  rfl

/-- The third message takes the line of the first one. -/
theorem showsLatest_twoLines : ShowsLatest unbroken twoLines [(str "one", 1), (str "two", 2), (str "three\n", 3)] := by
  have htexts : ∀ msg ∈ [(str "one", (1 : UInt32)), (str "two", 2), (str "three\n", 3)], cstr msg.1 ≠ [] := by
    decide
  refine (showsLatest_iff twoLines_eq (by decide) unbroken _).mpr ⟨?_, ?_⟩
  . rw [history_unbroken htexts]
    decide +kernel
  . intro k hk
    rw [List.nil_append, history_unbroken (fun msg hmsg => htexts msg (List.mem_of_mem_take hmsg))]
    have hk : k < 3 := hk
    interval_cases k
    all_goals
      constructor
      all_goals decide +kernel

def oneLine (flags : UInt32) (c : UInt8) : Textarea where
  win := ⟨0, 10, 10, by decide⟩
  textColor := 0
  lines := [⟨List.replicate 8 c, 0⟩]
  curLine := -1
  x := 0
  y := 0
  width := 70
  height := 10
  flags

theorem oneLine_eq (flags : UInt32) (c : UInt8)
    : textareaInit ⟨0, 10, 10, by decide⟩ 0 0 70 10 flags 0 (true, true) (fun _ => (fun _ => c, 0))
        = .ok (some (oneLine flags c)) := by
  rfl

theorem clean_of_showsLatest {flags : UInt32} {c : UInt8} {msgs : List (Bytes × UInt32)}
    (h : ShowsLatest unbroken (oneLine flags c) msgs) {ss : List Segment} (hss : history unbroken msgs = ss)
    (hmsgs : msgs ≠ []) : Clean (oneLine flags c) (oneLine flags c).lineLen ss := by
  have hfresh := (fresh_textareaInit (oneLine_eq flags c) (by simp [oneLine, Textarea.nrLines])).1
  have hpos := List.length_pos_of_ne_nil hmsgs
  have hlast := ((hfresh.putAll_iff unbroken [] msgs).mp h.drawn).2 (msgs.length - 1) (by omega)
  rw [Nat.sub_add_cancel hpos, List.take_length, List.nil_append, hss] at hlast
  exact hlast

/--
An empty message before any other with `TAF_LIFO`, a line that has not been written yet, a text as long as
the buffer, and a newline after a text
-/
theorem not_showsLatest
    : ¬ShowsLatest unbroken (oneLine tafLifo 0) [([], 1)]
      ∧ ¬ShowsLatest unbroken (oneLine tafToptodown 65) [([], 1)]
      ∧ ¬ShowsLatest unbroken (oneLine tafToptodown 0) [(str "too long", 1)]
      ∧ ¬ShowsLatest unbroken (oneLine tafToptodown 0) [(str "hello", 1), ([10], 1)] := by
  have hnone : history unbroken [([], 1)] = [] := by
    unfold history logged
    rw [List.flatMap_singleton]
    exact congrArg _ (segments_nil unbroken)
  have hlong : history unbroken [(str "too long", 1)] = [⟨str "too long", 1⟩] := history_unbroken (by decide)
  have hblank : history unbroken [(str "hello", 1), ([10], 1)] = [⟨str "hello", 1⟩, ⟨[10], 1⟩] :=
    history_unbroken (by decide)
  refine ⟨?_, ?_, ?_, ?_⟩
  . intro h
    exact (clean_of_showsLatest h hnone (List.cons_ne_nil _ _)).started (by decide) rfl
  . intro h
    exact absurd (clean_of_showsLatest h hnone (List.cons_ne_nil _ _)).fresh (by decide +kernel)
  . intro h
    exact absurd (clean_of_showsLatest h hlong (List.cons_ne_nil _ _)).fits (by decide +kernel)
  . intro h
    exact absurd (clean_of_showsLatest h hblank (List.cons_ne_nil _ _)).blanks (by decide +kernel)

end Ui
