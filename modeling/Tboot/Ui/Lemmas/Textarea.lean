import Tboot.Ui.Impl.Textarea
import Tboot.Util.RingBuffer
import Mathlib.Tactic.Ring

/-!
This module contains what the log area shows: the segments of the messages that are in its ring, and when
these are the latest ones.
-/

namespace Ui

open textareaPutline textareaRefresh

/-! ### Segments -/

def segments (font : Font) (text : Bytes) : List Bytes :=
  if h : text = [] then
    []
  else
    have := drop_lt font h
    text.take (font.stringBreak text) :: segments font (text.drop (font.stringBreak text))
termination_by text.length
decreasing_by exact this

structure Segment where
  text : Bytes
  color : UInt32
  deriving DecidableEq, Repr

namespace Segment

variable (s : Segment)

def shown : Bytes :=
  if s.text.getLast? = some 10 then s.text.dropLast else s.text

/-- The newline at its end is not in a buffer of `len` bytes. -/
def Overflows (len : Nat) : Prop :=
  s.text.getLast? = some 10 ∧ len < s.text.length

instance (len : Nat) : Decidable (s.Overflows len) :=
  inferInstanceAs (Decidable (_ ∧ _))

def line (len : Nat) : Line where
  text := s.shown.take len ++ List.replicate (len - s.shown.length) 0
  color := s.color

end Segment

theorem fill_eq_ok {len : Nat} {s : Segment} (h : ¬s.Overflows len) : fill len s.text s.color = .ok (s.line len) := by
  unfold fill Segment.line Segment.shown
  unfold Segment.Overflows at h
  by_cases hnewline : s.text.getLast? = some 10
  . have hlen : s.text.length ≤ len := by
      by_contra hlt
      exact h ⟨hnewline, by omega⟩
    obtain ⟨t, ht⟩ : ∃ t, s.text = t ++ [10] := List.getLast?_eq_some_iff.mp hnewline
    have htext : (t ++ [10]).take len ++ List.replicate (len - (t ++ [10]).length) 0
        = t ++ 10 :: List.replicate (len - (t.length + 1)) 0 := by
      rw [ht] at hlen
      rw [List.take_of_length_le hlen]
      simp
    have hzeros : t.take len ++ List.replicate (len - t.length) 0
        = t ++ 0 :: List.replicate (len - (t.length + 1)) 0 := by
      rw [ht, List.length_append, List.length_singleton] at hlen
      have hsucc : len - t.length = len - (t.length + 1) + 1 := by omega
      rw [List.take_of_length_le (by omega), hsucc, List.replicate_succ]
    rw [if_pos hnewline, if_pos hnewline, if_neg (by omega), ht, htext, List.dropLast_concat, hzeros]
    simp [pure, Except.pure]
  . simp only [hnewline, if_false]
    rfl

theorem fill_eq_error {len : Nat} {s : Segment} (h : s.Overflows len) : fill len s.text s.color = .error .index := by
  unfold fill
  rw [if_pos h.1, if_pos h.2]
  rfl

theorem segments_nil (font : Font) : segments font [] = [] := by
  rw [segments]
  rfl

theorem segments_of_ne_nil (font : Font) {text : Bytes} (h : text ≠ [])
    : segments font text = text.take (font.stringBreak text) :: segments font (text.drop (font.stringBreak text)) := by
  rw [segments, dif_neg h]

/-! ### The ring -/

structure Holds (ta : Textarea) (len : Nat) (r : RingBuffer Line) : Prop where
  lines : ta.lines = r.slots
  curLine : -1 ≤ ta.curLine ∧ ta.curLine < ta.nrLines
  next : (ta.curLine + 1) % ta.nrLines = r.next.val
  length : ∀ l ∈ r.slots, l.text.length = len

def Textarea.put (ta : Textarea) (l : Line) : Textarea :=
  let curLine := (ta.curLine + 1) % ta.nrLines
  { ta with curLine, lines := ta.lines.set curLine.toNat l }

def Textarea.putSegments (ta : Textarea) (len : Nat) (ss : List Segment) : Textarea :=
  ss.foldl (fun ta s => ta.put (s.line len)) ta

theorem Segment.line_length (s : Segment) (len : Nat) : (s.line len).text.length = len := by
  unfold line
  simp
  omega

section Holds

variable {ta : Textarea} {len : Nat} {r : RingBuffer Line}

theorem Holds.nrLines (h : Holds ta len r) : ta.nrLines = r.slots.length :=
  congrArg List.length h.lines

theorem Holds.rem_eq (h : Holds ta len r) : rem (ta.curLine + 1) ta.nrLines = .ok r.next.val := by
  have hcur := h.curLine
  have hpos := r.length_pos
  rw [rem_ok (by rw [h.nrLines]; omega), Int.tmod_eq_emod_of_nonneg (by omega), h.next]

theorem Holds.line_eq (h : Holds ta len r) {i : Nat} {l : Line} (hl : r.slots[i]? = some l) : ta.line i = .ok l := by
  unfold Textarea.line
  rw [if_neg (by omega), Int.toNat_natCast, h.lines, hl]
  rfl

theorem Holds.put (h : Holds ta len r) {l : Line} (hl : l.text.length = len) : Holds (ta.put l) len (r.push l) := by
  have hput : ta.put l = { ta with curLine := r.next.val, lines := ta.lines.set r.next.val l } := by
    unfold Textarea.put
    rw [h.next]
    rfl
  have hslots : ta.lines.set r.next.val l = (r.push l).slots := by rw [h.lines]; rfl
  rw [hput]
  have hlen : (ta.lines.set r.next.val l).length = r.slots.length := by rw [List.length_set, h.lines]
  refine ⟨hslots, ?_, ?_, ?_⟩
  . have hlt := r.next.isLt
    unfold Textarea.nrLines
    dsimp only
    omega
  . change ((r.next.val : Int) + 1) % (ta.lines.set r.next.val l).length = ((r.next.val + 1) % r.slots.length : Nat)
    rw [hlen, Int.natCast_mod]
    rfl
  . intro l' hl'
    cases List.mem_or_eq_of_mem_set hl' with
    | inl hold => exact h.length l' hold
    | inr hnew => rw [hnew, hl]

theorem Holds.putSegments (h : Holds ta len r) (ss : List Segment)
    : Holds (ta.putSegments len ss) len ((ss.map fun s => s.line len).foldl RingBuffer.push r) := by
  induction ss generalizing ta r with
  | nil => exact h
  | cons s ss ih => exact ih (h.put (s.line_length len))

theorem putSegments_append (ta : Textarea) (len : Nat) (ss ss' : List Segment)
    : ta.putSegments len (ss ++ ss') = (ta.putSegments len ss).putSegments len ss' :=
  List.foldl_append

end Holds

def logged (font : Font) (text : Bytes) (color : UInt32) : List Segment :=
  (segments font text).map fun t => ⟨t, color⟩

section Putline

variable {ta : Textarea} {len : Nat} {r : RingBuffer Line}

theorem go_of_ne_nil (h : Holds ta len r) (font : Font) {text : Bytes} (htext : text ≠ []) (color : UInt32)
    : textareaPutline.go font ta text color
        = (fill len (text.take (font.stringBreak text)) color).bind fun l =>
            textareaPutline.go font (ta.put l) (text.drop (font.stringBreak text)) color := by
  have hslot : r.slots[r.next.val]? = some (r.slots.get r.next) := List.getElem?_eq_getElem r.next.isLt
  have hlen := h.length _ (List.get_mem r.slots r.next)
  rw [textareaPutline.go, dif_neg htext, h.rem_eq]
  simp only [bind, Except.bind]
  rw [h.line_eq hslot]
  dsimp only
  rw [hlen]
  unfold Textarea.put
  rw [h.next]

theorem putline_go_ok (h : Holds ta len r) (font : Font) (text : Bytes) (color : UInt32)
    (hfits : ∀ s ∈ logged font text color, ¬s.Overflows len)
    : textareaPutline.go font ta text color = .ok (ta.putSegments len (logged font text color)) := by
  unfold logged at hfits ⊢
  fun_induction segments font text generalizing ta r with
  | case1 => exact textareaPutline.go.eq_def ..
  | case2 text htext _ ih =>
    rw [List.map_cons, List.forall_mem_cons] at hfits
    rw [go_of_ne_nil h font htext, fill_eq_ok hfits.1]
    exact ih (h.put (Segment.line_length _ _)) hfits.2

theorem putline_go_error (h : Holds ta len r) (font : Font) (text : Bytes) (color : UInt32)
    (hoverflows : ∃ s ∈ logged font text color, s.Overflows len)
    : textareaPutline.go font ta text color = .error .index := by
  unfold logged at hoverflows
  fun_induction segments font text generalizing ta r with
  | case1 => simp at hoverflows
  | case2 text htext _ ih =>
    rw [go_of_ne_nil h font htext]
    by_cases hfirst : Segment.Overflows ⟨text.take (font.stringBreak text), color⟩ len
    . rw [fill_eq_error hfirst]
      rfl
    . rw [List.map_cons, List.exists_mem_cons_iff, or_iff_right hfirst] at hoverflows
      rw [fill_eq_ok hfirst]
      exact ih (h.put (Segment.line_length _ _)) hoverflows

end Putline

/-! ### Around the ring -/

theorem walk_eq_first_iff {n k : Nat} {step : Int} (hstep : step = 1 ∨ step = -1) (base : Int) (hpos : 0 < k)
    (hk : k ≤ n)
    : (base + step * k) % n = base % n ↔ k = n := by
  have hdvd : (base + step * k) % n = base % n ↔ n ∣ k := by
    rw [Int.emod_eq_emod_iff_emod_sub_eq_zero, add_sub_cancel_left, ← Int.dvd_iff_emod_eq_zero,
      ← Int.natCast_dvd_natCast]
    cases hstep with
    | inl hone => rw [hone, Int.one_mul]
    | inr hneg => rw [hneg, Int.neg_one_mul, Int.dvd_neg]
  rw [hdvd]
  constructor
  . intro h
    exact Nat.le_antisymm hk (Nat.le_of_dvd hpos h)
  . rintro rfl
    exact Nat.dvd_refl k

def drawLines (x stepY : Int) : (y : Int) → List Line → Except Fault (List Draw)
  | _, [] => .ok []
  | y, l :: ls => (strlen l).bind fun len =>
    let drawn := if len = 0 then [] else [.setColor l.color, .drawString (cstr l.text) x y]
    (drawLines x stepY (if len = 0 then y else y + stepY) ls).map (drawn ++ ·)

structure Walk (ta : Textarea) (base step : Int) (ls : List Line) : Prop where
  length : ls.length = ta.nrLines
  unit : step = 1 ∨ step = -1
  line : ∀ (k : Nat) (hk : k < ls.length), ta.line ((base + step * k) % ta.nrLines) = .ok ls[k]

theorem Walk.rem_eq {ta : Textarea} {base step : Int} {ls : List Line} (h : Walk ta base step ls) {k : Nat}
    (hk : k < ls.length)
    : rem ((base + step * k) % ta.nrLines + step + ta.nrLines) ta.nrLines
        = .ok ((base + step * (k + 1 : Nat)) % ta.nrLines) := by
  have hlen := h.length
  have hunit := h.unit
  have hnonneg := Int.emod_nonneg (base + step * k) (b := ta.nrLines) (by omega)
  rw [rem_ok (by omega), Int.tmod_eq_emod_of_nonneg (by omega), Int.add_emod_right, Int.emod_add_emod]
  congr 2
  push_cast
  ring

theorem Walk.turn {ta : Textarea} {base step : Int} {ls : List Line} (h : Walk ta base step ls) (stepY y : Int)
    {k : Nat} (hk : k < ls.length) {next : Line}
    (hnext : ta.line ((base + step * (k + 1 : Nat)) % ta.nrLines) = .ok next) (fuel : Nat)
    : textareaRefresh.go ta step stepY (base % ta.nrLines) (fuel + 1) ((base + step * k) % ta.nrLines) ls[k] y
        = (strlen ls[k]).bind fun len =>
            let drawn := if len = 0 then [] else [.setColor ls[k].color, .drawString (cstr ls[k].text) ta.x y]
            if k + 1 = ta.nrLines then
              .ok drawn
            else
              (textareaRefresh.go ta step stepY (base % ta.nrLines) fuel
                ((base + step * (k + 1 : Nat)) % ta.nrLines) next
                (if len = 0 then y else y + stepY)).map (drawn ++ ·) := by
  have hlen := h.length
  have hfirst := walk_eq_first_iff h.unit base (Nat.succ_pos k) (show k + 1 ≤ ta.nrLines by omega)
  rw [textareaRefresh.go]
  simp only [bind, Except.bind]
  cases strlen ls[k] with
  | error fault => rfl
  | ok len =>
    dsimp only
    rw [h.rem_eq hk]
    dsimp only
    rw [hnext]
    dsimp only
    simp only [hfirst]
    split
    . rfl
    . split
      . next hgo => rw [hgo]; rfl
      . next hgo => rw [hgo]; rfl

theorem Walk.go_eq {ta : Textarea} {base step : Int} {ls : List Line} (h : Walk ta base step ls) (stepY y : Int)
    {k n : Nat} (hk : k < ls.length) (hn : ls.length = k + (n + 1))
    : textareaRefresh.go ta step stepY (base % ta.nrLines) (n + 1) ((base + step * k) % ta.nrLines) ls[k] y
        = drawLines ta.x stepY y (ls.drop k) := by
  have hlen := h.length
  induction n generalizing k y with
  | zero =>
    have hlast : (base + step * (k + 1 : Nat)) % ta.nrLines = base % ta.nrLines :=
      (walk_eq_first_iff h.unit base (Nat.succ_pos k) (by omega)).mpr (by omega)
    have hnext := h.line 0 (by omega)
    rw [Nat.cast_zero, Int.mul_zero, Int.add_zero, ← hlast] at hnext
    rw [h.turn stepY y hk hnext, List.drop_eq_getElem_cons hk, List.drop_eq_nil_of_le (by omega)]
    have hend : k + 1 = ta.nrLines := by omega
    simp only [drawLines, if_pos hend, Except.map, List.append_nil]
  | succ n ih =>
    have hk' : k + 1 < ls.length := by omega
    rw [h.turn stepY y hk (h.line (k + 1) hk'), List.drop_eq_getElem_cons hk]
    have hmore : ¬ k + 1 = ta.nrLines := by omega
    simp only [drawLines, if_neg hmore, ih _ hk' (by omega)]

section Walk

variable {ta : Textarea} {len : Nat} {r : RingBuffer Line}

theorem Holds.walk_fifo (h : Holds ta len r) : Walk ta r.next.val 1 r.view := by
  have hn := h.nrLines
  refine ⟨by rw [r.view_length, hn], Or.inl rfl, ?_⟩
  intro k hk
  have hslot : r.slots[(r.next + k) % r.slots.length]? = some r.view[k] := by
    rw [r.getElem?_slots (by rwa [r.view_length] at hk), List.getElem?_eq_getElem hk]
  have hindex : ((r.next.val : Int) + 1 * k) % ta.nrLines = ((r.next + k) % r.slots.length : Nat) := by
    rw [hn, Int.one_mul]
    push_cast
    rfl
  rw [hindex]
  exact h.line_eq hslot

theorem Holds.walk_lifo (h : Holds ta len r) : Walk ta (r.next.val - 1) (-1) r.view.reverse := by
  have hn := h.nrLines
  have hview := r.view_length
  refine ⟨by rw [List.length_reverse, hview, hn], Or.inr rfl, ?_⟩
  intro k hk
  rw [List.length_reverse, hview] at hk
  have hslot : r.slots[(r.next + (r.slots.length - 1 - k)) % r.slots.length]? = some r.view.reverse[k] := by
    rw [r.getElem?_slots (by omega), List.getElem_reverse, List.getElem?_eq_getElem (by omega)]
    congr 2
    omega
  have hindex : ((r.next.val : Int) - 1 + -1 * k) % ta.nrLines
      = ((r.next + (r.slots.length - 1 - k)) % r.slots.length : Nat) := by
    have hsum : ((r.next + (r.slots.length - 1 - k) : Nat) : Int) = r.next.val - 1 + -1 * k + r.slots.length := by
      omega
    rw [hn, Int.natCast_mod, hsum, Int.add_emod_right]
  rw [hindex]
  exact h.line_eq hslot

theorem Walk.start {base step : Int} {ls : List Line} (h : Walk ta base step ls) (hpos : 0 < ta.nrLines) (stepY y : Int)
    : (ta.line (base % ta.nrLines)).bind (fun line =>
          textareaRefresh.go ta step stepY (base % ta.nrLines) ta.nrLines (base % ta.nrLines) line y)
        = drawLines ta.x stepY y ls := by
  have hlen := h.length
  have hline := h.line 0 (by omega)
  have hgo := @Walk.go_eq ta base step ls h stepY y 0 (ta.nrLines - 1) (by omega) (by omega)
  rw [Nat.sub_add_cancel hpos] at hgo
  rw [Nat.cast_zero, Int.mul_zero, Int.add_zero] at hline hgo
  rw [hline]
  exact hgo

def Textarea.rowY (ta : Textarea) (j : Nat) : Int :=
  if ta.toptodown then ta.y + j * ta.win.fontHeight else ta.y + ta.height - (j + 1) * ta.win.fontHeight

def Textarea.stepY (ta : Textarea) : Int :=
  if ta.toptodown then ta.win.fontHeight else -ta.win.fontHeight

def Textarea.frame (ta : Textarea) (drawn : List Draw) : List Draw :=
  [.setColor ta.win.color, .fillRectangle ta.x ta.y ta.width ta.height] ++ drawn ++ [.flip]

def Textarea.order {α : Type} (ta : Textarea) (ls : List α) : List α :=
  if ta.lifo then ls.reverse else ls

theorem refresh_of_first {i step : Int} (hi : first ta = .ok i)
    (hstep : (if ta.lifo then -1 else 1) = step)
    : textareaRefresh ta
        = ((ta.line i).bind fun line =>
            textareaRefresh.go ta step ta.stepY i ta.nrLines i line (ta.rowY 0)).map ta.frame := by
  have hy : (if ta.toptodown then ta.y else ta.y + ta.height - ta.win.fontHeight) = ta.rowY 0 := by
    simp [Textarea.rowY]
  have hstepY : (if ta.toptodown then (ta.win.fontHeight : Int) else -ta.win.fontHeight) = ta.stepY := rfl
  unfold textareaRefresh
  dsimp only
  rw [hy, hi, hstep]
  simp only [bind, Except.bind]
  cases ta.line i with
  | error fault => rfl
  | ok line =>
    dsimp only
    rw [hstepY]
    cases textareaRefresh.go ta step ta.stepY i ta.nrLines i line (ta.rowY 0) with
    | error fault => rfl
    | ok drawn => rfl

theorem Holds.refresh_eq (h : Holds ta len r) (hcur : ta.lifo = true → 0 ≤ ta.curLine)
    : textareaRefresh ta = (drawLines ta.x ta.stepY (ta.rowY 0) (ta.order r.view)).map ta.frame := by
  have hn := h.nrLines
  have hlt := r.next.isLt
  have hpos : 0 < ta.nrLines := by omega
  unfold Textarea.order
  cases hlifo : ta.lifo with
  | true =>
    have hbase : (r.next.val - 1 : Int) % ta.nrLines = ta.curLine := by
      rw [← h.next, Int.emod_sub_emod, Int.add_sub_cancel]
      exact Int.emod_eq_of_lt (hcur hlifo) h.curLine.2
    have hstart := h.walk_lifo.start hpos ta.stepY (ta.rowY 0)
    rw [hbase] at hstart
    rw [@refresh_of_first ta ta.curLine (-1) (if_pos hlifo) (if_pos hlifo), hstart, if_pos rfl]
  | false =>
    have hbase : (r.next.val : Int) % ta.nrLines = r.next.val := by
      apply Int.emod_eq_of_lt
      all_goals omega
    have hstart := h.walk_fifo.start hpos ta.stepY (ta.rowY 0)
    have hfifo : ¬ ta.lifo = true := by simp [hlifo]
    rw [hbase] at hstart
    rw [@refresh_of_first ta r.next.val 1 ((if_neg hfifo).trans h.rem_eq) (if_neg hfifo), hstart]
    rfl

theorem Holds.refresh_error (hlifo : ta.lifo = true) (hcur : ta.curLine < 0) : textareaRefresh ta = .error .index := by
  have hline : ta.line ta.curLine = .error .index := if_pos hcur
  rw [@refresh_of_first ta ta.curLine _ (if_pos hlifo) rfl, hline]
  rfl

end Walk

end Ui
