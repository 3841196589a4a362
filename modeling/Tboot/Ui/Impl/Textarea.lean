import Tboot.Ui.Impl.Basic

/-!
This module contains the text area of `libminui`, a ring of lines, and `tboot_ui_textline`, which logs to
it.
-/

namespace Ui

/-- `GetStringBreak` for the width of the area; the next line begins just after the segment. -/
structure Font where
  stringBreak : Bytes → Nat
  stringBreak_pos : ∀ text, text ≠ [] → 0 < stringBreak text
  stringBreak_le : ∀ text, text ≠ [] → stringBreak text ≤ text.length

/-- A line of the area; `text` are all bytes of its buffer. -/
structure Line where
  text : Bytes
  color : UInt32
  deriving DecidableEq, Repr

structure Textarea where
  win : Window
  textColor : UInt32
  lines : List Line
  curLine : Int
  x : Int
  y : Int
  width : Int
  height : Int
  flags : UInt32

def tafToptodown : UInt32 := 0x1

def tafLifo : UInt32 := 0x2

namespace Textarea

def nrLines (ta : Textarea) : Nat :=
  ta.lines.length

def toptodown (ta : Textarea) : Bool :=
  ta.flags &&& tafToptodown ≠ 0

def lifo (ta : Textarea) : Bool :=
  ta.flags &&& tafLifo ≠ 0

def line (ta : Textarea) (i : Int) : Except Fault Line :=
  if i < 0 then
    throw .index
  else
    match ta.lines[i.toNat]? with
    | some line => return line
    | none => throw .index

end Textarea

/--
`mem` tells if there is memory for the area and for the array of its lines; each line gets its own, and `fresh`
is what its bytes and its color are there.
-/
def textareaInit (win : Window) (x y width height : Int) (flags textColor : UInt32) (mem : Bool × Bool)
    (fresh : Nat → (Nat → UInt8) × UInt32) : Except Fault (Option Textarea) := do
  if width ≤ 0 || width < win.fontHeight then
    return none
  if !mem.1 then
    return none
  let nrLines := (height.tdiv win.fontHeight).toNat
  if !mem.2 then
    return none
  if 4 * nrLines > u32 (4 * nrLines) then
    throw .index
  if nrLines > 0 ∧ win.fontWidth = 0 then
    throw .divide
  let len := (width.tdiv win.fontWidth).toNat + 1
  return some {
    win
    textColor
    lines := (List.range nrLines).map fun i => ⟨Bytes.slice (fresh i).1 0 len, (fresh i).2⟩
    curLine := -1
    x
    y
    width
    height
    flags
  }

namespace textareaPutline

def fill (len : Nat) (segment : Bytes) (color : UInt32) : Except Fault Line := do
  let text := segment.take len ++ List.replicate (len - segment.length) 0
  if segment.getLast? = some 10 then
    if segment.length > len then
      throw .index
    return ⟨text.set (segment.length - 1) 0, color⟩
  else
    return ⟨text, color⟩

theorem drop_lt (font : Font) {text : Bytes} (h : text ≠ [])
    : (text.drop (font.stringBreak text)).length < text.length := by
  have hpos := font.stringBreak_pos text h
  have hle := font.stringBreak_le text h
  rw [List.length_drop]
  omega

def go (font : Font) (ta : Textarea) (text : Bytes) (color : UInt32) : Except Fault Textarea :=
  if h : text = [] then
    return ta
  else do
    let curLine ← rem (ta.curLine + 1) ta.nrLines
    let l ← ta.line curLine
    let n := font.stringBreak text
    let l ← fill l.text.length (text.take n) color
    go font { ta with curLine, lines := ta.lines.set curLine.toNat l } (text.drop n) color
termination_by text.length
decreasing_by exact drop_lt font h

end textareaPutline

def textareaPutline (font : Font) (ta : Textarea) (text : Bytes) (color : UInt32) : Except Fault Textarea :=
  if (cstr text).length = 0 then
    return ta
  else
    textareaPutline.go font ta (cstr text) color

namespace textareaRefresh

/-- `strlen`, which goes on behind a buffer without a zero -/
def strlen (line : Line) : Except Fault Nat :=
  if 0 ∈ line.text then return (cstr line.text).length else throw .index

def first (ta : Textarea) : Except Fault Int :=
  if ta.lifo then return ta.curLine else rem (ta.curLine + 1) ta.nrLines

/-- The loop comes back to `first` within `fuel` turns, or never. -/
def go (ta : Textarea) (stepI stepY first : Int) : (fuel : Nat) → (i : Int) → (line : Line) → (y : Int)
    → Except Fault (List Draw)
  | 0, _, _, _ => throw .hang
  | fuel + 1, i, line, y => do
    let len ← strlen line
    let i ← rem (i + stepI + ta.nrLines) ta.nrLines
    let next ← ta.line i
    let drawn := if len = 0 then [] else [.setColor line.color, .drawString (cstr line.text) ta.x y]
    if i = first then
      return drawn
    else
      return drawn ++ (← go ta stepI stepY first fuel i next (if len = 0 then y else y + stepY))

end textareaRefresh

def textareaRefresh (ta : Textarea) : Except Fault (List Draw) := do
  let y := if ta.toptodown then ta.y else ta.y + ta.height - ta.win.fontHeight
  let stepY : Int := if ta.toptodown then ta.win.fontHeight else -ta.win.fontHeight
  let stepI : Int := if ta.lifo then -1 else 1
  let i ← textareaRefresh.first ta
  let line ← ta.line i
  let drawn ← textareaRefresh.go ta stepI stepY i ta.nrLines i line y
  return [.setColor ta.win.color, .fillRectangle ta.x ta.y ta.width ta.height] ++ drawn ++ [.flip]

def putAndRefresh (font : Font) (ta : Textarea) (text : Bytes) (color : UInt32)
    : Except Fault (Textarea × List Draw) := do
  let ta ← textareaPutline font ta text color
  return (ta, ← textareaRefresh ta)

def lineLenInchar : Nat := 256

/-- `msg` is what `vsnprintf` makes of the arguments, if it does not fail. -/
def tbootUiTextline (font : Font) (ta : Textarea) (color : UInt32) (mem : Bool) (msg : Option Bytes)
    : Except Fault (Textarea × List Draw) :=
  match mem, msg with
  | true, some msg => putAndRefresh font ta (msg.take (lineLenInchar - 1)) color
  | _, _ => return (ta, [])

def putAll (font : Font) : Textarea → List (Bytes × UInt32) → Except Fault (Textarea × List (List Draw))
  | ta, [] => return (ta, [])
  | ta, msg :: msgs => do
    let (ta, drawn) ← putAndRefresh font ta msg.1 msg.2
    let (ta, rest) ← putAll font ta msgs
    return (ta, drawn :: rest)

structure TextlineCall where
  color : UInt32
  mem : Bool
  msg : Option Bytes

def textlines (font : Font) : Textarea → List TextlineCall → Except Fault (Textarea × List Draw)
  | ta, [] => return (ta, [])
  | ta, call :: calls => do
    let (ta, drawn) ← tbootUiTextline font ta call.color call.mem call.msg
    let (ta, rest) ← textlines font ta calls
    return (ta, drawn ++ rest)

end Ui
