import Tboot.Util.CString
import Tboot.Util.Word

/-!
This module contains what the components of `libminui` share: the window that they are drawn in, the calls
that draw, and what goes wrong in C.
-/

namespace Ui

inductive Fault where
  | overflow
  | divide
  | index
  | null
  | hang
  deriving DecidableEq, Repr

/-- The result of an addition of two `int`s -/
def int (n : Int) : Except Fault Int :=
  if -2 ^ 31 ≤ n ∧ n < 2 ^ 31 then return n else throw .overflow

def rem (a b : Int) : Except Fault Int :=
  if b = 0 then throw .divide else return a.tmod b

theorem int_ok {n : Int} (hlow : -2 ^ 31 ≤ n) (hhigh : n < 2 ^ 31) : int n = .ok n :=
  if_pos ⟨hlow, hhigh⟩

theorem rem_ok {a b : Int} (hb : b ≠ 0) : rem a b = .ok (a.tmod b) :=
  if_neg hb

/-- `window_init` sees to it that there is a font height. -/
structure Window where
  color : UInt32
  fontHeight : Nat
  fontWidth : Nat
  fontHeight_pos : 0 < fontHeight

inductive Draw where
  | setColor (color : UInt32)
  | fillRectangle (x y width height : Int)
  | drawString (text : Bytes) (x y : Int)
  | flip
  deriving DecidableEq, Repr

end Ui
