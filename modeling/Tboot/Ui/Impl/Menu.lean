import Tboot.Ui.Impl.Basic

/-!
This module contains the menu of `libminui`.
-/

namespace Ui

structure Textline where
  text : Option Bytes
  color : UInt32
  deriving DecidableEq, Repr

variable {η : Type}

structure MenuItem (η : Type) where
  line : Textline
  handler : Option η
  deriving DecidableEq, Repr

/-- `items` are all pointers of the array, `max_items` many. -/
structure Menu (η : Type) where
  win : Window
  items : List (Option (MenuItem η))
  nrItems : Nat
  color : UInt32
  hlFgColor : UInt32
  hlBgColor : UInt32
  selected : Int
  x : Int
  y : Int
  width : Int
  height : Int

def Menu.maxItems (menu : Menu η) : Nat :=
  menu.items.length

/-- `mem` tells for each of the two blocks if there is memory for it. -/
def menuInit (win : Window) (x y width height : Int) (color hlBgColor hlFgColor : UInt32) (mem : Bool × Bool)
    : Except Fault (Option (Menu η)) := do
  if width ≤ 0 || height ≤ 0 then
    return none
  if !mem.1 then
    return none
  let maxItems := (height.tdiv win.fontHeight).toNat
  let size := u32 (4 * maxItems)
  if !mem.2 then
    return none
  -- The loop that clears the pointers goes up to `max_items`.
  if 4 * maxItems > size then
    throw .index
  return some {
    win
    items := List.replicate maxItems none
    nrItems := 0
    color
    hlFgColor
    hlBgColor
    selected := 0
    x := if x > 0 then x else 0
    y := if y > 0 then y else 0
    width
    height
  }

def menuNewitem (menu : Menu η) (line : Option Textline) (handler : Option η) (mem : Bool)
    : Except Fault (Menu η × Int) := do
  let some line := line | return (menu, -1)
  let some text := line.text | return (menu, -1)
  if (cstr text).length = 0 then
    return (menu, -1)
  if menu.nrItems = menu.maxItems then
    return (menu, -1)
  if !mem then
    return (menu, -1)
  if menu.nrItems ≥ menu.items.length then
    throw .index
  let items := menu.items.set menu.nrItems (some ⟨line, handler⟩)
  return ({ menu with items, nrItems := menu.nrItems + 1 }, 0)

namespace menuRefresh

def clear (menu : Menu η) : List Draw :=
  [.setColor menu.win.color, .fillRectangle menu.x menu.y menu.width (menu.height - menu.win.fontHeight)]

def highlighted (menu : Menu η) (item : MenuItem η) (y : Int) : List Draw :=
  [.setColor menu.hlBgColor, .fillRectangle menu.x y menu.width menu.win.fontHeight, .setColor menu.hlFgColor,
    .drawString (cstr (item.line.text.getD [])) 0 y]

def plain (item : MenuItem η) (y : Int) : List Draw :=
  [.setColor item.line.color, .drawString (cstr (item.line.text.getD [])) 0 y]

def go (menu : Menu η) (i : Nat) (y : Int) : List (Option (MenuItem η)) → List Draw
  | some item :: items =>
    (if i = menu.selected then highlighted menu item y else plain item y)
      ++ go menu (i + 1) (y + menu.win.fontHeight) items
  | _ => []

end menuRefresh

open menuRefresh in
def menuRefresh (menu : Menu η) : List Draw :=
  clear menu ++ go menu 0 menu.y (menu.items.take menu.nrItems) ++ [.flip]

def menuSelected (menu : Menu η) (selected : Int) : Except Fault (Menu η × Int × List Draw) := do
  let sum ← int (selected + menu.nrItems)
  if sum < 0 then
    return (menu, -1, [])
  let selected ← rem sum menu.nrItems
  let menu := { menu with selected }
  return (menu, 0, menuRefresh menu)

def menuUpdate (menu : Menu η) (next : Int) : Except Fault (Menu η × Int × List Draw) := do
  let selected ← int (menu.selected + next)
  menuSelected menu selected

/-- The handler that is called; -1 is returned otherwise. -/
def menuAction (menu : Menu η) : Except Fault (Option η) := do
  if menu.selected < 0 ∨ menu.selected ≥ menu.maxItems then
    return none
  match menu.items[menu.selected.toNat]? with
  | none => throw .index
  | some none => throw .null
  | some (some item) => return item.handler

inductive MenuCall (η : Type) where
  | newitem (line : Option Textline) (handler : Option η) (mem : Bool)
  | down
  | up
  | selected (k : Int)

def MenuCall.run (menu : Menu η) : MenuCall η → Except Fault (Menu η)
  | newitem line handler mem => return (← menuNewitem menu line handler mem).1
  | down => return (← menuUpdate menu 1).1
  | up => return (← menuUpdate menu (-1)).1
  | selected k => return (← menuSelected menu k).1

end Ui
