import Tboot.Ui.Impl.Menu
import Tboot.Util.Cursor
import Mathlib.Tactic.Ring

/-!
This module contains the menu as a list of items with a cursor: every call to it does what the cursor does,
and the highlighted item is the one under the cursor.
-/

namespace Ui

variable {η : Type}

structure Filled (menu : Menu η) (items : List (MenuItem η)) : Prop where
  pointers : menu.items.take menu.nrItems = items.map some
  nrItems : menu.nrItems = items.length
  maxItems : menu.maxItems < 2 ^ 30

structure Shows (menu : Menu η) (c : Cursor (MenuItem η)) : Prop extends Filled menu c.items where
  selected : menu.selected = c.selected.val

section Filled

variable {menu : Menu η} {items : List (MenuItem η)}

theorem Filled.nrItems_le (h : Filled menu items) : menu.nrItems ≤ menu.maxItems := by
  have hlen := congrArg List.length h.pointers
  rw [List.length_take, List.length_map, ← h.nrItems] at hlen
  unfold Menu.maxItems
  omega

theorem Filled.get (h : Filled menu items) {i : Nat} (hi : i < items.length)
    : menu.items[i]? = some (some items[i]) := by
  have hget := congrArg (fun l => l[i]?) h.pointers
  have hlt : i < menu.nrItems := by
    rw [h.nrItems]
    exact hi
  simpa [List.getElem?_take, hlt, hi] using hget

/-! ### New items -/

def Menu.add (menu : Menu η) (item : MenuItem η) : Menu η :=
  { menu with items := menu.items.set menu.nrItems (some item), nrItems := menu.nrItems + 1 }

theorem menuNewitem_cases (hle : menu.nrItems ≤ menu.maxItems) (line : Option Textline) (handler : Option η)
    (mem : Bool)
    : menuNewitem menu line handler mem = .ok (menu, -1)
      ∨ ∃ line', menu.nrItems < menu.maxItems
          ∧ menuNewitem menu line handler mem = .ok (menu.add ⟨line', handler⟩, 0) := by
  unfold menuNewitem
  split
  . split
    . split
      . exact Or.inl rfl
      . split
        . exact Or.inl rfl
        . next hfull =>
          split
          . exact Or.inl rfl
          . split
            . next hindex =>
              unfold Menu.maxItems at hle hfull
              omega
            . exact Or.inr ⟨_, by omega, rfl⟩
    . exact Or.inl rfl
  . exact Or.inl rfl

theorem Filled.add (h : Filled menu items) (hroom : menu.nrItems < menu.maxItems) (item : MenuItem η)
    : Filled (menu.add item) (items ++ [item]) := by
  unfold Menu.maxItems at hroom
  refine ⟨?_, ?_, ?_⟩
  . unfold Menu.add
    dsimp only
    rw [List.map_append, ← h.pointers, List.take_add_one, List.take_set_of_le (Nat.le_refl _)]
    simp [hroom]
  . simp [Menu.add, h.nrItems]
  . simpa [Menu.add, Menu.maxItems] using h.maxItems

end Filled

theorem filled_menuInit {win : Window} {x y width height : Int} {color hlBgColor hlFgColor : UInt32} {mem : Bool × Bool}
    {menu : Menu η} (h : menuInit win x y width height color hlBgColor hlFgColor mem = .ok (some menu))
    : Filled menu [] ∧ menu.selected = 0 := by
  unfold menuInit at h
  split at h
  . cases h
  . split at h
    . cases h
    . dsimp only at h
      split at h
      . cases h
      . split at h
        . cases h
        . next hsize =>
          cases h
          refine ⟨⟨rfl, rfl, ?_⟩, rfl⟩
          unfold u32 at hsize
          simp only [Menu.maxItems, List.length_replicate]
          omega

/-! ### The selection -/

section Shows

variable {menu : Menu η} {c : Cursor (MenuItem η)}

theorem Shows.select (h : Shows menu c) (k : Int)
    : Shows { menu with selected := (c.select k).selected.val } (c.select k) :=
  ⟨⟨h.pointers, h.nrItems, h.maxItems⟩, rfl⟩

theorem Shows.menuSelected_eq (h : Shows menu c) {k : Int} (hlow : -2 ^ 30 ≤ k) (hhigh : k ≤ 2 ^ 30)
    : menuSelected menu k
        = if k + menu.nrItems < 0 then
            .ok (menu, -1, [])
          else
            .ok ({ menu with selected := (c.select k).selected.val }, 0,
              menuRefresh { menu with selected := (c.select k).selected.val }) := by
  have hle := h.nrItems_le
  have hmax := h.maxItems
  have hpos := c.length_pos
  have hn := h.nrItems
  have hrem : ¬ k + menu.nrItems < 0 → (k + menu.nrItems).tmod menu.nrItems = (c.select k).selected.val := by
    intro hnonneg
    rw [Int.tmod_eq_emod_of_nonneg (by omega), Int.add_emod_right, Cursor.selected_select, hn]
  unfold menuSelected
  rw [int_ok (by omega) (by omega)]
  simp only [bind, Except.bind]
  split
  . rfl
  . next hnonneg =>
    rw [rem_ok (by omega), hrem hnonneg]
    rfl

theorem Shows.menuUpdate_eq (h : Shows menu c) {next : Int} (hnext : next = 1 ∨ next = -1)
    : menuUpdate menu next
        = .ok ({ menu with selected := (c.move next).selected.val }, 0,
            menuRefresh { menu with selected := (c.move next).selected.val }) := by
  have hle := h.nrItems_le
  have hmax := h.maxItems
  have hlt := c.selected.isLt
  have hn := h.nrItems
  unfold menuUpdate Cursor.move
  rw [h.selected, int_ok (by omega) (by omega)]
  simp only [bind, Except.bind]
  rw [h.menuSelected_eq (by omega) (by omega), if_neg (by omega)]

theorem Shows.menuUpdate_back (h : Shows menu c)
    : menuUpdate { menu with selected := (c.move 1).selected.val } (-1) = .ok (menu, 0, menuRefresh menu) := by
  have hback : ({ menu with selected := ((c.move 1).move (-1)).selected.val } : Menu η) = menu := by
    rw [c.move_move_neg, ← h.selected]
  have hmoved : Shows { menu with selected := (c.move 1).selected.val } (c.move 1) := h.select _
  rw [hmoved.menuUpdate_eq (Or.inr rfl), hback]

/-! ### What is drawn -/

open menuRefresh in
theorem go_append (menu : Menu η) (i : Nat) (y : Int) (items : List (MenuItem η)) (rest : List (Option (MenuItem η)))
    : go menu i y (items.map some ++ rest)
        = go menu i y (items.map some) ++ go menu (i + items.length) (y + items.length * menu.win.fontHeight) rest := by
  induction items generalizing i y with
  | nil => simp [go]
  | cons item items ih =>
    have hi : i + 1 + items.length = i + (item :: items).length := by
      rw [List.length_cons]
      omega
    have hy : y + menu.win.fontHeight + items.length * menu.win.fontHeight
        = y + (item :: items).length * menu.win.fontHeight := by
      rw [List.length_cons]
      push_cast
      ring
    rw [List.map_cons, List.cons_append, go, go, ih, hi, hy, List.append_assoc]

open menuRefresh in
theorem go_plain (menu : Menu η) (i : Nat) (y : Int) (items : List (MenuItem η))
    (hselected : menu.selected < i ∨ i + items.length ≤ menu.selected)
    : ∃ rows : List (List Draw), go menu i y (items.map some) = rows.flatten ∧ rows.length = items.length
        ∧ ∀ row ∈ rows, ∃ item y, row = @plain η item y := by
  induction items generalizing i y with
  | nil => exact ⟨[], rfl, rfl, by simp⟩
  | cons item items ih =>
    rw [List.length_cons] at hselected
    obtain ⟨rows, hrows, hcount, hplain⟩ := ih (i + 1) (y + menu.win.fontHeight) (by omega)
    refine ⟨plain item y :: rows, ?_, ?_, ?_⟩
    . rw [List.map_cons, go, if_neg (by omega), hrows, List.flatten_cons]
    . rw [List.length_cons, List.length_cons, hcount]
    . intro row hrow
      cases hrow with
      | head => exact ⟨item, y, rfl⟩
      | tail _ hrow => exact hplain row hrow

end Shows

open menuRefresh in
/-- `item` is the selected one; `menu_refresh` draws it highlighted, in its row, and all other items plain. -/
def Highlights (menu : Menu η) (item : MenuItem η) : Prop :=
  menu.items[menu.selected.toNat]? = some (some item)
    ∧ ∃ before after : List (List Draw),
      menuRefresh menu
          = clear menu ++ before.flatten ++ highlighted menu item (menu.y + menu.selected * menu.win.fontHeight)
            ++ after.flatten ++ [.flip]
        ∧ before.length = menu.selected
        ∧ ∀ row ∈ before ++ after, ∃ item y, row = @plain η item y

structure Sound (menu : Menu η) : Prop where
  selected : 0 ≤ menu.selected ∧ menu.selected < menu.nrItems
  nrItems : menu.nrItems ≤ menu.maxItems
  items : ∀ i, i < menu.nrItems → ∃ item, menu.items[i]? = some (some item)
  refusedSelected : ∀ k menu' drawn, -2 ^ 30 < k → k < 2 ^ 30 → menuSelected menu k = .ok (menu', -1, drawn)
    → menu' = menu
  refusedNewitem : ∀ line handler mem menu', menuNewitem menu line handler mem = .ok (menu', -1) → menu' = menu
  undo : ∃ menu' drawn drawn', menuUpdate menu 1 = .ok (menu', 0, drawn) ∧ menuUpdate menu' (-1) = .ok (menu, 0, drawn')
  action : ∃ item, Highlights menu item ∧ menuAction menu = .ok item.handler

section Shows

variable {menu : Menu η} {c : Cursor (MenuItem η)}

theorem Shows.get_selected (h : Shows menu c) : menu.items[menu.selected.toNat]? = some (some c.current) := by
  rw [h.selected, Int.toNat_natCast]
  exact h.get c.selected.isLt

open menuRefresh in
theorem Shows.highlights (h : Shows menu c) : Highlights menu c.current := by
  have hlt := c.selected.isLt
  have hsplit : c.items.map some = (c.items.take c.selected).map some
      ++ (some c.current :: (c.items.drop (c.selected + 1)).map some) := by
    rw [← List.map_cons, ← List.map_append, ← c.items_eq]
  have htake : (c.items.take c.selected).length = c.selected := by
    rw [List.length_take]
    omega
  obtain ⟨before, hbefore, hcount, hplain⟩ := go_plain menu 0 menu.y (c.items.take c.selected) (by
    rw [htake, h.selected]
    omega)
  obtain ⟨after, hafter, -, hplain'⟩ := go_plain menu (c.selected + 1)
    (menu.y + c.selected * menu.win.fontHeight + menu.win.fontHeight) (c.items.drop (c.selected + 1)) (by
    rw [h.selected]
    omega)
  refine ⟨h.get_selected, before, after, ?_, ?_, ?_⟩
  . unfold menuRefresh
    rw [h.pointers, hsplit, go_append, htake, hbefore, Nat.zero_add, go, hafter, h.selected, if_pos rfl]
    simp only [List.append_assoc]
  . rw [hcount, htake, h.selected]
  . intro row hrow
    cases List.mem_append.mp hrow with
    | inl hrow => exact hplain row hrow
    | inr hrow => exact hplain' row hrow

theorem Shows.menuAction_eq (h : Shows menu c) : menuAction menu = .ok c.current.handler := by
  have hle := h.nrItems_le
  have hlt := c.selected.isLt
  have hn := h.nrItems
  have hselected := h.selected
  unfold menuAction
  rw [if_neg (by omega), h.get_selected]
  rfl

theorem Shows.sound (h : Shows menu c) : Sound menu := by
  have hlt := c.selected.isLt
  have hn := h.nrItems
  refine ⟨?_, h.nrItems_le, ?_, ?_, ?_, ?_, ?_⟩
  . rw [h.selected]
    omega
  . intro i hi
    exact ⟨_, h.get (by omega)⟩
  . intro k menu' drawn hlow hhigh hrun
    rw [h.menuSelected_eq (by omega) (by omega)] at hrun
    split at hrun
    . cases hrun
      rfl
    . cases hrun
  . intro line handler mem menu' hrun
    cases menuNewitem_cases h.nrItems_le line handler mem with
    | inl hrefused =>
      rw [hrefused] at hrun
      cases hrun
      rfl
    | inr hadded =>
      obtain ⟨_, _, hadded⟩ := hadded
      rw [hadded] at hrun
      cases hrun
  . exact ⟨_, _, _, h.menuUpdate_eq (Or.inl rfl), h.menuUpdate_back⟩
  . exact ⟨c.current, h.highlights, h.menuAction_eq⟩

end Shows

/-! ### Calls one after the other -/

def MenuCall.InRange : MenuCall η → Prop
  | selected k => -2 ^ 30 < k ∧ k < 2 ^ 30
  | _ => True

instance (call : MenuCall η) : Decidable call.InRange :=
  match call with
  | .selected _ => inferInstanceAs (Decidable (_ ∧ _))
  | .newitem _ _ _ => isTrue trivial
  | .down => isTrue trivial
  | .up => isTrue trivial

theorem Shows.newitem {menu : Menu η} {c : Cursor (MenuItem η)} (h : Shows menu c) (line : Option Textline)
    (handler : Option η) (mem : Bool)
    : ∃ menu' c', (MenuCall.newitem line handler mem).run menu = .ok menu' ∧ Shows menu' c' := by
  rw [MenuCall.run]
  cases menuNewitem_cases h.nrItems_le line handler mem with
  | inl hrefused =>
    rw [hrefused]
    exact ⟨menu, c, rfl, h⟩
  | inr hadded =>
    obtain ⟨line', hroom, hadded⟩ := hadded
    rw [hadded]
    exact ⟨_, c.push ⟨line', handler⟩, rfl, h.toFilled.add hroom _, h.selected⟩

theorem Shows.run {menu : Menu η} {c : Cursor (MenuItem η)} (h : Shows menu c) {call : MenuCall η}
    (hrange : call.InRange)
    : ∃ menu' c', call.run menu = .ok menu' ∧ Shows menu' c' := by
  cases call with
  | newitem line handler mem => exact h.newitem line handler mem
  | down =>
    rw [MenuCall.run]
    rw [h.menuUpdate_eq (Or.inl rfl)]
    exact ⟨_, _, rfl, h.select _⟩
  | up =>
    rw [MenuCall.run]
    rw [h.menuUpdate_eq (Or.inr rfl)]
    exact ⟨_, _, rfl, h.select _⟩
  | selected k =>
    unfold MenuCall.InRange at hrange
    rw [MenuCall.run]
    rw [h.menuSelected_eq (by omega) (by omega)]
    split
    . exact ⟨menu, c, rfl, h⟩
    . exact ⟨_, _, rfl, h.select k⟩

theorem Shows.foldlM {menu : Menu η} {c : Cursor (MenuItem η)} (h : Shows menu c) {calls : List (MenuCall η)}
    (hrange : ∀ call ∈ calls, call.InRange)
    : ∃ menu' c', calls.foldlM MenuCall.run menu = .ok menu' ∧ Shows menu' c' := by
  induction calls generalizing menu c with
  | nil => exact ⟨menu, c, rfl, h⟩
  | cons call calls ih =>
    rw [List.forall_mem_cons] at hrange
    obtain ⟨menu', c', hcall, hshows⟩ := h.run hrange.1
    obtain ⟨menu'', c'', hcalls, hshows'⟩ := ih hshows hrange.2
    refine ⟨menu'', c'', ?_, hshows'⟩
    rw [List.foldlM_cons, hcall]
    exact hcalls

/-! ### From `menu_init` on -/

def Ready (menu : Menu η) : Prop :=
  (Filled menu [] ∧ menu.selected = 0) ∨ ∃ c, Shows menu c

theorem Filled.newitem_ready {menu : Menu η} (h : Filled menu []) (hselected : menu.selected = 0)
    (line : Option Textline) (handler : Option η) (mem : Bool)
    : ∃ menu', (MenuCall.newitem line handler mem).run menu = .ok menu' ∧ Ready menu' := by
  rw [MenuCall.run]
  cases menuNewitem_cases h.nrItems_le line handler mem with
  | inl hrefused =>
    rw [hrefused]
    exact ⟨menu, rfl, Or.inl ⟨h, hselected⟩⟩
  | inr hadded =>
    obtain ⟨line', hroom, hadded⟩ := hadded
    rw [hadded]
    exact ⟨_, rfl, Or.inr ⟨⟨[⟨line', handler⟩], ⟨0, Nat.one_pos⟩⟩, h.add hroom _, hselected⟩⟩

/-- Without an item, `menu_selected` divides by zero when it does not refuse. -/
theorem menuSelected_of_empty {menu menu' : Menu η} (h : menu.nrItems = 0) {k : Int}
    (hrun : (menuSelected menu k).map Prod.fst = .ok menu') : menu' = menu := by
  unfold menuSelected int rem at hrun
  rw [h] at hrun
  split at hrun
  . simp only [pure, bind, Except.pure, Except.bind] at hrun
    split at hrun
    . cases hrun
      rfl
    . cases hrun
  . cases hrun

theorem menuUpdate_of_empty {menu menu' : Menu η} (h : menu.nrItems = 0) {next : Int}
    (hrun : (menuUpdate menu next).map Prod.fst = .ok menu') : menu' = menu := by
  unfold menuUpdate int at hrun
  split at hrun
  . exact menuSelected_of_empty h hrun
  . cases hrun

theorem Ready.run {menu menu' : Menu η} (h : Ready menu) {call : MenuCall η} (hrange : call.InRange)
    (hrun : call.run menu = .ok menu') : Ready menu' := by
  cases h with
  | inl hempty =>
    obtain ⟨hfilled, hselected⟩ := hempty
    cases call with
    | newitem line handler mem =>
      obtain ⟨_, hnew, hready⟩ := hfilled.newitem_ready hselected line handler mem
      rw [hnew] at hrun
      cases hrun
      exact hready
    | down =>
      rw [menuUpdate_of_empty hfilled.nrItems hrun]
      exact Or.inl ⟨hfilled, hselected⟩
    | up =>
      rw [menuUpdate_of_empty hfilled.nrItems hrun]
      exact Or.inl ⟨hfilled, hselected⟩
    | selected k =>
      rw [menuSelected_of_empty hfilled.nrItems hrun]
      exact Or.inl ⟨hfilled, hselected⟩
  | inr hshows =>
    obtain ⟨c, hshows⟩ := hshows
    obtain ⟨_, c', hcall, hshows'⟩ := hshows.run hrange
    rw [hcall] at hrun
    cases hrun
    exact Or.inr ⟨c', hshows'⟩

theorem Ready.foldlM {menu menu' : Menu η} (h : Ready menu) {calls : List (MenuCall η)}
    (hrange : ∀ call ∈ calls, call.InRange) (hrun : calls.foldlM MenuCall.run menu = .ok menu') : Ready menu' := by
  induction calls generalizing menu with
  | nil =>
    cases hrun
    exact h
  | cons call calls ih =>
    rw [List.foldlM_cons] at hrun
    cases hcall : call.run menu with
    | error fault =>
      rw [hcall] at hrun
      cases hrun
    | ok next =>
      rw [hcall] at hrun
      rw [List.forall_mem_cons] at hrange
      exact ih (h.run hrange.1 hcall) hrange.2 hrun

/-- From the first item on, no call goes wrong, and the menu acts on the highlighted item. -/
theorem menu_acts_on_highlighted {win : Window} {x y width height : Int} {color hlBgColor hlFgColor : UInt32}
    {mem : Bool × Bool} {menu menu' : Menu η}
    (hinit : menuInit win x y width height color hlBgColor hlFgColor mem = .ok (some menu))
    {before : List (MenuCall η)} (hbefore : ∀ call ∈ before, call.InRange)
    (hrun : before.foldlM MenuCall.run menu = .ok menu') (hitem : 0 < menu'.nrItems)
    (calls : List (MenuCall η)) (hrange : ∀ call ∈ calls, call.InRange)
    : ∃ menu'', calls.foldlM MenuCall.run menu' = .ok menu'' ∧ Sound menu'' := by
  have hready : Ready menu' := Ready.foldlM (Or.inl (filled_menuInit hinit)) hbefore hrun
  cases hready with
  | inl hempty =>
    have hzero := hempty.1.nrItems
    rw [List.length_nil] at hzero
    omega
  | inr hshows =>
    obtain ⟨c, hshows⟩ := hshows
    obtain ⟨menu'', _, hcalls, hshows'⟩ := hshows.foldlM hrange
    exact ⟨menu'', hcalls, hshows'.sound⟩

def twoRows : Menu Nat where
  win := ⟨0, 24, 8, by decide⟩
  items := [none, none]
  nrItems := 0
  color := 1
  hlFgColor := 2
  hlBgColor := 3
  selected := 0
  x := 0
  y := 0
  width := 100
  height := 50

theorem menu_acts_on_highlighted_twoRows
    : ∃ menu'',
        [MenuCall.down, .selected (-1)].foldlM MenuCall.run (twoRows.add ⟨⟨some (str "a"), 1⟩, some 7⟩) = .ok menu''
          ∧ Sound menu'' := by
  refine @menu_acts_on_highlighted Nat twoRows.win 0 0 100 50 1 3 2 (true, true) twoRows _ rfl
    [.up, .newitem (some ⟨some (str "a"), 1⟩) (some 7) true] ?_ rfl ?_ _ ?_
  all_goals decide

end Ui
