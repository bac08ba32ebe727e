import BulbOS.Tty.Paint
import Mathlib.Data.List.GetD

/-!
# The terminal shows the end of the text

* `layout`: a text in rows; a row ends after a newline and after its 80th character;
* `Shows`: the screen has the last 25 rows, and the cursor is at their end;
* `Shows.putchar`: one character; **`terminal_shows_layout`**: a whole text.
-/

namespace BulbOS.Tty

open KLib

variable {t t' : Terminal} {c : UInt8} {row : List UInt8} {rows : List (List UInt8)}

/-- The rows of a text, the first of them begun with `row`. -/
def layoutFrom (row : List UInt8) : List UInt8 → List (List UInt8)
  | [] => [row]
  | c :: text =>
    if c = 10 then row :: layoutFrom [] text
    else if row.length + 1 = vgaWidth then (row ++ [c]) :: layoutFrom [] text
    else layoutFrom (row ++ [c]) text

def layout (text : List UInt8) : List (List UInt8) := layoutFrom [] text

/-- What fits the screen. -/
def lastRows (rows : List (List UInt8)) : List (List UInt8) := rows.drop (rows.length - vgaHeight)

/-- The screen has the characters of the last rows, and spaces around them. -/
def Displays (t : Terminal) (rows : List (List UInt8)) : Prop :=
  ∀ y < vgaHeight, ∀ x < vgaWidth, t.charAt y x = ((lastRows rows).getD y []).getD x 32

/-- And the cursor is at the end of the last row. -/
structure Shows (t : Terminal) (rows : List (List UInt8)) : Prop where
  chars : Displays t rows
  row : t.terminalRow + 1 = (lastRows rows).length
  column : t.terminalColumn = (rows.getLastD []).length
  rowLt : t.terminalRow < vgaHeight
  columnLt : t.terminalColumn < vgaWidth

/-- The screen is clear and the cursor at its start. -/
structure Cleared (t : Terminal) : Prop where
  row : t.terminalRow = 0
  column : t.terminalColumn = 0
  chars : ∀ y < vgaHeight, ∀ x < vgaWidth, t.charAt y x = 32

theorem lastRows_getD (rows : List (List UInt8)) (y : ℕ) :
    (lastRows rows).getD y [] = rows.getD (rows.length - vgaHeight + y) [] := by
  rw [lastRows, List.getD_eq_getElem?_getD, List.getElem?_drop, List.getD_eq_getElem?_getD]

theorem lastRows_length (rows : List (List UInt8)) : (lastRows rows).length = min rows.length vgaHeight := by
  rw [lastRows, List.length_drop]
  omega

theorem lastRows_concat (rows : List (List UInt8)) (r : List UInt8) :
    (lastRows (rows ++ [r])).length = min (rows.length + 1) vgaHeight := by
  rw [lastRows_length, List.length_append, List.length_singleton]

theorem Displays.frame (h : Displays t rows) (hb : t'.terminalBuffer = t.terminalBuffer) : Displays t' rows :=
  fun y hy x hx => by rw [← h y hy x hx, Terminal.charAt, hb, Terminal.charAt]

/-! ## One character -/

theorem getD_append_nil (rows : List (List UInt8)) (i : ℕ) : (rows ++ [[]]).getD i [] = rows.getD i [] := by
  rcases Nat.lt_or_ge i rows.length with h | h
  · exact List.getD_append rows _ _ i h
  · rw [List.getD_append_right _ _ _ _ h, List.getD_eq_default rows _ h]
    cases i - rows.length with
    | zero => rfl
    | succ n => rfl

/-- A new row is begun, and the screen scrolls when it is full. -/
theorem Displays.newline (h : Displays t rows) (hrow : t.terminalRow + 1 = (lastRows rows).length) :
    Displays (terminalNewline t) (rows ++ [[]]) ∧
      (terminalNewline t).terminalRow + 1 = (lastRows (rows ++ [[]])).length ∧
      (terminalNewline t).terminalRow < vgaHeight ∧ (terminalNewline t).terminalColumn = 0 := by
  rw [lastRows_length] at hrow
  have hle : t.terminalRow + 1 ≤ vgaHeight := by rw [hrow]; exact Nat.min_le_right _ _
  have hlen : (rows ++ [[]]).length = rows.length + 1 := by rw [List.length_append]; rfl
  obtain ⟨hc, hr, -, hchars⟩ := newline_spec t hle
  rw [lastRows_length, hlen, hr]
  by_cases hfull : t.terminalRow + 1 = vgaHeight
  · rw [if_pos hfull]
    refine ⟨fun y hy x hx => ?_, by omega, by omega, hc⟩
    rw [hchars y hy x hx, if_pos hfull, lastRows_getD, getD_append_nil, hlen]
    by_cases hlt : y + 1 < vgaHeight
    · rw [if_pos hlt]
      refine (h (y + 1) hlt x hx).trans ?_
      rw [lastRows_getD, show rows.length - vgaHeight + (y + 1) = rows.length + 1 - vgaHeight + y by omega]
    · rw [if_neg hlt, List.getD_eq_default rows _ (by omega)]
      rfl
  · rw [if_neg hfull]
    refine ⟨fun y hy x hx => ?_, by omega, by omega, hc⟩
    rw [hchars y hy x hx, if_neg hfull]
    refine (h y hy x hx).trans ?_
    rw [lastRows_getD, lastRows_getD, getD_append_nil, hlen,
      show rows.length - vgaHeight + y = rows.length + 1 - vgaHeight + y by omega]

theorem Displays.put (h : Displays t (rows ++ [row])) (hrow : t.terminalRow + 1 = (lastRows (rows ++ [row])).length)
    (hcol : row.length < vgaWidth) (hlt : t.terminalRow < vgaHeight) (c color : UInt8) :
    Displays (terminalEntry t c color row.length t.terminalRow) (rows ++ [row ++ [c]]) := by
  rw [lastRows_concat] at hrow
  intro y hy x hx
  refine ((painted_entry t c color hcol hlt).inside y hy x hx).trans ?_
  have hold := h y hy x hx
  rw [lastRows_getD, List.length_append, List.length_singleton] at hold ⊢
  by_cases hy' : y = t.terminalRow
  · have hi : rows.length + 1 - vgaHeight + y = rows.length := by omega
    rw [hi, List.getD_append_right _ _ _ _ le_rfl, Nat.sub_self] at hold ⊢
    change t.charAt y x = row.getD x 32 at hold
    change _ = (row ++ [c]).getD x 32
    by_cases hx' : x = row.length
    · rw [if_pos ⟨hy', hx'⟩, hx', List.getD_append_right _ _ _ _ le_rfl, Nat.sub_self]
      rfl
    · rw [if_neg fun e => hx' e.2, hold]
      rcases Nat.lt_or_ge x row.length with hlt | hge
      · rw [List.getD_append _ _ _ _ hlt]
      · rw [List.getD_eq_default _ _ hge, List.getD_eq_default]
        rw [List.length_append, List.length_singleton]
        omega
  · rw [if_neg fun e => hy' e.1, hold]
    have hne : rows.length + 1 - vgaHeight + y ≠ rows.length := by omega
    rcases Nat.lt_or_ge (rows.length + 1 - vgaHeight + y) rows.length with hlt' | hge
    · rw [List.getD_append _ _ _ _ hlt', List.getD_append _ _ _ _ hlt']
    · have hnil : ∀ r : List UInt8, (rows ++ [r]).getD (rows.length + 1 - vgaHeight + y) [] = [] := fun r => by
        rw [List.getD_eq_default]
        rw [List.length_append, List.length_singleton]
        omega
      rw [hnil, hnil]

theorem Shows.of_displays (h : Displays t rows) (hrow : t.terminalRow + 1 = (lastRows rows).length)
    (hlt : t.terminalRow < vgaHeight) (hcol : t.terminalColumn = (rows.getLastD []).length)
    (hclt : t.terminalColumn < vgaWidth) (x y : ℕ) : Shows (terminalUpdateCursor t x y) rows :=
  ⟨h.frame rfl, hrow, hcol, hlt, hclt⟩

theorem Displays.shows_newline (h : Displays t rows) (hrow : t.terminalRow + 1 = (lastRows rows).length) (x y : ℕ) :
    Shows (terminalUpdateCursor (terminalNewline t) x y) (rows ++ [[]]) := by
  obtain ⟨hd, hr, hlt, hc⟩ := h.newline hrow
  refine .of_displays hd hr hlt ?_ ?_ x y
  · rw [hc, List.getLastD_concat]
    rfl
  · rw [hc]
    decide

/-- **One character** goes on the screen as it goes in the layout. -/
theorem Shows.putchar (h : Shows t (rows ++ [row])) (hc : c ≠ 8) :
    Shows (terminalPutchar t c) (rows ++ layoutFrom row [c]) := by
  have hcol : t.terminalColumn = row.length := by rw [h.column, List.getLastD_concat]
  have hlt : row.length < vgaWidth := hcol ▸ h.columnLt
  rw [layoutFrom]
  by_cases hnl : c = 10
  · obtain ⟨x, y, he⟩ := putchar_newline t
    rw [if_pos hnl, hnl, he]
    have hs := h.chars.shows_newline h.row x y
    rwa [List.append_assoc] at hs
  obtain ⟨x, y, he⟩ := putchar_char t hnl hc
  rw [if_neg hnl, he, hcol]
  have hput := h.chars.put h.row hlt h.rowLt c t.terminalColor
  have hd : Displays (t.advance c) (rows ++ [row ++ [c]]) := hput.frame (by rw [Terminal.advance, hcol])
  have hrow : (t.advance c).terminalRow + 1 = (lastRows (rows ++ [row ++ [c]])).length := by
    rw [lastRows_concat, ← lastRows_concat rows row]
    exact h.row
  have hadv : (t.advance c).terminalColumn = row.length + 1 := congrArg (· + 1) hcol
  by_cases hfull : row.length + 1 = vgaWidth
  · rw [if_pos hfull, if_pos hfull]
    have hs := hd.shows_newline hrow x y
    rwa [List.append_assoc] at hs
  · rw [if_neg hfull, if_neg hfull]
    refine .of_displays hd hrow h.rowLt ?_ ?_ x y
    · rw [hadv, List.getLastD_concat, List.length_append]
      rfl
    · rw [hadv]
      omega

/-- After a character the last row goes on, or a new one begins. -/
theorem layoutFrom_cons (row : List UInt8) (c : UInt8) (text : List UInt8) :
    ∃ rows' row', layoutFrom row [c] = rows' ++ [row'] ∧
      layoutFrom row (c :: text) = rows' ++ layoutFrom row' text := by
  simp only [layoutFrom]
  by_cases hnl : c = 10
  · rw [if_pos hnl, if_pos hnl]
    exact ⟨[row], [], rfl, rfl⟩
  rw [if_neg hnl, if_neg hnl]
  by_cases hfull : row.length + 1 = vgaWidth
  · rw [if_pos hfull, if_pos hfull]
    exact ⟨[row ++ [c]], [], rfl, rfl⟩
  · rw [if_neg hfull, if_neg hfull]
    exact ⟨[], row ++ [c], rfl, rfl⟩

/-! ## A text -/

theorem Shows.write {text : List UInt8} (h : Shows t (rows ++ [row])) (hb : 8 ∉ text) :
    Shows (terminalWrite t text) (rows ++ layoutFrom row text) := by
  induction text generalizing t rows row with
  | nil => exact h
  | cons c text ih =>
    rw [List.mem_cons, not_or] at hb
    obtain ⟨rows', row', hone, hall⟩ := layoutFrom_cons row c text
    have hs := h.putchar (Ne.symm hb.1)
    rw [hone, ← List.append_assoc] at hs
    rw [hall, ← List.append_assoc]
    exact ih hs hb.2

theorem Cleared.shows (h : Cleared t) : Shows t (layout []) := by
  refine ⟨fun y hy x hx => ?_, by rw [h.row]; rfl, by rw [h.column]; rfl, by rw [h.row]; decide,
    by rw [h.column]; decide⟩
  rw [h.chars y hy x hx, lastRows_getD]
  change 32 = (([[]] : List (List UInt8)).getD (0 + y) []).getD x 32
  cases y with
  | zero => rfl
  | succ y => simp

/-- **The terminal shows the last 25 rows** of every text without a backspace, with the cursor at its end. -/
theorem terminal_shows_layout (h : Cleared t) {text : List UInt8} (hb : 8 ∉ text) :
    Shows (terminalWrite t text) (layout text) := by
  have hstart : Shows t ([] ++ [[]]) := h.shows
  exact hstart.write hb

theorem terminal_shows_layout_two : Shows (terminalWrite ⟨0, 0, 15, fun _ => 32, 0⟩ [65, 10, 66])
    (layout [65, 10, 66]) :=
  terminal_shows_layout ⟨rfl, rfl, fun _ _ _ _ => rfl⟩ (by decide)

end BulbOS.Tty
