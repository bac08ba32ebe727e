import BulbOS.Tty.Cursor
import BulbOS.Tty.Layout

/-!
# A row that is edited

* `layoutFrom_append`: a text goes on after another;
* `Displays.replace`: one entry of the last row; `Shows.back`: a backspace behind a character;
* `InRow`: a text with backspaces that stays in its row; **`Shows.edits`**: what is left of it is on the screen.
-/

namespace BulbOS.Tty

open KLib

variable {t : Terminal} {c : UInt8} {row row' text : List UInt8} {rows : List (List UInt8)}

theorem layoutFrom_append (row text more : List UInt8) : ∃ rows' row', layoutFrom row text = rows' ++ [row'] ∧
    layoutFrom row (text ++ more) = rows' ++ layoutFrom row' more := by
  induction text generalizing row with
  | nil => exact ⟨[], row, rfl, rfl⟩
  | cons c text ih =>
    simp only [layoutFrom, List.cons_append]
    split_ifs
    · obtain ⟨rows', row', h₁, h₂⟩ := ih []
      exact ⟨row :: rows', row', by rw [h₁]; rfl, by rw [h₂]; rfl⟩
    · obtain ⟨rows', row', h₁, h₂⟩ := ih []
      exact ⟨(row ++ [c]) :: rows', row', by rw [h₁]; rfl, by rw [h₂]; rfl⟩
    · exact ih (row ++ [c])

theorem Shows.behind {more : List UInt8} (h : Shows t (layout text)) (hb : 8 ∉ more) :
    Shows (terminalWrite t more) (layout (text ++ more)) := by
  obtain ⟨rows, row, hrows, hall⟩ := layoutFrom_append [] text more
  rw [layout, hrows] at h
  rw [layout, hall]
  exact h.write hb

theorem Displays.replace (h : Displays t (rows ++ [row])) (hrow : t.terminalRow + 1 = (lastRows (rows ++ [row])).length)
    (hlt : t.terminalRow < vgaHeight) {x₀ : ℕ} (hx₀ : x₀ < vgaWidth)
    (hnew : ∀ x, row'.getD x 32 = if x = x₀ then c else row.getD x 32) (color : UInt8) :
    Displays (terminalEntry t c color x₀ t.terminalRow) (rows ++ [row']) := by
  rw [lastRows_concat] at hrow
  intro y hy x hx
  refine ((painted_entry t c color hx₀ hlt).inside y hy x hx).trans ?_
  have hold := h y hy x hx
  rw [lastRows_getD, List.length_append, List.length_singleton] at hold ⊢
  by_cases hy' : y = t.terminalRow
  · have hi : rows.length + 1 - vgaHeight + y = rows.length := by omega
    rw [hi, List.getD_append_right _ _ _ _ le_rfl, Nat.sub_self] at hold ⊢
    change t.charAt y x = row.getD x 32 at hold
    change _ = row'.getD x 32
    rw [hnew, hold]
    simp only [hy', true_and]
  · have hne : rows.length + 1 - vgaHeight + y ≠ rows.length := by omega
    rw [if_neg fun e => hy' e.1, hold]
    rcases Nat.lt_or_ge (rows.length + 1 - vgaHeight + y) rows.length with hlt' | hge
    · rw [List.getD_append _ _ _ _ hlt', List.getD_append _ _ _ _ hlt']
    · have hnil : ∀ r : List UInt8, (rows ++ [r]).getD (rows.length + 1 - vgaHeight + y) [] = [] := fun r => by
        rw [List.getD_eq_default]
        rw [List.length_append, List.length_singleton]
        omega
      rw [hnil, hnil]

/-- **A backspace** takes the last character of a row away. -/
theorem Shows.back (h : Shows t (rows ++ [row ++ [c]])) : Shows (terminalPutchar t 8) (rows ++ [row]) := by
  have hcol : t.terminalColumn = row.length + 1 := by
    rw [h.column, List.getLastD_concat, List.length_append]
    rfl
  have hlt : row.length < vgaWidth := by
    have := h.columnLt
    omega
  obtain ⟨x, y, he⟩ := putchar_back t
  obtain ⟨hr, hc, hb⟩ := terminalBack_right t (by omega)
  have hblank : ∀ x, row.getD x 32 = if x = row.length then 32 else (row ++ [c]).getD x 32 := by
    intro x
    rcases lt_trichotomy x row.length with hx | rfl | hx
    · rw [if_neg hx.ne, List.getD_append _ _ _ _ hx]
    · rw [if_pos rfl, List.getD_eq_default _ _ le_rfl]
    · rw [if_neg hx.ne', List.getD_eq_default _ _ hx.le, List.getD_eq_default]
      rw [List.length_append, List.length_singleton]
      exact hx
  have hd := h.chars.replace h.row h.rowLt hlt hblank t.terminalColor
  rw [he]
  refine .of_displays (hd.frame ?_) ?_ ?_ ?_ ?_ x y
  · rw [hb, hcol, Nat.add_sub_cancel]
  · rw [hr, lastRows_concat, ← lastRows_concat rows (row ++ [c])]
    exact h.row
  · rw [hr]
    exact h.rowLt
  · rw [hc, hcol, List.getLastD_concat, Nat.add_sub_cancel]
  · rw [hc, hcol, Nat.add_sub_cancel]
    exact hlt

/-- The row that is left when a text with backspaces is written at its end. -/
def editRow (row text : List UInt8) : List UInt8 :=
  text.foldl (fun row c => if c = 8 then row.dropLast else row ++ [c]) row

/-- The text neither ends the row nor goes back before it. -/
def InRow (row : List UInt8) : List UInt8 → Prop
  | [] => True
  | c :: text =>
    if c = 8 then row ≠ [] ∧ InRow row.dropLast text
    else c ≠ 10 ∧ row.length + 1 < vgaWidth ∧ InRow (row ++ [c]) text

theorem layoutFrom_char (hnl : c ≠ 10) (hlen : row.length + 1 < vgaWidth) : layoutFrom row [c] = [row ++ [c]] := by
  rw [layoutFrom, if_neg hnl, if_neg hlen.ne, layoutFrom]

theorem layoutFrom_short (hnl : 10 ∉ text) (hlen : row.length + text.length < vgaWidth) :
    layoutFrom row text = [row ++ text] := by
  induction text generalizing row with
  | nil => rw [layoutFrom, List.append_nil]
  | cons c text ih =>
    obtain ⟨hne, hnl⟩ := not_or.mp (mt List.mem_cons.mpr hnl)
    rw [List.length_cons] at hlen
    rw [layoutFrom, if_neg (Ne.symm hne), if_neg (by omega), ih hnl, List.append_assoc]
    · rfl
    · rw [List.length_append, List.length_singleton]
      omega

/-- **An edited row.** -/
theorem Shows.edits (h : Shows t (rows ++ [row])) (htext : InRow row text) :
    Shows (terminalWrite t text) (rows ++ [editRow row text]) := by
  induction text generalizing t row with
  | nil => exact h
  | cons c text ih =>
    rw [InRow] at htext
    rw [editRow, List.foldl_cons, terminalWrite, List.foldl_cons]
    by_cases hb : c = 8
    · rw [if_pos hb] at htext ⊢
      obtain ⟨hne, htext⟩ := htext
      rw [← List.dropLast_append_getLast hne] at h
      rw [hb]
      exact ih h.back htext
    · rw [if_neg hb] at htext ⊢
      obtain ⟨hnl, hlen, htext⟩ := htext
      refine ih ?_ htext
      rw [← layoutFrom_char hnl hlen]
      exact h.putchar hb

end BulbOS.Tty
