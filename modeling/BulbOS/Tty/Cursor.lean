import BulbOS.Lib.Run
import BulbOS.Tty.Paint

/-!
# The cursor and the screen

* `InScreen`: the cursor is on the screen, and no entry behind the screen has changed;
* `inScreen_newline`, `InScreen.putchar_iff`: what a character does to it;
* `Erased`, `erased_iff`: a character and a backspace after it leave a blank, with the cursor on it;
* **`cursor_stays_iff`**: when the cursor stays on the screen, and when a backspace erases.
-/

namespace BulbOS.Tty

open KLib

variable {t t₀ : Terminal} {c : UInt8}

/-- The cursor is on the screen, and only entries of the screen differ from `t₀`. -/
structure InScreen (t₀ t : Terminal) : Prop where
  row : t.terminalRow < vgaHeight
  column : t.terminalColumn < vgaWidth
  outside : ∀ i, vgaHeight * vgaWidth ≤ i → t.terminalBuffer i = t₀.terminalBuffer i

/-- The start of the text. -/
def Terminal.AtOrigin (t : Terminal) : Prop := t.terminalRow = 0 ∧ t.terminalColumn = 0

theorem inScreen_newline (hrow : t.terminalRow < vgaHeight)
    (hout : ∀ i, vgaHeight * vgaWidth ≤ i → t.terminalBuffer i = t₀.terminalBuffer i) :
    InScreen t₀ (terminalNewline t) := by
  obtain ⟨hc, hr, ho, -⟩ := newline_spec t hrow
  refine ⟨?_, by rw [hc]; decide, fun i hi => (ho i hi).trans (hout i hi)⟩
  rw [hr]
  split_ifs <;> omega

theorem InScreen.cursor (h : InScreen t₀ t) (x y : ℕ) : InScreen t₀ (terminalUpdateCursor t x y) :=
  ⟨h.row, h.column, h.outside⟩

theorem InScreen.char (h : InScreen t₀ t) (hnl : c ≠ 10) (hb : c ≠ 8) : InScreen t₀ (terminalPutchar t c) := by
  obtain ⟨x, y, he⟩ := putchar_char t hnl hb
  have hout : ∀ i, vgaHeight * vgaWidth ≤ i → (t.advance c).terminalBuffer i = t₀.terminalBuffer i :=
    fun i hi => ((painted_entry t c t.terminalColor h.column h.row).outside i hi).trans (h.outside i hi)
  rw [he]
  refine InScreen.cursor ?_ x y
  by_cases hfull : t.terminalColumn + 1 = vgaWidth
  · rw [if_pos hfull]
    exact inScreen_newline h.row hout
  · rw [if_neg hfull]
    have hc := h.column
    exact ⟨h.row, show t.terminalColumn + 1 < vgaWidth by omega, hout⟩

theorem InScreen.back_iff (h : InScreen t₀ t) : InScreen t₀ (terminalPutchar t 8) ↔ ¬ t.AtOrigin := by
  obtain ⟨x, y, he⟩ := putchar_back t
  rw [he, terminalBack]
  by_cases hc : t.terminalColumn = 0
  · rw [if_pos hc]
    dsimp only
    constructor
    · rintro hs ⟨hr, -⟩
      have hrow : (if t.terminalRow = 0 then 2 ^ 32 - 1 else t.terminalRow - 1) < vgaHeight := hs.row
      rw [if_pos hr] at hrow
      exact absurd hrow (by decide)
    · intro ho
      have hr : t.terminalRow ≠ 0 := fun hr => ho ⟨hr, hc⟩
      refine InScreen.cursor ⟨?_, show vgaWidth - 1 < vgaWidth by decide, fun i hi => ?_⟩ x y
      · change (if t.terminalRow = 0 then 2 ^ 32 - 1 else t.terminalRow - 1) < vgaHeight
        rw [if_neg hr]
        exact (Nat.sub_le _ _).trans_lt h.row
      · exact ((painted_entry t 32 t.terminalColor h.column h.row).outside i hi).trans (h.outside i hi)
  · rw [if_neg hc]
    have hlt : t.terminalColumn - 1 < vgaWidth := (Nat.sub_le _ _).trans_lt h.column
    let t₁ : Terminal := { t with terminalColumn := t.terminalColumn - 1 }
    have hs : InScreen t₀ (terminalEntry t₁ 32 t.terminalColor (t.terminalColumn - 1) t.terminalRow) :=
      ⟨h.row, hlt, fun i hi =>
        ((painted_entry t₁ 32 t.terminalColor hlt h.row).outside i hi).trans (h.outside i hi)⟩
    exact iff_of_true (hs.cursor x y) fun ho => hc ho.2

/-- **One character.** -/
theorem InScreen.putchar_iff (h : InScreen t₀ t) (c : UInt8) :
    InScreen t₀ (terminalPutchar t c) ↔ ¬ (c = 8 ∧ t.AtOrigin) := by
  by_cases hb : c = 8
  · rw [hb, h.back_iff]
    exact not_congr (and_iff_right rfl).symm
  · refine iff_of_true ?_ fun e => hb e.1
    by_cases hnl : c = 10
    · obtain ⟨x, y, he⟩ := putchar_newline t
      rw [hnl, he]
      exact (inScreen_newline h.row h.outside).cursor x y
    · exact h.char hnl hb

/-! ## Erasing -/

/-- Where the character at the cursor is after it is written: the text goes up when the screen scrolls. -/
def Terminal.textRow (t : Terminal) : ℕ :=
  if t.terminalRow + 1 = vgaHeight ∧ t.terminalColumn + 1 = vgaWidth then t.terminalRow - 1 else t.terminalRow

theorem textRow_scroll (hrow : t.terminalRow + 1 = vgaHeight) (hcol : t.terminalColumn + 1 = vgaWidth) :
    t.textRow + 1 = t.terminalRow := by
  rw [Terminal.textRow, if_pos ⟨hrow, hcol⟩]
  unfold vgaHeight at hrow
  omega

theorem textRow_of_not (h : ¬ (t.terminalRow + 1 = vgaHeight ∧ t.terminalColumn + 1 = vgaWidth)) :
    t.textRow = t.terminalRow := if_neg h

/-- After the character and a backspace the cursor is where it was in the text, and the entry is blank. -/
structure Erased (t : Terminal) (c : UInt8) : Prop where
  row : (terminalPutchar (terminalPutchar t c) 8).terminalRow = t.textRow
  column : (terminalPutchar (terminalPutchar t c) 8).terminalColumn = t.terminalColumn
  blank : (terminalPutchar (terminalPutchar t c) 8).charAt t.textRow t.terminalColumn = 32

theorem terminalBack_right (t : Terminal) (hc : t.terminalColumn ≠ 0) :
    (terminalBack t).terminalRow = t.terminalRow ∧ (terminalBack t).terminalColumn = t.terminalColumn - 1 ∧
      terminalBack t = { terminalEntry t 32 t.terminalColor (t.terminalColumn - 1) t.terminalRow with
        terminalColumn := t.terminalColumn - 1 } := by
  rw [terminalBack, if_neg hc]
  exact ⟨rfl, rfl, rfl⟩

theorem terminalBack_left (t : Terminal) (hc : t.terminalColumn = 0) (hr : t.terminalRow ≠ 0) :
    (terminalBack t).terminalRow = t.terminalRow - 1 ∧ (terminalBack t).terminalColumn = vgaWidth - 1 ∧
      (terminalBack t).terminalBuffer = (terminalEntry t 32 t.terminalColor 0 t.terminalRow).terminalBuffer := by
  rw [terminalBack, if_pos hc]
  dsimp only [terminalEntry]
  rw [if_neg hr, hc]
  exact ⟨rfl, rfl, rfl⟩

theorem putchar_back_char (t : Terminal) (hnl : c ≠ 10) (hb : c ≠ 8) : ∃ x y x' y',
    terminalPutchar (terminalPutchar t c) 8 = terminalUpdateCursor (terminalBack (terminalUpdateCursor
      (if t.terminalColumn + 1 = vgaWidth then terminalNewline (t.advance c) else t.advance c) x y)) x' y' := by
  obtain ⟨x, y, he⟩ := putchar_char t hnl hb
  obtain ⟨x', y', he'⟩ := putchar_back (terminalPutchar t c)
  rw [he] at he'
  exact ⟨x, y, x', y', he ▸ he'⟩

/-- Before the last column a backspace comes back to the character. -/
theorem erased_of_column (hrow : t.terminalRow < vgaHeight) (hcol : t.terminalColumn + 1 < vgaWidth)
    (hnl : c ≠ 10) (hb : c ≠ 8) : Erased t c := by
  obtain ⟨x, y, x', y', he⟩ := putchar_back_char t hnl hb
  rw [if_neg hcol.ne] at he
  obtain ⟨hr, hc, hback⟩ := terminalBack_right (terminalUpdateCursor (t.advance c) x y) (Nat.succ_ne_zero _)
  have htext : t.textRow = t.terminalRow := textRow_of_not fun e => hcol.ne e.2
  have hpaint := painted_entry (terminalUpdateCursor (t.advance c) x y) 32 t.terminalColor
    (show t.terminalColumn < vgaWidth by omega) hrow
  refine ⟨by rw [he, htext]; exact hr, by rw [he]; exact hc, ?_⟩
  rw [he, htext]
  change (terminalBack (terminalUpdateCursor (t.advance c) x y)).charAt t.terminalRow t.terminalColumn = 32
  rw [hback]
  exact (hpaint.inside _ hrow _ (by omega)).trans (if_pos ⟨rfl, rfl⟩)

/-- In the last column the cursor is at the start of the next line then, and that is what becomes blank. -/
theorem erased_last_iff (hrow : t.terminalRow < vgaHeight) (hcol : t.terminalColumn + 1 = vgaWidth)
    (hnl : c ≠ 10) (hb : c ≠ 8) : Erased t c ↔ c = 32 := by
  obtain ⟨x, y, x', y', he⟩ := putchar_back_char t hnl hb
  rw [if_pos hcol] at he
  have hlast : t.terminalColumn < vgaWidth := by omega
  obtain ⟨hnc, hnr, -, hchars⟩ := newline_spec (t.advance c) hrow
  have hnr' : (terminalNewline (t.advance c)).terminalRow = t.textRow + 1 := by
    rw [hnr]
    change (if t.terminalRow + 1 = vgaHeight then t.terminalRow else t.terminalRow + 1) = t.textRow + 1
    by_cases hfull : t.terminalRow + 1 = vgaHeight
    · rw [if_pos hfull, textRow_scroll hfull hcol]
    · rw [if_neg hfull, textRow_of_not fun e => hfull e.1]
  have htext : t.textRow + 1 < vgaHeight := by
    by_cases hfull : t.terminalRow + 1 = vgaHeight
    · rwa [textRow_scroll hfull hcol]
    · rw [textRow_of_not fun e => hfull e.1]
      omega
  -- The character is where the text row and the last column meet, whether the screen has scrolled or not.
  have hchar : (terminalNewline (t.advance c)).charAt t.textRow t.terminalColumn = c := by
    have hpaint := painted_entry t c t.terminalColor hlast hrow
    rw [hchars _ (by omega) _ hlast]
    change (if t.terminalRow + 1 = vgaHeight then _ else _) = c
    by_cases hfull : t.terminalRow + 1 = vgaHeight
    · rw [if_pos hfull, if_pos htext, textRow_scroll hfull hcol]
      exact (hpaint.inside _ hrow _ hlast).trans (if_pos ⟨rfl, rfl⟩)
    · rw [if_neg hfull, textRow_of_not fun e => hfull e.1]
      exact (hpaint.inside _ hrow _ hlast).trans (if_pos ⟨rfl, rfl⟩)
  let t₁ := terminalUpdateCursor (terminalNewline (t.advance c)) x y
  obtain ⟨hr, hc, hbuf⟩ := terminalBack_left t₁ hnc (by change (terminalNewline _).terminalRow ≠ 0; omega)
  have hrow' : (terminalBack t₁).terminalRow = t.textRow := by
    rw [hr]
    change (terminalNewline (t.advance c)).terminalRow - 1 = t.textRow
    omega
  have hkept : (terminalBack t₁).charAt t.textRow t.terminalColumn = c := by
    have hpaint := painted_entry t₁ 32 t₁.terminalColor (x := 0) (y := t₁.terminalRow) (by decide)
      (by change (terminalNewline _).terminalRow < _; omega)
    unfold Terminal.charAt
    rw [hbuf]
    refine ((hpaint.inside _ (by omega) _ hlast).trans (if_neg fun e => ?_)).trans hchar
    have hcontra : t.textRow = (terminalNewline (t.advance c)).terminalRow := e.1
    omega
  constructor
  · intro h
    have hblank := h.blank
    rw [he] at hblank
    exact hkept.symm.trans hblank
  · rintro rfl
    refine ⟨by rw [he]; exact hrow', ?_, by rw [he]; exact hkept⟩
    rw [he]
    change (terminalBack t₁).terminalColumn = t.terminalColumn
    omega

/-- **A backspace erases** every character that was not written in the last column. -/
theorem erased_iff (hrow : t.terminalRow < vgaHeight) (hcol : t.terminalColumn < vgaWidth) (hnl : c ≠ 10)
    (hb : c ≠ 8) : Erased t c ↔ t.terminalColumn + 1 ≠ vgaWidth ∨ c = 32 := by
  by_cases hlast : t.terminalColumn + 1 = vgaWidth
  · rw [erased_last_iff hrow hlast hnl hb]
    exact ⟨.inr, fun h => h.resolve_left fun hne => hne hlast⟩
  · exact iff_of_true (erased_of_column hrow (by omega) hnl hb) (.inl hlast)

/-! ## Every text -/

/-- The static variables are zero before `terminal_initialize`. -/
def terminalStart (buffer : ℕ → UInt16) (pos : UInt16) : Terminal := terminalInitialize ⟨0, 0, 0, buffer, pos⟩

theorem terminalInitialize_frame (t : Terminal) :
    ∃ color b, terminalInitialize t = { t with terminalColor := color, terminalBuffer := b } := by
  have hlines : ∀ n ≤ vgaHeight, ∀ t : Terminal,
      ∃ b, (List.range n).foldl terminalZeroline t = { t with terminalBuffer := b } := by
    intro n hn t
    induction n with
    | zero => exact ⟨_, rfl⟩
    | succ n ih =>
      obtain ⟨b, hb⟩ := ih (by omega)
      obtain ⟨b', hb'⟩ := (painted_zeroline { t with terminalBuffer := b } hn).frame
      rw [List.range_succ, List.foldl_append, hb, List.foldl_cons, List.foldl_nil, hb']
      exact ⟨b', rfl⟩
  obtain ⟨b, hb⟩ := hlines vgaHeight le_rfl { t with terminalColor := vgaEntryColor 15 0 }
  exact ⟨_, b, hb⟩

theorem inScreen_start (buffer : ℕ → UInt16) (pos : UInt16) :
    InScreen (terminalStart buffer pos) (terminalStart buffer pos) := by
  obtain ⟨color, b, he⟩ := terminalInitialize_frame ⟨0, 0, 0, buffer, pos⟩
  rw [terminalStart, he]
  exact ⟨show 0 < vgaHeight by decide, show 0 < vgaWidth by decide, fun _ _ => rfl⟩

/-- **The cursor** stays on the screen, character after character, exactly when none of them is a backspace at the
origin; and a backspace erases the character before it exactly when that was not in the last column. -/
theorem cursor_stays_iff (buffer : ℕ → UInt16) (pos : UInt16) (data : List UInt8) (t : Terminal) :
    (Run (fun t c t' => terminalPutchar t c = t' ∧ InScreen (terminalStart buffer pos) t')
        (terminalStart buffer pos) data t ↔
      Run (fun t c t' => terminalPutchar t c = t' ∧ ¬ (c = 8 ∧ t.AtOrigin)) (terminalStart buffer pos) data t) ∧
    ∀ s : Terminal, s.terminalRow < vgaHeight → s.terminalColumn < vgaWidth → ∀ c, c ≠ 10 → c ≠ 8 →
      (Erased s c ↔ s.terminalColumn + 1 ≠ vgaWidth ∨ c = 32) := by
  refine ⟨?_, fun s hrow hcol c hnl hb => erased_iff hrow hcol hnl hb⟩
  refine Run.iff_of_cond (J := InScreen (terminalStart buffer pos)) (fun t c t' h hs hc => ?_)
    (fun t c t' h hs => ?_) (inScreen_start buffer pos)
  · exact hs ▸ (h.putchar_iff c).mpr hc
  · exact hs ▸ h.putchar_iff c

theorem cursor_stays_at : Erased ⟨3, 10, 15, fun _ => 46, 0⟩ 65 :=
  ((cursor_stays_iff (fun _ => 0) 0 [] (terminalStart (fun _ => 0) 0)).2 ⟨3, 10, 15, fun _ => 46, 0⟩ (by decide)
    (by decide) 65 (by decide) (by decide)).mpr (.inl (by decide))

/-- A backspace at the origin, and one after a character in the last column. -/
theorem cursor_leaves :
    ¬ InScreen (terminalStart (fun _ => 0) 0) (terminalPutchar (terminalStart (fun _ => 0) 0) 8) ∧
      ¬ Erased ⟨0, 79, 15, fun _ => 32, 0⟩ 65 := by
  constructor
  · rw [(inScreen_start _ _).back_iff, not_not]
    obtain ⟨color, b, he⟩ := terminalInitialize_frame ⟨0, 0, 0, fun _ => 0, 0⟩
    rw [terminalStart, he]
    exact ⟨rfl, rfl⟩
  · rw [erased_last_iff (by decide) rfl (by decide) (by decide)]
    decide

end BulbOS.Tty
