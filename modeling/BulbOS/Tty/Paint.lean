import BulbOS.Tty.Model
import Mathlib.Tactic.Common

/-!
# What the terminal paints

* `Painted`: only entries of the screen change, and which characters it has then;
* `painted_entry`, `painted_zeroline`, `painted_copyline`, `painted_scroll`: one lemma for each function;
* `newline_spec`: a newline; `putchar_newline`, `putchar_back`, `putchar_char`: what a character does.
-/

namespace BulbOS.Tty

open KLib

variable {t t' t'' : Terminal} {c : UInt8} {x y x' y' n : ℕ} {f g : ℕ → ℕ → UInt8}

/-- Only entries of the screen change; `f` gives the characters after it. -/
structure Painted (t t' : Terminal) (f : ℕ → ℕ → UInt8) : Prop where
  frame : ∃ b, t' = { t with terminalBuffer := b }
  outside : ∀ i, vgaHeight * vgaWidth ≤ i → t'.terminalBuffer i = t.terminalBuffer i
  inside : ∀ y < vgaHeight, ∀ x < vgaWidth, t'.charAt y x = f y x

theorem vgaEntry_toUInt8 (c color : UInt8) : (vgaEntry c color).toUInt8 = c := by
  unfold vgaEntry
  rw [← UInt8.toBitVec_inj]
  ext i hi
  simp

/-- Two places of the screen are the same entry only if they are the same. -/
theorem place_inj (hx : x < vgaWidth) (hx' : x' < vgaWidth) (h : y * vgaWidth + x = y' * vgaWidth + x') :
    y = y' ∧ x = x' := by
  unfold vgaWidth at *
  omega

theorem place_lt (hy : y < vgaHeight) (hx : x < vgaWidth) : y * vgaWidth + x < vgaHeight * vgaWidth := by
  unfold vgaHeight vgaWidth at *
  omega

theorem painted_refl (t : Terminal) : Painted t t t.charAt := ⟨⟨_, rfl⟩, fun _ _ => rfl, fun _ _ _ _ => rfl⟩

theorem Painted.trans (h : Painted t t' f) (h' : Painted t' t'' g) : Painted t t'' g := by
  obtain ⟨b, rfl⟩ := h.frame
  obtain ⟨b', rfl⟩ := h'.frame
  exact ⟨⟨b', rfl⟩, fun i hi => (h'.outside i hi).trans (h.outside i hi), h'.inside⟩

theorem Painted.congr (h : Painted t t' f) (hfg : ∀ y < vgaHeight, ∀ x < vgaWidth, f y x = g y x) :
    Painted t t' g :=
  ⟨h.frame, h.outside, fun y hy x hx => (h.inside y hy x hx).trans (hfg y hy x hx)⟩

theorem painted_entry (t : Terminal) (c color : UInt8) (hx : x < vgaWidth) (hy : y < vgaHeight) :
    Painted t (terminalEntry t c color x y) fun y' x' => if y' = y ∧ x' = x then c else t.charAt y' x' := by
  refine ⟨⟨_, rfl⟩, fun i hi => ?_, fun y' _ x' hx' => ?_⟩
  · have hlt := place_lt hy hx
    exact Function.update_of_ne (by omega) _ _
  · dsimp only [Terminal.charAt, terminalEntry]
    by_cases h : y' = y ∧ x' = x
    · rw [if_pos h, h.1, h.2, Function.update_self, vgaEntry_toUInt8]
    · rw [if_neg h, Function.update_of_ne fun e => h (place_inj hx' hx e)]

/-- The first `n` entries of a line, each with a character that the entries before it do not matter for. -/
theorem painted_line {g : Terminal → ℕ → UInt8} {v : ℕ → UInt8} (hy : y < vgaHeight) (hn : n ≤ vgaWidth)
    (hg : ∀ t' x, (∀ y' < vgaHeight, y' ≠ y → ∀ x' < vgaWidth, t'.charAt y' x' = t.charAt y' x') →
      x < vgaWidth → g t' x = v x) :
    Painted t ((List.range n).foldl (fun t x => terminalEntry t (g t x) t.terminalColor x y) t)
      fun y' x' => if y' = y ∧ x' < n then v x' else t.charAt y' x' := by
  induction n with
  | zero => exact (painted_refl t).congr fun y' _ x' _ => (if_neg fun h => Nat.not_lt_zero _ h.2).symm
  | succ n ih =>
    have h := ih (by omega)
    rw [List.range_succ, List.foldl_append, List.foldl_cons, List.foldl_nil]
    set t₁ := (List.range n).foldl (fun t x => terminalEntry t (g t x) t.terminalColor x y) t
    have hval : g t₁ n = v n := hg t₁ n
      (fun y' hy' hne x' hx' => by rw [h.inside y' hy' x' hx', if_neg fun e => hne e.1]) hn
    rw [hval]
    refine (h.trans (painted_entry t₁ (v n) _ hn hy)).congr fun y' hy' x' hx' => ?_
    by_cases he : y' = y ∧ x' = n
    · rw [if_pos he, if_pos ⟨he.1, by omega⟩, he.2]
    · rw [if_neg he, h.inside y' hy' x' hx']
      congr 1
      refine propext ⟨fun e => ⟨e.1, by omega⟩, fun e => ⟨e.1, ?_⟩⟩
      have hne : x' ≠ n := fun e' => he ⟨e.1, e'⟩
      omega

theorem painted_zeroline (t : Terminal) (hy : y < vgaHeight) :
    Painted t (terminalZeroline t y) fun y' x' => if y' = y then 32 else t.charAt y' x' := by
  refine (painted_line (g := fun _ _ => 32) hy le_rfl fun _ _ _ _ => rfl).congr fun y' _ x' hx' => ?_
  congr 1
  exact propext ⟨fun e => e.1, fun e => ⟨e, hx'⟩⟩

theorem painted_copyline (t : Terminal) (hy : y < vgaHeight) (hy' : y' < vgaHeight) (hne : y' ≠ y) :
    Painted t (terminalCopyline t y y') fun z x => if z = y then t.charAt y' x else t.charAt z x := by
  refine (painted_line (g := fun t x => t.charAt y' x) hy le_rfl
    fun t' x h hx => h y' hy' hne x hx).congr fun z _ x hx => ?_
  congr 1
  exact propext ⟨fun e => e.1, fun e => ⟨e, hx⟩⟩

theorem painted_copylines (t : Terminal) (hn : n < vgaHeight) :
    Painted t ((List.range n).foldl (fun t y => terminalCopyline t y (y + 1)) t)
      fun y x => if y < n then t.charAt (y + 1) x else t.charAt y x := by
  induction n with
  | zero => exact (painted_refl t).congr fun y _ x _ => (if_neg (Nat.not_lt_zero _)).symm
  | succ n ih =>
    have h := ih (by omega)
    rw [List.range_succ, List.foldl_append, List.foldl_cons, List.foldl_nil]
    refine (h.trans (painted_copyline _ (by omega) hn (by omega))).congr fun y hy x hx => ?_
    by_cases he : y = n
    · rw [if_pos he, if_pos (by omega), h.inside _ hn x hx, if_neg (by omega), he]
    · rw [if_neg he, h.inside y hy x hx]
      by_cases hlt : y < n
      · rw [if_pos hlt, if_pos (by omega)]
      · rw [if_neg hlt, if_neg (by omega)]

/-- **Scrolling** moves every line up and clears the last one; the row goes up too. -/
theorem painted_scroll (t : Terminal) : ∃ t', Painted t t' (fun y x =>
    if y + 1 < vgaHeight then t.charAt (y + 1) x else 32) ∧
      terminalScroll t = { t' with terminalRow := t.terminalRow - 1 } := by
  have hlast : vgaHeight - 1 < vgaHeight := by decide
  have hcopy := painted_copylines t hlast
  set t₁ := (List.range (vgaHeight - 1)).foldl (fun t y => terminalCopyline t y (y + 1)) t with ht₁
  have hzero := painted_zeroline t₁ hlast
  refine ⟨terminalZeroline t₁ (vgaHeight - 1), (hcopy.trans hzero).congr fun y hy x hx => ?_, ?_⟩
  · by_cases he : y = vgaHeight - 1
    · rw [if_pos he, if_neg (by omega)]
    · rw [if_neg he, hcopy.inside y hy x hx, if_pos (by omega), if_pos (by omega)]
  · obtain ⟨b, hb⟩ := (hcopy.trans hzero).frame
    rw [terminalScroll, ← ht₁, hb]

theorem newline_spec (t : Terminal) (hrow : t.terminalRow < vgaHeight) :
    (terminalNewline t).terminalColumn = 0 ∧
      (terminalNewline t).terminalRow =
        (if t.terminalRow + 1 = vgaHeight then t.terminalRow else t.terminalRow + 1) ∧
      (∀ i, vgaHeight * vgaWidth ≤ i → (terminalNewline t).terminalBuffer i = t.terminalBuffer i) ∧
      ∀ y < vgaHeight, ∀ x < vgaWidth, (terminalNewline t).charAt y x =
        if t.terminalRow + 1 = vgaHeight then (if y + 1 < vgaHeight then t.charAt (y + 1) x else 32)
        else t.charAt y x := by
  have hu : u32 (t.terminalRow + 1) = t.terminalRow + 1 := by
    refine u32_of_lt (Nat.lt_of_le_of_lt (Nat.succ_le_of_lt hrow) (by decide))
  rw [terminalNewline]
  dsimp only
  rw [hu]
  by_cases hfull : t.terminalRow + 1 = vgaHeight
  · simp only [if_pos hfull]
    obtain ⟨t₁, hp, he⟩ := painted_scroll { t with terminalColumn := 0, terminalRow := t.terminalRow + 1 }
    obtain ⟨b, rfl⟩ := hp.frame
    rw [he]
    exact ⟨rfl, rfl, hp.outside, hp.inside⟩
  · simp only [if_neg hfull]
    exact ⟨trivial, trivial, fun _ _ => trivial, fun _ _ _ _ => rfl⟩

/-! ## A character -/

/-- The character is put at the cursor, and the column goes on. -/
def Terminal.advance (t : Terminal) (c : UInt8) : Terminal :=
  { terminalEntry t c t.terminalColor t.terminalColumn t.terminalRow with terminalColumn := t.terminalColumn + 1 }

theorem putchar_newline (t : Terminal) :
    ∃ x y, terminalPutchar t 10 = terminalUpdateCursor (terminalNewline t) x y := ⟨_, _, rfl⟩

theorem putchar_back (t : Terminal) : ∃ x y, terminalPutchar t 8 = terminalUpdateCursor (terminalBack t) x y :=
  ⟨_, _, rfl⟩

theorem putchar_char (t : Terminal) (hnl : c ≠ 10) (hb : c ≠ 8) :
    ∃ x y, terminalPutchar t c = terminalUpdateCursor
      (if t.terminalColumn + 1 = vgaWidth then terminalNewline (t.advance c) else t.advance c) x y := by
  rw [terminalPutchar, if_neg hnl, if_neg hb]
  exact ⟨_, _, rfl⟩

end BulbOS.Tty
