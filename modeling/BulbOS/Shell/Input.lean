import BulbOS.Lib.Bytes
import BulbOS.Stdin.Model
import Mathlib.Logic.Function.Basic

/-!
# The line editor of the shell (`shell_input` of `kernel/usr/shell.c`)

* `shellInput`: the loop over the key symbols that are read from stdin;
* `edited`: the line that is left after every backspace; `Room`: it stays shorter than the buffer;
* `Typed`: the buffer holds the line so far; `Typed.char`, `Typed.back`: what a key does to it;
* `shellInputLoop_spec`: the two ways out of the loop; **`shell_input_iff`**: when the buffer holds the line.
-/

namespace BulbOS.Shell

open KLib BulbOS.Stdin

/-- The loop at `i`: the memory and what has been written to stdout when it returns; `none` while it waits. -/
def shellInputLoop (buffer size : ℕ) (mem : Mem) (out : List UInt8) (i : ℕ) :
    List KbKeysym → Option (Mem × List UInt8)
  | [] => if i < size then none else some (mem, out)
  | keysym :: keys =>
    if i < size then
      if keysym.ascii = 0 then shellInputLoop buffer size mem out i keys
      else if keysym.ascii = 10 then some (Function.update mem (buffer + i) 0, out ++ [keysym.ascii])
      else if keysym.ascii = 8 then
        if i = 0 then shellInputLoop buffer size mem out i keys
        else shellInputLoop buffer size mem (out ++ [keysym.ascii]) (i - 1) keys
      else
        shellInputLoop buffer size (Function.update mem (buffer + i) keysym.ascii) (out ++ [keysym.ascii]) (i + 1)
          keys
    else some (mem, out)

/-- `shell_input(buffer, size)` with the key symbols that `SYS_READ` returns one after the other. -/
def shellInput (mem : Mem) (buffer size : ℕ) (keys : List KbKeysym) : Option (Mem × List UInt8) :=
  shellInputLoop buffer size mem [] 0 keys

/-! ## The line -/

/-- A key without a character is ignored, a backspace takes the last character away. -/
def editStep (line : List UInt8) (c : UInt8) : List UInt8 :=
  if c = 0 then line else if c = 8 then line.dropLast else line ++ [c]

/-- The line that is left of the characters. -/
def edited (chars : List UInt8) : List UInt8 := chars.foldl editStep []

def beforeNewline (keys : List KbKeysym) : List UInt8 := (keys.map KbKeysym.ascii).takeWhile (· ≠ 10)

/-- The line is shorter than `size` at every point of the editing. -/
def Room (size : ℕ) (line chars : List UInt8) : Prop :=
  ∀ pre, pre <+: chars → (pre.foldl editStep line).length < size

/-- The buffer holds the text as a string within its `size` bytes, and nothing else has changed. -/
structure HoldsLine (mem₀ mem : Mem) (buffer size : ℕ) (text : List UInt8) : Prop where
  chars : ∀ i (h : i < text.length), mem (buffer + i) = text[i]
  noNul : 0 ∉ text
  nul : mem (buffer + text.length) = 0
  fits : text.length < size
  frame : ∀ a, a < buffer ∨ buffer + size ≤ a → mem a = mem₀ a

/-- The buffer holds the text so far, with no NUL after it yet. -/
structure Typed (mem₀ mem : Mem) (buffer size : ℕ) (text : List UInt8) : Prop where
  chars : ∀ i (h : i < text.length), mem (buffer + i) = text[i]
  noNul : 0 ∉ text
  fits : text.length ≤ size
  frame : ∀ a, a < buffer ∨ buffer + size ≤ a → mem a = mem₀ a

variable {mem₀ mem mem' : Mem} {buffer size i : ℕ} {line chars : List UInt8} {keys : List KbKeysym} {c : UInt8}
  {out out' : List UInt8}

theorem stdinKeysymToChar_ascii (k : KbKeysym) (h : k.ascii = 0) :
    (stdinKeysymToChar k).ascii = 0 ∨ (stdinKeysymToChar k).ascii = 8 ∨ (stdinKeysymToChar k).ascii = 10 ∨
      32 ≤ (stdinKeysymToChar k).ascii ∧ (stdinKeysymToChar k).ascii < 127 := by
  have hletter : ∀ a n b : ℕ, 32 + b ≤ a + n → a + n < 127 + b → 32 ≤ UInt8.ofNat (a + n - b) ∧
      UInt8.ofNat (a + n - b) < 127 := by
    intro a n b hge hlt
    rw [UInt8.le_iff_toNat_le, UInt8.lt_iff_toNat_lt, UInt8.toNat_ofNat_of_lt' (show _ < 256 by omega)]
    exact ⟨show 32 ≤ a + n - b by omega, show a + n - b < 127 by omega⟩
  unfold stdinKeysymToChar
  dsimp only
  split_ifs with h₁ h₂
  · have hge := h₁.1
    have hle := h₁.2
    unfold symLowerA symLowerZ at *
    exact .inr (.inr (.inr (hletter 97 _ 24 (by omega) (by omega))))
  · have hge := h₂.1
    have hle := h₂.2
    unfold symUpperA symUpperZ at *
    exact .inr (.inr (.inr (hletter 65 _ (24 + 2 ^ 21) (by omega) (by omega))))
  all_goals first
    | exact .inl h
    | exact .inr (by dsimp only; decide)

theorem room_nil : Room size line [] ↔ line.length < size := by
  constructor
  · exact fun h => h [] List.prefix_rfl
  · intro h pre hpre
    rw [List.prefix_nil.mp hpre]
    exact h

theorem room_cons : Room size line (c :: chars) ↔ line.length < size ∧ Room size (editStep line c) chars := by
  constructor
  · intro h
    exact ⟨h [] (List.nil_prefix), fun pre hpre => h (c :: pre) ((List.prefix_cons_inj c).mpr hpre)⟩
  · rintro ⟨hlen, h⟩ pre hpre
    rcases List.prefix_cons_iff.mp hpre with rfl | ⟨pre', rfl, hpre'⟩
    · exact hlen
    · exact h pre' hpre'

/-! ## One key -/

theorem Typed.char (h : Typed mem₀ mem buffer size line) (hlen : line.length < size) (hc : c ≠ 0) :
    Typed mem₀ (Function.update mem (buffer + line.length) c) buffer size (line ++ [c]) := by
  refine ⟨fun i hi => ?_, ?_, ?_, fun a ha => ?_⟩
  · rw [List.length_append, List.length_singleton] at hi
    by_cases he : i = line.length
    · subst he
      simp
    · rw [Function.update_of_ne (by omega), List.getElem_append_left (by omega)]
      exact h.chars i (by omega)
  · rw [List.mem_append, List.mem_singleton, not_or]
    exact ⟨h.noNul, hc.symm⟩
  · rw [List.length_append, List.length_singleton]
    exact hlen
  · rw [Function.update_of_ne (by omega)]
    exact h.frame a ha

theorem Typed.back (h : Typed mem₀ mem buffer size line) : Typed mem₀ mem buffer size line.dropLast := by
  refine ⟨fun i hi => ?_, fun h0 => h.noNul ((List.dropLast_sublist line).subset h0), ?_, h.frame⟩
  · rw [List.getElem_dropLast]
    exact h.chars i _
  · rw [List.length_dropLast]
    exact (Nat.sub_le _ _).trans h.fits

theorem Typed.newline (h : Typed mem₀ mem buffer size line) (hlen : line.length < size) :
    HoldsLine mem₀ (Function.update mem (buffer + line.length) 0) buffer size line := by
  refine ⟨fun i hi => ?_, h.noNul, Function.update_self .., hlen, fun a ha => ?_⟩
  · rw [Function.update_of_ne (by omega)]
    exact h.chars i hi
  · rw [Function.update_of_ne (by omega)]
    exact h.frame a ha

theorem Typed.full (h : Typed mem₀ mem buffer size line) (hlen : line.length = size) (line' : List UInt8) :
    ¬ HoldsLine mem₀ mem buffer size line' := by
  intro hl
  have hfits := hl.fits
  have hchar := h.chars line'.length (by omega)
  rw [hl.nul] at hchar
  exact h.noNul (hchar ▸ List.getElem_mem _)

/-! ## All keys -/

theorem beforeNewline_cons_of_ne {key : KbKeysym} (h : key.ascii ≠ 10) :
    beforeNewline (key :: keys) = key.ascii :: beforeNewline keys := by
  simp [beforeNewline, h]

theorem beforeNewline_cons_newline {key : KbKeysym} (h : key.ascii = 10) : beforeNewline (key :: keys) = [] := by
  simp [beforeNewline, h]

/-- The two ways out of the loop: the newline, with the edited line in the buffer, or the full buffer. -/
def Returned (mem₀ mem' : Mem) (buffer size : ℕ) (line chars : List UInt8) : Prop :=
  Room size line chars ∧ HoldsLine mem₀ mem' buffer size (chars.foldl editStep line) ∨
    ¬ Room size line chars ∧ ∃ line', line'.length = size ∧ Typed mem₀ mem' buffer size line'

theorem Returned.cons (hlen : line.length < size) (h : Returned mem₀ mem' buffer size (editStep line c) chars) :
    Returned mem₀ mem' buffer size line (c :: chars) := by
  have hroom : Room size line (c :: chars) ↔ Room size (editStep line c) chars :=
    room_cons.trans (and_iff_right hlen)
  rwa [Returned, hroom, List.foldl_cons]

theorem Typed.stop (h : Typed mem₀ mem buffer size line) (hlen : ¬ line.length < size) (chars : List UInt8) :
    Returned mem₀ mem buffer size line chars :=
  .inr ⟨fun hr => hlen (hr [] List.nil_prefix), line, le_antisymm h.fits (not_lt.mp hlen), h⟩

/-- **The loop**, wherever it is. -/
theorem shellInputLoop_spec (h : Typed mem₀ mem buffer size line)
    (hrun : shellInputLoop buffer size mem out line.length keys = some (mem', out')) :
    Returned mem₀ mem' buffer size line (beforeNewline keys) := by
  induction keys generalizing mem out line with
  | nil =>
    rw [shellInputLoop] at hrun
    by_cases hlen : line.length < size
    · rw [if_pos hlen] at hrun
      cases hrun
    · rw [if_neg hlen] at hrun
      cases hrun
      exact h.stop hlen _
  | cons key keys ih =>
    rw [shellInputLoop] at hrun
    by_cases hlen : line.length < size
    · rw [if_pos hlen] at hrun
      by_cases h0 : key.ascii = 0
      · have hline : editStep line key.ascii = line := if_pos h0
        rw [if_pos h0] at hrun
        rw [beforeNewline_cons_of_ne (by rw [h0]; decide)]
        exact .cons hlen (hline.symm ▸ ih h hrun)
      rw [if_neg h0] at hrun
      by_cases hnl : key.ascii = 10
      · rw [if_pos hnl] at hrun
        cases hrun
        rw [beforeNewline_cons_newline hnl]
        exact .inl ⟨room_nil.mpr hlen, h.newline hlen⟩
      rw [if_neg hnl] at hrun
      rw [beforeNewline_cons_of_ne hnl]
      refine .cons hlen ?_
      by_cases hb : key.ascii = 8
      · have hline : editStep line key.ascii = line.dropLast := by rw [editStep, if_neg h0, if_pos hb]
        rw [if_pos hb] at hrun
        rw [hline]
        by_cases hempty : line.length = 0
        · rw [if_pos hempty] at hrun
          rw [List.length_eq_zero_iff.mp hempty] at h hrun ⊢
          exact ih h hrun
        · rw [if_neg hempty, ← List.length_dropLast] at hrun
          exact ih h.back hrun
      · have hline : editStep line key.ascii = line ++ [key.ascii] := by rw [editStep, if_neg h0, if_neg hb]
        rw [if_neg hb] at hrun
        rw [hline]
        have hlen' : (line ++ [key.ascii]).length = line.length + 1 := List.length_append
        rw [← hlen'] at hrun
        exact ih (h.char hlen h0) hrun
    · rw [if_neg hlen] at hrun
      cases hrun
      exact h.stop hlen _

theorem typed_nil (mem : Mem) (buffer size : ℕ) : Typed mem mem buffer size [] :=
  ⟨fun _ hi => absurd hi (Nat.not_lt_zero _), List.not_mem_nil, Nat.zero_le _, fun _ _ => rfl⟩

/-- Whatever is typed, no byte outside of the buffer changes. -/
theorem shellInput_frame (h : shellInput mem buffer size keys = some (mem', out)) (a : ℕ)
    (ha : a < buffer ∨ buffer + size ≤ a) : mem' a = mem a := by
  rcases shellInputLoop_spec (typed_nil mem buffer size) h with ⟨-, hl⟩ | ⟨-, line, -, ht⟩
  · exact hl.frame a ha
  · exact ht.frame a ha

/-- **The line editor** leaves the edited line, cut to what fits, in the buffer exactly when the line is shorter
than the buffer all the time. -/
theorem shell_input_iff (h : shellInput mem buffer size keys = some (mem', out)) :
    HoldsLine mem mem' buffer size ((edited (beforeNewline keys)).take (size - 1)) ↔
      Room size [] (beforeNewline keys) := by
  rcases shellInputLoop_spec (typed_nil mem buffer size) h with ⟨hroom, hl⟩ | ⟨hroom, line, hlen, ht⟩
  · refine iff_of_true ?_ hroom
    have hcut := List.take_of_length_le (Nat.le_sub_one_of_lt hl.fits)
    exact hcut.symm ▸ hl
  · exact iff_of_false (ht.full hlen _) hroom

/-- `ab`, a backspace, `c` and a newline. -/
def fewKeys : List KbKeysym := [⟨97, 0, 24⟩, ⟨98, 0, 25⟩, ⟨8, 0, 67⟩, ⟨99, 0, 26⟩, ⟨10, 0, 64⟩]

theorem shell_input_few : ∃ mem', shellInput (fun _ => 0) 64 4 fewKeys = some (mem', [97, 98, 8, 99, 10]) ∧
    HoldsLine (fun _ => 0) mem' 64 4 [97, 99] := by
  have hrun : shellInput (fun _ => 0) 64 4 fewKeys = some (_, [97, 98, 8, 99, 10]) := rfl
  refine ⟨_, hrun, (shell_input_iff hrun).mpr ?_⟩
  change Room 4 [] [97, 98, 8, 99]
  simp [room_cons, room_nil, editStep]

/-- With letters up to the end of the buffer the loop returns without a newline. -/
theorem shellInputLoop_full {key : KbKeysym} (hkey : key.ascii ≠ 0 ∧ key.ascii ≠ 10 ∧ key.ascii ≠ 8) (n : ℕ)
    (h : Typed mem₀ mem buffer (line.length + n) line) : ∃ mem' out' line',
      shellInputLoop buffer (line.length + n) mem out line.length (List.replicate n key) = some (mem', out') ∧
        line'.length = line.length + n ∧ Typed mem₀ mem' buffer (line.length + n) line' := by
  induction n generalizing mem out line with
  | zero => exact ⟨mem, out, line, if_neg (lt_irrefl _), rfl, h⟩
  | succ n ih =>
    have hlen : (line ++ [key.ascii]).length = line.length + 1 := List.length_append
    have hsize : line.length + (n + 1) = (line ++ [key.ascii]).length + n := by omega
    have hchar := h.char (by omega) hkey.1
    rw [List.replicate_succ, shellInputLoop, if_pos (by omega), if_neg hkey.1, if_neg hkey.2.1, if_neg hkey.2.2,
      ← hlen, hsize]
    rw [hsize] at hchar
    exact ih hchar

/-- 512 letters in the 512 bytes of `shell_main`. -/
theorem shell_input_full : ∃ mem' out,
    shellInput (fun _ => 0) 4096 512 (List.replicate 512 ⟨97, 0, 24⟩) = some (mem', out) ∧
      ¬ HoldsLine (fun _ => 0) mem' 4096 512
        ((edited (beforeNewline (List.replicate 512 ⟨97, 0, 24⟩))).take (512 - 1)) := by
  obtain ⟨mem', out, line, hrun, hlen, ht⟩ := @shellInputLoop_full _ _ _ [] [] ⟨97, 0, 24⟩ (by decide) 512
    (typed_nil (fun _ => 0) 4096 512)
  exact ⟨mem', out, hrun, ht.full hlen _⟩

end BulbOS.Shell
