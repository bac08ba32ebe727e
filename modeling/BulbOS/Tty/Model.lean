import BulbOS.Lib.Bytes
import Mathlib.Logic.Function.Basic

/-!
# The terminal (`kernel/io/tty.c`)

The screen is 25 lines of 80 entries, one after the other in the memory at `terminal_buffer`; an entry has a
character in its low byte and a colour in its high one. The places are relative to `terminal_buffer`.
-/

namespace BulbOS.Tty

open KLib

/-- `VGA_WIDTH` and `VGA_HEIGHT`. -/
def vgaWidth : ℕ := 80
def vgaHeight : ℕ := 25

def vgaEntryColor (foreground background : UInt8) : UInt8 := foreground ||| background <<< 4

def vgaEntry (character color : UInt8) : UInt16 := character.toUInt16 ||| color.toUInt16 <<< 8

/-- The static variables, the memory from `terminal_buffer` on, and the position of the cursor in hardware. -/
structure Terminal where
  terminalRow : ℕ
  terminalColumn : ℕ
  terminalColor : UInt8
  terminalBuffer : ℕ → UInt16
  cursorPos : UInt16

variable (t : Terminal)

def terminalEntry (c color : UInt8) (x y : ℕ) : Terminal :=
  { t with terminalBuffer := Function.update t.terminalBuffer (y * vgaWidth + x) (vgaEntry c color) }

/-- The entries of a line, from the first to the last. -/
def terminalZeroline (y : ℕ) : Terminal :=
  (List.range vgaWidth).foldl (fun t x => terminalEntry t 32 t.terminalColor x y) t

/-- `terminal_color` is `VGA_WHITE` on `VGA_BLACK`. -/
def terminalInitialize : Terminal :=
  (List.range vgaHeight).foldl terminalZeroline { t with terminalColor := vgaEntryColor 15 0 }

/-- The character at a place. -/
def Terminal.charAt (y x : ℕ) : UInt8 := (t.terminalBuffer (y * vgaWidth + x)).toUInt8

def terminalCopyline (dstY srcY : ℕ) : Terminal :=
  (List.range vgaWidth).foldl (fun t x => terminalEntry t (t.charAt srcY x) t.terminalColor x dstY) t

def terminalScroll : Terminal :=
  let t := (List.range (vgaHeight - 1)).foldl (fun t y => terminalCopyline t y (y + 1)) t
  let t := terminalZeroline t (vgaHeight - 1)
  { t with terminalRow := t.terminalRow - 1 }

def terminalNewline : Terminal :=
  let t := { t with terminalColumn := 0, terminalRow := u32 (t.terminalRow + 1) }
  if t.terminalRow = vgaHeight then terminalScroll t else t

/-- The row is unsigned: below `0` comes `2 ^ 32 - 1`. -/
def terminalBack : Terminal :=
  if t.terminalColumn = 0 then
    let t := terminalEntry t 32 t.terminalColor t.terminalColumn t.terminalRow
    { t with
      terminalRow := if t.terminalRow = 0 then 2 ^ 32 - 1 else t.terminalRow - 1
      terminalColumn := vgaWidth - 1 }
  else
    let t := { t with terminalColumn := t.terminalColumn - 1 }
    terminalEntry t 32 t.terminalColor t.terminalColumn t.terminalRow

/-- `x` and `y` are bytes. -/
def terminalUpdateCursor (x y : ℕ) : Terminal :=
  { t with cursorPos := UInt16.ofNat (y % 256 * vgaWidth + x % 256) }

def terminalPutchar (c : UInt8) : Terminal :=
  let t :=
    if c = 10 then terminalNewline t
    else if c = 8 then terminalBack t
    else
      let t := terminalEntry t c t.terminalColor t.terminalColumn t.terminalRow
      let t := { t with terminalColumn := t.terminalColumn + 1 }
      if t.terminalColumn = vgaWidth then terminalNewline t else t
  terminalUpdateCursor t t.terminalColumn t.terminalRow

def terminalWrite (data : List UInt8) : Terminal := data.foldl terminalPutchar t

end BulbOS.Tty
