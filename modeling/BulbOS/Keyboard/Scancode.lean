import Mathlib.Data.Int.Notation
import Mathlib.Data.Nat.Notation
import Mathlib.Logic.Function.Basic

/-!
# Scan codes (`keyboard_scancode` in `kernel/drivers/keyboard.c`)

The bytes of a scan code are collected in `keycodes` until they make up a key code. The places of the arrays that
the code reads and writes are kept beside its results, as it computes them: they may be outside of the array. A
lookup outside of a table gives `0` here.
-/

namespace BulbOS.Keyboard

/-- `kb_keycode_t`, and `0` for no key. -/
inductive KbKeycode
  | noKey
  | keyEscape | keyF1 | keyF2 | keyF3 | keyF4 | keyF5 | keyF6 | keyF7 | keyF8 | keyF9 | keyF10 | keyF11
  | keyF12 | key1 | key2 | key3 | key4 | key5 | key6 | key7 | key8 | key9 | key0 | keyA | keyB | keyC | keyD
  | keyE | keyF | keyG | keyH | keyI | keyJ | keyK | keyL | keyM | keyN | keyO | keyP | keyQ | keyR | keyS
  | keyT | keyU | keyV | keyW | keyX | keyY | keyZ | keyTab | keyTilde | keyLalt | keyLshift | keyLctrl
  | keySpace | keyComma | keyPeriod | keySlash | keySemicolon | keyDash | keyApos | keyLsbracket
  | keyCapslock | keyEnter | keyRsbracket | keyBackslash | keyBackspace | keyNumpad1 | keyNumpad2
  | keyNumpad3 | keyNumpad4 | keyNumpad5 | keyNumpad6 | keyNumpad7 | keyNumpad8 | keyNumpad9 | keyNumpad0
  | keyNumpadPeriod | keyNumlock | keyNumpadPlus | keyNumpadDash | keyEqual | keyNumpadStar | keyScrolllock
  | keySearch | keyRalt | keyRctrl | keyPrevtrack | keyFav | keyLgui | keyRefresh | keyDvol | keyMute
  | keyRgui | keyWstop | keyCalc | keyApps | keyUvol | keyWforward | keyPlay | keyPower | keyWback | keyWhome
  | keyStop | keySleep | keyMypc | keyEmail | keyNumpadSlash | keyNexttrack | keyMedia | keyNumpadEnter
  | keyWake | keyEnd | keyDel | keyInsert | keyLeft | keyDown | keyRight | keyUp | keyPdown | keyPup
  | keyHome | keyPrtsc | keyPause | keyRshift
  deriving DecidableEq, Repr

/-- The number of a key; `KEY_ESCAPE` is `1`. -/
def KbKeycode.num (key : KbKeycode) : UInt32 := UInt32.ofNat key.ctorIdx

instance : OfNat KbKeycode 0 := ⟨.noKey⟩

open KbKeycode

/-- `KB_RELEASE_FLAG`. -/
def releaseFlag : UInt32 := (1 : UInt32) <<< 31

def scancodeTable : List KbKeycode := [
  0, keyF9, 0, keyF5, keyF3, keyF1, keyF2, keyF12, 0,                                    -- 0x0-0x8
  keyF10, keyF8, keyF6, keyF4, keyTab, keyTilde, 0, 0,                                   -- 0x9-0x10
  keyLalt, keyLshift, 0, keyLctrl, keyQ, key1, 0, 0, 0,                                  -- 0x11-0x19
  keyZ, keyS, keyA, keyW, key2, 0, 0, keyC, keyX,                                        -- 0x1A-0x22
  keyD, keyE, key4, key3, 0, 0, keySpace, keyV, keyF,                                    -- 0x23-0x2B
  keyT, keyR, key5, 0, 0, keyN, keyB, keyH, keyG,                                        -- 0x2C-0x34
  keyY, key6, 0, 0, 0, keyM, keyJ, keyU, key7, key8,                                     -- 0x35-0x3E
  0, 0, keyComma, keyK, keyI, keyO, key0, key9, 0,                                       -- 0x3F-0x47
  0, keyPeriod, keySlash, keyL, keySemicolon, keyP,                                      -- 0x48-0x4D
  keyDash, 0, 0, 0, keyApos, 0, keyLsbracket, keyEqual,                                  -- 0x4E-0x55
  0, 0, keyCapslock, keyRshift, keyEnter, keyRsbracket,                                  -- 0x56-0x5B
  0, keyBackslash, 0, 0, 0, 0, 0, 0, 0, 0, keyBackspace,                                 -- 0x5C-0x66
  0, 0, keyNumpad1, 0, keyNumpad4, keyNumpad7, 0, 0, 0,                                  -- 0x67-0x6F
  keyNumpad0, keyNumpadPeriod, keyNumpad2, keyNumpad5,                                   -- 0x70-0x73
  keyNumpad6, keyNumpad8, keyEscape, keyNumlock, keyF11,                                 -- 0x74-0x78
  keyNumpadPlus, keyNumpad3, keyNumpadDash,                                              -- 0x79-0x7B
  keyNumpadStar, keyNumpad9, keyScrolllock, 0, 0, 0, 0,                                  -- 0x7C-0x82
  keyF7]                                                                                 -- 0x83

/-- The first entry is `0x10`. -/
def altScancodeTable : List KbKeycode := [
  keySearch, keyRalt, 0, 0, keyRctrl, keyPrevtrack, 0, 0,                                -- 0x10-0x17
  keyFav, 0, 0, 0, 0, 0, 0, keyLgui, keyRefresh, keyDvol,                                -- 0x18-0x21
  0, keyMute, 0, 0, 0, keyRgui, keyWstop, 0, 0, keyCalc,                                 -- 0x22-0x2B
  0, 0, 0, keyApps, keyWforward, 0, keyUvol, 0, keyPlay,                                 -- 0x2C-0x34
  0, 0, keyPower, keyWback, 0, keyWhome, keyStop, 0, 0, 0,                               -- 0x35-0x3E
  keySleep, keyMypc, 0, 0, 0, 0, 0, 0, 0, keyEmail, 0,                                   -- 0x3F-0x49
  keyNumpadSlash, 0, 0, keyNexttrack, 0, 0, keyMedia, 0,                                 -- 0x4A-0x51
  0, 0, 0, 0, 0, 0, 0, 0, keyNumpadEnter, 0, 0, 0, keyWake,                              -- 0x52-0x5E
  0, 0, 0, 0, 0, 0, 0, 0, 0, 0, keyEnd, 0, keyLeft, keyHome,                             -- 0x5F-0x6C
  0, 0, 0, keyInsert, keyDel, keyDown, 0, keyRight, keyUp,                               -- 0x6D-0x75
  0, 0, 0, 0, keyPdown, 0, 0, keyPup]                                                    -- 0x76-0x7D

/-- A place of an array that is read or written. -/
inductive Access
  | keycodes (index : ℕ)
  | table (index : ℤ)
  | altTable (index : ℤ)
  deriving DecidableEq, Repr

/-- The array has the place. -/
def Access.Inside : Access → Prop
  | .keycodes index => index < 8
  | .table index => 0 ≤ index ∧ index < scancodeTable.length
  | .altTable index => 0 ≤ index ∧ index < altScancodeTable.length

def scancodeAt (index : UInt8) : UInt32 × List Access :=
  ((scancodeTable.getD index.toNat 0).num, [.table index.toNat])

/-- The entry at `index - 0x10`. -/
def altScancodeAt (index : UInt8) : UInt32 × List Access :=
  (if index.toNat < 0x10 then 0 else (altScancodeTable.getD (index.toNat - 0x10) 0).num,
    [.altTable (index.toNat - 0x10)])

/-- The static `keycodes` and `len`. -/
structure Scanner where
  keycodes : ℕ → UInt8
  len : ℕ

/-- The first `n` bytes of `keycodes`. -/
def Scanner.bytes (s : Scanner) (n : ℕ) : List UInt8 := (List.range n).map s.keycodes

/-- The key code, before `len = 0`. -/
def keyboardScancodeToKeycode (s : Scanner) : UInt32 × List Access :=
  match s.len with
  | 1 => scancodeAt (s.keycodes 0)
  | 2 =>
    if s.keycodes 0 = 0xE0 then altScancodeAt (s.keycodes 1)
    else if s.keycodes 0 = 0xF0 then
      let (ret, accesses) := scancodeAt (s.keycodes 1)
      (ret ||| releaseFlag, accesses)
    else (0, [])
  | 3 =>
    if s.keycodes 0 = 0xE0 ∧ s.keycodes 1 = 0xF0 then
      let (ret, accesses) := altScancodeAt (s.keycodes 2)
      (ret ||| releaseFlag, accesses)
    else (0, [])
  | 4 => (if s.bytes 4 = [0xE0, 0x12, 0xE0, 0x7C] then keyPrtsc.num else 0, [])
  | 6 => (if s.bytes 6 = [0xE0, 0xF0, 0x7C, 0xE0, 0xF0, 0x12] then keyPrtsc.num ||| releaseFlag else 0, [])
  | 8 => (if s.bytes 8 = [0xE1, 0x14, 0x77, 0xE1, 0xF0, 0x14, 0xF0, 0x77] then keyPause.num else 0, [])
  | _ => (0, [])

/-- The bytes collected so far, `code` the last of them, are not yet a whole scan code. -/
def Scanner.Waits (s : Scanner) (code : UInt8) : Prop :=
  (code = 0xE0 ∨ code = 0xF0 ∨ code = 0xE1) ∨
  -- PAUSE
  (code = 0x14 ∧ (s.len = 2 ∧ s.keycodes 0 = 0xE1 ∨ s.len = 6 ∧ s.keycodes 4 = 0xF0)) ∨
  (code = 0x77 ∧ s.len = 3 ∧ s.keycodes 1 = 0x14) ∨
  -- KEY_PRTSC
  (code = 0x12 ∧ s.len = 2 ∧ s.keycodes 0 = 0xE0) ∨
  -- RELEASE KEY_PRTSC
  (code = 0x7C ∧ s.len = 3 ∧ s.keycodes 0 = 0xE0 ∧ s.keycodes 1 = 0xF0)

instance (s : Scanner) (code : UInt8) : Decidable (s.Waits code) := by
  unfold Scanner.Waits
  infer_instance

/-- What a byte leads to: the variables after it, the argument of `keyboard_handle_keycode` if it is called, and
the places used. -/
structure ScanOut where
  scanner : Scanner
  keycode : Option UInt32
  accesses : List Access

def keyboardScancode (s : Scanner) (code : UInt8) : ScanOut :=
  let index := s.len
  let s := { keycodes := Function.update s.keycodes index code, len := index + 1 }
  if s.Waits code then ⟨s, none, [.keycodes index]⟩
  else
    let (keycode, accesses) := keyboardScancodeToKeycode s
    ⟨{ s with len := 0 }, some keycode, .keycodes index :: accesses⟩

/-- The variables after a stream of bytes, and the calls of `keyboard_handle_keycode`. -/
def scanBytes (s : Scanner) : List UInt8 → Scanner × List UInt32
  | [] => (s, [])
  | code :: codes =>
    let out := keyboardScancode s code
    let (s, keycodes) := scanBytes out.scanner codes
    (s, out.keycode.toList ++ keycodes)

end BulbOS.Keyboard
