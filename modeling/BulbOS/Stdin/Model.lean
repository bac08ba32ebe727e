import BulbOS.Task.Away
import Mathlib.Data.List.Basic

/-!
# Key symbols and the stdin task (`kernel/drivers/keyboard.c`, `kernel/io/stdio_handler.c`)

The keyboard interrupt hands a key symbol over through the variable `last_code` and switches to the stdin
task, which writes its four bytes to the stdin pipe and blocks. An event is an interrupt, or what the
running task does up to the next point where an interrupt matters: the stdin task reads `last_code` in
`stdin_keysym_to_char` and once for every byte it stores. Whatever else happens to the scheduler, by other
tasks, by the timer and by the locks inside of `pipe_write`, is a `SchedOp`.
-/

namespace BulbOS.Stdin

open BulbOS.Task

/-! ## The keyboard -/

def kbShiftFlag : UInt32 := (1 : UInt32) <<< 21
def kbCtrlFlag : UInt32 := (1 : UInt32) <<< 20
def kbAltFlag : UInt32 := (1 : UInt32) <<< 19
def kbAltgrFlag : UInt32 := (1 : UInt32) <<< 18
def kbGuiFlag : UInt32 := (1 : UInt32) <<< 17
def kbReleaseFlag : UInt32 := (1 : UInt32) <<< 31

def keyLalt : UInt32 := 52
def keyLshift : UInt32 := 53
def keyLctrl : UInt32 := 54
def keyCapslock : UInt32 := 63
def keyRalt : UInt32 := 86
def keyRctrl : UInt32 := 87
def keyLgui : UInt32 := 90
def keyRshift : UInt32 := 125

/-- `kb_flags`, each `0` or `1`, and the static `hold` of `keyboard_handle_shift`; `fn_flag` is never used. -/
structure KbFlags where
  shiftFlag : Bool
  ctrlFlag : Bool
  altFlag : Bool
  altgrFlag : Bool
  guiFlag : Bool
  hold : Bool
  deriving DecidableEq

/-- `kb_keysym_t`. -/
structure KbKeysym where
  ascii : UInt8
  flags : UInt8
  keysym : UInt16
  deriving DecidableEq

def keyboardHandleShift (kbFlags : KbFlags) (isRelease : Bool) : KbFlags :=
  if kbFlags.hold = isRelease then { kbFlags with shiftFlag := !kbFlags.shiftFlag, hold := !kbFlags.hold }
  else kbFlags

/-- The new flags, and the key symbol that is sent to `stdin_send_code`. -/
def keyboardHandleKeycode (kbFlags : KbFlags) (code : UInt32) : KbFlags × Option KbKeysym :=
  let isRelease := decide (code >>> 31 ≠ 0)
  let flaglessCode := code &&& ~~~kbReleaseFlag
  if flaglessCode = keyLshift ∨ flaglessCode = keyRshift then (keyboardHandleShift kbFlags isRelease, none)
  else if flaglessCode = keyCapslock then
    (if isRelease then kbFlags else { kbFlags with shiftFlag := !kbFlags.shiftFlag }, none)
  else if flaglessCode = keyLctrl ∨ flaglessCode = keyRctrl then ({ kbFlags with ctrlFlag := !isRelease }, none)
  else if flaglessCode = keyLalt then ({ kbFlags with altFlag := !isRelease }, none)
  else if flaglessCode = keyRalt then ({ kbFlags with altgrFlag := !isRelease }, none)
  else if flaglessCode = keyLgui then ({ kbFlags with guiFlag := !isRelease }, none)
  else if isRelease then (kbFlags, none)
  else
    let flaglessCode := if kbFlags.shiftFlag then flaglessCode ||| kbShiftFlag else flaglessCode
    let flaglessCode := if kbFlags.ctrlFlag then flaglessCode ||| kbCtrlFlag else flaglessCode
    let flaglessCode := if kbFlags.altFlag then flaglessCode ||| kbAltFlag else flaglessCode
    let flaglessCode := if kbFlags.altgrFlag then flaglessCode ||| kbAltgrFlag else flaglessCode
    let flaglessCode := if kbFlags.guiFlag then flaglessCode ||| kbGuiFlag else flaglessCode
    (kbFlags, some ⟨0, ((flaglessCode >>> 16) &&& 0xFF).toUInt8, (flaglessCode &&& 0xFFFF).toUInt16⟩)

/-! ## The stdin task -/

/-- `SYM_a`, `SYM_z`, `SYM_A` and `SYM_Z`. -/
def symLowerA : ℕ := 24
def symLowerZ : ℕ := 49
def symUpperA : ℕ := 24 + 2 ^ 21
def symUpperZ : ℕ := 49 + 2 ^ 21

def symSpace : ℕ := 55
def symPeriod : ℕ := 57
def symSlash : ℕ := 58
def symDash : ℕ := 60
def symEnter : ℕ := 64
def symBackspace : ℕ := 67

/-- `code_int`. -/
def KbKeysym.codeInt (k : KbKeysym) : ℕ := (k.flags.toNat <<< 16) ||| k.keysym.toNat

/-- The new `last_code`. -/
def stdinKeysymToChar (lastCode : KbKeysym) : KbKeysym :=
  let codeInt := lastCode.codeInt
  if codeInt ≥ symLowerA ∧ codeInt ≤ symLowerZ then
    { lastCode with ascii := UInt8.ofNat ('a'.toNat + codeInt - symLowerA) }
  else if codeInt ≥ symUpperA ∧ codeInt ≤ symUpperZ then
    { lastCode with ascii := UInt8.ofNat ('A'.toNat + codeInt - symUpperA) }
  else if codeInt = symSlash then { lastCode with ascii := '/'.toUInt8 }
  else if codeInt = symPeriod then { lastCode with ascii := '.'.toUInt8 }
  else if codeInt = symSpace then { lastCode with ascii := ' '.toUInt8 }
  else if codeInt = symDash then { lastCode with ascii := '-'.toUInt8 }
  else if codeInt = symEnter then { lastCode with ascii := '\n'.toUInt8 }
  else if codeInt = symBackspace then { lastCode with ascii := 8 }
  else lastCode

/-- The bytes of a `kb_keysym_t` in memory. -/
def keysymBytes (k : KbKeysym) : List UInt8 := [k.ascii, k.flags, k.keysym.toUInt8, (k.keysym >>> 8).toUInt8]

/-- Where the stdin task is in the loop of `stdin_handler`. -/
inductive StdinPc
  /-- In `task_block`, or not started yet. -/
  | blocked
  /-- Before `stdin_keysym_to_char`. -/
  | awake
  /-- In `file_write`, with `i` bytes stored. -/
  | writing (i : ℕ)
  /-- `file_write` stores no more bytes. -/
  | written
  deriving DecidableEq

/-- The static variables, and where the stdin task is. Of the past: the symbols sent, the bytes stored in
the pipe, and whether a symbol was sent since the stdin task last came out of `task_block`. -/
structure StdinState where
  sched : Sched
  stdinTask : ℕ
  kbFlags : KbFlags
  lastCode : KbKeysym
  pc : StdinPc
  sent : List KbKeysym
  written : List UInt8
  named : Bool

inductive StdinEvent
  /-- The keyboard interrupt, in `keyboard_handle_keycode`. -/
  | key (code : UInt32)
  /-- The stdin task comes out of `task_block`, or starts. -/
  | resume
  | convert
  /-- `pipe->buffer[pipe->b_write++ % PIPE_SIZE] = ((char*)addr)[i]`. -/
  | store
  /-- `pipe_unbuf_write` gives up: the pipe is full, and its reading end closed. -/
  | fail
  /-- `task_block(BLOCKED)`. -/
  | block
  | sched (op : SchedOp)

def stdinSendCode (s : StdinState) (keycode : KbKeysym) : Option StdinState :=
  (taskForceSwitch s.sched s.stdinTask).map fun sched => { s with lastCode := keycode, sched := sched }

/-- What the stdin task does when it runs. -/
def stdinHandler (s : StdinState) : StdinPc → StdinEvent → Option StdinState
  | .blocked, .resume => some { s with pc := .awake, named := false }
  | .awake, .convert => some { s with lastCode := stdinKeysymToChar s.lastCode, pc := .writing 0 }
  | .writing i, .store => some { s with
      written := s.written ++ [(keysymBytes s.lastCode).getD i 0]
      pc := if i + 1 < 4 then .writing (i + 1) else .written }
  | .writing _, .fail => some { s with pc := .written }
  | .written, .block => (taskBlock s.sched .blocked).map fun sched => { s with sched := sched, pc := .blocked }
  | _, _ => none

def stdinStep (s : StdinState) : StdinEvent → Option StdinState
  | .key code =>
    match keyboardHandleKeycode s.kbFlags code with
    | (kbFlags, none) => some { s with kbFlags := kbFlags }
    | (kbFlags, some keysym) =>
      stdinSendCode { s with kbFlags := kbFlags, sent := s.sent ++ [keysym], named := true } keysym
  | .sched op => (schedStep s.sched op).map fun sched => { s with sched := sched }
  | event => if s.sched.currentTask = s.stdinTask then stdinHandler s s.pc event else none

end BulbOS.Stdin
