import BulbOS.Libc.Compare

/-!
# The commands of the shell (`shell_parse` of `kernel/usr/shell.c`)

The code looks at the bytes of the buffer, up to the NUL of the line.

* `shellParse`: the system calls that are made for the line in the buffer;
* `Command`, `parseLine`: what a line means; `Command.calls`: its calls;
* `startsWith_iff`, `no_argument_iff`: the tests of the code; **`shellParse_eq`**: the calls are those of the line.
-/

namespace BulbOS.Shell

open KLib BulbOS.Libc

/-- A system call of the shell: a text for stdout, or a call on a path or a file. -/
inductive Call
  | write (text : List UInt8)
  | chdir (path : List UInt8)
  | readdir (path : List UInt8)
  | openFile (path : List UInt8)
  | fstat (fd : ℤ)
  /-- `stat->size` bytes. -/
  | read (fd : ℤ)
  /-- What was read. -/
  | writeBuf
  | close (fd : ℤ)
  deriving DecidableEq, Repr

/-- What the kernel has for the shell: `cur_dir->path`, the names that `SYS_READDIR` gives, and what `SYS_OPEN`
returns. -/
structure Env where
  dir : List UInt8
  entries : List (List UInt8)
  openFile : List UInt8 → ℤ

/-- A string literal. -/
def literal (s : String) : List UInt8 := s.toList.map Char.toUInt8

variable {m : Mem} {buffer a : ℕ} {line : List UInt8}

/-! ## The code -/

/-- The string at an address. -/
def cString (m : Mem) (a : ℕ) : Option (List UInt8) := (strlen m a).map (bytesFrom m a)

/-- `!memcmp(buffer, s, size)`. -/
def startsWith (m : Mem) (buffer : ℕ) (s : List UInt8) : Prop :=
    memcmp m buffer (storeBytes (fun _ => 0) 0 s) 0 s.length = 0

instance (m : Mem) (buffer : ℕ) (s : List UInt8) : Decidable (startsWith m buffer s) :=
  inferInstanceAs (Decidable (_ = _))

def shellCd (m : Mem) (buffer : ℕ) : Option (List Call) :=
  if m (buffer + 2) = 0 ∨ m (buffer + 3) = 0 then some []
  else do return [.chdir (← cString m (buffer + 3))]

def shellLs (env : Env) : List Call :=
  [.readdir [], .write [10]] ++ (env.entries.flatMap fun name => [.write name, .write [10]]) ++ [.write [10]]

def shellEcho (m : Mem) (buffer : ℕ) : Option (List Call) :=
  if m (buffer + 4) = 0 ∨ m (buffer + 5) = 0 then some []
  else do return [.write (← cString m (buffer + 5)), .write [10]]

/-- After the message, the calls are made with the file descriptor `-1`. -/
def shellCat (env : Env) (m : Mem) (buffer : ℕ) : Option (List Call) :=
  if m (buffer + 3) = 0 ∨ m (buffer + 4) = 0 then some []
  else do
    let path ← cString m (buffer + 4)
    let fd := env.openFile path
    return [.openFile path] ++ (if fd = -1 then [.write (literal "file not found\n")] else []) ++
      [.fstat fd, .read fd, .writeBuf, .close fd]

def shellInputError (m : Mem) (buffer : ℕ) : Option (List Call) := do
  return [.write (literal "no known command \""), .write (← cString m buffer), .write (literal "\"\n")]

def shellParse (env : Env) (m : Mem) (buffer : ℕ) : Option (List Call) :=
  if m buffer = 0 then some []
  else if m buffer = 'l'.toUInt8 then
    if startsWith m buffer (literal "ls") then some (shellLs env) else shellInputError m buffer
  else if m buffer = 'e'.toUInt8 then
    if startsWith m buffer (literal "echo") then shellEcho m buffer else shellInputError m buffer
  else if m buffer = 'c'.toUInt8 then
    if startsWith m buffer (literal "cd") then shellCd m buffer
    else if startsWith m buffer (literal "cat") then shellCat env m buffer
    else shellInputError m buffer
  else shellInputError m buffer

/-! ## Lines -/

/-- What a line means; an argument is what follows the name and one character. -/
inductive Command
  | nothing
  | ls
  | echo (text : List UInt8)
  | cd (path : List UInt8)
  | cat (path : List UInt8)
  | unknown (line : List UInt8)
  deriving DecidableEq, Repr

def parseLine (line : List UInt8) : Command :=
  if line = [] then .nothing
  else if literal "ls" <+: line then .ls
  else if literal "echo" <+: line then .echo (line.drop 5)
  else if literal "cd" <+: line then .cd (line.drop 3)
  else if literal "cat" <+: line then .cat (line.drop 4)
  else .unknown line

/-- Commands without their argument do nothing. -/
def Command.calls (env : Env) : Command → List Call
  | .nothing => []
  | .ls => shellLs env
  | .echo text => if text = [] then [] else [.write text, .write [10]]
  | .cd path => if path = [] then [] else [.chdir path]
  | .cat path =>
    if path = [] then []
    else [.openFile path] ++
      (if env.openFile path = -1 then [.write (literal "file not found\n")] else []) ++
      [.fstat (env.openFile path), .read (env.openFile path), .writeBuf, .close (env.openFile path)]
  | .unknown line => [.write (literal "no known command \""), .write line, .write (literal "\"\n")]

/-! ## The code does what the line means -/

theorem startsWith_iff (h : StringAt m buffer line) {s : List UInt8} (hs : 0 ∉ s) :
    startsWith m buffer s ↔ s <+: line := by
  rw [startsWith, memcmp_order, order_eq_zero_iff, bytesFrom_storeBytes le_rfl, List.take_length]
  exact h.bytesFrom_eq_iff hs

theorem cString_eq (h : StringAt m a line) (hlen : line.length < 2 ^ 32) : cString m a = some line := by
  rw [cString, strlen_eq h hlen, Option.map_some, bytesFrom_eq rfl h.chars]

theorem no_argument_iff (h : StringAt m a line) {n : ℕ} (hn : n ≤ line.length) :
    m (a + n) = 0 ∨ m (a + (n + 1)) = 0 ↔ line.drop (n + 1) = [] := by
  rw [List.drop_eq_nil_iff, h.nul_iff hn]
  by_cases he : line.length = n
  · exact iff_of_true (.inl he) (by omega)
  · rw [h.nul_iff (by omega), or_iff_right he]
    omega

/-- **`shell_parse`** makes the calls that the line means, whatever lies behind the line. -/
theorem shellParse_eq (env : Env) (h : StringAt m buffer line) (hlen : line.length < 2 ^ 32) :
    shellParse env m buffer = some ((parseLine line).calls env) := by
  have hls : startsWith m buffer (literal "ls") ↔ literal "ls" <+: line := startsWith_iff h (by decide)
  have hecho : startsWith m buffer (literal "echo") ↔ literal "echo" <+: line := startsWith_iff h (by decide)
  have hcd : startsWith m buffer (literal "cd") ↔ literal "cd" <+: line := startsWith_iff h (by decide)
  have hcat : startsWith m buffer (literal "cat") ↔ literal "cat" <+: line := startsWith_iff h (by decide)
  have herror : shellInputError m buffer = some ((Command.unknown line).calls env) := by
    rw [shellInputError, cString_eq h hlen]
    rfl
  have hdrop : ∀ n ≤ line.length, cString m (buffer + n) = some (line.drop n) := fun n hn =>
    cString_eq (h.drop hn) (by rw [List.length_drop]; omega)
  cases line with
  | nil => exact if_pos h.nul
  | cons c rest =>
    obtain ⟨hc, hc₀⟩ := h.head
    have hnols : c ≠ 'l'.toUInt8 → ¬ literal "ls" <+: c :: rest :=
      fun hne hp => hne (List.cons_prefix_cons.mp hp).1.symm
    have hnoecho : c ≠ 'e'.toUInt8 → ¬ literal "echo" <+: c :: rest :=
      fun hne hp => hne (List.cons_prefix_cons.mp hp).1.symm
    have hnocd : c ≠ 'c'.toUInt8 → ¬ literal "cd" <+: c :: rest :=
      fun hne hp => hne (List.cons_prefix_cons.mp hp).1.symm
    have hnocat : c ≠ 'c'.toUInt8 → ¬ literal "cat" <+: c :: rest :=
      fun hne hp => hne (List.cons_prefix_cons.mp hp).1.symm
    rw [shellParse, hc, if_neg hc₀, parseLine, if_neg (List.cons_ne_nil c rest)]
    by_cases hl : c = 'l'.toUInt8
    · subst hl
      rw [if_pos rfl]
      by_cases hp : literal "ls" <+: 'l'.toUInt8 :: rest
      · rw [if_pos (hls.mpr hp), if_pos hp]
        rfl
      · rw [if_neg (mt hls.mp hp), if_neg hp, if_neg (hnoecho (by decide)), if_neg (hnocd (by decide)),
          if_neg (hnocat (by decide)), herror]
    rw [if_neg hl, if_neg (hnols hl)]
    by_cases he : c = 'e'.toUInt8
    · subst he
      rw [if_pos rfl]
      by_cases hp : literal "echo" <+: 'e'.toUInt8 :: rest
      · have hn : 4 ≤ ('e'.toUInt8 :: rest).length := hp.length_le
        rw [if_pos (hecho.mpr hp), if_pos hp, shellEcho, Command.calls]
        by_cases harg : ('e'.toUInt8 :: rest).drop 5 = []
        · rw [if_pos ((no_argument_iff h hn).mpr harg), if_pos harg]
        · rw [if_neg (mt (no_argument_iff h hn).mp harg), if_neg harg,
            hdrop 5 (by rw [List.drop_eq_nil_iff] at harg; omega)]
          rfl
      · rw [if_neg (mt hecho.mp hp), if_neg hp, if_neg (hnocd (by decide)), if_neg (hnocat (by decide)), herror]
    rw [if_neg he, if_neg (hnoecho he)]
    by_cases hcc : c = 'c'.toUInt8
    · subst hcc
      rw [if_pos rfl]
      by_cases hp : literal "cd" <+: 'c'.toUInt8 :: rest
      · have hn : 2 ≤ ('c'.toUInt8 :: rest).length := hp.length_le
        rw [if_pos (hcd.mpr hp), if_pos hp, shellCd, Command.calls]
        by_cases harg : ('c'.toUInt8 :: rest).drop 3 = []
        · rw [if_pos ((no_argument_iff h hn).mpr harg), if_pos harg]
        · rw [if_neg (mt (no_argument_iff h hn).mp harg), if_neg harg,
            hdrop 3 (by rw [List.drop_eq_nil_iff] at harg; omega)]
          rfl
      rw [if_neg (mt hcd.mp hp), if_neg hp]
      by_cases hp' : literal "cat" <+: 'c'.toUInt8 :: rest
      · have hn : 3 ≤ ('c'.toUInt8 :: rest).length := hp'.length_le
        rw [if_pos (hcat.mpr hp'), if_pos hp', shellCat, Command.calls]
        by_cases harg : ('c'.toUInt8 :: rest).drop 4 = []
        · rw [if_pos ((no_argument_iff h hn).mpr harg), if_pos harg]
        · rw [if_neg (mt (no_argument_iff h hn).mp harg), if_neg harg,
            hdrop 4 (by rw [List.drop_eq_nil_iff] at harg; omega)]
          rfl
      · rw [if_neg (mt hcat.mp hp'), if_neg hp', herror]
    · rw [if_neg hcc, if_neg (hnocd hcc), if_neg (hnocat hcc), herror]

end BulbOS.Shell
