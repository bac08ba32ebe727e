import BulbOS.Lib.Bytes
import Mathlib.Logic.Function.Basic

/-!
# Open files (`kernel/fs/file.c`, `kernel/usr/syscall.c`)

A `file_t` is given by its address, `0` being `NULL`. The directory and the inode that `file_open` finds
are arguments: `none` if the path names nothing (and `O_CREAT` did not create it), else the inode and its
mode. `none` as a result is a jump through a `NULL` function pointer.
-/

namespace BulbOS.File

open KLib

/-- What the function pointers of a `file_t` may hold. -/
inductive FileFn
  | null
  | fileClose
  | pipeClose
  | inodeRead
  | inodeWrite
  | inodeStat
  | pipeRead
  | pipeWrite
  deriving DecidableEq, Repr

/-- `file_t`; `object` is the pipe or the inode. -/
structure FileT where
  refCount : ℕ
  readp : Bool
  writep : Bool
  object : ℕ
  offset : ℕ
  close : FileFn
  read : FileFn
  write : FileFn
  stat : FileFn
  next : ℕ
  deriving DecidableEq, Repr

/-- The files, `fhead`, and the `open_files` of the current task. -/
structure Files where
  files : ℕ → FileT
  flist : ℕ
  ulist : ℕ
  openFiles : ℕ → ℕ

/-- `OPEN_FILES_COUNT`. -/
def openFilesCount : ℕ := 16

/-- `EXT2_TYPE_DIR`. -/
def typeDir : ℕ := 0x4000

/-- `O_RDONLY`, `O_WRONLY` and `O_RDWR`. -/
def oRdonly : ℕ := 1 <<< 1

@[inherit_doc oRdonly]
def oWronly : ℕ := 1 <<< 2

@[inherit_doc oRdonly]
def oRdwr : ℕ := 1 <<< 3

variable (s : Files)

def Files.set (file : ℕ) (x : FileT) : Files := { s with files := Function.update s.files file x }

/-- `ptr` is what `kmalloc` returns when no freed file is left. -/
def fileAlloc (ptr : ℕ) : ℕ × Files :=
  let (file, s) := if s.flist ≠ 0 then (s.flist, { s with flist := (s.files s.flist).next }) else (ptr, s)
  (file, { s.set file { s.files file with
    refCount := 1, next := s.ulist, close := .null, read := .null, write := .null, stat := .null } with
      ulist := file })

def fileDup (file : ℕ) : Files :=
  s.set file { s.files file with refCount := u32 ((s.files file).refCount + 1) }

/-- The pointer `file->close` is read after the `memset`, so what is called in the end is `NULL`. -/
def fileClose (file : ℕ) : Option Files :=
  let refCount := sub32 (s.files file).refCount 1
  if refCount > 0 then some (s.set file { s.files file with refCount := refCount })
  else
    let s : Files := { s.set file ⟨0, false, false, 0, 0, .null, .null, .null, .null, s.flist⟩ with flist := file }
    if (s.files file).close = .null then none else some s

/-- `-1` if every entry is in use. -/
def fdAlloc (file : ℕ) : ℤ × Files :=
  match (List.range openFilesCount).find? (fun i => s.openFiles i = 0) with
  | some i => ((i : ℤ), { fileDup s file with openFiles := Function.update s.openFiles i file })
  | none => (-1, s)

/-- `file_open` after the lookup of the path gave `entry`, the inode and its mode. -/
def fileOpen (entry : Option (ℕ × ℕ)) (flags ptr : ℕ) : Option (ℤ × Files) :=
  match entry with
  | none => some (-1, s)
  | some (inode, mode) =>
    if mode &&& typeDir ≠ 0 ∧ flags ≠ oRdonly then some (-1, s)
    else
      let (file, s) := fileAlloc s ptr
      let (fd, s) := fdAlloc s file
      if fd = -1 then do
        let s ← fileClose s file
        return (-1, s)
      else
        some (fd, s.set file { s.files file with
          object := inode, offset := 0
          close := .fileClose, write := .inodeWrite, read := .inodeRead, stat := .inodeStat
          readp := flags &&& oWronly = 0
          writep := flags &&& oWronly ≠ 0 ∨ flags &&& oRdwr ≠ 0 })

/-- The two files of `pipe_alloc`; `kmalloc` is not expected to fail. -/
def pipeAlloc (ptr ptr' pipe : ℕ) : ℕ × ℕ × Files :=
  let (r, s) := fileAlloc s ptr
  let (w, s) := fileAlloc s ptr'
  let s := s.set r { s.files r with
    readp := true, writep := false, object := pipe, read := .pipeRead, close := .pipeClose }
  let s := s.set w { s.files w with
    readp := false, writep := true, object := pipe, write := .pipeWrite, close := .pipeClose }
  (r, w, s)

def syscallClose (fd : ℕ) : Option Files := do
  let s' ← fileClose s (s.openFiles fd)
  return { s' with openFiles := Function.update s'.openFiles fd 0 }

def syscallDup (oldFd : ℕ) : ℤ × Files := fdAlloc s (s.openFiles oldFd)

/-- The result, and the two descriptors if it is `0`. -/
def syscallPipe (ptr ptr' pipe : ℕ) : Option (ℤ × Option (ℤ × ℤ) × Files) :=
  let (r, w, s) := pipeAlloc s ptr ptr' pipe
  let (rfd, s) := fdAlloc s r
  if rfd = -1 then do
    let s ← fileClose s r
    let s ← fileClose s w
    return (-1, none, s)
  else
    let (wfd, s) := fdAlloc s w
    if wfd = -1 then do
      let s := { s with openFiles := Function.update s.openFiles rfd.toNat 0 }
      let s ← fileClose s r
      let s ← fileClose s w
      return (-1, none, s)
    else some (0, some (rfd, wfd), s)

end BulbOS.File
