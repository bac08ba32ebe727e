import BulbOS.Lib.Bytes
import Mathlib.Logic.Function.Basic

/-!
# Pipes (`kernel/fs/pipe.c`)

Any number of threads call `pipe_write` and `pipe_read` on one pipe. A thread is at a place of the
code, `PipePc`; `pipeStep` runs it to its next place. `mutex` is the `current_count` of the pipe's
mutex: a thread at `mutex_acquire` goes on when it is below the maximum, 1. In `condvar_wait` a
thread has released the mutex and may go on at any time that it can acquire it again, so
`condvar_signal` changes nothing here. A thread that divides by a `size` of 0 has no next place.
-/

namespace BulbOS.Pipe

open KLib

/-- `PIPE_SIZE`. -/
def pipeSize : ℕ := 4096

/-- `pipe_type_t`. -/
inductive PipeType
  | unbuffered
  | bufBlock
  | bufChar
  deriving DecidableEq, Repr

/-- `pipe_t`. -/
structure PipeState where
  mutex : ℕ
  size : ℕ
  type : PipeType
  bRead : ℕ
  bWrite : ℕ
  readOpen : Bool
  writeOpen : Bool
  buffer : ℕ → UInt8

/-- `size` is a field of 30 bits; the buffer holds whatever `kmalloc` returned. -/
def pipeAlloc (size : ℕ) (type : PipeType) (buffer : ℕ → UInt8) : PipeState :=
  ⟨0, size % 2 ^ 30, type, 0, 0, true, true, buffer⟩

def mutexAcquire (p : PipeState) : Option PipeState :=
  if p.mutex < 1 then some { p with mutex := p.mutex + 1 } else none

def mutexRelease (p : PipeState) : PipeState := { p with mutex := sub32 p.mutex 1 }

/-- Where a thread is. `data` is the writer's memory at `addr`, `got` what a reader has copied. -/
inductive PipePc
  /-- In no call. -/
  | idle
  /-- At the `mutex_acquire` of `pipe_write`. -/
  | write (data : List UInt8)
  /-- In the loop of `pipe_unbuf_write`. -/
  | unbufWrite (data : List UInt8) (i : ℕ)
  /-- In the `condvar_wait` of `pipe_unbuf_write`. -/
  | waitWrite (data : List UInt8) (i : ℕ)
  /-- `pipe_unbuf_write` has released the mutex and returned `-1`. -/
  | writeFailed
  /-- In the `condvar_wait` of `pipe_buf_write`. -/
  | waitBufWrite (data : List UInt8)
  /-- In `pipe_buf_write` after it. -/
  | bufWrite (data : List UInt8)
  /-- At the end of `pipe_write`. -/
  | endWrite (ret : ℤ) (data : List UInt8)
  /-- At the `mutex_acquire` of `pipe_read`. -/
  | read (size : ℕ)
  /-- In the `condvar_wait` of one of the three reads. -/
  | waitRead (size : ℕ)
  /-- In one of the three reads after it. -/
  | readLoop (size : ℕ) (got : List UInt8)
  /-- At the end of `pipe_read`. -/
  | endRead (ret : ℤ) (got : List UInt8)
  deriving DecidableEq, Repr

/-- What one step changes: the pipe, the place of the thread, and the bytes that it stored in the
ring, took out of it, or returned to the caller of `pipe_read`. -/
structure PipeOut where
  pipe : PipeState
  pc : PipePc
  stored : List UInt8
  taken : List UInt8
  returned : List UInt8

/-- One round of the loop of `pipe_unbuf_write`. -/
def pipeUnbufWrite (p : PipeState) (data : List UInt8) (i : ℕ) : PipeOut :=
  match data[i]? with
  | none => ⟨p, .endWrite i data, [], [], []⟩
  | some b =>
    if p.bWrite = u32 (p.bRead + pipeSize) then
      if p.readOpen then ⟨mutexRelease p, .waitWrite data i, [], [], []⟩
      else ⟨mutexRelease p, .writeFailed, [], [], []⟩
    else
      ⟨{ p with
          buffer := Function.update p.buffer (p.bWrite % pipeSize) b
          bWrite := u32 (p.bWrite + 1) },
        .unbufWrite data (i + 1), [b], [], []⟩

/-- `b % pipe->size`; a division by zero has no result. -/
def modSize (p : PipeState) (b : ℕ) : Option ℕ := if p.size = 0 then none else some (b % p.size)

/-- `remaining` of `pipe_buf_write`. -/
def bufWriteLen (p : PipeState) (size : ℕ) : Option ℕ :=
  (modSize p p.bWrite).map fun used => if size > p.size - used then p.size - used else size

/-- The `memcpy` of `pipe_buf_write` goes from the pipe to the caller. -/
def bufCopy (p : PipeState) (data : List UInt8) (remaining : ℕ) : PipeOut :=
  ⟨{ p with bWrite := u32 (p.bWrite + remaining) },
    .endWrite remaining ((List.range remaining).map p.buffer ++ data.drop remaining), [], [], []⟩

/-- `pipe_buf_write` after its wait. -/
def pipeBufWrite (p : PipeState) (data : List UInt8) : Option PipeOut :=
  (bufWriteLen p data.length).map (bufCopy p data)

/-- The byte at the read counter. -/
def readByte (p : PipeState) : Option UInt8 := (modSize p p.bRead).map p.buffer

/-- `b_read++`. -/
def nextRead (p : PipeState) : PipeState := { p with bRead := u32 (p.bRead + 1) }

/-- One round of the loop of `pipe_unbuf_read`. -/
def pipeUnbufRead (p : PipeState) (size : ℕ) (got : List UInt8) : Option PipeOut :=
  if got.length < size ∧ p.bRead ≠ p.bWrite then
    (readByte p).map fun b => ⟨nextRead p, .readLoop size (got ++ [b]), [], [b], []⟩
  else some ⟨p, .endRead got.length got, [], [], []⟩

/-- The `char c` of `pipe_bufchar_read`, a signed byte. -/
def delimiter (size : ℕ) : ℤ := (UInt8.ofNat size).toInt8.toInt

/-- One round of the loop of `pipe_bufchar_read`. -/
def pipeBufcharRead (p : PipeState) (size : ℕ) (got : List UInt8) : Option PipeOut :=
  if p.bRead = p.bWrite then some ⟨p, .endRead got.length got, [], [], []⟩
  else (readByte p).map fun b =>
    if (b.toNat : ℤ) = delimiter size then
      ⟨nextRead p, .endRead (got.length + 1) (got ++ [b]), [], [b], []⟩
    else ⟨nextRead p, .readLoop size (got ++ [b]), [], [b], []⟩

/-- `pipe_bufblock_read` after its wait. -/
def pipeBufblockRead (p : PipeState) (size : ℕ) : PipeOut :=
  let block := (List.range size).map p.buffer
  ⟨{ p with bRead := u32 (p.bRead + size) }, .endRead size block, [], block, []⟩

/-- `pipe_read` once it has the mutex. -/
def pipeReadEnter (p : PipeState) (size : ℕ) : PipeOut :=
  if ¬ p.writeOpen then ⟨mutexRelease p, .idle, [], [], []⟩
  else match p.type with
    | .unbuffered | .bufChar =>
      if p.bRead = p.bWrite then ⟨mutexRelease p, .waitRead size, [], [], []⟩
      else ⟨p, .readLoop size [], [], [], []⟩
    | .bufBlock =>
      if size ≠ p.size then ⟨p, .endRead (-1) [], [], [], []⟩
      else if u32 (p.bRead + size) ≠ p.bWrite then ⟨mutexRelease p, .waitRead size, [], [], []⟩
      else ⟨p, .readLoop size [], [], [], []⟩

/-- `pipe_write` once it has the mutex. -/
def pipeWriteEnter (p : PipeState) (data : List UInt8) : PipeOut :=
  match p.type with
  | .unbuffered | .bufChar => ⟨p, .unbufWrite data 0, [], [], []⟩
  | .bufBlock =>
    if p.bRead ≠ p.bWrite then ⟨mutexRelease p, .waitBufWrite data, [], [], []⟩
    else ⟨p, .bufWrite data, [], [], []⟩

/-- One step of a thread; `none` if it waits for the mutex, divides by zero, or is in no call. -/
def pipeStep (p : PipeState) : PipePc → Option PipeOut
  | .idle => none
  | .write data => (mutexAcquire p).map fun p => pipeWriteEnter p data
  | .unbufWrite data i => some (pipeUnbufWrite p data i)
  | .waitWrite data i => (mutexAcquire p).map fun p => ⟨p, .unbufWrite data i, [], [], []⟩
  | .writeFailed => some ⟨mutexRelease p, .idle, [], [], []⟩
  | .waitBufWrite data => (mutexAcquire p).map fun p => ⟨p, .bufWrite data, [], [], []⟩
  | .bufWrite data => pipeBufWrite p data
  | .endWrite _ _ => some ⟨mutexRelease p, .idle, [], [], []⟩
  | .read size => (mutexAcquire p).map fun p => pipeReadEnter p size
  | .waitRead size => (mutexAcquire p).map fun p => ⟨p, .readLoop size [], [], [], []⟩
  | .readLoop size got =>
    match p.type with
    | .unbuffered => pipeUnbufRead p size got
    | .bufChar => pipeBufcharRead p size got
    | .bufBlock => some (pipeBufblockRead p size)
  | .endRead _ got => some ⟨mutexRelease p, .idle, [], [], got⟩

end BulbOS.Pipe
