import BulbOS.Pipe.Fifo
import BulbOS.Tty.Model

/-!
# The stdout task (`stdout_handler` of `kernel/io/stdio_handler.c`)

The tasks write to the pipe of stdout, and the stdout task reads from it and prints. In `pipe_write` and `pipe_read`
they are threads of the pipe as in `Pipe.Model`; the stdout task is thread `o`. Nothing else prints on the terminal,
but another task may be inside `kprintf`, which sends what is printed meanwhile to the serial port.
-/

namespace BulbOS.Stdout

open KLib Pipe Tty

/-- `actualmode` of `putchar`. -/
inductive OutputMode
  | terminalOut
  | serialportOut
  deriving DecidableEq, Repr

/-- Where the stdout task is in `stdout_handler`. -/
inductive StdoutPc
  /-- At the call of `file_read`. -/
  | call
  /-- In it. -/
  | reading
  /-- In the loop over the `b_read` bytes, at `i`. -/
  | putting (bRead : ℤ) (i : ℕ)
  /-- At `mutex_acquire`. -/
  | lock
  /-- At `condvar_wait`. -/
  | locked
  /-- In it: the mutex is released, and it has to be acquired before it returns. -/
  | waiting
  /-- At `mutex_release`. -/
  | unlock
  deriving DecidableEq, Repr

/-- The pipe with its threads, the stdout task with its buffer, and the devices; `log` has the bytes stored in the
pipe, each with its writer, `asked` the bytes that a task has passed to `pipe_write`, and `printed` the bytes given to
`putchar`. -/
structure StdoutState where
  sys : PipeSys
  pc : StdoutPc
  stdoutBuffer : ℕ → UInt8
  actualmode : OutputMode
  terminal : Terminal
  serial : List UInt8
  log : List (ℕ × UInt8)
  asked : ℕ → List UInt8
  printed : List (UInt8 × OutputMode)

/-- The bytes that `serial_write` gives to `serial_writeb`: a newline is followed by a carriage return. -/
def serialWrite (data : List UInt8) : List UInt8 := data.flatMap fun c => if c = 10 then [10, 13] else [c]

def putchar (s : StdoutState) (c : UInt8) : StdoutState :=
  match s.actualmode with
  | .terminalOut => { s with terminal := terminalWrite s.terminal [c], printed := s.printed ++ [(c, .terminalOut)] }
  | .serialportOut => { s with serial := s.serial ++ serialWrite [c], printed := s.printed ++ [(c, .serialportOut)] }

/-- What `pipe_read` returns from its last place. -/
def readResult : PipePc → ℤ
  | .endRead ret _ => ret
  | _ => -1

/-- The bytes that a reader has copied to `addr`. -/
def copied (buffer : ℕ → UInt8) (got : List UInt8) (a : ℕ) : UInt8 := got.getD a (buffer a)

/-- The next step of the stdout task, thread `o`. -/
def stdoutHandler (o : ℕ) (s : StdoutState) : Option StdoutState :=
  match s.pc with
  | .call => (sysStep s.sys (.read o 0)).map fun sys => { s with sys := sys, pc := .reading }
  | .reading => (sysStep s.sys (.run o)).map fun sys =>
    { s with
      sys := sys
      stdoutBuffer := copied s.stdoutBuffer (sys.threads o).inHand
      pc := if sys.threads o = .idle then .putting (readResult (s.sys.threads o)) 0 else .reading }
  | .putting bRead i =>
    if (i : ℤ) < bRead then some { putchar s (s.stdoutBuffer i) with pc := .putting bRead (i + 1) }
    else some { s with pc := .lock }
  | .lock => (mutexAcquire s.sys.pipe).map fun p => { s with sys := { s.sys with pipe := p }, pc := .locked }
  | .locked => some { s with sys := { s.sys with pipe := mutexRelease s.sys.pipe }, pc := .waiting }
  | .waiting => (mutexAcquire s.sys.pipe).map fun p => { s with sys := { s.sys with pipe := p }, pc := .unlock }
  | .unlock => some { s with sys := { s.sys with pipe := mutexRelease s.sys.pipe }, pc := .call }

/-- Task `t` calls `pipe_write`, or does its next step there; the stdout task does its next step; another task calls
`setoutput`. -/
inductive StdoutOp
  | write (t : ℕ) (data : List UInt8)
  | run (t : ℕ)
  | handler
  | setoutput (mode : OutputMode)
  deriving DecidableEq, Repr

def stdoutStep (o : ℕ) (s : StdoutState) : StdoutOp → Option StdoutState
  | .write t data =>
    if t = o then none
    else (sysStep s.sys (.write t data)).map fun sys =>
      { s with sys := sys, asked := Function.update s.asked t (s.asked t ++ data) }
  | .run t =>
    if t = o then none
    else (sysStep s.sys (.run t)).map fun sys =>
      { s with sys := sys, log := s.log ++ (sys.stored.drop s.sys.stored.length).map fun c => (t, c) }
  | .handler => stdoutHandler o s
  | .setoutput mode => some { s with actualmode := mode }

/-- After `stdout_init`: the pipe is empty, and the task has not run yet. The memory from `kmalloc` holds anything. -/
def stdoutInit (buffer stdoutBuffer : ℕ → UInt8) (terminal : Terminal) : StdoutState :=
  ⟨pipeBoot (pipeAlloc pipeSize .bufChar buffer), .call, stdoutBuffer, .terminalOut, terminal, [], [], fun _ => [], []⟩

end BulbOS.Stdout
