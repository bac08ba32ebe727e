import Mathlib.Data.Nat.Notation
import Mathlib.Logic.Function.Basic

/-!
# Keyboard commands (`kernel/drivers/keyboard.c`, `utils/queue.c`)

A command is written to the data port and stays in the queue until the keyboard acknowledges it. An interrupt
handler runs to its end before the next one, and before the next call of `keyboard_queuecommand`. A byte that comes
while no answer is expected is a scan code; it changes none of these variables.
-/

namespace BulbOS.Keyboard

/-- `queue_t`, with what it points to; a `void*` is a number. -/
structure Queue where
  queue : ℕ → ℕ
  capacity : ℕ
  size : ℕ
  head : ℕ

/-- `mem` is the memory that `kmalloc` returns. -/
def queueInit (capacity : ℕ) (mem : ℕ → ℕ) : Queue := ⟨mem, capacity, 0, 0⟩

/-- The result and the new queue. -/
def queuePush (queue : Queue) (value : ℕ) : Int × Queue :=
  if queue.size + 1 > queue.capacity then (-1, queue)
  else
    let idx := (queue.head + queue.size) % queue.capacity
    (0, { queue with size := queue.size + 1, queue := Function.update queue.queue idx value })

def queuePop (queue : Queue) : Queue :=
  if queue.size = 0 then queue
  else { queue with size := queue.size - 1, head := (queue.head + 1) % queue.capacity }

def queueTop (queue : Queue) : ℕ := queue.queue queue.head

/-- `COMMAND_QUEUE_CAP`. -/
def commandQueueCap : ℕ := 15

inductive Status
  | kbAvailable
  | cmdAcknow
  | cmdResponse
  deriving DecidableEq

/-- The static variables, and the bytes written to `PS2_DATAPORT`. -/
structure KbState where
  commandQueue : Queue
  status : Status
  repetition : UInt8
  port : List UInt8

/-- `(uint8_t)(uint32_t) queue_top(command_queue)`. -/
def KbState.topCommand (k : KbState) : UInt8 := UInt8.ofNat (queueTop k.commandQueue)

def keyboardSendCmd (k : KbState) (command : UInt8) : KbState :=
  { k with status := .cmdAcknow, port := k.port ++ [command] }

def keyboardSendNext (k : KbState) : KbState :=
  if k.status = .kbAvailable ∧ k.commandQueue.size > 0 then keyboardSendCmd k k.topCommand else k

def keyboardQueuecommand (k : KbState) (command : UInt8) : KbState :=
  let k := { k with commandQueue := (queuePush k.commandQueue command.toNat).2 }
  if k.commandQueue.size = 1 then keyboardSendCmd k command else k

def keyboardHandlequeue (k : KbState) (response : UInt8) : KbState :=
  let k :=
    if response = 0xFA then
      let command := k.topCommand
      { k with
        commandQueue := queuePop k.commandQueue
        repetition := 0
        status := if command = 0xFF then .cmdResponse else .kbAvailable }
    else if response = 0xFE then
      let k := { k with repetition := k.repetition + 1 }
      let k := if k.repetition > 3 then { k with commandQueue := queuePop k.commandQueue, repetition := 0 } else k
      { k with status := .kbAvailable }
    else k
  if k.status = .kbAvailable then keyboardSendNext k else k

/-- The messages about the self test are left out. -/
def keyboardHandleresponse (k : KbState) : KbState := keyboardSendNext { k with status := .kbAvailable }

def keyboardHandlecode (k : KbState) (byte : UInt8) : KbState :=
  match k.status with
  | .cmdResponse => keyboardHandleresponse k
  | .cmdAcknow => keyboardHandlequeue k byte
  | .kbAvailable => k

/-- The commands of `keyboard_init`. -/
def initCommands : List UInt8 := [0xFF, 0xED, 0x0, 0xF0, 0x2, 0xF4]

/-- The static variables before `keyboard_init` queues its commands. -/
def keyboardStatics (mem : ℕ → ℕ) : KbState := ⟨queueInit commandQueueCap mem, .kbAvailable, 0, []⟩

end BulbOS.Keyboard
