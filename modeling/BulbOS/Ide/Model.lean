import BulbOS.Lib.Bytes
import BulbOS.Task.Model

/-!
# The disk driver (`kernel/drivers/ide.c`)

Tasks are preempted between any two accesses to the driver's globals and to the ports, so the code of
a task is the list of its accesses in order, and the source's functions give parts of that list.

A channel of the controller serves its commands one after the other: it moves the bytes between the disk and the
places named by the table of descriptors, and then raises an interrupt. Addresses of `ide_mem_buffer` are relative to
its start. `boot.S` puts it 1 KiB behind `prd_table`; the two are arrays of their own here, as they are for the
requests of `bio_read` (`Laid.foldl` in `Fill`). Of the bus master's status only the interrupt bit is kept, since
nothing else of it is read.

* `Instr`, `ideAccessDisk`, `bioRead`: the code;
* `Channel.out`, `IdeState.serve`: the controller;
* `DiskSys`, `diskStep`: tasks in `bio_read`, the disk, and `ide_handler`.
-/

namespace BulbOS.Ide

open KLib BulbOS.Task

/-! ## The controller -/

/-- `IDE_REG_*`. -/
inductive Reg
  | data
  | features
  | seccount0
  | lba0
  | lba1
  | lba2
  | hddevsel
  | command
  | seccount1
  | lba3
  | lba4
  | lba5
  | control
  | busCom
  | busStat
  deriving DecidableEq, Repr

def Reg.num : Reg → ℕ
  | .data => 0x0
  | .features => 0x1
  | .seccount0 => 0x2
  | .lba0 => 0x3
  | .lba1 => 0x4
  | .lba2 => 0x5
  | .hddevsel => 0x6
  | .command => 0x7
  | .seccount1 => 0x8
  | .lba3 => 0x9
  | .lba4 => 0xA
  | .lba5 => 0xB
  | .control => 0xC
  | .busCom => 0xE
  | .busStat => 0x10

/-- The three port ranges of a channel. -/
inductive Bank
  | addr
  | ctrlAddr
  | busMasterAddr
  deriving DecidableEq, Repr

/-- The port that `ide_write` and `ide_read` compute for a register. -/
def idePort (reg : Reg) : Bank × ℕ :=
  if reg.num ≥ Reg.busCom.num then (.busMasterAddr, reg.num - 0xE)
  else if reg.num ≤ Reg.lba5.num then
    (.addr, if reg.num ≥ Reg.seccount1.num then reg.num - 0x6 else reg.num)
  else (.ctrlAddr, reg.num - 0xC)

def ideCmdReadDma : ℕ := 0xC8
def ideCmdReadDmaExt : ℕ := 0x25
def ideCmdWriteDma : ℕ := 0xCA
def ideCmdWriteDmaExt : ℕ := 0x35

/-- A command, with the task that wrote it. -/
structure Command where
  issuer : ℕ
  drive : ℕ
  lba : ℕ
  sectors : ℕ
  isWrite : Bool
  /-- The bytes have been moved; the interrupt is to come. -/
  served : Bool

/-- The last two bytes written to each port, the bus master, and the commands not yet completed. -/
structure Channel where
  cur : ℕ → ℕ
  prev : ℕ → ℕ
  control : ℕ
  busCom : ℕ
  interrupt : Bool
  /-- The bus master has the address of `prd_table`. -/
  prdt : Bool
  commands : List Command

/-- What the drive takes from its registers; a 48-bit command also takes the bytes before the last. -/
def Channel.decode (ch : Channel) (task : ℕ) (isWrite ext : Bool) : Command where
  issuer := task
  drive := ch.cur 6 / 16 % 2
  lba := ch.cur 3 + ch.cur 4 * 2 ^ 8 + ch.cur 5 * 2 ^ 16 +
    if ext then ch.prev 3 * 2 ^ 24 + ch.prev 4 * 2 ^ 32 + ch.prev 5 * 2 ^ 40
    else ch.cur 6 % 16 * 2 ^ 24
  sectors :=
    let n := if ext then ch.cur 2 + ch.prev 2 * 2 ^ 8 else ch.cur 2
    if n ≠ 0 then n else if ext then 2 ^ 16 else 2 ^ 8
  isWrite := isWrite
  served := false

/-- A byte is written to the command register. -/
def Channel.issue (ch : Channel) (task data : ℕ) : Channel :=
  if data = ideCmdReadDma then { ch with commands := ch.commands ++ [ch.decode task false false] }
  else if data = ideCmdReadDmaExt then
    { ch with commands := ch.commands ++ [ch.decode task false true] }
  else if data = ideCmdWriteDma then
    { ch with commands := ch.commands ++ [ch.decode task true false] }
  else if data = ideCmdWriteDmaExt then
    { ch with commands := ch.commands ++ [ch.decode task true true] }
  else ch

/-- `outb`; a bit of the bus master's status is cleared by writing it. -/
def Channel.out (ch : Channel) (task : ℕ) : Bank × ℕ → ℕ → Channel
  | (.busMasterAddr, 0), data => { ch with busCom := data }
  | (.busMasterAddr, _), data => { ch with interrupt := ch.interrupt && !data.testBit 2 }
  | (.ctrlAddr, _), data => { ch with control := data }
  | (.addr, 7), data => ch.issue task data
  | (.addr, p), data =>
    { ch with cur := Function.update ch.cur p data, prev := Function.update ch.prev p (ch.cur p) }

/-- `prd_entry_t`. -/
structure PrdEntry where
  physAddr : ℕ
  byteCount : ℕ
  reserved : ℕ

/-- The channels, the driver's globals, and the disks, by device and byte address. -/
structure IdeState where
  chan : ℕ → Channel
  prdTable : ℕ → PrdEntry
  memBuffer : Mem
  /-- `actual_disk_req`. -/
  reqDevice : ℕ
  reqTask : ℕ
  disk : ℕ → ℕ → UInt8

/-- The fields `channel` and `drive` of `ide_devices`, as `ide_detect_drive` sets them. -/
def deviceChannel (device : ℕ) : ℕ := device / 2

def deviceDrive (device : ℕ) : ℕ := device % 2

def IdeState.setChan (s : IdeState) (channel : ℕ) (ch : Channel) : IdeState :=
  { s with chan := Function.update s.chan channel ch }

def IdeState.setPrd (s : IdeState) (i : ℕ) (e : PrdEntry) : IdeState :=
  { s with prdTable := Function.update s.prdTable i e }

def ideWrite (s : IdeState) (task channel : ℕ) (reg : Reg) (data : ℕ) : IdeState :=
  s.setChan channel ((s.chan channel).out task (idePort reg) (data % 2 ^ 8))

/-- The number of bytes of a descriptor; zero stands for 64 KiB. -/
def PrdEntry.bytes (e : PrdEntry) : ℕ := if e.byteCount = 0 then 64 * 1024 else e.byteCount

/-- Bytes of the disk go to the places of the descriptors, up to the marked one; the first missing
byte is number `start` of those asked for, and `left` are missing. -/
def dmaRead (prd : ℕ → PrdEntry) (src : ℕ → UInt8) : ℕ → ℕ → ℕ → ℕ → Mem → Mem
  | 0, _, _, _, mem => mem
  | fuel + 1, i, start, left, mem =>
    let e := prd i
    let n := min left e.bytes
    let mem' : Mem := fun x =>
      if e.physAddr ≤ x ∧ x < e.physAddr + n then src (start + (x - e.physAddr)) else mem x
    if e.reserved.testBit 15 then mem' else dmaRead prd src fuel (i + 1) (start + n) (left - n) mem'

/-- Bytes go from the places of the descriptors to the disk. -/
def dmaWrite (prd : ℕ → PrdEntry) (mem : Mem) : ℕ → ℕ → ℕ → ℕ → (ℕ → UInt8) → ℕ → UInt8
  | 0, _, _, _, dst => dst
  | fuel + 1, i, start, left, dst =>
    let e := prd i
    let n := min left e.bytes
    let dst' := fun x =>
      if start ≤ x ∧ x < start + n then mem (e.physAddr + (x - start)) else dst x
    if e.reserved.testBit 15 then dst' else dmaWrite prd mem fuel (i + 1) (start + n) (left - n) dst'

/-- `prd_table` has room for 128 descriptors. -/
def prdCount : ℕ := 128

/-- The channel moves the bytes of its first command; the bus master must have been started. -/
def IdeState.serve (s : IdeState) (channel : ℕ) : Option IdeState :=
  let ch := s.chan channel
  match ch.commands with
  | [] => none
  | cmd :: rest =>
    if cmd.served ∨ ch.prdt = false ∨ ch.busCom.testBit 0 = false then none
    else
      let device := 2 * channel + cmd.drive
      let s' := s.setChan channel
        { ch with interrupt := true, commands := { cmd with served := true } :: rest }
      let start := cmd.lba * 512
      let size := cmd.sectors * 512
      if cmd.isWrite then
        let bytes := dmaWrite s.prdTable s.memBuffer prdCount 0 start size (s.disk device)
        some { s' with disk := Function.update s.disk device bytes }
      else
        some { s' with
          memBuffer := dmaRead s.prdTable (s.disk device) prdCount 0 start size s.memBuffer }

/-! ## The code -/

/-- An access of a task. -/
inductive Instr
  /-- `actual_disk_req` is set. -/
  | request (device : ℕ)
  /-- The bus master gets the address of `prd_table`. -/
  | prdt (channel : ℕ)
  | prd (i : ℕ) (f : PrdEntry → PrdEntry)
  | write (channel : ℕ) (reg : Reg) (data : ℕ)
  /-- A round of the loop that waits for bit 6 of the status. -/
  | poll (channel : ℕ)
  | sleep (milliseconds : ℕ)
  /-- Byte `i` of the task's buffer goes to `ide_mem_buffer`. -/
  | fill (addr i : ℕ)
  /-- `task_block(IO_REQUEST)`. -/
  | block
  /-- Byte `addr` of `ide_mem_buffer` goes to the task's buffer. -/
  | copy (i addr : ℕ)
  /-- `buf->valid = 1`. -/
  | valid

def ideSetPrdt (channel : ℕ) : List Instr := [.prdt channel]

def ideSetPrdEntry (prdtEntry size : ℕ) : List Instr :=
  [.prd prdtEntry fun e => { e with physAddr := 1024 * prdtEntry },
    .prd prdtEntry fun e => { e with byteCount := if size = 64 * 1024 then 0 else size % 2 ^ 16 },
    .prd prdtEntry fun e => { e with reserved := 0 }]

/-- The loop of `ide_fill_prd_table`, and the number of descriptors; `none` if it does not end. -/
def ideFillLoop (size : ℕ) (isWrite : Bool) : ℕ → ℕ → ℕ → Option (List Instr × ℕ)
  | 0, _, _ => none
  | fuel + 1, start, count =>
    if sub32 size start = 0 then some ([], count)
    else do
      let prdSize := if size > 1024 then 1024 else size
      let (rest, n) ← ideFillLoop size isWrite fuel (u32 (start + prdSize)) (count + 1)
      return (ideSetPrdEntry count prdSize ++
        (if isWrite then (List.range prdSize).map fun i => .fill (1024 * count + i) (start + i) else []) ++
        rest, n)

def ideFillPrdTable (device size : ℕ) (isWrite : Bool) : Option (List Instr) := do
  let channel := deviceChannel device
  let (entries, count) ← ideFillLoop size isWrite (2 ^ 32) 0 0
  return ideSetPrdt channel ++ entries ++
    [.prd (count - 1) fun e => { e with reserved := e.reserved ||| 1 <<< 15 },
      .write channel .busCom (if isWrite then 1 <<< 3 else 0),
      .write channel .busCom 1]

def ideReadDiskBuffer (offset size : ℕ) : List Instr :=
  (List.range size).map fun i => .copy i (offset + i)

def ideSetDevice (device lba sectors : ℕ) : List Instr :=
  let channel := deviceChannel device
  let head := if lba > 0x10000000 then 0 else lba >>> 24 &&& 0xF
  [.write channel .hddevsel (0xE0 ||| deviceDrive device <<< 4 ||| head),
    .sleep 1,
    .write channel .features 0,
    .poll channel,
    .write channel .seccount1 0,
    -- the source has `(lba >> 24) && 0xFF`, a truth value
    .write channel .lba3 (if lba > 0x10000000 then if lba >>> 24 ≠ 0 then 1 else 0 else 0),
    .write channel .lba4 0,
    .write channel .lba5 0,
    .write channel .seccount0 sectors,
    .write channel .lba0 (lba &&& 0xFF),
    .write channel .lba1 (lba >>> 8 &&& 0xFF),
    .write channel .lba2 (lba >>> 16 &&& 0xFF)]

def ideAccessDisk (device lba size : ℕ) (isWrite : Bool) : Option (List Instr) :=
  if size = 0 then some []
  else do
    let channel := deviceChannel device
    let fill ← ideFillPrdTable device size isWrite
    let command :=
      if isWrite then if lba > 0x10000000 then ideCmdWriteDmaExt else ideCmdWriteDma
      else if lba > 0x10000000 then ideCmdReadDmaExt else ideCmdReadDma
    return [.request device] ++ fill ++ [.poll channel] ++
      ideSetDevice device lba ((size - 1) / 512 + 1) ++
      [.write channel .busStat 1, .write channel .control 0, .write channel .command command, .block]

def ideWriteDisk (deviceIdx addr size : ℕ) : Option (List Instr) :=
  ideAccessDisk deviceIdx (addr / 512) size true

def ideReadDisk (deviceIdx addr size : ℕ) : Option (List Instr) :=
  ideAccessDisk deviceIdx (addr / 512) size false

/-- `bio_read` after `bio_get` gave the task an invalid buffer. -/
def bioRead (device block size : ℕ) : Option (List Instr) := do
  let read ← ideReadDisk device (u32 (block * size)) size
  return read ++ ideReadDiskBuffer 0 size ++ [.valid]

/-! ## Tasks, the disk and its interrupts -/

structure DiskSys where
  ide : IdeState
  sched : Sched
  /-- What is left of a task's `bio_read`. -/
  code : ℕ → List Instr
  /-- The bytes of the buffer that `bio_get` gave a task, and its field `valid`. -/
  buffer : ℕ → Mem
  valid : ℕ → Bool
  /-- Tasks that entered `ide_access_disk` and whose buffer is not yet valid. -/
  inside : List ℕ
  /-- Tasks suspended in `task_block` that no `task_unblock` has named. -/
  waiting : List ℕ
  /-- Tasks that a `task_unblock` named before they blocked. -/
  woken : List ℕ

/-- A step of the running task, which finds `status` in the status register and the times `start` and
`now`; a command being served; a completion interrupt; any other step of the scheduler. -/
inductive DiskOp
  | task (status start now : ℕ)
  | serve (channel : ℕ)
  | irq (channel : ℕ)
  | other (s : Sched) (woken : List ℕ)

def DiskSys.goOn (c : DiskSys) (t : ℕ) (rest : List Instr) : DiskSys :=
  { c with code := Function.update c.code t rest }

/-- Task `t` performs the first access of its code. -/
def DiskSys.exec (c : DiskSys) (t status start now : ℕ) : Instr → List Instr → Option DiskSys
  | .request device, rest =>
    some { c.goOn t rest with
      ide := { c.ide with reqDevice := device, reqTask := t }
      inside := t :: c.inside }
  | .prdt channel, rest =>
    some { c.goOn t rest with ide := c.ide.setChan channel { c.ide.chan channel with prdt := true } }
  | .prd i f, rest => some { c.goOn t rest with ide := c.ide.setPrd i (f (c.ide.prdTable i)) }
  | .write channel reg data, rest =>
    some { c.goOn t rest with ide := ideWrite c.ide t channel reg data }
  | .poll _, rest => some (if status.testBit 6 then c.goOn t rest else c)
  | .sleep milliseconds, rest => do
    let s ← nanoSleepUntil c.sched (start + milliseconds * 1000000) now
    return { c.goOn t rest with sched := s }
  | .fill addr i, rest =>
    some { c.goOn t rest with
      ide := { c.ide with memBuffer := Function.update c.ide.memBuffer addr (c.buffer t i) } }
  | .block, rest => do
    let s ← taskBlock c.sched .ioRequest
    let c' := { c.goOn t rest with sched := s }
    if t ∈ c.woken then return { c' with woken := c.woken.erase t }
    -- `task_schedule` found no task to switch to: the call returns at once
    else if s.currentTask = t then return c'
    else return { c' with waiting := t :: c.waiting }
  | .copy i addr, rest =>
    some { c.goOn t rest with
      buffer := Function.update c.buffer t (Function.update (c.buffer t) i (c.ide.memBuffer addr)) }
  | .valid, rest =>
    some { c.goOn t rest with
      valid := Function.update c.valid t true
      inside := c.inside.erase t }

def ideHandler (c : DiskSys) : Option DiskSys :=
  let channel := deviceChannel c.ide.reqDevice
  let busStat := (c.ide.chan channel).interrupt
  let task := c.ide.reqTask
  let ide := ideWrite c.ide task channel .busStat (1 <<< 2)
  if busStat = false then some { c with ide := ide }
  else do
    let ide := ideWrite ide task channel .busCom 0
    let s ← taskUnblock c.sched task
    let c' := { c with ide := ide, sched := s, waiting := c.waiting.erase task }
    if task ∈ c.waiting then return c' else return { c' with woken := task :: c.woken }

def diskStep (c : DiskSys) : DiskOp → Option DiskSys
  | .task status start now =>
    let t := c.sched.currentTask
    match c.code t with
    | [] => none
    | i :: rest => c.exec t status start now i rest
  | .serve channel => do
    let ide ← c.ide.serve channel
    return { c with ide := ide }
  | .irq channel =>
    let ch := c.ide.chan channel
    match ch.commands with
    | [] => none
    | cmd :: rest =>
      if cmd.served then ideHandler { c with ide := c.ide.setChan channel { ch with commands := rest } }
      else none
  | .other s woken => some { c with sched := s, woken := woken }

/-- The scheduler may use up the wake-up of a task that has not blocked yet. -/
def DiskOp.Legal (c : DiskSys) : DiskOp → Prop
  | .other _ woken => woken.Sublist c.woken
  | _ => True

/-- A step of the system, whose scheduler resumes a suspended task only when a `task_unblock` has named it. -/
def DiskMove (c : DiskSys) (op : DiskOp) (c' : DiskSys) : Prop :=
  op.Legal c ∧ diskStep c op = some c' ∧ c'.sched.currentTask ∉ c'.waiting

/-- The block a task reads. -/
structure BlockRead where
  device : ℕ
  block : ℕ
  size : ℕ

/-- Every task with a block to read is about to leave `bio_get`. -/
def diskBoot (s : Sched) (ide : IdeState) (buffer : ℕ → Mem) (reads : ℕ → Option BlockRead) : DiskSys where
  ide := ide
  sched := s
  code t := ((reads t).bind fun r => bioRead r.device r.block r.size).getD []
  buffer := buffer
  valid := fun _ => false
  inside := []
  waiting := []
  woken := []

end BulbOS.Ide
