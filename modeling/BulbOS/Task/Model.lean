import Mathlib.Algebra.Group.Nat.Defs
import Mathlib.Logic.Function.Basic

/-!
# Multitasking (`kernel/proc/task.c`, `kernel/proc/task_switch.S`)

A task is the address of its `task_info_t`, `0` being `NULL`. The lists of tasks share the one link
`next` of a task.

A call that switches goes on, in the code, as another task: the rest of the call is done when its
task is resumed. Every suspended task has one `task_unlock_scheduler` left to do (so does a new one,
in `task_kernel_init` or `task_user_init`), and it is also all that is left of each of these calls
after the switch. So a call is modelled as straight-line code: what follows the switch is done by
the task switched to. `none` is `abort`. The accounting of `time_used` is left out.
-/

namespace BulbOS.Task

/-- `TIME_SLICE`. -/
def timeSlice : ℕ := 10

/-- `task_state_t`. -/
inductive TaskState
  | available
  | running
  | blocked
  | sleeping
  | terminated
  | waitingForLock
  | ioRequest
  | condvar
  deriving DecidableEq, Repr

/-- The fields of the tasks, and the static variables of `task.c`. -/
structure Sched where
  next : ℕ → ℕ
  state : ℕ → TaskState
  wakeUpTime : ℕ → ℕ
  currentTask : ℕ
  scheduleTasks : ℕ
  sleepTasks : ℕ
  terminatedTasks : ℕ
  taskCleaner : ℕ
  idleTask : ℕ
  scheduleLockCounter : ℕ
  postponeSwitchCounter : ℕ
  postponeSwitchFlag : Bool
  timeSliceRemaining : ℕ

variable (s : Sched)

/-- The task at a new address. -/
def taskCreateNew (task : ℕ) : Sched :=
  { s with
    next := Function.update s.next task 0
    state := Function.update s.state task .available
    wakeUpTime := Function.update s.wakeUpTime task 0 }

def taskLockScheduler : Sched := { s with scheduleLockCounter := s.scheduleLockCounter + 1 }

def taskUnlockScheduler : Option Sched :=
  if s.scheduleLockCounter = 0 then none
  else some { s with scheduleLockCounter := s.scheduleLockCounter - 1 }

def taskAddNode (task : ℕ) : Sched :=
  { s with
    state := Function.update s.state task .available
    next := Function.update s.next task s.scheduleTasks
    scheduleTasks := task }

def taskSwitch (task : ℕ) : Sched :=
  { s with
    currentTask := task
    next := Function.update s.next task 0
    state := Function.update s.state task .running }

def taskSwitchWrapper (task : ℕ) : Sched :=
  if s.postponeSwitchCounter ≠ 0 then taskAddNode { s with postponeSwitchFlag := true } task
  else
    let s' := if s.currentTask = s.idleTask then taskAddNode s s.currentTask else s
    taskSwitch { s' with timeSliceRemaining := if task = s.idleTask then 0 else timeSlice } task

def taskForceSwitch (task : ℕ) : Option Sched :=
  let s := taskLockScheduler s
  let s := { s with
    next := Function.update s.next s.currentTask s.scheduleTasks
    scheduleTasks := s.currentTask }
  taskUnlockScheduler (taskSwitchWrapper s task)

def taskSchedule : Sched :=
  if s.postponeSwitchCounter ≠ 0 then { s with postponeSwitchFlag := true }
  else if s.scheduleTasks = 0 then s
  else
    let task := s.scheduleTasks
    let s := { s with scheduleTasks := s.next task }
    if task = s.idleTask then
      if s.scheduleTasks ≠ 0 then
        let task := s.scheduleTasks
        let s := { s with
          next := Function.update s.next s.idleTask (s.next task)
          scheduleTasks := s.idleTask }
        taskSwitchWrapper s task
      else if s.state s.currentTask = .running then s
      else taskSwitchWrapper s task
    else taskSwitchWrapper s task

def taskLock : Sched :=
  { taskLockScheduler s with postponeSwitchCounter := s.postponeSwitchCounter + 1 }

/-- `--counter` of an unsigned 32-bit counter. -/
def dec32 (n : ℕ) : ℕ := if n = 0 then 2 ^ 32 - 1 else n - 1

def taskUnlock : Option Sched :=
  let s := { s with postponeSwitchCounter := dec32 s.postponeSwitchCounter }
  taskUnlockScheduler <|
    if s.postponeSwitchCounter = 0 ∧ s.postponeSwitchFlag then
      taskSchedule { s with postponeSwitchFlag := false }
    else s

def taskBlock (reason : TaskState) : Option Sched :=
  let s := taskLockScheduler s
  let s := { s with state := Function.update s.state s.currentTask reason }
  taskUnlockScheduler (taskSchedule s)

def taskUnblock (task : ℕ) : Option Sched :=
  let s := taskLockScheduler s
  taskUnlockScheduler <|
    if s.scheduleTasks = 0 ∨ s.currentTask = s.idleTask then taskSwitchWrapper s task
    else taskAddNode s task

/-- The loop of `task_clean`, and the tasks it frees. -/
def taskCleanLoop : ℕ → Sched → Option (Sched × List ℕ)
  | 0, _ => none
  | fuel + 1, s =>
    if s.terminatedTasks = 0 then some (s, [])
    else do
      let task := s.terminatedTasks
      let (s, freed) ← taskCleanLoop fuel { s with terminatedTasks := s.next task }
      return (s, task :: freed)

/-- A round of `task_clean`, up to its `task_block`. -/
def taskClean (fuel : ℕ) : Option (Sched × List ℕ) := do
  let (s, freed) ← taskCleanLoop fuel (taskLock s)
  let s ← taskUnlock s
  return (s, freed)

def taskTerminate : Option Sched := do
  let s := taskLock s
  let s := { s with
    next := Function.update s.next s.currentTask s.terminatedTasks
    terminatedTasks := s.currentTask }
  let s ← taskBlock s .terminated
  let s ← taskUnblock s s.taskCleaner
  taskUnlock s

/-- `now` is `hpet_get_ns()`. -/
def nanoSleepUntil (wakeUpTime now : ℕ) : Option Sched :=
  let s := taskLock s
  if wakeUpTime < now then taskUnlock s
  else do
    let s := { s with
      wakeUpTime := Function.update s.wakeUpTime s.currentTask wakeUpTime
      next := Function.update s.next s.currentTask s.sleepTasks
      sleepTasks := s.currentTask }
    let s ← taskUnlock s
    taskBlock s .sleeping

/-- The wake-up loop of `task_time_handler`. -/
def taskWakeLoop (now : ℕ) : ℕ → Sched → ℕ → Option Sched
  | 0, _, _ => none
  | fuel + 1, s, nextTask =>
    if nextTask = 0 then some s
    else
      let task := nextTask
      let nextTask := s.next task
      if s.wakeUpTime task ≤ now then do
        let s ← taskUnblock s task
        taskWakeLoop now fuel s nextTask
      else
        taskWakeLoop now fuel
          { s with next := Function.update s.next task s.sleepTasks, sleepTasks := task } nextTask

/-- The end of the time slice: `time_slice_remaining && !--time_slice_remaining`. -/
def taskSlice : Sched :=
  let s' := { s with timeSliceRemaining := s.timeSliceRemaining - 1 }
  if s.timeSliceRemaining = 0 then s
  else if s'.timeSliceRemaining = 0 then taskSchedule s'
  else s'

def taskTimeHandler (fuel now : ℕ) : Option Sched :=
  if s.scheduleLockCounter ≠ 0 then some s
  else do
    let s := taskLock s
    let s ← taskWakeLoop now fuel { s with sleepTasks := 0 } s.sleepTasks
    taskUnlock (taskSlice s)

/-- The state after `multitask_init`, for the addresses that `kmalloc` gave the three tasks. -/
def multitaskInit (kernel cleaner idle : ℕ) (next : ℕ → ℕ) (state : ℕ → TaskState)
    (wakeUpTime : ℕ → ℕ) : Sched :=
  let s : Sched := ⟨Function.update next kernel 0, Function.update state kernel .running, wakeUpTime,
    kernel, 0, 0, 0, cleaner, idle, 0, 0, false, timeSlice⟩
  taskAddNode (taskCreateNew (taskCreateNew s cleaner) idle) idle

end BulbOS.Task
