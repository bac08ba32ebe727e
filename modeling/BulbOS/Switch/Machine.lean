import BulbOS.Lib.Run
import BulbOS.Sem.Model

/-!
# Code across context switches (`kernel/proc/task.c`, `kernel/proc/mutex.c`)

The functions that lock the scheduler, as code that a context switch cuts: `task_switch` leaves the
rest of the code on the stack of the task it leaves and goes on with what is on the stack of the task
it switches to. A call puts the code of its body in front of what is left to do; the arguments of the
instructions inside a body are the local variables.

* `Call`: the functions that tasks and the timer call;
* `Instr`: their code, the calls included; `Call.body` and `exec` say what each does;
* `Act`: a task starts calls, the timer interrupts anywhere, or the code goes on by one instruction.

Freed memory keeps what is in it until `task_create_new` uses it again.
-/

namespace BulbOS.Switch

open BulbOS.Task BulbOS.Sem

/-- `condvar_t`; its link is the order of the list of conditions. -/
structure Condvar where
  condition : ℕ
  tasks : ℕ

/-- The tasks of the first condition variable with a condition. -/
def condvarFind (condition : ℕ) : List Condvar → Option ℕ
  | [] => none
  | c :: cs => if c.condition = condition then some c.tasks else condvarFind condition cs

/-- `condvar->tasks = tasks`, for the same one. -/
def condvarSet (condition tasks : ℕ) : List Condvar → List Condvar
  | [] => []
  | c :: cs =>
    if c.condition = condition then { c with tasks := tasks } :: cs
    else c :: condvarSet condition tasks cs

/-- The functions called by tasks and by the timer. A task is created by `task_kernel_create_new` or
`task_user_create_new`, at the address that `kmalloc` gave; `now` is `hpet_get_ns()`. -/
inductive Call
  | taskLock
  | taskUnlock
  | taskBlock (reason : TaskState)
  | taskUnblock (task : ℕ)
  | taskForceSwitch (task : ℕ)
  | taskAddNode (task : ℕ)
  | taskCreate (task : ℕ)
  | taskClean
  | taskTerminate
  | nanoSleepUntil (wakeUpTime now : ℕ)
  | taskTimeHandler (now : ℕ)
  | semaphoreCreate (sem maxCount : ℕ)
  | semaphoreAcquire (sem : ℕ)
  | semaphoreRelease (sem : ℕ)
  | condvarWait (condition mutex : ℕ)
  | condvarSignal (condition : ℕ)
  deriving DecidableEq

/-- What is between two calls, and the calls. -/
inductive Instr
  | call (f : Call)
  | lockScheduler
  | unlockScheduler
  /-- `++postpone_switch_counter` -/
  | postpone
  /-- the test of `task_unlock` -/
  | unpostpone
  | setState (reason : TaskState)
  | schedule
  | switchWrapper (task : ℕ)
  | switch (task : ℕ)
  /-- `current_task` is put on the ready list, by `task_force_switch` -/
  | pushCurrent
  /-- the test of `task_unblock` -/
  | unblock (task : ℕ)
  | addNode (task : ℕ)
  | createNew (task : ℕ)
  | cleanLoop
  /-- `current_task` is put on the list of `terminated_tasks` -/
  | pushTerminated
  | unblockCleaner
  /-- the test of `nano_sleep_until` -/
  | sleep (wakeUpTime now : ℕ)
  /-- the test of `task_time_handler` -/
  | tick (now : ℕ)
  | wakeStart (now : ℕ)
  | wakeLoop (now nextTask : ℕ)
  | slice
  | create (sem maxCount : ℕ)
  /-- the test of `semaphore_acquire` -/
  | acquire (sem : ℕ)
  /-- the test of `semaphore_release` -/
  | release (sem : ℕ)
  /-- `current_task` is put on the list of the condition -/
  | condvarQueue (condition : ℕ)
  | condvarAddList (task : ℕ)
  | signalFind (condition : ℕ)
  | signalLoop (task : ℕ)
  | signalClear (condition : ℕ)
  deriving DecidableEq

/-- The code of a function. -/
def Call.body : Call → List Instr
  | .taskLock => [.lockScheduler, .postpone]
  | .taskUnlock => [.unpostpone, .unlockScheduler]
  | .taskBlock reason => [.lockScheduler, .setState reason, .schedule, .unlockScheduler]
  | .taskUnblock task => [.lockScheduler, .unblock task, .unlockScheduler]
  | .taskForceSwitch task => [.lockScheduler, .pushCurrent, .switchWrapper task, .unlockScheduler]
  | .taskAddNode task => [.addNode task]
  | .taskCreate task => [.createNew task]
  | .taskClean => [.call .taskLock, .cleanLoop, .call .taskUnlock, .call (.taskBlock .blocked)]
  | .taskTerminate =>
    [.call .taskLock, .pushTerminated, .call (.taskBlock .terminated), .unblockCleaner, .call .taskUnlock]
  | .nanoSleepUntil wakeUpTime now => [.call .taskLock, .sleep wakeUpTime now]
  | .taskTimeHandler now => [.tick now]
  | .semaphoreCreate sem maxCount => [.create sem maxCount]
  | .semaphoreAcquire sem => [.call .taskLock, .acquire sem, .call .taskUnlock]
  | .semaphoreRelease sem => [.call .taskLock, .release sem, .call .taskUnlock]
  | .condvarWait condition mutex =>
    [.call .taskLock, .condvarQueue condition, .call (.semaphoreRelease mutex), .call (.taskBlock .condvar),
      .call .taskUnlock, .call (.semaphoreAcquire mutex)]
  | .condvarSignal condition => [.call .taskLock, .signalFind condition, .call .taskUnlock]

/-- The state of `task.c` and of the semaphores and conditions, the code that runs, and the code on the
stack of each task that was created. -/
structure Machine where
  sched : Sched
  sems : ℕ → Semaphore
  condvars : List Condvar
  code : List Instr
  stack : ℕ → Option (List Instr)

namespace Machine

variable (m : Machine)

/-- `is` is done next. -/
def push (is : List Instr) : Machine := { m with code := is ++ m.code }

def setNext (task value : ℕ) : Machine :=
  { m with sched := { m.sched with next := Function.update m.sched.next task value } }

/-- `task_schedule`. -/
def schedule : Machine :=
  let s := m.sched
  if s.postponeSwitchCounter ≠ 0 then { m with sched := { s with postponeSwitchFlag := true } }
  else if s.scheduleTasks = 0 then m
  else
    let task := s.scheduleTasks
    let s := { s with scheduleTasks := s.next task }
    if task = s.idleTask then
      if s.scheduleTasks ≠ 0 then
        let task := s.scheduleTasks
        let s := { s with
          next := Function.update s.next s.idleTask (s.next task)
          scheduleTasks := s.idleTask }
        { m with sched := s }.push [.switchWrapper task]
      else if s.state s.currentTask = .running then { m with sched := s }
      else { m with sched := s }.push [.switchWrapper task]
    else { m with sched := s }.push [.switchWrapper task]

/-- `task_switch_wrapper`. -/
def switchWrapper (task : ℕ) : Machine :=
  let s := m.sched
  if s.postponeSwitchCounter ≠ 0 then
    { m with sched := taskAddNode { s with postponeSwitchFlag := true } task }
  else
    let s' := if s.currentTask = s.idleTask then taskAddNode s s.currentTask else s
    { m with sched :=
      { s' with timeSliceRemaining := if task = s.idleTask then 0 else timeSlice } }.push [.switch task]

/-- `task_switch`. -/
def switch (task : ℕ) : Option Machine :=
  let stack := Function.update m.stack m.sched.currentTask (some m.code)
  (stack task).map fun code => { m with sched := taskSwitch m.sched task, code := code, stack := stack }

/-- The loop of `task_clean` takes the tasks off the list one by one. -/
def cleanLoop : Machine :=
  if m.sched.terminatedTasks = 0 then m
  else { m with sched := { m.sched with
    terminatedTasks := m.sched.next m.sched.terminatedTasks } }.push [.cleanLoop]

/-- The loop of `condvar_add_list`. -/
def condvarAddList (task : ℕ) : Machine :=
  if m.sched.next task ≠ 0 then
    if task = m.sched.currentTask then m else m.push [.condvarAddList (m.sched.next task)]
  else if task ≠ m.sched.currentTask then m.setNext task m.sched.currentTask
  else m

/-- `condvar_wait` up to the release of the mutex. -/
def condvarQueue (condition : ℕ) : Machine :=
  let current := m.sched.currentTask
  let m' := m.setNext current 0
  match condvarFind condition m.condvars with
  | some tasks =>
    if tasks ≠ 0 then m'.push [.condvarAddList tasks]
    else { m' with condvars := condvarSet condition current m.condvars }
  | none => { m' with condvars := ⟨condition, current⟩ :: m.condvars }

/-- One instruction; `m` has the code after it. `none` is `abort`. -/
def exec : Instr → Option Machine
  | .call f => some (m.push f.body)
  | .lockScheduler => some { m with sched := taskLockScheduler m.sched }
  | .unlockScheduler => (taskUnlockScheduler m.sched).map fun s => { m with sched := s }
  | .postpone =>
    some { m with sched :=
      { m.sched with postponeSwitchCounter := m.sched.postponeSwitchCounter + 1 } }
  | .unpostpone =>
    let s := { m.sched with postponeSwitchCounter := dec32 m.sched.postponeSwitchCounter }
    if s.postponeSwitchCounter = 0 ∧ s.postponeSwitchFlag then
      some ({ m with sched := { s with postponeSwitchFlag := false } }.push [.schedule])
    else some { m with sched := s }
  | .setState reason =>
    some { m with sched :=
      { m.sched with state := Function.update m.sched.state m.sched.currentTask reason } }
  | .schedule => some m.schedule
  | .switchWrapper task => some (m.switchWrapper task)
  | .switch task => m.switch task
  | .pushCurrent =>
    let s := { m.sched with
      next := Function.update m.sched.next m.sched.currentTask m.sched.scheduleTasks
      scheduleTasks := m.sched.currentTask }
    some { m with sched := s }
  | .unblock task =>
    if m.sched.scheduleTasks = 0 ∨ m.sched.currentTask = m.sched.idleTask then
      some (m.push [.switchWrapper task])
    else some { m with sched := taskAddNode m.sched task }
  | .addNode task => some { m with sched := taskAddNode m.sched task }
  | .createNew task =>
    some { m with
      sched := taskCreateNew m.sched task
      stack := Function.update m.stack task (some [.unlockScheduler]) }
  | .cleanLoop => some m.cleanLoop
  | .pushTerminated =>
    let s := { m.sched with
      next := Function.update m.sched.next m.sched.currentTask m.sched.terminatedTasks
      terminatedTasks := m.sched.currentTask }
    some { m with sched := s }
  | .unblockCleaner => some (m.push [.call (.taskUnblock m.sched.taskCleaner)])
  | .sleep wakeUpTime now =>
    if wakeUpTime < now then some (m.push [.call .taskUnlock])
    else
      let s := { m.sched with
        wakeUpTime := Function.update m.sched.wakeUpTime m.sched.currentTask wakeUpTime
        next := Function.update m.sched.next m.sched.currentTask m.sched.sleepTasks
        sleepTasks := m.sched.currentTask }
      some ({ m with sched := s }.push [.call .taskUnlock, .call (.taskBlock .sleeping)])
  | .tick now =>
    if m.sched.scheduleLockCounter ≠ 0 then some m
    else some (m.push [.call .taskLock, .wakeStart now, .slice, .call .taskUnlock])
  | .wakeStart now =>
    some ({ m with sched := { m.sched with sleepTasks := 0 } }.push [.wakeLoop now m.sched.sleepTasks])
  | .wakeLoop now task =>
    if task = 0 then some m
    else
      let nextTask := m.sched.next task
      if m.sched.wakeUpTime task ≤ now then
        some (m.push [.call (.taskUnblock task), .wakeLoop now nextTask])
      else
        let s := { m.sched with
          next := Function.update m.sched.next task m.sched.sleepTasks
          sleepTasks := task }
        some ({ m with sched := s }.push [.wakeLoop now nextTask])
  | .slice =>
    let s := { m.sched with timeSliceRemaining := m.sched.timeSliceRemaining - 1 }
    if m.sched.timeSliceRemaining = 0 then some m
    else if s.timeSliceRemaining = 0 then some ({ m with sched := s }.push [.schedule])
    else some { m with sched := s }
  | .create sem maxCount => some { m with sems := Function.update m.sems sem (semaphoreCreate maxCount) }
  | .acquire sem =>
    let x := m.sems sem
    if x.currentCount < x.maxCount then
      some { m with sems := Function.update m.sems sem { x with currentCount := x.currentCount + 1 } }
    else
      some ({ m with
        sched := (enqueue m.sched x).1
        sems := Function.update m.sems sem (enqueue m.sched x).2 }.push [.call (.taskBlock .waitingForLock)])
  | .release sem =>
    let x := m.sems sem
    if x.waitingTasksStart = 0 then
      some { m with sems := Function.update m.sems sem { x with currentCount := dec32 x.currentCount } }
    else
      let x' := { x with waitingTasksStart := m.sched.next x.waitingTasksStart }
      some ({ m with sems := Function.update m.sems sem x' }.push [.call (.taskUnblock x.waitingTasksStart)])
  | .condvarQueue condition => some (m.condvarQueue condition)
  | .condvarAddList task => some (m.condvarAddList task)
  | .signalFind condition =>
    match condvarFind condition m.condvars with
    | some tasks => some (m.push [.signalLoop tasks, .signalClear condition])
    | none => some m
  | .signalLoop task =>
    if task = 0 then some m
    else some (m.push [.call (.taskUnblock task), .signalLoop (m.sched.next task)])
  | .signalClear condition => some { m with condvars := condvarSet condition 0 m.condvars }

/-- The code goes on by one instruction. -/
def step : Option Machine :=
  match m.code with
  | [] => none
  | i :: rest => { m with code := rest }.exec i

end Machine

/-- What can happen to the machine. -/
inductive Act
  /-- the current task, outside these functions, makes calls -/
  | start (calls : List Call)
  /-- the timer -/
  | interrupt (now : ℕ)
  | go

/-- The tasks given to a call. -/
def Call.Args (T : ℕ → Prop) : Call → Prop
  | .taskUnblock task | .taskForceSwitch task | .taskAddNode task => T task
  | .taskCreate task => task ≠ 0
  | _ => True

/-- The tasks there are after a call. -/
def Call.tasks (T : ℕ → Prop) : Call → ℕ → Prop
  | .taskCreate task => fun t => t = task ∨ T t
  | _ => T

/-- Calls a task may make when `depth` of its `task_lock` are open: `task_lock` and `task_unlock`
delimit sections, and only tasks that exist are named. -/
def Sections : (ℕ → Prop) → ℕ → List Call → Prop
  | _, depth, [] => depth = 0
  | T, depth, f :: fs =>
    f.Args T ∧
      match f with
      | .taskLock => Sections T (depth + 1) fs
      | .taskUnlock => 0 < depth ∧ Sections T (depth - 1) fs
      | f => Sections (f.tasks T) depth fs

/-- The tasks that were created. -/
def Machine.Task (m : Machine) (task : ℕ) : Prop := (m.stack task).isSome

/-- A step of the machine. -/
def MachineStep (m : Machine) : Act → Machine → Prop
  | .start calls, m' => m.code = [] ∧ Sections m.Task 0 calls ∧ m' = m.push (calls.map .call)
  | .interrupt now, m' => m' = m.push [.call (.taskTimeHandler now)]
  | .go, m' => m.step = some m'

/-- The machine after `multitask_init`. -/
def bootMachine (s : Sched) (sems : ℕ → Semaphore) : Machine where
  sched := s
  sems := sems
  condvars := []
  code := []
  stack := fun t =>
    if t = s.currentTask then some [] else if t = s.taskCleaner ∨ t = s.idleTask then some [.unlockScheduler]
    else none

end BulbOS.Switch
