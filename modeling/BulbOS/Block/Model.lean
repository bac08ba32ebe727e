import BulbOS.Sem.Model
import BulbOS.Task.Conserve

/-!
# Who blocks and who is named (`task.c`, `mutex.c`, `ide.c`)

All that blocks a task or names a blocked one: the calls of `task.c`, the sections between `task_lock` and
`task_unlock` (the semaphores and the condition variables), and the disk.

Besides the code's data, a configuration says which tasks wait and for what, and keeps a log of the tasks
that `task_unblock` and `task_force_switch` named.
-/

namespace BulbOS.Block

open KLib BulbOS.Task BulbOS.Sem

structure BlockCfg where
  sched : Sched
  /-- Tasks created and not cleaned up. -/
  live : List ℕ
  /-- Tasks that called `task_block` and have not been named since, and new ones not yet started. -/
  waiting : List ℕ
  /-- Tasks that a tick took the processor from; they are on no list. -/
  lost : List ℕ
  sem : ℕ → Semaphore
  /-- `actual_disk_req.task`. -/
  diskTask : ℕ
  /-- Those of the waiting tasks that are in `semaphore_acquire`, for each semaphore in order. -/
  queue : ℕ → List ℕ
  /-- Those of the waiting tasks that are in `ide_access_disk`. -/
  disk : List ℕ
  /-- In a section: the running task has called `task_block`. -/
  gone : Bool
  /-- The tasks that were named so far. -/
  named : List ℕ
  /-- The semaphores and the tasks they handed a slot to so far. -/
  served : List (ℕ × ℕ)
  /-- The tasks that the completion interrupt of the disk named so far. -/
  completed : List ℕ

/-- The tasks of a list that starts at `a`. -/
def walk (next : ℕ → ℕ) : ℕ → ℕ → List ℕ
  | 0, _ => []
  | fuel + 1, a => if a = 0 then [] else a :: walk next fuel (next a)

/-! ## Sections -/

/-- `semaphore_acquire` without its own `task_lock` and `task_unlock`. -/
def acquireBody (s : Sched) (sem : Semaphore) : Option (Sched × Semaphore) :=
  if sem.currentCount < sem.maxCount then some (s, { sem with currentCount := sem.currentCount + 1 })
  else do
    let (s, sem) := enqueue s sem
    let s ← taskBlock s .waitingForLock
    return (s, sem)

/-- `semaphore_release` without its own `task_lock` and `task_unlock`. -/
def releaseBody (s : Sched) (sem : Semaphore) : Option (Sched × Semaphore) :=
  if sem.waitingTasksStart = 0 then some (s, { sem with currentCount := dec32 sem.currentCount })
  else do
    let task := sem.waitingTasksStart
    let sem := { sem with waitingTasksStart := s.next task }
    let s ← taskUnblock s task
    return (s, sem)

/-- What is done between `task_lock` and `task_unlock`, also by interrupt handlers. Calls of
`semaphore_acquire` and `semaphore_release` lock once more, which only counts. -/
inductive Act
  | block (reason : TaskState)
  | unblock (task : ℕ)
  /-- The list of a condition variable is linked through its waiting tasks. -/
  | link (task x : ℕ)
  | acquire (i : ℕ)
  | release (i : ℕ)
  /-- `ide_handler`. -/
  | irq

/-- `task_unblock(task)`, called for any reason. -/
def BlockCfg.unblock (c : BlockCfg) (task : ℕ) : Option BlockCfg :=
  (taskUnblock c.sched task).map fun s =>
    { c with sched := s, waiting := c.waiting.erase task, named := c.named ++ [task] }

/-- `task_unblock(actual_disk_req.task)`. -/
def BlockCfg.ideHandler (c : BlockCfg) : Option BlockCfg :=
  (c.unblock c.diskTask).map fun c' =>
    { c' with disk := c.disk.filter (· ≠ c.diskTask), completed := c.completed ++ [c.diskTask] }

def actStep (c : BlockCfg) : Act → Option BlockCfg
  | .block reason => (taskBlock c.sched reason).map fun s =>
    { c with sched := s, waiting := c.sched.currentTask :: c.waiting, gone := true }
  | .unblock task => c.unblock task
  | .link task x => some { c with sched := { c.sched with next := Function.update c.sched.next task x } }
  | .acquire i => (acquireBody c.sched (c.sem i)).map fun (s, sem) =>
    let c' := { c with sched := s, sem := Function.update c.sem i sem }
    if (c.sem i).currentCount < (c.sem i).maxCount then c'
    else { c' with
      waiting := c.sched.currentTask :: c.waiting
      queue := Function.update c.queue i (c.queue i ++ [c.sched.currentTask])
      gone := true }
  | .release i => (releaseBody c.sched (c.sem i)).map fun (s, sem) =>
    let c' := { c with sched := s, sem := Function.update c.sem i sem }
    let task := (c.sem i).waitingTasksStart
    if task = 0 then c'
    else { c' with
      waiting := c.waiting.erase task
      queue := Function.update c.queue i (c.queue i).tail
      named := c.named ++ [task]
      served := c.served ++ [(i, task)] }
  | .irq => c.ideHandler

/-- The task waits, but not for a semaphore or the disk. -/
def Parked (c : BlockCfg) (t : ℕ) : Prop := t ∈ c.waiting ∧ (∀ i, t ∉ c.queue i) ∧ t ∉ c.disk

/-- A task blocks once in a section, and the idle task never; `condvar_signal` names tasks that wait for a
condition, and their links are those of its list. -/
def Act.Legal (c : BlockCfg) : Act → Prop
  | .block reason => c.gone = false ∧ c.sched.currentTask ≠ c.sched.idleTask ∧
    reason ∈ [TaskState.blocked, .condvar]
  | .unblock task => Parked c task
  | .link task _ => c.gone = false ∧ task = c.sched.currentTask ∨ Parked c task
  | .acquire _ => c.gone = false ∧ c.sched.currentTask ≠ c.sched.idleTask
  | .release _ => True
  | .irq => True

/-- The completion interrupt does not come before the `task_block` of `ide_access_disk`. -/
def Act.Sound (c : BlockCfg) : Act → Prop
  | .irq => c.diskTask ∈ c.disk
  | _ => True

/-- Each of the acts, done in order, satisfies `P`. -/
def Along (P : BlockCfg → Act → Prop) : BlockCfg → List Act → Prop
  | _, [] => True
  | c, a :: acts => P c a ∧ ∀ c', actStep c a = some c' → Along P c' acts

/-! ## Steps -/

inductive BlockOp
  | task (op : TaskOp)
  /-- `task_kernel_create_new`, for a task that is started by naming it. -/
  | create (task : ℕ)
  | section (acts : List Act)
  /-- `ide_access_disk` up to its `task_block(IO_REQUEST)`. -/
  | request
  | irq

/-- The tasks that an operation of `task.c` names. -/
def taskNames (c : BlockCfg) : TaskOp → List ℕ
  | .unblock task | .forceSwitch task => [task]
  | .terminate => [c.sched.taskCleaner]
  | .tick now => (walk c.sched.next (c.live.length + 1) c.sched.sleepTasks).filter
    (c.sched.wakeUpTime · ≤ now)
  | .add _ | .block _ | .sleep _ _ | .clean => []

/-- The task that loses the processor at the end of its time slice. -/
def taskLoses (c : BlockCfg) : TaskOp → List ℕ
  | .tick _ => if c.sched.timeSliceRemaining = 1 then [c.sched.currentTask] else []
  | _ => []

/-- The task that waits for the disk from now on. -/
def taskRequests (c : BlockCfg) : TaskOp → List ℕ
  | .block .ioRequest => [c.sched.currentTask]
  | _ => []

def blockStep (c : BlockCfg) : BlockOp → Option BlockCfg
  | .task op => (taskStep ⟨c.sched, c.live, c.waiting⟩ op).map fun k =>
    { c with
      sched := k.sched
      live := k.live
      waiting := k.waiting
      lost := taskLoses c op ++ c.lost
      disk := taskRequests c op ++ c.disk
      named := c.named ++ taskNames c op }
  | .create task => some { c with
    sched := taskCreateNew c.sched task, live := task :: c.live, waiting := task :: c.waiting }
  | .section acts => do
    let c' ← acts.foldlM actStep { c with sched := taskLock c.sched }
    let s ← taskUnlock c'.sched
    return { c' with sched := s, gone := false }
  | .request => some { c with diskTask := c.sched.currentTask }
  | .irq => c.ideHandler

/-- What the code can do. -/
def BlockOp.Legal (c : BlockCfg) : BlockOp → Prop
  | .task (.unblock t) => Parked c t
  | .task (.forceSwitch t) => (∀ i, t ∉ c.queue i) ∧ t ∉ c.disk
  | .task op => op.Legal ⟨c.sched, c.live, c.waiting⟩
  | .create t => t ≠ 0 ∧ t ∉ c.live
  | .section acts => Along (fun c a => a.Legal c) { c with sched := taskLock c.sched } acts
  | .request => True
  | .irq => True

/-- The steps after which blocking still works: a tick that ends a time slice finds another task ready than
the idle one, a forced switch is made by another task than the idle one and to a task that waits, the cleaner
waits for its next round when a task terminates, and the disk is done only after `task_block`. -/
def BlockOp.Sound (c : BlockCfg) : BlockOp → Prop
  | .task (.tick _) => c.sched.timeSliceRemaining = 1 →
    ¬ (c.sched.scheduleTasks = c.sched.idleTask ∧ c.sched.next c.sched.idleTask = 0)
  | .task (.forceSwitch t) => c.sched.currentTask ≠ c.sched.idleTask ∧ t ∈ c.waiting
  | .task .terminate => Parked c c.sched.taskCleaner
  | .section acts => Along (fun c a => a.Sound c) { c with sched := taskLock c.sched } acts
  | .irq => c.diskTask ∈ c.disk
  | _ => True

/-- The running task calls `task_block` in this step. -/
def BlockOp.Blocks (c : BlockCfg) : BlockOp → Prop
  | .task (.block _) | .task .terminate => True
  | .task (.sleep wakeUpTime now) => ¬ wakeUpTime < now
  | .section acts => ∃ c', acts.foldlM actStep { c with sched := taskLock c.sched } = some c' ∧ c'.gone = true
  | _ => False

/-- A step of the code. -/
def BlockMove (c : BlockCfg) (op : BlockOp) (c' : BlockCfg) : Prop := op.Legal c ∧ blockStep c op = some c'

/-- The system after `multitask_init`, with semaphores that nobody holds. -/
def blockBoot (kernel cleaner idle : ℕ) (next : ℕ → ℕ) (state : ℕ → TaskState) (wakeUpTime maxCount : ℕ → ℕ) :
    BlockCfg where
  sched := multitaskInit kernel cleaner idle next state wakeUpTime
  live := [kernel, cleaner, idle]
  waiting := [cleaner]
  lost := []
  sem := fun i => semaphoreCreate (maxCount i)
  diskTask := 0
  queue := fun _ => []
  disk := []
  gone := false
  named := []
  served := []
  completed := []

end BulbOS.Block
