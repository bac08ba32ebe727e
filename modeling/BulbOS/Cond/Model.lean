import BulbOS.Switch.Machine
import BulbOS.Task.Conserve

/-!
# Condition variables (`kernel/proc/mutex.c`)

The list of a condition is linked through the `next` field of the tasks, as the ready list and the queues of
the semaphores are. `condvar_wait` is two steps: the section that ends with `task_block`, and, once the task
runs again, `mutex_acquire`. `none` is `abort`, or a loop that does not end.
-/

namespace BulbOS.Cond

open BulbOS.Task BulbOS.Sem BulbOS.Switch

/-- `condvar_add_list`, at `task`. -/
def condvarAddList : ℕ → Sched → ℕ → Option Sched
  | 0, _, _ => none
  | fuel + 1, s, task =>
    if s.next task ≠ 0 then
      if task = s.currentTask then some s else condvarAddList fuel s (s.next task)
    else if task ≠ s.currentTask then some { s with next := Function.update s.next task s.currentTask }
    else some s

/-- `current_task` is put on the list of the condition. -/
def condvarQueue (fuel : ℕ) (s : Sched) (condvars : List Condvar) (condition : ℕ) :
    Option (Sched × List Condvar) :=
  let s := { s with next := Function.update s.next s.currentTask 0 }
  match condvarFind condition condvars with
  | some tasks =>
    if tasks ≠ 0 then (condvarAddList fuel s tasks).map fun s => (s, condvars)
    else some (s, condvarSet condition s.currentTask condvars)
  | none => some (s, ⟨condition, s.currentTask⟩ :: condvars)

/-- `condvar_wait` up to the `task_unlock` after `task_block(CONDVAR)`; `sem` is its mutex. -/
def condvarWait (fuel : ℕ) (s : Sched) (sem : Semaphore) (condvars : List Condvar) (condition : ℕ) :
    Option (Sched × Semaphore × List Condvar) := do
  let (s, condvars) ← condvarQueue fuel (taskLock s) condvars condition
  let (s, sem) ← semaphoreRelease s sem
  let s ← taskBlock s .condvar
  let s ← taskUnlock s
  return (s, sem, condvars)

/-- The loop of `condvar_signal`. -/
def signalLoop : ℕ → Sched → ℕ → Option Sched
  | 0, _, _ => none
  | fuel + 1, s, task =>
    if task = 0 then some s
    else do
      let next := s.next task
      let s ← taskUnblock s task
      signalLoop fuel s next

def condvarSignal (fuel : ℕ) (s : Sched) (condvars : List Condvar) (condition : ℕ) :
    Option (Sched × List Condvar) :=
  let s := taskLock s
  match condvarFind condition condvars with
  | some tasks => do
    let s ← signalLoop fuel s tasks
    let s ← taskUnlock s
    return (s, condvarSet condition 0 condvars)
  | none => do
    let s ← taskUnlock s
    return (s, condvars)

/-! ## Steps -/

/-- Where a task is in `condvar_wait`: before `mutex_acquire`, or in it. -/
inductive Phase
  | waiting
  | acquiring
  deriving DecidableEq

/-- Besides the code's data, who waits where. -/
structure CondCfg where
  sched : Sched
  /-- Tasks created and not cleaned up. -/
  live : List ℕ
  /-- Tasks that blocked and have not been named since. -/
  waiting : List ℕ
  sem : ℕ → Semaphore
  condvars : List Condvar
  /-- The tasks in the queue of each semaphore and on the list of each condition. -/
  list : ℕ ⊕ ℕ → List ℕ
  /-- The tasks that own a slot of each semaphore. -/
  hold : ℕ → List ℕ
  /-- The tasks in `condvar_wait`, with its arguments. -/
  wait : ℕ → Option (ℕ × ℕ × Phase)

/-- The first task of the queue or list. -/
def headOf (sem : ℕ → Semaphore) (condvars : List Condvar) : ℕ ⊕ ℕ → ℕ
  | .inl i => (sem i).waitingTasksStart
  | .inr k => (condvarFind k condvars).getD 0

def CondCfg.fuel (c : CondCfg) : ℕ := c.live.length + 1

inductive CondOp
  /-- Anything else that `task.c` does. -/
  | task (op : TaskOp)
  | acquire (i : ℕ)
  | release (i : ℕ)
  | wait (k m : ℕ)
  /-- The `mutex_acquire` of `condvar_wait`. -/
  | reacquire (k m : ℕ)
  | signal (k : ℕ)

/-- A task that was handed the slot it waited for in `condvar_wait` returns when it is resumed. -/
def CondCfg.resume (c : CondCfg) : CondCfg :=
  match c.wait c.sched.currentTask with
  | some (_, _, .acquiring) => { c with wait := Function.update c.wait c.sched.currentTask none }
  | _ => c

/-- `semaphore_acquire` took a slot, or the running task waits. -/
def CondCfg.acquired (c : CondCfg) (i : ℕ) (s : Sched) (x : Semaphore) : CondCfg :=
  let c' := { c with sched := s, sem := Function.update c.sem i x }
  if (c.sem i).currentCount < (c.sem i).maxCount then
    { c' with hold := Function.update c.hold i (c.sched.currentTask :: c.hold i) }
  else { c' with
    waiting := c.sched.currentTask :: c.waiting
    list := Function.update c.list (.inl i) (c.list (.inl i) ++ [c.sched.currentTask]) }

/-- `semaphore_release` gave up the slot, or the first waiting task owns it. -/
def CondCfg.released (c : CondCfg) (i : ℕ) (s : Sched) (x : Semaphore) : CondCfg :=
  let c' := { c with sched := s, sem := Function.update c.sem i x }
  let task := (c.sem i).waitingTasksStart
  let rest := (c.hold i).erase c.sched.currentTask
  if task = 0 then { c' with hold := Function.update c.hold i rest }
  else { c' with
    hold := Function.update c.hold i (task :: rest)
    waiting := c.waiting.erase task
    list := Function.update c.list (.inl i) (c.list (.inl i)).tail }

def condStep (c : CondCfg) : CondOp → Option CondCfg
  | .task op => (taskStep ⟨c.sched, c.live, c.waiting⟩ op).map fun k =>
    { c with sched := k.sched, live := k.live, waiting := k.waiting }.resume
  | .acquire i => (semaphoreAcquire c.sched (c.sem i)).map fun (s, x) => (c.acquired i s x).resume
  | .reacquire k m => (semaphoreAcquire c.sched (c.sem m)).map fun (s, x) =>
    let wait := if (c.sem m).currentCount < (c.sem m).maxCount then none else some (k, m, Phase.acquiring)
    { c.acquired m s x with wait := Function.update c.wait c.sched.currentTask wait }.resume
  | .release i => (semaphoreRelease c.sched (c.sem i)).map fun (s, x) => (c.released i s x).resume
  | .wait k m => (condvarWait c.fuel c.sched (c.sem m) c.condvars k).map fun (s, x, condvars) =>
    let c' := c.released m s x
    { c' with
      condvars := condvars
      waiting := c.sched.currentTask :: c'.waiting
      list := Function.update c'.list (.inr k) (c.list (.inr k) ++ [c.sched.currentTask])
      wait := Function.update c.wait c.sched.currentTask (some (k, m, .waiting)) }.resume
  | .signal k => (condvarSignal c.fuel c.sched c.condvars k).map fun (s, condvars) =>
    { c with
      sched := s
      condvars := condvars
      waiting := c.waiting.diff (c.list (.inr k))
      list := Function.update c.list (.inr k) [] }.resume

/-- The task waits, but for no semaphore and no condition. -/
def Parked (c : CondCfg) (t : ℕ) : Prop := t ∈ c.waiting ∧ ∀ j, t ∉ c.list j

/-- The other steps: those that keep every task in one place, and name no task that waits here. A task in
`condvar_wait` does nothing else. -/
def otherLegal (c : CondCfg) (op : TaskOp) : Prop :=
  op.Legal ⟨c.sched, c.live, c.waiting⟩ ∧ op.Sound ⟨c.sched, c.live, c.waiting⟩ ∧
    match op with
    | .unblock t | .forceSwitch t => Parked c t
    | .terminate => c.wait c.sched.currentTask = none ∧ Parked c c.sched.taskCleaner
    | .block _ | .sleep _ _ => c.wait c.sched.currentTask = none
    | .add _ | .clean | .tick _ => True

/-- What tasks do: the idle task makes no calls, a mutex is released by its owner, and after `task_block`
the next thing that `condvar_wait` does is `mutex_acquire`. -/
def CondOp.Legal (c : CondCfg) : CondOp → Prop
  | .task op => otherLegal c op
  | .acquire _ | .signal _ => c.sched.currentTask ≠ c.sched.idleTask ∧ c.wait c.sched.currentTask = none
  | .release i => c.sched.currentTask ∈ c.hold i ∧ c.wait c.sched.currentTask = none
  | .wait _ m => c.sched.currentTask ≠ c.sched.idleTask ∧ c.wait c.sched.currentTask = none ∧
    c.sched.currentTask ∈ c.hold m
  | .reacquire k m => c.wait c.sched.currentTask = some (k, m, .waiting)

/-- A step of the system. -/
def CondMove (c : CondCfg) (op : CondOp) (c' : CondCfg) : Prop := op.Legal c ∧ condStep c op = some c'

/-- The system after `multitask_init`, with semaphores that nobody holds. -/
def condBoot (kernel cleaner idle : ℕ) (next : ℕ → ℕ) (state : ℕ → TaskState) (wakeUpTime maxCount : ℕ → ℕ) :
    CondCfg where
  sched := multitaskInit kernel cleaner idle next state wakeUpTime
  live := [kernel, cleaner, idle]
  waiting := [cleaner]
  sem := fun i => semaphoreCreate (maxCount i)
  condvars := []
  list := fun _ => []
  hold := fun _ => []
  wait := fun _ => none

end BulbOS.Cond
