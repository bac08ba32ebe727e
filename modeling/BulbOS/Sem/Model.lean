import BulbOS.Task.Model

/-!
# Semaphores (`kernel/proc/mutex.c`)

The queue of a semaphore is linked through the `next` field of the waiting tasks, the same field that
links the ready list. A mutex is a semaphore with one slot.
-/

namespace BulbOS.Sem

open BulbOS.Task

/-- `semaphore_t`. -/
structure Semaphore where
  maxCount : ℕ
  currentCount : ℕ
  waitingTasksStart : ℕ
  waitingTasksEnd : ℕ

def semaphoreCreate (maxCount : ℕ) : Semaphore := ⟨maxCount, 0, 0, 0⟩

def mutexCreate : Semaphore := semaphoreCreate 1

/-- `current_task` is put at the end of the queue. -/
def enqueue (s : Sched) (sem : Semaphore) : Sched × Semaphore :=
  let next := Function.update s.next s.currentTask 0
  if sem.waitingTasksStart = 0 then
    ({ s with next := next },
      { sem with waitingTasksStart := s.currentTask, waitingTasksEnd := s.currentTask })
  else
    ({ s with next := Function.update next sem.waitingTasksEnd s.currentTask },
      { sem with waitingTasksEnd := s.currentTask })

def semaphoreAcquire (s : Sched) (sem : Semaphore) : Option (Sched × Semaphore) :=
  let s := taskLock s
  if sem.currentCount < sem.maxCount then do
    let s ← taskUnlock s
    return (s, { sem with currentCount := sem.currentCount + 1 })
  else do
    let (s, sem) := enqueue s sem
    let s ← taskBlock s .waitingForLock
    let s ← taskUnlock s
    return (s, sem)

def semaphoreRelease (s : Sched) (sem : Semaphore) : Option (Sched × Semaphore) :=
  let s := taskLock s
  if sem.waitingTasksStart = 0 then do
    let s ← taskUnlock s
    return (s, { sem with currentCount := dec32 sem.currentCount })
  else do
    let task := sem.waitingTasksStart
    let sem := { sem with waitingTasksStart := s.next task }
    let s ← taskUnblock s task
    let s ← taskUnlock s
    return (s, sem)

end BulbOS.Sem
