import BulbOS.Switch.Machine

/-!
# The scheduler lock is balanced across context switches

`schedule_lock_counter` and `postpone_switch_counter` are global: what one task adds, another takes
away after a switch. `Fits T (p, held) code` says what code may be left to the running task when `p`
calls of `task_lock` are open and, if `held`, the scheduler is locked once more by a function that may
switch. A task that is not running has one `task_unlock_scheduler` to do and then code that fits `0`
open calls.

* `Machine.exec_balanced`: one instruction keeps this;
* **`scheduler_lock_balanced`**: so it holds in every reachable state, and no `task_unlock_scheduler`
  aborts.
-/

namespace BulbOS.Switch

open BulbOS.Task BulbOS.Sem KLib

/-! ## Code that fits the counters -/

/-- A call may be made here. -/
def Call.Needs (T : ℕ → Prop) (c : ℕ × Bool) (f : Call) : Prop :=
  f.Args T ∧
    match f with
    | .taskTimeHandler _ => True
    | .taskUnlock => c.2 = false ∧ 0 < c.1
    | _ => c.2 = false

/-- The counters after a call. -/
def Call.after (c : ℕ × Bool) : Call → ℕ × Bool
  | .taskLock => (c.1 + 1, false)
  | .taskUnlock => (c.1 - 1, false)
  | _ => c

/-- A switch is postponed here, or only a `task_unlock_scheduler` is left of the function that makes it. -/
def MaySwitch (c : ℕ × Bool) (rest : List Instr) : Prop :=
  0 < c.1 ∨ c.2 = true ∧ rest.head? = some .unlockScheduler

/-- A list may be empty or start with a task. -/
def Ptr (T : ℕ → Prop) (t : ℕ) : Prop := t = 0 ∨ T t

/-- An instruction may be done here, before `rest`. -/
def Instr.Needs (T : ℕ → Prop) (c : ℕ × Bool) (rest : List Instr) : Instr → Prop
  | .call f => f.Needs T c
  | .lockScheduler => c.2 = false
  | .unlockScheduler | .postpone => c.2 = true
  | .unpostpone => c.2 = false ∧ 0 < c.1 ∧ rest.head? = some .unlockScheduler
  | .schedule => MaySwitch c rest
  | .switchWrapper t | .unblock t => T t ∧ MaySwitch c rest
  | .switch t => T t ∧ c = (0, true) ∧ rest.head? = some .unlockScheduler
  | .addNode t | .condvarAddList t => T t
  | .createNew t => t ≠ 0
  | .sleep _ _ | .acquire _ | .release _ => c.2 = false ∧ 0 < c.1
  | .unblockCleaner | .signalFind _ | .wakeStart _ => c.2 = false
  | .signalLoop t | .wakeLoop _ t => Ptr T t ∧ c.2 = false
  | .slice => 0 < c.1
  | .setState _ | .pushCurrent | .cleanLoop | .pushTerminated | .tick _ | .create _ _ | .condvarQueue _
  | .signalClear _ => True

/-- The counters after an instruction and what it puts in front of the rest. -/
def Instr.after (c : ℕ × Bool) : Instr → ℕ × Bool
  | .call f => f.after c
  | .lockScheduler => (c.1, true)
  | .unlockScheduler => (c.1, false)
  | .postpone => (c.1 + 1, false)
  | .unpostpone => (c.1 - 1, true)
  | .sleep _ _ => (c.1 - 1, false)
  | _ => c

/-- The tasks there are after an instruction. -/
def Instr.tasks (T : ℕ → Prop) : Instr → ℕ → Prop
  | .call f => f.tasks T
  | .createNew task => fun t => t = task ∨ T t
  | _ => T

/-- The code that may be left. -/
def Fits : (ℕ → Prop) → ℕ × Bool → List Instr → Prop
  | _, c, [] => c = (0, false)
  | T, c, i :: rest => i.Needs T c rest ∧ Fits (i.tasks T) (i.after c) rest

/-- The code of a task that is not running. -/
def Suspended (T : ℕ → Prop) (code : List Instr) : Prop :=
  ∃ rest, code = .unlockScheduler :: rest ∧ Fits T (0, false) rest

section Mono

variable {T T' : ℕ → Prop} (hT : ∀ t, T t → T' t)
include hT

theorem Ptr.mono {t : ℕ} (h : Ptr T t) : Ptr T' t := h.imp_right (hT t)

theorem Call.Args.mono {f : Call} (h : f.Args T) : f.Args T' := by
  cases f <;> first | exact hT _ h | exact h

theorem Instr.Needs.mono {c : ℕ × Bool} {rest : List Instr} {i : Instr} (h : i.Needs T c rest) :
    i.Needs T' c rest := by
  cases i with
  | call f => exact ⟨h.1.mono hT, h.2⟩
  | switchWrapper t => exact ⟨hT _ h.1, h.2⟩
  | unblock t => exact ⟨hT _ h.1, h.2⟩
  | switch t => exact ⟨hT _ h.1, h.2⟩
  | addNode t => exact hT _ h
  | condvarAddList t => exact hT _ h
  | signalLoop t => exact ⟨Ptr.mono hT h.1, h.2⟩
  | wakeLoop now t => exact ⟨Ptr.mono hT h.1, h.2⟩
  | _ => exact h

theorem Instr.tasks_mono {i : Instr} {t : ℕ} (h : i.tasks T t) : i.tasks T' t := by
  cases i with
  | call f => cases f <;> first | exact hT _ h | exact h.imp_right (hT _)
  | createNew task => exact h.imp_right (hT _)
  | _ => exact hT _ h

end Mono

theorem Fits.mono {T T' : ℕ → Prop} (hT : ∀ t, T t → T' t) {code : List Instr} {c : ℕ × Bool}
    (h : Fits T c code) : Fits T' c code := by
  induction code generalizing T T' c with
  | nil => exact h
  | cons i rest ih => exact ⟨h.1.mono hT, ih (fun _ => Instr.tasks_mono hT) h.2⟩

theorem Suspended.mono {T T' : ℕ → Prop} (hT : ∀ t, T t → T' t) {code : List Instr}
    (h : Suspended T code) : Suspended T' code := by
  obtain ⟨rest, rfl, h⟩ := h
  exact ⟨rest, rfl, h.mono hT⟩

theorem Sections.fits {T : ℕ → Prop} {depth : ℕ} {calls : List Call} (h : Sections T depth calls) :
    Fits T (depth, false) (calls.map .call) := by
  induction calls generalizing T depth with
  | nil =>
    rw [Sections] at h
    rw [h]
    rfl
  | cons f fs ih =>
    obtain ⟨hargs, h⟩ := h
    cases f with
    | taskLock => exact ⟨⟨hargs, rfl⟩, ih h⟩
    | taskUnlock => exact ⟨⟨hargs, rfl, h.1⟩, ih h.2⟩
    | taskTimeHandler now => exact ⟨⟨hargs, trivial⟩, ih h⟩
    | _ => exact ⟨⟨hargs, rfl⟩, ih h⟩

/-! ## The invariant -/

/-- The lists hold tasks only. -/
structure Closed (T : ℕ → Prop) (s : Sched) (sems : ℕ → Semaphore) (condvars : List Condvar) : Prop where
  next : ∀ t, T t → Ptr T (s.next t)
  ready : Ptr T s.scheduleTasks
  asleep : Ptr T s.sleepTasks
  terminated : Ptr T s.terminatedTasks
  queues : ∀ sem, Ptr T (sems sem).waitingTasksStart
  conditions : ∀ c ∈ condvars, Ptr T c.tasks

/-- **The counters fit the code of the running task, and every other task waits to unlock once.** -/
structure Balanced (m : Machine) : Prop where
  counters : ∃ held : Bool,
    m.sched.scheduleLockCounter = m.sched.postponeSwitchCounter + held.toNat ∧
      Fits m.Task (m.sched.postponeSwitchCounter, held) m.code
  suspended : ∀ t ≠ m.sched.currentTask, ∀ code, m.stack t = some code → Suspended m.Task code
  null : ¬ m.Task 0
  current : m.Task m.sched.currentTask
  cleaner : m.Task m.sched.taskCleaner
  idle : m.Task m.sched.idleTask
  closed : Closed m.Task m.sched m.sems m.condvars

variable {m m' : Machine} {T : ℕ → Prop} {s : Sched} {sems : ℕ → Semaphore} {condvars : List Condvar}

namespace Closed

theorem mono {T' : ℕ → Prop} (hT : ∀ t, T t → T' t) (h : Closed T s sems condvars)
    (hnew : ∀ t, T' t → ¬ T t → Ptr T' (s.next t)) : Closed T' s sems condvars := by
  refine ⟨fun t ht => ?_, h.ready.mono hT, h.asleep.mono hT, h.terminated.mono hT,
    fun sem => (h.queues sem).mono hT, fun c hc => (h.conditions c hc).mono hT⟩
  by_cases hold : T t
  · exact (h.next t hold).mono hT
  · exact hnew t ht hold

theorem next_update (h : Closed T s sems condvars) {v : ℕ} (hv : Ptr T v) (a t : ℕ) (ht : T t) :
    Ptr T (Function.update s.next a v t) := by
  by_cases e : t = a
  · rw [e, Function.update_self]
    exact hv
  · rw [Function.update_of_ne e]
    exact h.next t ht

theorem addNode (h : Closed T s sems condvars) {t : ℕ} (ht : T t) :
    Closed T (taskAddNode s t) sems condvars :=
  ⟨h.next_update h.ready t, .inr ht, h.asleep, h.terminated, h.queues, h.conditions⟩

theorem sems_update (h : Closed T s sems condvars) {sem : ℕ} {x : Semaphore} (hx : Ptr T x.waitingTasksStart) :
    Closed T s (Function.update sems sem x) condvars := by
  refine ⟨h.next, h.ready, h.asleep, h.terminated, fun sem' => ?_, h.conditions⟩
  by_cases e : sem' = sem
  · rw [e, Function.update_self]
    exact hx
  · rw [Function.update_of_ne e]
    exact h.queues sem'

theorem enqueue (h : Closed T s sems condvars) (hc : T s.currentTask) (sem : ℕ) :
    Closed T (enqueue s (sems sem)).1 sems condvars ∧
      Ptr T (Sem.enqueue s (sems sem)).2.waitingTasksStart := by
  have h₁ : Closed T { s with next := Function.update s.next s.currentTask 0 } sems condvars :=
    ⟨h.next_update (.inl rfl) _, h.ready, h.asleep, h.terminated, h.queues, h.conditions⟩
  rw [Sem.enqueue]
  split_ifs with he
  · exact ⟨h₁, .inr hc⟩
  · exact ⟨⟨h₁.next_update (.inr hc) _, h.ready, h.asleep, h.terminated, h.queues, h.conditions⟩,
      h.queues sem⟩

end Closed

theorem condvarFind_ptr {condition t : ℕ} (h : ∀ c ∈ condvars, Ptr T c.tasks)
    (ht : condvarFind condition condvars = some t) : Ptr T t := by
  induction condvars with
  | nil => cases ht
  | cons c cs ih =>
    rw [condvarFind] at ht
    split_ifs at ht with e
    · cases ht
      exact h c List.mem_cons_self
    · exact ih (fun c hc => h c (List.mem_cons_of_mem _ hc)) ht

theorem condvarSet_ptr {condition t : ℕ} (h : ∀ c ∈ condvars, Ptr T c.tasks) (ht : Ptr T t) :
    ∀ c ∈ condvarSet condition t condvars, Ptr T c.tasks := by
  induction condvars with
  | nil => exact h
  | cons c cs ih =>
    have hcs : ∀ c ∈ cs, Ptr T c.tasks := fun c hc => h c (List.mem_cons_of_mem _ hc)
    rw [condvarSet]
    split_ifs with e
    · exact List.forall_mem_cons.mpr ⟨ht, hcs⟩
    · exact List.forall_mem_cons.mpr ⟨h c List.mem_cons_self, ih hcs⟩

/-- An instruction that neither switches nor creates a task keeps the invariant if its counters fit. -/
theorem Balanced.quiet (h : Balanced m) (held : Bool) (hstack : m'.stack = m.stack)
    (hcurrent : m'.sched.currentTask = m.sched.currentTask)
    (hcleaner : m'.sched.taskCleaner = m.sched.taskCleaner) (hidle : m'.sched.idleTask = m.sched.idleTask)
    (hclosed : Closed m.Task m'.sched m'.sems m'.condvars)
    (hlock : m'.sched.scheduleLockCounter = m'.sched.postponeSwitchCounter + held.toNat)
    (hfits : Fits m.Task (m'.sched.postponeSwitchCounter, held) m'.code) : Balanced m' := by
  have hT : m'.Task = m.Task := by
    funext t
    rw [Machine.Task, hstack]
    rfl
  refine ⟨⟨held, hlock, hT ▸ hfits⟩, ?_, hT ▸ h.null, ?_, ?_, ?_, hT ▸ hclosed⟩
  · rw [hcurrent, hstack, hT]
    exact h.suspended
  · rw [hT, hcurrent]
    exact h.current
  · rw [hT, hcleaner]
    exact h.cleaner
  · rw [hT, hidle]
    exact h.idle

/-! ## One instruction -/

theorem Call.body_fits {c : ℕ × Bool} {f : Call} {rest : List Instr} (h : f.Needs T c)
    (hrest : Fits (f.tasks T) (f.after c) rest) : Fits T c (f.body ++ rest) := by
  obtain ⟨p, held⟩ := c
  obtain ⟨hargs, hc⟩ := h
  cases f with
  | taskTimeHandler now => exact ⟨trivial, hrest⟩
  | taskUnlock =>
    obtain ⟨rfl, hp⟩ := hc
    exact ⟨⟨rfl, hp, rfl⟩, rfl, hrest⟩
  | taskLock =>
    cases hc
    exact ⟨rfl, rfl, hrest⟩
  | taskBlock reason =>
    cases hc
    exact ⟨rfl, trivial, .inr ⟨rfl, rfl⟩, rfl, hrest⟩
  | taskUnblock task =>
    cases hc
    exact ⟨rfl, ⟨hargs, .inr ⟨rfl, rfl⟩⟩, rfl, hrest⟩
  | taskForceSwitch task =>
    cases hc
    exact ⟨rfl, trivial, ⟨hargs, .inr ⟨rfl, rfl⟩⟩, rfl, hrest⟩
  | taskAddNode task => exact ⟨hargs, hrest⟩
  | taskCreate task => exact ⟨hargs, hrest⟩
  | taskClean =>
    cases hc
    exact ⟨⟨trivial, rfl⟩, trivial, ⟨trivial, rfl, p.succ_pos⟩, ⟨trivial, rfl⟩, hrest⟩
  | taskTerminate =>
    cases hc
    exact ⟨⟨trivial, rfl⟩, trivial, ⟨trivial, rfl⟩, rfl, ⟨trivial, rfl, p.succ_pos⟩, hrest⟩
  | nanoSleepUntil wakeUpTime now =>
    cases hc
    exact ⟨⟨trivial, rfl⟩, ⟨rfl, p.succ_pos⟩, hrest⟩
  | semaphoreCreate sem maxCount => exact ⟨trivial, hrest⟩
  | semaphoreAcquire sem =>
    cases hc
    exact ⟨⟨trivial, rfl⟩, ⟨rfl, p.succ_pos⟩, ⟨trivial, rfl, p.succ_pos⟩, hrest⟩
  | semaphoreRelease sem =>
    cases hc
    exact ⟨⟨trivial, rfl⟩, ⟨rfl, p.succ_pos⟩, ⟨trivial, rfl, p.succ_pos⟩, hrest⟩
  | condvarWait condition mutex =>
    cases hc
    exact ⟨⟨trivial, rfl⟩, trivial, ⟨trivial, rfl⟩, ⟨trivial, rfl⟩, ⟨trivial, rfl, p.succ_pos⟩,
      ⟨trivial, rfl⟩, hrest⟩
  | condvarSignal condition =>
    cases hc
    exact ⟨⟨trivial, rfl⟩, rfl, ⟨trivial, rfl, p.succ_pos⟩, hrest⟩

namespace Balanced

variable {held : Bool} {rest : List Instr} (h : Balanced m)
  (hlock : m.sched.scheduleLockCounter = m.sched.postponeSwitchCounter + held.toNat)
include h hlock

/-- The counters do not move: the code that is left has to fit as it is. -/
theorem still {sched : Sched} {sems : ℕ → Semaphore} {condvars : List Condvar}
    (hlock' : sched.scheduleLockCounter = m.sched.scheduleLockCounter)
    (hpost : sched.postponeSwitchCounter = m.sched.postponeSwitchCounter)
    (hcurrent : sched.currentTask = m.sched.currentTask) (hcleaner : sched.taskCleaner = m.sched.taskCleaner)
    (hidle : sched.idleTask = m.sched.idleTask) (hclosed : Closed m.Task sched sems condvars)
    (hfits : Fits m.Task (m.sched.postponeSwitchCounter, held) rest) :
    Balanced { m with sched := sched, sems := sems, condvars := condvars, code := rest } :=
  h.quiet held rfl hcurrent hcleaner hidle hclosed (by rw [hlock', hpost]; exact hlock) (by rw [hpost]; exact hfits)

theorem goto (hfits : Fits m.Task (m.sched.postponeSwitchCounter, held) rest) :
    Balanced { m with code := rest } :=
  h.still hlock rfl rfl rfl rfl rfl h.closed hfits

theorem switchWrapper {task : ℕ} (ht : m.Task task)
    (hs : MaySwitch (m.sched.postponeSwitchCounter, held) rest)
    (hrest : Fits m.Task (m.sched.postponeSwitchCounter, held) rest) :
    Balanced ({ m with code := rest }.switchWrapper task) := by
  have hc := h.closed
  by_cases hp : m.sched.postponeSwitchCounter = 0
  · obtain hs | ⟨hheld, hhead⟩ := hs
    · exact absurd hp (Nat.pos_iff_ne_zero.mp hs)
    have hfits : Fits m.Task (m.sched.postponeSwitchCounter, held) (.switch task :: rest) :=
      ⟨⟨ht, Prod.ext hp hheld, hhead⟩, hrest⟩
    by_cases hi : m.sched.currentTask = m.sched.idleTask
    · have hc' := hc.addNode h.current
      simp only [Machine.switchWrapper, if_neg (not_not.mpr hp), if_pos hi]
      exact h.still hlock rfl rfl rfl rfl rfl ⟨hc'.next, hc'.ready, hc'.asleep, hc'.terminated, hc'.queues,
        hc'.conditions⟩ hfits
    · simp only [Machine.switchWrapper, if_neg (not_not.mpr hp), if_neg hi]
      exact h.still hlock rfl rfl rfl rfl rfl ⟨hc.next, hc.ready, hc.asleep, hc.terminated, hc.queues,
        hc.conditions⟩ hfits
  · simp only [Machine.switchWrapper, if_pos hp]
    have hc' : Closed m.Task { m.sched with postponeSwitchFlag := true } m.sems m.condvars :=
      ⟨hc.next, hc.ready, hc.asleep, hc.terminated, hc.queues, hc.conditions⟩
    exact h.still hlock rfl rfl rfl rfl rfl (hc'.addNode ht) hrest

theorem schedule (hs : MaySwitch (m.sched.postponeSwitchCounter, held) rest)
    (hrest : Fits m.Task (m.sched.postponeSwitchCounter, held) rest) :
    Balanced ({ m with code := rest }.schedule) := by
  have hc := h.closed
  have hfits : ∀ t, m.Task t → Fits m.Task (m.sched.postponeSwitchCounter, held) (.switchWrapper t :: rest) :=
    fun t ht => ⟨⟨ht, hs⟩, hrest⟩
  rw [Machine.schedule]
  dsimp only
  split_ifs with hp hr hi hn hrun
  · exact h.still hlock rfl rfl rfl rfl rfl ⟨hc.next, hc.ready, hc.asleep, hc.terminated, hc.queues,
      hc.conditions⟩ hrest
  · exact h.goto hlock hrest
  all_goals
    have hready : m.Task m.sched.scheduleTasks := hc.ready.resolve_left hr
    have hnext : Ptr m.Task (m.sched.next m.sched.scheduleTasks) := hc.next _ hready
  · -- the idle task goes back in front of the list
    have hsecond : m.Task (m.sched.next m.sched.scheduleTasks) := hnext.resolve_left hn
    exact h.still hlock rfl rfl rfl rfl rfl ⟨hc.next_update (hc.next _ hsecond) _, .inr h.idle, hc.asleep,
      hc.terminated, hc.queues, hc.conditions⟩ (hfits _ hsecond)
  · exact h.still hlock rfl rfl rfl rfl rfl ⟨hc.next, hnext, hc.asleep, hc.terminated, hc.queues,
      hc.conditions⟩ hrest
  all_goals
    exact h.still hlock rfl rfl rfl rfl rfl ⟨hc.next, hnext, hc.asleep, hc.terminated, hc.queues,
      hc.conditions⟩ (hfits _ hready)

omit hlock in
/-- **A switch**: the rest of this task's code is that of a suspended one, and the code of the other
task fits the counters it finds. -/
theorem switch {task : ℕ} (ht : m.Task task) (hp : m.sched.postponeSwitchCounter = 0)
    (hl : m.sched.scheduleLockCounter = 1) (hrest : Suspended m.Task rest) :
    ∃ m', { m with code := rest }.switch task = some m' ∧ Balanced m' := by
  let stack := Function.update m.stack m.sched.currentTask (some rest)
  have hT : ∀ t, (stack t).isSome ↔ m.Task t := fun t => by
    by_cases e : t = m.sched.currentTask
    · simp only [stack, e, Function.update_self, Option.isSome_some, true_iff]
      exact h.current
    · simp only [stack, Function.update_of_ne e]
      rfl
  have hall : ∀ t code, stack t = some code → Suspended m.Task code := fun t code hst => by
    by_cases e : t = m.sched.currentTask
    · rw [e] at hst
      simp only [stack, Function.update_self, Option.some.injEq] at hst
      exact hst ▸ hrest
    · simp only [stack, Function.update_of_ne e] at hst
      exact h.suspended t e code hst
  obtain ⟨code, hcode⟩ := Option.isSome_iff_exists.mp ((hT task).mpr ht)
  obtain ⟨code', rfl, hfits⟩ := hall task code hcode
  let m' : Machine :=
    { m with sched := taskSwitch m.sched task, code := .unlockScheduler :: code', stack := stack }
  have hT' : m'.Task = m.Task := by
    funext t
    exact propext (hT t)
  refine ⟨m', ?_, ⟨true, ?_, ?_⟩, ?_, hT' ▸ h.null, ?_, hT' ▸ h.cleaner, hT' ▸ h.idle, ?_⟩
  · simp only [Machine.switch]
    change Option.map _ (stack task) = _
    rw [hcode]
    rfl
  · change m.sched.scheduleLockCounter = m.sched.postponeSwitchCounter + 1
    rw [hp, hl]
  · rw [hT']
    change Fits m.Task (m.sched.postponeSwitchCounter, true) (.unlockScheduler :: code')
    rw [hp]
    exact ⟨rfl, hfits⟩
  · intro t _ code hst
    rw [hT']
    exact hall t code hst
  · rw [hT']
    exact ht
  · rw [hT']
    have hc := h.closed
    exact ⟨hc.next_update (.inl rfl) task, hc.ready, hc.asleep, hc.terminated, hc.queues, hc.conditions⟩

theorem createNew {task : ℕ} (ht : task ≠ 0)
    (hrest : Fits (fun t => t = task ∨ m.Task t) (m.sched.postponeSwitchCounter, held) rest) :
    Balanced { m with
      sched := taskCreateNew m.sched task
      code := rest
      stack := Function.update m.stack task (some [.unlockScheduler]) } := by
  let m' : Machine := { m with
    sched := taskCreateNew m.sched task
    code := rest
    stack := Function.update m.stack task (some [.unlockScheduler]) }
  have hT : m'.Task = fun t => t = task ∨ m.Task t := by
    funext t
    change ((Function.update m.stack task _ t).isSome : Prop) = _
    by_cases e : t = task
    · rw [e, Function.update_self]
      simp
    · rw [Function.update_of_ne e]
      simp [e, Machine.Task]
  have hmono : ∀ t, m.Task t → m'.Task t := fun t ht => by
    rw [hT]
    exact .inr ht
  have hclosed : Closed m.Task (taskCreateNew m.sched task) m.sems m.condvars :=
    ⟨h.closed.next_update (.inl rfl) task, h.closed.ready, h.closed.asleep, h.closed.terminated,
      h.closed.queues, h.closed.conditions⟩
  refine ⟨⟨held, hlock, ?_⟩, ?_, ?_, hmono _ h.current, hmono _ h.cleaner, hmono _ h.idle,
    hclosed.mono hmono fun t ht' hold => ?_⟩
  · rw [hT]
    exact hrest
  · intro t htc code hst
    change Function.update m.stack task (some [.unlockScheduler]) t = some code at hst
    by_cases e : t = task
    · rw [e, Function.update_self] at hst
      cases hst
      exact ⟨[], rfl, rfl⟩
    · rw [Function.update_of_ne e] at hst
      exact (h.suspended t htc code hst).mono hmono
  · rw [hT]
    rintro (h₀ | h₀)
    · exact ht h₀.symm
    · exact h.null h₀
  · rw [hT] at ht'
    obtain rfl := ht'.resolve_right hold
    exact .inl (Function.update_self ..)

theorem condvarAddList {task : ℕ} (ht : m.Task task)
    (hrest : Fits m.Task (m.sched.postponeSwitchCounter, held) rest) :
    Balanced ({ m with code := rest }.condvarAddList task) := by
  have hc := h.closed
  rw [Machine.condvarAddList]
  split_ifs with hn e e
  · exact h.goto hlock hrest
  · exact h.goto hlock ⟨(hc.next _ ht).resolve_left hn, hrest⟩
  · exact h.still hlock rfl rfl rfl rfl rfl ⟨hc.next_update (.inr h.current) task, hc.ready, hc.asleep,
      hc.terminated, hc.queues, hc.conditions⟩ hrest
  · exact h.goto hlock hrest

theorem condvarQueue {condition : ℕ} (hrest : Fits m.Task (m.sched.postponeSwitchCounter, held) rest) :
    Balanced ({ m with code := rest }.condvarQueue condition) := by
  have hc := h.closed
  have hnext := hc.next_update (.inl rfl) m.sched.currentTask
  rw [Machine.condvarQueue]
  cases hfind : condvarFind condition m.condvars with
  | none =>
    exact h.still hlock rfl rfl rfl rfl rfl ⟨hnext, hc.ready, hc.asleep, hc.terminated, hc.queues,
      List.forall_mem_cons.mpr ⟨.inr h.current, hc.conditions⟩⟩ hrest
  | some tasks =>
    have htasks := condvarFind_ptr hc.conditions hfind
    by_cases h₀ : tasks = 0
    · simp only [if_neg (not_not.mpr h₀)]
      exact h.still hlock rfl rfl rfl rfl rfl ⟨hnext, hc.ready, hc.asleep, hc.terminated, hc.queues,
        condvarSet_ptr hc.conditions (.inr h.current)⟩ hrest
    · simp only [if_pos h₀]
      exact h.still hlock rfl rfl rfl rfl rfl ⟨hnext, hc.ready, hc.asleep, hc.terminated, hc.queues,
        hc.conditions⟩ ⟨htasks.resolve_left h₀, hrest⟩

omit hlock in
/-- **One instruction** does not abort, and keeps the invariant. -/
theorem exec_balanced {i : Instr} (hcode : m.code = i :: rest) :
    ∃ m', { m with code := rest }.exec i = some m' ∧ Balanced m' := by
  have hc := h.closed
  obtain ⟨held, hlock, hfits⟩ := h.counters
  rw [hcode] at hfits
  obtain ⟨hneed, hrest⟩ := hfits
  cases i with
  | call f => exact ⟨_, rfl, h.goto hlock (Call.body_fits hneed hrest)⟩
  | lockScheduler =>
    cases hneed
    exact ⟨_, rfl, h.quiet true rfl rfl rfl rfl ⟨hc.next, hc.ready, hc.asleep, hc.terminated,
      hc.queues, hc.conditions⟩ (congrArg (· + 1) hlock) hrest⟩
  | unlockScheduler =>
    cases hneed
    have hne : m.sched.scheduleLockCounter ≠ 0 := by
      rw [hlock]
      exact Nat.succ_ne_zero _
    simp only [Machine.exec, taskUnlockScheduler, if_neg hne]
    exact ⟨_, rfl, h.quiet false rfl rfl rfl rfl ⟨hc.next, hc.ready, hc.asleep, hc.terminated,
      hc.queues, hc.conditions⟩ (congrArg (· - 1) hlock) hrest⟩
  | postpone =>
    cases hneed
    exact ⟨_, rfl, h.quiet false rfl rfl rfl rfl ⟨hc.next, hc.ready, hc.asleep, hc.terminated,
      hc.queues, hc.conditions⟩ hlock hrest⟩
  | unpostpone =>
    obtain ⟨hheld, hp, hhead⟩ := hneed
    cases hheld
    have hdec : dec32 m.sched.postponeSwitchCounter = m.sched.postponeSwitchCounter - 1 :=
      if_neg (Nat.pos_iff_ne_zero.mp hp)
    have hlock' : m.sched.scheduleLockCounter = m.sched.postponeSwitchCounter - 1 + 1 := by
      rw [hlock, Nat.sub_add_cancel hp]
      rfl
    simp only [Machine.exec, hdec]
    split_ifs with hflag
    · exact ⟨_, rfl, h.quiet true rfl rfl rfl rfl ⟨hc.next, hc.ready, hc.asleep, hc.terminated,
        hc.queues, hc.conditions⟩ hlock' ⟨.inr ⟨rfl, hhead⟩, hrest⟩⟩
    · exact ⟨_, rfl, h.quiet true rfl rfl rfl rfl ⟨hc.next, hc.ready, hc.asleep, hc.terminated,
        hc.queues, hc.conditions⟩ hlock' hrest⟩
  | setState reason =>
    exact ⟨_, rfl, h.still hlock rfl rfl rfl rfl rfl ⟨hc.next, hc.ready, hc.asleep, hc.terminated, hc.queues,
      hc.conditions⟩ hrest⟩
  | schedule => exact ⟨_, rfl, h.schedule hlock hneed hrest⟩
  | switchWrapper task => exact ⟨_, rfl, h.switchWrapper hlock hneed.1 hneed.2 hrest⟩
  | switch task =>
    obtain ⟨ht, hpair, hhead⟩ := hneed
    obtain ⟨hp, rfl⟩ := Prod.mk.inj hpair
    obtain ⟨rest, rfl⟩ : ∃ rest', rest = .unlockScheduler :: rest' := by
      cases rest with
      | nil => cases hhead
      | cons j js =>
        cases hhead
        exact ⟨js, rfl⟩
    refine h.switch ht hp (by rw [hlock, hp]; rfl) ⟨rest, rfl, ?_⟩
    have := hrest.2
    rw [hp] at this
    exact this
  | pushCurrent =>
    exact ⟨_, rfl, h.still hlock rfl rfl rfl rfl rfl ⟨hc.next_update hc.ready _, .inr h.current, hc.asleep,
      hc.terminated, hc.queues, hc.conditions⟩ hrest⟩
  | unblock task =>
    simp only [Machine.exec]
    split_ifs with hsw
    · exact ⟨_, rfl, h.goto hlock ⟨hneed, hrest⟩⟩
    · exact ⟨_, rfl, h.still hlock rfl rfl rfl rfl rfl (hc.addNode hneed.1) hrest⟩
  | addNode task => exact ⟨_, rfl, h.still hlock rfl rfl rfl rfl rfl (hc.addNode hneed) hrest⟩
  | createNew task => exact ⟨_, rfl, h.createNew hlock hneed hrest⟩
  | cleanLoop =>
    refine ⟨_, rfl, ?_⟩
    rw [Machine.cleanLoop]
    split_ifs with h₀
    · exact h.goto hlock hrest
    · exact h.still hlock rfl rfl rfl rfl rfl ⟨hc.next, hc.ready, hc.asleep,
        hc.next _ (hc.terminated.resolve_left h₀), hc.queues, hc.conditions⟩ ⟨trivial, hrest⟩
  | pushTerminated =>
    exact ⟨_, rfl, h.still hlock rfl rfl rfl rfl rfl ⟨hc.next_update hc.terminated _, hc.ready, hc.asleep,
      .inr h.current, hc.queues, hc.conditions⟩ hrest⟩
  | unblockCleaner => exact ⟨_, rfl, h.goto hlock ⟨⟨h.cleaner, hneed⟩, hrest⟩⟩
  | sleep wakeUpTime now =>
    obtain ⟨hheld, hp⟩ := hneed
    simp only [Machine.exec]
    split_ifs with hlt
    · exact ⟨_, rfl, h.goto hlock ⟨⟨trivial, hheld, hp⟩, hrest⟩⟩
    · exact ⟨_, rfl, h.still hlock rfl rfl rfl rfl rfl ⟨hc.next_update hc.asleep _, hc.ready, .inr h.current,
        hc.terminated, hc.queues, hc.conditions⟩ ⟨⟨trivial, hheld, hp⟩, ⟨trivial, rfl⟩, hrest⟩⟩
  | tick now =>
    simp only [Machine.exec]
    by_cases h₀ : m.sched.scheduleLockCounter = 0
    · rw [if_neg (not_not.mpr h₀)]
      obtain ⟨hp, hheld⟩ : m.sched.postponeSwitchCounter = 0 ∧ held = false := by
        cases held with
        | false => exact ⟨by omega, rfl⟩
        | true => exact absurd (hlock.symm.trans h₀) (Nat.succ_ne_zero _)
      subst hheld
      exact ⟨_, rfl, h.goto hlock ⟨⟨trivial, rfl⟩, rfl, Nat.succ_pos _, ⟨trivial, rfl, Nat.succ_pos _⟩, hrest⟩⟩
    · rw [if_pos h₀]
      exact ⟨_, rfl, h.goto hlock hrest⟩
  | wakeStart now =>
    exact ⟨_, rfl, h.still hlock rfl rfl rfl rfl rfl ⟨hc.next, hc.ready, .inl rfl, hc.terminated, hc.queues,
      hc.conditions⟩ ⟨⟨hc.asleep, hneed⟩, hrest⟩⟩
  | wakeLoop now task =>
    obtain ⟨hptr, hheld⟩ := hneed
    simp only [Machine.exec]
    split_ifs with h₀ hdue
    · exact ⟨_, rfl, h.goto hlock hrest⟩
    · have ht := hptr.resolve_left h₀
      exact ⟨_, rfl, h.goto hlock ⟨⟨ht, hheld⟩, ⟨hc.next _ ht, hheld⟩, hrest⟩⟩
    · have ht := hptr.resolve_left h₀
      exact ⟨_, rfl, h.still hlock rfl rfl rfl rfl rfl ⟨hc.next_update hc.asleep _, hc.ready, .inr ht,
        hc.terminated, hc.queues, hc.conditions⟩ ⟨⟨hc.next _ ht, hheld⟩, hrest⟩⟩
  | slice =>
    simp only [Machine.exec]
    split_ifs with h₀ h₁
    · exact ⟨_, rfl, h.goto hlock hrest⟩
    · exact ⟨_, rfl, h.still hlock rfl rfl rfl rfl rfl ⟨hc.next, hc.ready, hc.asleep, hc.terminated, hc.queues,
        hc.conditions⟩ ⟨.inl hneed, hrest⟩⟩
    · exact ⟨_, rfl, h.still hlock rfl rfl rfl rfl rfl ⟨hc.next, hc.ready, hc.asleep, hc.terminated, hc.queues,
        hc.conditions⟩ hrest⟩
  | create sem maxCount =>
    exact ⟨_, rfl, h.still hlock rfl rfl rfl rfl rfl (hc.sems_update (.inl rfl)) hrest⟩
  | acquire sem =>
    simp only [Machine.exec]
    split_ifs with hlt
    · exact ⟨_, rfl, h.still hlock rfl rfl rfl rfl rfl (hc.sems_update (hc.queues sem)) hrest⟩
    · obtain ⟨hq, hstart⟩ := hc.enqueue h.current sem
      have hsame : ∀ x, (enqueue m.sched x).1.scheduleLockCounter = m.sched.scheduleLockCounter ∧
          (enqueue m.sched x).1.postponeSwitchCounter = m.sched.postponeSwitchCounter ∧
          (enqueue m.sched x).1.currentTask = m.sched.currentTask ∧
          (enqueue m.sched x).1.taskCleaner = m.sched.taskCleaner ∧
          (enqueue m.sched x).1.idleTask = m.sched.idleTask := fun x => by
        rw [enqueue]
        split_ifs <;> exact ⟨rfl, rfl, rfl, rfl, rfl⟩
      obtain ⟨e₁, e₂, e₃, e₄, e₅⟩ := hsame (m.sems sem)
      exact ⟨_, rfl, h.still hlock e₁ e₂ e₃ e₄ e₅ (hq.sems_update hstart) ⟨⟨trivial, hneed.1⟩, hrest⟩⟩
  | release sem =>
    simp only [Machine.exec]
    split_ifs with h₀
    · exact ⟨_, rfl, h.still hlock rfl rfl rfl rfl rfl (hc.sems_update (hc.queues sem)) hrest⟩
    · have ht := (hc.queues sem).resolve_left h₀
      exact ⟨_, rfl, h.still hlock rfl rfl rfl rfl rfl (hc.sems_update (hc.next _ ht))
        ⟨⟨ht, hneed.1⟩, hrest⟩⟩
  | condvarQueue condition => exact ⟨_, rfl, h.condvarQueue hlock hrest⟩
  | condvarAddList task => exact ⟨_, rfl, h.condvarAddList hlock hneed hrest⟩
  | signalFind condition =>
    simp only [Machine.exec]
    cases hfind : condvarFind condition m.condvars with
    | none => exact ⟨_, rfl, h.goto hlock hrest⟩
    | some tasks =>
      exact ⟨_, rfl, h.goto hlock ⟨⟨condvarFind_ptr hc.conditions hfind, hneed⟩, trivial, hrest⟩⟩
  | signalLoop task =>
    obtain ⟨hptr, hheld⟩ := hneed
    simp only [Machine.exec]
    split_ifs with h₀
    · exact ⟨_, rfl, h.goto hlock hrest⟩
    · have ht := hptr.resolve_left h₀
      exact ⟨_, rfl, h.goto hlock ⟨⟨ht, hheld⟩, ⟨hc.next _ ht, hheld⟩, hrest⟩⟩
  | signalClear condition =>
    exact ⟨_, rfl, h.still hlock rfl rfl rfl rfl rfl ⟨hc.next, hc.ready, hc.asleep, hc.terminated, hc.queues,
      condvarSet_ptr hc.conditions (.inl rfl)⟩ hrest⟩

end Balanced

/-! ## Runs -/

theorem MachineStep.balanced {a : Act} (hstep : MachineStep m a m') (h : Balanced m) : Balanced m' := by
  cases a with
  | start calls =>
    obtain ⟨hcode, hsec, rfl⟩ := hstep
    obtain ⟨held, hlock, hfits⟩ := h.counters
    rw [hcode] at hfits
    obtain ⟨hp, rfl⟩ := Prod.mk.inj hfits
    refine h.goto hlock ?_
    rw [hcode, List.append_nil, hp]
    exact hsec.fits
  | interrupt now =>
    obtain rfl := hstep
    obtain ⟨held, hlock, hfits⟩ := h.counters
    exact h.goto hlock ⟨⟨trivial, trivial⟩, hfits⟩
  | go =>
    simp only [MachineStep, Machine.step] at hstep
    cases hcode : m.code with
    | nil =>
      rw [hcode] at hstep
      cases hstep
    | cons i rest =>
      rw [hcode] at hstep
      obtain ⟨m₁, hm₁, hb⟩ := h.exec_balanced hcode
      obtain rfl : m₁ = m' := Option.some.inj (hm₁.symm.trans hstep)
      exact hb

/-- `multitask_init` leaves the counters at zero and starts the other tasks with an unlock. -/
theorem bootMachine_balanced {kernel cleaner idle : ℕ} (next : ℕ → ℕ) (state : ℕ → TaskState)
    (wakeUpTime : ℕ → ℕ) {sems : ℕ → Semaphore} (hsems : ∀ sem, (sems sem).waitingTasksStart = 0)
    (hnull : kernel ≠ 0 ∧ cleaner ≠ 0 ∧ idle ≠ 0) :
    Balanced (bootMachine (multitaskInit kernel cleaner idle next state wakeUpTime) sems) := by
  obtain ⟨hk, hc, hi⟩ := hnull
  let m := bootMachine (multitaskInit kernel cleaner idle next state wakeUpTime) sems
  have hT : ∀ t, m.Task t ↔ t = kernel ∨ t = cleaner ∨ t = idle := fun t => by
    change (if t = kernel then some [] else if t = cleaner ∨ t = idle then some [Instr.unlockScheduler]
      else none).isSome = true ↔ _
    by_cases h₁ : t = kernel
    · simp [h₁]
    · by_cases h₂ : t = cleaner ∨ t = idle <;> simp [h₁, h₂]
  have hidle : m.Task idle := (hT idle).mpr (.inr (.inr rfl))
  refine ⟨⟨false, rfl, rfl⟩, fun t htc code hst => ?_, ?_, (hT kernel).mpr (.inl rfl),
    (hT cleaner).mpr (.inr (.inl rfl)), hidle, fun t ht => ?_, .inr hidle, .inl rfl, .inl rfl,
    fun sem => .inl (hsems sem), fun c hc => by cases hc⟩
  · change (if t = kernel then some [] else if t = cleaner ∨ t = idle then some [Instr.unlockScheduler]
      else none) = some code at hst
    rw [if_neg (show ¬ t = kernel from htc)] at hst
    split_ifs at hst
    cases hst
    exact ⟨[], rfl, rfl⟩
  · intro h₀
    obtain e | e | e := (hT 0).mp h₀
    · exact hk e.symm
    · exact hc e.symm
    · exact hi e.symm
  · refine .inl ?_
    change Function.update (Function.update (Function.update (Function.update next kernel 0) cleaner 0) idle 0)
      idle 0 t = 0
    obtain rfl | rfl | rfl := (hT t).mp ht <;> simp [Function.update_apply]

/-- **The scheduler lock is balanced.** In every state reached from `multitask_init` by calls of tasks,
timer interrupts and steps of the code: at a `task_switch` no switch is postponed and the scheduler is
locked once; a task that is not running, or is new, next unlocks the scheduler exactly once; outside
these functions both counters are zero; and the code goes on without `abort`. -/
theorem scheduler_lock_balanced {kernel cleaner idle : ℕ} (next : ℕ → ℕ) (state : ℕ → TaskState)
    (wakeUpTime : ℕ → ℕ) {sems : ℕ → Semaphore} (hsems : ∀ sem, (sems sem).waitingTasksStart = 0)
    (hnull : kernel ≠ 0 ∧ cleaner ≠ 0 ∧ idle ≠ 0) {acts : List Act}
    (hrun : Run MachineStep (bootMachine (multitaskInit kernel cleaner idle next state wakeUpTime) sems) acts m) :
    (∀ task rest, m.code = .switch task :: rest →
      m.sched.postponeSwitchCounter = 0 ∧ m.sched.scheduleLockCounter = 1) ∧
    (∀ task ≠ m.sched.currentTask, ∀ code, m.stack task = some code →
      ∃ rest, code = .unlockScheduler :: rest ∧ rest.head? ≠ some .unlockScheduler) ∧
    (m.code = [] → m.sched.postponeSwitchCounter = 0 ∧ m.sched.scheduleLockCounter = 0) ∧
    (∀ rest, m.code = .unlockScheduler :: rest → m.sched.scheduleLockCounter ≠ 0) ∧
    (m.code ≠ [] → m.step.isSome) := by
  have h : Balanced m := hrun.invariant (fun _ _ _ h hs => hs.balanced h)
    (bootMachine_balanced next state wakeUpTime hsems hnull)
  obtain ⟨held, hlock, hfits⟩ := h.counters
  refine ⟨fun task rest hcode => ?_, fun task htask code hst => ?_, fun hcode => ?_, fun rest hcode => ?_,
    fun hcode => ?_⟩
  · rw [hcode] at hfits
    obtain ⟨hp, rfl⟩ := Prod.mk.inj hfits.1.2.1
    exact ⟨hp, by rw [hlock, hp]; rfl⟩
  · obtain ⟨rest, rfl, hrest⟩ := h.suspended task htask code hst
    refine ⟨rest, rfl, fun hhead => ?_⟩
    cases rest with
    | nil => cases hhead
    | cons i is =>
      cases hhead
      cases hrest.1
  · rw [hcode] at hfits
    obtain ⟨hp, rfl⟩ := Prod.mk.inj hfits
    exact ⟨hp, by rw [hlock, hp]; rfl⟩
  · rw [hcode] at hfits
    obtain rfl : held = true := hfits.1
    rw [hlock]
    exact Nat.succ_ne_zero _
  · obtain ⟨i, rest, hcode⟩ := List.exists_cons_of_ne_nil hcode
    obtain ⟨m', hm', _⟩ := h.exec_balanced hcode
    rw [Machine.step, hcode]
    exact Option.isSome_iff_exists.mpr ⟨m', hm'⟩

theorem scheduler_lock_balanced_demo :
    ∃ m acts, Run MachineStep (bootMachine (multitaskInit 1 2 3 (fun _ => 0) (fun _ => .available) fun _ => 0)
        fun _ => mutexCreate) acts m ∧
      m.code = [.switch 3, .unlockScheduler] ∧
      m.sched.postponeSwitchCounter = 0 ∧ m.sched.scheduleLockCounter = 1 := by
  have hrun : ∃ m, Run MachineStep (bootMachine (multitaskInit 1 2 3 (fun _ => 0) (fun _ => .available) fun _ => 0)
      fun _ => mutexCreate) [.start [.taskBlock .blocked], .go, .go, .go, .go, .go] m ∧
        m.code = [.switch 3, .unlockScheduler] :=
    ⟨_, .cons ⟨rfl, ⟨trivial, rfl⟩, rfl⟩ (.cons rfl (.cons rfl (.cons rfl (.cons rfl (.cons rfl (.nil _)))))), rfl⟩
  obtain ⟨m, hrun, hcode⟩ := hrun
  exact ⟨m, _, hrun, hcode, (scheduler_lock_balanced _ _ _ (fun _ => rfl) (by decide) hrun).1 3 _ hcode⟩

end BulbOS.Switch
