import BulbOS.Task.Sleep

/-!
# A task that nobody names

A task that has blocked itself for good is on no list and does not run: only an operation that is given
the task brings it back. `SchedOp` is everything the rest of the kernel does to the scheduler.

* `Off`: no list and no link leads to the task; `Away`: and it does not run;
* `Off.schedule`, `Away.unlock`, `Away.tick`: each call keeps it so;
* **`Away.step`**: every operation that does not name the task does;
* **`Off.block`**: a task that is on no list is away once it has blocked, if another one is ready.
-/

namespace BulbOS.Task

variable {s s' : Sched} {t x now fuel : ℕ}

/-- No list starts with task `x`, and no task is linked to it. -/
structure Off (s : Sched) (x : ℕ) : Prop where
  ready : s.scheduleTasks ≠ x
  sleep : s.sleepTasks ≠ x
  dead : s.terminatedTasks ≠ x
  cleaner : s.taskCleaner ≠ x
  idle : s.idleTask ≠ x
  next : ∀ t, s.next t ≠ x
  nonnull : 0 ≠ x

/-- Nor does it run. -/
def Away (s : Sched) (x : ℕ) : Prop := Off s x ∧ s.currentTask ≠ x

theorem Off.relink (h : Off s x) {v : ℕ} (hv : v ≠ x) (t u : ℕ) : Function.update s.next t v u ≠ x := by
  by_cases hu : u = t
  · rwa [hu, Function.update_self]
  · rw [Function.update_of_ne hu]
    exact h.next u

theorem Off.push (h : Off s x) (ht : t ≠ x) :
    Off { s with next := Function.update s.next t s.scheduleTasks, scheduleTasks := t } x :=
  ⟨ht, h.sleep, h.dead, h.cleaner, h.idle, h.relink h.ready t, h.nonnull⟩

theorem Off.addNode (h : Off s x) (ht : t ≠ x) : Off (taskAddNode s t) x :=
  ⟨ht, h.sleep, h.dead, h.cleaner, h.idle, h.relink h.ready t, h.nonnull⟩

theorem Off.pop (h : Off s x) (t : ℕ) : Off { s with scheduleTasks := s.next t } x :=
  ⟨h.next t, h.sleep, h.dead, h.cleaner, h.idle, h.next, h.nonnull⟩

theorem Off.create (h : Off s x) (t : ℕ) : Off (taskCreateNew s t) x :=
  ⟨h.ready, h.sleep, h.dead, h.cleaner, h.idle, h.relink h.nonnull t, h.nonnull⟩

theorem Off.switch (h : Off s x) (t slice : ℕ) : Off (taskSwitch { s with timeSliceRemaining := slice } t) x :=
  ⟨h.ready, h.sleep, h.dead, h.cleaner, h.idle, h.relink h.nonnull t, h.nonnull⟩

theorem Off.switchNow (h : Off s x) (hp : s.postponeSwitchCounter = 0) (t : ℕ) :
    Off (taskSwitchWrapper s t) x := by
  rw [taskSwitchWrapper, if_neg (not_not.mpr hp)]
  by_cases hi : s.currentTask = s.idleTask
  · rw [if_pos hi]
    exact (h.addNode (hi ▸ h.idle)).switch t _
  · rw [if_neg hi]
    exact h.switch t _

theorem Off.wrapper (h : Off s x) (ht : t ≠ x) : Off (taskSwitchWrapper s t) x := by
  by_cases hp : s.postponeSwitchCounter = 0
  · exact h.switchNow hp t
  · rw [taskSwitchWrapper, if_pos hp]
    exact Off.addNode ⟨h.ready, h.sleep, h.dead, h.cleaner, h.idle, h.next, h.nonnull⟩ ht

theorem taskSwitchWrapper_current (s : Sched) (t : ℕ) :
    (taskSwitchWrapper s t).currentTask = if s.postponeSwitchCounter = 0 then t else s.currentTask := by
  rw [taskSwitchWrapper]
  by_cases hp : s.postponeSwitchCounter = 0
  · rw [if_neg (not_not.mpr hp), if_pos hp]
    rfl
  · rw [if_pos hp, if_neg hp]
    rfl

theorem taskSwitchWrapper_lock (s : Sched) (t : ℕ) :
    (taskSwitchWrapper s t).scheduleLockCounter = s.scheduleLockCounter := by
  rw [taskSwitchWrapper]
  dsimp only [taskSwitch]
  split_ifs <;> rfl

theorem Away.wrapper (h : Away s x) (ht : t ≠ x) : Away (taskSwitchWrapper s t) x := by
  refine ⟨h.1.wrapper ht, ?_⟩
  rw [taskSwitchWrapper_current]
  split_ifs
  · exact ht
  · exact h.2

/-- What `task_schedule` may do: change the flag and the ready list only, or switch. -/
theorem taskSchedule_away (h : Off s x) :
    (∃ f r, r ≠ x ∧ taskSchedule s = { s with postponeSwitchFlag := f, scheduleTasks := r } ∧
        (s.postponeSwitchCounter ≠ 0 ∨ s.scheduleTasks = 0 ∨ s.state s.currentTask = .running)) ∨
      ∃ s₁ t, Off s₁ x ∧ s₁.postponeSwitchCounter = 0 ∧ t ≠ x ∧
        taskSchedule s = taskSwitchWrapper s₁ t := by
  rw [taskSchedule]
  by_cases hp : s.postponeSwitchCounter ≠ 0
  · exact .inl ⟨true, _, h.ready, if_pos hp, .inl hp⟩
  rw [if_neg hp]
  by_cases h₀ : s.scheduleTasks = 0
  · exact .inl ⟨_, _, h.ready, if_pos h₀, .inr (.inl h₀)⟩
  rw [if_neg h₀]
  dsimp only
  have hpop := h.pop s.scheduleTasks
  by_cases hi : s.scheduleTasks = s.idleTask
  · rw [if_pos hi]
    by_cases hn : s.next s.scheduleTasks ≠ 0
    · rw [if_pos hn]
      have hoff : Off { s with
          next := Function.update s.next s.idleTask (s.next (s.next s.scheduleTasks))
          scheduleTasks := s.idleTask } x :=
        ⟨h.idle, h.sleep, h.dead, h.cleaner, h.idle, h.relink (h.next _) _, h.nonnull⟩
      exact .inr ⟨_, _, hoff, not_not.mp hp, h.next _, rfl⟩
    · rw [if_neg hn]
      by_cases hr : s.state s.currentTask = .running
      · exact .inl ⟨_, _, h.next _, if_pos hr, .inr (.inr hr)⟩
      · rw [if_neg hr]
        exact .inr ⟨_, _, hpop, not_not.mp hp, h.ready, rfl⟩
  · rw [if_neg hi]
    exact .inr ⟨_, _, hpop, not_not.mp hp, h.ready, rfl⟩

theorem Off.schedule (h : Off s x) : Off (taskSchedule s) x := by
  rcases taskSchedule_away h with ⟨f, r, hr, he, -⟩ | ⟨s₁, t, h₁, -, ht, he⟩
  · rw [he]
    exact ⟨hr, h.sleep, h.dead, h.cleaner, h.idle, h.next, h.nonnull⟩
  · rw [he]
    exact h₁.wrapper ht

theorem Away.schedule (h : Away s x) : Away (taskSchedule s) x := by
  refine ⟨h.1.schedule, ?_⟩
  rcases taskSchedule_away h.1 with ⟨f, r, -, he, -⟩ | ⟨s₁, t, -, hp, ht, he⟩
  · rw [he]
    exact h.2
  · rw [he, taskSwitchWrapper_current, if_pos hp]
    exact ht

theorem Away.frame (h : Away s x) (hn : s'.next = s.next) (hr : s'.scheduleTasks = s.scheduleTasks)
    (hs : s'.sleepTasks = s.sleepTasks) (hd : s'.terminatedTasks = s.terminatedTasks)
    (hcl : s'.taskCleaner = s.taskCleaner) (hi : s'.idleTask = s.idleTask)
    (hc : s'.currentTask = s.currentTask) : Away s' x := by
  refine ⟨⟨?_, ?_, ?_, ?_, ?_, ?_, h.1.nonnull⟩, ?_⟩
  · rw [hr]; exact h.1.ready
  · rw [hs]; exact h.1.sleep
  · rw [hd]; exact h.1.dead
  · rw [hcl]; exact h.1.cleaner
  · rw [hi]; exact h.1.idle
  · rw [hn]; exact h.1.next
  · rw [hc]; exact h.2

theorem exists_of_taskUnlockScheduler (hs : taskUnlockScheduler s = some s') :
    ∃ n, s' = { s with scheduleLockCounter := n } := by
  rw [taskUnlockScheduler] at hs
  by_cases hl : s.scheduleLockCounter = 0
  · rw [if_pos hl] at hs
    cases hs
  · rw [if_neg hl] at hs
    exact ⟨_, (Option.some.inj hs).symm⟩

theorem Away.unlockScheduler (h : Away s x) (hs : taskUnlockScheduler s = some s') : Away s' x := by
  obtain ⟨n, rfl⟩ := exists_of_taskUnlockScheduler hs
  exact h.frame rfl rfl rfl rfl rfl rfl rfl

theorem Away.lock (h : Away s x) : Away (taskLock s) x := h.frame rfl rfl rfl rfl rfl rfl rfl

theorem Away.unlock (h : Away s x) (hs : taskUnlock s = some s') : Away s' x := by
  rw [taskUnlock] at hs
  dsimp only at hs
  refine Away.unlockScheduler ?_ hs
  by_cases hf : dec32 s.postponeSwitchCounter = 0 ∧ s.postponeSwitchFlag = true
  · rw [if_pos hf]
    exact Away.schedule (h.frame rfl rfl rfl rfl rfl rfl rfl)
  · rw [if_neg hf]
    exact h.frame rfl rfl rfl rfl rfl rfl rfl

theorem Away.block {reason : TaskState} (h : Away s x) (hs : taskBlock s reason = some s') : Away s' x := by
  rw [taskBlock] at hs
  refine Away.unlockScheduler (Away.schedule ?_) hs
  exact h.frame rfl rfl rfl rfl rfl rfl rfl

theorem Away.unblock (h : Away s x) (ht : t ≠ x) (hs : taskUnblock s t = some s') : Away s' x := by
  have hlock : Away (taskLockScheduler s) x := h.frame rfl rfl rfl rfl rfl rfl rfl
  rw [taskUnblock] at hs
  refine Away.unlockScheduler ?_ hs
  split_ifs
  · exact hlock.wrapper ht
  · exact ⟨hlock.1.addNode ht, hlock.2⟩

theorem Away.forceSwitch (h : Away s x) (ht : t ≠ x) (hs : taskForceSwitch s t = some s') : Away s' x := by
  have hlock : Away (taskLockScheduler s) x := h.frame rfl rfl rfl rfl rfl rfl rfl
  have hpush : Away { taskLockScheduler s with
      next := Function.update s.next s.currentTask s.scheduleTasks
      scheduleTasks := s.currentTask } x := ⟨hlock.1.push h.2, h.2⟩
  exact Away.unlockScheduler (hpush.wrapper ht) hs

theorem Away.sleep {wakeUpTime : ℕ} (h : Away s x) (hs : nanoSleepUntil s wakeUpTime now = some s') :
    Away s' x := by
  rcases nanoSleepUntil_cases s wakeUpTime now with ⟨-, he⟩ | ⟨-, he⟩
  · exact h.lock.unlock (he ▸ hs)
  · rw [he] at hs
    obtain ⟨s₁, hu, hb⟩ := Option.bind_eq_some_iff.mp hs
    refine Away.block (Away.unlock ?_ hu) hb
    exact ⟨⟨h.1.ready, h.2, h.1.dead, h.1.cleaner, h.1.idle, h.1.relink h.1.sleep _, h.1.nonnull⟩, h.2⟩

theorem Away.terminate (h : Away s x) (hs : taskTerminate s = some s') : Away s' x := by
  change (taskBlock { taskLock s with
    next := Function.update s.next s.currentTask s.terminatedTasks
    terminatedTasks := s.currentTask } .terminated).bind
      (fun s => (taskUnblock s s.taskCleaner).bind fun s => taskUnlock s) = some s' at hs
  obtain ⟨s₁, hb, hs⟩ := Option.bind_eq_some_iff.mp hs
  obtain ⟨s₂, hu, hs⟩ := Option.bind_eq_some_iff.mp hs
  have h₁ : Away s₁ x := by
    refine Away.block ?_ hb
    exact ⟨⟨h.1.ready, h.1.sleep, h.2, h.1.cleaner, h.1.idle, h.1.relink h.1.dead _, h.1.nonnull⟩, h.2⟩
  exact (h₁.unblock h₁.1.cleaner hu).unlock hs

theorem Away.cleanLoop {freed : List ℕ} (h : Away s x) (hs : taskCleanLoop fuel s = some (s', freed)) :
    Away s' x := by
  induction fuel generalizing s s' freed with
  | zero => cases hs
  | succ fuel ih =>
    rw [taskCleanLoop] at hs
    by_cases h₀ : s.terminatedTasks = 0
    · rw [if_pos h₀, Option.some.injEq, Prod.mk.injEq] at hs
      rw [← hs.1]
      exact h
    · rw [if_neg h₀] at hs
      obtain ⟨⟨s₁, freed'⟩, hrec, he⟩ := Option.bind_eq_some_iff.mp hs
      rw [Option.pure_def, Option.some.injEq, Prod.mk.injEq] at he
      rw [← he.1]
      refine ih ?_ hrec
      exact ⟨⟨h.1.ready, h.1.sleep, h.1.next _, h.1.cleaner, h.1.idle, h.1.next, h.1.nonnull⟩, h.2⟩

theorem Away.clean {freed : List ℕ} (h : Away s x) (hs : taskClean s fuel = some (s', freed)) : Away s' x := by
  obtain ⟨⟨s₁, freed'⟩, hl, hs⟩ := Option.bind_eq_some_iff.mp hs
  obtain ⟨s₂, hu, he⟩ := Option.bind_eq_some_iff.mp hs
  rw [Option.pure_def, Option.some.injEq, Prod.mk.injEq] at he
  rw [← he.1]
  exact (h.lock.cleanLoop hl).unlock hu

/-- The wake-up loop, with a rest of the sleep list that does not start with `x`. -/
theorem Away.wakeLoop {nextTask : ℕ} (h : Away s x) (hx : nextTask ≠ x)
    (hs : taskWakeLoop now fuel s nextTask = some s') : Away s' x := by
  induction fuel generalizing s nextTask with
  | zero => cases hs
  | succ fuel ih =>
    rw [taskWakeLoop] at hs
    by_cases h₀ : nextTask = 0
    · rw [if_pos h₀, Option.some.injEq] at hs
      rw [← hs]
      exact h
    rw [if_neg h₀] at hs
    dsimp only at hs
    by_cases hdue : s.wakeUpTime nextTask ≤ now
    · rw [if_pos hdue] at hs
      obtain ⟨s₁, hu, hrec⟩ := Option.bind_eq_some_iff.mp hs
      exact ih (h.unblock hx hu) (h.1.next nextTask) hrec
    · rw [if_neg hdue] at hs
      refine ih ?_ (h.1.next nextTask) hs
      exact ⟨⟨h.1.ready, hx, h.1.dead, h.1.cleaner, h.1.idle, h.1.relink h.1.sleep _, h.1.nonnull⟩, h.2⟩

theorem Away.slice (h : Away s x) : Away (taskSlice s) x := by
  rw [taskSlice]
  dsimp only
  split_ifs
  · exact h
  · exact Away.schedule (h.frame rfl rfl rfl rfl rfl rfl rfl)
  · exact h.frame rfl rfl rfl rfl rfl rfl rfl

theorem Away.tick (h : Away s x) (hs : taskTimeHandler s fuel now = some s') : Away s' x := by
  rw [taskTimeHandler] at hs
  by_cases hl : s.scheduleLockCounter ≠ 0
  · rw [if_pos hl, Option.some.injEq] at hs
    rw [← hs]
    exact h
  · rw [if_neg hl] at hs
    obtain ⟨s₁, hw, hu⟩ := Option.bind_eq_some_iff.mp hs
    have hlock : Away { taskLock s with sleepTasks := 0 } x :=
      ⟨⟨h.1.ready, h.1.nonnull, h.1.dead, h.1.cleaner, h.1.idle, h.1.next, h.1.nonnull⟩, h.2⟩
    exact ((hlock.wakeLoop h.1.sleep hw).slice).unlock hu

/-! ## The rest of the kernel -/

/-- What a task or an interrupt handler does to the scheduler; `link` is an assignment to the `next` of a
task, as in the wait lists of `mutex.c`. -/
inductive SchedOp
  | create (task : ℕ)
  | add (task : ℕ)
  | lock
  | unlock
  | block (reason : TaskState)
  | unblock (task : ℕ)
  | forceSwitch (task : ℕ)
  | sleep (wakeUpTime now : ℕ)
  | terminate
  | clean (fuel : ℕ)
  | tick (fuel now : ℕ)
  | link (task next : ℕ)

def schedStep (s : Sched) : SchedOp → Option Sched
  | .create task => some (taskCreateNew s task)
  | .add task => some (taskAddNode s task)
  | .lock => some (taskLock s)
  | .unlock => taskUnlock s
  | .block reason => taskBlock s reason
  | .unblock task => taskUnblock s task
  | .forceSwitch task => taskForceSwitch s task
  | .sleep wakeUpTime now => nanoSleepUntil s wakeUpTime now
  | .terminate => taskTerminate s
  | .clean fuel => (taskClean s fuel).map Prod.fst
  | .tick fuel now => taskTimeHandler s fuel now
  | .link task next => some { s with next := Function.update s.next task next }

/-- The operation is given task `x`. -/
def SchedOp.Names (x : ℕ) : SchedOp → Prop
  | .add task | .unblock task | .forceSwitch task => task = x
  | .link _ next => next = x
  | _ => False

/-- **A task that is away stays away** until an operation names it. -/
theorem Away.step {op : SchedOp} (h : Away s x) (hop : ¬ op.Names x) (hs : schedStep s op = some s') :
    Away s' x := by
  cases op with
  | create task =>
    obtain rfl := Option.some.inj hs
    exact ⟨h.1.create task, h.2⟩
  | add task =>
    obtain rfl := Option.some.inj hs
    exact ⟨h.1.addNode hop, h.2⟩
  | lock =>
    obtain rfl := Option.some.inj hs
    exact h.lock
  | unlock => exact h.unlock hs
  | block reason => exact h.block hs
  | unblock task => exact h.unblock hop hs
  | forceSwitch task => exact h.forceSwitch hop hs
  | sleep wakeUpTime now => exact h.sleep hs
  | terminate => exact h.terminate hs
  | clean fuel =>
    obtain ⟨⟨s₁, freed⟩, hc, rfl⟩ := Option.map_eq_some_iff.mp hs
    exact h.clean hc
  | tick fuel now => exact h.tick hs
  | link task next =>
    obtain rfl := Option.some.inj hs
    exact ⟨⟨h.1.ready, h.1.sleep, h.1.dead, h.1.cleaner, h.1.idle, h.1.relink hop task, h.1.nonnull⟩, h.2⟩

/-- **A task that blocks** while another one is ready and no switch is postponed is away afterwards. -/
theorem Off.block (h : Off s x) (hr : s.scheduleTasks ≠ 0)
    (hp : s.postponeSwitchCounter = 0) (hs : taskBlock s .blocked = some s') : Away s' x := by
  let s₁ : Sched := { taskLockScheduler s with state := Function.update s.state s.currentTask .blocked }
  have h₁ : Off s₁ x := ⟨h.ready, h.sleep, h.dead, h.cleaner, h.idle, h.next, h.nonnull⟩
  refine Away.unlockScheduler ⟨h₁.schedule, ?_⟩ hs
  rcases taskSchedule_away h₁ with ⟨-, -, -, -, hwhy⟩ | ⟨s₂, t, -, hp₂, ht, he⟩
  · rcases hwhy with hp₁ | hr₁ | hrun
    · exact absurd hp hp₁
    · exact absurd hr₁ hr
    · change Function.update s.state s.currentTask .blocked s.currentTask = .running at hrun
      rw [Function.update_self] at hrun
      cases hrun
  · rw [he, taskSwitchWrapper_current, if_pos hp₂]
    exact ht

/-- **A forced switch to a task that is away** runs it; it is still on no list, and the task that ran before
is ready. -/
theorem Away.handOver (h : Away s x) (hc : s.currentTask ≠ 0) (hp : s.postponeSwitchCounter = 0)
    (hs : taskForceSwitch s x = some s') :
    Off s' x ∧ s'.currentTask = x ∧ s'.scheduleTasks ≠ 0 ∧ s'.postponeSwitchCounter = 0 := by
  let s₁ : Sched := { taskLockScheduler s with
    next := Function.update s.next s.currentTask s.scheduleTasks
    scheduleTasks := s.currentTask }
  have hlock : Away (taskLockScheduler s) x := h.frame rfl rfl rfl rfl rfl rfl rfl
  have h₁ : Off s₁ x := hlock.1.push h.2
  have hp₁ : s₁.postponeSwitchCounter = 0 := hp
  obtain ⟨n, rfl⟩ := exists_of_taskUnlockScheduler (s := taskSwitchWrapper s₁ x) hs
  have hoff := h₁.switchNow hp₁ x
  refine ⟨⟨hoff.ready, hoff.sleep, hoff.dead, hoff.cleaner, hoff.idle, hoff.next, hoff.nonnull⟩, ?_⟩
  rw [taskSwitchWrapper, if_neg (not_not.mpr hp₁)]
  refine ⟨rfl, ?_, ?_⟩ <;> dsimp only [taskSwitch] <;> split_ifs
  · exact hc
  · exact hc
  · exact hp
  · exact hp

end BulbOS.Task
