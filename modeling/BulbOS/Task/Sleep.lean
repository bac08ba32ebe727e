import BulbOS.Task.Conserve
import BulbOS.Task.Wake

/-!
# How long a task sleeps (`libc-src/stdlib/nano_sleep.c`)

`sleep` gives `nano_sleep` the product `milliseconds * 1000000`. Both factors are 32-bit, so the product
wraps from 4295 milliseconds on, although `nano_sleep` takes 64 bits. The clock is read twice: by
`nano_sleep` for the sum, and by `nano_sleep_until` to see whether the time is already over.

* `taskStep_wakeUpTime`: the `wake_up_time` of a task changes only when it calls `sleep` again;
* `NeverShort`: the call lasts long enough, and so does the sleep, over any run of the system;
* **`sleep_neverShort_iff`**: this is so exactly when the product does not wrap, or the time was over
  before `nano_sleep_until` looked;
* `sleep_five_seconds`: `sleep(5000)` lasts less than a second.
-/

namespace BulbOS.Task

open KLib

/-- `nano_sleep`, where `now` and `now'` are what it and `nano_sleep_until` read from the clock. -/
def nanoSleep (s : Sched) (nanoseconds now now' : ℕ) : Option Sched :=
  nanoSleepUntil s ((now + nanoseconds) % 2 ^ 64) now'

def sleep (s : Sched) (milliseconds now now' : ℕ) : Option Sched :=
  nanoSleep s (milliseconds * 1000000 % 2 ^ 32) now now'

variable {s s' : Sched} {c c' : TaskCfg} {t x now fuel : ℕ}

/-! ## The time to wake up -/

theorem taskUnlockScheduler_wakeUpTime (h : taskUnlockScheduler s = some s') : s'.wakeUpTime = s.wakeUpTime := by
  rw [taskUnlockScheduler] at h
  split_ifs at h
  rw [Option.some.injEq] at h
  subst h
  rfl

theorem taskSwitchWrapper_wakeUpTime (s : Sched) (t : ℕ) : (taskSwitchWrapper s t).wakeUpTime = s.wakeUpTime := by
  rw [taskSwitchWrapper]
  dsimp only
  split_ifs <;> rfl

theorem taskSchedule_wakeUpTime (s : Sched) : (taskSchedule s).wakeUpTime = s.wakeUpTime := by
  rcases taskSchedule_cases s with ⟨f, r, he⟩ | ⟨t, n, r, -, -, he⟩
  · rw [he]
  · rw [he, taskSwitchWrapper_wakeUpTime]

theorem taskUnlock_wakeUpTime (h : taskUnlock s = some s') : s'.wakeUpTime = s.wakeUpTime := by
  refine (taskUnlockScheduler_wakeUpTime h).trans ?_
  dsimp only
  split_ifs
  · exact taskSchedule_wakeUpTime _
  · rfl

theorem taskBlock_wakeUpTime {reason : TaskState} (h : taskBlock s reason = some s') :
    s'.wakeUpTime = s.wakeUpTime :=
  (taskUnlockScheduler_wakeUpTime h).trans (taskSchedule_wakeUpTime _)

theorem taskUnblock_wakeUpTime (h : taskUnblock s t = some s') : s'.wakeUpTime = s.wakeUpTime := by
  refine (taskUnlockScheduler_wakeUpTime h).trans ?_
  split_ifs
  · exact taskSwitchWrapper_wakeUpTime _ _
  · rfl

/-- What `nano_sleep_until` does: return at once, or block as a sleeper. -/
theorem nanoSleepUntil_cases (s : Sched) (wakeUpTime now : ℕ) :
    (wakeUpTime < now ∧ nanoSleepUntil s wakeUpTime now = taskUnlock (taskLock s)) ∨
      now ≤ wakeUpTime ∧ nanoSleepUntil s wakeUpTime now = (taskUnlock { taskLock s with
        wakeUpTime := Function.update s.wakeUpTime s.currentTask wakeUpTime
        next := Function.update s.next s.currentTask s.sleepTasks
        sleepTasks := s.currentTask }).bind (fun s => taskBlock s .sleeping) := by
  by_cases h : wakeUpTime < now
  · exact .inl ⟨h, if_pos h⟩
  · exact .inr ⟨Nat.le_of_not_lt h, if_neg h⟩

theorem nanoSleepUntil_wakeUpTime {wakeUpTime : ℕ} (h : nanoSleepUntil s wakeUpTime now = some s')
    (hx : x ≠ s.currentTask) : s'.wakeUpTime x = s.wakeUpTime x := by
  rcases nanoSleepUntil_cases s wakeUpTime now with ⟨-, he⟩ | ⟨-, he⟩
  · rw [he] at h
    rw [taskUnlock_wakeUpTime h]
    rfl
  · rw [he] at h
    obtain ⟨s₁, hu, hb⟩ := Option.bind_eq_some_iff.mp h
    rw [taskBlock_wakeUpTime hb, taskUnlock_wakeUpTime hu]
    exact Function.update_of_ne hx _ _

theorem taskTerminate_wakeUpTime (h : taskTerminate s = some s') : s'.wakeUpTime = s.wakeUpTime := by
  change (taskBlock { taskLock s with
    next := Function.update s.next s.currentTask s.terminatedTasks
    terminatedTasks := s.currentTask } .terminated).bind
      (fun s => (taskUnblock s s.taskCleaner).bind fun s => taskUnlock s) = some s' at h
  obtain ⟨s₁, hb, h⟩ := Option.bind_eq_some_iff.mp h
  obtain ⟨s₂, hu, h⟩ := Option.bind_eq_some_iff.mp h
  rw [taskUnlock_wakeUpTime h, taskUnblock_wakeUpTime hu, taskBlock_wakeUpTime hb]
  rfl

theorem taskCleanLoop_wakeUpTime {freed : List ℕ} (h : taskCleanLoop fuel s = some (s', freed)) :
    s'.wakeUpTime = s.wakeUpTime := by
  induction fuel generalizing s s' freed with
  | zero => cases h
  | succ fuel ih =>
    rw [taskCleanLoop] at h
    by_cases h₀ : s.terminatedTasks = 0
    · rw [if_pos h₀, Option.some.injEq, Prod.mk.injEq] at h
      rw [h.1]
    · rw [if_neg h₀] at h
      obtain ⟨⟨s₁, freed'⟩, hrec, he⟩ := Option.bind_eq_some_iff.mp h
      rw [Option.pure_def, Option.some.injEq, Prod.mk.injEq] at he
      rw [← he.1, ih hrec]

theorem taskWakeLoop_wakeUpTime {nextTask : ℕ} (h : taskWakeLoop now fuel s nextTask = some s') :
    s'.wakeUpTime = s.wakeUpTime := by
  induction fuel generalizing s nextTask with
  | zero => cases h
  | succ fuel ih =>
    rw [taskWakeLoop] at h
    by_cases h₀ : nextTask = 0
    · rw [if_pos h₀, Option.some.injEq] at h
      rw [h]
    rw [if_neg h₀] at h
    dsimp only at h
    by_cases hdue : s.wakeUpTime nextTask ≤ now
    · rw [if_pos hdue] at h
      obtain ⟨s₁, hu, hrec⟩ := Option.bind_eq_some_iff.mp h
      rw [ih hrec, taskUnblock_wakeUpTime hu]
    · rw [if_neg hdue] at h
      rw [ih h]

theorem taskSlice_wakeUpTime (s : Sched) : (taskSlice s).wakeUpTime = s.wakeUpTime := by
  rw [taskSlice]
  dsimp only
  split_ifs
  · rfl
  · exact taskSchedule_wakeUpTime _
  · rfl

theorem taskTimeHandler_wakeUpTime (h : taskTimeHandler s fuel now = some s') : s'.wakeUpTime = s.wakeUpTime := by
  rw [taskTimeHandler] at h
  by_cases hl : s.scheduleLockCounter ≠ 0
  · rw [if_pos hl, Option.some.injEq] at h
    rw [h]
  · rw [if_neg hl] at h
    obtain ⟨s₁, hw, hu⟩ := Option.bind_eq_some_iff.mp h
    rw [taskUnlock_wakeUpTime hu, taskSlice_wakeUpTime, taskWakeLoop_wakeUpTime hw]
    rfl

/-- The operation is neither a `sleep` of task `x` itself nor the creation of a new task there. -/
def TaskOp.Spares (c : TaskCfg) (x : ℕ) : TaskOp → Prop
  | .add task => x ≠ task
  | .sleep _ _ => x ≠ c.sched.currentTask
  | _ => True

/-- **One step** changes the time of no other task. -/
theorem taskStep_wakeUpTime {op : TaskOp} (h : taskStep c op = some c') (hx : op.Spares c x) :
    c'.sched.wakeUpTime x = c.sched.wakeUpTime x := by
  cases op with
  | add task =>
    rw [taskStep, Option.some.injEq] at h
    subst h
    exact Function.update_of_ne hx _ _
  | block reason =>
    obtain ⟨s, hs, rfl⟩ := Option.map_eq_some_iff.mp h
    exact congrFun (taskBlock_wakeUpTime hs) x
  | unblock task =>
    obtain ⟨s, hs, rfl⟩ := Option.map_eq_some_iff.mp h
    exact congrFun (taskUnblock_wakeUpTime hs) x
  | forceSwitch task =>
    obtain ⟨s, hs, rfl⟩ := Option.map_eq_some_iff.mp h
    exact congrFun ((taskUnlockScheduler_wakeUpTime hs).trans (taskSwitchWrapper_wakeUpTime _ _)) x
  | sleep wakeUpTime now =>
    obtain ⟨s, hs, rfl⟩ := Option.map_eq_some_iff.mp h
    exact nanoSleepUntil_wakeUpTime hs hx
  | terminate =>
    obtain ⟨s, hs, rfl⟩ := Option.map_eq_some_iff.mp h
    exact congrFun (taskTerminate_wakeUpTime hs) x
  | clean =>
    obtain ⟨⟨s, freed⟩, hs, rfl⟩ := Option.map_eq_some_iff.mp h
    obtain ⟨⟨s₁, freed'⟩, hl, hr⟩ := Option.bind_eq_some_iff.mp hs
    obtain ⟨s₂, hu, he⟩ := Option.bind_eq_some_iff.mp hr
    rw [Option.pure_def, Option.some.injEq, Prod.mk.injEq] at he
    obtain ⟨rfl, _⟩ := he
    exact congrFun ((taskUnlock_wakeUpTime hu).trans (taskCleanLoop_wakeUpTime hl)) x
  | tick now =>
    obtain ⟨s, hs, rfl⟩ := Option.map_eq_some_iff.mp h
    exact congrFun (taskTimeHandler_wakeUpTime hs) x

/-- **Over a run** the time of a task stays what it was. -/
theorem wakeUpTime_of_run {ops : List TaskOp}
    (h : Run (fun c op c' => TaskMove c op c' ∧ op.Spares c x) c ops c') :
    c'.sched.wakeUpTime x = c.sched.wakeUpTime x :=
  h.invariant (I := fun c' => c'.sched.wakeUpTime x = c.sched.wakeUpTime x)
    (fun _ _ _ hi hstep => (taskStep_wakeUpTime hstep.1.2 hstep.2).trans hi) rfl

/-! ## `sleep` -/

/-- Wherever the system gets to, as long as task `x` does not call `sleep` again: a tick before `due`
finds `x` on the sleep list and leaves it there. -/
def SleepsUntil (c : TaskCfg) (x due : ℕ) : Prop :=
  ∀ ops c', Run (fun c op c' => TaskMove c op c' ∧ op.Spares c x) c ops c' →
    ∀ ready asleep, InOrder c'.sched ready asleep → x ∈ asleep →
      ∀ now < due, ∀ fuel, asleep.length < fuel →
        ∃ s' ready' asleep', taskTimeHandler c'.sched fuel now = some s' ∧ InOrder s' ready' asleep' ∧ x ∈ asleep'

theorem sleepsUntil_of_le {due : ℕ} (h : due ≤ c.sched.wakeUpTime x) : SleepsUntil c x due := by
  intro ops c' hrun ready asleep hord hx now hnow fuel hfuel
  obtain ⟨s', ready', asleep', he, hord', hkeep⟩ := hord.tick hfuel now
  refine ⟨s', ready', asleep', he, hord', hkeep x hx ?_⟩
  rw [wakeUpTime_of_run hrun]
  omega

theorem TaskInv.inOrder {ready asleep dead : List ℕ} (h : TaskInv c ready asleep dead) :
    InOrder c.sched ready asleep := by
  refine ⟨h.places.onReady, h.places.onSleep, fun y hya hyr => ?_, fun hc => ?_⟩
  · exact (h.places.of_ready hyr).2.2.1 hya
  · obtain ⟨hr, ha, -⟩ := h.places.absent List.mem_cons_self
    rw [← hc]
    exact ⟨h.places.ne_zero List.mem_cons_self, hr, ha⟩

/-- `sleep(milliseconds)`, called at `now`, returns at once only when the time is over; otherwise the
task gets a `wake_up_time` that is late enough, and no tick makes it ready before. -/
def NeverShort (c : TaskCfg) (milliseconds now now' : ℕ) : Prop :=
  ∃ s', sleep c.sched milliseconds now now' = some s' ∧
    if (now + milliseconds * 1000000 % 2 ^ 32) % 2 ^ 64 < now' then now + milliseconds * 1000000 ≤ now'
    else now + milliseconds * 1000000 ≤ s'.wakeUpTime c.sched.currentTask ∧
      SleepsUntil ⟨s', c.live, c.waiting⟩ c.sched.currentTask (now + milliseconds * 1000000)

theorem taskUnlockScheduler_isSome (h : s.scheduleLockCounter ≠ 0) :
    ∃ s', taskUnlockScheduler s = some s' := by
  obtain ⟨n, hn⟩ := Nat.exists_eq_succ_of_ne_zero h
  exact ⟨_, taskUnlockScheduler_eq hn⟩

theorem taskUnlock_isSome (h : s.scheduleLockCounter ≠ 0) : ∃ s', taskUnlock s = some s' := by
  refine taskUnlockScheduler_isSome ?_
  dsimp only
  split_ifs
  · rwa [taskSchedule_lock]
  · exact h

/-- `nano_sleep_until` returns, and a task that is put to sleep has the time it asked for. -/
theorem nanoSleepUntil_spec (s : Sched) (wakeUpTime now : ℕ) :
    ∃ s', nanoSleepUntil s wakeUpTime now = some s' ∧
      (now ≤ wakeUpTime → s'.wakeUpTime s.currentTask = wakeUpTime) := by
  rcases nanoSleepUntil_cases s wakeUpTime now with ⟨hlt, he⟩ | ⟨-, he⟩
  · obtain ⟨s', hu⟩ := taskUnlock_isSome (s := taskLock s) (Nat.succ_ne_zero _)
    exact ⟨s', he.trans hu, fun hle => absurd hlt (Nat.not_lt.mpr hle)⟩
  · obtain ⟨s₁, hu⟩ := taskUnlock_isSome (s := { taskLock s with
        wakeUpTime := Function.update s.wakeUpTime s.currentTask wakeUpTime
        next := Function.update s.next s.currentTask s.sleepTasks
        sleepTasks := s.currentTask }) (Nat.succ_ne_zero _)
    obtain ⟨s', hb⟩ : ∃ s', taskBlock s₁ .sleeping = some s' :=
      taskUnlockScheduler_isSome (by rw [taskSchedule_lock]; exact Nat.succ_ne_zero _)
    refine ⟨s', by rw [he, hu]; exact hb, fun _ => ?_⟩
    rw [taskBlock_wakeUpTime hb, taskUnlock_wakeUpTime hu]
    exact Function.update_self ..

/-- **Sleep is never short** exactly when the 32-bit product does not wrap, or the time was over before
`nano_sleep_until` read the clock. -/
theorem sleep_neverShort_iff (c : TaskCfg) {milliseconds now : ℕ} (now' : ℕ)
    (hfit : now + milliseconds * 1000000 < 2 ^ 64) :
    NeverShort c milliseconds now now' ↔
      milliseconds * 1000000 < 2 ^ 32 ∨ now + milliseconds * 1000000 ≤ now' := by
  have hle : milliseconds * 1000000 % 2 ^ 32 ≤ milliseconds * 1000000 := Nat.mod_le _ _
  have hmod : (now + milliseconds * 1000000 % 2 ^ 32) % 2 ^ 64 = now + milliseconds * 1000000 % 2 ^ 32 :=
    Nat.mod_eq_of_lt (by omega)
  obtain ⟨s', he, hw⟩ := nanoSleepUntil_spec c.sched ((now + milliseconds * 1000000 % 2 ^ 32) % 2 ^ 64) now'
  rw [hmod] at hw
  have hs : sleep c.sched milliseconds now now' = some s' := he
  constructor
  · rintro ⟨s₁, hs₁, hshort⟩
    obtain rfl : s' = s₁ := Option.some.inj (hs.symm.trans hs₁)
    rw [hmod] at hshort
    by_cases hlt : now + milliseconds * 1000000 % 2 ^ 32 < now'
    · rw [if_pos hlt] at hshort
      exact .inr hshort
    · rw [if_neg hlt, hw (Nat.le_of_not_lt hlt)] at hshort
      have := hshort.1
      exact .inl (by omega)
  · intro hcond
    refine ⟨s', hs, ?_⟩
    rw [hmod]
    by_cases hlt : now + milliseconds * 1000000 % 2 ^ 32 < now'
    · rw [if_pos hlt]
      rcases hcond with hc | hc
      · rw [Nat.mod_eq_of_lt hc] at hlt
        exact Nat.le_of_lt hlt
      · exact hc
    · rw [if_neg hlt]
      have hc : milliseconds * 1000000 < 2 ^ 32 := hcond.elim id fun _ => by omega
      have hwake : s'.wakeUpTime c.sched.currentTask = now + milliseconds * 1000000 := by
        rw [hw (Nat.le_of_not_lt hlt), Nat.mod_eq_of_lt hc]
      exact ⟨Nat.le_of_eq hwake.symm, sleepsUntil_of_le (Nat.le_of_eq hwake.symm)⟩

theorem sleep_neverShort_second : NeverShort demoBoot 1000 7 8 ↔
    1000 * 1000000 < 2 ^ 32 ∨ 7 + 1000 * 1000000 ≤ 8 :=
  sleep_neverShort_iff demoBoot 8 (by decide)

/-- **`sleep(5000)`** sets a `wake_up_time` of 0.7 seconds. -/
theorem sleep_five_seconds : ¬ NeverShort demoBoot 5000 0 0 := by
  rintro ⟨s', he, hshort⟩
  have hw : (sleep demoBoot.sched 5000 0 0).map (fun s => s.wakeUpTime 1) = some 705032704 := by decide +kernel
  rw [he, Option.map_some, Option.some.injEq] at hw
  have hle : 5000000000 ≤ s'.wakeUpTime 1 := hshort.1
  omega

end BulbOS.Task
