import BulbOS.Lib.Linked
import BulbOS.Task.Model

/-!
# The places of the tasks

A task that exists is on one of the three lists of `task.c`, or on none of them: it is *loose*, as
the running task and the blocked ones are. `Places` says which, and that no task is in two places.

* `Places.addNode`, `Places.pop`, `Places.popSecond`, `Places.sleep`, `Places.kill`: a task moves
  from one place to another;
* `Places.schedule`, `Places.scheduleIdle`: `task_schedule` when it switches;
* `taskBlock_postponed`, `taskUnblock_postponed`: the same calls inside `task_lock`.
-/

namespace BulbOS.Task

open KLib

/-- The lists of the scheduler, and the tasks on none of them, out of the tasks that exist. -/
structure Places (s : Sched) (live loose ready asleep dead : List ℕ) : Prop where
  onReady : Linked s.next 0 s.scheduleTasks ready
  onSleep : Linked s.next 0 s.sleepTasks asleep
  onDead : Linked s.next 0 s.terminatedTasks dead
  count : ∀ a, loose.count a + (ready.count a + asleep.count a + dead.count a) = live.count a
  nodup : live.Nodup
  nonnull : 0 ∉ live

variable {s s' : Sched} {live loose loose' ready asleep dead : List ℕ} {t : ℕ}

theorem Places.mem_live (h : Places s live loose ready asleep dead) (ht : t ∈ loose) : t ∈ live := by
  have hc := h.count t
  have hpos := List.count_pos_iff.mpr ht
  exact List.count_pos_iff.mp (by omega)

theorem Places.ne_zero (h : Places s live loose ready asleep dead) (ht : t ∈ loose) : t ≠ 0 :=
  fun e => h.nonnull (e ▸ h.mem_live ht)

theorem Places.absent (h : Places s live loose ready asleep dead) (ht : t ∈ loose) :
    t ∉ ready ∧ t ∉ asleep ∧ t ∉ dead := by
  have hc := h.count t
  have hpos := List.count_pos_iff.mpr ht
  have hle := List.nodup_iff_count_le_one.mp h.nodup t
  exact ⟨List.count_eq_zero.mp (by omega), List.count_eq_zero.mp (by omega),
    List.count_eq_zero.mp (by omega)⟩

theorem Places.frame (h : Places s live loose ready asleep dead) (hn : s'.next = s.next)
    (hr : s'.scheduleTasks = s.scheduleTasks) (ha : s'.sleepTasks = s.sleepTasks)
    (hd : s'.terminatedTasks = s.terminatedTasks) (hl : ∀ a, loose'.count a = loose.count a) :
    Places s' live loose' ready asleep dead := by
  refine ⟨?_, ?_, ?_, fun a => by rw [hl, h.count], h.nodup, h.nonnull⟩
  · rw [hn, hr]; exact h.onReady
  · rw [hn, ha]; exact h.onSleep
  · rw [hn, hd]; exact h.onDead

theorem Places.relink (h : Places s live loose ready asleep dead) (ht : t ∈ loose) (x : ℕ) :
    Linked (Function.update s.next t x) 0 s.scheduleTasks ready ∧
      Linked (Function.update s.next t x) 0 s.sleepTasks asleep ∧
      Linked (Function.update s.next t x) 0 s.terminatedTasks dead := by
  obtain ⟨h₁, h₂, h₃⟩ := h.absent ht
  exact ⟨h.onReady.update h₁, h.onSleep.update h₂, h.onDead.update h₃⟩

theorem Places.switch (h : Places s live loose ready asleep dead) (ht : t ∈ loose) :
    Places (taskSwitch s t) live loose ready asleep dead := by
  obtain ⟨h₁, h₂, h₃⟩ := h.relink ht 0
  exact ⟨h₁, h₂, h₃, h.count, h.nodup, h.nonnull⟩

theorem Places.push (h : Places s live (t :: loose) ready asleep dead) :
    Places { s with next := Function.update s.next t s.scheduleTasks, scheduleTasks := t }
      live loose (t :: ready) asleep dead := by
  obtain ⟨h₁, h₂, h₃⟩ := h.relink List.mem_cons_self s.scheduleTasks
  refine ⟨⟨rfl, h.ne_zero List.mem_cons_self, ?_⟩, h₂, h₃, fun a => ?_, h.nodup, h.nonnull⟩
  · change Linked _ 0 (Function.update s.next t s.scheduleTasks t) ready
    rwa [Function.update_self]
  · have hc := h.count a
    rw [List.count_cons] at hc ⊢
    omega

theorem Places.addNode (h : Places s live (t :: loose) ready asleep dead) :
    Places (taskAddNode s t) live loose (t :: ready) asleep dead :=
  h.push.frame rfl rfl rfl rfl fun _ => rfl

theorem Places.sleep (h : Places s live (t :: loose) ready asleep dead) :
    Places { s with next := Function.update s.next t s.sleepTasks, sleepTasks := t }
      live loose ready (t :: asleep) dead := by
  obtain ⟨h₁, h₂, h₃⟩ := h.relink List.mem_cons_self s.sleepTasks
  refine ⟨h₁, ⟨rfl, h.ne_zero List.mem_cons_self, ?_⟩, h₃, fun a => ?_, h.nodup, h.nonnull⟩
  · change Linked _ 0 (Function.update s.next t s.sleepTasks t) asleep
    rwa [Function.update_self]
  · have hc := h.count a
    rw [List.count_cons] at hc ⊢
    omega

/-- A loose task is put at the head of the list of terminated tasks. -/
theorem Places.kill (h : Places s live (t :: loose) ready asleep dead) :
    Places { s with next := Function.update s.next t s.terminatedTasks, terminatedTasks := t }
      live loose ready asleep (t :: dead) := by
  obtain ⟨h₁, h₂, h₃⟩ := h.relink List.mem_cons_self s.terminatedTasks
  refine ⟨h₁, h₂, ⟨rfl, h.ne_zero List.mem_cons_self, ?_⟩, fun a => ?_, h.nodup, h.nonnull⟩
  · change Linked _ 0 (Function.update s.next t s.terminatedTasks t) dead
    rwa [Function.update_self]
  · have hc := h.count a
    rw [List.count_cons] at hc ⊢
    omega

theorem Places.pop {x : ℕ} (h : Places s live loose (x :: ready) asleep dead) :
    Places { s with scheduleTasks := s.next x } live (x :: loose) ready asleep dead := by
  refine ⟨h.onReady.2.2, h.onSleep, h.onDead, fun a => ?_, h.nodup, h.nonnull⟩
  have hc := h.count a
  rw [List.count_cons] at hc ⊢
  omega

theorem Places.popSecond {i y : ℕ} (h : Places s live loose (i :: y :: ready) asleep dead) :
    Places { s with next := Function.update s.next i (s.next y), scheduleTasks := i }
      live (y :: loose) (i :: ready) asleep dead := by
  have hi : Places { s with scheduleTasks := s.next i } live (i :: loose) (y :: ready) asleep dead :=
    h.pop
  obtain ⟨h₁, h₂, h₃⟩ := hi.relink List.mem_cons_self (s.next y)
  refine ⟨⟨rfl, h.onReady.2.1, ?_⟩, h₂, h₃, fun a => ?_, h.nodup, h.nonnull⟩
  · change Linked _ 0 (Function.update s.next i (s.next y) i) ready
    rw [Function.update_self]
    have hne : y ≠ i := fun e => (hi.absent List.mem_cons_self).1 (e ▸ List.mem_cons_self)
    have h₁' := h₁.2.2
    rwa [Function.update_of_ne hne] at h₁'
  · have hca := h.count a
    simp only [List.count_cons] at hca ⊢
    omega

/-! ## Switching -/

/-- `s'` runs task `t`; apart from the lists, only its time slice is new. -/
structure Switched (s : Sched) (t : ℕ) (s' : Sched) : Prop where
  current : s'.currentTask = t
  slice : s'.timeSliceRemaining = if t = s.idleTask then 0 else timeSlice
  idle : s'.idleTask = s.idleTask
  cleaner : s'.taskCleaner = s.taskCleaner
  lock : s'.scheduleLockCounter = s.scheduleLockCounter
  postpone : s'.postponeSwitchCounter = s.postponeSwitchCounter
  flag : s'.postponeSwitchFlag = s.postponeSwitchFlag

theorem Places.wrapper (h : Places s live (t :: loose) ready asleep dead)
    (hp : s.postponeSwitchCounter = 0) (hne : s.currentTask ≠ s.idleTask) :
    Places (taskSwitchWrapper s t) live (t :: loose) ready asleep dead ∧
      Switched s t (taskSwitchWrapper s t) := by
  rw [taskSwitchWrapper, if_neg (not_not.mpr hp), if_neg hne]
  refine ⟨Places.switch ?_ List.mem_cons_self, ⟨rfl, rfl, rfl, rfl, rfl, rfl, rfl⟩⟩
  exact h.frame rfl rfl rfl rfl fun _ => rfl

/-- A switch away from the idle task, which goes back to the ready list. -/
theorem Places.wrapperIdle (h : Places s live (t :: s.idleTask :: loose) ready asleep dead)
    (hp : s.postponeSwitchCounter = 0) (hcur : s.currentTask = s.idleTask) :
    Places (taskSwitchWrapper s t) live (t :: loose) (s.idleTask :: ready) asleep dead ∧
      Switched s t (taskSwitchWrapper s t) := by
  rw [taskSwitchWrapper, if_neg (not_not.mpr hp), if_pos hcur, hcur]
  have hswap : Places s live (s.idleTask :: t :: loose) ready asleep dead :=
    h.frame rfl rfl rfl rfl fun a => by
      simp only [List.count_cons]
      omega
  refine ⟨Places.switch ?_ List.mem_cons_self, ⟨rfl, rfl, rfl, rfl, rfl, rfl, rfl⟩⟩
  exact hswap.addNode.frame rfl rfl rfl rfl fun _ => rfl

/-- **`task_schedule` by a task that cannot go on**, or with another task ready, switches to a ready
task, to the idle task only when there is no other. -/
theorem Places.schedule (h : Places s live loose ready asleep dead)
    (hp : s.postponeSwitchCounter = 0) (hne : s.currentTask ≠ s.idleTask)
    (hst : s.state s.currentTask ≠ .running ∨ ready ≠ [s.idleTask]) (hidle : s.idleTask ∈ ready) :
    ∃ t ready', Places (taskSchedule s) live (t :: loose) ready' asleep dead ∧
      Switched s t (taskSchedule s) ∧ (s.idleTask = t ∨ s.idleTask ∈ ready') := by
  cases ready with
  | nil => cases hidle
  | cons x ready =>
    have hx : s.scheduleTasks = x := h.onReady.1
    have hx₀ : s.scheduleTasks ≠ 0 := hx ▸ h.onReady.2.1
    rw [taskSchedule, if_neg (not_not.mpr hp), if_neg hx₀]
    dsimp only
    rw [hx]
    by_cases hxi : x = s.idleTask
    · subst hxi
      rw [if_pos rfl]
      cases ready with
      | nil =>
        have hnext : s.next s.idleTask = 0 := h.onReady.2.2
        rw [if_neg (not_not.mpr hnext), if_neg (hst.resolve_right fun hr => hr rfl)]
        obtain ⟨hpl, hsw⟩ := h.pop.wrapper hp hne
        exact ⟨_, [], hpl, ⟨hsw.1, hsw.2, hsw.3, hsw.4, hsw.5, hsw.6, hsw.7⟩, .inl rfl⟩
      | cons y ready =>
        have hy : s.next s.idleTask = y := h.onReady.2.2.1
        have hy₀ : s.next s.idleTask ≠ 0 := hy ▸ h.onReady.2.2.2.1
        rw [if_pos hy₀, hy]
        obtain ⟨hpl, hsw⟩ := h.popSecond.wrapper hp hne
        exact ⟨y, s.idleTask :: ready, hpl, ⟨hsw.1, hsw.2, hsw.3, hsw.4, hsw.5, hsw.6, hsw.7⟩,
          .inr List.mem_cons_self⟩
    · rw [if_neg hxi]
      obtain ⟨hpl, hsw⟩ := h.pop.wrapper hp hne
      refine ⟨x, ready, hpl, ⟨hsw.1, hsw.2, hsw.3, hsw.4, hsw.5, hsw.6, hsw.7⟩, .inr ?_⟩
      exact (List.mem_cons.mp hidle).resolve_left fun e => hxi e.symm

/-- **`task_schedule` by the idle task** switches to the first ready task. -/
theorem Places.scheduleIdle {x : ℕ} (h : Places s live (s.idleTask :: loose) (x :: ready) asleep dead)
    (hp : s.postponeSwitchCounter = 0) (hcur : s.currentTask = s.idleTask) :
    Places (taskSchedule s) live (x :: loose) (s.idleTask :: ready) asleep dead ∧
      Switched s x (taskSchedule s) := by
  have hx : s.scheduleTasks = x := h.onReady.1
  have hx₀ : s.scheduleTasks ≠ 0 := hx ▸ h.onReady.2.1
  have hxi : x ≠ s.idleTask := fun e => (h.absent List.mem_cons_self).1 (e ▸ List.mem_cons_self)
  rw [taskSchedule, if_neg (not_not.mpr hp), if_neg hx₀]
  dsimp only
  rw [hx, if_neg hxi]
  obtain ⟨hpl, hsw⟩ := h.pop.wrapperIdle hp hcur
  exact ⟨hpl, ⟨hsw.1, hsw.2, hsw.3, hsw.4, hsw.5, hsw.6, hsw.7⟩⟩

/-! ## Postponed switches -/

theorem taskUnlockScheduler_eq {n : ℕ} (h : s.scheduleLockCounter = n + 1) :
    taskUnlockScheduler s = some { s with scheduleLockCounter := n } := by
  rw [taskUnlockScheduler, if_neg (by omega), h, Nat.add_sub_cancel]

theorem taskUnlock_quiet (hp : s.postponeSwitchCounter = 1) (hf : s.postponeSwitchFlag = false)
    (hl : s.scheduleLockCounter = 1) :
    taskUnlock s = some { s with postponeSwitchCounter := 0, scheduleLockCounter := 0 } := by
  have hd : dec32 s.postponeSwitchCounter = 0 := by rw [hp]; rfl
  have hc : ¬ (dec32 s.postponeSwitchCounter = 0 ∧ s.postponeSwitchFlag = true) := by simp [hf]
  rw [taskUnlock, if_neg hc, hd]
  exact taskUnlockScheduler_eq hl

theorem taskUnlock_flag (hp : s.postponeSwitchCounter = 1) (hf : s.postponeSwitchFlag = true) :
    taskUnlock s = taskUnlockScheduler (taskSchedule
      { s with postponeSwitchCounter := 0, postponeSwitchFlag := false }) := by
  have hd : dec32 s.postponeSwitchCounter = 0 := by rw [hp]; rfl
  rw [taskUnlock, if_pos ⟨hd, hf⟩, hd]

/-- With switches postponed `task_unblock` only adds the task to the ready list. -/
theorem taskUnblock_postponed (hp : s.postponeSwitchCounter ≠ 0) (t : ℕ) :
    taskUnblock s t = some (taskAddNode { s with
      postponeSwitchFlag := s.postponeSwitchFlag ||
        decide (s.scheduleTasks = 0 ∨ s.currentTask = s.idleTask) } t) := by
  rw [taskUnblock]
  by_cases hc : s.scheduleTasks = 0 ∨ s.currentTask = s.idleTask
  · rw [if_pos (by exact hc), taskSwitchWrapper, if_pos (by exact hp), decide_eq_true hc, Bool.or_true]
    exact taskUnlockScheduler_eq rfl
  · rw [if_neg (by exact hc), decide_eq_false hc, Bool.or_false]
    exact taskUnlockScheduler_eq rfl

/-- `task_block` inside `task_lock` leaves the switch to `task_unlock`. -/
theorem taskBlock_postponed (hp : s.postponeSwitchCounter ≠ 0) (reason : TaskState) :
    taskBlock s reason = some { s with
      state := Function.update s.state s.currentTask reason, postponeSwitchFlag := true } := by
  rw [taskBlock, taskSchedule, if_pos (by exact hp)]
  exact taskUnlockScheduler_eq rfl

/-- What `task_schedule` can do: ask for a switch later, stay, or switch. -/
theorem taskSchedule_cases (s : Sched) :
    (∃ f r, taskSchedule s = { s with postponeSwitchFlag := f, scheduleTasks := r }) ∨
      ∃ t n r, s.postponeSwitchCounter = 0 ∧ (∀ x, x ≠ s.idleTask → n x = s.next x) ∧
        taskSchedule s = taskSwitchWrapper { s with next := n, scheduleTasks := r } t := by
  rw [taskSchedule]
  by_cases hp : s.postponeSwitchCounter ≠ 0
  · exact .inl ⟨true, _, if_pos hp⟩
  rw [if_neg hp]
  by_cases h₀ : s.scheduleTasks = 0
  · exact .inl ⟨_, _, if_pos h₀⟩
  rw [if_neg h₀]
  dsimp only
  by_cases hidle : s.scheduleTasks = s.idleTask
  · rw [if_pos hidle]
    by_cases hnext : s.next s.scheduleTasks ≠ 0
    · rw [if_pos hnext]
      exact .inr ⟨_, _, _, not_not.mp hp, fun x hx => Function.update_of_ne hx _ _, rfl⟩
    · rw [if_neg hnext]
      by_cases hrun : s.state s.currentTask = .running
      · exact .inl ⟨_, _, if_pos hrun⟩
      · exact .inr ⟨_, _, _, not_not.mp hp, fun _ _ => rfl, if_neg hrun⟩
  · exact .inr ⟨_, _, _, not_not.mp hp, fun _ _ => rfl, if_neg hidle⟩

/-- A switch that is not postponed changes the links of the idle task and of its target only. -/
theorem taskSwitchWrapper_next {x : ℕ} (hp : s.postponeSwitchCounter = 0) (hi : x ≠ s.idleTask)
    (hx : x ≠ t) : (taskSwitchWrapper s t).next x = s.next x := by
  rw [taskSwitchWrapper, if_neg (not_not.mpr hp)]
  dsimp only [taskSwitch]
  rw [Function.update_of_ne hx]
  split_ifs with hc
  · exact Function.update_of_ne (hc ▸ hi) _ _
  · rfl

/-- `task_schedule` changes the links of the idle task and of the task it switches to only. -/
theorem taskSchedule_next {x : ℕ} (hi : x ≠ s.idleTask) (hx : x ≠ (taskSchedule s).currentTask) :
    (taskSchedule s).next x = s.next x := by
  rcases taskSchedule_cases s with ⟨f, r, he⟩ | ⟨t, n, r, hp, hn, he⟩
  · rw [he]
  · have hcur : (taskSchedule s).currentTask = t := by
      rw [he, taskSwitchWrapper, if_neg (not_not.mpr hp)]
      rfl
    rw [he]
    exact (taskSwitchWrapper_next (by exact hp) (by exact hi) (hcur ▸ hx)).trans (hn x hi)

theorem taskSchedule_idleTask (s : Sched) : (taskSchedule s).idleTask = s.idleTask := by
  rcases taskSchedule_cases s with ⟨f, r, he⟩ | ⟨t, n, r, hp, hn, he⟩
  · rw [he]
  · rw [he, taskSwitchWrapper, if_neg (not_not.mpr hp)]
    dsimp only [taskSwitch]
    split_ifs <;> rfl

/-- So does the `task_schedule` that `task_unlock` may make up for. -/
theorem taskUnlock_next (h : taskUnlock s = some s') :
    s'.idleTask = s.idleTask ∧ ∀ x, x ≠ s.idleTask → x ≠ s'.currentTask → s'.next x = s.next x := by
  rw [taskUnlock, taskUnlockScheduler] at h
  split_ifs at h
  all_goals
    rw [Option.some.injEq] at h
    subst h
  · exact ⟨taskSchedule_idleTask _, fun x hi hx => taskSchedule_next hi hx⟩
  · exact ⟨rfl, fun _ _ _ => rfl⟩

end BulbOS.Task
