import BulbOS.Task.Places

/-!
# The sleepers that the timer wakes

The wake-up loop of `task_time_handler` takes the sleep list apart. A task that is due goes to the ready
list, through either branch of `task_unblock`, since a postponed switch adds the task as well; any other
task goes back to the sleep list. Both lists grow at the head, so each part comes out reversed.

* `taskWakeLoop_split`: the loop, with the part of the sleep list still ahead;
* **`taskWakeLoop_due`**: the due tasks are woken, the others sleep on;
* `InOrder`: the lists are apart from each other, and an idle task that runs is on neither;
* `InOrder.schedule`, **`InOrder.tick`**: a tick keeps them so, and keeps who is not due asleep.
-/

namespace BulbOS.Task

open KLib

variable {s s' : Sched} {ready asleep rest : List ℕ} {t x now fuel : ℕ}

/-- The tasks whose time has come. -/
def dueTasks (s : Sched) (now : ℕ) (l : List ℕ) : List ℕ := l.filter fun x => s.wakeUpTime x ≤ now

/-- The tasks whose time is still to come. -/
def lateTasks (s : Sched) (now : ℕ) (l : List ℕ) : List ℕ := l.filter fun x => now < s.wakeUpTime x

@[simp] theorem mem_dueTasks {l : List ℕ} : x ∈ dueTasks s now l ↔ x ∈ l ∧ s.wakeUpTime x ≤ now := by
  simp [dueTasks]

@[simp] theorem mem_lateTasks {l : List ℕ} : x ∈ lateTasks s now l ↔ x ∈ l ∧ now < s.wakeUpTime x := by
  simp [lateTasks]

theorem dueTasks_cons (l : List ℕ) :
    dueTasks s now (x :: l) = if s.wakeUpTime x ≤ now then x :: dueTasks s now l else dueTasks s now l := by
  simp [dueTasks, List.filter_cons]

theorem lateTasks_cons (l : List ℕ) :
    lateTasks s now (x :: l) = if s.wakeUpTime x ≤ now then lateTasks s now l else x :: lateTasks s now l := by
  by_cases h : s.wakeUpTime x ≤ now
  · simp [lateTasks, h, Nat.not_lt.mpr h]
  · simp [lateTasks, h, Nat.lt_of_not_le h]

/-- Only the lists, the states and the flag of a postponed switch change. -/
def Relisted (s s' : Sched) : Prop :=
  ∃ n st r a f, s' = { s with
    next := n, state := st, scheduleTasks := r, sleepTasks := a, postponeSwitchFlag := f }

/-- **The wake-up loop**, with the tasks of `rest` still ahead: those that are due end up on the ready
list, and those that are not on the sleep list. -/
theorem taskWakeLoop_split {nextTask : ℕ} (hrest : Linked s.next 0 nextTask rest)
    (hready : Linked s.next 0 s.scheduleTasks ready) (hasleep : Linked s.next 0 s.sleepTasks asleep)
    (hr : rest.Disjoint ready) (ha : rest.Disjoint asleep) (hp : s.postponeSwitchCounter ≠ 0)
    (hfuel : rest.length < fuel) :
    ∃ s', taskWakeLoop now fuel s nextTask = some s' ∧ Relisted s s' ∧
      Linked s'.next 0 s'.scheduleTasks ((dueTasks s now rest).reverse ++ ready) ∧
      Linked s'.next 0 s'.sleepTasks ((lateTasks s now rest).reverse ++ asleep) ∧
      ∀ x, s'.state x = if x ∈ dueTasks s now rest then .available else s.state x := by
  induction rest generalizing s ready asleep fuel nextTask with
  | nil =>
    obtain ⟨fuel, rfl⟩ := Nat.exists_eq_succ_of_ne_zero (by omega : fuel ≠ 0)
    have h₀ : nextTask = 0 := hrest
    exact ⟨s, by rw [taskWakeLoop, if_pos h₀], ⟨_, _, _, _, _, rfl⟩, hready, hasleep, fun _ => rfl⟩
  | cons x rest ih =>
    obtain ⟨fuel, rfl⟩ := Nat.exists_eq_succ_of_ne_zero (by omega : fuel ≠ 0)
    obtain ⟨hx, htail⟩ := List.nodup_cons.mp hrest.nodup
    obtain ⟨rfl, hx₀, hrest⟩ := hrest
    obtain ⟨hxr, hr⟩ := List.disjoint_cons_left.mp hr
    obtain ⟨hxa, ha⟩ := List.disjoint_cons_left.mp ha
    rw [List.length_cons] at hfuel
    rw [taskWakeLoop, if_neg hx₀]
    dsimp only
    rw [dueTasks_cons, lateTasks_cons]
    by_cases hdue : s.wakeUpTime nextTask ≤ now
    · -- both branches of `task_unblock` add the task
      rw [if_pos hdue, if_pos hdue, if_pos hdue, taskUnblock_postponed hp]
      set f := s.postponeSwitchFlag || decide (s.scheduleTasks = 0 ∨ s.currentTask = s.idleTask)
      let s₁ := taskAddNode { s with postponeSwitchFlag := f } nextTask
      have hready₁ : Linked s₁.next 0 s₁.scheduleTasks (nextTask :: ready) := by
        refine ⟨rfl, hx₀, ?_⟩
        change Linked (Function.update s.next nextTask s.scheduleTasks) 0
          (Function.update s.next nextTask s.scheduleTasks nextTask) ready
        rw [Function.update_self]
        exact hready.update hxr
      obtain ⟨s', hrun, ⟨n, st, r, a, f', rfl⟩, hready', hasleep', hst⟩ := ih (s := s₁)
        (hrest.update hx) hready₁ (hasleep.update hxa)
        (List.disjoint_cons_right.mpr ⟨hx, hr⟩) ha hp (show rest.length < fuel by omega)
      refine ⟨_, hrun, ⟨_, _, _, _, _, rfl⟩, ?_, hasleep', fun y => ?_⟩
      · rw [List.reverse_cons, List.append_assoc]
        exact hready'
      · rw [hst y]
        by_cases hy : y ∈ dueTasks s now rest
        · rw [if_pos (by exact hy), if_pos (List.mem_cons_of_mem _ hy)]
        · rw [if_neg (by exact hy)]
          change Function.update s.state nextTask TaskState.available y = _
          by_cases hyx : y = nextTask
          · rw [hyx, Function.update_self, if_pos List.mem_cons_self]
          · rw [Function.update_of_ne hyx, if_neg fun hmem => (List.mem_cons.mp hmem).elim hyx hy]
    · rw [if_neg hdue, if_neg hdue, if_neg hdue]
      let s₁ := { s with next := Function.update s.next nextTask s.sleepTasks, sleepTasks := nextTask }
      have hasleep₁ : Linked s₁.next 0 s₁.sleepTasks (nextTask :: asleep) := by
        refine ⟨rfl, hx₀, ?_⟩
        change Linked (Function.update s.next nextTask s.sleepTasks) 0
          (Function.update s.next nextTask s.sleepTasks nextTask) asleep
        rw [Function.update_self]
        exact hasleep.update hxa
      obtain ⟨s', hrun, ⟨n, st, r, a, f', rfl⟩, hready', hasleep', hst⟩ := ih (s := s₁)
        (hrest.update hx) (hready.update hxr) hasleep₁ hr
        (List.disjoint_cons_right.mpr ⟨hx, ha⟩) hp (show rest.length < fuel by omega)
      refine ⟨_, hrun, ⟨_, _, _, _, _, rfl⟩, hready', ?_, hst⟩
      rw [List.reverse_cons, List.append_assoc]
      exact hasleep'

/-- **The timer wakes exactly the due sleepers.** Whatever the two lists, the running task and the time,
the wake-up loop ends; the sleep list then has the tasks that are not due, each once, the ready list has
the due ones in front of what it had, each once, and these are available. -/
theorem taskWakeLoop_due (s : Sched) (now : ℕ) {ready asleep : List ℕ}
    (hready : Linked s.next 0 s.scheduleTasks ready) (hasleep : Linked s.next 0 s.sleepTasks asleep)
    (hapart : asleep.Disjoint ready) (hp : s.postponeSwitchCounter ≠ 0) {fuel : ℕ}
    (hfuel : asleep.length < fuel) :
    ∃ s' ready' asleep', taskWakeLoop now fuel { s with sleepTasks := 0 } s.sleepTasks = some s' ∧
      Linked s'.next 0 s'.sleepTasks asleep' ∧ asleep'.Nodup ∧
      (∀ x, x ∈ asleep' ↔ x ∈ asleep ∧ now < s.wakeUpTime x) ∧
      Linked s'.next 0 s'.scheduleTasks ready' ∧ ready'.Nodup ∧
      (∀ x, x ∈ ready' ↔ x ∈ ready ∨ x ∈ asleep ∧ s.wakeUpTime x ≤ now) ∧ ready.Sublist ready' ∧
      ∀ x ∈ asleep, s.wakeUpTime x ≤ now → s'.state x = .available := by
  have hnil : Linked s.next 0 0 ([] : List ℕ) := rfl
  obtain ⟨s', hrun, -, hready', hasleep', hst⟩ := taskWakeLoop_split (s := { s with sleepTasks := 0 })
    hasleep hready hnil hapart (List.disjoint_nil_right _) hp hfuel
  refine ⟨s', _, _, hrun, hasleep', hasleep'.nodup, fun x => ?_, hready', hready'.nodup, fun x => ?_,
    List.sublist_append_right _ _, fun x hx hdue => ?_⟩
  · simp
  · rw [List.mem_append, List.mem_reverse, mem_dueTasks, or_comm]
  · rw [hst x, if_pos (by exact mem_dueTasks.mpr ⟨hx, hdue⟩)]

/-- Tasks 1 and 2 sleep until 5 and 9, task 3 is ready and the idle task 4 runs; it is 7 o'clock. -/
def demoAsleep : Sched :=
  ⟨fun x => if x = 1 then 2 else 0, fun _ => .sleeping, fun x => if x = 1 then 5 else 9, 4, 3, 1, 0, 0, 4, 1, 1,
    false, 0⟩

theorem taskWakeLoop_due_demo : ∃ s' ready' asleep',
    taskWakeLoop 7 3 { demoAsleep with sleepTasks := 0 } demoAsleep.sleepTasks = some s' ∧
      Linked s'.next 0 s'.sleepTasks asleep' ∧ asleep'.Nodup ∧
      (∀ x, x ∈ asleep' ↔ x ∈ [1, 2] ∧ 7 < demoAsleep.wakeUpTime x) ∧
      Linked s'.next 0 s'.scheduleTasks ready' ∧ ready'.Nodup ∧
      (∀ x, x ∈ ready' ↔ x ∈ [3] ∨ x ∈ [1, 2] ∧ demoAsleep.wakeUpTime x ≤ 7) ∧ [3].Sublist ready' ∧
      ∀ x ∈ [1, 2], demoAsleep.wakeUpTime x ≤ 7 → s'.state x = .available := by
  have hready : Linked demoAsleep.next 0 demoAsleep.scheduleTasks [3] := ⟨rfl, by decide, rfl⟩
  have hasleep : Linked demoAsleep.next 0 demoAsleep.sleepTasks [1, 2] := ⟨rfl, by decide, rfl, by decide, rfl⟩
  exact taskWakeLoop_due demoAsleep 7 hready hasleep (by simp) (by decide) (by decide)

/-! ## A tick -/

/-- The ready list and the sleep list have no task in common, and an idle task that runs is on neither. -/
structure InOrder (s : Sched) (ready asleep : List ℕ) : Prop where
  onReady : Linked s.next 0 s.scheduleTasks ready
  onSleep : Linked s.next 0 s.sleepTasks asleep
  apart : asleep.Disjoint ready
  idle : s.currentTask = s.idleTask → s.idleTask ≠ 0 ∧ s.idleTask ∉ ready ∧ s.idleTask ∉ asleep

theorem InOrder.frame (h : InOrder s ready asleep) (hn : s'.next = s.next)
    (hr : s'.scheduleTasks = s.scheduleTasks) (ha : s'.sleepTasks = s.sleepTasks)
    (hc : s'.currentTask = s.currentTask) (hi : s'.idleTask = s.idleTask) : InOrder s' ready asleep := by
  refine ⟨?_, ?_, h.apart, ?_⟩
  · rw [hn, hr]; exact h.onReady
  · rw [hn, ha]; exact h.onSleep
  · rw [hc, hi]; exact h.idle

theorem InOrder.pop (h : InOrder s (x :: ready) asleep) :
    InOrder { s with scheduleTasks := s.next x } ready asleep ∧ x ∉ ready ∧ x ∉ asleep ∧ x ≠ 0 := by
  have hx : x ∉ ready := (List.nodup_cons.mp h.onReady.nodup).1
  obtain ⟨hxa, hapart⟩ := List.disjoint_cons_right.mp h.apart
  refine ⟨⟨h.onReady.2.2, h.onSleep, hapart, fun he => ?_⟩, hx, hxa, h.onReady.2.1⟩
  obtain ⟨h₀, hr, ha⟩ := h.idle he
  exact ⟨h₀, fun hmem => hr (List.mem_cons_of_mem _ hmem), ha⟩

theorem InOrder.wrapper (h : InOrder s ready asleep) (hp : s.postponeSwitchCounter = 0) (h₀ : t ≠ 0)
    (hr : t ∉ ready) (ha : t ∉ asleep) (hidle : s.currentTask = s.idleTask → t ≠ s.idleTask) :
    ∃ ready', InOrder (taskSwitchWrapper s t) ready' asleep := by
  rw [taskSwitchWrapper, if_neg (not_not.mpr hp)]
  by_cases hc : s.currentTask = s.idleTask
  · -- the idle task goes back to the ready list
    obtain ⟨hi₀, hir, hia⟩ := h.idle hc
    have hti : t ≠ s.idleTask := hidle hc
    rw [if_pos hc, hc]
    have hready : Linked (Function.update s.next s.idleTask s.scheduleTasks) 0 s.idleTask
        (s.idleTask :: ready) := by
      refine ⟨rfl, hi₀, ?_⟩
      rw [Function.update_self]
      exact h.onReady.update hir
    have hr' : t ∉ s.idleTask :: ready := fun hmem => (List.mem_cons.mp hmem).elim hti hr
    refine ⟨s.idleTask :: ready, hready.update hr', (h.onSleep.update hia).update ha,
      List.disjoint_cons_right.mpr ⟨hia, h.apart⟩, fun he => ?_⟩
    exact absurd he hti
  · rw [if_neg hc]
    refine ⟨ready, h.onReady.update hr, h.onSleep.update ha, h.apart, fun he => ?_⟩
    have hti : t = s.idleTask := he
    exact ⟨hti ▸ h₀, hti ▸ hr, hti ▸ ha⟩

/-- **`task_schedule`** does not touch the sleep list. -/
theorem InOrder.schedule (h : InOrder s ready asleep) : ∃ ready', InOrder (taskSchedule s) ready' asleep := by
  rw [taskSchedule]
  by_cases hp : s.postponeSwitchCounter ≠ 0
  · rw [if_pos hp]
    exact ⟨ready, h.frame rfl rfl rfl rfl rfl⟩
  rw [if_neg hp]
  by_cases h₀ : s.scheduleTasks = 0
  · rw [if_pos h₀]
    exact ⟨ready, h⟩
  rw [if_neg h₀]
  dsimp only
  obtain ⟨ready, rfl, -⟩ := h.onReady.exists_cons h₀
  obtain ⟨hpop, hxr, hxa, -⟩ := h.pop
  have hcur : s.currentTask = s.idleTask → s.scheduleTasks ≠ s.idleTask := fun hc he =>
    (h.idle hc).2.1 (he ▸ List.mem_cons_self)
  by_cases hidle : s.scheduleTasks = s.idleTask
  · rw [if_pos hidle]
    have hc : s.currentTask ≠ s.idleTask := fun hc => hcur hc hidle
    by_cases hnext : s.next s.scheduleTasks ≠ 0
    · rw [if_pos hnext]
      obtain ⟨ready, rfl, -⟩ := hpop.onReady.exists_cons hnext
      obtain ⟨hpop₂, hyr, hya, -⟩ := hpop.pop
      have hiy : s.idleTask ≠ s.next s.scheduleTasks := fun e => hxr (hidle.trans e ▸ List.mem_cons_self)
      have hir : s.idleTask ∉ ready := fun hmem => by
        rw [← hidle] at hmem
        exact hxr (List.mem_cons_of_mem _ hmem)
      have hia : s.idleTask ∉ asleep := hidle ▸ hxa
      let s₁ := { s with
        next := Function.update s.next s.idleTask (s.next (s.next s.scheduleTasks))
        scheduleTasks := s.idleTask }
      have h₁ : InOrder s₁ (s.idleTask :: ready) asleep := by
        refine ⟨⟨rfl, hidle ▸ h₀, ?_⟩, h.onSleep.update hia, List.disjoint_cons_right.mpr ⟨hia, hpop₂.apart⟩,
          fun he => absurd he hc⟩
        change Linked _ 0 (Function.update s.next s.idleTask (s.next (s.next s.scheduleTasks)) s.idleTask) ready
        rw [Function.update_self]
        exact hpop₂.onReady.update hir
      exact h₁.wrapper (not_not.mp hp) hnext (fun hmem => (List.mem_cons.mp hmem).elim (Ne.symm hiy) hyr) hya
        fun _ => Ne.symm hiy
    · rw [if_neg hnext]
      by_cases hrun : s.state s.currentTask = .running
      · rw [if_pos hrun]
        exact ⟨ready, hpop⟩
      · rw [if_neg hrun]
        exact hpop.wrapper (not_not.mp hp) h₀ hxr hxa hcur
  · rw [if_neg hidle]
    exact hpop.wrapper (not_not.mp hp) h₀ hxr hxa hcur

theorem taskSchedule_lock (s : Sched) : (taskSchedule s).scheduleLockCounter = s.scheduleLockCounter := by
  rcases taskSchedule_cases s with ⟨f, r, he⟩ | ⟨t, n, r, hp, hn, he⟩
  · rw [he]
  · rw [he, taskSwitchWrapper, if_neg (not_not.mpr hp)]
    dsimp only [taskSwitch]
    split_ifs <;> rfl

theorem InOrder.unlock (h : InOrder s ready asleep) (hl : s.scheduleLockCounter ≠ 0) :
    ∃ s' ready', taskUnlock s = some s' ∧ InOrder s' ready' asleep := by
  obtain ⟨n, hn⟩ := Nat.exists_eq_succ_of_ne_zero hl
  rw [taskUnlock]
  dsimp only
  by_cases hf : dec32 s.postponeSwitchCounter = 0 ∧ s.postponeSwitchFlag = true
  · rw [if_pos hf]
    obtain ⟨ready', h'⟩ := InOrder.schedule (s := { s with
      postponeSwitchCounter := dec32 s.postponeSwitchCounter, postponeSwitchFlag := false })
      (h.frame rfl rfl rfl rfl rfl)
    refine ⟨_, ready', taskUnlockScheduler_eq ((taskSchedule_lock _).trans hn), ?_⟩
    exact h'.frame rfl rfl rfl rfl rfl
  · rw [if_neg hf]
    exact ⟨_, ready, taskUnlockScheduler_eq (by exact hn), h.frame rfl rfl rfl rfl rfl⟩

/-- **A tick**, whether or not the time slice ends and the running task is the idle one, keeps the lists
in order, and keeps on the sleep list whoever is not due. -/
theorem InOrder.tick (h : InOrder s ready asleep) (hfuel : asleep.length < fuel) (now : ℕ) :
    ∃ s' ready' asleep', taskTimeHandler s fuel now = some s' ∧ InOrder s' ready' asleep' ∧
      ∀ x ∈ asleep, now < s.wakeUpTime x → x ∈ asleep' := by
  rw [taskTimeHandler]
  by_cases hl : s.scheduleLockCounter ≠ 0
  · rw [if_pos hl]
    exact ⟨s, ready, asleep, rfl, h, fun x hx _ => hx⟩
  rw [if_neg hl]
  have hnil : Linked s.next 0 0 ([] : List ℕ) := rfl
  obtain ⟨s₁, hrun, ⟨n, st, r, a, f, rfl⟩, hready, hasleep, -⟩ := taskWakeLoop_split
    (s := { taskLock s with sleepTasks := 0 }) h.onSleep h.onReady hnil h.apart
    (List.disjoint_nil_right _) (Nat.succ_ne_zero _) hfuel
  set s₁ : Sched := { taskLock s with
    next := n, state := st, scheduleTasks := r, sleepTasks := a, postponeSwitchFlag := f } with hs₁
  rw [List.append_nil] at hasleep
  have h₁ : InOrder s₁ ((dueTasks s now asleep).reverse ++ ready) (lateTasks s now asleep).reverse := by
    refine ⟨hready, hasleep, fun y hya hyr => ?_, fun he => ?_⟩
    · rw [List.mem_reverse, mem_lateTasks] at hya
      rw [List.mem_append, List.mem_reverse, mem_dueTasks] at hyr
      exact hyr.elim (fun hd => absurd hd.2 (Nat.not_le.mpr hya.2)) (h.apart hya.1)
    · obtain ⟨h₀, hr, ha⟩ := h.idle he
      refine ⟨h₀, fun hmem => ?_, fun hmem => ?_⟩
      · rw [List.mem_append, List.mem_reverse, mem_dueTasks] at hmem
        exact hmem.elim (fun hd => ha hd.1) hr
      · exact ha (mem_lateTasks.mp (List.mem_reverse.mp hmem)).1
  have hslice : ∃ p w, taskSlice s₁ = { s₁ with postponeSwitchFlag := p, timeSliceRemaining := w } := by
    rw [taskSlice]
    dsimp only
    by_cases h₀ : s₁.timeSliceRemaining = 0
    · exact ⟨_, _, if_pos h₀⟩
    rw [if_neg h₀]
    by_cases h₁ : s₁.timeSliceRemaining - 1 = 0
    · rw [if_pos h₁, taskSchedule, if_pos (by exact Nat.succ_ne_zero _)]
      exact ⟨_, _, rfl⟩
    · exact ⟨_, _, if_neg h₁⟩
  obtain ⟨p, w, hw⟩ := hslice
  have h₂ : InOrder (taskSlice s₁) ((dueTasks s now asleep).reverse ++ ready) (lateTasks s now asleep).reverse := by
    rw [hw]
    exact h₁.frame rfl rfl rfl rfl rfl
  obtain ⟨s', ready', hu, h'⟩ := h₂.unlock (by rw [hw]; exact Nat.succ_ne_zero _)
  refine ⟨s', ready', _, ?_, h', fun x hx hlate => List.mem_reverse.mpr (mem_lateTasks.mpr ⟨hx, hlate⟩)⟩
  change (taskWakeLoop now fuel { taskLock s with sleepTasks := 0 } s.sleepTasks).bind _ = _
  rw [hrun, Option.bind_some]
  exact hu

end BulbOS.Task
