import BulbOS.Task.Conserve
import Mathlib.Data.Fintype.EquivFin

/-!
# The links an operation leaves alone

An operation of `task.c` changes the links of the tasks that run before and after it, of the idle
task and of the tasks that it names, and no others.

* `TaskOp.Names`: the tasks an operation names;
* **`taskStep_next`**: the link of any other task is unchanged;
* `TaskInv.keeps`: a sound operation takes only the running task away from the processor.
-/

namespace BulbOS.Task

open KLib

variable {s s' : Sched} {c c' : TaskCfg} {t x : ℕ}

/-- The tasks an operation names; a tick names the sleeping ones. -/
def TaskOp.Names (c : TaskCfg) (x : ℕ) : TaskOp → Prop
  | .add task | .unblock task | .forceSwitch task => x = task
  | .terminate => x = c.sched.taskCleaner
  | .tick _ => ∀ asleep, Linked c.sched.next 0 c.sched.sleepTasks asleep → x ∈ asleep
  | _ => False

/-- The task given to the operation. -/
def TaskOp.names : TaskOp → Finset ℕ
  | .add task | .unblock task | .forceSwitch task => {task}
  | _ => ∅

theorem taskUnlockScheduler_some (h : taskUnlockScheduler s = some s') :
    s'.next = s.next ∧ s'.idleTask = s.idleTask ∧ s'.currentTask = s.currentTask := by
  rw [taskUnlockScheduler] at h
  split_ifs at h
  rw [Option.some.injEq] at h
  subst h
  exact ⟨rfl, rfl, rfl⟩

theorem taskAddNode_next (hx : x ≠ t) : (taskAddNode s t).next x = s.next x :=
  Function.update_of_ne hx _ _

/-- A switch, now or later, changes the links of the idle task and of its target only. -/
theorem taskSwitchWrapper_frame (hi : x ≠ s.idleTask) (hx : x ≠ t) :
    (taskSwitchWrapper s t).next x = s.next x ∧ (taskSwitchWrapper s t).idleTask = s.idleTask := by
  by_cases hp : s.postponeSwitchCounter = 0
  · refine ⟨taskSwitchWrapper_next hp hi hx, ?_⟩
    rw [taskSwitchWrapper, if_neg (not_not.mpr hp)]
    dsimp only [taskSwitch]
    split_ifs <;> rfl
  · rw [taskSwitchWrapper, if_pos hp]
    exact ⟨taskAddNode_next hx, rfl⟩

theorem taskBlock_next {reason : TaskState} (h : taskBlock s reason = some s') (hi : x ≠ s.idleTask)
    (hc : x ≠ s'.currentTask) : s'.next x = s.next x ∧ s'.idleTask = s.idleTask := by
  obtain ⟨hn, hid, hcur⟩ := taskUnlockScheduler_some h
  rw [hcur] at hc
  rw [hn, hid]
  exact ⟨taskSchedule_next (by exact hi) hc, taskSchedule_idleTask _⟩

theorem taskUnblock_next (h : taskUnblock s t = some s') (hi : x ≠ s.idleTask) (hx : x ≠ t) :
    s'.next x = s.next x ∧ s'.idleTask = s.idleTask := by
  obtain ⟨hn, hid, _⟩ := taskUnlockScheduler_some h
  rw [hn, hid]
  split_ifs
  · exact taskSwitchWrapper_frame (by exact hi) hx
  · exact ⟨taskAddNode_next hx, rfl⟩

theorem taskForceSwitch_next (h : taskForceSwitch s t = some s') (hi : x ≠ s.idleTask) (hx : x ≠ t)
    (hc : x ≠ s.currentTask) : s'.next x = s.next x ∧ s'.idleTask = s.idleTask := by
  obtain ⟨hn, hid, _⟩ := taskUnlockScheduler_some h
  rw [hn, hid]
  obtain ⟨h₁, h₂⟩ := taskSwitchWrapper_frame (s := { taskLockScheduler s with
    next := Function.update s.next s.currentTask s.scheduleTasks
    scheduleTasks := s.currentTask }) (t := t) (by exact hi) hx
  exact ⟨h₁.trans (Function.update_of_ne hc _ _), h₂⟩

/-- With no switch postponed `task_unlock` switches to nobody. -/
theorem taskUnlock_noFlag (h : taskUnlock s = some s') (hf : s.postponeSwitchFlag = false) :
    s'.next = s.next ∧ s'.idleTask = s.idleTask ∧ s'.currentTask = s.currentTask := by
  have hc : ¬ (dec32 s.postponeSwitchCounter = 0 ∧ s.postponeSwitchFlag = true) := by simp [hf]
  rw [taskUnlock, if_neg hc] at h
  obtain ⟨h₁, h₂, h₃⟩ := taskUnlockScheduler_some h
  exact ⟨h₁, h₂, h₃⟩

theorem nanoSleepUntil_next {wakeUpTime now : ℕ} (h : nanoSleepUntil s wakeUpTime now = some s')
    (hf : s.postponeSwitchFlag = false) (hi : x ≠ s.idleTask) (hc : x ≠ s.currentTask)
    (hc' : x ≠ s'.currentTask) : s'.next x = s.next x ∧ s'.idleTask = s.idleTask := by
  rw [nanoSleepUntil] at h
  split_ifs at h
  · obtain ⟨hn, hid, _⟩ := taskUnlock_noFlag h hf
    rw [hn, hid]
    exact ⟨rfl, rfl⟩
  · obtain ⟨s₁, hu, hb⟩ := Option.bind_eq_some_iff.mp h
    obtain ⟨hn, hid, _⟩ := taskUnlock_noFlag hu hf
    obtain ⟨h₁, h₂⟩ := taskBlock_next hb (by rw [hid]; exact hi) hc'
    rw [h₁, h₂, hn, hid]
    exact ⟨Function.update_of_ne hc _ _, rfl⟩

theorem taskTerminate_next (h : taskTerminate s = some s') (hi : x ≠ s.idleTask)
    (hc : x ≠ s.currentTask) (hc' : x ≠ s'.currentTask) (hx : x ≠ s.taskCleaner) :
    s'.next x = s.next x ∧ s'.idleTask = s.idleTask := by
  have hp : (taskLock s).postponeSwitchCounter ≠ 0 := Nat.succ_ne_zero _
  let s₁ : Sched := { taskLock s with
    next := Function.update s.next s.currentTask s.terminatedTasks
    terminatedTasks := s.currentTask }
  have hb := taskBlock_postponed (s := s₁) hp .terminated
  change (taskBlock s₁ .terminated).bind
    (fun s => (taskUnblock s s.taskCleaner).bind fun s => taskUnlock s) = some s' at h
  rw [hb, Option.bind_some] at h
  obtain ⟨s₂, hu, hk⟩ := Option.bind_eq_some_iff.mp h
  obtain ⟨h₁, h₂⟩ := taskUnblock_next hu (by exact hi) (by exact hx)
  obtain ⟨h₃, h₄⟩ := taskUnlock_next hk
  refine ⟨((h₄ x (by rw [h₂]; exact hi) hc').trans h₁).trans ?_, h₃.trans h₂⟩
  exact Function.update_of_ne hc _ _

/-- The wake-up loop changes the links of the tasks it walks over. -/
theorem taskWakeLoop_next {now fuel nextTask : ℕ} {rest : List ℕ}
    (h : taskWakeLoop now fuel s nextTask = some s') (hrest : Linked s.next 0 nextTask rest)
    (hx : x ∉ rest) (hp : s.postponeSwitchCounter ≠ 0) : s'.next x = s.next x ∧
      s'.idleTask = s.idleTask ∧ s'.postponeSwitchCounter = s.postponeSwitchCounter := by
  induction rest generalizing s fuel nextTask with
  | nil =>
    cases fuel with
    | zero => cases h
    | succ fuel =>
      have h₀ : nextTask = 0 := hrest
      rw [taskWakeLoop, if_pos h₀, Option.some.injEq] at h
      subst h
      exact ⟨rfl, rfl, rfl⟩
  | cons y rest ih =>
    cases fuel with
    | zero => cases h
    | succ fuel =>
      have hnd : nextTask ∉ rest := by
        have := hrest.nodup
        rw [← hrest.1] at this
        exact (List.nodup_cons.mp this).1
      obtain ⟨rfl, hy₀, htail⟩ := hrest
      rw [List.mem_cons, not_or] at hx
      rw [taskWakeLoop, if_neg hy₀] at h
      dsimp only at h
      split_ifs at h
      · rw [taskUnblock_postponed hp] at h
        obtain ⟨h₁, h₂⟩ := ih h (htail.update hnd) hx.2 hp
        exact ⟨h₁.trans (Function.update_of_ne hx.1 _ _), h₂⟩
      · obtain ⟨h₁, h₂⟩ := ih h (htail.update hnd) hx.2 hp
        exact ⟨h₁.trans (Function.update_of_ne hx.1 _ _), h₂⟩

theorem taskSlice_postponed (hp : s.postponeSwitchCounter ≠ 0) :
    (taskSlice s).next = s.next ∧ (taskSlice s).idleTask = s.idleTask := by
  rw [taskSlice]
  split_ifs
  · exact ⟨rfl, rfl⟩
  · rw [taskSchedule, if_pos (by exact hp)]
    exact ⟨rfl, rfl⟩
  · exact ⟨rfl, rfl⟩

theorem taskTimeHandler_next {fuel now : ℕ} {asleep : List ℕ} (h : taskTimeHandler s fuel now = some s')
    (hasleep : Linked s.next 0 s.sleepTasks asleep) (hi : x ≠ s.idleTask) (hc' : x ≠ s'.currentTask)
    (hx : x ∉ asleep) : s'.next x = s.next x ∧ s'.idleTask = s.idleTask := by
  rw [taskTimeHandler] at h
  split_ifs at h
  · rw [Option.some.injEq] at h
    subst h
    exact ⟨rfl, rfl⟩
  · obtain ⟨s₁, hw, hu⟩ := Option.bind_eq_some_iff.mp h
    obtain ⟨h₁, h₂, h₃⟩ := taskWakeLoop_next hw hasleep hx (Nat.succ_ne_zero _)
    have hp : s₁.postponeSwitchCounter ≠ 0 := by
      rw [h₃]
      exact Nat.succ_ne_zero _
    obtain ⟨h₄, h₅⟩ := taskSlice_postponed hp
    obtain ⟨h₆, h₇⟩ := taskUnlock_next hu
    refine ⟨(h₇ x (by rw [h₅, h₂]; exact hi) hc').trans ?_, (h₆.trans h₅).trans h₂⟩
    rw [h₄, h₁]
    rfl

theorem taskCleanLoop_next {fuel : ℕ} {freed : List ℕ} (h : taskCleanLoop fuel s = some (s', freed)) :
    s'.next = s.next ∧ s'.idleTask = s.idleTask := by
  induction fuel generalizing s s' freed with
  | zero => cases h
  | succ fuel ih =>
    rw [taskCleanLoop] at h
    split_ifs at h
    · rw [Option.some.injEq, Prod.mk.injEq] at h
      obtain ⟨rfl, _⟩ := h
      exact ⟨rfl, rfl⟩
    · obtain ⟨⟨s₁, freed'⟩, hrec, he⟩ := Option.bind_eq_some_iff.mp h
      obtain ⟨h₁, h₂⟩ := ih hrec
      rw [Option.pure_def, Option.some.injEq, Prod.mk.injEq] at he
      rw [← he.1]
      exact ⟨h₁, h₂⟩

/-- **The links of all other tasks are unchanged.** -/
theorem taskStep_next {op : TaskOp} (h : taskStep c op = some c')
    (hf : c.sched.postponeSwitchFlag = false) (hi : x ≠ c.sched.idleTask)
    (hc : x ≠ c.sched.currentTask) (hc' : x ≠ c'.sched.currentTask) (hx : ¬ op.Names c x) :
    c'.sched.next x = c.sched.next x ∧ c'.sched.idleTask = c.sched.idleTask := by
  cases op with
  | add task =>
    rw [taskStep, Option.some.injEq] at h
    subst h
    exact ⟨(taskAddNode_next hx).trans (Function.update_of_ne hx _ _), rfl⟩
  | block reason =>
    obtain ⟨s, hs, rfl⟩ := Option.map_eq_some_iff.mp h
    exact taskBlock_next hs hi hc'
  | unblock task =>
    obtain ⟨s, hs, rfl⟩ := Option.map_eq_some_iff.mp h
    exact taskUnblock_next hs hi hx
  | forceSwitch task =>
    obtain ⟨s, hs, rfl⟩ := Option.map_eq_some_iff.mp h
    exact taskForceSwitch_next hs hi hx hc
  | sleep wakeUpTime now =>
    obtain ⟨s, hs, rfl⟩ := Option.map_eq_some_iff.mp h
    exact nanoSleepUntil_next hs hf hi hc hc'
  | terminate =>
    obtain ⟨s, hs, rfl⟩ := Option.map_eq_some_iff.mp h
    exact taskTerminate_next hs hi hc hc' hx
  | clean =>
    obtain ⟨⟨s, freed⟩, hs, rfl⟩ := Option.map_eq_some_iff.mp h
    obtain ⟨⟨s₁, freed'⟩, hl, hr⟩ := Option.bind_eq_some_iff.mp hs
    obtain ⟨s₂, hu, he⟩ := Option.bind_eq_some_iff.mp hr
    rw [Option.pure_def, Option.some.injEq, Prod.mk.injEq] at he
    obtain ⟨rfl, _⟩ := he
    obtain ⟨h₁, h₂⟩ := taskCleanLoop_next hl
    obtain ⟨h₃, h₄⟩ := taskUnlock_next hu
    refine ⟨(h₄ x (by rw [h₂]; exact hi) hc').trans ?_, h₃.trans h₂⟩
    rw [h₁]
    rfl
  | tick now =>
    obtain ⟨s, hs, rfl⟩ := Option.map_eq_some_iff.mp h
    simp only [TaskOp.Names, not_forall] at hx
    obtain ⟨asleep, hasleep, hmem⟩ := hx
    exact taskTimeHandler_next hs hasleep hi hc' hmem

/-- The idle task stays the same: take a task that the operation leaves alone. -/
theorem taskStep_idleTask {ready asleep dead : List ℕ} (hinv : TaskInv c ready asleep dead) {op : TaskOp}
    (h : taskStep c op = some c') : c'.sched.idleTask = c.sched.idleTask := by
  obtain ⟨x, hx⟩ := Infinite.exists_notMem_finset ((c.sched.idleTask :: c.sched.currentTask ::
    c'.sched.currentTask :: c.sched.taskCleaner :: asleep).toFinset ∪ op.names)
  simp only [Finset.mem_union, List.mem_toFinset, List.mem_cons, not_or] at hx
  obtain ⟨⟨hi, hc, hc', hcl, ha⟩, hop⟩ := hx
  refine (taskStep_next h hinv.flag hi hc hc' ?_).2
  cases op with
  | add t => exact fun e => hop (Finset.mem_singleton.mpr e)
  | unblock t => exact fun e => hop (Finset.mem_singleton.mpr e)
  | forceSwitch t => exact fun e => hop (Finset.mem_singleton.mpr e)
  | terminate => exact hcl
  | tick now => exact fun hn => ha (hn asleep hinv.places.onSleep)
  | block => exact id
  | sleep => exact id
  | clean => exact id

/-! ## The places an operation leaves alone -/

/-- The running task blocks, sleeps or terminates. -/
def TaskOp.Parks : TaskOp → Prop
  | .block _ | .sleep _ _ | .terminate => True
  | _ => False

/-- Only the running task stops running, and only tasks that are named stop waiting. -/
structure Keeps (c : TaskCfg) (op : TaskOp) (c' : TaskCfg) (asleep dead asleep' dead' : List ℕ) : Prop where
  waits : ∀ x ∈ c'.waiting, x ∈ c.waiting ∨ op.Parks ∧ x = c.sched.currentTask
  sleeps : ∀ x ∈ asleep', x ∈ asleep ∨ op.Parks ∧ x = c.sched.currentTask
  dies : ∀ x ∈ dead', x ∈ dead ∨ op.Parks ∧ x = c.sched.currentTask
  lives : ∀ x ∈ c.live, x ∈ c'.live ∨ x ∈ dead
  named : ∀ x ∈ c.waiting, x ∈ c'.waiting ∨ op.Names c x

theorem TaskInv.keeps {ready asleep dead : List ℕ} (h : TaskInv c ready asleep dead) {op : TaskOp}
    (hl : op.Legal c) (hs : op.Sound c) :
    ∃ c' ready' asleep' dead', taskStep c op = some c' ∧ TaskInv c' ready' asleep' dead' ∧
      Keeps c op c' asleep dead asleep' dead' := by
  have herase : ∀ {t x : ℕ}, x ∈ c.waiting → x ∈ c.waiting.erase t ∨ x = t := fun {t x} hx => by
    by_cases hxt : x = t
    · exact .inr hxt
    · exact .inl ((List.mem_erase_of_ne hxt).mpr hx)
  cases op with
  | add task =>
    obtain ⟨c', he, hinv⟩ := h.add hl
    obtain rfl := Option.some.inj he
    exact ⟨_, _, _, _, rfl, hinv, fun _ => .inl, fun _ => .inl, fun _ => .inl,
      fun _ hx => .inl (List.mem_cons_of_mem _ hx), fun _ => .inl⟩
  | block reason =>
    obtain ⟨c', _, he, hinv⟩ := h.block hl
    obtain ⟨s', hs', rfl⟩ := Option.map_eq_some_iff.mp he
    exact ⟨_, _, _, _, he, hinv, fun _ hx => (List.mem_cons.mp hx).symm.imp id fun hx => ⟨trivial, hx⟩,
      fun _ => .inl, fun _ => .inl, fun _ => .inl, fun _ hx => .inl (List.mem_cons_of_mem _ hx)⟩
  | unblock task =>
    obtain ⟨c', _, he, hinv⟩ := h.unblock hl
    obtain ⟨s', hs', rfl⟩ := Option.map_eq_some_iff.mp he
    exact ⟨_, _, _, _, he, hinv, fun _ hx => .inl (List.mem_of_mem_erase hx), fun _ => .inl, fun _ => .inl,
      fun _ => .inl, fun _ hx => herase hx⟩
  | forceSwitch task =>
    obtain ⟨c', he, hinv⟩ := h.forceSwitch hl hs
    obtain ⟨s', hs', rfl⟩ := Option.map_eq_some_iff.mp he
    exact ⟨_, _, _, _, he, hinv, fun _ hx => .inl (List.mem_of_mem_erase hx), fun _ => .inl, fun _ => .inl,
      fun _ => .inl, fun _ hx => herase hx⟩
  | sleep wakeUpTime now =>
    obtain ⟨c', _, he, hinv⟩ := h.sleep hl wakeUpTime now
    obtain ⟨s', hs', rfl⟩ := Option.map_eq_some_iff.mp he
    refine ⟨_, _, _, _, he, hinv, fun _ => .inl, fun x hx => ?_, fun _ => .inl, fun _ => .inl, fun _ => .inl⟩
    split_ifs at hx
    · exact .inl hx
    · exact (List.mem_cons.mp hx).symm.imp id fun hx => ⟨trivial, hx⟩
  | terminate =>
    obtain ⟨c', _, he, hinv⟩ := h.terminate hl hs
    obtain ⟨s', hs', rfl⟩ := Option.map_eq_some_iff.mp he
    exact ⟨_, _, _, _, he, hinv, fun _ hx => .inl (List.mem_of_mem_erase hx), fun _ => .inl,
      fun _ hx => (List.mem_cons.mp hx).symm.imp id fun hx => ⟨trivial, hx⟩, fun _ => .inl, fun _ hx => herase hx⟩
  | clean =>
    obtain ⟨s', he, hinv⟩ := h.clean
    refine ⟨_, _, _, _, by rw [taskStep, he]; rfl, hinv, fun _ => .inl, fun _ => .inl,
      fun _ hx => absurd hx List.not_mem_nil, fun x hx => ?_, fun _ => .inl⟩
    by_cases hd : x ∈ dead
    · exact .inr hd
    · exact .inl (h.places.nodup.mem_sdiff_iff.mpr ⟨hx, hd⟩)
  | tick now =>
    obtain ⟨c', _, _, he, hinv, -, hold⟩ := h.tick now hs
    obtain ⟨s', hs', rfl⟩ := Option.map_eq_some_iff.mp he
    exact ⟨_, _, _, _, he, hinv, fun _ => .inl, fun x hx => .inl (hold x hx), fun _ => .inl, fun _ => .inl,
      fun _ => .inl⟩

end BulbOS.Task
