import BulbOS.Lib.Run
import BulbOS.Task.Places
import Mathlib.Data.List.Count
import Mathlib.Data.List.Nodup
import Mathlib.Data.List.Perm.Subperm

/-!
# No task is lost

Runs of the operations of `task.c` from `multitask_init`. A task is `waiting` when it called
`task_block` and has not been named by `task_unblock` or `task_force_switch` since; the cleaner is
created waiting.

The property fails in three ways: a tick that ends the time slice drops the running task (or the
idle one), a `task_force_switch` while the idle task runs links it to itself, and a `task_terminate`
while the cleaner is ready links it twice. `TaskOp.Sound` keeps these steps out.

* `Conserved`: every task is in exactly one place;
* `TaskInv.block`, …, `TaskInv.tick`: one step;
* **`task_conservation`**: all runs of sound steps;
* `idle_task_dropped`: ten ticks after boot the idle task is in no place.
-/

namespace BulbOS.Task

open KLib

/-- The scheduler, the tasks created and not cleaned up, and those waiting for `task_unblock`. -/
structure TaskCfg where
  sched : Sched
  live : List ℕ
  waiting : List ℕ

inductive TaskOp
  /-- `task_add_node` of a new task. -/
  | add (task : ℕ)
  | block (reason : TaskState)
  | unblock (task : ℕ)
  | forceSwitch (task : ℕ)
  | sleep (wakeUpTime now : ℕ)
  | terminate
  /-- A round of the cleaner. -/
  | clean
  | tick (now : ℕ)

/-- More than the tasks there are. -/
def TaskCfg.fuel (c : TaskCfg) : ℕ := c.live.length + 1

/-- What the code can do: the idle task only halts and the cleaner does not terminate; tasks are
unblocked or switched to when they wait. -/
def TaskOp.Legal (c : TaskCfg) : TaskOp → Prop
  | .add task => task ≠ 0 ∧ task ∉ c.live
  | .block reason =>
    c.sched.currentTask ≠ c.sched.idleTask ∧
      reason ∈ [TaskState.blocked, .waitingForLock, .ioRequest, .condvar]
  | .unblock task => task ∈ c.waiting
  | .forceSwitch task => task ∈ c.waiting
  | .sleep _ _ => c.sched.currentTask ≠ c.sched.idleTask
  | .terminate =>
    c.sched.currentTask ≠ c.sched.idleTask ∧ c.sched.currentTask ≠ c.sched.taskCleaner
  | .clean => c.sched.currentTask = c.sched.taskCleaner
  | .tick _ => True

/-- The steps that lose no task. -/
def TaskOp.Sound (c : TaskCfg) : TaskOp → Prop
  | .forceSwitch _ => c.sched.currentTask ≠ c.sched.idleTask
  | .terminate => c.sched.taskCleaner ∈ c.waiting
  | .tick _ => c.sched.timeSliceRemaining ≠ 1
  | _ => True

instance (c : TaskCfg) (op : TaskOp) : Decidable (op.Legal c) := by
  cases op <;> unfold TaskOp.Legal <;> infer_instance

instance (c : TaskCfg) (op : TaskOp) : Decidable (op.Sound c) := by
  cases op <;> unfold TaskOp.Sound <;> infer_instance

def taskStep (c : TaskCfg) : TaskOp → Option TaskCfg
  | .add task => some ⟨taskAddNode (taskCreateNew c.sched task) task, task :: c.live, c.waiting⟩
  | .block reason => (taskBlock c.sched reason).map fun s =>
    ⟨s, c.live, c.sched.currentTask :: c.waiting⟩
  | .unblock task => (taskUnblock c.sched task).map fun s => ⟨s, c.live, c.waiting.erase task⟩
  | .forceSwitch task => (taskForceSwitch c.sched task).map fun s => ⟨s, c.live, c.waiting.erase task⟩
  | .sleep wakeUpTime now => (nanoSleepUntil c.sched wakeUpTime now).map fun s =>
    ⟨s, c.live, c.waiting⟩
  | .terminate => (taskTerminate c.sched).map fun s =>
    ⟨s, c.live, c.waiting.erase c.sched.taskCleaner⟩
  | .clean => (taskClean c.sched c.fuel).map fun r => ⟨r.1, c.live.diff r.2, c.waiting⟩
  | .tick now => (taskTimeHandler c.sched c.fuel now).map fun s => ⟨s, c.live, c.waiting⟩

/-- **Every task is in exactly one place**: it runs, it is on one of the three lists, once, or it
waits for `task_unblock`. -/
def Conserved (c : TaskCfg) : Prop :=
  ∃ ready asleep dead, Linked c.sched.next 0 c.sched.scheduleTasks ready ∧
    Linked c.sched.next 0 c.sched.sleepTasks asleep ∧
    Linked c.sched.next 0 c.sched.terminatedTasks dead ∧
    ∀ t ∈ c.live, [c.sched.currentTask].count t + ready.count t + asleep.count t + dead.count t +
      c.waiting.count t = 1

/-- The tasks are in their places, and between steps nothing is locked or postponed. -/
structure TaskInv (c : TaskCfg) (ready asleep dead : List ℕ) : Prop where
  places : Places c.sched c.live (c.sched.currentTask :: c.waiting) ready asleep dead
  idle : c.sched.idleTask = c.sched.currentTask ∨ c.sched.idleTask ∈ ready
  slice : c.sched.currentTask = c.sched.idleTask → c.sched.timeSliceRemaining = 0
  lock : c.sched.scheduleLockCounter = 0
  postpone : c.sched.postponeSwitchCounter = 0
  flag : c.sched.postponeSwitchFlag = false

variable {c : TaskCfg} {s s' : Sched} {live waiting loose ready asleep dead : List ℕ} {t : ℕ}

theorem TaskInv.conserved (h : TaskInv c ready asleep dead) : Conserved c := by
  refine ⟨ready, asleep, dead, h.places.onReady, h.places.onSleep, h.places.onDead, fun t ht => ?_⟩
  have hc := h.places.count t
  rw [List.count_eq_one_of_mem h.places.nodup ht, List.count_cons] at hc
  rw [List.count_singleton]
  omega

theorem TaskInv.idle_ready (h : TaskInv c ready asleep dead)
    (hne : c.sched.currentTask ≠ c.sched.idleTask) : c.sched.idleTask ∈ ready :=
  h.idle.resolve_left fun e => hne e.symm

theorem TaskInv.off_waiting (h : TaskInv c ready asleep dead) (ht : t ∈ c.waiting) :
    t ≠ c.sched.currentTask ∧ t ≠ c.sched.idleTask ∧ t ∉ asleep := by
  have hc := h.places.count t
  have hle := List.nodup_iff_count_le_one.mp h.places.nodup t
  have hpos := List.count_pos_iff.mpr ht
  rw [List.count_cons] at hc
  have hcur : t ≠ c.sched.currentTask := by
    rintro rfl
    rw [beq_self_eq_true, if_pos rfl] at hc
    omega
  refine ⟨hcur, fun hid => ?_, fun ha => ?_⟩
  · rcases h.idle with hi | hi
    · exact hcur (hid.trans hi)
    · have := List.count_pos_iff.mpr (hid ▸ hi : t ∈ ready)
      omega
  · have := List.count_pos_iff.mpr ha
    omega

theorem TaskInv.perm {waiting' : List ℕ} (h : TaskInv ⟨s, live, waiting⟩ ready asleep dead)
    (hp : waiting.Perm waiting') : TaskInv ⟨s, live, waiting'⟩ ready asleep dead := by
  refine ⟨h.places.frame rfl rfl rfl rfl fun a => ?_, h.idle, h.slice, h.lock, h.postpone, h.flag⟩
  exact ((hp.cons s.currentTask).count_eq a).symm

theorem Places.of_ready (h : Places s live loose ready asleep dead) (ht : t ∈ ready) :
    t ∈ live ∧ t ∉ loose ∧ t ∉ asleep ∧ t ∉ dead := by
  have hc := h.count t
  have hle := List.nodup_iff_count_le_one.mp h.nodup t
  have hpos := List.count_pos_iff.mpr ht
  exact ⟨List.count_pos_iff.mp (by omega), List.count_eq_zero.mp (by omega), List.count_eq_zero.mp (by omega),
    List.count_eq_zero.mp (by omega)⟩

theorem TaskInv.ready_or_current (h : TaskInv c ready asleep dead) (hl : t ∈ c.live) (hw : t ∉ c.waiting)
    (ha : t ∉ asleep) (hd : t ∉ dead) : t ∈ ready ∨ t = c.sched.currentTask := by
  have hc := h.places.count t
  rw [List.count_eq_one_of_mem h.places.nodup hl, List.count_eq_zero.mpr ha, List.count_eq_zero.mpr hd,
    List.count_cons, List.count_eq_zero.mpr hw] at hc
  by_cases hcur : c.sched.currentTask = t
  · exact .inr hcur.symm
  · rw [beq_false_of_ne hcur] at hc
    exact .inl (List.count_pos_iff.mp (by simp at hc; omega))

theorem taskInv_of_switch (hpl : Places s' live (t :: waiting) ready asleep dead)
    (hsw : Switched s t s') (hlock : s.scheduleLockCounter = 1) (hp : s.postponeSwitchCounter = 0)
    (hf : s.postponeSwitchFlag = false) (hidle : s.idleTask = t ∨ s.idleTask ∈ ready) :
    ∃ s'', taskUnlockScheduler s' = some s'' ∧ TaskInv ⟨s'', live, waiting⟩ ready asleep dead := by
  refine ⟨_, taskUnlockScheduler_eq (n := 0) (hsw.lock.trans hlock), ?_, ?_, ?_, rfl, ?_, ?_⟩
  · exact hpl.frame rfl rfl rfl rfl fun a => by rw [hsw.current]
  · change s'.idleTask = s'.currentTask ∨ s'.idleTask ∈ ready
    rwa [hsw.idle, hsw.current]
  · change s'.currentTask = s'.idleTask → s'.timeSliceRemaining = 0
    intro he
    rw [hsw.slice, if_pos (by rw [← hsw.current, he, hsw.idle])]
  · exact hsw.postpone.trans hp
  · exact hsw.flag.trans hf

theorem taskBlock_spec (h : Places s live loose ready asleep dead) (hlock : s.scheduleLockCounter = 0)
    (hp : s.postponeSwitchCounter = 0) (hf : s.postponeSwitchFlag = false)
    (hne : s.currentTask ≠ s.idleTask) (hidle : s.idleTask ∈ ready) {reason : TaskState}
    (hr : reason ≠ .running) :
    ∃ s' ready', taskBlock s reason = some s' ∧ TaskInv ⟨s', live, loose⟩ ready' asleep dead := by
  let s₁ := { taskLockScheduler s with state := Function.update s.state s.currentTask reason }
  have h₁ : Places s₁ live loose ready asleep dead := h.frame rfl rfl rfl rfl fun _ => rfl
  have hst : s₁.state s₁.currentTask ≠ .running := by
    change Function.update s.state s.currentTask reason s.currentTask ≠ .running
    rwa [Function.update_self]
  obtain ⟨t, ready', hpl, hsw, hi⟩ := h₁.schedule hp hne (.inl hst) hidle
  have hl : s₁.scheduleLockCounter = 1 := by
    change s.scheduleLockCounter + 1 = 1
    rw [hlock]
  obtain ⟨s', he, hinv⟩ := taskInv_of_switch hpl hsw hl hp hf hi
  exact ⟨s', ready', he, hinv⟩

theorem TaskInv.block (h : TaskInv c ready asleep dead) {reason : TaskState}
    (hl : (TaskOp.block reason).Legal c) :
    ∃ c' ready', taskStep c (.block reason) = some c' ∧ TaskInv c' ready' asleep dead := by
  have hr : reason ≠ .running := by
    rintro rfl
    exact absurd hl.2 (by decide)
  obtain ⟨s', ready', he, hinv⟩ := taskBlock_spec h.places h.lock h.postpone h.flag hl.1
    (h.idle_ready hl.1) hr
  exact ⟨_, ready', by rw [taskStep, he]; rfl, hinv⟩

theorem TaskInv.places_new (h : TaskInv c ready asleep dead) (h₀ : t ≠ 0) (hnew : t ∉ c.live) :
    Places (taskCreateNew c.sched t) (t :: c.live) (t :: c.sched.currentTask :: c.waiting)
      ready asleep dead := by
  have hz := List.count_eq_zero.mpr hnew
  have hc := h.places.count t
  refine ⟨h.places.onReady.update (List.count_eq_zero.mp (by omega)),
    h.places.onSleep.update (List.count_eq_zero.mp (by omega)),
    h.places.onDead.update (List.count_eq_zero.mp (by omega)), fun a => ?_,
    List.nodup_cons.mpr ⟨hnew, h.places.nodup⟩, ?_⟩
  · have := h.places.count a
    simp only [List.count_cons] at this ⊢
    omega
  · rw [List.mem_cons, not_or]
    exact ⟨h₀.symm, h.places.nonnull⟩

theorem TaskInv.add (h : TaskInv c ready asleep dead) (hl : (TaskOp.add t).Legal c) :
    ∃ c', taskStep c (.add t) = some c' ∧ TaskInv c' (t :: ready) asleep dead := by
  obtain ⟨h₀, hnew⟩ := hl
  refine ⟨_, rfl, ⟨(h.places_new h₀ hnew).addNode, ?_, h.slice, h.lock, h.postpone, h.flag⟩⟩
  exact h.idle.imp id (List.mem_cons_of_mem _)

theorem TaskInv.create (h : TaskInv c ready asleep dead) (h₀ : t ≠ 0) (hnew : t ∉ c.live) :
    TaskInv ⟨taskCreateNew c.sched t, t :: c.live, t :: c.waiting⟩ ready asleep dead := by
  refine ⟨(h.places_new h₀ hnew).frame rfl rfl rfl rfl fun a => ?_, h.idle, h.slice, h.lock, h.postpone, h.flag⟩
  change (c.sched.currentTask :: t :: c.waiting).count a = _
  simp only [List.count_cons]
  omega

theorem TaskInv.places_waiting (h : TaskInv c ready asleep dead) (ht : t ∈ c.waiting) :
    Places c.sched c.live (t :: c.sched.currentTask :: c.waiting.erase t) ready asleep dead := by
  refine h.places.frame rfl rfl rfl rfl fun a => ?_
  have hp := (List.perm_cons_erase ht).count_eq a
  simp only [List.count_cons] at hp ⊢
  omega

theorem TaskInv.unblock (h : TaskInv c ready asleep dead) (ht : t ∈ c.waiting) :
    ∃ c' ready', taskStep c (.unblock t) = some c' ∧ TaskInv c' ready' asleep dead := by
  have hpl : Places (taskLockScheduler c.sched) c.live
      (t :: c.sched.currentTask :: c.waiting.erase t) ready asleep dead :=
    (h.places_waiting ht).frame rfl rfl rfl rfl fun _ => rfl
  have hl : (taskLockScheduler c.sched).scheduleLockCounter = 1 := by
    change c.sched.scheduleLockCounter + 1 = 1
    rw [h.lock]
  by_cases hcur : c.sched.currentTask = c.sched.idleTask
  · rw [hcur] at hpl
    obtain ⟨hw, hsw⟩ := hpl.wrapperIdle h.postpone hcur
    obtain ⟨s', he, hinv⟩ := taskInv_of_switch hw hsw hl h.postpone h.flag (.inr List.mem_cons_self)
    refine ⟨_, _, ?_, hinv⟩
    have hun : taskUnblock c.sched t = some s' := by
      rw [taskUnblock, if_pos (.inr hcur)]
      exact he
    rw [taskStep, hun]
    rfl
  · have hne : c.sched.scheduleTasks ≠ 0 := by
      intro h₀
      have hnil := h.places.onReady
      rw [h₀] at hnil
      have := h.idle_ready hcur
      rw [hnil.eq_nil] at this
      cases this
    have hun : taskUnblock c.sched t =
        some { taskAddNode (taskLockScheduler c.sched) t with scheduleLockCounter := 0 } := by
      have hc : ¬ ((taskLockScheduler c.sched).scheduleTasks = 0 ∨
          (taskLockScheduler c.sched).currentTask = (taskLockScheduler c.sched).idleTask) :=
        not_or.mpr ⟨hne, hcur⟩
      rw [taskUnblock, if_neg hc]
      exact taskUnlockScheduler_eq hl
    refine ⟨⟨{ taskAddNode (taskLockScheduler c.sched) t with scheduleLockCounter := 0 }, c.live,
      c.waiting.erase t⟩, t :: ready, by rw [taskStep, hun]; rfl, ?_⟩
    exact ⟨hpl.addNode.frame rfl rfl rfl rfl fun _ => rfl,
      h.idle.imp id (List.mem_cons_of_mem _), h.slice, rfl, h.postpone, h.flag⟩

theorem TaskInv.forceSwitch (h : TaskInv c ready asleep dead) (ht : t ∈ c.waiting)
    (hne : c.sched.currentTask ≠ c.sched.idleTask) :
    ∃ c', taskStep c (.forceSwitch t) = some c' ∧
      TaskInv c' (c.sched.currentTask :: ready) asleep dead := by
  have hpl : Places (taskLockScheduler c.sched) c.live
      (c.sched.currentTask :: t :: c.waiting.erase t) ready asleep dead :=
    (h.places_waiting ht).frame rfl rfl rfl rfl fun a => by
      simp only [List.count_cons]
      omega
  obtain ⟨hw, hsw⟩ := hpl.push.wrapper h.postpone hne
  have hl : (taskLockScheduler c.sched).scheduleLockCounter = 1 := by
    change c.sched.scheduleLockCounter + 1 = 1
    rw [h.lock]
  obtain ⟨s', he, hinv⟩ := taskInv_of_switch hw hsw hl h.postpone h.flag
    (.inr (List.mem_cons_of_mem _ (h.idle_ready hne)))
  have hf : taskForceSwitch c.sched t = some s' := he
  exact ⟨_, by rw [taskStep, hf]; rfl, hinv⟩

/-! ## Between `task_lock` and `task_unlock` -/

/-- Switches are postponed. The running task is *here*, or *gone*: it blocked, was killed or lost its
time slice, and `task_unlock` will switch away from it. -/
structure Inside (s : Sched) (gone : Bool) (live loose ready asleep dead : List ℕ) : Prop where
  lock : s.scheduleLockCounter = 1
  postpone : s.postponeSwitchCounter = 1
  idle : s.idleTask = s.currentTask ∨ s.idleTask ∈ ready
  slice : s.currentTask = s.idleTask → s.timeSliceRemaining = 0
  here : gone = false → Places s live (s.currentTask :: loose) ready asleep dead ∧
    (s.postponeSwitchFlag = true → s.currentTask = s.idleTask ∧ ready ≠ [])
  away : gone = true → Places s live loose ready asleep dead ∧ s.currentTask ≠ s.idleTask ∧
    (s.state s.currentTask ≠ .running ∨ ready ≠ [s.idleTask]) ∧ s.postponeSwitchFlag = true

theorem TaskInv.enter (h : TaskInv c ready asleep dead) :
    Inside (taskLock c.sched) false c.live c.waiting ready asleep dead := by
  refine ⟨?_, ?_, h.idle, h.slice, fun _ => ⟨h.places.frame rfl rfl rfl rfl fun _ => rfl, fun hf => ?_⟩, nofun⟩
  · change c.sched.scheduleLockCounter + 1 = 1
    rw [h.lock]
  · change c.sched.postponeSwitchCounter + 1 = 1
    rw [h.postpone]
  · have hf' : c.sched.postponeSwitchFlag = true := hf
    rw [h.flag] at hf'
    cases hf'

theorem Inside.unlock {gone : Bool} (h : Inside s gone live loose ready asleep dead) :
    ∃ s' ready', taskUnlock s = some s' ∧ TaskInv ⟨s', live, loose⟩ ready' asleep dead := by
  let s₁ : Sched := { s with postponeSwitchCounter := 0, postponeSwitchFlag := false }
  cases gone with
  | false =>
    obtain ⟨hpl, hflag⟩ := h.here rfl
    cases hf : s.postponeSwitchFlag with
    | false =>
      refine ⟨_, ready, taskUnlock_quiet h.postpone hf h.lock, ?_⟩
      exact ⟨hpl.frame rfl rfl rfl rfl fun _ => rfl, h.idle, h.slice, rfl, rfl, hf⟩
    | true =>
      -- only the idle task is switched away from
      obtain ⟨hcur, hready⟩ := hflag hf
      obtain ⟨x, ready', rfl⟩ := List.exists_cons_of_ne_nil hready
      have hpl₁ : Places s₁ live (s₁.idleTask :: loose) (x :: ready') asleep dead :=
        hpl.frame rfl rfl rfl rfl fun a => by
          change (s.idleTask :: loose).count a = _
          rw [hcur]
      obtain ⟨hpl', hsw⟩ := hpl₁.scheduleIdle rfl hcur
      obtain ⟨s', he, hinv⟩ := taskInv_of_switch hpl' hsw h.lock rfl rfl (.inr List.mem_cons_self)
      exact ⟨s', _, (taskUnlock_flag h.postpone hf).trans he, hinv⟩
  | true =>
    obtain ⟨hpl, hne, hst, hf⟩ := h.away rfl
    have hpl₁ : Places s₁ live loose ready asleep dead := hpl.frame rfl rfl rfl rfl fun _ => rfl
    obtain ⟨t, ready', hpl', hsw, hi⟩ := hpl₁.schedule rfl hne hst
      (h.idle.resolve_left fun e => hne e.symm)
    obtain ⟨s', he, hinv⟩ := taskInv_of_switch hpl' hsw h.lock rfl rfl hi
    exact ⟨s', ready', (taskUnlock_flag h.postpone hf).trans he, hinv⟩

/-- A task other than the idle one that did not block goes on. -/
theorem Inside.unlock_here (h : Inside s false live loose ready asleep dead) (hne : s.currentTask ≠ s.idleTask) :
    taskUnlock s = some { s with postponeSwitchCounter := 0, scheduleLockCounter := 0 } ∧
      TaskInv ⟨{ s with postponeSwitchCounter := 0, scheduleLockCounter := 0 }, live, loose⟩
        ready asleep dead := by
  obtain ⟨hpl, hflag⟩ := h.here rfl
  have hf : s.postponeSwitchFlag = false := by
    rw [← Bool.not_eq_true]
    exact fun hf => hne (hflag hf).1
  refine ⟨taskUnlock_quiet h.postpone hf h.lock, ?_⟩
  exact ⟨hpl.frame rfl rfl rfl rfl fun _ => rfl, h.idle, h.slice, rfl, rfl, hf⟩

/-- **The closing `task_unlock`**, and what it leaves alone. -/
theorem Inside.leave {gone : Bool} (h : Inside s gone live loose ready asleep dead) :
    ∃ s' ready', taskUnlock s = some s' ∧ TaskInv ⟨s', live, loose⟩ ready' asleep dead ∧
      s'.idleTask = s.idleTask ∧ (∀ x ∈ loose, s'.next x = s.next x) ∧
      (∀ x ∈ ready, x ∈ ready' ∨ x = s'.currentTask) := by
  obtain ⟨s', ready', hu, hinv⟩ := h.unlock
  obtain ⟨hid, hn⟩ := taskUnlock_next hu
  refine ⟨s', ready', hu, hinv, hid, fun x hx => ?_, fun x hx => ?_⟩
  · obtain ⟨hcur, hidle, -⟩ := hinv.off_waiting hx
    exact hn x (hid ▸ hidle) hcur
  · cases gone with
    | false =>
      obtain ⟨hl, hw, ha, hd⟩ := (h.here rfl).1.of_ready hx
      exact hinv.ready_or_current hl (fun hw' => hw (List.mem_cons_of_mem _ hw')) ha hd
    | true =>
      obtain ⟨hl, hw, ha, hd⟩ := (h.away rfl).1.of_ready hx
      exact hinv.ready_or_current hl hw ha hd

theorem Inside.unblock {gone : Bool} (h : Inside s gone live loose ready asleep dead) (ht : t ∈ loose) :
    ∃ s', taskUnblock s t = some s' ∧ s'.next = Function.update s.next t s.scheduleTasks ∧
      s'.currentTask = s.currentTask ∧ s'.idleTask = s.idleTask ∧
      Inside s' gone live (loose.erase t) (t :: ready) asleep dead := by
  have hp : s.postponeSwitchCounter ≠ 0 := by
    rw [h.postpone]
    exact Nat.one_ne_zero
  have hcount : ∀ a, loose.count a = (t :: loose.erase t).count a := (List.perm_cons_erase ht).count_eq
  let f := s.postponeSwitchFlag || decide (s.scheduleTasks = 0 ∨ s.currentTask = s.idleTask)
  refine ⟨taskAddNode { s with postponeSwitchFlag := f } t, taskUnblock_postponed hp t, rfl, rfl, rfl, h.lock,
    h.postpone,
    h.idle.imp id (List.mem_cons_of_mem _), h.slice, fun hg => ?_, fun hg => ?_⟩
  · obtain ⟨hpl, hflag⟩ := h.here hg
    have hpl' : Places { s with postponeSwitchFlag := f } live (t :: s.currentTask :: loose.erase t)
        ready asleep dead :=
      hpl.frame rfl rfl rfl rfl fun a => by
        have := hcount a
        simp only [List.count_cons] at this ⊢
        omega
    refine ⟨hpl'.addNode, fun hf => ⟨?_, List.cons_ne_nil _ _⟩⟩
    change s.currentTask = s.idleTask
    rcases (Bool.or_eq_true _ _).mp hf with hf | hf
    · exact (hflag hf).1
    rcases of_decide_eq_true hf with h₀ | hcur
    · -- the ready list is empty, so the idle task runs
      have hnil := hpl.onReady
      rw [h₀] at hnil
      refine (h.idle.resolve_right fun hi => ?_).symm
      rw [hnil.eq_nil] at hi
      cases hi
    · exact hcur
  · obtain ⟨hpl, hne, hst, hf⟩ := h.away hg
    have hpl' : Places { s with postponeSwitchFlag := f } live (t :: loose.erase t) ready asleep dead :=
      hpl.frame rfl rfl rfl rfl fun a => (hcount a).symm
    refine ⟨hpl'.addNode, hne, ?_, (Bool.or_eq_true _ _).mpr (.inl hf)⟩
    have hidle : s.idleTask ∈ ready := h.idle.resolve_left fun e => hne e.symm
    refine .inr fun hr => ?_
    rw [(List.cons.inj hr).2] at hidle
    cases hidle

theorem Inside.block (h : Inside s false live loose ready asleep dead)
    (hne : s.currentTask ≠ s.idleTask) {reason : TaskState} (hr : reason ≠ .running) :
    ∃ s', taskBlock s reason = some s' ∧ s'.next = s.next ∧ s'.currentTask = s.currentTask ∧
      s'.idleTask = s.idleTask ∧ Inside s' true live (s.currentTask :: loose) ready asleep dead := by
  have hp : s.postponeSwitchCounter ≠ 0 := by
    rw [h.postpone]
    exact Nat.one_ne_zero
  refine ⟨_, taskBlock_postponed hp reason, rfl, rfl, rfl, h.lock, h.postpone, h.idle, h.slice, nofun, fun _ => ?_⟩
  refine ⟨(h.here rfl).1.frame rfl rfl rfl rfl fun _ => rfl, hne, .inl ?_, rfl⟩
  change Function.update s.state s.currentTask reason s.currentTask ≠ .running
  rwa [Function.update_self]

theorem Inside.relink {gone : Bool} (h : Inside s gone live loose ready asleep dead)
    (ht : t ∈ loose ∨ gone = false ∧ t = s.currentTask) (x : ℕ) :
    Inside { s with next := Function.update s.next t x } gone live loose ready asleep dead := by
  refine ⟨h.lock, h.postpone, h.idle, h.slice, fun hg => ?_, fun hg => ?_⟩
  · obtain ⟨hpl, hf⟩ := h.here hg
    have hmem : t ∈ s.currentTask :: loose :=
      ht.elim (List.mem_cons_of_mem _) fun ht => ht.2 ▸ List.mem_cons_self
    obtain ⟨h₁, h₂, h₃⟩ := hpl.relink hmem x
    exact ⟨⟨h₁, h₂, h₃, hpl.count, hpl.nodup, hpl.nonnull⟩, hf⟩
  · obtain ⟨hpl, hrest⟩ := h.away hg
    obtain ⟨h₁, h₂, h₃⟩ := hpl.relink (ht.resolve_right fun ht => by rw [hg] at ht; cases ht.1) x
    exact ⟨⟨h₁, h₂, h₃, hpl.count, hpl.nodup, hpl.nonnull⟩, hrest⟩

/-! ## Steps with a postponed switch -/

theorem TaskInv.sleep (h : TaskInv c ready asleep dead)
    (hne : c.sched.currentTask ≠ c.sched.idleTask) (wakeUpTime now : ℕ) :
    ∃ c' ready', taskStep c (.sleep wakeUpTime now) = some c' ∧
      TaskInv c' ready' (if wakeUpTime < now then asleep else c.sched.currentTask :: asleep) dead := by
  have hp : (taskLock c.sched).postponeSwitchCounter = 1 := by
    change c.sched.postponeSwitchCounter + 1 = 1
    rw [h.postpone]
  have hl : (taskLock c.sched).scheduleLockCounter = 1 := by
    change c.sched.scheduleLockCounter + 1 = 1
    rw [h.lock]
  by_cases hearly : wakeUpTime < now
  · have he : nanoSleepUntil c.sched wakeUpTime now = some { taskLock c.sched with
        postponeSwitchCounter := 0, scheduleLockCounter := 0 } := by
      rw [nanoSleepUntil, if_pos hearly]
      exact taskUnlock_quiet hp h.flag hl
    refine ⟨⟨{ taskLock c.sched with postponeSwitchCounter := 0, scheduleLockCounter := 0 }, c.live,
      c.waiting⟩, ready, by rw [taskStep, he]; rfl, ?_⟩
    rw [if_pos hearly]
    exact ⟨h.places.frame rfl rfl rfl rfl fun _ => rfl, h.idle, h.slice, rfl, rfl, h.flag⟩
  · let s₁ : Sched := { taskLock c.sched with
      wakeUpTime := Function.update c.sched.wakeUpTime c.sched.currentTask wakeUpTime
      next := Function.update c.sched.next c.sched.currentTask c.sched.sleepTasks
      sleepTasks := c.sched.currentTask }
    let s₂ : Sched := { s₁ with postponeSwitchCounter := 0, scheduleLockCounter := 0 }
    have hu : taskUnlock s₁ = some s₂ := taskUnlock_quiet hp h.flag hl
    have hpl : Places s₂ c.live c.waiting ready (c.sched.currentTask :: asleep) dead :=
      h.places.sleep.frame rfl rfl rfl rfl fun _ => rfl
    obtain ⟨s', ready', he, hinv⟩ := taskBlock_spec hpl rfl rfl h.flag hne (h.idle_ready hne)
      (by decide : TaskState.sleeping ≠ .running)
    have hn : nanoSleepUntil c.sched wakeUpTime now = some s' := by
      rw [nanoSleepUntil, if_neg hearly]
      change (taskUnlock s₁).bind (fun s => taskBlock s .sleeping) = some s'
      rw [hu]
      exact he
    rw [if_neg hearly]
    exact ⟨_, ready', by rw [taskStep, hn]; rfl, hinv⟩

theorem TaskInv.terminate (h : TaskInv c ready asleep dead)
    (hl : TaskOp.terminate.Legal c) (hs : TaskOp.terminate.Sound c) :
    ∃ c' ready', taskStep c .terminate = some c' ∧
      TaskInv c' ready' asleep (c.sched.currentTask :: dead) := by
  have hp : (taskLock c.sched).postponeSwitchCounter ≠ 0 := Nat.succ_ne_zero _
  let s₁ : Sched := { taskLock c.sched with
    next := Function.update c.sched.next c.sched.currentTask c.sched.terminatedTasks
    terminatedTasks := c.sched.currentTask }
  let s₂ : Sched := { s₁ with
    state := Function.update s₁.state s₁.currentTask .terminated, postponeSwitchFlag := true }
  have hb : taskBlock s₁ .terminated = some s₂ := taskBlock_postponed (s := s₁) hp _
  have hin := h.enter
  have h₂ : Inside s₂ true c.live c.waiting ready asleep (c.sched.currentTask :: dead) := by
    refine ⟨hin.lock, hin.postpone, h.idle, h.slice, nofun, fun _ => ?_⟩
    refine ⟨h.places.kill.frame rfl rfl rfl rfl fun _ => rfl, hl.1, .inl ?_, rfl⟩
    change Function.update c.sched.state c.sched.currentTask .terminated c.sched.currentTask ≠ .running
    rw [Function.update_self]
    decide
  obtain ⟨s₃, hu, -, -, -, h₃⟩ := h₂.unblock hs
  obtain ⟨s', ready', hk, hinv⟩ := h₃.unlock
  have ht : taskTerminate c.sched = some s' := by
    change (taskBlock s₁ .terminated).bind
      (fun s => (taskUnblock s s.taskCleaner).bind fun s => taskUnlock s) = some s'
    rw [hb, Option.bind_some]
    change (taskUnblock s₂ c.sched.taskCleaner).bind (fun s => taskUnlock s) = some s'
    rw [hu, Option.bind_some, hk]
  exact ⟨_, ready', by rw [taskStep, ht]; rfl, hinv⟩

/-! ## The timer -/

/-- What the wake-up loop leaves alone, and when it asks for a switch. -/
structure Woken (s s' : Sched) (ready ready' : List ℕ) : Prop where
  current : s'.currentTask = s.currentTask
  idle : s'.idleTask = s.idleTask
  lock : s'.scheduleLockCounter = s.scheduleLockCounter
  postpone : s'.postponeSwitchCounter = s.postponeSwitchCounter
  slice : s'.timeSliceRemaining = s.timeSliceRemaining
  keep : ∀ x ∈ ready, x ∈ ready'
  busy : s.currentTask ≠ s.idleTask → ready ≠ [] → s'.postponeSwitchFlag = s.postponeSwitchFlag
  flag : s'.postponeSwitchFlag = true → s.postponeSwitchFlag = true ∨ ready' ≠ []

/-- **The wake-up loop** moves each task of the old sleep list to the ready list or to the new sleep
list. -/
theorem taskWakeLoop_spec {rest : List ℕ} {fuel nextTask : ℕ} (now : ℕ)
    (hrest : Linked s.next 0 nextTask rest) (h : Places s live (rest ++ loose) ready asleep dead)
    (hp : s.postponeSwitchCounter ≠ 0) (hfuel : rest.length < fuel) :
    ∃ s' ready' asleep', taskWakeLoop now fuel s nextTask = some s' ∧
      Places s' live loose ready' asleep' dead ∧ Woken s s' ready ready' ∧
      (∀ x, x ∈ asleep ∨ x ∈ rest ∧ now < s.wakeUpTime x → x ∈ asleep') ∧
      ∀ x ∈ asleep', x ∈ asleep ∨ x ∈ rest := by
  induction rest generalizing s ready asleep fuel nextTask with
  | nil =>
    obtain ⟨fuel, rfl⟩ := Nat.exists_eq_succ_of_ne_zero (by omega : fuel ≠ 0)
    have h₀ : nextTask = 0 := hrest
    refine ⟨s, ready, asleep, by rw [taskWakeLoop, if_pos h₀], h, ?_, ?_, fun _ => .inl⟩
    · exact ⟨rfl, rfl, rfl, rfl, rfl, fun _ hx => hx, fun _ _ => rfl, .inl⟩
    · rintro x (hx | ⟨hx, -⟩)
      · exact hx
      · cases hx
  | cons x rest ih =>
    obtain ⟨fuel, rfl⟩ := Nat.exists_eq_succ_of_ne_zero (by omega : fuel ≠ 0)
    obtain ⟨rfl, hx₀, htail⟩ := hrest
    have hx : nextTask ∉ rest := (List.nodup_cons.mp (Linked.nodup ⟨rfl, hx₀, htail⟩)).1
    rw [List.length_cons] at hfuel
    rw [taskWakeLoop, if_neg hx₀]
    dsimp only
    by_cases hdue : s.wakeUpTime nextTask ≤ now
    · rw [if_pos hdue, taskUnblock_postponed hp]
      set f := s.postponeSwitchFlag || decide (s.scheduleTasks = 0 ∨ s.currentTask = s.idleTask) with hf
      have hpl : Places (taskAddNode { s with postponeSwitchFlag := f } nextTask) live (rest ++ loose)
          (nextTask :: ready) asleep dead :=
        Places.addNode (h.frame rfl rfl rfl rfl fun _ => rfl)
      obtain ⟨s', ready', asleep', hrun, hpl', hw, hlate, hold⟩ := ih (htail.update hx) hpl hp
        (show rest.length < fuel by omega)
      refine ⟨s', ready', asleep', hrun, hpl', ⟨hw.current, hw.idle, hw.lock, hw.postpone, hw.slice,
        fun y hy => hw.keep y (List.mem_cons_of_mem _ hy), fun hne hready => ?_, fun hflag => ?_⟩, ?_,
        fun y hy => (hold y hy).imp id (List.mem_cons_of_mem _)⟩
      · have hne₀ : s.scheduleTasks ≠ 0 := fun h₀ => hready (by
          have := h.onReady
          rw [h₀] at this
          exact this.eq_nil)
        rw [hw.busy hne (List.cons_ne_nil _ _)]
        change f = s.postponeSwitchFlag
        rw [hf, decide_eq_false (not_or.mpr ⟨hne₀, hne⟩), Bool.or_false]
      · exact .inr (List.ne_nil_of_mem (hw.keep nextTask List.mem_cons_self))
      · rintro y (hy | ⟨hy, hlt⟩)
        · exact hlate y (.inl hy)
        · have hne : y ≠ nextTask := fun e => absurd hdue (by rw [← e]; omega)
          exact hlate y (.inr ⟨(List.mem_cons.mp hy).resolve_left hne, hlt⟩)
    · rw [if_neg hdue]
      obtain ⟨s', ready', asleep', hrun, hpl', hw, hlate, hold⟩ := ih (htail.update hx) h.sleep hp
        (show rest.length < fuel by omega)
      refine ⟨s', ready', asleep', hrun, hpl', ⟨hw.current, hw.idle, hw.lock, hw.postpone, hw.slice,
        hw.keep, hw.busy, hw.flag⟩, ?_, fun y hy => ?_⟩
      · rintro y (hy | ⟨hy, hlt⟩)
        · exact hlate y (.inl (List.mem_cons_of_mem _ hy))
        · rcases List.mem_cons.mp hy with rfl | hy
          · exact hlate y (.inl List.mem_cons_self)
          · exact hlate y (.inr ⟨hy, hlt⟩)
      · rcases hold y hy with hy | hy
        · rcases List.mem_cons.mp hy with rfl | hy
          · exact .inr List.mem_cons_self
          · exact .inl hy
        · exact .inr (List.mem_cons_of_mem _ hy)

theorem Places.length_le (h : Places s live loose ready asleep dead) :
    asleep.length ≤ live.length ∧ dead.length ≤ live.length := by
  have hsub : ∀ l : List ℕ, l.Nodup → (∀ a, l.count a ≤ live.count a) → l.length ≤ live.length := by
    intro l hl hc
    refine (List.subperm_of_subset hl fun a ha => ?_).length_le
    have := List.count_pos_iff.mpr ha
    exact List.count_pos_iff.mp (by have := hc a; omega)
  exact ⟨hsub _ h.onSleep.nodup fun a => by have := h.count a; omega,
    hsub _ h.onDead.nodup fun a => by have := h.count a; omega⟩

theorem taskSlice_eq (h : s.timeSliceRemaining ≠ 1) :
    taskSlice s = { s with timeSliceRemaining := s.timeSliceRemaining - 1 } := by
  rw [taskSlice]
  by_cases h₀ : s.timeSliceRemaining = 0
  · rw [if_pos h₀, h₀]
    change s = { s with timeSliceRemaining := 0 }
    rw [← h₀]
  · have h₁ : s.timeSliceRemaining - 1 ≠ 0 := by omega
    rw [if_neg h₀, if_neg (by exact h₁)]

theorem TaskInv.wake (h : TaskInv c ready asleep dead) (now : ℕ) :
    ∃ s₂ ready' asleep', Places s₂ c.live (c.sched.currentTask :: c.waiting) ready' asleep' dead ∧
      Woken { taskLock c.sched with sleepTasks := 0 } s₂ ready ready' ∧
      s₂.postponeSwitchCounter = 1 ∧ s₂.scheduleLockCounter = 1 ∧
      (∀ x ∈ asleep, now < c.sched.wakeUpTime x → x ∈ asleep') ∧ (∀ x ∈ asleep', x ∈ asleep) ∧
      taskTimeHandler c.sched c.fuel now = taskUnlock (taskSlice s₂) := by
  let s₁ : Sched := { taskLock c.sched with sleepTasks := 0 }
  have hpl₁ : Places s₁ c.live (asleep ++ (c.sched.currentTask :: c.waiting)) ready [] dead := by
    refine ⟨h.places.onReady, rfl, h.places.onDead, fun a => ?_, h.places.nodup, h.places.nonnull⟩
    have := h.places.count a
    rw [List.count_append, List.count_nil]
    omega
  have hp₁ : s₁.postponeSwitchCounter ≠ 0 := Nat.succ_ne_zero _
  have hfuel : asleep.length < c.fuel := by
    have := h.places.length_le.1
    unfold TaskCfg.fuel
    omega
  obtain ⟨s₂, ready', asleep', hrun, hpl₂, hw, hlate, hold⟩ := taskWakeLoop_spec (s := s₁) now
    h.places.onSleep hpl₁ hp₁ hfuel
  refine ⟨s₂, ready', asleep', hpl₂, hw, ?_, ?_, fun x hx hlt => hlate x (.inr ⟨hx, hlt⟩),
    fun x hx => (hold x hx).resolve_left List.not_mem_nil, ?_⟩
  · rw [hw.postpone]
    change c.sched.postponeSwitchCounter + 1 = 1
    rw [h.postpone]
  · rw [hw.lock]
    change c.sched.scheduleLockCounter + 1 = 1
    rw [h.lock]
  · rw [taskTimeHandler, if_neg (not_not.mpr h.lock)]
    change (taskWakeLoop now c.fuel s₁ c.sched.sleepTasks).bind _ = _
    rw [hrun, Option.bind_some]

theorem TaskInv.tick (h : TaskInv c ready asleep dead) (now : ℕ) (hs : (TaskOp.tick now).Sound c) :
    ∃ c' ready' asleep', taskStep c (.tick now) = some c' ∧ TaskInv c' ready' asleep' dead ∧
      (∀ x ∈ asleep, now < c.sched.wakeUpTime x → x ∈ asleep') ∧ ∀ x ∈ asleep', x ∈ asleep := by
  obtain ⟨s₂, ready', asleep', hpl₂, hw, hp₂, hl₂, hlate, hold, htick⟩ := h.wake now
  have hslice : s₂.timeSliceRemaining ≠ 1 := by
    rw [hw.slice]
    exact hs
  rw [taskSlice_eq hslice] at htick
  have hcur : s₂.currentTask = c.sched.currentTask := hw.current
  have hidle : s₂.idleTask = c.sched.idleTask := hw.idle
  have h₃ : Inside { s₂ with timeSliceRemaining := s₂.timeSliceRemaining - 1 } false c.live c.waiting
      ready' asleep' dead := by
    refine ⟨hl₂, hp₂, ?_, fun he => ?_, fun _ => ⟨hpl₂.frame rfl rfl rfl rfl fun a => by rw [hcur], fun hflag => ?_⟩,
      nofun⟩
    · rw [hcur, hidle]
      exact h.idle.imp id (hw.keep _)
    · have he' : c.sched.currentTask = c.sched.idleTask := by
        rw [← hcur, ← hidle]
        exact he
      change s₂.timeSliceRemaining - 1 = 0
      rw [hw.slice]
      exact Nat.sub_eq_zero_of_le (le_of_eq_of_le (h.slice he') (Nat.zero_le 1))
    · have hclear : ¬ c.sched.postponeSwitchFlag = true := by
        rw [h.flag]
        decide
      refine ⟨?_, (hw.flag hflag).resolve_left hclear⟩
      rw [hcur, hidle]
      by_contra hne
      have hb : s₂.postponeSwitchFlag = c.sched.postponeSwitchFlag :=
        hw.busy hne (List.ne_nil_of_mem (h.idle_ready hne))
      exact hclear (hb.symm.trans hflag)
  obtain ⟨s', ready'', hu, hinv⟩ := h₃.unlock
  exact ⟨_, ready'', asleep', by rw [taskStep, htick, hu]; rfl, hinv, hlate, hold⟩

/-- **A tick that ends the time slice** takes the processor from the running task, if another task than
the idle one is ready. -/
theorem TaskInv.tickEnd (h : TaskInv c ready asleep dead) (now : ℕ)
    (hslice : c.sched.timeSliceRemaining = 1) (hready : ready ≠ [c.sched.idleTask]) :
    ∃ s' ready' asleep', taskTimeHandler c.sched c.fuel now = some s' ∧
      TaskInv ⟨s', c.live, c.sched.currentTask :: c.waiting⟩ ready' asleep' dead ∧
      ∀ x ∈ asleep, now < c.sched.wakeUpTime x → x ∈ asleep' := by
  obtain ⟨s₂, ready', asleep', hpl₂, hw, hp₂, hl₂, hlate, -, htick⟩ := h.wake now
  have hcur : s₂.currentTask = c.sched.currentTask := hw.current
  have hidle : s₂.idleTask = c.sched.idleTask := hw.idle
  have hne : c.sched.currentTask ≠ c.sched.idleTask := fun he => by
    rw [h.slice he] at hslice
    cases hslice
  have hslice₂ : s₂.timeSliceRemaining = 1 := hw.slice.trans hslice
  have hmem : s₂.idleTask ∈ ready' := by
    rw [hidle]
    exact hw.keep _ (h.idle_ready hne)
  have hne₀ : s₂.timeSliceRemaining ≠ 0 := by rw [hslice₂]; exact Nat.one_ne_zero
  have hend : s₂.timeSliceRemaining - 1 = 0 := by rw [hslice₂]
  have hpost : s₂.postponeSwitchCounter ≠ 0 := by rw [hp₂]; exact Nat.one_ne_zero
  have hs₃ : taskSlice s₂ =
      { s₂ with timeSliceRemaining := s₂.timeSliceRemaining - 1, postponeSwitchFlag := true } := by
    rw [taskSlice, if_neg hne₀, if_pos (by exact hend), taskSchedule, if_pos (by exact hpost)]
  have h₃ : Inside (taskSlice s₂) true c.live (c.sched.currentTask :: c.waiting) ready' asleep' dead := by
    rw [hs₃]
    refine ⟨hl₂, hp₂, .inr hmem, fun he => ?_, fun e => ?_,
      fun _ => ⟨hpl₂.frame rfl rfl rfl rfl fun _ => rfl, ?_, .inr ?_, rfl⟩⟩
    · exact hend
    · cases e
    · change s₂.currentTask ≠ s₂.idleTask
      rwa [hcur, hidle]
    · -- the ready list only grew
      change ready' ≠ [s₂.idleTask]
      rw [hidle]
      rintro rfl
      refine hready (List.perm_singleton.mp ?_)
      refine (List.perm_ext_iff_of_nodup h.places.onReady.nodup (List.nodup_singleton _)).mpr fun x => ?_
      exact ⟨hw.keep x, fun hx => List.mem_singleton.mp hx ▸ h.idle_ready hne⟩
  obtain ⟨s', ready'', hu, hinv⟩ := h₃.unlock
  exact ⟨s', ready'', asleep', htick.trans hu, hinv, hlate⟩

/-! ## The cleaner -/

theorem taskCleanLoop_spec {fuel : ℕ} (h : Linked s.next 0 s.terminatedTasks dead)
    (hfuel : dead.length < fuel) :
    taskCleanLoop fuel s = some ({ s with terminatedTasks := 0 }, dead) := by
  induction dead generalizing s fuel with
  | nil =>
    obtain ⟨fuel, rfl⟩ := Nat.exists_eq_succ_of_ne_zero (by omega : fuel ≠ 0)
    have h₀ : s.terminatedTasks = 0 := h
    rw [taskCleanLoop, if_pos h₀, ← h₀]
  | cons x dead ih =>
    obtain ⟨fuel, rfl⟩ := Nat.exists_eq_succ_of_ne_zero (by omega : fuel ≠ 0)
    obtain ⟨hx, hx₀, htail⟩ := h
    rw [List.length_cons] at hfuel
    rw [taskCleanLoop, if_neg (by rw [hx]; exact hx₀), hx]
    have hrun := ih (s := { s with terminatedTasks := s.next x }) htail (show dead.length < fuel by omega)
    simp only [hrun, Option.bind_eq_bind, Option.bind_some]
    rfl

theorem TaskInv.clean (h : TaskInv c ready asleep dead) :
    ∃ s', taskClean c.sched c.fuel = some (s', dead) ∧
      TaskInv ⟨s', c.live.diff dead, c.waiting⟩ ready asleep [] := by
  have hfuel : dead.length < c.fuel := by
    have := h.places.length_le.2
    unfold TaskCfg.fuel
    omega
  let s₁ : Sched := { taskLock c.sched with terminatedTasks := 0 }
  let s₂ : Sched := { s₁ with postponeSwitchCounter := 0, scheduleLockCounter := 0 }
  have hp : s₁.postponeSwitchCounter = 1 := by
    change c.sched.postponeSwitchCounter + 1 = 1
    rw [h.postpone]
  have hl : s₁.scheduleLockCounter = 1 := by
    change c.sched.scheduleLockCounter + 1 = 1
    rw [h.lock]
  have hloop : taskCleanLoop c.fuel (taskLock c.sched) = some (s₁, dead) :=
    taskCleanLoop_spec h.places.onDead hfuel
  have hclean : taskClean c.sched c.fuel = some (s₂, dead) := by
    simp only [taskClean, hloop, taskUnlock_quiet hp h.flag hl, Option.bind_eq_bind, Option.bind_some]
    rfl
  refine ⟨s₂, hclean, ?_⟩
  refine ⟨⟨h.places.onReady, h.places.onSleep, rfl, fun a => ?_, h.places.nodup.diff, ?_⟩, h.idle,
    h.slice, rfl, rfl, h.flag⟩
  · have hc := h.places.count a
    rw [List.count_diff, List.count_nil]
    change (c.sched.currentTask :: c.waiting).count a + _ = _
    omega
  · exact fun h₀ => h.places.nonnull (List.diff_subset _ _ h₀)

/-! ## Runs -/

/-- The system after `multitask_init`. -/
def taskBoot (kernel cleaner idle : ℕ) (next : ℕ → ℕ) (state : ℕ → TaskState) (wakeUpTime : ℕ → ℕ) :
    TaskCfg :=
  ⟨multitaskInit kernel cleaner idle next state wakeUpTime, [kernel, cleaner, idle], [cleaner]⟩

/-- A step of the code. -/
def TaskMove (c : TaskCfg) (op : TaskOp) (c' : TaskCfg) : Prop := op.Legal c ∧ taskStep c op = some c'

theorem taskInv_boot {kernel cleaner idle : ℕ} (hnodup : [kernel, cleaner, idle].Nodup)
    (hnull : 0 ∉ [kernel, cleaner, idle]) (next : ℕ → ℕ) (state : ℕ → TaskState)
    (wakeUpTime : ℕ → ℕ) : TaskInv (taskBoot kernel cleaner idle next state wakeUpTime) [idle] [] [] := by
  have hki : kernel ≠ idle := by
    rintro rfl
    simp at hnodup
  have hi₀ : idle ≠ 0 := by
    rintro rfl
    simp at hnull
  have hnext : (taskBoot kernel cleaner idle next state wakeUpTime).sched.next idle = 0 :=
    Function.update_self ..
  refine ⟨⟨⟨rfl, hi₀, hnext⟩, rfl, rfl, fun a => ?_, hnodup, hnull⟩, .inr List.mem_cons_self,
    fun he => absurd he hki, rfl, rfl, rfl⟩
  change [kernel, cleaner].count a + ([idle].count a + [].count a + [].count a) =
    [kernel, cleaner, idle].count a
  simp only [List.count_cons, List.count_nil]
  omega

/-- **One step.** A sound step returns and keeps the invariant. -/
theorem TaskInv.step (h : TaskInv c ready asleep dead) {op : TaskOp} (hl : op.Legal c)
    (hs : op.Sound c) :
    ∃ c' ready' asleep' dead', taskStep c op = some c' ∧ TaskInv c' ready' asleep' dead' := by
  cases op with
  | add task =>
    obtain ⟨c', he, hinv⟩ := h.add hl
    exact ⟨c', _, _, _, he, hinv⟩
  | block reason =>
    obtain ⟨c', _, he, hinv⟩ := h.block hl
    exact ⟨c', _, _, _, he, hinv⟩
  | unblock task =>
    obtain ⟨c', _, he, hinv⟩ := h.unblock hl
    exact ⟨c', _, _, _, he, hinv⟩
  | forceSwitch task =>
    obtain ⟨c', he, hinv⟩ := h.forceSwitch hl hs
    exact ⟨c', _, _, _, he, hinv⟩
  | sleep wakeUpTime now =>
    obtain ⟨c', _, he, hinv⟩ := h.sleep hl wakeUpTime now
    exact ⟨c', _, _, _, he, hinv⟩
  | terminate =>
    obtain ⟨c', _, he, hinv⟩ := h.terminate hl hs
    exact ⟨c', _, _, _, he, hinv⟩
  | clean =>
    obtain ⟨s', he, hinv⟩ := h.clean
    exact ⟨_, _, _, _, by rw [taskStep, he]; rfl, hinv⟩
  | tick now =>
    obtain ⟨c', _, _, he, hinv, _, _⟩ := h.tick now hs
    exact ⟨c', _, _, _, he, hinv⟩

/-- **Task conservation.** In every run from `multitask_init` whose steps are sound, every task created
and not cleaned up is in exactly one place, and whatever sound step comes next returns. -/
theorem task_conservation {kernel cleaner idle : ℕ} (hnodup : [kernel, cleaner, idle].Nodup)
    (hnull : 0 ∉ [kernel, cleaner, idle]) (next : ℕ → ℕ) (state : ℕ → TaskState)
    (wakeUpTime : ℕ → ℕ) {ops : List TaskOp} {c : TaskCfg}
    (h : Run (fun c op c' => TaskMove c op c' ∧ op.Sound c)
      (taskBoot kernel cleaner idle next state wakeUpTime) ops c) :
    Conserved c ∧ ∀ op : TaskOp, op.Legal c → op.Sound c → ∃ c', taskStep c op = some c' := by
  obtain ⟨ready, asleep, dead, hinv⟩ : ∃ ready asleep dead, TaskInv c ready asleep dead := by
    refine h.invariant (I := fun c => ∃ ready asleep dead, TaskInv c ready asleep dead) ?_
      ⟨_, _, _, taskInv_boot hnodup hnull next state wakeUpTime⟩
    rintro c op c' ⟨ready, asleep, dead, hinv⟩ ⟨⟨hl, he⟩, hs⟩
    obtain ⟨c₁, ready', asleep', dead', he₁, hinv₁⟩ := hinv.step hl hs
    rw [he, Option.some.injEq] at he₁
    exact ⟨ready', asleep', dead', he₁ ▸ hinv₁⟩
  refine ⟨hinv.conserved, fun op hl hs => ?_⟩
  obtain ⟨c', _, _, _, he, _⟩ := hinv.step hl hs
  exact ⟨c', he⟩

/-- Perform the steps in order; `none` if the code cannot do one. -/
def taskExec (c : TaskCfg) (ops : List TaskOp) : Option TaskCfg :=
  ops.foldlM (fun c op => if op.Legal c then taskStep c op else none) c

theorem run_of_taskExec {c' : TaskCfg} {ops : List TaskOp} (h : taskExec c ops = some c') :
    Run TaskMove c ops c' := by
  refine run_of_foldlM (fun c op c' e => ?_) h
  by_cases hop : op.Legal c
  · rw [if_pos hop] at e; exact ⟨hop, e⟩
  · rw [if_neg hop] at e; cases e

/-- The kernel task at address 1, the cleaner at 2 and the idle task at 3. -/
def demoBoot : TaskCfg := taskBoot 1 2 3 (fun _ => 0) (fun _ => .available) fun _ => 0

/-- The kernel task starts a task and blocks, and the new task sleeps until the next tick. -/
def demoOps : List TaskOp := [.add 4, .block .blocked, .sleep 5 1, .tick 7, .unblock 1, .terminate, .clean]

theorem task_conservation_demo : ∃ c, Run (fun c op c' => TaskMove c op c' ∧ op.Sound c) demoBoot demoOps c ∧
    c.live = [1, 2, 3] ∧ Conserved c := by
  have hl : (demoOps.foldlM (fun c op => if op.Legal c ∧ op.Sound c then taskStep c op else none)
      demoBoot).map TaskCfg.live = some [1, 2, 3] := by decide +kernel
  obtain ⟨c, hc, hlive⟩ := Option.map_eq_some_iff.mp hl
  have hrun : Run (fun c op c' => TaskMove c op c' ∧ op.Sound c) demoBoot demoOps c := by
    refine run_of_foldlM (fun c op c' e => ?_) hc
    by_cases hop : op.Legal c ∧ op.Sound c
    · rw [if_pos hop] at e
      exact ⟨⟨hop.1, e⟩, hop.2⟩
    · rw [if_neg hop] at e
      cases e
  exact ⟨c, hrun, hlive, (task_conservation (by decide) (by decide) _ _ _ hrun).1⟩

/-- **Ten ticks after boot** the slice of the kernel task ends: `task_schedule` takes the idle task off
the ready list, lets the kernel task go on, and the idle task is in no place. -/
theorem idle_task_dropped : ∃ c, Run TaskMove demoBoot (List.replicate 10 (.tick 0)) c ∧ ¬ Conserved c := by
  have hl : (taskExec demoBoot (List.replicate 10 (.tick 0))).map (fun c => (c.live, c.waiting,
      c.sched.currentTask, c.sched.scheduleTasks, c.sched.sleepTasks, c.sched.terminatedTasks)) =
      some ([1, 2, 3], [2], 1, 0, 0, 0) := by decide +kernel
  obtain ⟨c, hc, hv⟩ := Option.map_eq_some_iff.mp hl
  simp only [Prod.mk.injEq] at hv
  obtain ⟨hlive, hwait, hcur, hsched, hsleep, hterm⟩ := hv
  refine ⟨c, run_of_taskExec hc, ?_⟩
  rintro ⟨ready, asleep, dead, hr, ha, hd, hcount⟩
  rw [hsched] at hr
  rw [hsleep] at ha
  rw [hterm] at hd
  have h₃ := hcount 3 (by rw [hlive]; decide)
  rw [hr.eq_nil, ha.eq_nil, hd.eq_nil, hwait, hcur] at h₃
  exact absurd h₃ (by decide)

end BulbOS.Task
