import BulbOS.Lib.Run
import BulbOS.Sem.Model
import BulbOS.Task.Frame

/-!
# Semaphore safety

Any number of tasks acquire and release one semaphore. Between their calls the scheduler does what
it wants, except that a task suspended in `semaphore_acquire` is not resumed, and its link not
touched, before a `task_unblock` names it.

* `SemSys`: besides the code's data, who holds a slot, who was handed one and has not resumed, who
  waits, and the order in which tasks queued and were served;
* `other_legal`: what `task.c` does between the calls;
* `SemInv.acquire`, `SemInv.release`, `SemInv.other`: one step;
* **`semaphore_safety`**: all runs.
-/

namespace BulbOS.Sem

open KLib BulbOS.Task

structure SemSys where
  sched : Sched
  sem : Semaphore
  /-- Tasks that returned from `semaphore_acquire`, once for each slot. -/
  holders : List ℕ
  /-- Tasks that were handed a slot and have not resumed. -/
  handed : List ℕ
  /-- Tasks suspended in `semaphore_acquire`. -/
  waiting : List ℕ
  /-- The tasks that queued so far, in order. -/
  queued : List ℕ
  /-- The tasks that were handed a slot so far, in order. -/
  served : List ℕ

/-- A call of the running task, or a step of the scheduler. -/
inductive SemOp
  | acquire
  | release
  | other (s : Sched)

/-- A task that was handed a slot returns from `semaphore_acquire` when it is resumed. -/
def SemSys.resume (c : SemSys) : SemSys :=
  if c.sched.currentTask ∈ c.handed then
    { c with
      holders := c.sched.currentTask :: c.holders
      handed := c.handed.erase c.sched.currentTask }
  else c

def semStep (c : SemSys) : SemOp → Option SemSys
  | .acquire => do
    let (s, sem) ← semaphoreAcquire c.sched c.sem
    let c' := { c with sched := s, sem := sem }
    if c.sem.currentCount < c.sem.maxCount then
      return { c' with holders := c.sched.currentTask :: c.holders }.resume
    else
      return { c' with
        waiting := c.waiting ++ [c.sched.currentTask]
        queued := c.queued ++ [c.sched.currentTask] }.resume
  | .release => do
    let (s, sem) ← semaphoreRelease c.sched c.sem
    let c' := { c with sched := s, sem := sem, holders := c.holders.erase c.sched.currentTask }
    if c.sem.waitingTasksStart = 0 then return c'.resume
    else
      return { c' with
        handed := c.sem.waitingTasksStart :: c.handed
        waiting := c.waiting.erase c.sem.waitingTasksStart
        served := c.served ++ [c.sem.waitingTasksStart] }.resume
  | .other s => some { c with sched := s }.resume

/-- The idle task makes no calls, a release is made by a holder, and the scheduler leaves the links
of suspended tasks alone. -/
def SemOp.Legal (c : SemSys) : SemOp → Prop
  | .acquire => c.sched.currentTask ≠ 0 ∧ c.sched.currentTask ≠ c.sched.idleTask
  | .release => c.sched.currentTask ∈ c.holders
  | .other s => s.idleTask = c.sched.idleTask ∧ ∀ t ∈ c.waiting, s.next t = c.sched.next t

/-- A step after which no suspended task runs. -/
def SemMove (c : SemSys) (op : SemOp) (c' : SemSys) : Prop :=
  op.Legal c ∧ semStep c op = some c' ∧ c'.sched.currentTask ∉ c'.waiting

/-- An operation of `task.c` that names no suspended task is such a step of the scheduler. -/
theorem other_legal {c : SemSys} {k k' : TaskCfg} {op : TaskOp} (h : taskStep k op = some k')
    (hk : k.sched = c.sched) (hf : c.sched.postponeSwitchFlag = false) (hw : c.waiting ≠ [])
    (hi : c.sched.idleTask ∉ c.waiting) (hc : c.sched.currentTask ∉ c.waiting)
    (hc' : k'.sched.currentTask ∉ c.waiting) (hn : ∀ t ∈ c.waiting, ¬ op.Names k t) :
    (SemOp.other k'.sched).Legal c := by
  rw [← hk] at hf hi hc
  have hx : ∀ t ∈ c.waiting, k'.sched.next t = k.sched.next t ∧ k'.sched.idleTask = k.sched.idleTask :=
    fun t ht => taskStep_next h hf (fun e => hi (e ▸ ht)) (fun e => hc (e ▸ ht)) (fun e => hc' (e ▸ ht))
      (hn t ht)
  obtain ⟨t, ht⟩ := List.exists_mem_of_ne_nil _ hw
  refine ⟨(hx t ht).2.trans (by rw [hk]), fun t ht => (hx t ht).1.trans (by rw [hk])⟩

/-- A new semaphore. -/
def semBoot (s : Sched) (maxCount : ℕ) : SemSys := ⟨s, semaphoreCreate maxCount, [], [], [], [], []⟩

structure SemInv (m : ℕ) (c : SemSys) : Prop where
  max : c.sem.maxCount = m
  count : c.sem.currentCount = c.holders.length + c.handed.length
  le : c.sem.currentCount ≤ m
  full : c.waiting ≠ [] → c.sem.currentCount = m
  queue : Linked c.sched.next 0 c.sem.waitingTasksStart c.waiting
  last : ∀ l e, c.waiting = l ++ [e] → c.sem.waitingTasksEnd = e
  idle : c.sched.idleTask ∉ c.waiting
  fifo : c.served ++ c.waiting = c.queued
  awake : c.sched.currentTask ∉ c.waiting

variable {m : ℕ} {c c' : SemSys}

theorem resume_sched (c : SemSys) : c.resume.sched = c.sched := by
  unfold SemSys.resume; split_ifs <;> rfl

theorem resume_waiting (c : SemSys) : c.resume.waiting = c.waiting := by
  unfold SemSys.resume; split_ifs <;> rfl

/-- Resuming a task moves a slot from the handed ones to the held ones. -/
theorem SemInv.resume (h : SemInv m c) : SemInv m c.resume := by
  unfold SemSys.resume
  split_ifs with hc
  · refine ⟨h.max, ?_, h.le, h.full, h.queue, h.last, h.idle, h.fifo, h.awake⟩
    have hlen := List.length_erase_add_one hc
    rw [h.count]
    change _ = (c.sched.currentTask :: c.holders).length + (c.handed.erase c.sched.currentTask).length
    rw [List.length_cons]
    omega
  · exact h

theorem linked_of_frame {s s' : Sched} {start : ℕ} {l : List ℕ} (h : Linked s.next 0 start l)
    (hi : s.idleTask ∉ l) (hc : s'.currentTask ∉ l)
    (hn : ∀ x, x ≠ s.idleTask → x ≠ s'.currentTask → s'.next x = s.next x) :
    Linked s'.next 0 start l :=
  h.congr fun x hx => hn x (fun e => hi (e ▸ hx)) (fun e => hc (e ▸ hx))

theorem enqueue_spec {s : Sched} {sem : Semaphore} {w : List ℕ}
    (hq : Linked s.next 0 sem.waitingTasksStart w) (hlast : ∀ l e, w = l ++ [e] → sem.waitingTasksEnd = e)
    (hcur : s.currentTask ∉ w) (h₀ : s.currentTask ≠ 0) :
    Linked (enqueue s sem).1.next 0 (enqueue s sem).2.waitingTasksStart (w ++ [s.currentTask]) ∧
      (enqueue s sem).2.waitingTasksEnd = s.currentTask := by
  rw [enqueue]
  rcases List.eq_nil_or_concat' w with rfl | ⟨l, e, rfl⟩
  · have hs : sem.waitingTasksStart = 0 := hq
    rw [if_pos hs]
    exact ⟨⟨rfl, h₀, Function.update_self ..⟩, rfl⟩
  · have hs : sem.waitingTasksStart ≠ 0 := by
      intro hs
      rw [hs] at hq
      exact absurd hq.eq_nil (by simp)
    rw [if_neg hs, hlast l e rfl]
    exact ⟨hq.snoc hcur h₀, rfl⟩

theorem enqueue_next {s : Sched} {sem : Semaphore} {x : ℕ} {w : List ℕ}
    (hq : Linked s.next 0 sem.waitingTasksStart w)
    (hlast : ∀ l e, w = l ++ [e] → sem.waitingTasksEnd = e) (hx : x ≠ s.currentTask) (hw : x ∉ w) :
    (enqueue s sem).1.next x = s.next x := by
  rw [enqueue]
  rcases List.eq_nil_or_concat' w with rfl | ⟨l, e, rfl⟩
  · have hs : sem.waitingTasksStart = 0 := hq
    rw [if_pos hs]
    exact Function.update_of_ne hx _ _
  · have hs : sem.waitingTasksStart ≠ 0 := by
      intro hs
      rw [hs] at hq
      exact absurd hq.eq_nil (by simp)
    have hxe : x ≠ e := fun he => hw (he ▸ List.mem_append_right _ List.mem_cons_self)
    rw [if_neg hs, hlast l e rfl]
    exact (Function.update_of_ne hxe _ _).trans (Function.update_of_ne hx _ _)

/-- Joining a queue changes the links of tasks that are on no list of `task.c`. -/
theorem inside_enqueue {s : Sched} {sem : Semaphore} {live loose ready asleep dead w : List ℕ}
    (h : Inside s false live loose ready asleep dead) (hq : Linked s.next 0 sem.waitingTasksStart w)
    (hlast : ∀ l e, w = l ++ [e] → sem.waitingTasksEnd = e) (hw : ∀ x ∈ w, x ∈ loose) :
    Inside (enqueue s sem).1 false live loose ready asleep dead ∧
      (enqueue s sem).1.currentTask = s.currentTask := by
  have h₁ := h.relink (.inr ⟨rfl, rfl⟩) 0
  rw [enqueue]
  by_cases h₀ : sem.waitingTasksStart = 0
  · rw [if_pos h₀]
    exact ⟨h₁, rfl⟩
  · rw [if_neg h₀]
    obtain ⟨rest, hcons, -⟩ := hq.exists_cons h₀
    have hne : w ≠ [] := by
      rw [hcons]
      exact List.cons_ne_nil _ _
    have hend := hlast _ _ (List.dropLast_append_getLast hne).symm
    have hmem : sem.waitingTasksEnd ∈ loose := by
      rw [hend]
      exact hw _ (List.getLast_mem hne)
    exact ⟨h₁.relink (.inl hmem) _, rfl⟩

theorem enqueue_same (s : Sched) (sem : Semaphore) :
    (enqueue s sem).1.idleTask = s.idleTask ∧
      (enqueue s sem).1.postponeSwitchCounter = s.postponeSwitchCounter ∧
      (enqueue s sem).2.maxCount = sem.maxCount ∧ (enqueue s sem).2.currentCount = sem.currentCount := by
  rw [enqueue]
  split_ifs <;> exact ⟨rfl, rfl, rfl, rfl⟩

theorem SemInv.acquire_fast (h : SemInv m c) (hlt : c.sem.currentCount < c.sem.maxCount)
    (hs : semStep c .acquire = some c') : SemInv m c' := by
  have hw : c.waiting = [] := by
    by_contra hne
    have := h.full hne
    have := h.max
    omega
  have hstart : c.sem.waitingTasksStart = 0 := by
    have hq := h.queue
    rwa [hw] at hq
  simp only [semStep, semaphoreAcquire, if_pos hlt, Option.bind_eq_bind, Option.bind_eq_some_iff,
    Option.pure_def, Option.some.injEq] at hs
  obtain ⟨_, ⟨s, _, rfl⟩, rfl⟩ := hs
  refine SemInv.resume ⟨h.max, ?_, ?_, fun hne => absurd hw hne, ?_, fun l e he => ?_, ?_, h.fifo, ?_⟩
  · change c.sem.currentCount + 1 = (c.sched.currentTask :: c.holders).length + c.handed.length
    rw [h.count, List.length_cons]
    omega
  · change c.sem.currentCount + 1 ≤ m
    have := h.max
    omega
  · change Linked s.next 0 c.sem.waitingTasksStart c.waiting
    rw [hw, hstart]
    rfl
  · exact h.last l e he
  · change s.idleTask ∉ c.waiting
    rw [hw]
    exact List.not_mem_nil
  · change s.currentTask ∉ c.waiting
    rw [hw]
    exact List.not_mem_nil

theorem SemInv.acquire_slow (h : SemInv m c) (hlt : ¬ c.sem.currentCount < c.sem.maxCount)
    (hl : SemOp.acquire.Legal c) (hs : semStep c .acquire = some c')
    (hawake : c'.sched.currentTask ∉ c'.waiting) : SemInv m c' := by
  obtain ⟨hidle, hpost, hmax, hcount⟩ := enqueue_same (taskLock c.sched) c.sem
  have hp : (enqueue (taskLock c.sched) c.sem).1.postponeSwitchCounter ≠ 0 := by
    rw [hpost]
    exact Nat.succ_ne_zero _
  simp only [semStep, semaphoreAcquire, if_neg hlt, taskBlock_postponed hp, Option.bind_eq_bind,
    Option.bind_some, Option.bind_eq_some_iff, Option.pure_def, Option.some.injEq] at hs
  obtain ⟨_, ⟨s, hu, rfl⟩, rfl⟩ := hs
  rw [resume_sched, resume_waiting] at hawake
  obtain ⟨hq, hend⟩ := enqueue_spec (s := taskLock c.sched) h.queue h.last h.awake hl.1
  obtain ⟨hi, hn⟩ := taskUnlock_next hu
  have hnidle : c.sched.idleTask ∉ c.waiting ++ [c.sched.currentTask] := by
    rw [List.mem_append, List.mem_singleton, not_or]
    exact ⟨h.idle, hl.2.symm⟩
  have hi' : s.idleTask = c.sched.idleTask := hi.trans hidle
  refine SemInv.resume ⟨hmax.trans h.max, hcount.trans h.count, ?_, fun _ => ?_, ?_, fun l e he => ?_,
    ?_, ?_, hawake⟩
  · exact le_of_eq_of_le hcount h.le
  · refine hcount.trans ?_
    have := h.max
    have := h.le
    omega
  · refine linked_of_frame (s := (enqueue (taskLock c.sched) c.sem).1) hq ?_ hawake hn
    rw [hidle]
    exact hnidle
  · have he' : c.sched.currentTask = e := by
      have := congrArg List.getLast? he
      simpa using this
    exact hend.trans he'
  · change s.idleTask ∉ c.waiting ++ [c.sched.currentTask]
    rwa [hi']
  · change c.served ++ (c.waiting ++ [c.sched.currentTask]) = c.queued ++ [c.sched.currentTask]
    rw [← List.append_assoc, h.fifo]

theorem SemInv.release_fast (h : SemInv m c) (h₀ : c.sem.waitingTasksStart = 0)
    (hl : SemOp.release.Legal c) (hs : semStep c .release = some c') : SemInv m c' := by
  have hw : c.waiting = [] := by
    have hq := h.queue
    rw [h₀] at hq
    exact hq.eq_nil
  simp only [semStep, semaphoreRelease, if_pos h₀, Option.bind_eq_bind, Option.bind_eq_some_iff,
    Option.pure_def, Option.some.injEq] at hs
  obtain ⟨_, ⟨s, _, rfl⟩, rfl⟩ := hs
  have hlen := List.length_erase_add_one hl
  have hdec : dec32 c.sem.currentCount = c.sem.currentCount - 1 := by
    rw [dec32, if_neg (by rw [h.count]; omega)]
  have hle := h.le
  refine SemInv.resume ⟨h.max, ?_, ?_, fun hne => absurd hw hne, ?_, fun l e he => ?_, ?_, h.fifo, ?_⟩
  · change dec32 c.sem.currentCount = (c.holders.erase c.sched.currentTask).length + c.handed.length
    rw [hdec, h.count]
    omega
  · change dec32 c.sem.currentCount ≤ m
    omega
  · change Linked s.next 0 c.sem.waitingTasksStart c.waiting
    rw [hw, h₀]
    rfl
  · exact h.last l e he
  · change s.idleTask ∉ c.waiting
    rw [hw]
    exact List.not_mem_nil
  · change s.currentTask ∉ c.waiting
    rw [hw]
    exact List.not_mem_nil

/-- `semaphore_release` hands the slot to the first waiting task. -/
theorem SemInv.release_handover (h : SemInv m c) (h₀ : c.sem.waitingTasksStart ≠ 0)
    (hl : SemOp.release.Legal c) (hs : semStep c .release = some c')
    (hawake : c'.sched.currentTask ∉ c'.waiting) : SemInv m c' := by
  obtain ⟨rest, hw, hrest⟩ := h.queue.exists_cons h₀
  have hp : (taskLock c.sched).postponeSwitchCounter ≠ 0 := Nat.succ_ne_zero _
  simp only [semStep, semaphoreRelease, if_neg h₀, taskUnblock_postponed hp, Option.bind_eq_bind,
    Option.bind_some, Option.bind_eq_some_iff, Option.pure_def, Option.some.injEq] at hs
  obtain ⟨_, ⟨s, hu, rfl⟩, rfl⟩ := hs
  rw [resume_sched, resume_waiting] at hawake
  have herase : c.waiting.erase c.sem.waitingTasksStart = rest := by
    rw [hw, List.erase_cons_head]
  have hawake' : s.currentTask ∉ rest := herase ▸ hawake
  have hhead : c.sem.waitingTasksStart ∉ rest := by
    have := h.queue.nodup
    rw [hw] at this
    exact (List.nodup_cons.mp this).1
  have hidle : c.sched.idleTask ∉ rest := fun hm => h.idle (hw ▸ List.mem_cons_of_mem _ hm)
  obtain ⟨hi, hn⟩ := taskUnlock_next hu
  have hlen := List.length_erase_add_one hl
  refine SemInv.resume ⟨h.max, ?_, h.le, fun _ => h.full (by simp [hw]), ?_, fun l e he => ?_, ?_, ?_,
    hawake⟩
  · change c.sem.currentCount = (c.holders.erase c.sched.currentTask).length +
      (c.sem.waitingTasksStart :: c.handed).length
    rw [h.count, List.length_cons]
    omega
  · change Linked s.next 0 (c.sched.next c.sem.waitingTasksStart) (c.waiting.erase _)
    rw [herase]
    refine hrest.congr fun x hx => ?_
    rw [hn x (fun e => hidle (e ▸ hx)) (fun e => hawake' (e ▸ hx))]
    exact Function.update_of_ne (fun e : x = c.sem.waitingTasksStart => hhead (e ▸ hx)) _ _
  · refine h.last (c.sem.waitingTasksStart :: l) e ?_
    rw [hw, List.cons_append, ← he]
    exact congrArg _ herase.symm
  · change s.idleTask ∉ c.waiting.erase _
    rw [herase, hi]
    exact hidle
  · change c.served ++ [c.sem.waitingTasksStart] ++ c.waiting.erase _ = c.queued
    rw [herase, List.append_assoc, List.singleton_append, ← hw, h.fifo]

theorem SemInv.other (h : SemInv m c) {s : Sched} (hl : (SemOp.other s).Legal c)
    (hs : semStep c (.other s) = some c') (hawake : c'.sched.currentTask ∉ c'.waiting) :
    SemInv m c' := by
  simp only [semStep, Option.some.injEq] at hs
  subst hs
  rw [resume_sched, resume_waiting] at hawake
  refine SemInv.resume ⟨h.max, h.count, h.le, h.full, h.queue.congr hl.2, h.last, ?_, h.fifo, hawake⟩
  change s.idleTask ∉ c.waiting
  rw [hl.1]
  exact h.idle

theorem SemInv.step (h : SemInv m c) {op : SemOp} (hs : SemMove c op c') : SemInv m c' := by
  obtain ⟨hl, hs, hawake⟩ := hs
  cases op with
  | acquire =>
    by_cases hlt : c.sem.currentCount < c.sem.maxCount
    · exact h.acquire_fast hlt hs
    · exact h.acquire_slow hlt hl hs hawake
  | release =>
    by_cases h₀ : c.sem.waitingTasksStart = 0
    · exact h.release_fast h₀ hl hs
    · exact h.release_handover h₀ hl hs hawake
  | other s => exact h.other hl hs hawake

theorem semInv_boot (s : Sched) (m : ℕ) : SemInv m (semBoot s m) where
  max := rfl
  count := rfl
  le := Nat.zero_le _
  full hne := absurd rfl hne
  queue := rfl
  last l e he := by simp [semBoot] at he
  idle := List.not_mem_nil
  fifo := rfl
  awake := List.not_mem_nil

/-- **Semaphore safety.** In every run at most `m` slots are held, the counter counts the slots held
and handed over, tasks wait only when all slots are taken, the queue in memory holds each waiting
task once and no other, and slots are handed over in the order in which tasks queued. -/
theorem semaphore_safety (s : Sched) {m : ℕ} (_hm : 1 ≤ m) {ops : List SemOp} {c : SemSys}
    (h : Run SemMove (semBoot s m) ops c) :
    c.holders.length ≤ m ∧ c.sem.currentCount = c.holders.length + c.handed.length ∧
      (c.sem.waitingTasksStart ≠ 0 → c.sem.currentCount = m) ∧
      Linked c.sched.next 0 c.sem.waitingTasksStart c.waiting ∧ c.waiting.Nodup ∧
      c.served ++ c.waiting = c.queued := by
  have hinv : SemInv m c := h.invariant (fun _ _ _ hi hs => hi.step hs) (semInv_boot s m)
  have hle := hinv.le
  have hcount := hinv.count
  refine ⟨by omega, hcount, fun h₀ => hinv.full ?_, hinv.queue, hinv.queue.nodup, hinv.fifo⟩
  obtain ⟨rest, hw, _⟩ := hinv.queue.exists_cons h₀
  simp [hw]

instance (c : SemSys) (op : SemOp) : Decidable (op.Legal c) := by
  cases op <;> unfold SemOp.Legal <;> infer_instance

/-- Perform the steps in order; `none` if one is not a step of the system. -/
def semExec (c : SemSys) (ops : List SemOp) : Option SemSys :=
  ops.foldlM (fun c op => if op.Legal c then
    (semStep c op).filter fun c' => c'.sched.currentTask ∉ c'.waiting else none) c

theorem run_of_semExec {ops : List SemOp} (h : semExec c ops = some c') : Run SemMove c ops c' := by
  refine run_of_foldlM (fun c op c' e => ?_) h
  by_cases hop : op.Legal c
  · rw [if_pos hop, Option.filter_eq_some_iff] at e
    exact ⟨hop, e.1, by simpa using e.2⟩
  · rw [if_neg hop] at e
    cases e

/-- Task `t` runs, the idle task 3 is ready. -/
def demoSched (t : ℕ) : Sched :=
  ⟨fun _ => 0, fun _ => .running, fun _ => 0, t, 3, 0, 0, 4, 3, 0, 0, false, 10⟩

/-- Task 1 takes the only slot, task 2 queues, task 1 runs again and hands its slot over. -/
def demoOps : List SemOp :=
  [.acquire, .other (demoSched 2), .acquire, .other (demoSched 1), .release]

theorem semaphore_safety_demo : ∃ c, Run SemMove (semBoot (demoSched 1) 1) demoOps c ∧
    c.served = [2] ∧ c.holders.length ≤ 1 ∧ c.served ++ c.waiting = c.queued := by
  have hl : (semExec (semBoot (demoSched 1) 1) demoOps).map SemSys.served = some [2] := by
    decide +kernel
  obtain ⟨c, hc, hserved⟩ := Option.map_eq_some_iff.mp hl
  have hrun := run_of_semExec hc
  obtain ⟨hle, _, _, _, _, hfifo⟩ := semaphore_safety (demoSched 1) (Nat.le_refl 1) hrun
  exact ⟨c, hrun, hserved, hle, hfifo⟩

end BulbOS.Sem
