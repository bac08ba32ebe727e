import BulbOS.Block.Model
import BulbOS.Sem.Safety

/-!
# A blocked task runs again only after it was named

`task_block` returns at once if the ready list is empty, as it is once a tick has dropped the idle task.
In runs of sound steps the idle task is ready or running, so `task_block` always switches.

* `Queues`: the queues of the semaphores and the tasks at the disk are among the waiting tasks;
* `InsideInv.act`, `BlockInv.step`: one act of a section, one step;
* `BlockInv.off`: a task that is off the processor stays off until it is named;
* **`blocked_until_named`**: all runs of sound steps;
* `block_returns_at_once`: ten ticks after boot `task_block` does not block.
-/

namespace BulbOS.Block

open KLib BulbOS.Task BulbOS.Sem

variable {c c' : BlockCfg} {s : Sched} {sem : Semaphore} {ready asleep dead : List ℕ} {t i : ℕ}

/-! ## Sections and calls -/

theorem semaphoreAcquire_eq (s : Sched) (sem : Semaphore) :
    semaphoreAcquire s sem = (acquireBody (taskLock s) sem).bind fun p =>
      (taskUnlock p.1).map fun s => (s, p.2) := by
  unfold semaphoreAcquire acquireBody
  by_cases hfree : sem.currentCount < sem.maxCount
  · simp only [hfree, if_true, Option.bind_some]
    cases taskUnlock (taskLock s) <;> rfl
  · simp only [hfree, if_false]
    cases taskBlock (enqueue (taskLock s) sem).1 .waitingForLock with
    | none => rfl
    | some s₁ => cases hu : taskUnlock s₁ <;> simp [hu]

theorem semaphoreRelease_eq (s : Sched) (sem : Semaphore) :
    semaphoreRelease s sem = (releaseBody (taskLock s) sem).bind fun p =>
      (taskUnlock p.1).map fun s => (s, p.2) := by
  unfold semaphoreRelease releaseBody
  by_cases hnone : sem.waitingTasksStart = 0
  · simp only [hnone, if_true, Option.bind_some]
    cases taskUnlock (taskLock s) <;> rfl
  · simp only [hnone, if_false]
    cases taskUnblock (taskLock s) sem.waitingTasksStart with
    | none => rfl
    | some s₁ => cases hu : taskUnlock s₁ <;> simp [hu]

theorem section_acquire (c : BlockCfg) (i : ℕ) :
    (blockStep c (.section [.acquire i])).map (fun c' => (c'.sched, c'.sem i)) =
      semaphoreAcquire c.sched (c.sem i) := by
  rw [semaphoreAcquire_eq]
  cases hbody : acquireBody (taskLock c.sched) (c.sem i) with
  | none => simp [blockStep, actStep, hbody]
  | some p =>
    obtain ⟨s, sem⟩ := p
    by_cases hfree : (c.sem i).currentCount < (c.sem i).maxCount
    · cases hu : taskUnlock s <;> simp [blockStep, actStep, hbody, hu, hfree]
    · cases hu : taskUnlock s <;> simp [blockStep, actStep, hbody, hu, hfree]

theorem section_release (c : BlockCfg) (i : ℕ) :
    (blockStep c (.section [.release i])).map (fun c' => (c'.sched, c'.sem i)) =
      semaphoreRelease c.sched (c.sem i) := by
  rw [semaphoreRelease_eq]
  cases hbody : releaseBody (taskLock c.sched) (c.sem i) with
  | none => simp [blockStep, actStep, hbody]
  | some p =>
    obtain ⟨s, sem⟩ := p
    by_cases hnone : (c.sem i).waitingTasksStart = 0
    · cases hu : taskUnlock s <;> simp [blockStep, actStep, hbody, hu, hnone]
    · cases hu : taskUnlock s <;> simp [blockStep, actStep, hbody, hu, hnone]

/-- Inside another section the lock of `semaphore_release` only counts. -/
theorem semaphoreRelease_nested (hp : s.postponeSwitchCounter ≠ 0) :
    semaphoreRelease s sem = releaseBody s sem := by
  have hlock : ∀ r : Sched, r.postponeSwitchCounter = s.postponeSwitchCounter + 1 →
      r.scheduleLockCounter = s.scheduleLockCounter + 1 → taskUnlock r = some { r with
        postponeSwitchCounter := s.postponeSwitchCounter, scheduleLockCounter := s.scheduleLockCounter } := by
    intro r hr hl
    have hd : dec32 r.postponeSwitchCounter = s.postponeSwitchCounter := by
      rw [hr, dec32, if_neg (Nat.succ_ne_zero _), Nat.add_sub_cancel]
    rw [taskUnlock, hd, if_neg fun h => hp h.1]
    exact taskUnlockScheduler_eq hl
  rw [semaphoreRelease_eq, releaseBody, releaseBody]
  by_cases hnone : sem.waitingTasksStart = 0
  · rw [if_pos hnone, if_pos hnone, Option.bind_some, hlock _ rfl rfl]
    rfl
  · rw [if_neg hnone, if_neg hnone]
    simp only [taskUnblock_postponed (s := taskLock s) (Nat.succ_ne_zero _), taskUnblock_postponed hp]
    simp only [Option.bind_eq_bind, Option.bind_some, Option.pure_def]
    rw [hlock _ rfl rfl]
    rfl

/-! ## Logs -/

/-- `a` was appended since. -/
def Since {α : Type} (old new : List α) (a : α) : Prop := ∃ l, new = old ++ l ∧ a ∈ l

theorem Since.snoc {α : Type} (old : List α) (a : α) : Since old (old ++ [a]) a :=
  ⟨[a], rfl, List.mem_singleton_self a⟩

theorem not_since_self {α : Type} (l : List α) (a : α) : ¬ Since l l a := by
  rintro ⟨l', hl, ha⟩
  rw [List.self_eq_append_right.mp hl] at ha
  cases ha

theorem Since.trans {α : Type} {old mid new : List α} {a : α} (h : Since old mid a) (h' : mid <+: new) :
    Since old new a := by
  obtain ⟨l, rfl, ha⟩ := h
  obtain ⟨l', rfl⟩ := h'
  exact ⟨l ++ l', List.append_assoc .., List.mem_append_left _ ha⟩

theorem Since.grown {α : Type} {old mid new : List α} {a : α} (h : old <+: mid) (h' : Since mid new a) :
    Since old new a := by
  obtain ⟨l, rfl⟩ := h
  obtain ⟨l', rfl, ha⟩ := h'
  exact ⟨l ++ l', List.append_assoc .., List.mem_append_right _ ha⟩

/-- Who stops waiting was named, by the semaphore or the disk if it waited for one. -/
structure Kept (c c' : BlockCfg) : Prop where
  named : c.named <+: c'.named
  served : c.served <+: c'.served
  completed : c.completed <+: c'.completed
  waiting : ∀ t ∈ c.waiting, t ∈ c'.waiting ∨ Since c.named c'.named t
  queue : ∀ i, ∀ t ∈ c.queue i, t ∈ c'.queue i ∨ Since c.served c'.served (i, t)
  disk : ∀ t ∈ c.disk, t ∈ c'.disk ∨ Since c.completed c'.completed t

theorem Kept.of_eq (hn : c'.named = c.named) (hs : c'.served = c.served) (hc : c'.completed = c.completed)
    (hw : c'.waiting = c.waiting) (hq : c'.queue = c.queue) (hd : c'.disk = c.disk) : Kept c c' := by
  refine ⟨?_, ?_, ?_, fun t ht => .inl ?_, fun i t ht => .inl ?_, fun t ht => .inl ?_⟩
  · exact hn ▸ List.prefix_rfl
  · exact hs ▸ List.prefix_rfl
  · exact hc ▸ List.prefix_rfl
  · rwa [hw]
  · rwa [hq]
  · rwa [hd]

theorem Kept.trans {c₁ c₂ c₃ : BlockCfg} (h : Kept c₁ c₂) (h' : Kept c₂ c₃) : Kept c₁ c₃ := by
  refine ⟨h.named.trans h'.named, h.served.trans h'.served, h.completed.trans h'.completed, fun t ht => ?_,
    fun i t ht => ?_, fun t ht => ?_⟩
  · rcases h.waiting t ht with ht | hs
    · exact (h'.waiting t ht).imp id (.grown h.named)
    · exact .inr (hs.trans h'.named)
  · rcases h.queue i t ht with ht | hs
    · exact (h'.queue i t ht).imp id (.grown h.served)
    · exact .inr (hs.trans h'.served)
  · rcases h.disk t ht with ht | hs
    · exact (h'.disk t ht).imp id (.grown h.completed)
    · exact .inr (hs.trans h'.completed)

/-! ## Queues -/

/-- The queues are linked through `next`, and no task waits for two things. -/
structure Queues (next : ℕ → ℕ) (c : BlockCfg) : Prop where
  linked : ∀ i, Linked next 0 (c.sem i).waitingTasksStart (c.queue i)
  last : ∀ i l e, c.queue i = l ++ [e] → (c.sem i).waitingTasksEnd = e
  waiting : ∀ i, ∀ t ∈ c.queue i, t ∈ c.waiting
  disk : ∀ t ∈ c.disk, t ∈ c.waiting
  apart : ∀ i j t, t ∈ c.queue i → t ∈ c.queue j → i = j
  diskApart : ∀ i, ∀ t ∈ c.queue i, t ∉ c.disk

variable {next next' : ℕ → ℕ}

theorem Queues.congr (h : Queues next c) (hn : ∀ i, ∀ t ∈ c.queue i, next' t = next t)
    (hs : c'.sem = c.sem) (hq : c'.queue = c.queue) (hd : c'.disk = c.disk)
    (hw : ∀ t, t ∈ c.waiting → (∃ i, t ∈ c.queue i) ∨ t ∈ c.disk → t ∈ c'.waiting) : Queues next' c' := by
  refine ⟨fun i => ?_, fun i => ?_, fun i t ht => ?_, fun t ht => ?_, ?_, ?_⟩
  · rw [hs, hq]
    exact (h.linked i).congr (hn i)
  · rw [hs, hq]
    exact h.last i
  · rw [hq] at ht
    exact hw t (h.waiting i t ht) (.inl ⟨i, ht⟩)
  · rw [hd] at ht
    exact hw t (h.disk t ht) (.inr ht)
  · rw [hq]
    exact h.apart
  · rw [hq, hd]
    exact h.diskApart

theorem Queues.count (h : Queues next c) (i n : ℕ) :
    Queues next { c with sem := Function.update c.sem i { c.sem i with currentCount := n } } := by
  refine ⟨fun j => ?_, fun j l e he => ?_, h.waiting, h.disk, h.apart, h.diskApart⟩
  · by_cases hj : j = i
    · subst hj
      simp only [Function.update_self]
      exact h.linked j
    · simp only [Function.update_of_ne hj]
      exact h.linked j
  · by_cases hj : j = i
    · subst hj
      simp only [Function.update_self]
      exact h.last j l e he
    · simp only [Function.update_of_ne hj]
      exact h.last j l e he

/-- A task that waits for no semaphore and not for the disk is unblocked. -/
theorem Queues.unblock (h : Queues next c) (ht : Parked c t) (x : ℕ) {s : Sched} {l : List ℕ} :
    Queues (Function.update next t x) { c with sched := s, waiting := c.waiting.erase t, named := l } := by
  refine h.congr (fun i y hy => Function.update_of_ne ?_ _ _) rfl rfl rfl fun y hy hwhere => ?_
  · rintro rfl
    exact ht.2.1 i hy
  · refine (List.mem_erase_of_ne ?_).mpr hy
    rintro rfl
    exact hwhere.elim (fun ⟨i, hi⟩ => ht.2.1 i hi) ht.2.2

theorem Queues.irq (h : Queues next c) (ht : t ∈ c.disk) (x : ℕ) (s : Sched) (l l' : List ℕ) :
    Queues (Function.update next t x) { c with
      sched := s, waiting := c.waiting.erase t, named := l, disk := c.disk.filter (· ≠ t), completed := l' } := by
  have hne : ∀ i, ∀ y ∈ c.queue i, y ≠ t := fun i y hy e => h.diskApart i y hy (e ▸ ht)
  refine ⟨fun i => (h.linked i).update fun hy => hne i t hy rfl, h.last, fun i y hy => ?_, fun y hy => ?_,
    h.apart, fun i y hy hd => ?_⟩
  · exact (List.mem_erase_of_ne (hne i y hy)).mpr (h.waiting i y hy)
  · obtain ⟨hy, hyt⟩ := List.mem_filter.mp hy
    exact (List.mem_erase_of_ne (of_decide_eq_true hyt)).mpr (h.disk y hy)
  · exact h.diskApart i y hy (List.mem_filter.mp hd).1

/-- The first task of a queue is handed the slot and unblocked. -/
theorem Queues.release {rest : List ℕ} (h : Queues next c) (hq : c.queue i = t :: rest) (x : ℕ) (s : Sched)
    (l : List ℕ) (l' : List (ℕ × ℕ)) :
    Queues (Function.update next t x) { c with
      sched := s
      sem := Function.update c.sem i { c.sem i with waitingTasksStart := next t }
      waiting := c.waiting.erase t
      queue := Function.update c.queue i (c.queue i).tail
      named := l, served := l' } := by
  have hi := h.linked i
  rw [hq] at hi
  have hmem : t ∈ c.queue i := hq ▸ List.mem_cons_self
  have htail : ∀ j, ∀ y ∈ Function.update c.queue i (c.queue i).tail j, y ∈ c.queue j ∧ y ≠ t := by
    intro j y hy
    by_cases hj : j = i
    · subst hj
      rw [Function.update_self, hq, List.tail_cons] at hy
      refine ⟨hq ▸ List.mem_cons_of_mem _ hy, ?_⟩
      rintro rfl
      exact (List.nodup_cons.mp hi.nodup).1 hy
    · rw [Function.update_of_ne hj] at hy
      refine ⟨hy, ?_⟩
      rintro rfl
      exact hj (h.apart j i y hy hmem)
  refine ⟨fun j => ?_, fun j l e he => ?_, fun j y hy => ?_, fun y hy => ?_, fun j k y hj hk => ?_,
    fun j y hy => ?_⟩
  · by_cases hj : j = i
    · subst hj
      simp only [Function.update_self, hq, List.tail_cons]
      exact hi.2.2.update (List.nodup_cons.mp hi.nodup).1
    · simp only [Function.update_of_ne hj]
      exact (h.linked j).update fun hy => hj (h.apart j i t hy hmem)
  · by_cases hj : j = i
    · subst hj
      simp only [Function.update_self, hq, List.tail_cons] at he ⊢
      exact h.last j (t :: l) e (by rw [hq, he, List.cons_append])
    · simp only [Function.update_of_ne hj] at he ⊢
      exact h.last j l e he
  · obtain ⟨hy, hne⟩ := htail j y hy
    exact (List.mem_erase_of_ne hne).mpr (h.waiting j y hy)
  · refine (List.mem_erase_of_ne ?_).mpr (h.disk y hy)
    rintro rfl
    exact h.diskApart i y hmem hy
  · exact h.apart j k y (htail j y hj).1 (htail k y hk).1
  · exact h.diskApart j y (htail j y hy).1

theorem Queues.acquire (h : Queues s.next c) (hcur : s.currentTask ∉ c.waiting) (h₀ : s.currentTask ≠ 0)
    (i : ℕ) (s' : Sched) (g : Bool) :
    Queues (enqueue s (c.sem i)).1.next { c with
      sched := s'
      sem := Function.update c.sem i (enqueue s (c.sem i)).2
      waiting := s.currentTask :: c.waiting
      queue := Function.update c.queue i (c.queue i ++ [s.currentTask])
      gone := g } := by
  obtain ⟨hlink, hend⟩ := enqueue_spec (h.linked i) (h.last i) (fun hc => hcur (h.waiting i _ hc)) h₀
  have hmem : ∀ j, ∀ y ∈ Function.update c.queue i (c.queue i ++ [s.currentTask]) j,
      y ∈ c.queue j ∨ j = i ∧ y = s.currentTask := by
    intro j y hy
    by_cases hj : j = i
    · subst hj
      rw [Function.update_self] at hy
      exact (List.mem_append.mp hy).imp id fun hy => ⟨rfl, List.mem_singleton.mp hy⟩
    · rw [Function.update_of_ne hj] at hy
      exact .inl hy
  have hnew : ∀ j, s.currentTask ∉ c.queue j := fun j hc => hcur (h.waiting j _ hc)
  refine ⟨fun j => ?_, fun j l e he => ?_, fun j y hy => ?_, fun y hy => ?_, fun j k y hj hk => ?_,
    fun j y hy hd => ?_⟩
  · by_cases hj : j = i
    · subst hj
      simp only [Function.update_self]
      exact hlink
    · simp only [Function.update_of_ne hj]
      refine (h.linked j).congr fun y hy => enqueue_next (h.linked i) (h.last i) ?_ ?_
      · rintro rfl
        exact hnew j hy
      · exact fun hyi => hj (h.apart j i y hy hyi)
  · by_cases hj : j = i
    · subst hj
      simp only [Function.update_self] at he ⊢
      have he' : s.currentTask = e := by
        have := congrArg List.getLast? he
        simpa using this
      exact hend.trans he'
    · simp only [Function.update_of_ne hj] at he ⊢
      exact h.last j l e he
  · rcases hmem j y hy with hy | ⟨-, rfl⟩
    · exact List.mem_cons_of_mem _ (h.waiting j y hy)
    · exact List.mem_cons_self
  · exact List.mem_cons_of_mem _ (h.disk y hy)
  · rcases hmem j y hj with hyj | ⟨hji, rfl⟩
    · rcases hmem k y hk with hyk | ⟨-, rfl⟩
      · exact h.apart j k y hyj hyk
      · exact absurd hyj (hnew j)
    · rcases hmem k _ hk with hyk | ⟨hki, -⟩
      · exact absurd hyk (hnew k)
      · exact hji.trans hki.symm
  · rcases hmem j y hy with hy | ⟨-, rfl⟩
    · exact h.diskApart j y hy hd
    · exact hcur (h.disk _ hd)

/-! ## Acts -/

/-- In a section. -/
structure InsideInv (c : BlockCfg) (ready asleep dead : List ℕ) : Prop where
  inside : Inside c.sched c.gone c.live (c.waiting ++ c.lost) ready asleep dead
  queues : Queues c.sched.next c

/-- An act is done by the running task, which keeps running. -/
structure Acted (c c' : BlockCfg) : Prop where
  live : c'.live = c.live
  lost : c'.lost = c.lost
  current : c'.sched.currentTask = c.sched.currentTask
  idle : c'.sched.idleTask = c.sched.idleTask
  gone : c'.gone = true → c.gone = true ∨ c.sched.currentTask ∈ c'.waiting ∨
    Since c.named c'.named c.sched.currentTask

/-- `task_unblock` of a waiting task, and what it does to the links. -/
theorem InsideInv.unblock (h : InsideInv c ready asleep dead) (ht : t ∈ c.waiting) :
    ∃ s', taskUnblock c.sched t = some s' ∧ s'.next = Function.update c.sched.next t c.sched.scheduleTasks ∧
      s'.currentTask = c.sched.currentTask ∧ s'.idleTask = c.sched.idleTask ∧
      Inside s' c.gone c.live (c.waiting.erase t ++ c.lost) (t :: ready) asleep dead := by
  obtain ⟨s', he, hn, hcur, hid, hin⟩ := h.inside.unblock (List.mem_append_left c.lost ht)
  rw [List.erase_append_left _ ht] at hin
  exact ⟨s', he, hn, hcur, hid, hin⟩

theorem mem_erase_or {l : List ℕ} (x : ℕ) (hx : x ∈ l) : x ∈ l.erase t ∨ x = t := by
  by_cases hxt : x = t
  · exact .inr hxt
  · exact .inl ((List.mem_erase_of_ne hxt).mpr hx)

theorem mem_erase_or_since {l log : List ℕ} {x : ℕ} (hx : x ∈ l) :
    x ∈ l.erase t ∨ Since log (log ++ [t]) x :=
  (mem_erase_or x hx).imp id fun hxt => by rw [hxt]; exact .snoc ..

theorem Kept.unblock {s : Sched} : Kept c { c with
    sched := s, waiting := c.waiting.erase t, named := c.named ++ [t] } :=
  ⟨List.prefix_append .., List.prefix_rfl, List.prefix_rfl,
    fun _ hx => mem_erase_or_since hx, fun _ _ => .inl, fun _ => .inl⟩

theorem Kept.irq {s : Sched} : Kept c { c with
    sched := s, waiting := c.waiting.erase t, named := c.named ++ [t], disk := c.disk.filter (· ≠ t)
    completed := c.completed ++ [t] } := by
  refine ⟨List.prefix_append .., List.prefix_rfl, List.prefix_append ..,
    fun _ hx => mem_erase_or_since hx, fun _ _ => .inl, fun x hx => ?_⟩
  by_cases hxt : x = t
  · exact .inr (hxt ▸ .snoc ..)
  · exact .inl (List.mem_filter.mpr ⟨hx, decide_eq_true hxt⟩)

/-- A waiting task is neither the idle task nor, before it blocks, the running one. -/
theorem InsideInv.current (h : InsideInv c ready asleep dead) (hg : c.gone = false) :
    c.sched.currentTask ∉ c.waiting ∧ c.sched.currentTask ≠ 0 := by
  obtain ⟨hpl, -⟩ := h.inside.here hg
  refine ⟨fun hc => ?_, hpl.ne_zero List.mem_cons_self⟩
  have hcount := hpl.count c.sched.currentTask
  have hle := List.nodup_iff_count_le_one.mp hpl.nodup c.sched.currentTask
  have hpos := List.count_pos_iff.mpr (List.mem_append_left c.lost hc)
  rw [List.count_cons_self] at hcount
  omega

theorem InsideInv.irq (h : InsideInv c ready asleep dead) (hs : c.diskTask ∈ c.disk) :
    ∃ c' ready', c.ideHandler = some c' ∧ InsideInv c' ready' asleep dead ∧ Kept c c' ∧ Acted c c' := by
  obtain ⟨s', he, hn, hcur, hid, hin⟩ := h.unblock (h.queues.disk _ hs)
  have hq := h.queues.irq hs c.sched.scheduleTasks s' (c.named ++ [c.diskTask]) (c.completed ++ [c.diskTask])
  rw [← hn] at hq
  refine ⟨_, _, by rw [BlockCfg.ideHandler, BlockCfg.unblock, he]; rfl, ⟨hin, hq⟩, .irq, ?_⟩
  exact ⟨rfl, rfl, hcur, hid, .inl⟩

theorem InsideInv.release (h : InsideInv c ready asleep dead) (i : ℕ) :
    ∃ c' ready', actStep c (.release i) = some c' ∧ InsideInv c' ready' asleep dead ∧ Kept c c' ∧
      Acted c c' := by
  by_cases h₀ : (c.sem i).waitingTasksStart = 0
  · have hstep : actStep c (.release i) = some { c with
        sem := Function.update c.sem i { c.sem i with currentCount := dec32 (c.sem i).currentCount } } := by
      simp only [actStep, releaseBody, if_pos h₀, Option.map_some]
    exact ⟨_, ready, hstep, ⟨h.inside, h.queues.count i _⟩, .of_eq rfl rfl rfl rfl rfl rfl,
      ⟨rfl, rfl, rfl, rfl, .inl⟩⟩
  · obtain ⟨rest, hq, -⟩ := (h.queues.linked i).exists_cons h₀
    have hmem : (c.sem i).waitingTasksStart ∈ c.queue i := hq ▸ List.mem_cons_self
    obtain ⟨s', he, hn, hcur, hid, hin⟩ := h.unblock (h.queues.waiting i _ hmem)
    have hstep : actStep c (.release i) = some { c with
        sched := s'
        sem := Function.update c.sem i
          { c.sem i with waitingTasksStart := c.sched.next (c.sem i).waitingTasksStart }
        waiting := c.waiting.erase (c.sem i).waitingTasksStart
        queue := Function.update c.queue i (c.queue i).tail
        named := c.named ++ [(c.sem i).waitingTasksStart]
        served := c.served ++ [(i, (c.sem i).waitingTasksStart)] } := by
      simp only [actStep, releaseBody, if_neg h₀, he, Option.bind_eq_bind, Option.bind_some,
        Option.pure_def, Option.map_some]
    have hqs := h.queues.release hq c.sched.scheduleTasks s' (c.named ++ [(c.sem i).waitingTasksStart])
      (c.served ++ [(i, (c.sem i).waitingTasksStart)])
    rw [← hn] at hqs
    refine ⟨_, _, hstep, ⟨hin, hqs⟩, ?_, ⟨rfl, rfl, hcur, hid, .inl⟩⟩
    refine ⟨List.prefix_append .., List.prefix_append .., List.prefix_rfl,
      fun _ hx => mem_erase_or_since hx, fun j x hx => ?_, fun _ => .inl⟩
    by_cases hj : j = i
    · subst hj
      simp only [Function.update_self]
      rw [hq] at hx ⊢
      rcases List.mem_cons.mp hx with rfl | hx
      · exact .inr (.snoc ..)
      · exact .inl hx
    · simp only [Function.update_of_ne hj]
      exact .inl hx

/-- Joining a queue changes the links of tasks that are on no list. -/
theorem InsideInv.enqueue (h : InsideInv c ready asleep dead) (hg : c.gone = false) (i : ℕ) :
    Inside (enqueue c.sched (c.sem i)).1 false c.live (c.waiting ++ c.lost) ready asleep dead ∧
      (enqueue c.sched (c.sem i)).1.currentTask = c.sched.currentTask := by
  have hin := h.inside
  rw [hg] at hin
  exact inside_enqueue hin (h.queues.linked i) (h.queues.last i) fun x hx =>
    List.mem_append_left _ (h.queues.waiting i x hx)

theorem InsideInv.acquire (h : InsideInv c ready asleep dead) (hl : (Act.acquire i).Legal c) :
    ∃ c' ready', actStep c (.acquire i) = some c' ∧ InsideInv c' ready' asleep dead ∧ Kept c c' ∧
      Acted c c' := by
  obtain ⟨hg, hne⟩ := hl
  by_cases hfree : (c.sem i).currentCount < (c.sem i).maxCount
  · have hstep : actStep c (.acquire i) = some { c with
        sem := Function.update c.sem i { c.sem i with currentCount := (c.sem i).currentCount + 1 } } := by
      simp only [actStep, acquireBody, if_pos hfree, Option.map_some]
    exact ⟨_, ready, hstep, ⟨h.inside, h.queues.count i _⟩, .of_eq rfl rfl rfl rfl rfl rfl,
      ⟨rfl, rfl, rfl, rfl, .inl⟩⟩
  · obtain ⟨hin, hcur⟩ := h.enqueue hg i
    have hid : (Sem.enqueue c.sched (c.sem i)).1.idleTask = c.sched.idleTask := (enqueue_same _ _).1
    obtain ⟨s', hb, hn, hcur', hid', hin'⟩ := hin.block (by rwa [hcur, hid])
      (by decide : TaskState.waitingForLock ≠ .running)
    have hstep : actStep c (.acquire i) = some { c with
        sched := s'
        sem := Function.update c.sem i (Sem.enqueue c.sched (c.sem i)).2
        waiting := c.sched.currentTask :: c.waiting
        queue := Function.update c.queue i (c.queue i ++ [c.sched.currentTask])
        gone := true } := by
      simp only [actStep, acquireBody, if_neg hfree, hb, Option.bind_eq_bind, Option.bind_some,
        Option.pure_def, Option.map_some]
    obtain ⟨hnew, h₀⟩ := h.current hg
    have hq := h.queues.acquire hnew h₀ i s' true
    rw [← hn] at hq
    rw [hcur] at hin'
    refine ⟨_, ready, hstep, ⟨hin', hq⟩, ?_, ⟨rfl, rfl, hcur'.trans hcur, hid'.trans hid,
      fun _ => .inr (.inl List.mem_cons_self)⟩⟩
    refine ⟨List.prefix_rfl, List.prefix_rfl, List.prefix_rfl, fun _ hx => .inl (List.mem_cons_of_mem _ hx),
      fun j x hx => .inl ?_, fun _ => .inl⟩
    by_cases hj : j = i
    · subst hj
      simp only [Function.update_self]
      exact List.mem_append_left _ hx
    · simp only [Function.update_of_ne hj]
      exact hx

/-- **One act of a section** returns; the tasks that stop waiting were named. -/
theorem InsideInv.act (h : InsideInv c ready asleep dead) {a : Act} (hl : a.Legal c) (hs : a.Sound c) :
    ∃ c' ready', actStep c a = some c' ∧ InsideInv c' ready' asleep dead ∧ Kept c c' ∧ Acted c c' := by
  cases a with
  | block reason =>
    obtain ⟨hg, hne, hr⟩ := hl
    have hin := h.inside
    rw [hg] at hin
    have hr' : reason ≠ .running := by
      rintro rfl
      exact absurd hr (by decide)
    obtain ⟨s', hb, hn, hcur, hid, hin'⟩ := hin.block hne hr'
    refine ⟨{ c with sched := s', waiting := c.sched.currentTask :: c.waiting, gone := true }, ready,
      by rw [actStep, hb]; rfl, ⟨hin', ?_⟩, ?_, ⟨rfl, rfl, hcur, hid, fun _ => .inr (.inl List.mem_cons_self)⟩⟩
    · change Queues s'.next _
      rw [hn]
      exact h.queues.congr (fun _ _ _ => rfl) rfl rfl rfl fun _ hx _ => List.mem_cons_of_mem _ hx
    · exact ⟨List.prefix_rfl, List.prefix_rfl, List.prefix_rfl, fun _ hx => .inl (List.mem_cons_of_mem _ hx),
        fun _ _ => .inl, fun _ => .inl⟩
  | unblock task =>
    obtain ⟨s', he, hn, hcur, hid, hin⟩ := h.unblock hl.1
    have hq := h.queues.unblock hl c.sched.scheduleTasks (s := s') (l := c.named ++ [task])
    rw [← hn] at hq
    exact ⟨_, _, by rw [actStep, BlockCfg.unblock, he]; rfl, ⟨hin, hq⟩, .unblock, ⟨rfl, rfl, hcur, hid, .inl⟩⟩
  | link task x =>
    have hmem : task ∈ c.waiting ++ c.lost ∨ c.gone = false ∧ task = c.sched.currentTask :=
      hl.elim .inr fun hp => .inl (List.mem_append_left _ hp.1)
    refine ⟨_, ready, rfl, ⟨h.inside.relink hmem x, ?_⟩, .of_eq rfl rfl rfl rfl rfl rfl, ⟨rfl, rfl, rfl, rfl, .inl⟩⟩
    refine h.queues.congr (fun i y hy => Function.update_of_ne ?_ _ _) rfl rfl rfl fun _ hx _ => hx
    rintro rfl
    rcases hl with ⟨hg, rfl⟩ | hp
    · exact (h.current hg).1 (h.queues.waiting i _ hy)
    · exact hp.2.1 i hy
  | acquire i => exact h.acquire hl
  | release i => exact h.release i
  | irq => exact h.irq hs

theorem Acted.trans {c₁ c₂ c₃ : BlockCfg} (h : Acted c₁ c₂) (h' : Acted c₂ c₃) (hk : Kept c₁ c₂)
    (hk' : Kept c₂ c₃) : Acted c₁ c₃ := by
  refine ⟨h'.live.trans h.live, h'.lost.trans h.lost, h'.current.trans h.current, h'.idle.trans h.idle,
    fun hg => ?_⟩
  rcases h'.gone hg with hg | hw | hs
  · rcases h.gone hg with hg | hw | hs
    · exact .inl hg
    · exact .inr ((hk'.waiting _ hw).imp id (.grown hk.named))
    · exact .inr (.inr (hs.trans hk'.named))
  · exact .inr (.inl (h.current ▸ hw))
  · exact .inr (.inr (.grown hk.named (h.current ▸ hs)))

/-- **The acts of a section.** -/
theorem InsideInv.acts (h : InsideInv c ready asleep dead) {acts : List Act}
    (hl : Along (fun c a => a.Legal c) c acts) (hs : Along (fun c a => a.Sound c) c acts) :
    ∃ c' ready', acts.foldlM actStep c = some c' ∧ InsideInv c' ready' asleep dead ∧ Kept c c' ∧
      Acted c c' := by
  induction acts generalizing c ready with
  | nil => exact ⟨c, ready, rfl, h, .of_eq rfl rfl rfl rfl rfl rfl, ⟨rfl, rfl, rfl, rfl, .inl⟩⟩
  | cons a acts ih =>
    obtain ⟨c₁, ready₁, h₁, hinv₁, hk₁, ha₁⟩ := h.act hl.1 hs.1
    obtain ⟨c₂, ready₂, h₂, hinv₂, hk₂, ha₂⟩ := ih hinv₁ (hl.2 c₁ h₁) (hs.2 c₁ h₁)
    refine ⟨c₂, ready₂, ?_, hinv₂, hk₁.trans hk₂, ha₁.trans ha₂ hk₁ hk₂⟩
    rw [List.foldlM_cons, h₁]
    exact h₂

/-! ## Steps -/

/-- Between two steps. -/
structure BlockInv (c : BlockCfg) (ready asleep dead : List ℕ) : Prop where
  task : TaskInv ⟨c.sched, c.live, c.waiting ++ c.lost⟩ ready asleep dead
  queues : Queues c.sched.next c
  gone : c.gone = false

/-- The task does not run and is not ready: it waits, sleeps or is terminated, or it does not exist. -/
def Off (c : BlockCfg) (asleep dead : List ℕ) (t : ℕ) : Prop :=
  t ∈ c.waiting ∨ t ∈ c.lost ∨ t ∈ asleep ∨ t ∈ dead ∨ t ∉ c.live

/-- A task is created at this address. -/
def BlockOp.Creates (t : ℕ) : BlockOp → Prop
  | .task (.add x) | .create x => t = x
  | _ => False

/-- A task goes on only if it is named, or created anew. -/
structure Stepped (c : BlockCfg) (creates : ℕ → Prop) (c' : BlockCfg) (asleep dead asleep' dead' : List ℕ) :
    Prop where
  kept : Kept c c'
  sleeps : ∀ x ∈ asleep, x ∈ asleep' ∨ Since c.named c'.named x
  off : ∀ x, Off c asleep dead x → ¬ creates x → Off c' asleep' dead' x ∨ Since c.named c'.named x

theorem Stepped.trans {c₁ c₂ c₃ : BlockCfg} {p q : ℕ → Prop} {a₁ d₁ a₂ d₂ a₃ d₃ : List ℕ}
    (h : Stepped c₁ p c₂ a₁ d₁ a₂ d₂) (h' : Stepped c₂ q c₃ a₂ d₂ a₃ d₃) :
    Stepped c₁ (fun x => p x ∨ q x) c₃ a₁ d₁ a₃ d₃ := by
  refine ⟨h.kept.trans h'.kept, fun x hx => ?_, fun x hx hnew => ?_⟩
  · rcases h.sleeps x hx with hx | hs
    · exact (h'.sleeps x hx).imp id (.grown h.kept.named)
    · exact .inr (hs.trans h'.kept.named)
  · rcases h.off x hx fun hp => hnew (.inl hp) with hx | hs
    · exact (h'.off x hx fun hq => hnew (.inr hq)).imp id (.grown h.kept.named)
    · exact .inr (hs.trans h'.kept.named)

/-- The running task blocked in a step: it waits, sleeps or is terminated, or was named already. -/
def Blocked (c : BlockCfg) (op : BlockOp) (c' : BlockCfg) (asleep' dead' : List ℕ) : Prop :=
  c.sched.currentTask ∈ c'.waiting ∨ c.sched.currentTask ∈ asleep' ∨
    op = .task .terminate ∧ c.sched.currentTask ∈ dead' ∨ Since c.named c'.named c.sched.currentTask

/-- The step returns, and everything is as before it. -/
def Returns (c : BlockCfg) (op : BlockOp) (asleep dead : List ℕ) : Prop :=
  ∃ c' ready' asleep' dead', blockStep c op = some c' ∧ BlockInv c' ready' asleep' dead' ∧
    Stepped c op.Creates c' asleep dead asleep' dead' ∧ (op.Blocks c → Blocked c op c' asleep' dead')

theorem walk_eq {l : List ℕ} {a fuel : ℕ} (h : Linked next 0 a l) (hfuel : l.length < fuel) :
    walk next fuel a = l := by
  induction l generalizing a fuel with
  | nil =>
    obtain ⟨fuel, rfl⟩ := Nat.exists_eq_succ_of_ne_zero (by omega : fuel ≠ 0)
    have h₀ : a = 0 := h
    rw [walk, if_pos h₀]
  | cons x l ih =>
    obtain ⟨fuel, rfl⟩ := Nat.exists_eq_succ_of_ne_zero (by omega : fuel ≠ 0)
    obtain ⟨rfl, hx, h⟩ := h
    rw [List.length_cons] at hfuel
    rw [walk, if_neg hx, ih h (by omega)]

/-- An operation of `task.c`, from what it does to the scheduler. -/
theorem BlockInv.ofTask (h : BlockInv c ready asleep dead) {op : TaskOp} {k : TaskCfg}
    {ready' asleep' dead' : List ℕ} (hstep : taskStep ⟨c.sched, c.live, c.waiting⟩ op = some k)
    (hinv : TaskInv ⟨k.sched, k.live, k.waiting ++ (taskLoses c op ++ c.lost)⟩ ready' asleep' dead')
    (hwaiting : ∀ x ∈ c.waiting, x ∈ k.waiting ∨ x ∈ taskNames c op)
    (hnames : ∀ x ∈ c.waiting, (∃ i, x ∈ c.queue i) ∨ x ∈ c.disk →
      x ∉ taskNames c op ∧ ¬ op.Names ⟨c.sched, c.live, c.waiting⟩ x)
    (hreq : ∀ x ∈ taskRequests c op, x ∈ k.waiting ∧ x ∉ c.waiting)
    (hasleep : ∀ x ∈ asleep, x ∈ asleep' ∨ x ∈ taskNames c op)
    (hdead : ∀ x ∈ dead, x ∈ dead' ∨ x ∉ k.live)
    (hlive : ∀ x ∈ k.live, x ∈ c.live ∨ (BlockOp.task op).Creates x)
    (hblocks : (BlockOp.task op).Blocks c → c.sched.currentTask ∈ k.waiting ∨
      c.sched.currentTask ∈ asleep' ∨ op = .terminate ∧ c.sched.currentTask ∈ dead') :
    Returns c (.task op) asleep dead := by
  have hstill : ∀ x ∈ c.waiting, (∃ i, x ∈ c.queue i) ∨ x ∈ c.disk → x ∈ k.waiting := fun x hx hq =>
    (hwaiting x hx).resolve_right (hnames x hx hq).1
  have hnext : ∀ i, ∀ x ∈ c.queue i, k.sched.next x = c.sched.next x := by
    intro i x hx
    have hw := h.queues.waiting i x hx
    obtain ⟨hcur, hidle, -⟩ := h.task.off_waiting (List.mem_append_left c.lost hw)
    obtain ⟨hcur', -, -⟩ := hinv.off_waiting (List.mem_append_left _ (hstill x hw (.inl ⟨i, hx⟩)))
    exact (taskStep_next hstep h.task.flag hidle hcur hcur' (hnames x hw (.inl ⟨i, hx⟩)).2).1
  have hnamed : ∀ x ∈ taskNames c op, Since c.named (c.named ++ taskNames c op) x :=
    fun x hx => ⟨_, rfl, hx⟩
  let c' : BlockCfg := { c with
    sched := k.sched, live := k.live, waiting := k.waiting, lost := taskLoses c op ++ c.lost
    disk := taskRequests c op ++ c.disk, named := c.named ++ taskNames c op }
  refine ⟨c', ready', asleep', dead', by rw [blockStep, hstep]; rfl, ⟨hinv, ?_, h.gone⟩,
    ⟨?_, fun x hx => (hasleep x hx).imp id (hnamed x), fun x hx hnew => ?_⟩, fun hb => ?_⟩
  · refine ⟨fun i => (h.queues.linked i).congr (hnext i), h.queues.last, fun i x hx => ?_, fun x hx => ?_,
      h.queues.apart, fun i x hx hd => ?_⟩
    · exact hstill x (h.queues.waiting i x hx) (.inl ⟨i, hx⟩)
    · rcases List.mem_append.mp hx with hx | hx
      · exact (hreq x hx).1
      · exact hstill x (h.queues.disk x hx) (.inr hx)
    · rcases List.mem_append.mp hd with hd | hd
      · exact (hreq x hd).2 (h.queues.waiting i x hx)
      · exact h.queues.diskApart i x hx hd
  · exact ⟨List.prefix_append .., List.prefix_rfl, List.prefix_rfl,
      fun x hx => (hwaiting x hx).imp id (hnamed x), fun _ _ => .inl, fun x hx => .inl (List.mem_append_right _ hx)⟩
  · rcases hx with hx | hx | hx | hx | hx
    · exact (hwaiting x hx).imp .inl (hnamed x)
    · exact .inl (.inr (.inl (List.mem_append_right _ hx)))
    · exact (hasleep x hx).imp (fun hx => .inr (.inr (.inl hx))) (hnamed x)
    · exact .inl ((hdead x hx).elim (fun hx => .inr (.inr (.inr (.inl hx)))) fun hx => .inr (.inr (.inr (.inr hx))))
    · exact .inl (.inr (.inr (.inr (.inr fun hl => (hlive x hl).elim hx hnew))))
  · rcases hblocks hb with hw | ha | ⟨rfl, hd⟩
    · exact .inl hw
    · exact .inr (.inl ha)
    · exact .inr (.inr (.inl ⟨rfl, hd⟩))

theorem BlockInv.notWaiting (h : BlockInv c ready asleep dead) : c.sched.currentTask ∉ c.waiting :=
  fun hc => (h.task.off_waiting (List.mem_append_left c.lost hc)).1 rfl

theorem BlockInv.block (h : BlockInv c ready asleep dead) {reason : TaskState}
    (hl : (BlockOp.task (.block reason)).Legal c) : Returns c (.task (.block reason)) asleep dead := by
  obtain ⟨k, ready', he, hinv⟩ := h.task.block hl
  obtain ⟨s', hs, rfl⟩ := Option.map_eq_some_iff.mp he
  refine h.ofTask (k := ⟨s', c.live, c.sched.currentTask :: c.waiting⟩) (by rw [taskStep, hs]; rfl) hinv
    (fun x hx => .inl (List.mem_cons_of_mem _ hx)) (fun x _ _ => ⟨List.not_mem_nil, id⟩) (fun x hx => ?_)
    (fun x hx => .inl hx) (fun x hx => .inl hx) (fun x hx => .inl hx) fun _ => .inl List.mem_cons_self
  have hx' : x = c.sched.currentTask := by
    cases reason with
    | ioRequest => exact List.mem_singleton.mp hx
    | _ => cases hx
  subst hx'
  exact ⟨List.mem_cons_self, h.notWaiting⟩

theorem BlockInv.add (h : BlockInv c ready asleep dead) (hl : (BlockOp.task (.add t)).Legal c) :
    Returns c (.task (.add t)) asleep dead := by
  obtain ⟨k, he, hinv⟩ := h.task.add hl
  obtain rfl := Option.some.inj he
  refine h.ofTask rfl hinv (fun x hx => .inl hx) (fun x hx _ => ⟨List.not_mem_nil, fun hxt => ?_⟩)
    (fun x hx => absurd hx List.not_mem_nil) (fun x hx => .inl hx) (fun x hx => .inl hx)
    (fun x hx => (List.mem_cons.mp hx).symm) fun hb => hb.elim
  -- the new task is at a free address
  have hlive : t ∈ c.live := h.task.places.mem_live
    (List.mem_cons_of_mem _ (List.mem_append_left _ (hxt ▸ hx)))
  exact hl.2 hlive

theorem BlockInv.unblock (h : BlockInv c ready asleep dead) (hl : Parked c t) :
    Returns c (.task (.unblock t)) asleep dead := by
  obtain ⟨k, ready', he, hinv⟩ := h.task.unblock (List.mem_append_left c.lost hl.1)
  obtain ⟨s', hs, rfl⟩ := Option.map_eq_some_iff.mp he
  rw [List.erase_append_left _ hl.1] at hinv
  have hne : ∀ x, (∃ i, x ∈ c.queue i) ∨ x ∈ c.disk → x ≠ t := by
    rintro x hx rfl
    exact hx.elim (fun ⟨i, hi⟩ => hl.2.1 i hi) hl.2.2
  refine h.ofTask (k := ⟨s', c.live, c.waiting.erase t⟩) (by rw [taskStep, hs]; rfl) hinv (fun x hx => ?_)
    (fun x _ hx => ⟨fun hxt => hne x hx (List.mem_singleton.mp hxt), hne x hx⟩)
    (fun x hx => absurd hx List.not_mem_nil) (fun x hx => .inl hx) (fun x hx => .inl hx) (fun x hx => .inl hx)
    fun hb => hb.elim
  exact (mem_erase_or x hx).imp id List.mem_singleton.mpr

theorem BlockInv.forceSwitch (h : BlockInv c ready asleep dead) (hl : (BlockOp.task (.forceSwitch t)).Legal c)
    (hs : (BlockOp.task (.forceSwitch t)).Sound c) : Returns c (.task (.forceSwitch t)) asleep dead := by
  obtain ⟨hidle, hw⟩ := hs
  obtain ⟨k, he, hinv⟩ := h.task.forceSwitch (List.mem_append_left c.lost hw) hidle
  obtain ⟨s', hs, rfl⟩ := Option.map_eq_some_iff.mp he
  rw [List.erase_append_left _ hw] at hinv
  have hne : ∀ x, (∃ i, x ∈ c.queue i) ∨ x ∈ c.disk → x ≠ t := by
    rintro x hx rfl
    exact hx.elim (fun ⟨i, hi⟩ => hl.1 i hi) hl.2
  refine h.ofTask (k := ⟨s', c.live, c.waiting.erase t⟩) (by rw [taskStep, hs]; rfl) hinv (fun x hx => ?_)
    (fun x _ hx => ⟨fun hxt => hne x hx (List.mem_singleton.mp hxt), hne x hx⟩)
    (fun x hx => absurd hx List.not_mem_nil) (fun x hx => .inl hx) (fun x hx => .inl hx) (fun x hx => .inl hx)
    fun hb => hb.elim
  exact (mem_erase_or x hx).imp id List.mem_singleton.mpr

theorem BlockInv.sleep (h : BlockInv c ready asleep dead) {wakeUpTime now : ℕ}
    (hl : (BlockOp.task (.sleep wakeUpTime now)).Legal c) :
    Returns c (.task (.sleep wakeUpTime now)) asleep dead := by
  obtain ⟨k, ready', he, hinv⟩ := h.task.sleep hl wakeUpTime now
  obtain ⟨s', hs, rfl⟩ := Option.map_eq_some_iff.mp he
  refine h.ofTask (k := ⟨s', c.live, c.waiting⟩) (by rw [taskStep, hs]; rfl) hinv (fun x hx => .inl hx)
    (fun x _ _ => ⟨List.not_mem_nil, id⟩) (fun x hx => absurd hx List.not_mem_nil) (fun x hx => .inl ?_)
    (fun x hx => .inl hx) (fun x hx => .inl hx) fun hb => .inr (.inl ?_)
  · split_ifs
    · exact hx
    · exact List.mem_cons_of_mem _ hx
  · have hb' : ¬ wakeUpTime < now := hb
    rw [if_neg hb']
    exact List.mem_cons_self

theorem BlockInv.terminate (h : BlockInv c ready asleep dead) (hl : (BlockOp.task .terminate).Legal c)
    (hs : Parked c c.sched.taskCleaner) : Returns c (.task .terminate) asleep dead := by
  obtain ⟨k, ready', he, hinv⟩ := h.task.terminate hl (List.mem_append_left c.lost hs.1)
  obtain ⟨s', hs', rfl⟩ := Option.map_eq_some_iff.mp he
  rw [List.erase_append_left _ hs.1] at hinv
  have hne : ∀ x, (∃ i, x ∈ c.queue i) ∨ x ∈ c.disk → x ≠ c.sched.taskCleaner := by
    rintro x hx rfl
    exact hx.elim (fun ⟨i, hi⟩ => hs.2.1 i hi) hs.2.2
  refine h.ofTask (k := ⟨s', c.live, c.waiting.erase c.sched.taskCleaner⟩) (by rw [taskStep, hs']; rfl) hinv
    (fun x hx => (mem_erase_or x hx).imp id List.mem_singleton.mpr)
    (fun x _ hx => ⟨fun hxt => hne x hx (List.mem_singleton.mp hxt), hne x hx⟩)
    (fun x hx => absurd hx List.not_mem_nil) (fun x hx => .inl hx) (fun x hx => .inl (List.mem_cons_of_mem _ hx))
    (fun x hx => .inl hx) fun _ => .inr (.inr ⟨rfl, List.mem_cons_self⟩)

theorem BlockInv.clean (h : BlockInv c ready asleep dead) : Returns c (.task .clean) asleep dead := by
  obtain ⟨s', he, hinv⟩ := h.task.clean
  have he' : taskClean c.sched (TaskCfg.mk c.sched c.live c.waiting).fuel = some (s', dead) := he
  refine h.ofTask (k := ⟨s', c.live.diff dead, c.waiting⟩) (by rw [taskStep, he']; rfl) hinv (fun x hx => .inl hx)
    (fun x _ _ => ⟨List.not_mem_nil, id⟩) (fun x hx => absurd hx List.not_mem_nil) (fun x hx => .inl hx)
    (fun x hx => .inr fun hlive => ?_) (fun x hx => .inl (List.diff_subset _ _ hx)) fun hb => hb.elim
  exact (h.task.places.nodup.mem_sdiff_iff.mp hlive).2 hx

/-- The tasks that a tick names are those of the sleep list whose time has come. -/
theorem BlockInv.tick_names (h : BlockInv c ready asleep dead) (now : ℕ) :
    taskNames c (.tick now) = asleep.filter (c.sched.wakeUpTime · ≤ now) := by
  have hlen := h.task.places.length_le.1
  change (walk c.sched.next (c.live.length + 1) c.sched.sleepTasks).filter _ = _
  rw [walk_eq h.task.places.onSleep (Nat.lt_succ_of_le hlen)]

theorem BlockInv.tick (h : BlockInv c ready asleep dead) {now : ℕ}
    (hs : (BlockOp.task (.tick now)).Sound c) : Returns c (.task (.tick now)) asleep dead := by
  obtain ⟨s', ready', asleep', he, hinv, hlate⟩ : ∃ s' ready' asleep',
      taskTimeHandler c.sched (TaskCfg.mk c.sched c.live c.waiting).fuel now = some s' ∧
      TaskInv ⟨s', c.live, c.waiting ++ (taskLoses c (.tick now) ++ c.lost)⟩ ready' asleep' dead ∧
      ∀ x ∈ asleep, now < c.sched.wakeUpTime x → x ∈ asleep' := by
    by_cases hslice : c.sched.timeSliceRemaining = 1
    · have hready : ready ≠ [c.sched.idleTask] := by
        rintro rfl
        exact hs hslice ⟨h.task.places.onReady.1, h.task.places.onReady.2.2⟩
      obtain ⟨s', ready', asleep', he, hinv, hlate⟩ := h.task.tickEnd now hslice hready
      refine ⟨s', ready', asleep', he, ?_, hlate⟩
      rw [taskLoses, if_pos hslice]
      exact hinv.perm List.perm_middle.symm
    · obtain ⟨k, ready', asleep', he, hinv, hlate, -⟩ := h.task.tick now hslice
      obtain ⟨s', hs', rfl⟩ := Option.map_eq_some_iff.mp he
      refine ⟨s', ready', asleep', hs', ?_, hlate⟩
      rw [taskLoses, if_neg hslice]
      exact hinv
  have hoff : ∀ x ∈ c.waiting, x ∉ asleep := fun x hx =>
    (h.task.off_waiting (List.mem_append_left c.lost hx)).2.2
  refine h.ofTask (k := ⟨s', c.live, c.waiting⟩) (by rw [taskStep, he]; rfl) hinv (fun x hx => .inl hx)
    (fun x hx _ => ⟨fun hn => ?_, fun hn => hoff x hx (hn asleep h.task.places.onSleep)⟩)
    (fun x hx => absurd hx List.not_mem_nil) (fun x hx => ?_) (fun x hx => .inl hx) (fun x hx => .inl hx)
    fun hb => hb.elim
  · rw [h.tick_names] at hn
    exact hoff x hx (List.mem_filter.mp hn).1
  · rw [h.tick_names]
    by_cases hdue : c.sched.wakeUpTime x ≤ now
    · exact .inr (List.mem_filter.mpr ⟨hx, decide_eq_true hdue⟩)
    · exact .inl (hlate x hx (Nat.lt_of_not_le hdue))

/-- A step that changes neither the sleep list nor that of the terminated tasks. -/
theorem Kept.stepped {creates : ℕ → Prop} (hk : Kept c c') (hlost : c'.lost = c.lost)
    (hlive : ∀ x ∈ c'.live, x ∈ c.live ∨ creates x) : Stepped c creates c' asleep dead asleep dead := by
  refine ⟨hk, fun _ _ => .inl ‹_›, fun x hx hnew => ?_⟩
  rcases hx with hx | hx | hx | hx | hx
  · exact (hk.waiting x hx).imp .inl id
  · exact .inl (.inr (.inl (hlost ▸ hx)))
  · exact .inl (.inr (.inr (.inl hx)))
  · exact .inl (.inr (.inr (.inr (.inl hx))))
  · exact .inl (.inr (.inr (.inr (.inr fun hl => (hlive x hl).elim hx hnew))))

/-- **A section.** -/
theorem BlockInv.section (h : BlockInv c ready asleep dead) {acts : List Act}
    (hl : (BlockOp.section acts).Legal c) (hs : (BlockOp.section acts).Sound c) :
    Returns c (.section acts) asleep dead := by
  have hin : InsideInv { c with sched := taskLock c.sched } ready asleep dead := by
    refine ⟨?_, h.queues.congr (fun _ _ _ => rfl) rfl rfl rfl fun _ hx _ => hx⟩
    change Inside (taskLock c.sched) c.gone c.live (c.waiting ++ c.lost) ready asleep dead
    rw [h.gone]
    exact h.task.enter
  obtain ⟨c₁, ready₁, hacts, hin₁, hk, ha⟩ := hin.acts hl hs
  obtain ⟨s', ready', hu, hinv, -, hnext, -⟩ := hin₁.inside.leave
  have hoff : ∀ i, ∀ x ∈ c₁.queue i, s'.next x = c₁.sched.next x := fun i x hx =>
    hnext x (List.mem_append_left c₁.lost (hin₁.queues.waiting i x hx))
  have hk' : Kept c { c₁ with sched := s', gone := false } :=
    ⟨hk.named, hk.served, hk.completed, hk.waiting, hk.queue, hk.disk⟩
  refine ⟨{ c₁ with sched := s', gone := false }, ready', asleep, dead, ?_,
    ⟨hinv, hin₁.queues.congr hoff rfl rfl rfl fun _ hx _ => hx, rfl⟩,
    hk'.stepped ha.lost fun x hx => .inl (ha.live ▸ hx), ?_⟩
  · simp only [blockStep, hacts, hu, Option.bind_eq_bind, Option.bind_some, Option.pure_def]
  · rintro ⟨c₂, hacts₂, hgone⟩
    rw [hacts, Option.some.injEq] at hacts₂
    subst hacts₂
    rcases ha.gone hgone with hg | hw | hs
    · have hg' : c.gone = true := hg
      rw [h.gone] at hg'
      cases hg'
    · exact .inl hw
    · exact .inr (.inr (.inr hs))

theorem BlockInv.create (h : BlockInv c ready asleep dead) (hl : (BlockOp.create t).Legal c) :
    Returns c (.create t) asleep dead := by
  have hinv := h.task.create hl.1 hl.2
  let c' : BlockCfg := { c with
    sched := taskCreateNew c.sched t, live := t :: c.live, waiting := t :: c.waiting }
  refine ⟨c', ready, asleep, dead, rfl, ⟨hinv, ?_, h.gone⟩, Kept.stepped ?_ rfl ?_, fun hb => hb.elim⟩
  · refine h.queues.congr (fun i x hx => Function.update_of_ne ?_ _ _) rfl rfl rfl
      fun x hx _ => List.mem_cons_of_mem _ hx
    rintro rfl
    exact hl.2 (h.task.places.mem_live
      (List.mem_cons_of_mem _ (List.mem_append_left _ (h.queues.waiting i x hx))))
  · exact ⟨List.prefix_rfl, List.prefix_rfl, List.prefix_rfl, fun _ hx => .inl (List.mem_cons_of_mem _ hx),
      fun _ _ => .inl, fun _ => .inl⟩
  · exact fun x hx => (List.mem_cons.mp hx).symm

theorem BlockInv.irq (h : BlockInv c ready asleep dead) (hs : c.diskTask ∈ c.disk) :
    Returns c .irq asleep dead := by
  have hw := h.queues.disk _ hs
  obtain ⟨k, ready', he, hinv⟩ := h.task.unblock (List.mem_append_left c.lost hw)
  obtain ⟨s', hs', rfl⟩ := Option.map_eq_some_iff.mp he
  rw [List.erase_append_left _ hw] at hinv
  have hun : taskUnblock c.sched c.diskTask = some s' := hs'
  have hq := h.queues.irq hs 0 s' (c.named ++ [c.diskTask]) (c.completed ++ [c.diskTask])
  have hnext : ∀ i, ∀ x ∈ c.queue i, s'.next x = Function.update c.sched.next c.diskTask 0 x := by
    intro i x hx
    have hne : x ≠ c.diskTask := fun e => h.queues.diskApart i x hx (e ▸ hs)
    have hidle := (h.task.off_waiting (List.mem_append_left c.lost (h.queues.waiting i x hx))).2.1
    rw [Function.update_of_ne hne]
    exact (taskUnblock_next hun hidle hne).1
  refine ⟨_, ready', asleep, dead, by rw [blockStep, BlockCfg.ideHandler, BlockCfg.unblock, hun]; rfl,
    ⟨hinv, hq.congr hnext rfl rfl rfl fun _ hx _ => hx, h.gone⟩, Kept.irq.stepped rfl fun _ => .inl,
    fun hb => hb.elim⟩

/-- **One step.** A sound step returns. -/
theorem BlockInv.step (h : BlockInv c ready asleep dead) {op : BlockOp} (hl : op.Legal c) (hs : op.Sound c) :
    Returns c op asleep dead := by
  cases op with
  | task op =>
    cases op with
    | add t => exact h.add hl
    | block reason => exact h.block hl
    | unblock t => exact h.unblock hl
    | forceSwitch t => exact h.forceSwitch hl hs
    | sleep wakeUpTime now => exact h.sleep hl
    | terminate => exact h.terminate hl hs
    | clean => exact h.clean
    | tick now => exact h.tick hs
  | create t => exact h.create hl
  | «section» acts => exact h.section hl hs
  | request =>
    refine ⟨_, ready, asleep, dead, rfl, ⟨h.task, ?_, h.gone⟩, Kept.stepped ?_ rfl fun _ => .inl, fun hb => hb.elim⟩
    · exact h.queues.congr (fun _ _ _ => rfl) rfl rfl rfl fun _ hx _ => hx
    · exact .of_eq rfl rfl rfl rfl rfl rfl
  | irq => exact h.irq hs

/-! ## Runs -/

/-- A sound step of the code. -/
def SoundMove (c : BlockCfg) (op : BlockOp) (c' : BlockCfg) : Prop := BlockMove c op c' ∧ op.Sound c

theorem BlockInv.run {ops : List BlockOp} (h : BlockInv c ready asleep dead) (hrun : Run SoundMove c ops c') :
    ∃ ready' asleep' dead', BlockInv c' ready' asleep' dead' ∧
      Stepped c (fun x => ∃ op ∈ ops, op.Creates x) c' asleep dead asleep' dead' := by
  induction hrun generalizing ready asleep dead with
  | nil c =>
    exact ⟨ready, asleep, dead, h, (Kept.of_eq rfl rfl rfl rfl rfl rfl).stepped rfl fun _ => .inl⟩
  | cons hm _ ih =>
    obtain ⟨⟨hl, he⟩, hs⟩ := hm
    obtain ⟨c₁, ready₁, asleep₁, dead₁, he₁, h₁, hst₁, -⟩ := h.step hl hs
    rw [he, Option.some.injEq] at he₁
    subst he₁
    obtain ⟨ready₂, asleep₂, dead₂, h₂, hst₂⟩ := ih h₁
    have hst := hst₁.trans hst₂
    refine ⟨ready₂, asleep₂, dead₂, h₂, hst.kept, hst.sleeps, fun x hx hnew => hst.off x hx fun hc => hnew ?_⟩
    rcases hc with hc | ⟨op, hop, hc⟩
    · exact ⟨_, List.mem_cons_self, hc⟩
    · exact ⟨op, List.mem_cons_of_mem _ hop, hc⟩

theorem BlockInv.ne_of_off (h : BlockInv c ready asleep dead) (ht : Off c asleep dead t) :
    c.sched.currentTask ≠ t := by
  rintro rfl
  have hc := h.task.places.count c.sched.currentTask
  have hle := List.nodup_iff_count_le_one.mp h.task.places.nodup c.sched.currentTask
  change (c.sched.currentTask :: (c.waiting ++ c.lost)).count c.sched.currentTask + _ = _ at hc
  rw [List.count_cons_self, List.count_append] at hc
  rcases ht with hx | hx | hx | hx | hx
  · have := List.count_pos_iff.mpr hx
    omega
  · have := List.count_pos_iff.mpr hx
    omega
  · have := List.count_pos_iff.mpr hx
    omega
  · have := List.count_pos_iff.mpr hx
    omega
  · exact hx (h.task.places.mem_live List.mem_cons_self)

theorem blockInv_boot {kernel cleaner idle : ℕ} (hnodup : [kernel, cleaner, idle].Nodup)
    (hnull : 0 ∉ [kernel, cleaner, idle]) (next : ℕ → ℕ) (state : ℕ → TaskState)
    (wakeUpTime maxCount : ℕ → ℕ) :
    BlockInv (blockBoot kernel cleaner idle next state wakeUpTime maxCount) [idle] [] [] := by
  refine ⟨taskInv_boot hnodup hnull next state wakeUpTime, ?_, rfl⟩
  exact ⟨fun _ => rfl, fun _ l e he => by simp [blockBoot] at he, fun _ _ hx => absurd hx List.not_mem_nil,
    fun _ hx => absurd hx List.not_mem_nil, fun _ _ _ hx => absurd hx List.not_mem_nil,
    fun _ _ hx => absurd hx List.not_mem_nil⟩

/-- **Blocked until named.** In every run from `multitask_init` whose steps are sound:

* a task that calls `task_block`, alone or in a section, runs again only after `task_unblock` or
  `task_force_switch` has named it (the address of a terminated task may be used for a new one);
* a task in the queue of a semaphore runs again only after `semaphore_release` has handed it a slot;
* a task in `ide_access_disk` runs again only after the completion interrupt. -/
theorem blocked_until_named {kernel cleaner idle : ℕ} (hnodup : [kernel, cleaner, idle].Nodup)
    (hnull : 0 ∉ [kernel, cleaner, idle]) (next : ℕ → ℕ) (state : ℕ → TaskState)
    (wakeUpTime maxCount : ℕ → ℕ) {ops : List BlockOp} {c : BlockCfg}
    (h : Run SoundMove (blockBoot kernel cleaner idle next state wakeUpTime maxCount) ops c) :
    (∀ op c₁ ops' c₂, SoundMove c op c₁ → op.Blocks c → Run SoundMove c₁ ops' c₂ →
      (op = .task .terminate → ∀ o ∈ ops', ¬ o.Creates c.sched.currentTask) →
      c₂.sched.currentTask = c.sched.currentTask → Since c.named c₂.named c.sched.currentTask) ∧
    (∀ i, ∀ t ∈ c.queue i, ∀ ops' c₂, Run SoundMove c ops' c₂ → c₂.sched.currentTask = t →
      Since c.served c₂.served (i, t)) ∧
    (∀ t ∈ c.disk, ∀ ops' c₂, Run SoundMove c ops' c₂ → c₂.sched.currentTask = t →
      Since c.completed c₂.completed t) := by
  obtain ⟨ready, asleep, dead, hinv, -⟩ := (blockInv_boot hnodup hnull next state wakeUpTime maxCount).run h
  refine ⟨fun op c₁ ops' c₂ hm hb hrun hnew hcur => ?_, fun i t ht ops' c₂ hrun hcur => ?_,
    fun t ht ops' c₂ hrun hcur => ?_⟩
  · obtain ⟨⟨hl, he⟩, hs⟩ := hm
    obtain ⟨c', ready₁, asleep₁, dead₁, he₁, h₁, hst₁, hblocked⟩ := hinv.step hl hs
    rw [he, Option.some.injEq] at he₁
    subst he₁
    obtain ⟨ready₂, asleep₂, dead₂, h₂, hst₂⟩ := h₁.run hrun
    have hrest : ∀ {p : Prop}, Off c₂ asleep₂ dead₂ c.sched.currentTask → p := fun ho =>
      absurd hcur (h₂.ne_of_off ho)
    rcases hblocked hb with hw | ha | ⟨hop, hd⟩ | hs
    · rcases hst₂.kept.waiting _ hw with hw | hs
      · exact hrest (.inl hw)
      · exact .grown hst₁.kept.named hs
    · rcases hst₂.sleeps _ ha with ha | hs
      · exact hrest (.inr (.inr (.inl ha)))
      · exact .grown hst₁.kept.named hs
    · rcases hst₂.off _ (.inr (.inr (.inr (.inl hd)))) (fun ⟨o, ho, hc⟩ => hnew hop o ho hc) with ho | hs
      · exact hrest ho
      · exact .grown hst₁.kept.named hs
    · exact hs.trans hst₂.kept.named
  · obtain ⟨ready₂, asleep₂, dead₂, h₂, hst₂⟩ := hinv.run hrun
    refine (hst₂.kept.queue i t ht).resolve_left fun hq => ?_
    exact h₂.ne_of_off (.inl (h₂.queues.waiting i t hq)) hcur
  · obtain ⟨ready₂, asleep₂, dead₂, h₂, hst₂⟩ := hinv.run hrun
    refine (hst₂.kept.disk t ht).resolve_left fun hd => ?_
    exact h₂.ne_of_off (.inl (h₂.queues.disk t hd)) hcur

/-- The kernel task at address 1, the cleaner at 2 and the idle task at 3; mutexes. -/
def demoBoot : BlockCfg := blockBoot 1 2 3 (fun _ => 0) (fun _ => .available) (fun _ => 0) fun _ => 1

theorem along_single {P : BlockCfg → Act → Prop} {a : Act} (h : P c a) : Along P c [a] :=
  ⟨h, fun _ _ => trivial⟩

/-- The kernel task starts task 4 and acquires mutex 0 twice. Task 4 releases it and reads from the disk; the
kernel task goes on with the mutex, and blocks after the interrupt has come. -/
theorem blocked_until_named_demo : ∃ c c₁ c₂ c₃,
    Run SoundMove demoBoot [.task (.add 4), .section [.acquire 0]] c ∧
    SoundMove c (.section [.acquire 0]) c₁ ∧ c.sched.currentTask = 1 ∧ c₁.sched.currentTask = 4 ∧
    Run SoundMove c₁ [.section [.release 0], .request, .task (.block .ioRequest)] c₂ ∧
    c₂.sched.currentTask = 1 ∧ Since c.named c₂.named 1 ∧ Since c₁.served c₂.served (0, 1) ∧
    Run SoundMove c₂ [.irq, .task (.block .blocked)] c₃ ∧
    c₃.sched.currentTask = 4 ∧ Since c₂.completed c₃.completed 4 := by
  obtain ⟨c, c₁, c₂, c₃, hrun, hm, hrun₂, hrun₃, hcur, hcur₁, hcur₂, hcur₃, hb, hq, hd⟩ : ∃ c c₁ c₂ c₃,
      Run SoundMove demoBoot [.task (.add 4), .section [.acquire 0]] c ∧
      SoundMove c (.section [.acquire 0]) c₁ ∧
      Run SoundMove c₁ [.section [.release 0], .request, .task (.block .ioRequest)] c₂ ∧
      Run SoundMove c₂ [.irq, .task (.block .blocked)] c₃ ∧
      c.sched.currentTask = 1 ∧ c₁.sched.currentTask = 4 ∧ c₂.sched.currentTask = 1 ∧
      c₃.sched.currentTask = 4 ∧ (BlockOp.section [.acquire 0]).Blocks c ∧ 1 ∈ c₁.queue 0 ∧ 4 ∈ c₂.disk :=
    ⟨_, _, _, _,
      .cons ⟨⟨⟨by decide, by decide⟩, rfl⟩, trivial⟩
        (.cons ⟨⟨along_single ⟨rfl, by decide⟩, rfl⟩, along_single trivial⟩ (.nil _)),
      ⟨⟨along_single ⟨rfl, by decide⟩, rfl⟩, along_single trivial⟩,
      .cons ⟨⟨along_single trivial, rfl⟩, along_single trivial⟩
        (.cons ⟨⟨trivial, rfl⟩, trivial⟩ (.cons ⟨⟨⟨by decide, by decide⟩, rfl⟩, trivial⟩ (.nil _))),
      .cons ⟨⟨trivial, rfl⟩, List.mem_singleton.mpr rfl⟩
        (.cons ⟨⟨⟨by decide, by decide⟩, rfl⟩, trivial⟩ (.nil _)),
      rfl, rfl, rfl, rfl, ⟨_, rfl, rfl⟩, List.mem_singleton.mpr rfl, List.mem_singleton.mpr rfl⟩
  have hnext : ∀ {ops c}, Run SoundMove demoBoot ops c → _ := fun h =>
    blocked_until_named (by decide) (by decide) _ _ _ _ h
  refine ⟨c, c₁, c₂, c₃, hrun, hm, hcur, hcur₁, hrun₂, hcur₂, ?_, ?_, hrun₃, hcur₃, ?_⟩
  · have hs := (hnext hrun).1 _ _ _ _ hm hb hrun₂ (fun h => by cases h) (hcur₂.trans hcur.symm)
    rwa [hcur] at hs
  · exact (hnext (hrun.snoc hm)).2.1 0 1 hq _ _ hrun₂ hcur₂
  · exact (hnext ((hrun.snoc hm).append hrun₂)).2.2 4 hd _ _ hrun₃ hcur₃

/-- **Ten ticks after boot** the idle task is on no list: `task_block` finds nobody to switch to and returns,
with nobody named. -/
theorem block_returns_at_once : ∃ c c', Run BlockMove demoBoot (List.replicate 10 (.task (.tick 0))) c ∧
    BlockMove c (.task (.block .blocked)) c' ∧ (BlockOp.task (.block .blocked)).Blocks c ∧
    c'.sched.currentTask = c.sched.currentTask ∧ ¬ Since c.named c'.named c.sched.currentTask := by
  refine ⟨_, _, .cons ⟨trivial, rfl⟩ (.cons ⟨trivial, rfl⟩ (.cons ⟨trivial, rfl⟩ (.cons ⟨trivial, rfl⟩
    (.cons ⟨trivial, rfl⟩ (.cons ⟨trivial, rfl⟩ (.cons ⟨trivial, rfl⟩ (.cons ⟨trivial, rfl⟩ (.cons ⟨trivial, rfl⟩
      (.cons ⟨trivial, rfl⟩ (.nil _)))))))))), ⟨⟨by decide, by decide⟩, rfl⟩, trivial, rfl, ?_⟩
  exact not_since_self [] _

end BulbOS.Block
