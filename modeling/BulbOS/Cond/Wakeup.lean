import BulbOS.Block.Named
import BulbOS.Cond.Model

/-!
# Condition variables lose no wake-up

Any number of tasks call `condvar_wait`, `condvar_signal`, `mutex_acquire` and `mutex_release`, and the rest of
`task.c` does what it wants as long as it loses no task. The queues, the lists of the conditions and the ready
list share one link per task; `Lists` keeps them apart.

* `condvarQueue_spec`, `signalLoop_spec`: the two loops;
* `CondInv.wait`, …, `CondInv.signal`: one step;
* **`condvar_no_lost_wakeup`**: all runs.
-/

namespace BulbOS.Cond

open KLib BulbOS.Task BulbOS.Sem BulbOS.Switch

variable {c c' : CondCfg} {s s' : Sched} {condvars : List Condvar} {live loose ready asleep dead w : List ℕ}
  {i k m t fuel : ℕ}

/-! ## Lists of conditions -/

theorem condvarFind_set (h : condvarFind k condvars ≠ none) (t : ℕ) :
    condvarFind k (condvarSet k t condvars) = some t := by
  induction condvars with
  | nil => exact absurd rfl h
  | cons x condvars ih =>
    rw [condvarFind] at h
    rw [condvarSet]
    by_cases hx : x.condition = k
    · rw [if_pos hx, condvarFind, if_pos hx]
    · rw [if_neg hx] at h
      rw [if_neg hx, condvarFind, if_neg hx, ih h]

theorem condvarFind_set_other {k' : ℕ} (hk : k' ≠ k) (t : ℕ) :
    condvarFind k' (condvarSet k t condvars) = condvarFind k' condvars := by
  induction condvars with
  | nil => rfl
  | cons x condvars ih =>
    rw [condvarSet]
    by_cases hx : x.condition = k
    · have hx' : x.condition ≠ k' := fun e => hk (e.symm.trans hx)
      rw [if_pos hx, condvarFind, condvarFind, if_neg hx', if_neg hx']
    · rw [if_neg hx, condvarFind, condvarFind, ih]

/-- `condvar_add_list` walks to the last task and links `current_task` after it. -/
theorem condvarAddList_spec {l : List ℕ} {a e : ℕ} (h : Linked s.next 0 a (l ++ [e]))
    (hcur : s.currentTask ∉ l ++ [e]) (hfuel : l.length < fuel) :
    condvarAddList fuel s a = some { s with next := Function.update s.next e s.currentTask } := by
  induction l generalizing a fuel with
  | nil =>
    obtain ⟨fuel, rfl⟩ := Nat.exists_eq_succ_of_ne_zero (by omega : fuel ≠ 0)
    obtain ⟨rfl, -, hend⟩ := h
    have hend' : s.next a = 0 := hend
    have hne : a ≠ s.currentTask := fun he => hcur (he ▸ List.mem_singleton_self a)
    rw [condvarAddList, if_neg (not_not.mpr hend'), if_pos hne]
  | cons x l ih =>
    obtain ⟨fuel, rfl⟩ := Nat.exists_eq_succ_of_ne_zero (by omega : fuel ≠ 0)
    obtain ⟨rfl, -, htail⟩ := h
    have hne : s.next a ≠ 0 := by
      intro h₀
      have htail' : Linked s.next 0 (s.next a) (l ++ [e]) := htail
      rw [h₀] at htail'
      exact absurd htail'.eq_nil (by simp)
    have hcur' : a ≠ s.currentTask := fun he => hcur (he ▸ List.mem_cons_self)
    rw [List.length_cons] at hfuel
    rw [condvarAddList, if_pos hne, if_neg hcur']
    exact ih htail (fun hc => hcur (List.mem_cons_of_mem _ hc)) (by omega)

/-- **The first half of `condvar_wait`** puts the running task at the end of the list of the condition. -/
theorem condvarQueue_spec (hin : Inside s false live loose ready asleep dead)
    (hw : Linked s.next 0 ((condvarFind k condvars).getD 0) w) (hsub : ∀ x ∈ w, x ∈ loose)
    (hcur : s.currentTask ∉ w) (h₀ : s.currentTask ≠ 0) (hfuel : w.length < fuel) :
    ∃ n' condvars', condvarQueue fuel s condvars k = some ({ s with next := n' }, condvars') ∧
      Inside { s with next := n' } false live loose ready asleep dead ∧
      Linked n' 0 ((condvarFind k condvars').getD 0) (w ++ [s.currentTask]) ∧
      (∀ k', k' ≠ k → condvarFind k' condvars' = condvarFind k' condvars) ∧
      ∀ x, x ≠ s.currentTask → x ∉ w → n' x = s.next x := by
  have hin₁ := hin.relink (.inr ⟨rfl, rfl⟩) 0
  rw [condvarQueue]
  dsimp only
  rcases List.eq_nil_or_concat' w with rfl | ⟨l, e, rfl⟩
  · have hhead : (condvarFind k condvars).getD 0 = 0 := hw
    have hnew : Linked (Function.update s.next s.currentTask 0) 0 s.currentTask ([] ++ [s.currentTask]) :=
      ⟨rfl, h₀, Function.update_self ..⟩
    cases hfind : condvarFind k condvars with
    | none =>
      refine ⟨_, _, rfl, hin₁, ?_, fun k' hk' => ?_, fun x hx _ => Function.update_of_ne hx _ _⟩
      · rw [condvarFind, if_pos rfl]
        exact hnew
      · rw [condvarFind, if_neg hk'.symm]
    | some tasks =>
      have htasks : tasks = 0 := by rwa [hfind] at hhead
      refine ⟨_, _, if_neg (not_not.mpr htasks), hin₁, ?_, fun k' hk' => condvarFind_set_other hk' _,
        fun x hx _ => Function.update_of_ne hx _ _⟩
      rw [condvarFind_set (by rw [hfind]; exact Option.some_ne_none _)]
      exact hnew
  · cases hfind : condvarFind k condvars with
    | none =>
      rw [hfind] at hw
      exact absurd hw.eq_nil (by simp)
    | some tasks =>
      rw [hfind] at hw
      have hw' : Linked s.next 0 tasks (l ++ [e]) := hw
      have htasks : tasks ≠ 0 := by
        rintro rfl
        exact absurd hw'.eq_nil (by simp)
      have hadd := condvarAddList_spec (s := { s with next := Function.update s.next s.currentTask 0 })
        (hw'.update hcur) hcur (show l.length < fuel by rw [List.length_append] at hfuel; omega)
      simp only [if_pos htasks, hadd, Option.map_some]
      have he : e ∈ loose := hsub e (List.mem_append_right _ List.mem_cons_self)
      refine ⟨_, _, rfl, hin₁.relink (.inl he) _, ?_, fun _ _ => rfl, fun x hx hxw => ?_⟩
      · rw [hfind]
        exact hw'.snoc hcur h₀
      · have hxe : x ≠ e := fun hxe => hxw (hxe ▸ List.mem_append_right _ List.mem_cons_self)
        exact (Function.update_of_ne hxe _ _).trans (Function.update_of_ne hx _ _)

/-- **The loop of `condvar_signal`** moves the tasks of the list to the ready list, each once. -/
theorem signalLoop_spec {a : ℕ} (hin : Inside s false live loose ready asleep dead)
    (hw : Linked s.next 0 a w) (hsub : ∀ x ∈ w, x ∈ loose) (hfuel : w.length < fuel) :
    ∃ s', signalLoop fuel s a = some s' ∧ s'.currentTask = s.currentTask ∧ s'.idleTask = s.idleTask ∧
      Inside s' false live (loose.diff w) (w.reverse ++ ready) asleep dead ∧
      ∀ x ∉ w, s'.next x = s.next x := by
  induction w generalizing s loose ready a fuel with
  | nil =>
    obtain ⟨fuel, rfl⟩ := Nat.exists_eq_succ_of_ne_zero (by omega : fuel ≠ 0)
    have h₀ : a = 0 := hw
    exact ⟨s, by rw [signalLoop, if_pos h₀], rfl, rfl, hin, fun _ _ => rfl⟩
  | cons x w ih =>
    obtain ⟨fuel, rfl⟩ := Nat.exists_eq_succ_of_ne_zero (by omega : fuel ≠ 0)
    have hnd := List.nodup_cons.mp hw.nodup
    obtain ⟨rfl, hx₀, htail⟩ := hw
    rw [List.length_cons] at hfuel
    obtain ⟨s₁, hu, hn, hcur, hid, hin₁⟩ := hin.unblock (hsub a List.mem_cons_self)
    have htail₁ : Linked s₁.next 0 (s.next a) w := by
      rw [hn]
      exact htail.update hnd.1
    have hsub₁ : ∀ x ∈ w, x ∈ loose.erase a := fun x hx =>
      (List.mem_erase_of_ne (ne_of_mem_of_not_mem hx hnd.1)).mpr (hsub x (List.mem_cons_of_mem _ hx))
    obtain ⟨s', hrun, hcur', hid', hin', hnext⟩ := ih hin₁ htail₁ hsub₁ (by omega : w.length < fuel)
    refine ⟨s', ?_, hcur'.trans hcur, hid'.trans hid, ?_, fun y hy => ?_⟩
    · rw [signalLoop, if_neg hx₀]
      simp only [hu, Option.bind_eq_bind, Option.bind_some]
      exact hrun
    · rw [List.diff_cons, List.reverse_cons, List.append_assoc]
      exact hin'
    · rw [List.mem_cons, not_or] at hy
      rw [hnext y hy.2, hn]
      exact Function.update_of_ne hy.1 _ _

/-! ## Invariant -/

/-- The lists and the counts. -/
structure Base (c : CondCfg) (ready asleep dead : List ℕ) : Prop where
  task : TaskInv ⟨c.sched, c.live, c.waiting⟩ ready asleep dead
  lists : Lists c.sched.next 0 (headOf c.sem c.condvars) c.list
  sub : ∀ j, ∀ x ∈ c.list j, x ∈ c.waiting
  last : ∀ i l e, c.list (.inl i) = l ++ [e] → (c.sem i).waitingTasksEnd = e
  count : ∀ i, (c.sem i).currentCount = (c.hold i).length
  le : ∀ i, (c.hold i).length ≤ (c.sem i).maxCount

/-- Where the tasks in `condvar_wait` are. -/
structure Waits (c : CondCfg) (ready : List ℕ) : Prop where
  waiting : ∀ x k m, c.wait x = some (k, m, .waiting) →
    x ∈ c.list (.inr k) ∨ x ∈ ready ∨ x = c.sched.currentTask
  acquiring : ∀ x k m, c.wait x = some (k, m, .acquiring) →
    x ∈ c.list (.inl m) ∨ (x ∈ ready ∨ x = c.sched.currentTask) ∧ x ∈ c.hold m
  idle : c.wait c.sched.idleTask = none

/-- A task returns from `condvar_wait` with the mutex. -/
def Returns (c c' : CondCfg) : Prop :=
  ∀ t k m p, c.wait t = some (k, m, p) → (∃ p', c'.wait t = some (k, m, p')) ∨
    c'.wait t = none ∧ t = c'.sched.currentTask ∧ t ∈ c'.hold m

/-- Between two steps. -/
structure CondInv (c : CondCfg) (ready asleep dead : List ℕ) : Prop where
  base : Base c ready asleep dead
  waits : Waits c ready
  resumed : ∀ k m, c.wait c.sched.currentTask ≠ some (k, m, .acquiring)

theorem resume_cases (c : CondCfg) :
    (∃ k m, c.wait c.sched.currentTask = some (k, m, .acquiring) ∧
      c.resume = { c with wait := Function.update c.wait c.sched.currentTask none }) ∨
    (∀ k m, c.wait c.sched.currentTask ≠ some (k, m, .acquiring)) ∧ c.resume = c := by
  unfold CondCfg.resume
  cases hw : c.wait c.sched.currentTask with
  | none => exact .inr ⟨fun _ _ => nofun, rfl⟩
  | some p =>
    obtain ⟨k, m, ph⟩ := p
    cases ph with
    | waiting => exact .inr ⟨fun _ _ => nofun, rfl⟩
    | acquiring => exact .inl ⟨k, m, rfl, rfl⟩

theorem update_none_eq_some {α : Type} {f : ℕ → Option α} {a x : ℕ} {v : α}
    (h : Function.update f a none x = some v) : f x = some v := by
  by_cases hx : x = a
  · subst hx
    rw [Function.update_self] at h
    cases h
  · rwa [Function.update_of_ne hx] at h

theorem Base.current (h : Base c ready asleep dead) (j : ℕ ⊕ ℕ) : c.sched.currentTask ∉ c.list j :=
  fun hj => (h.task.off_waiting (h.sub j _ hj)).1 rfl

theorem condInv_resume (hb : Base c ready asleep dead) (hw : Waits c ready) :
    CondInv c.resume ready asleep dead ∧ c.resume.sched = c.sched ∧ c.resume.hold = c.hold ∧ Returns c c.resume := by
  rcases resume_cases c with ⟨k, m, hcur, he⟩ | ⟨hcur, he⟩
  · rw [he]
    have hold := (hw.acquiring _ k m hcur).resolve_left (hb.current _)
    refine ⟨⟨⟨hb.task, hb.lists, hb.sub, hb.last, hb.count, hb.le⟩, ⟨fun x k' m' hx => ?_, fun x k' m' hx => ?_, ?_⟩,
      fun k' m' hx => ?_⟩, rfl, rfl, fun t k' m' p ht => ?_⟩
    · exact hw.waiting x k' m' (update_none_eq_some hx)
    · exact hw.acquiring x k' m' (update_none_eq_some hx)
    · change Function.update c.wait c.sched.currentTask none c.sched.idleTask = none
      by_cases hid : c.sched.idleTask = c.sched.currentTask
      · rw [hid]
        exact Function.update_self ..
      · rw [Function.update_of_ne hid]
        exact hw.idle
    · have hself : Function.update c.wait c.sched.currentTask none c.sched.currentTask = none :=
        Function.update_self ..
      exact absurd (hself.symm.trans hx) nofun
    · by_cases htc : t = c.sched.currentTask
      · subst htc
        rw [hcur, Option.some.injEq, Prod.mk.injEq, Prod.mk.injEq] at ht
        obtain ⟨-, rfl, -⟩ := ht
        exact .inr ⟨Function.update_self .., rfl, hold.2⟩
      · exact .inl ⟨p, (Function.update_of_ne htc _ _).trans ht⟩
  · rw [he]
    exact ⟨⟨hb, hw, hcur⟩, rfl, rfl, fun t k m p ht => .inl ⟨p, ht⟩⟩

/-! ## Semaphores -/

theorem headOf_sem (sem : ℕ → Semaphore) (condvars : List Condvar) (i : ℕ) (x : Semaphore) :
    headOf (Function.update sem i x) condvars =
      Function.update (headOf sem condvars) (.inl i) x.waitingTasksStart := by
  funext j
  cases j with
  | inl j =>
    by_cases hj : j = i
    · subst hj
      simp only [headOf, Function.update_self]
    · have hj' : (Sum.inl j : ℕ ⊕ ℕ) ≠ .inl i := fun e => hj (Sum.inl.inj e)
      simp only [headOf, Function.update_of_ne hj, Function.update_of_ne hj']
  | inr k => rfl

theorem headOf_count (sem : ℕ → Semaphore) (condvars : List Condvar) (i n : ℕ) :
    headOf (Function.update sem i { sem i with currentCount := n }) condvars = headOf sem condvars := by
  rw [headOf_sem]
  exact Function.update_eq_self (Sum.inl i) (headOf sem condvars)

/-- Apart from the running task, a task of a list that is moved is ready, and owns the slot it waited for. -/
structure Moved (c c' : CondCfg) (ready ready' : List ℕ) : Prop where
  ready : ∀ x ∈ ready, x ∈ ready' ∨ x = c'.sched.currentTask
  list : ∀ j, ∀ x ∈ c.list j, x ∈ c'.list j ∨
    (x ∈ ready' ∨ x = c'.sched.currentTask) ∧ ∀ i, j = .inl i → x ∈ c'.hold i
  hold : ∀ i, ∀ x ∈ c.hold i, x ≠ c.sched.currentTask → x ∈ c'.hold i
  idle : c'.sched.idleTask = c.sched.idleTask

/-- The tasks in `condvar_wait` after a step of the running task. -/
theorem Waits.moved {ready' : List ℕ} (h : Waits c ready) (hm : Moved c c' ready ready')
    (hwait : ∀ x, x ≠ c.sched.currentTask → c'.wait x = c.wait x) (hidle : c'.wait c.sched.idleTask = none)
    (hlisted : ∀ k m, c'.wait c.sched.currentTask = some (k, m, .waiting) → c.sched.currentTask ∈ c'.list (.inr k))
    (hqueued : ∀ k m, c'.wait c.sched.currentTask = some (k, m, .acquiring) →
      c.sched.currentTask ∈ c'.list (.inl m)) : Waits c' ready' := by
  refine ⟨fun x k m hx => ?_, fun x k m hx => ?_, hm.idle ▸ hidle⟩
  · by_cases hxc : x = c.sched.currentTask
    · subst hxc
      exact .inl (hlisted k m hx)
    · rw [hwait x hxc] at hx
      rcases h.waiting x k m hx with hl | hr | hc
      · exact (hm.list _ x hl).imp id fun hr => hr.1
      · exact .inr (hm.ready x hr)
      · exact absurd hc hxc
  · by_cases hxc : x = c.sched.currentTask
    · subst hxc
      exact .inl (hqueued k m hx)
    · rw [hwait x hxc] at hx
      rcases h.acquiring x k m hx with hl | ⟨hr | hc, hh⟩
      · exact (hm.list _ x hl).imp id fun hr => ⟨hr.1, hr.2 m rfl⟩
      · exact .inr ⟨hm.ready x hr, hm.hold m x hh hxc⟩
      · exact absurd hc hxc

theorem length_update_le {sem : ℕ → Semaphore} {hold : ℕ → List ℕ} {x : Semaphore} {l : List ℕ}
    (hc : ∀ j, (sem j).currentCount = (hold j).length) (hle : ∀ j, (hold j).length ≤ (sem j).maxCount)
    (hc' : x.currentCount = l.length) (hle' : l.length ≤ x.maxCount) (i : ℕ) :
    (∀ j, (Function.update sem i x j).currentCount = (Function.update hold i l j).length) ∧
      ∀ j, (Function.update hold i l j).length ≤ (Function.update sem i x j).maxCount := by
  refine ⟨fun j => ?_, fun j => ?_⟩
  all_goals
    by_cases hj : j = i
    · subst hj
      simpa only [Function.update_self]
    · simp only [Function.update_of_ne hj]
      first | exact hc j | exact hle j

theorem Base.acquire_fast (h : Base c ready asleep dead) (hne : c.sched.currentTask ≠ c.sched.idleTask)
    (hfree : (c.sem i).currentCount < (c.sem i).maxCount) :
    ∃ s x, semaphoreAcquire c.sched (c.sem i) = some (s, x) ∧ s.currentTask = c.sched.currentTask ∧
      Base (c.acquired i s x) ready asleep dead ∧ Moved c (c.acquired i s x) ready ready := by
  obtain ⟨hu, hinv⟩ := h.task.enter.unlock_here hne
  have hu' : taskUnlock (taskLock c.sched) = some { taskLock c.sched with
    postponeSwitchCounter := 0, scheduleLockCounter := 0 } := hu
  refine ⟨{ taskLock c.sched with postponeSwitchCounter := 0, scheduleLockCounter := 0 },
    { c.sem i with currentCount := (c.sem i).currentCount + 1 }, ?_, rfl, ?_⟩
  · rw [Block.semaphoreAcquire_eq, Block.acquireBody, if_pos hfree, Option.bind_some, hu']
    rfl
  rw [CondCfg.acquired, if_pos hfree]
  obtain ⟨hcount, hle⟩ := length_update_le h.count h.le (i := i)
    (x := { c.sem i with currentCount := (c.sem i).currentCount + 1 }) (l := c.sched.currentTask :: c.hold i)
    (by rw [List.length_cons, h.count]) (by rw [List.length_cons, ← h.count]; exact hfree)
  refine ⟨⟨hinv, ?_, h.sub, fun j l e he => ?_, hcount, hle⟩, fun x hx => .inl hx, fun j x hx => .inl hx,
    fun j x hx _ => ?_, rfl⟩
  · change Lists c.sched.next 0 (headOf (Function.update c.sem i _) c.condvars) c.list
    rw [headOf_count]
    exact h.lists
  · by_cases hj : j = i
    · subst hj
      simpa only [Function.update_self] using h.last j l e he
    · simpa only [Function.update_of_ne hj] using h.last j l e he
  · by_cases hj : j = i
    · subst hj
      simpa only [Function.update_self] using List.mem_cons_of_mem _ hx
    · simpa only [Function.update_of_ne hj] using hx

/-- A new task at the end of a queue, or the first one taken off it. -/
theorem last_update {sem : ℕ → Semaphore} {list : ℕ ⊕ ℕ → List ℕ} {x : Semaphore} {l' : List ℕ}
    (h : ∀ j l e, list (.inl j) = l ++ [e] → (sem j).waitingTasksEnd = e)
    (hx : ∀ l e, l' = l ++ [e] → x.waitingTasksEnd = e) (i j : ℕ) (l : List ℕ) (e : ℕ)
    (he : Function.update list (.inl i) l' (.inl j) = l ++ [e]) :
    (Function.update sem i x j).waitingTasksEnd = e := by
  by_cases hj : j = i
  · subst hj
    rw [Function.update_self] at he ⊢
    exact hx l e he
  · have hj' : (Sum.inl j : ℕ ⊕ ℕ) ≠ .inl i := fun h => hj (Sum.inl.inj h)
    rw [Function.update_of_ne hj'] at he
    rw [Function.update_of_ne hj]
    exact h j l e he

theorem mem_update_append {list : ℕ ⊕ ℕ → List ℕ} {j j' : ℕ ⊕ ℕ} {x y : ℕ} :
    x ∈ Function.update list j (list j ++ [y]) j' ↔ x ∈ list j' ∨ j' = j ∧ x = y := by
  by_cases hj : j' = j
  · subst hj
    rw [Function.update_self, List.mem_append, List.mem_singleton]
    simp
  · rw [Function.update_of_ne hj]
    simp [hj]

theorem Base.acquire_slow (h : Base c ready asleep dead) (hne : c.sched.currentTask ≠ c.sched.idleTask)
    (hfree : ¬ (c.sem i).currentCount < (c.sem i).maxCount) :
    ∃ s x ready', semaphoreAcquire c.sched (c.sem i) = some (s, x) ∧
      Base (c.acquired i s x) ready' asleep dead ∧ Moved c (c.acquired i s x) ready ready' := by
  let sem' := (enqueue (taskLock c.sched) (c.sem i)).2
  have hlink : Linked (taskLock c.sched).next 0 (c.sem i).waitingTasksStart (c.list (.inl i)) :=
    h.lists.linked (.inl i)
  have hcur : (taskLock c.sched).currentTask ∉ c.list (.inl i) := h.current _
  have h₀ : c.sched.currentTask ≠ 0 := h.task.places.ne_zero List.mem_cons_self
  obtain ⟨hin, hcur₁⟩ := inside_enqueue h.task.enter hlink (h.last i) (h.sub (.inl i))
  obtain ⟨hid, -, hmax, hcnt⟩ := enqueue_same (taskLock c.sched) (c.sem i)
  have hne₁ : (enqueue (taskLock c.sched) (c.sem i)).1.currentTask ≠
      (enqueue (taskLock c.sched) (c.sem i)).1.idleTask := by
    rw [hcur₁, hid]
    exact hne
  obtain ⟨s₂, hb, hn₂, hcur₂, hid₂, hin₂⟩ := hin.block hne₁ (by decide : TaskState.waitingForLock ≠ .running)
  obtain ⟨s', ready', hu, hinv, hid', hnext, hready⟩ := hin₂.leave
  rw [hcur₁] at hinv hnext
  obtain ⟨hlink', hend⟩ := enqueue_spec hlink (h.last i) hcur h₀
  refine ⟨s', sem', ready', ?_, ?_⟩
  · rw [Block.semaphoreAcquire_eq, Block.acquireBody, if_neg hfree]
    simp only [hb, Option.bind_eq_bind, Option.bind_some, Option.pure_def, hu]
    rfl
  rw [CondCfg.acquired, if_neg hfree]
  have hframe : ∀ x ∈ c.waiting, s'.next x = (enqueue (taskLock c.sched) (c.sem i)).1.next x := fun x hx =>
    (hnext x (List.mem_cons_of_mem _ hx)).trans (congrFun hn₂ x)
  refine ⟨⟨hinv, ?_, fun j x hx => ?_, ?_, fun j => ?_, fun j => ?_⟩, hready, fun j x hx => .inl ?_, fun j x hx _ => hx,
    hid'.trans (hid₂.trans hid)⟩
  · change Lists s'.next 0 (headOf (Function.update c.sem i sem') c.condvars) _
    rw [headOf_sem]
    have hlists := h.lists.replace (i := .inl i) hlink' (fun j hj x hx => ?_) fun x hx => ?_
    · refine hlists.congr fun j x hx => ?_
      rcases mem_update_append.mp hx with hx | ⟨-, rfl⟩
      · exact hframe x (h.sub j x hx)
      · exact (hnext _ List.mem_cons_self).trans (congrFun hn₂ _)
    · have hx' : x ∉ c.list (.inl i) := fun hxi => hj (h.lists.apart j _ x hx hxi)
      exact enqueue_next hlink (h.last i) (fun e => h.current j (e ▸ hx)) hx'
    · rcases List.mem_append.mp hx with hx | hx
      · exact .inl hx
      · exact .inr fun j hj => h.current j (List.mem_singleton.mp hx ▸ hj)
  · rcases mem_update_append.mp hx with hx | ⟨-, rfl⟩
    · exact List.mem_cons_of_mem _ (h.sub j x hx)
    · exact List.mem_cons_self
  · refine last_update h.last (fun l e he => ?_) i
    have he' : c.sched.currentTask = e := by
      have := congrArg List.getLast? he
      simpa using this
    exact hend.trans he'
  · by_cases hj : j = i
    · subst hj
      simp only [Function.update_self]
      exact hcnt.trans (h.count j)
    · simp only [Function.update_of_ne hj]
      exact h.count j
  · by_cases hj : j = i
    · subst hj
      simp only [Function.update_self]
      exact Nat.le_trans (h.le j) (Nat.le_of_eq hmax.symm)
    · simp only [Function.update_of_ne hj]
      exact h.le j
  · exact mem_update_append.mpr (.inl hx)

theorem mem_update_tail {list : ℕ ⊕ ℕ → List ℕ} {j j' : ℕ ⊕ ℕ} {x : ℕ}
    (hx : x ∈ Function.update list j (list j).tail j') : x ∈ list j' := by
  by_cases hj : j' = j
  · subst hj
    rw [Function.update_self] at hx
    exact List.mem_of_mem_tail hx
  · rwa [Function.update_of_ne hj] at hx

/-- **`semaphore_release` inside a section** hands the slot to the first waiting task, if there is one. -/
theorem release_inside {sem : ℕ → Semaphore} {list : ℕ ⊕ ℕ → List ℕ}
    (hin : Inside s false live loose ready asleep dead) (hl : Lists s.next 0 (headOf sem condvars) list)
    (hsub : ∀ x ∈ list (.inl i), x ∈ loose) (h₀ : 0 ∉ loose) :
    ∃ s' x ready', Block.releaseBody s (sem i) = some (s', x) ∧ s'.currentTask = s.currentTask ∧
      s'.idleTask = s.idleTask ∧
      Inside s' false live (loose.erase (sem i).waitingTasksStart) ready' asleep dead ∧
      Lists s'.next 0 (headOf (Function.update sem i x) condvars)
        (Function.update list (.inl i) (list (.inl i)).tail) ∧
      (∀ y ∈ ready, y ∈ ready') ∧ ((sem i).waitingTasksStart ≠ 0 → (sem i).waitingTasksStart ∈ ready') ∧
      x.maxCount = (sem i).maxCount ∧ x.waitingTasksEnd = (sem i).waitingTasksEnd ∧
      x.currentCount = if (sem i).waitingTasksStart = 0 then dec32 (sem i).currentCount
        else (sem i).currentCount := by
  have hlink : Linked s.next 0 (sem i).waitingTasksStart (list (.inl i)) := hl.linked (.inl i)
  unfold Block.releaseBody
  by_cases hstart : (sem i).waitingTasksStart = 0
  · rw [hstart] at hlink
    have hself : Function.update list (.inl i) (list (.inl i)).tail = list := by
      rw [hlink.eq_nil, List.tail_nil, ← hlink.eq_nil, Function.update_eq_self]
    refine ⟨s, _, ready, if_pos hstart, rfl, rfl, ?_, ?_, fun _ hy => hy, fun h => absurd hstart h, rfl, rfl,
      (if_pos hstart).symm⟩
    · rw [hstart, List.erase_of_not_mem h₀]
      exact hin
    · rw [hself, headOf_count]
      exact hl
  · obtain ⟨rest, hcons, hrest⟩ := hlink.exists_cons hstart
    have hmem : (sem i).waitingTasksStart ∈ list (.inl i) := hcons ▸ List.mem_cons_self
    have hnd : (sem i).waitingTasksStart ∉ rest := by
      have := hlink.nodup
      rw [hcons] at this
      exact (List.nodup_cons.mp this).1
    obtain ⟨s', hu, hn, hcur, hid, hin'⟩ := hin.unblock (hsub _ hmem)
    refine ⟨s', { sem i with waitingTasksStart := s.next (sem i).waitingTasksStart }, _, ?_, hcur, hid, hin', ?_,
      fun _ hy => List.mem_cons_of_mem _ hy, fun _ => List.mem_cons_self, rfl, rfl, (if_neg hstart).symm⟩
    · simp only [if_neg hstart, hu, Option.bind_eq_bind, Option.bind_some, Option.pure_def]
    · rw [headOf_sem, hn]
      refine hl.replace ?_ (fun j hj x hx => Function.update_of_ne ?_ _ _) fun x hx => .inl (List.mem_of_mem_tail hx)
      · rw [hcons, List.tail_cons]
        exact hrest.update hnd
      · rintro rfl
        exact hj (hl.apart j _ _ hx hmem)

theorem Base.hold_released (h : Base c ready asleep dead) (hcur : t ∈ c.hold i) {x : Semaphore}
    (hmax : x.maxCount = (c.sem i).maxCount)
    (hcount : x.currentCount = if (c.sem i).waitingTasksStart = 0 then dec32 (c.sem i).currentCount
      else (c.sem i).currentCount) {l : List ℕ}
    (hl : l = if (c.sem i).waitingTasksStart = 0 then (c.hold i).erase t
      else (c.sem i).waitingTasksStart :: (c.hold i).erase t) :
    (∀ j, (Function.update c.sem i x j).currentCount = (Function.update c.hold i l j).length) ∧
      ∀ j, (Function.update c.hold i l j).length ≤ (Function.update c.sem i x j).maxCount := by
  have hlen := List.length_erase_add_one hcur
  have hcnt := h.count i
  have hle := h.le i
  have hdec : dec32 (c.sem i).currentCount = (c.sem i).currentCount - 1 := by
    rw [dec32, if_neg (by omega)]
  refine length_update_le h.count h.le ?_ ?_ i
  · rw [hcount, hl]
    split_ifs
    · omega
    · rw [List.length_cons]
      omega
  · rw [hl, hmax]
    split_ifs
    · omega
    · rw [List.length_cons]
      omega

theorem Base.zero_notMem (h : Base c ready asleep dead) : 0 ∉ c.waiting := fun h₀ =>
  h.task.places.nonnull (h.task.places.mem_live (List.mem_cons_of_mem _ h₀))

theorem Base.released_eq (h : Base c ready asleep dead) (i : ℕ) (s : Sched) (x : Semaphore) :
    c.released i s x = { c with
      sched := s
      sem := Function.update c.sem i x
      hold := Function.update c.hold i (if (c.sem i).waitingTasksStart = 0 then
        (c.hold i).erase c.sched.currentTask
        else (c.sem i).waitingTasksStart :: (c.hold i).erase c.sched.currentTask)
      waiting := c.waiting.erase (c.sem i).waitingTasksStart
      list := Function.update c.list (.inl i) (c.list (.inl i)).tail } := by
  unfold CondCfg.released
  dsimp only
  by_cases h₀ : (c.sem i).waitingTasksStart = 0
  · have hlink : Linked c.sched.next 0 (c.sem i).waitingTasksStart (c.list (.inl i)) := h.lists.linked (.inl i)
    rw [h₀] at hlink
    rw [if_pos h₀, if_pos h₀, h₀, List.erase_of_not_mem h.zero_notMem, hlink.eq_nil, List.tail_nil,
      ← hlink.eq_nil, Function.update_eq_self]
  · rw [if_neg h₀, if_neg h₀]

theorem Base.mem_tail (h : Base c ready asleep dead) {j : ℕ ⊕ ℕ} {x : ℕ} (hx : x ∈ c.list j) (i : ℕ) :
    x ∈ Function.update c.list (.inl i) (c.list (.inl i)).tail j ∨
      j = .inl i ∧ x = (c.sem i).waitingTasksStart := by
  by_cases hj : j = .inl i
  · subst hj
    rw [Function.update_self]
    have hlink : Linked c.sched.next 0 (c.sem i).waitingTasksStart (c.list (.inl i)) := h.lists.linked (.inl i)
    cases hq : c.list (.inl i) with
    | nil =>
      rw [hq] at hx
      cases hx
    | cons y rest =>
      rw [hq] at hx hlink
      rcases List.mem_cons.mp hx with rfl | hx
      · exact .inr ⟨rfl, hlink.1.symm⟩
      · exact .inl hx
  · rw [Function.update_of_ne hj]
    exact .inl hx

theorem Base.mem_erase (h : Base c ready asleep dead) {j : ℕ ⊕ ℕ} {x : ℕ}
    (hx : x ∈ Function.update c.list (.inl i) (c.list (.inl i)).tail j) :
    x ∈ c.waiting.erase (c.sem i).waitingTasksStart := by
  have hxj := mem_update_tail hx
  refine (List.mem_erase_of_ne ?_).mpr (h.sub j x hxj)
  rintro rfl
  have hlink : Linked c.sched.next 0 (c.sem i).waitingTasksStart (c.list (.inl i)) := h.lists.linked (.inl i)
  have hne : (c.sem i).waitingTasksStart ≠ 0 := fun h₀ => h.zero_notMem (h₀ ▸ h.sub j _ hxj)
  obtain ⟨rest, hcons, -⟩ := hlink.exists_cons hne
  obtain rfl := h.lists.apart j _ _ hxj (hcons ▸ List.mem_cons_self)
  rw [Function.update_self, hcons, List.tail_cons] at hx
  rw [hcons] at hlink
  exact (List.nodup_cons.mp hlink.nodup).1 hx

theorem Base.last_tail (h : Base c ready asleep dead) (i : ℕ) (l : List ℕ) (e : ℕ)
    (he : (c.list (.inl i)).tail = l ++ [e]) : (c.sem i).waitingTasksEnd = e := by
  cases hq : c.list (.inl i) with
  | nil =>
    rw [hq] at he
    exact absurd he (by simp)
  | cons y rest =>
    rw [hq, List.tail_cons] at he
    exact h.last i (y :: l) e (by rw [hq, he, List.cons_append])

theorem mem_hold_released {x y : ℕ} {hold : ℕ → List ℕ} {l : List ℕ} (hx : x ∈ hold k) (hne : x ≠ t)
    (hl : l = (hold i).erase t ∨ l = y :: (hold i).erase t) : x ∈ Function.update hold i l k := by
  by_cases hk : k = i
  · subst hk
    rw [Function.update_self]
    have herase := (List.mem_erase_of_ne hne).mpr hx
    rcases hl with rfl | rfl
    · exact herase
    · exact List.mem_cons_of_mem _ herase
  · rwa [Function.update_of_ne hk]

theorem Base.release (h : Base c ready asleep dead) (hcur : c.sched.currentTask ∈ c.hold i) :
    ∃ s x ready', semaphoreRelease c.sched (c.sem i) = some (s, x) ∧
      Base (c.released i s x) ready' asleep dead ∧ Moved c (c.released i s x) ready ready' := by
  obtain ⟨s₁, x, ready₁, hbody, hcur₁, hid₁, hin₁, hl₁, hkeep, hhead, hmax, hend, hcount⟩ :=
    release_inside h.task.enter h.lists (h.sub (.inl i)) h.zero_notMem
  obtain ⟨s', ready', hu, hinv, hid, hnext, hready⟩ := hin₁.leave
  obtain ⟨hc, hle⟩ := h.hold_released hcur hmax hcount rfl
  refine ⟨s', x, ready', ?_, ?_⟩
  · have hbody' : Block.releaseBody (taskLock c.sched) (c.sem i) = some (s₁, x) := hbody
    rw [Block.semaphoreRelease_eq, hbody', Option.bind_some, hu]
    rfl
  rw [h.released_eq]
  refine ⟨⟨hinv, hl₁.congr fun j y hy => hnext y (h.mem_erase hy), fun j y hy => h.mem_erase hy,
    last_update h.last (fun l e he => hend.trans (h.last_tail i l e he)) i, hc, hle⟩,
    fun y hy => hready y (hkeep y hy), fun j y hy => ?_, fun j y hy hne => ?_, hid.trans hid₁⟩
  · refine (h.mem_tail hy i).imp id ?_
    rintro ⟨rfl, rfl⟩
    have hne : (c.sem i).waitingTasksStart ≠ 0 := fun h₀ => h.zero_notMem (h₀ ▸ h.sub _ _ hy)
    refine ⟨hready _ (hhead hne), fun i' hi' => ?_⟩
    obtain rfl := Sum.inl.inj hi'
    simp only [Function.update_self, if_neg hne]
    exact List.mem_cons_self
  · refine mem_hold_released (y := (c.sem i).waitingTasksStart) hy hne ?_
    split_ifs
    · exact .inl rfl
    · exact .inr rfl

/-! ## Conditions -/

theorem headOf_condvars (sem : ℕ → Semaphore) {condvars' : List Condvar}
    (h : ∀ k', k' ≠ k → condvarFind k' condvars' = condvarFind k' condvars) :
    headOf sem condvars' = Function.update (headOf sem condvars) (.inr k) ((condvarFind k condvars').getD 0) := by
  funext j
  cases j with
  | inl i => rfl
  | inr k' =>
    by_cases hk : k' = k
    · subst hk
      rw [Function.update_self]
      rfl
    · have hk' : (Sum.inr k' : ℕ ⊕ ℕ) ≠ .inr k := fun e => hk (Sum.inr.inj e)
      rw [Function.update_of_ne hk']
      exact congrArg (Option.getD · 0) (h k' hk)

theorem Base.length_lt (h : Base c ready asleep dead) (j : ℕ ⊕ ℕ) : (c.list j).length < c.fuel := by
  have hsub : c.list j ⊆ c.live := fun x hx =>
    h.task.places.mem_live (List.mem_cons_of_mem _ (h.sub j x hx))
  exact Nat.lt_succ_of_le (List.subperm_of_subset (h.lists.linked j).nodup hsub).length_le

/-- **`condvar_wait`** up to its `task_block`: the running task is on the list of the condition, and the mutex is
released. -/
theorem Base.wait (h : Base c ready asleep dead) (hne : c.sched.currentTask ≠ c.sched.idleTask)
    (hcur : c.sched.currentTask ∈ c.hold m) (k : ℕ) :
    ∃ s x condvars' ready', condvarWait c.fuel c.sched (c.sem m) c.condvars k = some (s, x, condvars') ∧
      ∀ wait, let c' := { c.released m s x with
        condvars := condvars'
        waiting := c.sched.currentTask :: (c.released m s x).waiting
        list := Function.update (c.released m s x).list (.inr k) (c.list (.inr k) ++ [c.sched.currentTask])
        wait := wait }
      Base c' ready' asleep dead ∧ Moved c c' ready ready' ∧ c.sched.currentTask ∈ c'.list (.inr k) := by
  have h₀ : c.sched.currentTask ≠ 0 := h.task.places.ne_zero List.mem_cons_self
  obtain ⟨n', condvars', hqueue, hin₁, hlink₁, hother, hn₁⟩ := condvarQueue_spec h.task.enter
    (show Linked c.sched.next 0 ((condvarFind k c.condvars).getD 0) _ from h.lists.linked (.inr k)) (h.sub (.inr k))
      (h.current (.inr k)) h₀ (h.length_lt (.inr k))
  let s₁ : Sched := { taskLock c.sched with next := n' }
  let list₁ := Function.update c.list (.inr k) (c.list (.inr k) ++ [c.sched.currentTask])
  have hl₁ : Lists s₁.next 0 (headOf c.sem condvars') list₁ := by
    rw [headOf_condvars c.sem hother]
    refine h.lists.replace hlink₁ (fun j hj x hx => hn₁ x ?_ ?_) fun x hx => ?_
    · rintro rfl
      exact h.current j hx
    · exact fun hxk => hj (h.lists.apart j _ x hx hxk)
    · rcases List.mem_append.mp hx with hx | hx
      · exact .inl hx
      · exact .inr fun j hj => h.current j (List.mem_singleton.mp hx ▸ hj)
  have hlist₁ : list₁ (.inl m) = c.list (.inl m) := Function.update_of_ne (fun e => by cases e) _ _
  obtain ⟨s₂, x, ready₂, hbody, hcur₂, hid₂, hin₂, hl₂, hkeep, hhead, hmax, hend, hcount⟩ :=
    release_inside (i := m) hin₁ hl₁ (by rw [hlist₁]; exact h.sub (.inl m)) h.zero_notMem
  have hne₂ : s₂.currentTask ≠ s₂.idleTask := by
    rw [hcur₂, hid₂]
    exact hne
  obtain ⟨s₃, hb, hn₃, hcur₃, hid₃, hin₃⟩ := hin₂.block hne₂ (by decide : TaskState.condvar ≠ .running)
  obtain ⟨s', ready', hu, hinv, hid, hnext, hready⟩ := hin₃.leave
  have hcur₂' : s₂.currentTask = c.sched.currentTask := hcur₂
  rw [hcur₂'] at hinv hnext
  have hrelease : semaphoreRelease s₁ (c.sem m) = some (s₂, x) := by
    have hp : s₁.postponeSwitchCounter ≠ 0 := Nat.succ_ne_zero _
    rw [Block.semaphoreRelease_nested hp]
    exact hbody
  obtain ⟨hc, hle⟩ := h.hold_released hcur hmax hcount rfl
  refine ⟨s', x, condvars', ready', ?_, fun wait => ?_⟩
  · simp only [condvarWait, hqueue, Option.bind_eq_bind, Option.bind_some]
    rw [show semaphoreRelease { taskLock c.sched with next := n' } (c.sem m) = some (s₂, x) from hrelease]
    simp only [Option.bind_some, hb, hu, Option.pure_def]
  dsimp only
  rw [h.released_eq]
  have hswap : Function.update (Function.update c.list (.inl m) (c.list (.inl m)).tail) (.inr k)
      (c.list (.inr k) ++ [c.sched.currentTask]) = Function.update list₁ (.inl m) (list₁ (.inl m)).tail := by
    rw [hlist₁]
    exact Function.update_comm (fun e => by cases e) _ _ _
  have hmem : ∀ j y, y ∈ Function.update list₁ (.inl m) (list₁ (.inl m)).tail j →
      y ∈ Function.update c.list (.inl m) (c.list (.inl m)).tail j ∨ y = c.sched.currentTask := by
    intro j y hy
    rw [← hswap] at hy
    by_cases hj : j = .inr k
    · subst hj
      rw [Function.update_self] at hy
      rw [Function.update_of_ne (fun e => by cases e)]
      exact (List.mem_append.mp hy).imp id List.mem_singleton.mp
    · rw [Function.update_of_ne hj] at hy
      exact .inl hy
  have hwait : ∀ j y, y ∈ Function.update list₁ (.inl m) (list₁ (.inl m)).tail j →
      y ∈ c.sched.currentTask :: c.waiting.erase (c.sem m).waitingTasksStart := fun j y hy =>
    (hmem j y hy).elim (fun hy => List.mem_cons_of_mem _ (h.mem_erase hy)) fun hy => hy ▸ List.mem_cons_self
  let list₂ := Function.update (Function.update c.list (.inl m) (c.list (.inl m)).tail) (.inr k)
    (c.list (.inr k) ++ [c.sched.currentTask])
  have hqueues : ∀ i, list₂ (.inl i) = Function.update c.list (.inl m) (c.list (.inl m)).tail (.inl i) :=
    fun i => Function.update_of_ne (fun e => by cases e) _ _
  have hgrow : ∀ j, ∀ y ∈ c.list j, y ∈ Function.update c.list (.inl m) (c.list (.inl m)).tail j →
      y ∈ list₂ j := by
    intro j y hy hy'
    by_cases hj : j = .inr k
    · subst hj
      simp only [list₂, Function.update_self]
      exact List.mem_append_left _ hy
    · simpa only [list₂, Function.update_of_ne hj] using hy'
  have hself : c.sched.currentTask ∈ list₂ (.inr k) := by
    simp only [list₂, Function.update_self]
    exact List.mem_append_right _ List.mem_cons_self
  refine ⟨⟨hinv, ?_, ?_, ?_, hc, hle⟩, ⟨fun y hy => hready y (hkeep y hy), fun j y hy => ?_, fun j y hy hne => ?_,
    hid.trans (hid₃.trans hid₂)⟩, ?_⟩
  · change Lists s'.next 0 (headOf (Function.update c.sem m x) condvars') _
    rw [hswap]
    exact hl₂.congr fun j y hy => (hnext y (hwait j y hy)).trans (congrFun hn₃ y)
  · rw [hswap]
    exact hwait
  · intro i l e he
    have he' := (hqueues i).symm.trans he
    exact last_update h.last (fun l e he => hend.trans (h.last_tail m l e he)) m i l e he'
  · rcases h.mem_tail hy m with hy' | ⟨rfl, rfl⟩
    · exact .inl (hgrow j y hy hy')
    · have hne : (c.sem m).waitingTasksStart ≠ 0 := fun h₀ => h.zero_notMem (h₀ ▸ h.sub _ _ hy)
      refine .inr ⟨hready _ (hhead hne), fun i' hi' => ?_⟩
      obtain rfl := Sum.inl.inj hi'
      simp only [Function.update_self, if_neg hne]
      exact List.mem_cons_self
  · refine mem_hold_released (y := (c.sem m).waitingTasksStart) hy hne ?_
    split_ifs
    · exact .inl rfl
    · exact .inr rfl
  · exact hself

/-- **`condvar_signal`** moves the whole list of the condition to the ready list. -/
theorem Base.signal (h : Base c ready asleep dead) (hne : c.sched.currentTask ≠ c.sched.idleTask) (k : ℕ) :
    ∃ s condvars', condvarSignal c.fuel c.sched c.condvars k = some (s, condvars') ∧
      s.currentTask = c.sched.currentTask ∧ s.idleTask = c.sched.idleTask ∧
      (∀ k', k' ≠ k → condvarFind k' condvars' = condvarFind k' c.condvars) ∧
      Base { c with
        sched := s, condvars := condvars'
        waiting := c.waiting.diff (c.list (.inr k)), list := Function.update c.list (.inr k) [] }
        ((c.list (.inr k)).reverse ++ ready) asleep dead := by
  have hlink : Linked c.sched.next 0 ((condvarFind k c.condvars).getD 0) (c.list (.inr k)) :=
    h.lists.linked (.inr k)
  have hoff : ∀ j, j ≠ .inr k → ∀ x ∈ c.list j, x ∉ c.list (.inr k) := fun j hj x hx hxk =>
    hj (h.lists.apart j _ x hx hxk)
  have hmem : ∀ j, ∀ x ∈ Function.update c.list (.inr k) [] j, j ≠ .inr k ∧ x ∈ c.list j := fun j x hx => by
    by_cases hj : j = .inr k
    · subst hj
      rw [Function.update_self] at hx
      cases hx
    · rw [Function.update_of_ne hj] at hx
      exact ⟨hj, hx⟩
  have hsub : ∀ j, ∀ x ∈ Function.update c.list (.inr k) [] j, x ∈ c.waiting.diff (c.list (.inr k)) :=
    fun j x hx => List.mem_diff_of_mem (h.sub j x (hmem j x hx).2) (hoff j (hmem j x hx).1 x (hmem j x hx).2)
  have hlast : ∀ i l e, Function.update c.list (.inr k) [] (.inl i) = l ++ [e] → (c.sem i).waitingTasksEnd = e :=
    fun i l e he => h.last i l e ((Function.update_of_ne (fun e => by cases e) _ _).symm.trans he)
  cases hfind : condvarFind k c.condvars with
  | none =>
    rw [hfind] at hlink
    have hnil : c.list (.inr k) = [] := hlink.eq_nil
    obtain ⟨hu, hinv⟩ := h.task.enter.unlock_here hne
    have hself : Function.update c.list (.inr k) [] = c.list := by
      rw [← hnil, Function.update_eq_self]
    refine ⟨{ taskLock c.sched with postponeSwitchCounter := 0, scheduleLockCounter := 0 }, c.condvars, ?_, rfl, rfl,
      fun _ _ => rfl, ?_⟩
    · simp only [condvarSignal, hfind]
      rw [show taskUnlock (taskLock c.sched) = _ from hu]
      rfl
    · rw [hself, hnil]
      exact ⟨hinv, h.lists, h.sub, h.last, h.count, h.le⟩
  | some tasks =>
    rw [hfind] at hlink
    obtain ⟨s₁, hloop, hcur₁, hid₁, hin₁, hn₁⟩ := signalLoop_spec (s := taskLock c.sched) h.task.enter hlink
      (h.sub (.inr k)) (h.length_lt (.inr k))
    obtain ⟨hu, hinv⟩ := hin₁.unlock_here (by rw [hcur₁, hid₁]; exact hne)
    have hother : ∀ k', k' ≠ k → condvarFind k' (condvarSet k 0 c.condvars) = condvarFind k' c.condvars :=
      fun k' hk' => condvarFind_set_other hk' 0
    have hloop' : signalLoop c.fuel (taskLock c.sched) tasks = some s₁ := hloop
    refine ⟨{ s₁ with postponeSwitchCounter := 0, scheduleLockCounter := 0 }, condvarSet k 0 c.condvars, ?_, hcur₁,
      hid₁, hother, ⟨hinv, ?_, hsub, hlast, h.count, h.le⟩⟩
    · simp only [condvarSignal, hfind, hloop', hu, Option.bind_eq_bind, Option.bind_some, Option.pure_def]
    · change Lists s₁.next 0 (headOf c.sem (condvarSet k 0 c.condvars)) _
      rw [headOf_condvars c.sem hother, condvarFind_set (by rw [hfind]; exact Option.some_ne_none _)]
      exact h.lists.replace rfl (fun j hj x hx => hn₁ x (hoff j hj x hx)) fun x hx => absurd hx List.not_mem_nil

/-! ## Steps -/

theorem CondInv.other {op : TaskOp} (h : CondInv c ready asleep dead) (hl : otherLegal c op) :
    ∃ k ready' asleep' dead', taskStep ⟨c.sched, c.live, c.waiting⟩ op = some k ∧
      Base { c with sched := k.sched, live := k.live, waiting := k.waiting } ready' asleep' dead' ∧
      Waits { c with sched := k.sched, live := k.live, waiting := k.waiting } ready' := by
  obtain ⟨hleg, hsound, hnames⟩ := hl
  obtain ⟨k, ready', asleep', dead', he, hinv, hk⟩ := h.base.task.keeps hleg hsound
  have hparks : op.Parks → c.wait c.sched.currentTask = none := by
    cases op with
    | block => exact fun _ => hnames
    | sleep => exact fun _ => hnames
    | terminate => exact fun _ => hnames.1
    | _ => exact fun hp => hp.elim
  have hparked : ∀ j, ∀ x ∈ c.list j, ¬ op.Names ⟨c.sched, c.live, c.waiting⟩ x := by
    intro j x hx
    have hw := h.base.sub j x hx
    cases op with
    | add t =>
      rintro rfl
      exact hleg.2 (h.base.task.places.mem_live (List.mem_cons_of_mem _ hw))
    | unblock t => exact fun hn => hnames.2 j (hn ▸ hx)
    | forceSwitch t => exact fun hn => hnames.2 j (hn ▸ hx)
    | terminate => exact fun hn => hnames.2.2 j (hn ▸ hx)
    | tick now => exact fun hn => (h.base.task.off_waiting hw).2.2 (hn asleep h.base.task.places.onSleep)
    | block => exact id
    | sleep => exact id
    | clean => exact id
  have hstill : ∀ j, ∀ x ∈ c.list j, x ∈ k.waiting := fun j x hx =>
    (hk.named x (h.base.sub j x hx)).resolve_right (hparked j x hx)
  have hframe : ∀ j, ∀ x ∈ c.list j, k.sched.next x = c.sched.next x ∧ k.sched.idleTask = c.sched.idleTask :=
    fun j x hx => by
      obtain ⟨hcur, hidle, -⟩ := h.base.task.off_waiting (h.base.sub j x hx)
      exact taskStep_next he h.base.task.flag hidle hcur (hinv.off_waiting (hstill j x hx)).1 (hparked j x hx)
  -- a task in `condvar_wait` that runs or is ready stays so
  have hgo : ∀ x, c.wait x ≠ none → x ∈ ready ∨ x = c.sched.currentTask → x ∈ ready' ∨ x = k.sched.currentTask := by
    intro x hx hr
    have hpk : ¬ (op.Parks ∧ x = c.sched.currentTask) := fun ⟨hp, hc⟩ => hx (hc ▸ hparks hp)
    obtain ⟨hlive, hw, ha, hd⟩ : x ∈ c.live ∧ x ∉ c.waiting ∧ x ∉ asleep ∧ x ∉ dead := by
      rcases hr with hr | rfl
      · obtain ⟨h₁, h₂, h₃, h₄⟩ := h.base.task.places.of_ready hr
        exact ⟨h₁, fun hw => h₂ (List.mem_cons_of_mem _ hw), h₃, h₄⟩
      · obtain ⟨h₁, h₂, h₃⟩ := h.base.task.places.absent List.mem_cons_self
        exact ⟨h.base.task.places.mem_live List.mem_cons_self,
          fun hw => (h.base.task.off_waiting hw).1 rfl, h₂, h₃⟩
    exact hinv.ready_or_current ((hk.lives x hlive).resolve_right hd)
      (fun hw' => (hk.waits x hw').elim hw hpk) (fun ha' => (hk.sleeps x ha').elim ha hpk)
      fun hd' => (hk.dies x hd').elim hd hpk
  refine ⟨k, ready', asleep', dead', he, ⟨hinv, h.base.lists.congr fun j x hx => (hframe j x hx).1, hstill,
    h.base.last, h.base.count, h.base.le⟩, fun x k' m hx => ?_, fun x k' m hx => ?_, ?_⟩
  · have hx' : c.wait x = some (k', m, .waiting) := hx
    exact (h.waits.waiting x k' m hx').imp id (hgo x (by rw [hx']; exact Option.some_ne_none _))
  · have hx' : c.wait x = some (k', m, .acquiring) := hx
    exact (h.waits.acquiring x k' m hx').imp id fun hr => ⟨hgo x (by rw [hx']; exact Option.some_ne_none _) hr.1, hr.2⟩
  · change c.wait k.sched.idleTask = none
    rw [taskStep_idleTask h.base.task he]
    exact h.waits.idle

theorem Base.setWait (h : Base c ready asleep dead) (wait : ℕ → Option (ℕ × ℕ × Phase)) :
    Base { c with wait := wait } ready asleep dead :=
  ⟨h.task, h.lists, h.sub, h.last, h.count, h.le⟩

theorem acquired_wait (i : ℕ) (s : Sched) (x : Semaphore) : (c.acquired i s x).wait = c.wait := by
  unfold CondCfg.acquired
  split_ifs <;> rfl

/-- The step up to the return of the task that is resumed. -/
def Goes (c : CondCfg) (op : CondOp) : Prop :=
  ∃ c₁ ready asleep dead, condStep c op = some c₁.resume ∧ Base c₁ ready asleep dead ∧ Waits c₁ ready ∧ Returns c c₁

theorem returns_of_eq (h : ∀ t, c.wait t ≠ none → c'.wait t = c.wait t) : Returns c c' := fun t k m p ht =>
  .inl ⟨p, (h t (by rw [ht]; exact Option.some_ne_none _)).trans ht⟩

theorem CondInv.acquire (h : CondInv c ready asleep dead) (hl : (CondOp.acquire i).Legal c) :
    Goes c (.acquire i) := by
  obtain ⟨hne, hnone⟩ := hl
  obtain ⟨s, x, ready', he, hb, hm⟩ : ∃ s x ready', semaphoreAcquire c.sched (c.sem i) = some (s, x) ∧
      Base (c.acquired i s x) ready' asleep dead ∧ Moved c (c.acquired i s x) ready ready' := by
    by_cases hfree : (c.sem i).currentCount < (c.sem i).maxCount
    · obtain ⟨s, x, he, -, hb, hm⟩ := h.base.acquire_fast hne hfree
      exact ⟨s, x, ready, he, hb, hm⟩
    · exact h.base.acquire_slow hne hfree
  have hwait : ∀ x', (c.acquired i s x).wait x' = c.wait x' := fun x' => congrFun (acquired_wait i s x) x'
  refine ⟨_, ready', asleep, dead, by rw [condStep, he]; rfl, hb, ?_, returns_of_eq fun t _ => hwait t⟩
  refine h.waits.moved hm (fun x' _ => hwait x') ((hwait _).trans h.waits.idle) (fun k m hw => ?_) fun k m hw => ?_
  · rw [hwait, hnone] at hw
    cases hw
  · rw [hwait, hnone] at hw
    cases hw

theorem CondInv.reacquire (h : CondInv c ready asleep dead) (hl : (CondOp.reacquire k m).Legal c) :
    Goes c (.reacquire k m) := by
  have hcur : c.wait c.sched.currentTask = some (k, m, .waiting) := hl
  have hne : c.sched.currentTask ≠ c.sched.idleTask := fun e => by
    rw [e, h.waits.idle] at hcur
    cases hcur
  by_cases hfree : (c.sem m).currentCount < (c.sem m).maxCount
  · obtain ⟨s, x, he, hcur', hb, hm⟩ := h.base.acquire_fast hne hfree
    let wait := Function.update c.wait c.sched.currentTask none
    have hself : wait c.sched.currentTask = none := Function.update_self ..
    have hold : c.sched.currentTask ∈ (c.acquired m s x).hold m := by
      simp only [CondCfg.acquired, if_pos hfree, Function.update_self]
      exact List.mem_cons_self
    have hcur₁ : (c.acquired m s x).sched.currentTask = c.sched.currentTask := by
      simp only [CondCfg.acquired, if_pos hfree]
      exact hcur'
    refine ⟨{ c.acquired m s x with wait := wait }, ready, asleep, dead, ?_, hb.setWait wait, ?_,
      fun t k' m' p ht => ?_⟩
    · rw [condStep, he]
      simp only [Option.map_some, if_pos hfree]
      rfl
    · have hm' : Moved c { c.acquired m s x with wait := wait } _ _ := ⟨hm.ready, hm.list, hm.hold, hm.idle⟩
      refine h.waits.moved hm' (fun x' hx' => Function.update_of_ne hx' _ _)
        ((Function.update_of_ne hne.symm _ _).trans h.waits.idle) (fun k' m' hw => ?_) fun k' m' hw => ?_
      · exact absurd (hself.symm.trans hw) nofun
      · exact absurd (hself.symm.trans hw) nofun
    · by_cases htc : t = c.sched.currentTask
      · subst htc
        rw [hcur, Option.some.injEq, Prod.mk.injEq, Prod.mk.injEq] at ht
        obtain ⟨-, rfl, -⟩ := ht
        exact .inr ⟨hself, hcur₁.symm, hold⟩
      · exact .inl ⟨p, (Function.update_of_ne htc _ _).trans ht⟩
  · obtain ⟨s, x, ready', he, hb, hm⟩ := h.base.acquire_slow hne hfree
    let wait := Function.update c.wait c.sched.currentTask (some (k, m, Phase.acquiring))
    have hself : wait c.sched.currentTask = some (k, m, .acquiring) := Function.update_self ..
    have hqueue : c.sched.currentTask ∈ (c.acquired m s x).list (.inl m) := by
      simp only [CondCfg.acquired, if_neg hfree]
      exact mem_update_append.mpr (.inr ⟨rfl, rfl⟩)
    refine ⟨{ c.acquired m s x with wait := wait }, ready', asleep, dead, ?_, hb.setWait wait, ?_,
      fun t k' m' p ht => .inl ?_⟩
    · rw [condStep, he]
      simp only [Option.map_some, if_neg hfree]
      rfl
    · have hm' : Moved c { c.acquired m s x with wait := wait } _ _ := ⟨hm.ready, hm.list, hm.hold, hm.idle⟩
      refine h.waits.moved hm' (fun x' hx' => Function.update_of_ne hx' _ _)
        ((Function.update_of_ne hne.symm _ _).trans h.waits.idle) (fun k' m' hw => ?_) fun k' m' hw => ?_
      · exact absurd (hself.symm.trans hw) (by simp)
      · have heq := hself.symm.trans hw
        simp only [Option.some.injEq, Prod.mk.injEq] at heq
        exact heq.2.1 ▸ hqueue
    · by_cases htc : t = c.sched.currentTask
      · subst htc
        rw [hcur, Option.some.injEq, Prod.mk.injEq, Prod.mk.injEq] at ht
        obtain ⟨rfl, rfl, -⟩ := ht
        exact ⟨_, hself⟩
      · exact ⟨p, (Function.update_of_ne htc _ _).trans ht⟩

theorem CondInv.release (h : CondInv c ready asleep dead) (hl : (CondOp.release i).Legal c) :
    Goes c (.release i) := by
  obtain ⟨hhold, hnone⟩ := hl
  obtain ⟨s, x, ready', he, hb, hm⟩ := h.base.release hhold
  have hwait : ∀ x', (c.released i s x).wait x' = c.wait x' := fun x' => by rw [h.base.released_eq]
  refine ⟨_, ready', asleep, dead, by rw [condStep, he]; rfl, hb, ?_, returns_of_eq fun t _ => hwait t⟩
  refine h.waits.moved hm (fun x' _ => hwait x') ((hwait _).trans h.waits.idle) (fun k m hw => ?_) fun k m hw => ?_
  · rw [hwait, hnone] at hw
    cases hw
  · rw [hwait, hnone] at hw
    cases hw

theorem CondInv.wait (h : CondInv c ready asleep dead) (hl : (CondOp.wait k m).Legal c) :
    Goes c (.wait k m) := by
  obtain ⟨hne, hnone, hhold⟩ := hl
  obtain ⟨s, x, condvars', ready', he, hspec⟩ := h.base.wait hne hhold k
  let wait := Function.update c.wait c.sched.currentTask (some (k, m, Phase.waiting))
  have hself : wait c.sched.currentTask = some (k, m, .waiting) := Function.update_self ..
  obtain ⟨hb, hm, hmem⟩ := hspec wait
  refine ⟨_, ready', asleep, dead, by rw [condStep, he]; rfl, hb, ?_, returns_of_eq fun t ht => ?_⟩
  · refine h.waits.moved hm (fun x' hx' => Function.update_of_ne hx' _ _)
      ((Function.update_of_ne hne.symm _ _).trans h.waits.idle) (fun k' m' hw => ?_) fun k' m' hw => ?_
    · have heq := hself.symm.trans hw
      simp only [Option.some.injEq, Prod.mk.injEq] at heq
      exact heq.1 ▸ hmem
    · exact absurd (hself.symm.trans hw) (by simp)
  · refine Function.update_of_ne ?_ _ _
    rintro rfl
    exact ht hnone

theorem CondInv.signal (h : CondInv c ready asleep dead) (hl : (CondOp.signal k).Legal c) :
    Goes c (.signal k) := by
  obtain ⟨hne, hnone⟩ := hl
  obtain ⟨s, condvars', he, hcur, hid, -, hb⟩ := h.base.signal hne k
  refine ⟨_, _, asleep, dead, by rw [condStep, he]; rfl, hb, ?_, returns_of_eq fun t _ => rfl⟩
  refine h.waits.moved ⟨fun x hx => .inl (List.mem_append_right _ hx), fun j x hx => ?_, fun _ _ hx _ => hx, hid⟩
    (fun _ _ => rfl) h.waits.idle (fun k m hw => ?_) fun k m hw => ?_
  · by_cases hj : j = .inr k
    · subst hj
      exact .inr ⟨.inl (List.mem_append_left _ (List.mem_reverse.mpr hx)), fun i hi => by cases hi⟩
    · exact .inl (by simpa only [Function.update_of_ne hj] using hx)
  · exact absurd (hnone.symm.trans hw) nofun
  · exact absurd (hnone.symm.trans hw) nofun

/-- **One step.** -/
theorem CondInv.step {op : CondOp} (h : CondInv c ready asleep dead) (hl : op.Legal c) : Goes c op := by
  cases op with
  | task op =>
    obtain ⟨k, ready', asleep', dead', he, hb, hw⟩ := h.other hl
    exact ⟨_, ready', asleep', dead', by rw [condStep, he]; rfl, hb, hw, returns_of_eq fun _ _ => rfl⟩
  | acquire i => exact h.acquire hl
  | release i => exact h.release hl
  | wait k m => exact h.wait hl
  | reacquire k m => exact h.reacquire hl
  | signal k => exact h.signal hl

/-! ## Runs -/

theorem condInv_boot {kernel cleaner idle : ℕ} (hnodup : [kernel, cleaner, idle].Nodup)
    (hnull : 0 ∉ [kernel, cleaner, idle]) (next : ℕ → ℕ) (state : ℕ → TaskState)
    (wakeUpTime maxCount : ℕ → ℕ) :
    CondInv (condBoot kernel cleaner idle next state wakeUpTime maxCount) [idle] [] [] := by
  refine ⟨⟨taskInv_boot hnodup hnull next state wakeUpTime, ⟨fun j => ?_, fun _ _ _ hx => absurd hx List.not_mem_nil⟩,
    fun _ _ hx => absurd hx List.not_mem_nil, fun _ l e he => by simp [condBoot] at he, fun _ => rfl,
    fun _ => Nat.zero_le _⟩, ⟨fun _ _ _ => nofun, fun _ _ _ => nofun, rfl⟩, fun _ _ => nofun⟩
  cases j <;> rfl

theorem CondInv.move {op : CondOp} (h : CondInv c ready asleep dead) (hm : CondMove c op c') :
    (∃ ready' asleep' dead', CondInv c' ready' asleep' dead') ∧ Returns c c' := by
  obtain ⟨hl, he⟩ := hm
  obtain ⟨c₁, ready', asleep', dead', he₁, hb, hw, hr⟩ := h.step hl
  obtain ⟨hinv, hsched, hhold, hr'⟩ := condInv_resume hb hw
  rw [he, Option.some.injEq] at he₁
  subst he₁
  refine ⟨⟨ready', asleep', dead', hinv⟩, fun t k m p ht => ?_⟩
  rcases hr t k m p ht with ⟨p', ht'⟩ | ⟨hnone, hcur, hown⟩
  · exact hr' t k m p' ht'
  · refine .inr ⟨?_, hsched ▸ hcur, hhold ▸ hown⟩
    rcases resume_cases c₁ with ⟨k', m', hacq, -⟩ | ⟨-, heq⟩
    · rw [← hcur, hnone] at hacq
      cases hacq
    · rw [heq]
      exact hnone

theorem CondInv.run {ops : List CondOp} (h : ∃ ready asleep dead, CondInv c ready asleep dead)
    (hrun : Run CondMove c ops c') : ∃ ready asleep dead, CondInv c' ready asleep dead := by
  refine hrun.invariant (I := fun c => ∃ ready asleep dead, CondInv c ready asleep dead) ?_ h
  rintro c op c' ⟨_, _, _, h⟩ hm
  exact (h.move hm).1

theorem CondInv.place {p : Phase} (h : CondInv c ready asleep dead) (ht : c.wait t = some (k, m, p)) :
    [c.sched.currentTask].count t + ready.count t + (c.list (.inr k)).count t + (c.list (.inl m)).count t = 1 := by
  have hone : ∀ j, t ∈ c.list j → (c.list j).count t = 1 := fun j hj =>
    List.count_eq_one_of_mem (h.base.lists.linked j).nodup hj
  have hoff : ∀ j, t ∈ ready ∨ t = c.sched.currentTask → (c.list j).count t = 0 := fun j hr => by
    refine List.count_eq_zero.mpr fun hj => ?_
    rcases hr with hr | rfl
    · exact (h.base.task.places.of_ready hr).2.1 (List.mem_cons_of_mem _ (h.base.sub j t hj))
    · exact h.base.current j hj
  have hrun : t ∈ ready ∨ t = c.sched.currentTask → [c.sched.currentTask].count t + ready.count t = 1 := fun hr => by
    rcases hr with hr | rfl
    · have hne : c.sched.currentTask ≠ t := fun e =>
        (h.base.task.places.of_ready hr).2.1 (e ▸ List.mem_cons_self)
      rw [List.count_eq_one_of_mem h.base.task.places.onReady.nodup hr, List.count_singleton,
        beq_false_of_ne hne]
      rfl
    · rw [List.count_eq_zero.mpr (h.base.task.places.absent List.mem_cons_self).1, List.count_singleton_self]
  have hwait : ∀ j, t ∈ c.list j → [c.sched.currentTask].count t + ready.count t = 0 := fun j hj => by
    have hne : c.sched.currentTask ≠ t := fun e => h.base.current j (e ▸ hj)
    have hr : t ∉ ready := fun hr => (h.base.task.places.of_ready hr).2.1 (List.mem_cons_of_mem _ (h.base.sub j t hj))
    rw [List.count_eq_zero.mpr hr, List.count_singleton, beq_false_of_ne hne]
    rfl
  have hother : ∀ j j', j ≠ j' → t ∈ c.list j → (c.list j').count t = 0 := fun j j' hj ht' =>
    List.count_eq_zero.mpr fun ht'' => hj (h.base.lists.apart j j' t ht' ht'')
  rcases (by cases p with
      | waiting => exact (h.waits.waiting t k m ht).imp id .inr
      | acquiring => exact (h.waits.acquiring t k m ht).elim (fun hl => .inr (.inl hl)) fun hr => .inr (.inr hr.1) :
      t ∈ c.list (.inr k) ∨ t ∈ c.list (.inl m) ∨ t ∈ ready ∨ t = c.sched.currentTask) with hl | hq | hr
  · rw [hwait _ hl, hone _ hl, hother _ (.inl m) (fun e => by cases e) hl]
  · rw [hwait _ hq, hone _ hq, hother _ (.inr k) (fun e => by cases e) hq]
  · rw [hrun hr, hoff _ hr, hoff _ hr]

/-- The kernel task at address 1, the cleaner at 2 and the idle task at 3; mutexes. -/
def demoBoot : CondCfg := condBoot 1 2 3 (fun _ => 0) (fun _ => .available) (fun _ => 0) fun _ => 1

end BulbOS.Cond
