import Mathlib.Logic.Relation
import BulbOS.Switch.Balance

/-!
# Calls as straight-line code

`BulbOS.Task` models a call that may switch as straight-line code: what is left after the switch is
done by the task switched to. Here the calls of the machine are shown to do just that: from a balanced
state a call ends in the state that the straight-line function computes, either back in its own task or,
after a switch, past the `task_unlock_scheduler` of the other one.

* `taskUnlock_goes`, `taskBlock_goes`, `taskUnblock_goes`, `taskForceSwitch_goes`.
-/

namespace BulbOS.Switch

open BulbOS.Task BulbOS.Sem

/-- The code goes on. -/
def Goes : Machine → Machine → Prop := Relation.ReflTransGen fun m m' => m.step = some m'

/-- A call made in `m` with `rest` after it has ended in `m'`. -/
structure Ended (m : Machine) (rest : List Instr) (m' : Machine) : Prop where
  sems : m'.sems = m.sems
  condvars : m'.condvars = m.condvars
  ends : m'.code = rest ∧ m'.stack = m.stack ∨
    m'.stack = Function.update m.stack m.sched.currentTask (some (.unlockScheduler :: rest)) ∧
      m'.stack m'.sched.currentTask = some (.unlockScheduler :: m'.code)

/-- The code after the call goes on from `m` to a state with the straight-line `result`. -/
def GoesTo (m : Machine) (rest : List Instr) (result : Option Sched) : Prop :=
  ∃ m', Goes m m' ∧ result = some m'.sched ∧ Ended m rest m'

variable {m : Machine} {rest : List Instr} {task : ℕ}

theorem GoesTo.step {i : Instr} {code : List Instr} {sched : Sched} {result : Option Sched}
    (hcode : m.code = i :: code) {code' : List Instr}
    (hexec : { m with code := code }.exec i = some { m with sched := sched, code := code' })
    (hcurrent : sched.currentTask = m.sched.currentTask)
    (h : GoesTo { m with sched := sched, code := code' } rest result) : GoesTo m rest result := by
  obtain ⟨m', hgoes, hresult, hended⟩ := h
  refine ⟨m', .head ?_ hgoes, hresult, hended.sems, hended.condvars, ?_⟩
  · rw [Machine.step, hcode]
    exact hexec
  · rw [← hcurrent]
    exact hended.ends

theorem unlock_step (h : Balanced m) (hcode : m.code = .unlockScheduler :: rest) :
    ∃ s, taskUnlockScheduler m.sched = some s ∧ s.currentTask = m.sched.currentTask ∧
      m.step = some { m with sched := s, code := rest } := by
  obtain ⟨held, hlock, hfits⟩ := h.counters
  rw [hcode] at hfits
  obtain rfl : held = true := hfits.1
  have hs : taskUnlockScheduler m.sched =
      some { m.sched with scheduleLockCounter := m.sched.scheduleLockCounter - 1 } :=
    if_neg (by rw [hlock]; exact Nat.succ_ne_zero _)
  refine ⟨_, hs, rfl, ?_⟩
  rw [Machine.step, hcode]
  simp only [Machine.exec, hs, Option.map_some]

theorem goesTo_unlock (h : Balanced m) (hcode : m.code = .unlockScheduler :: rest) :
    GoesTo m rest (taskUnlockScheduler m.sched) := by
  obtain ⟨s, hs, _, hstep⟩ := unlock_step h hcode
  exact ⟨_, .single hstep, hs, rfl, rfl, .inl ⟨rfl, rfl⟩⟩

theorem goesTo_switch (h : Balanced m) (hcode : m.code = .switch task :: .unlockScheduler :: rest) :
    GoesTo m rest (taskUnlockScheduler (taskSwitch m.sched task)) := by
  obtain ⟨m₁, hexec, hb⟩ := h.exec_balanced hcode
  let stack := Function.update m.stack m.sched.currentTask (some (.unlockScheduler :: rest))
  have hm₁ : (stack task).map (fun code => { m with sched := taskSwitch m.sched task, code := code, stack := stack })
      = some m₁ := hexec
  obtain ⟨code, hstack, rfl⟩ := Option.map_eq_some_iff.mp hm₁
  obtain ⟨held, hlock, hfits⟩ := h.counters
  rw [hcode] at hfits
  obtain ⟨hp, rfl⟩ := Prod.mk.inj hfits.1.2.1
  obtain ⟨code', rfl⟩ : ∃ code', code = .unlockScheduler :: code' := by
    by_cases e : task = m.sched.currentTask
    · rw [e] at hstack
      simp only [stack, Function.update_self, Option.some.injEq] at hstack
      exact ⟨rest, hstack.symm⟩
    · simp only [stack, Function.update_of_ne e] at hstack
      obtain ⟨code', hcode', _⟩ := h.suspended task e code hstack
      exact ⟨code', hcode'⟩
  obtain ⟨s, hs, hcurrent, hstep⟩ := unlock_step hb rfl
  refine ⟨_, .head ?_ (.single hstep), hs, rfl, rfl, .inr ⟨rfl, ?_⟩⟩
  · rw [Machine.step, hcode]
    exact hexec
  · change stack s.currentTask = _
    rw [hcurrent]
    exact hstack

theorem goesTo_switchWrapper (h : Balanced m)
    (hcode : m.code = .switchWrapper task :: .unlockScheduler :: rest) :
    GoesTo m rest (taskUnlockScheduler (taskSwitchWrapper m.sched task)) := by
  obtain ⟨m₁, hexec, hb⟩ := h.exec_balanced hcode
  have hm₁ : { m with code := .unlockScheduler :: rest }.switchWrapper task = m₁ := Option.some.inj hexec
  subst hm₁
  by_cases hp : m.sched.postponeSwitchCounter = 0
  · simp only [Machine.switchWrapper, if_neg (not_not.mpr hp)] at hexec hb
    rw [taskSwitchWrapper, if_neg (not_not.mpr hp)]
    refine .step hcode hexec ?_ (goesTo_switch hb rfl)
    dsimp only
    split_ifs <;> rfl
  · simp only [Machine.switchWrapper, if_pos hp] at hexec hb
    rw [taskSwitchWrapper, if_pos hp]
    exact .step hcode hexec rfl (goesTo_unlock hb rfl)

theorem goesTo_schedule (h : Balanced m) (hcode : m.code = .schedule :: .unlockScheduler :: rest) :
    GoesTo m rest (taskUnlockScheduler (taskSchedule m.sched)) := by
  obtain ⟨m₁, hexec, hb⟩ := h.exec_balanced hcode
  have hm₁ : { m with code := .unlockScheduler :: rest }.schedule = m₁ := Option.some.inj hexec
  subst hm₁
  rw [Machine.schedule] at hexec hb
  rw [taskSchedule]
  dsimp only at hexec hb ⊢
  split_ifs at hexec hb ⊢
  · exact .step hcode hexec rfl (goesTo_unlock hb rfl)
  · exact .step hcode hexec rfl (goesTo_unlock hb rfl)
  · exact .step hcode hexec rfl (goesTo_switchWrapper hb rfl)
  · exact .step hcode hexec rfl (goesTo_unlock hb rfl)
  · exact .step hcode hexec rfl (goesTo_switchWrapper hb rfl)
  · exact .step hcode hexec rfl (goesTo_switchWrapper hb rfl)

/-! ## The calls -/

/-- **`task_unlock`**, also where it makes the postponed switch. -/
theorem taskUnlock_goes (h : Balanced m) (hcode : m.code = .call .taskUnlock :: rest) :
    GoesTo m rest (taskUnlock m.sched) := by
  obtain ⟨m₁, hexec, hb₁⟩ := h.exec_balanced hcode
  cases hexec
  refine .step hcode rfl rfl ?_
  obtain ⟨m₂, hexec, hb₂⟩ := hb₁.exec_balanced rfl
  have hm₂ := hexec
  rw [Machine.exec] at hm₂
  rw [taskUnlock]
  by_cases hflag : dec32 m.sched.postponeSwitchCounter = 0 ∧ m.sched.postponeSwitchFlag
  · cases (if_pos hflag).symm.trans hm₂
    simp only [if_pos hflag]
    exact .step rfl hexec rfl (goesTo_schedule hb₂ rfl)
  · cases (if_neg hflag).symm.trans hm₂
    simp only [if_neg hflag]
    exact .step rfl hexec rfl (goesTo_unlock hb₂ rfl)

/-- **`task_block`.** -/
theorem taskBlock_goes (h : Balanced m) {reason : TaskState} (hcode : m.code = .call (.taskBlock reason) :: rest) :
    GoesTo m rest (taskBlock m.sched reason) := by
  obtain ⟨m₁, hexec, hb₁⟩ := h.exec_balanced hcode
  cases hexec
  obtain ⟨m₂, hexec, hb₂⟩ := hb₁.exec_balanced rfl
  cases hexec
  obtain ⟨m₃, hexec, hb₃⟩ := hb₂.exec_balanced rfl
  cases hexec
  exact .step hcode rfl rfl (.step rfl rfl rfl (.step rfl rfl rfl (goesTo_schedule hb₃ rfl)))

/-- **`task_unblock`.** -/
theorem taskUnblock_goes (h : Balanced m) (hcode : m.code = .call (.taskUnblock task) :: rest) :
    GoesTo m rest (taskUnblock m.sched task) := by
  obtain ⟨m₁, hexec, hb₁⟩ := h.exec_balanced hcode
  cases hexec
  obtain ⟨m₂, hexec, hb₂⟩ := hb₁.exec_balanced rfl
  cases hexec
  refine .step hcode rfl rfl (.step rfl rfl rfl ?_)
  obtain ⟨m₃, hexec, hb₃⟩ := hb₂.exec_balanced rfl
  have hm₃ := hexec
  rw [Machine.exec] at hm₃
  rw [taskUnblock]
  by_cases hsw : m.sched.scheduleTasks = 0 ∨ m.sched.currentTask = m.sched.idleTask
  · cases (if_pos hsw).symm.trans hm₃
    refine .step rfl hexec rfl ?_
    exact (congrArg _ (congrArg _ (if_pos hsw))).mpr (goesTo_switchWrapper hb₃ rfl)
  · cases (if_neg hsw).symm.trans hm₃
    refine .step rfl hexec rfl ?_
    exact (congrArg _ (congrArg _ (if_neg hsw))).mpr (goesTo_unlock hb₃ rfl)

/-- **`task_force_switch`.** -/
theorem taskForceSwitch_goes (h : Balanced m) (hcode : m.code = .call (.taskForceSwitch task) :: rest) :
    GoesTo m rest (taskForceSwitch m.sched task) := by
  obtain ⟨m₁, hexec, hb₁⟩ := h.exec_balanced hcode
  cases hexec
  obtain ⟨m₂, hexec, hb₂⟩ := hb₁.exec_balanced rfl
  cases hexec
  obtain ⟨m₃, hexec, hb₃⟩ := hb₂.exec_balanced rfl
  cases hexec
  exact .step hcode rfl rfl (.step rfl rfl rfl (.step rfl rfl rfl (goesTo_switchWrapper hb₃ rfl)))

end BulbOS.Switch
