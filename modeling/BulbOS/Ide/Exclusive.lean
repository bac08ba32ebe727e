import BulbOS.Ide.Program
import BulbOS.Lib.Run

/-!
# Reads of the disk, one at a time

`actual_disk_req`, `prd_table` and `ide_mem_buffer` belong to whoever entered `ide_access_disk` last.
A task that enters only when no other is inside gets the bytes of its block.

* `OtherReady`: `task_block` has a task to switch to, and does not return at once;
* `Progress`, `DiskInv`: where the task inside is;
* `Progress.exec`: a step of that task; `Programmed.irq`: the interrupt of its command;
* **`disk_reads_exclusive`**: all runs; `completion_wakes_other`: two tasks inside.
-/

namespace BulbOS.Ide

open KLib BulbOS.Task

variable {t : ℕ} {r : BlockRead} {s : IdeState}

/-- The command of task `t` is written; the task may have blocked. -/
structure Flight (c : DiskSys) (t : ℕ) (r : BlockRead) (served : Bool) : Prop where
  cmd : Programmed c.ide t r served
  load : served = true → Loaded c.ide r
  woken : c.woken = []
  place : c.code t = .block :: copyCode r 0 ∧ c.waiting = [] ∨ c.code t = copyCode r 0 ∧ c.waiting = [t]

/-- Where task `t`, which entered `ide_access_disk`, is. -/
inductive Progress (c : DiskSys) (t : ℕ) (r : BlockRead) : Prop
  /-- It programs the controller. -/
  | programming (s₀ : IdeState) (pre suf : List Instr) (h₀ : NoCommands s₀) (htask : s₀.reqTask = t)
      (hdevice : s₀.reqDevice = r.device) (hsplit : tableCode r ++ registerCode r = pre ++ suf)
      (hcode : c.code t = suf ++ commandCode r :: .block :: copyCode r 0)
      (hide : c.ide = pre.foldl (ideExec t) s₀) (hwaiting : c.waiting = []) (hwoken : c.woken = [])
  /-- Its command is written. -/
  | flight (served : Bool) (h : Flight c t r served)
  /-- Its command is completed and it has not left `task_block`. -/
  | completed (hcmd : NoCommands c.ide) (hload : Loaded c.ide r)
      (hplace : c.code t = .block :: copyCode r 0 ∧ c.waiting = [] ∧ c.woken.Sublist [t] ∨
        c.code t = copyCode r 0 ∧ c.waiting = [t] ∧ c.woken = [])
  /-- It has copied `j` bytes. -/
  | copying (j : ℕ) (hcmd : NoCommands c.ide) (hload : Loaded c.ide r) (hj : j ≤ r.size)
      (hcode : c.code t = copyCode r j)
      (hbytes : ∀ i < j, c.buffer t i = c.ide.disk r.device (r.block * r.size + i))
      (hwaiting : c.waiting = []) (hwoken : c.woken = [])

/-- A task has not started, or it has the bytes of its block. -/
def Outside (reads : ℕ → Option BlockRead) (c : DiskSys) (t : ℕ) : Prop :=
  c.code t = ((reads t).bind fun r => bioRead r.device r.block r.size).getD [] ∨
    ∃ r, reads t = some r ∧ c.code t = [] ∧
      ∀ i < r.size, c.buffer t i = c.ide.disk r.device (r.block * r.size + i)

structure DiskInv (reads : ℕ → Option BlockRead) (disk : ℕ → ℕ → UInt8) (c : DiskSys) : Prop where
  same : c.ide.disk = disk
  awake : c.sched.currentTask ∉ c.waiting
  outside : ∀ t ∉ c.inside, Outside reads c t
  inside : c.inside = [] ∧ NoCommands c.ide ∧ c.waiting = [] ∧ c.woken = [] ∨
    ∃ t r, c.inside = [t] ∧ reads t = some r ∧ Progress c t r

/-- The next access enters `ide_access_disk`. -/
def enters : List Instr → Bool
  | .request _ :: _ => true
  | _ => false

/-- A task enters `ide_access_disk` only when no other is inside. -/
def DiskOp.Exclusive (c : DiskSys) : DiskOp → Prop
  | .task _ _ _ => enters (c.code c.sched.currentTask) = true → c.inside = []
  | _ => True

/-- The next access is `task_block`. -/
def blocks : List Instr → Bool
  | .block :: _ => true
  | _ => false

/-- Another task is ready, and switches are not postponed. -/
structure OtherReady (s : Sched) : Prop where
  free : s.postponeSwitchCounter = 0
  ready : s.scheduleTasks ≠ 0
  other : s.scheduleTasks ≠ s.currentTask
  behind : s.scheduleTasks = s.idleTask → s.next s.idleTask ≠ s.currentTask

/-- A task blocks only when another one is ready, or its wake-up has come before. -/
def DiskOp.Suspends (c : DiskSys) : DiskOp → Prop
  | .task _ _ _ =>
    blocks (c.code c.sched.currentTask) = true → c.sched.currentTask ∈ c.woken ∨ OtherReady c.sched
  | _ => True

theorem switched_current {s : Sched} {task : ℕ} (h : s.postponeSwitchCounter = 0) :
    (taskSwitchWrapper s task).currentTask = task := by
  rw [taskSwitchWrapper, if_neg (not_not.mpr h)]
  rfl

theorem OtherReady.block {s s' : Sched} (h : OtherReady s) {reason : TaskState} (hr : reason ≠ .running)
    (hs : taskBlock s reason = some s') : s'.currentTask ≠ s.currentTask := by
  rw [taskBlock, taskUnlockScheduler, Option.ite_none_left_eq_some] at hs
  obtain ⟨-, hs⟩ := hs
  obtain rfl := Option.some.inj hs
  have hstate : Function.update s.state s.currentTask reason s.currentTask ≠ .running := by
    rwa [Function.update_self]
  simp only [taskSchedule, taskLockScheduler, h.free, h.ready, hstate, ne_eq, not_true_eq_false, if_false]
  split_ifs with hidle hnext
  · rw [switched_current rfl]
    exact h.other
  · rw [switched_current rfl, hidle]
    exact h.behind hidle
  · rw [switched_current rfl]
    exact h.other

variable {c c' : DiskSys} {reads : ℕ → Option BlockRead} {disk : ℕ → ℕ → UInt8}

theorem Outside.frame {u : ℕ} (h : Outside reads c u) (hcode : c'.code u = c.code u)
    (hbuf : c'.buffer u = c.buffer u) (hdisk : c'.ide.disk = c.ide.disk) : Outside reads c' u := by
  rw [Outside, hcode, hbuf, hdisk]
  exact h

theorem exec_plain {status start now : ℕ} {i : Instr} {rest : List Instr} (hi : i.Plain)
    (h : c.exec t status start now i rest = some c') :
    c'.buffer = c.buffer ∧ c'.inside = c.inside ∧ c'.waiting = c.waiting ∧ c'.woken = c.woken ∧
      (c'.code = Function.update c.code t rest ∧ c'.ide = ideExec t c.ide i ∨
        c'.code = c.code ∧ c'.ide = c.ide) := by
  cases i with
  | prdt | prd | write =>
    simp only [DiskSys.exec, Option.some.injEq] at h
    subst h
    exact ⟨rfl, rfl, rfl, rfl, .inl ⟨rfl, rfl⟩⟩
  | poll channel =>
    simp only [DiskSys.exec, Option.some.injEq] at h
    subst h
    split_ifs
    · exact ⟨rfl, rfl, rfl, rfl, .inl ⟨rfl, rfl⟩⟩
    · exact ⟨rfl, rfl, rfl, rfl, .inr ⟨rfl, rfl⟩⟩
  | sleep ms =>
    simp only [DiskSys.exec, Option.bind_eq_bind, Option.bind_eq_some_iff, Option.pure_def,
      Option.some.injEq] at h
    obtain ⟨_, _, rfl⟩ := h
    exact ⟨rfl, rfl, rfl, rfl, .inl ⟨rfl, rfl⟩⟩
  | _ => exact hi.elim

/-- An access changes no disk, and neither the code nor the buffer of another task. -/
theorem exec_frame {status start now : ℕ} {i : Instr} {rest : List Instr}
    (h : c.exec t status start now i rest = some c') :
    c'.ide.disk = c.ide.disk ∧ ∀ u ≠ t, c'.code u = c.code u ∧ c'.buffer u = c.buffer u := by
  have hcode : ∀ u ≠ t, Function.update c.code t rest u = c.code u :=
    fun u hu => Function.update_of_ne hu _ _
  cases i with
  | request | prdt | prd | write | fill | valid =>
    simp only [DiskSys.exec, Option.some.injEq] at h
    subst h
    exact ⟨rfl, fun u hu => ⟨hcode u hu, rfl⟩⟩
  | poll =>
    simp only [DiskSys.exec, Option.some.injEq] at h
    subst h
    split_ifs
    · exact ⟨rfl, fun u hu => ⟨hcode u hu, rfl⟩⟩
    · exact ⟨rfl, fun u hu => ⟨rfl, rfl⟩⟩
  | sleep =>
    simp only [DiskSys.exec, Option.bind_eq_bind, Option.bind_eq_some_iff, Option.pure_def,
      Option.some.injEq] at h
    obtain ⟨_, _, rfl⟩ := h
    exact ⟨rfl, fun u hu => ⟨hcode u hu, rfl⟩⟩
  | block =>
    simp only [DiskSys.exec, Option.bind_eq_bind, Option.bind_eq_some_iff] at h
    obtain ⟨_, _, h⟩ := h
    split_ifs at h
    all_goals
      rw [Option.pure_def, Option.some.injEq] at h
      subst h
      exact ⟨rfl, fun u hu => ⟨hcode u hu, rfl⟩⟩
  | copy =>
    simp only [DiskSys.exec, Option.some.injEq] at h
    subst h
    exact ⟨rfl, fun u hu => ⟨hcode u hu, Function.update_of_ne hu _ _⟩⟩

/-- The task inside is outside again, with the bytes of its block. -/
structure Finished (c : DiskSys) (t : ℕ) (r : BlockRead) : Prop where
  inside : c.inside = []
  commands : NoCommands c.ide
  waiting : c.waiting = []
  woken : c.woken = []
  code : c.code t = []
  bytes : ∀ i < r.size, c.buffer t i = c.ide.disk r.device (r.block * r.size + i)

variable {status start now : ℕ} {i : Instr} {rest : List Instr}

theorem Progress.exec_programming {s₀ : IdeState} {pre suf : List Instr} (h₀ : NoCommands s₀)
    (htask : s₀.reqTask = t) (hdevice : s₀.reqDevice = r.device)
    (hsplit : tableCode r ++ registerCode r = pre ++ suf)
    (hcode : c.code t = suf ++ commandCode r :: .block :: copyCode r 0)
    (hide : c.ide = pre.foldl (ideExec t) s₀) (hwaiting : c.waiting = []) (hwoken : c.woken = [])
    (hr : r.Ok) (hc : c.code t = i :: rest) (h : c.exec t status start now i rest = some c') :
    c'.inside = c.inside ∧ Progress c' t r := by
  rw [hc] at hcode
  cases suf with
  | nil =>
    -- the command is written
    rw [List.append_nil] at hsplit
    rw [List.nil_append, List.cons.injEq] at hcode
    obtain ⟨rfl, rfl⟩ := hcode
    rw [commandCode, DiskSys.exec, Option.some.injEq] at h
    subst h
    refine ⟨rfl, .flight false ⟨?_, (fun e => Bool.noConfusion e), hwoken,
      .inl ⟨Function.update_self .., hwaiting⟩⟩⟩
    change Programmed (ideExec t c.ide (commandCode r)) t r false
    rw [hide, ← hsplit]
    exact programmed hr h₀ htask hdevice
  | cons j suf =>
    rw [List.cons_append, List.cons.injEq] at hcode
    obtain ⟨rfl, rfl⟩ := hcode
    have hplain : i.Plain := by
      have hmem : i ∈ tableCode r ++ registerCode r := by
        rw [hsplit]
        exact List.mem_append_right _ List.mem_cons_self
      rcases List.mem_append.mp hmem with hm | hm
      · exact tableCode_plain i hm
      · exact registerCode_plain i hm
    obtain ⟨_, hin, hw, hk, ⟨hc', hi'⟩ | ⟨hc', hi'⟩⟩ := exec_plain hplain h
    · refine ⟨hin, .programming s₀ (pre ++ [i]) suf h₀ htask hdevice ?_ ?_ ?_ (hw.trans hwaiting)
        (hk.trans hwoken)⟩
      · rw [hsplit, List.append_assoc, List.singleton_append]
      · rw [hc', Function.update_self]
      · rw [hi', hide, List.foldl_append]
        rfl
    · refine ⟨hin, .programming s₀ pre (i :: suf) h₀ htask hdevice hsplit ?_ (hi'.trans hide)
        (hw.trans hwaiting) (hk.trans hwoken)⟩
      rw [hc', hc]
      rfl

theorem exec_block (hsus : t ∈ c.woken ∨ ∀ s, taskBlock c.sched .ioRequest = some s → s.currentTask ≠ t)
    (h : c.exec t status start now .block rest = some c') :
    c'.ide = c.ide ∧ c'.inside = c.inside ∧ c'.buffer = c.buffer ∧ c'.code t = rest ∧
      (t ∈ c.woken ∧ c'.waiting = c.waiting ∧ c'.woken = c.woken.erase t ∨
        t ∉ c.woken ∧ c'.waiting = t :: c.waiting ∧ c'.woken = c.woken) := by
  simp only [DiskSys.exec, Option.bind_eq_bind, Option.bind_eq_some_iff] at h
  obtain ⟨s, hblock, h⟩ := h
  split_ifs at h with hm hcur
  · rw [Option.pure_def, Option.some.injEq] at h
    subst h
    exact ⟨rfl, rfl, rfl, Function.update_self .., .inl ⟨hm, rfl, rfl⟩⟩
  · exact absurd hcur (hsus.resolve_left hm s hblock)
  · rw [Option.pure_def, Option.some.injEq] at h
    subst h
    exact ⟨rfl, rfl, rfl, Function.update_self .., .inr ⟨hm, rfl, rfl⟩⟩

theorem copyCode_lt {j : ℕ} (hj : j < r.size) : copyCode r j = .copy j j :: copyCode r (j + 1) := by
  have : r.size - j = (r.size - (j + 1)) + 1 := by omega
  rw [copyCode, this, List.range'_succ]
  rfl

theorem copyCode_size : copyCode r r.size = [.valid] := by
  rw [copyCode, Nat.sub_self]
  rfl

theorem Progress.exec_copying {j : ℕ} (hcmd : NoCommands c.ide) (hload : Loaded c.ide r) (hj : j ≤ r.size)
    (hcode : c.code t = copyCode r j)
    (hbytes : ∀ i < j, c.buffer t i = c.ide.disk r.device (r.block * r.size + i))
    (hwaiting : c.waiting = []) (hwoken : c.woken = []) (hin : c.inside = [t])
    (hc : c.code t = i :: rest) (h : c.exec t status start now i rest = some c') :
    c'.inside = [t] ∧ Progress c' t r ∨ Finished c' t r := by
  rcases Nat.lt_or_eq_of_le hj with hlt | rfl
  · rw [hc, copyCode_lt hlt, List.cons.injEq] at hcode
    obtain ⟨rfl, rfl⟩ := hcode
    rw [DiskSys.exec, Option.some.injEq] at h
    subst h
    refine .inl ⟨hin, .copying (j + 1) hcmd hload hlt (Function.update_self ..) (fun x hx => ?_) hwaiting
      hwoken⟩
    dsimp only
    rw [Function.update_self]
    by_cases e : x = j
    · subst e
      rw [Function.update_self]
      exact hload x hlt
    · rw [Function.update_of_ne e]
      exact hbytes x (by omega)
  · rw [hc, copyCode_size, List.cons.injEq] at hcode
    obtain ⟨rfl, rfl⟩ := hcode
    rw [DiskSys.exec, Option.some.injEq] at h
    subst h
    refine .inr ⟨?_, hcmd, hwaiting, hwoken, Function.update_self .., hbytes⟩
    change c.inside.erase t = []
    rw [hin, List.erase_cons_head]

/-- **A step of the task inside.** -/
theorem Progress.exec (h : Progress c t r) (hr : r.Ok) (hin : c.inside = [t]) (hawake : t ∉ c.waiting)
    (hsus : i = .block → t ∈ c.woken ∨ ∀ s, taskBlock c.sched .ioRequest = some s → s.currentTask ≠ t)
    (hc : c.code t = i :: rest) (he : c.exec t status start now i rest = some c') :
    c'.inside = [t] ∧ Progress c' t r ∨ Finished c' t r := by
  cases h with
  | programming s₀ pre suf h₀ htask hdevice hsplit hcode hide hwaiting hwoken =>
    obtain ⟨h₁, h₂⟩ := Progress.exec_programming h₀ htask hdevice hsplit hcode hide hwaiting hwoken hr hc he
    exact .inl ⟨h₁.trans hin, h₂⟩
  | flight served h =>
    rcases h.place with ⟨hcode, hwaiting⟩ | ⟨_, hwaiting⟩
    · rw [hc, List.cons.injEq] at hcode
      obtain ⟨rfl, rfl⟩ := hcode
      obtain ⟨hide, hin', _, hcode, ⟨hm, _⟩ | ⟨_, hw, hk⟩⟩ := exec_block (hsus rfl) he
      · rw [h.woken] at hm
        cases hm
      · refine .inl ⟨hin'.trans hin, .flight served ⟨hide ▸ h.cmd, fun e => hide ▸ h.load e,
          hk.trans h.woken, .inr ⟨hcode, ?_⟩⟩⟩
        rw [hw, hwaiting]
    · rw [hwaiting] at hawake
      exact absurd List.mem_cons_self hawake
  | completed hcmd hload hplace =>
    rcases hplace with ⟨hcode, hwaiting, hsub⟩ | ⟨_, hwaiting, _⟩
    · rw [hc, List.cons.injEq] at hcode
      obtain ⟨rfl, rfl⟩ := hcode
      obtain ⟨hide, hin', _, hcode, ⟨hm, hw, hk⟩ | ⟨hm, hw, hk⟩⟩ := exec_block (hsus rfl) he
      · have hone : c.woken = [t] := by
          rcases List.sublist_singleton.mp hsub with e | e
          · rw [e] at hm
            cases hm
          · exact e
        refine .inl ⟨hin'.trans hin, .copying 0 (hide ▸ hcmd) (hide ▸ hload) (Nat.zero_le _) hcode
          (fun i hi => absurd hi (Nat.not_lt_zero i)) (hw.trans hwaiting) ?_⟩
        rw [hk, hone, List.erase_cons_head]
      · have hnone : c.woken = [] := by
          rcases List.sublist_singleton.mp hsub with e | e
          · exact e
          · rw [e] at hm
            exact absurd List.mem_cons_self hm
        refine .inl ⟨hin'.trans hin, .completed (hide ▸ hcmd) (hide ▸ hload) (.inr ⟨hcode, ?_, hk.trans hnone⟩)⟩
        rw [hw, hwaiting]
    · rw [hwaiting] at hawake
      exact absurd List.mem_cons_self hawake
  | copying j hcmd hload hj hcode hbytes hwaiting hwoken =>
    exact Progress.exec_copying hcmd hload hj hcode hbytes hwaiting hwoken hin hc he

/-! ## The system -/

/-- What a completion interrupt does when its command is that of the task that entered last. -/
structure Woken (c c' : DiskSys) (t : ℕ) : Prop where
  commands : NoCommands c'.ide
  disk : c'.ide.disk = c.ide.disk
  mem : c'.ide.memBuffer = c.ide.memBuffer
  sched : taskUnblock c.sched t = some c'.sched
  waiting : c'.waiting = c.waiting.erase t
  woken : c'.woken = if t ∈ c.waiting then c.woken else t :: c.woken
  same : c'.code = c.code ∧ c'.buffer = c.buffer ∧ c'.inside = c.inside

theorem setChan_noCommands {ch : ℕ} {x : Channel} (hx : x.commands = [])
    (h : ∀ ch' ≠ ch, (s.chan ch').commands = []) : NoCommands (s.setChan ch x) := by
  intro ch'
  rw [IdeState.setChan]
  dsimp only
  by_cases e : ch' = ch
  · rw [e, Function.update_self, hx]
  · rw [Function.update_of_ne e, h ch' e]

/-- **A completion interrupt** wakes the task whose command is completed. -/
theorem Programmed.irq {served : Bool} {ch : ℕ} (h : Programmed c.ide t r served)
    (hs : diskStep c (.irq ch) = some c') :
    served = true ∧ ch = deviceChannel r.device ∧ Woken c c' t := by
  have hcmd := h.commands ch
  rw [diskStep] at hs
  by_cases e : ch = deviceChannel r.device
  · rw [if_pos e] at hcmd
    subst e
    simp only [hcmd] at hs
    change (if served = true then _ else none) = _ at hs
    split_ifs at hs with hserved
    refine ⟨hserved, rfl, ?_⟩
    have hint := h.interrupt hserved
    let channel := deviceChannel r.device
    let s₁ := c.ide.setChan channel { c.ide.chan channel with commands := [] }
    have hn : NoCommands s₁ := setChan_noCommands rfl fun ch' hne => by rw [h.commands, if_neg hne]
    have hint₁ : (s₁.chan channel).interrupt = true := by
      simp only [s₁, IdeState.setChan, Function.update_self]
      exact hint
    have hdev : s₁.reqDevice = r.device := h.device
    have htask : s₁.reqTask = t := h.task
    change ideHandler { c with ide := s₁ } = some c' at hs
    rw [ideHandler] at hs
    simp only [hdev, htask] at hs
    rw [if_neg (by rw [hint₁]; decide)] at hs
    obtain ⟨sched, hsched, hs⟩ := Option.bind_eq_some_iff.mp hs
    have hn' : NoCommands (ideWrite (ideWrite s₁ t channel .busStat (1 <<< 2)) t channel .busCom 0) := by
      intro ch'
      rw [ideWrite, setChan_commands (out_commands (by decide) _), ideWrite,
        setChan_commands (out_commands (by decide) _)]
      exact hn ch'
    split_ifs at hs with hw
    · rw [Option.pure_def, Option.some.injEq] at hs
      subst hs
      exact ⟨hn', rfl, rfl, hsched, rfl, (if_pos hw).symm, rfl, rfl, rfl⟩
    · rw [Option.pure_def, Option.some.injEq] at hs
      subst hs
      exact ⟨hn', rfl, rfl, hsched, rfl, (if_neg hw).symm, rfl, rfl, rfl⟩
  · rw [if_neg e] at hcmd
    simp only [hcmd] at hs
    cases hs

theorem irq_none (h : NoCommands c.ide) (ch : ℕ) : diskStep c (.irq ch) = none := by
  rw [diskStep]
  simp only [h ch]

theorem Progress.code_ne_nil (h : Progress c t r) : c.code t ≠ [] := by
  have hcopy : ∀ j, copyCode r j ≠ [] := fun j => by simp [copyCode]
  cases h with
  | programming s₀ pre suf h₀ htask hdevice hsplit hcode => simp [hcode]
  | flight served h =>
    rcases h.place with ⟨hc, _⟩ | ⟨hc, _⟩
    · simp [hc]
    · rw [hc]
      exact hcopy 0
  | completed hcmd hload hplace =>
    rcases hplace with ⟨hc, _⟩ | ⟨hc, _⟩
    · simp [hc]
    · rw [hc]
      exact hcopy 0
  | copying j hcmd hload hj hcode =>
    rw [hcode]
    exact hcopy j

theorem Progress.noCommands_or (h : Progress c t r) :
    NoCommands c.ide ∨ ∃ served, Flight c t r served := by
  cases h with
  | programming s₀ pre suf h₀ htask hdevice hsplit hcode hide hwaiting hwoken =>
    left
    rw [hide]
    refine (foldl_plain (fun i hi => ?_) h₀).1
    have hmem : i ∈ tableCode r ++ registerCode r := by
      rw [hsplit]
      exact List.mem_append_left _ hi
    rcases List.mem_append.mp hmem with hm | hm
    · exact tableCode_plain i hm
    · exact registerCode_plain i hm
  | flight served h => exact .inr ⟨served, h⟩
  | completed hcmd => exact .inl hcmd
  | copying j hcmd => exact .inl hcmd

theorem DiskInv.noCommands_or (h : DiskInv reads disk c) :
    NoCommands c.ide ∨ ∃ t r served, c.inside = [t] ∧ reads t = some r ∧ Flight c t r served := by
  rcases h.inside with ⟨_, hn, _⟩ | ⟨t, r, hin, hr, hp⟩
  · exact .inl hn
  · rcases hp.noCommands_or with hn | ⟨served, hf⟩
    · exact .inl hn
    · exact .inr ⟨t, r, served, hin, hr, hf⟩

theorem DiskInv.enter (h : DiskInv reads disk c) (hreads : reads t = some r)
    (hin : c.inside = []) (hc : c.code t = .request r.device :: rest)
    (hcode : rest = (tableCode r ++ registerCode r) ++ commandCode r :: .block :: copyCode r 0)
    (he : c.exec t status start now (.request r.device) rest = some c')
    (hawake : c'.sched.currentTask ∉ c'.waiting) : DiskInv reads disk c' := by
  obtain ⟨hdisk, hframe⟩ := exec_frame he
  rw [DiskSys.exec, Option.some.injEq] at he
  subst he
  obtain ⟨_, hn, hw, hk⟩ | ⟨u, _, hu, _⟩ := h.inside
  · refine ⟨hdisk.trans h.same, hawake, fun u hu => ?_, .inr ⟨t, r, by rw [hin], hreads, ?_⟩⟩
    · have hut : u ≠ t := by
        rintro rfl
        exact hu List.mem_cons_self
      exact (h.outside u (by rw [hin]; exact List.not_mem_nil)).frame (hframe u hut).1 (hframe u hut).2 hdisk
    · exact .programming { c.ide with reqDevice := r.device, reqTask := t } []
        (tableCode r ++ registerCode r) hn rfl rfl rfl
        ((Function.update_self ..).trans hcode) rfl hw hk
  · rw [hin] at hu
    cases hu

theorem DiskInv.task (h : DiskInv reads disk c) (hok : ∀ t r, reads t = some r → r.Ok)
    (hex : (DiskOp.task status start now).Exclusive c) (hsus : (DiskOp.task status start now).Suspends c)
    (hs : diskStep c (.task status start now) = some c')
    (hawake : c'.sched.currentTask ∉ c'.waiting) : DiskInv reads disk c' := by
  rw [diskStep] at hs
  rw [DiskOp.Exclusive] at hex
  rw [DiskOp.Suspends] at hsus
  obtain ⟨t, ht⟩ : ∃ t, t = c.sched.currentTask := ⟨_, rfl⟩
  rw [← ht] at hs hex hsus
  rcases hc : c.code t with _ | ⟨i, rest⟩
  · simp only [hc] at hs
    cases hs
  simp only [hc] at hs hex hsus
  obtain ⟨hdisk, hframe⟩ := exec_frame hs
  by_cases hmem : t ∈ c.inside
  · obtain ⟨hin, _⟩ | ⟨u, r, hin, hr, hp⟩ := h.inside
    · rw [hin] at hmem
      cases hmem
    obtain rfl : t = u := by
      rw [hin, List.mem_singleton] at hmem
      exact hmem
    have hother : ∀ u ≠ t, Outside reads c' u := fun u hu =>
      (h.outside u (by rw [hin, List.mem_singleton]; exact hu)).frame (hframe u hu).1 (hframe u hu).2 hdisk
    have hblock : i = .block →
        t ∈ c.woken ∨ ∀ s, taskBlock c.sched .ioRequest = some s → s.currentTask ≠ t := by
      rintro rfl
      refine (hsus rfl).imp_right fun hready s hs => ?_
      rw [ht]
      exact hready.block (by decide) hs
    rcases hp.exec (hok t r hr) hin (ht ▸ h.awake) hblock hc hs with ⟨hin', hp'⟩ | hf
    · exact ⟨hdisk.trans h.same, hawake, fun u hu => hother u (by rw [hin', List.mem_singleton] at hu; exact hu),
        .inr ⟨t, r, hin', hr, hp'⟩⟩
    · refine ⟨hdisk.trans h.same, hawake, fun u _ => ?_, .inl ⟨hf.inside, hf.commands, hf.waiting, hf.woken⟩⟩
      by_cases hu : u = t
      · subst hu
        exact .inr ⟨r, hr, hf.code, hf.bytes⟩
      · exact hother u hu
  · rcases h.outside t hmem with hcode | ⟨_, _, hnil, _⟩
    · rcases hr : reads t with _ | r
      · rw [hr, hc] at hcode
        cases hcode
      · rw [hr, Option.bind_some, bioRead_eq (hok t r hr), Option.getD_some, hc, List.cons.injEq] at hcode
        obtain ⟨rfl, hrest⟩ := hcode
        exact h.enter hr (hex rfl) hc hrest hs hawake
    · rw [hc] at hnil
      cases hnil

theorem DiskInv.serve (h : DiskInv reads disk c) (hok : ∀ t r, reads t = some r → r.Ok) {ch : ℕ}
    (hs : diskStep c (.serve ch) = some c') : DiskInv reads disk c' := by
  obtain ⟨ide, hide, he⟩ := Option.bind_eq_some_iff.mp hs
  rw [Option.pure_def, Option.some.injEq] at he
  subst he
  rcases h.noCommands_or with hn | ⟨t, r, served, hin, hr, hf⟩
  · rw [serve_none hn] at hide
    cases hide
  cases served with
  | true =>
    exfalso
    rw [IdeState.serve, hf.cmd.commands] at hide
    split_ifs at hide
    simp [blockCommand] at hide
  | false =>
    obtain ⟨hcmd, hload, hdisk⟩ := hf.cmd.serve (hok t r hr) hide
    exact ⟨hdisk.trans h.same, h.awake, fun u hu => (h.outside u hu).frame rfl rfl hdisk,
      .inr ⟨t, r, hin, hr, .flight true ⟨hcmd, fun _ => hload, hf.woken, hf.place⟩⟩⟩

theorem DiskInv.irq (h : DiskInv reads disk c) {ch : ℕ} (hs : diskStep c (.irq ch) = some c')
    (hawake : c'.sched.currentTask ∉ c'.waiting) : DiskInv reads disk c' := by
  rcases h.noCommands_or with hn | ⟨t, r, served, hin, hr, hf⟩
  · rw [irq_none hn] at hs
    cases hs
  obtain ⟨hserved, _, hw⟩ := hf.cmd.irq hs
  obtain ⟨hcode, hbuf, hin'⟩ := hw.same
  have hload : Loaded c'.ide r := fun i hi => by
    rw [hw.mem, hw.disk]
    exact hf.load hserved i hi
  refine ⟨hw.disk.trans h.same, hawake, fun u hu => ?_, .inr ⟨t, r, hin'.trans hin, hr, ?_⟩⟩
  · rw [hin'] at hu
    exact (h.outside u hu).frame (by rw [hcode]) (by rw [hbuf]) hw.disk
  · rcases hf.place with ⟨hc, hwait⟩ | ⟨hc, hwait⟩
    · -- the interrupt came before `task_block`
      have hnot : t ∉ c.waiting := by
        rw [hwait]
        exact List.not_mem_nil
      refine .completed hw.commands hload (.inl ⟨by rw [hcode, hc], ?_, ?_⟩)
      · rw [hw.waiting, hwait]
        rfl
      · rw [hw.woken, if_neg hnot, hf.woken]
    · have hmem : t ∈ c.waiting := by
        rw [hwait]
        exact List.mem_cons_self
      refine .copying 0 hw.commands hload (Nat.zero_le _) (by rw [hcode, hc])
        (fun i hi => absurd hi (Nat.not_lt_zero i)) ?_ ?_
      · rw [hw.waiting, hwait, List.erase_cons_head]
      · rw [hw.woken, if_pos hmem, hf.woken]

theorem DiskInv.other (h : DiskInv reads disk c) {sched : Sched} {woken : List ℕ}
    (hl : woken.Sublist c.woken) (hs : diskStep c (.other sched woken) = some c')
    (hawake : c'.sched.currentTask ∉ c'.waiting) : DiskInv reads disk c' := by
  rw [diskStep, Option.some.injEq] at hs
  subst hs
  have hnil : c.woken = [] → woken = [] := fun e => by
    rw [e] at hl
    exact List.sublist_nil.mp hl
  refine ⟨h.same, hawake, h.outside, ?_⟩
  rcases h.inside with ⟨hin, hn, hw, hk⟩ | ⟨t, r, hin, hr, hp⟩
  · exact .inl ⟨hin, hn, hw, hnil hk⟩
  · refine .inr ⟨t, r, hin, hr, ?_⟩
    cases hp with
    | programming s₀ pre suf h₀ htask hdevice hsplit hcode hide hwaiting hwoken =>
      exact .programming s₀ pre suf h₀ htask hdevice hsplit hcode hide hwaiting (hnil hwoken)
    | flight served hf => exact .flight served ⟨hf.cmd, hf.load, hnil hf.woken, hf.place⟩
    | completed hcmd hload hplace =>
      refine .completed hcmd hload ?_
      rcases hplace with ⟨hc, hw, hk⟩ | ⟨hc, hw, hk⟩
      · exact .inl ⟨hc, hw, hl.trans hk⟩
      · exact .inr ⟨hc, hw, hnil hk⟩
    | copying j hcmd hload hj hcode hbytes hwaiting hwoken =>
      exact .copying j hcmd hload hj hcode hbytes hwaiting (hnil hwoken)

theorem DiskInv.step (h : DiskInv reads disk c) (hok : ∀ t r, reads t = some r → r.Ok) {op : DiskOp}
    (hs : DiskMove c op c') (hex : op.Exclusive c) (hsus : op.Suspends c) : DiskInv reads disk c' := by
  obtain ⟨hl, hs, hawake⟩ := hs
  cases op with
  | task => exact h.task hok hex hsus hs hawake
  | serve => exact h.serve hok hs
  | irq => exact h.irq hs hawake
  | other => exact h.other hl hs hawake

theorem diskInv_boot (sched : Sched) (buffer : ℕ → Mem) (h₀ : NoCommands s) :
    DiskInv reads s.disk (diskBoot sched s buffer reads) :=
  ⟨rfl, List.not_mem_nil, fun _ _ => .inl rfl, .inl ⟨rfl, h₀, rfl, rfl⟩⟩

/-- **Reads of the disk, one at a time.** In every run in which a task enters `ide_access_disk` only
when no other is between its entry and the end of its copy-out, and blocks only when another task is ready,
a task that has returned from `bio_read` has the bytes of its block, and a completion interrupt unblocks the
task that wrote the completed command. -/
theorem disk_reads_exclusive (sched : Sched) (buffer : ℕ → Mem) (h₀ : NoCommands s)
    (hok : ∀ t r, reads t = some r → r.Ok) {ops : List DiskOp}
    (h : Run (fun c op c' => DiskMove c op c' ∧ op.Exclusive c ∧ op.Suspends c)
      (diskBoot sched s buffer reads) ops c) :
    (∀ t r, reads t = some r → c.code t = [] →
      ∀ i < r.size, c.buffer t i = s.disk r.device (r.block * r.size + i)) ∧
    ∀ ch cmd rest c', (c.ide.chan ch).commands = cmd :: rest → DiskMove c (.irq ch) c' →
      c.ide.reqTask = cmd.issuer ∧ taskUnblock c.sched cmd.issuer = some c'.sched ∧
        cmd.issuer ∉ c'.waiting := by
  have hinv : DiskInv reads s.disk c :=
    h.invariant (fun _ _ _ hi hs => hi.step hok hs.1 hs.2.1 hs.2.2) (diskInv_boot sched buffer h₀)
  refine ⟨fun t r hr hc i hi => ?_, fun ch cmd rest c' hcmd hs => ?_⟩
  · have hnonempty := bioRead_eq (hok t r hr)
    by_cases hmem : t ∈ c.inside
    · exfalso
      obtain ⟨hin, _⟩ | ⟨u, r, hin, _, hp⟩ := hinv.inside
      · rw [hin] at hmem
        cases hmem
      · rw [hin, List.mem_singleton] at hmem
        exact hp.code_ne_nil (hmem ▸ hc)
    · rcases hinv.outside t hmem with hcode | ⟨r', hr', _, hbytes⟩
      · rw [hr, Option.bind_some, hnonempty, hc] at hcode
        cases hcode
      · obtain rfl : r = r' := Option.some.inj (hr.symm.trans hr')
        rw [← hinv.same]
        exact hbytes i hi
  · rcases hinv.noCommands_or with hn | ⟨t, r, served, hin, hr, hf⟩
    · rw [hn] at hcmd
      cases hcmd
    obtain ⟨_, rfl, hw⟩ := hf.cmd.irq hs.2.1
    have hcmd' := hf.cmd.commands (deviceChannel r.device)
    rw [if_pos rfl, hcmd, List.cons.injEq] at hcmd'
    obtain ⟨rfl, _⟩ := hcmd'
    refine ⟨hf.cmd.task, hw.sched, ?_⟩
    change t ∉ c'.waiting
    rw [hw.waiting]
    rcases hf.place with ⟨_, hwait⟩ | ⟨_, hwait⟩
    · simp [hwait]
    · simp [hwait]

instance (c : DiskSys) (op : DiskOp) : Decidable (op.Legal c) :=
  match op with
  | .other _ woken => inferInstanceAs (Decidable (woken.Sublist c.woken))
  | .task _ _ _ | .serve _ | .irq _ => inferInstanceAs (Decidable True)

instance (c : DiskSys) (op : DiskOp) : Decidable (op.Exclusive c) :=
  match op with
  | .task _ _ _ =>
    inferInstanceAs (Decidable (enters (c.code c.sched.currentTask) = true → c.inside = []))
  | .serve _ | .irq _ | .other _ _ => inferInstanceAs (Decidable True)

instance (s : Sched) : Decidable (OtherReady s) :=
  decidable_of_iff (s.postponeSwitchCounter = 0 ∧ s.scheduleTasks ≠ 0 ∧ s.scheduleTasks ≠ s.currentTask ∧
    (s.scheduleTasks = s.idleTask → s.next s.idleTask ≠ s.currentTask))
    ⟨fun h => ⟨h.1, h.2.1, h.2.2.1, h.2.2.2⟩, fun h => ⟨h.free, h.ready, h.other, h.behind⟩⟩

instance (c : DiskSys) (op : DiskOp) : Decidable (op.Suspends c) :=
  match op with
  | .task _ _ _ => inferInstanceAs (Decidable (blocks (c.code c.sched.currentTask) = true →
      c.sched.currentTask ∈ c.woken ∨ OtherReady c.sched))
  | .serve _ | .irq _ | .other _ _ => inferInstanceAs (Decidable True)

/-- Perform the steps in order; `none` if one is not a step of the system or does not meet `P`. -/
def diskExec (P : DiskSys → DiskOp → Prop) [∀ c op, Decidable (P c op)] (c : DiskSys) (ops : List DiskOp) :
    Option DiskSys :=
  ops.foldlM (fun c op => if op.Legal c ∧ P c op then
    (diskStep c op).filter fun c' => c'.sched.currentTask ∉ c'.waiting else none) c

theorem run_of_diskExec {P : DiskSys → DiskOp → Prop} [∀ c op, Decidable (P c op)] {ops : List DiskOp}
    (h : diskExec P c ops = some c') : Run (fun c op c' => DiskMove c op c' ∧ P c op) c ops c' := by
  refine run_of_foldlM (fun c op c' e => ?_) h
  by_cases hop : op.Legal c ∧ P c op
  · rw [if_pos hop, Option.filter_eq_some_iff] at e
    exact ⟨⟨hop.1, e.1, by simpa using e.2⟩, hop.2⟩
  · rw [if_neg hop] at e
    cases e

/-- An idle controller with a disk whose bytes tell their block. -/
def demoIde : IdeState where
  chan _ := ⟨fun _ => 0, fun _ => 0, 0, 0, false, false, []⟩
  prdTable _ := ⟨0, 0, 0⟩
  memBuffer _ := 0
  reqDevice := 0
  reqTask := 0
  disk _ a := UInt8.ofNat (a / 1024)

/-- Tasks 1 and 2 read different blocks; 1 runs, 2 and the idle task 3 are ready. -/
def demoReads : ℕ → Option BlockRead
  | 1 => some ⟨0, 5, 1024⟩
  | 2 => some ⟨0, 9, 1024⟩
  | _ => none

def demoSched (ready : ℕ) : Sched :=
  ⟨fun t => if t = 2 then 3 else 0, fun _ => .running, fun _ => 0, 1, ready, 0, 0, 4, 3, 0, 0, false, 10⟩

def demoBoot (ready : ℕ) : DiskSys := diskBoot (demoSched ready) demoIde (fun _ _ => 0) demoReads

def demoTask : DiskOp := .task 64 0 2000000

/-- Task 1 reads its block alone. -/
def demoAlone : List DiskOp :=
  List.replicate 25 demoTask ++ [.serve 0, .irq 0] ++ List.replicate 1025 demoTask

theorem disk_reads_exclusive_demo : ∃ c,
    Run (fun c op c' => DiskMove c op c' ∧ op.Exclusive c ∧ op.Suspends c) (demoBoot 3) demoAlone c ∧
      c.code 1 = [] ∧ c.buffer 1 1023 = 5 := by
  have hl : (diskExec (fun c op => op.Exclusive c ∧ op.Suspends c) (demoBoot 3) demoAlone).map
    (fun c => (c.code 1).length) =
      some 0 := by
    decide +kernel
  obtain ⟨c, hc, hlen⟩ := Option.map_eq_some_iff.mp hl
  have hrun := run_of_diskExec hc
  have hnil : c.code 1 = [] := List.eq_nil_of_length_eq_zero hlen
  have hok : ∀ t r, demoReads t = some r → r.Ok := by
    intro t r hr
    unfold demoReads at hr
    split at hr <;> cases hr
    all_goals exact ⟨by decide, by decide, by decide, by decide, by decide⟩
  obtain ⟨hbytes, _⟩ := disk_reads_exclusive (demoSched 3) (fun _ _ => 0) (s := demoIde) (fun _ => rfl) hok hrun
  exact ⟨c, hrun, hnil, (hbytes 1 ⟨0, 5, 1024⟩ rfl hnil 1023 (by decide)).trans (by decide)⟩

/-- Task 2 enters `ide_access_disk` while the command of task 1 is being served. -/
def demoBoth : List DiskOp := List.replicate 26 demoTask ++ [.serve 0]

/-- **The interrupt wakes the wrong task**: the command of task 1 is completed, task 2 is put on the
ready list and task 1 stays blocked. -/
theorem completion_wakes_other : ∃ c c' cmd,
    Run DiskMove (demoBoot 2) demoBoth c ∧ (c.ide.chan 0).commands = [cmd] ∧ cmd.issuer = 1 ∧
      DiskMove c (.irq 0) c' ∧ c.ide.reqTask = 2 ∧ c'.sched.scheduleTasks = 2 ∧ 1 ∈ c'.waiting := by
  have hl : ((diskExec (fun _ _ => True) (demoBoot 2) demoBoth).bind fun c =>
      (diskStep c (.irq 0)).map fun c' => ((c.ide.chan 0).commands.map Command.issuer, c.ide.reqTask,
        c'.sched.scheduleTasks, c'.sched.currentTask, c'.waiting)) = some ([1], 2, 2, 2, [1]) := by
    decide +kernel
  obtain ⟨c, hc, h⟩ := Option.bind_eq_some_iff.mp hl
  obtain ⟨c', hs, he⟩ := Option.map_eq_some_iff.mp h
  simp only [Prod.mk.injEq] at he
  obtain ⟨hcmd, htask, hready, hcur, hwait⟩ := he
  obtain ⟨cmd, hcmd, hissuer⟩ := List.map_eq_singleton_iff.mp hcmd
  have hrun : Run DiskMove (demoBoot 2) demoBoth c := (run_of_diskExec hc).mono fun _ _ _ h => h.1
  refine ⟨c, c', cmd, hrun, hcmd, hissuer, ⟨trivial, hs, ?_⟩, htask, hready, ?_⟩
  · rw [hcur, hwait]
    decide
  · rw [hwait]
    decide

end BulbOS.Ide
