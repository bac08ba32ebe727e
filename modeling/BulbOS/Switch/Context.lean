import BulbOS.Lib.Run
import BulbOS.Lib.X86

/-!
# Registers and stacks across context switches (`kernel/proc/task_switch.S`, `task_create_new`)

The processor runs one task; the other tasks have a frame on their stacks. Between two calls of `task_switch` the
running task may change all registers, its own stack and the links and states of tasks.

* `taskSwitchAsm`: the code; `run_save`, `run_enter`, `run_pageDir`, `run_restore`: its parts;
* `Owner`: what the bytes of the memory belong to; `CtxInv`: the frames of the tasks that do not run;
* **`switch_spec`**: one call: the frame it leaves, and the task that runs then.
-/

namespace BulbOS.Switch

open KLib KLib.X86

/-! ## `task_switch` -/

/-- `task_info_t` in `task_switch.S`, and `tss_t`. -/
def ESP : ℕ := 0x4
def ESP0 : ℕ := 0x8
def PAGE_DIR : ℕ := 0x10
def STATE : ℕ := 0x14
def NEXT : ℕ := 0x18
def TSS_ESP0 : ℕ := 0x4
def RUNNING : ℕ := 1

/-- The addresses of the variables. -/
structure Symbols where
  currentTask : ℕ
  tss : ℕ

/-- Up to the stack pointer of the task. -/
def saveCode (y : Symbols) : List Op :=
  [.cli, .push .ebp, .push .ebx, .push .esi, .push .edi, .mov (.abs y.currentTask) (.reg .edi),
    .mov (.reg .esp) (.based ESP .edi)]

def enterCode (y : Symbols) : List Op :=
  [.mov (.based 0x14 .esp) (.reg .esi), .mov (.reg .esi) (.abs y.currentTask), .mov (.imm 0) (.based NEXT .esi),
    .mov (.imm RUNNING) (.based STATE .esi), .mov (.based ESP .esi) (.reg .esp),
    .mov (.based PAGE_DIR .esi) (.reg .eax), .mov (.based ESP0 .esi) (.reg .ebx), .mov (.abs y.tss) (.reg .edx),
    .mov (.reg .ebx) (.based TSS_ESP0 .edx)]

def pageDirCode : List Op := [.movFromCr3 .ecx, .cmp .ecx .eax, .je 1, .movToCr3 .eax]

def restoreCode : List Op := [.pop .edi, .pop .esi, .pop .ebx, .pop .ebp, .sti, .ret]

def taskSwitchCode (y : Symbols) : List Op := saveCode y ++ enterCode y ++ pageDirCode ++ restoreCode

/-- The code from its first instruction on. -/
def taskSwitchAsm (y : Symbols) (c : Cpu) : Cpu := (run (taskSwitchCode y) (0, c)).2

variable {y : Symbols} {c c' : Cpu}

/-- The frame that a suspended task has on its stack, below `e`. -/
def frame (m : Mem) (e : ℕ) (reg : Reg → ℕ) : Mem :=
  store32 (store32 (store32 (store32 m (e - 4) (reg .ebp)) (e - 8) (reg .ebx)) (e - 12) (reg .esi)) (e - 16) (reg .edi)

theorem run_save {e : ℕ} (he : c.reg .esp = e) (h₁ : 16 ≤ e) (h₂ : e < 2 ^ 32) : ∃ c' : Cpu,
    run (saveCode y) (0, c) = (0, c') ∧ c'.reg .esp = e - 16 ∧ c'.cr3 = c.cr3 ∧
    c'.mem = store32 (frame c.mem e c.reg) (u32 (load32 (frame c.mem e c.reg) y.currentTask + ESP)) (e - 16) := by
  have h4 : sub32 e 4 = e - 4 := sub32_of_le (by omega) h₂
  have h8 : sub32 (e - 4) 4 = e - 8 := sub32_of_le (by omega) (by omega)
  have h12 : sub32 (e - 8) 4 = e - 12 := sub32_of_le (by omega) (by omega)
  have h16 : sub32 (e - 12) 4 = e - 16 := sub32_of_le (by omega) (by omega)
  refine ⟨_, rfl, ?_, ?_, ?_⟩
  · simp [exec, Cpu.pushWord, Cpu.setReg, Cpu.write, Cpu.value, Function.update, he, h4, h8, h12, h16]
  · simp [exec, Cpu.pushWord, Cpu.setReg, Cpu.write, Cpu.value]
  · simp [exec, Cpu.pushWord, Cpu.setReg, Cpu.write, Cpu.value, Function.update, he, h4, h8, h12, h16, frame]

theorem run_enter {new : ℕ} {m : Mem} (hnew : load32 c.mem (u32 (c.reg .esp + 0x14)) = new)
    (hm : m = store32 (store32 (store32 c.mem y.currentTask new) (u32 (new + NEXT)) 0) (u32 (new + STATE)) RUNNING) :
    ∃ c' : Cpu, run (enterCode y) (0, c) = (0, c') ∧ c'.reg .esp = load32 m (u32 (new + ESP)) ∧
      c'.reg .eax = load32 m (u32 (new + PAGE_DIR)) ∧ c'.cr3 = c.cr3 ∧
      c'.mem = store32 m (u32 (load32 m y.tss + TSS_ESP0)) (load32 m (u32 (new + ESP0))) := by
  subst hm
  refine ⟨_, rfl, ?_, ?_, ?_, ?_⟩
  · simp [exec, Cpu.setReg, Cpu.write, Cpu.value, Function.update, hnew]
  · simp [exec, Cpu.setReg, Cpu.write, Cpu.value, Function.update, hnew]
  · simp [exec, Cpu.setReg, Cpu.write, Cpu.value]
  · simp [exec, Cpu.setReg, Cpu.write, Cpu.value, Function.update, hnew]

theorem run_pageDir (c : Cpu) : ∃ c' : Cpu, run pageDirCode (0, c) = (0, c') ∧ c'.reg .esp = c.reg .esp ∧
    c'.cr3 = c.reg .eax ∧ c'.mem = c.mem := by
  by_cases hcr : c.cr3 = c.reg .eax
  · have hz : run pageDirCode (0, c) = (0, exec (exec c (.movFromCr3 .ecx)) (.cmp .ecx .eax)) := by
      simp [run, pageDirCode, stepOp, exec, Cpu.setReg, Function.update, hcr]
    exact ⟨_, hz, by simp [exec, Cpu.setReg, Function.update], by simp [exec, Cpu.setReg, hcr], rfl⟩
  · have hz : run pageDirCode (0, c) =
        (0, exec (exec (exec c (.movFromCr3 .ecx)) (.cmp .ecx .eax)) (.movToCr3 .eax)) := by
      simp [run, pageDirCode, stepOp, exec, Cpu.setReg, Function.update, hcr]
    exact ⟨_, hz, by simp [exec, Cpu.setReg, Function.update], by simp [exec, Cpu.setReg, Function.update], rfl⟩

theorem run_restore {s : ℕ} (hs : c.reg .esp = s) (h : s + 20 < 2 ^ 32) : ∃ c' : Cpu,
    run restoreCode (0, c) = (0, c') ∧ c'.reg .esp = s + 20 ∧ c'.reg .edi = load32 c.mem s ∧
    c'.reg .esi = load32 c.mem (s + 4) ∧ c'.reg .ebx = load32 c.mem (s + 8) ∧ c'.reg .ebp = load32 c.mem (s + 12) ∧
    c'.eip = load32 c.mem (s + 16) ∧ c'.cr3 = c.cr3 ∧ c'.flags.testBit interruptFlag = true ∧ c'.mem = c.mem := by
  have h4 : u32 (s + 4) = s + 4 := u32_of_lt (by omega)
  have h8 : u32 (s + 4 + 4) = s + 8 := u32_of_lt (by omega)
  have h12 : u32 (s + 8 + 4) = s + 12 := u32_of_lt (by omega)
  have h16 : u32 (s + 12 + 4) = s + 16 := u32_of_lt (by omega)
  have h20 : u32 (s + 16 + 4) = s + 20 := u32_of_lt (by omega)
  refine ⟨_, rfl, ?_, ?_, ?_, ?_, ?_, ?_, ?_, ?_, ?_⟩
  all_goals simp [exec, Cpu.drop, Cpu.top, Cpu.setReg, Function.update, hs, h4, h8, h12, h16, h20]

/-! ## Memory -/

/-- What a byte of the memory belongs to: the stack of a task, its `esp`, `esp0` and `page_dir`, its `state` and
`next`, the two variables, and `esp0` of the `tss`. -/
inductive Owner
  | stack (task : ℕ)
  | info (task : ℕ)
  | link (task : ℕ)
  | currentTask
  | tss
  | esp0
  deriving DecidableEq

variable {owner : ℕ → Option Owner} {o o' : Owner} {m : Mem} {a b v x : ℕ}

/-- The word at `a` belongs to `o`. -/
def Owns (owner : ℕ → Option Owner) (o : Owner) (a : ℕ) : Prop := ∀ i < 4, owner (a + i) = some o

instance (owner : ℕ → Option Owner) (o : Owner) (a : ℕ) : Decidable (Owns owner o a) :=
  inferInstanceAs (Decidable (∀ i < 4, _))

theorem Owns.store (h : Owns owner o a) (hx : owner x ≠ some o) : store32 m a v x = m x := by
  refine store32_of_outside m v ?_
  by_contra hin
  rw [not_or, not_lt, not_le] at hin
  have hi := h (x - a) (by omega)
  rw [Nat.add_sub_cancel' hin.1] at hi
  exact hx hi

theorem Owns.load (h : Owns owner o a) (hb : Owns owner o' b) (hne : o' ≠ o) :
    load32 (store32 m a v) b = load32 m b := by
  refine load32_congr fun x h₁ h₂ => h.store fun hx => hne ?_
  have hi := hb (x - b) (by omega)
  rw [Nat.add_sub_cancel' h₁, hx] at hi
  exact (Option.some.inj hi).symm

theorem Owns.same {m' : Mem} (hb : Owns owner o b) (h : ∀ x, owner x = some o → m' x = m x) :
    load32 m' b = load32 m b := by
  refine load32_congr fun x h₁ h₂ => h x ?_
  have hi := hb (x - b) (by omega)
  rwa [Nat.add_sub_cancel' h₁] at hi

/-! ## Tasks -/

/-- What a function finds after a call: the registers that the call keeps, the stack pointer, where it goes on, and its
stack. -/
structure Context where
  ebp : ℕ
  ebx : ℕ
  esi : ℕ
  edi : ℕ
  esp : ℕ
  eip : ℕ
  stack : Mem

/-- The processor and the memory, what the memory belongs to, the tasks, and where those that do not run go on. -/
structure CtxCfg where
  cpu : Cpu
  owner : ℕ → Option Owner
  tasks : List ℕ
  ctx : ℕ → Context

/-- `current_task`. -/
def CtxCfg.current (y : Symbols) (s : CtxCfg) : ℕ := load32 s.cpu.mem y.currentTask

/-- Where the variables and the fields of a task are. -/
structure Placed (y : Symbols) (owner : ℕ → Option Owner) (m : Mem) (tasks : List ℕ) : Prop where
  currentTask : Owns owner .currentTask y.currentTask
  tss : Owns owner .tss y.tss
  esp0 : Owns owner .esp0 (load32 m y.tss + TSS_ESP0)
  tss_lt : load32 m y.tss + TSS_ESP0 < 2 ^ 32
  lt : ∀ t ∈ tasks, t + NEXT < 2 ^ 32
  info : ∀ t ∈ tasks, Owns owner (.info t) (t + ESP) ∧ Owns owner (.info t) (t + ESP0) ∧
    Owns owner (.info t) (t + PAGE_DIR)
  link : ∀ t ∈ tasks, Owns owner (.link t) (t + STATE) ∧ Owns owner (.link t) (t + NEXT)

/-- The task `t` has a frame with the registers of `k` on its stack. -/
structure Framed (owner : ℕ → Option Owner) (m : Mem) (t : ℕ) (k : Context) : Prop where
  le : 20 ≤ k.esp
  lt : k.esp < 2 ^ 32
  owns : ∀ i < 5, Owns owner (.stack t) (k.esp - 20 + 4 * i)
  esp : load32 m (t + ESP) = k.esp - 20
  edi : load32 m (k.esp - 20) = k.edi
  esi : load32 m (k.esp - 20 + 4) = k.esi
  ebx : load32 m (k.esp - 20 + 8) = k.ebx
  ebp : load32 m (k.esp - 20 + 12) = k.ebp
  eip : load32 m (k.esp - 20 + 16) = k.eip
  stack : ∀ x, owner x = some (.stack t) → k.esp ≤ x → m x = k.stack x

/-- Every task but the current one has a frame. -/
structure CtxInv (y : Symbols) (s : CtxCfg) : Prop where
  placed : Placed y s.owner s.cpu.mem s.tasks
  current : s.current y ∈ s.tasks
  framed : ∀ t ∈ s.tasks, t ≠ s.current y → Framed s.owner s.cpu.mem t (s.ctx t)

theorem Framed.same {m' : Mem} {t : ℕ} {k : Context} (h : Framed owner m t k) (hesp : Owns owner (.info t) (t + ESP))
    (hi : ∀ x, owner x = some (.info t) → m' x = m x) (hs : ∀ x, owner x = some (.stack t) → m' x = m x) :
    Framed owner m' t k := by
  have hword : ∀ i < 5, load32 m' (k.esp - 20 + 4 * i) = load32 m (k.esp - 20 + 4 * i) :=
    fun i hi => (h.owns i hi).same hs
  exact ⟨h.le, h.lt, h.owns, (hesp.same hi).trans h.esp, (hword 0 (by decide)).trans h.edi,
    (hword 1 (by decide)).trans h.esi, (hword 2 (by decide)).trans h.ebx, (hword 3 (by decide)).trans h.ebp,
    (hword 4 (by decide)).trans h.eip, fun x hx hle => (hs x hx).trans (h.stack x hx hle)⟩

/-! ## One call -/

/-- `pushl new; call task_switch`, which returns to `ret`. -/
def callTaskSwitch (c : Cpu) (new ret : ℕ) : Cpu := (c.pushWord new).pushWord ret

/-- What the running task finds when its call returns; the caller has its argument still on the stack. -/
def leaving (c : Cpu) (new ret : ℕ) : Context :=
  ⟨c.reg .ebp, c.reg .ebx, c.reg .esi, c.reg .edi, c.reg .esp - 4, ret, store32 c.mem (c.reg .esp - 4) new⟩

/-- The stack of the running task has room for the call and the frame. -/
structure Room (y : Symbols) (s : CtxCfg) (ret : ℕ) : Prop where
  le : 24 ≤ s.cpu.reg .esp
  regs : ∀ r, s.cpu.reg r < 2 ^ 32
  ret : ret < 2 ^ 32
  owns : ∀ i < 6, Owns s.owner (.stack (s.current y)) (s.cpu.reg .esp - 24 + 4 * i)

/-- The memory when the frame is on the stack. -/
def pushed (c : Cpu) (new ret : ℕ) : Mem :=
  frame (store32 (store32 c.mem (c.reg .esp - 4) new) (c.reg .esp - 8) ret) (c.reg .esp - 8) c.reg

variable {s s' : CtxCfg} {t new ret : ℕ}

theorem pushed_same (hroom : Room y s ret) (hx : s.owner x ≠ some (.stack (s.current y))) :
    pushed s.cpu new ret x = s.cpu.mem x := by
  have hat : ∀ i < 6, ∀ k, k = s.cpu.reg .esp - 24 + 4 * i → ∀ (m : Mem) (v : ℕ), store32 m k v x = m x :=
    fun i hi k hk m v => by
      rw [hk]
      exact (hroom.owns i hi).store hx
  have hle := hroom.le
  unfold pushed frame
  rw [hat 0 (by decide) _ (by omega), hat 1 (by decide) _ (by omega), hat 2 (by decide) _ (by omega),
    hat 3 (by decide) _ (by omega), hat 4 (by decide) _ (by omega), hat 5 (by decide) _ (by omega)]

theorem pushed_words (hroom : Room y s ret) (hnew : new < 2 ^ 32) :
    load32 (pushed s.cpu new ret) (s.cpu.reg .esp - 24) = s.cpu.reg .edi ∧
    load32 (pushed s.cpu new ret) (s.cpu.reg .esp - 20) = s.cpu.reg .esi ∧
    load32 (pushed s.cpu new ret) (s.cpu.reg .esp - 16) = s.cpu.reg .ebx ∧
    load32 (pushed s.cpu new ret) (s.cpu.reg .esp - 12) = s.cpu.reg .ebp ∧
    load32 (pushed s.cpu new ret) (s.cpu.reg .esp - 8) = ret ∧
    load32 (pushed s.cpu new ret) (s.cpu.reg .esp - 4) = new := by
  have hle := hroom.le
  unfold pushed frame
  refine ⟨?_, ?_, ?_, ?_, ?_, ?_⟩
  · rw [show s.cpu.reg .esp - 8 - 16 = s.cpu.reg .esp - 24 by omega, load32_store32, u32_of_lt (hroom.regs _)]
  · rw [load32_store32_of_disjoint _ _ (by omega), show s.cpu.reg .esp - 8 - 12 = s.cpu.reg .esp - 20 by omega,
      load32_store32, u32_of_lt (hroom.regs _)]
  · rw [load32_store32_of_disjoint _ _ (by omega), load32_store32_of_disjoint _ _ (by omega),
      show s.cpu.reg .esp - 8 - 8 = s.cpu.reg .esp - 16 by omega, load32_store32, u32_of_lt (hroom.regs _)]
  · rw [load32_store32_of_disjoint _ _ (by omega), load32_store32_of_disjoint _ _ (by omega),
      load32_store32_of_disjoint _ _ (by omega), show s.cpu.reg .esp - 8 - 4 = s.cpu.reg .esp - 12 by omega,
      load32_store32, u32_of_lt (hroom.regs _)]
  · rw [load32_store32_of_disjoint _ _ (by omega), load32_store32_of_disjoint _ _ (by omega),
      load32_store32_of_disjoint _ _ (by omega), load32_store32_of_disjoint _ _ (by omega), load32_store32,
      u32_of_lt hroom.ret]
  · rw [load32_store32_of_disjoint _ _ (by omega), load32_store32_of_disjoint _ _ (by omega),
      load32_store32_of_disjoint _ _ (by omega), load32_store32_of_disjoint _ _ (by omega),
      load32_store32_of_disjoint _ _ (by omega), load32_store32, u32_of_lt hnew]

theorem pushed_above (hroom : Room y s ret) (hx : s.cpu.reg .esp - 4 ≤ x) :
    pushed s.cpu new ret x = store32 s.cpu.mem (s.cpu.reg .esp - 4) new x := by
  have hle := hroom.le
  unfold pushed frame
  rw [store32_of_outside _ _ (by omega), store32_of_outside _ _ (by omega), store32_of_outside _ _ (by omega),
    store32_of_outside _ _ (by omega), store32_of_outside _ _ (by omega)]

/-- The processor runs the task `t`, with the registers of `k`. -/
structure Runs (y : Symbols) (c : Cpu) (t : ℕ) (k : Context) : Prop where
  current : load32 c.mem y.currentTask = t
  ebp : c.reg .ebp = k.ebp
  ebx : c.reg .ebx = k.ebx
  esi : c.reg .esi = k.esi
  edi : c.reg .edi = k.edi
  esp : c.reg .esp = k.esp
  eip : c.eip = k.eip
  pageDir : c.cr3 = load32 c.mem (t + PAGE_DIR)
  esp0 : load32 c.mem (load32 c.mem y.tss + TSS_ESP0) = load32 c.mem (t + ESP0)
  interrupts : c.flags.testBit interruptFlag = true

/-- What `task_switch` may change. -/
def Untouched (cur new : ℕ) (o : Option Owner) : Prop :=
  o ≠ some (.stack cur) ∧ o ≠ some (.info cur) ∧ o ≠ some (.link new) ∧ o ≠ some .currentTask ∧ o ≠ some .esp0

/-- The call and the first part store the frame, and the stack pointer of the task that is left. -/
theorem run_saved (h : CtxInv y s) (hroom : Room y s ret) (hlt : new < 2 ^ 32) :
    ∃ c₁ : Cpu, run (saveCode y) (0, callTaskSwitch s.cpu new ret) = (0, c₁) ∧
      load32 c₁.mem (u32 (c₁.reg .esp + 0x14)) = new ∧
      c₁.mem = store32 (pushed s.cpu new ret) (s.current y + ESP) (s.cpu.reg .esp - 24) := by
  have hle := hroom.le
  have hsp := hroom.regs .esp
  have hp := h.placed
  have hcurlt := hp.lt _ h.current
  unfold NEXT at hcurlt
  have h4 : sub32 (s.cpu.reg .esp) 4 = s.cpu.reg .esp - 4 := sub32_of_le (by omega) hsp
  have h8 : sub32 (s.cpu.reg .esp - 4) 4 = s.cpu.reg .esp - 8 := sub32_of_le (by omega) (by omega)
  have hesp : (callTaskSwitch s.cpu new ret).reg .esp = s.cpu.reg .esp - 8 := by
    simp [callTaskSwitch, Cpu.pushWord, Cpu.setReg, h4, h8]
  have hpushed : frame (callTaskSwitch s.cpu new ret).mem (s.cpu.reg .esp - 8) (callTaskSwitch s.cpu new ret).reg =
      pushed s.cpu new ret := by
    simp [callTaskSwitch, Cpu.pushWord, Cpu.setReg, pushed, frame, Function.update, h4, h8]
  have hsame : ∀ x, s.owner x ≠ some (.stack (s.current y)) → pushed s.cpu new ret x = s.cpu.mem x := fun x hx =>
    pushed_same hroom hx
  obtain ⟨c₁, hrun, hesp₁, -, hmem⟩ := run_save (y := y) hesp (by omega) (by omega)
  rw [hpushed, hp.currentTask.same fun x hx => hsame x (by rw [hx]; simp)] at hmem
  change c₁.mem = store32 _ (u32 (s.current y + ESP)) _ at hmem
  rw [u32_of_lt (by unfold ESP; omega), show s.cpu.reg .esp - 8 - 16 = s.cpu.reg .esp - 24 by omega] at hmem
  refine ⟨c₁, hrun, ?_, hmem⟩
  have hown := hroom.owns 5 (by decide)
  rw [show s.cpu.reg .esp - 24 + 4 * 5 = s.cpu.reg .esp - 4 by omega] at hown
  rw [hesp₁, u32_of_lt (by omega), show s.cpu.reg .esp - 8 - 16 + 0x14 = s.cpu.reg .esp - 4 by omega, hmem,
    hown.same fun x hx => (hp.info _ h.current).1.store (by rw [hx]; simp)]
  exact (pushed_words hroom hlt).2.2.2.2.2

/-- The frame of the task that is left, in any memory that has its stack and its stack pointer. -/
theorem framed_left (hroom : Room y s ret) (hlt : new < 2 ^ 32)
    (hstack : ∀ x, s.owner x = some (.stack (s.current y)) → m x = pushed s.cpu new ret x)
    (hesp : load32 m (s.current y + ESP) = s.cpu.reg .esp - 24) :
    Framed s.owner m (s.current y) (leaving s.cpu new ret) := by
  have hle := hroom.le
  have hsp := hroom.regs .esp
  have hwords := pushed_words hroom hlt
  have hword : ∀ i < 6, ∀ k, k = s.cpu.reg .esp - 24 + 4 * i → load32 m k = load32 (pushed s.cpu new ret) k := by
    intro i hi k hk
    rw [hk]
    exact (hroom.owns i hi).same hstack
  refine ⟨?_, ?_, fun i hi => ?_, ?_, ?_, ?_, ?_, ?_, ?_, fun x hx hxle => ?_⟩
  · change 20 ≤ s.cpu.reg .esp - 4
    omega
  · change s.cpu.reg .esp - 4 < _
    omega
  · change Owns _ _ (s.cpu.reg .esp - 4 - 20 + 4 * i)
    rw [show s.cpu.reg .esp - 4 - 20 = s.cpu.reg .esp - 24 by omega]
    exact hroom.owns i (by omega)
  · change _ = s.cpu.reg .esp - 4 - 20
    omega
  · change load32 m (s.cpu.reg .esp - 4 - 20) = s.cpu.reg .edi
    rw [hword 0 (by decide) _ (by omega), show s.cpu.reg .esp - 4 - 20 = s.cpu.reg .esp - 24 by omega]
    exact hwords.1
  · change load32 m (s.cpu.reg .esp - 4 - 20 + 4) = s.cpu.reg .esi
    rw [hword 1 (by decide) _ (by omega), show s.cpu.reg .esp - 4 - 20 + 4 = s.cpu.reg .esp - 20 by omega]
    exact hwords.2.1
  · change load32 m (s.cpu.reg .esp - 4 - 20 + 8) = s.cpu.reg .ebx
    rw [hword 2 (by decide) _ (by omega), show s.cpu.reg .esp - 4 - 20 + 8 = s.cpu.reg .esp - 16 by omega]
    exact hwords.2.2.1
  · change load32 m (s.cpu.reg .esp - 4 - 20 + 12) = s.cpu.reg .ebp
    rw [hword 3 (by decide) _ (by omega), show s.cpu.reg .esp - 4 - 20 + 12 = s.cpu.reg .esp - 12 by omega]
    exact hwords.2.2.2.1
  · change load32 m (s.cpu.reg .esp - 4 - 20 + 16) = ret
    rw [hword 4 (by decide) _ (by omega), show s.cpu.reg .esp - 4 - 20 + 16 = s.cpu.reg .esp - 8 by omega]
    exact hwords.2.2.2.2.1
  · rw [hstack x hx]
    exact pushed_above hroom hxle

/-- **`task_switch`**: the running task gets a frame, and the other one runs with the registers of its frame. -/
theorem switch_spec (h : CtxInv y s) (hnew : new ∈ s.tasks) (hne : new ≠ s.current y) (hroom : Room y s ret)
    (hc : c' = taskSwitchAsm y (callTaskSwitch s.cpu new ret)) :
    (∀ x, Untouched (s.current y) new (s.owner x) → c'.mem x = s.cpu.mem x) ∧ Runs y c' new (s.ctx new) ∧
      Framed s.owner c'.mem (s.current y) (leaving s.cpu new ret) := by
  have hsp := hroom.regs .esp
  have hp := h.placed
  have hlt := hp.lt new hnew
  have hcur := hp.info _ h.current
  have hinfo := hp.info new hnew
  have hlink := hp.link new hnew
  unfold NEXT at hlt
  have hlt₀ : new < 2 ^ 32 := by omega
  -- the frame, and the task that is left
  obtain ⟨c₁, hrun₁, harg, hmem₁⟩ := run_saved h hroom hlt₀
  generalize hF : pushed s.cpu new ret = F at hmem₁
  have hFsame : ∀ x, s.owner x ≠ some (.stack (s.current y)) → F x = s.cpu.mem x :=
    fun x hx => hF ▸ pushed_same hroom hx
  have hm₁ : ∀ x, s.owner x ≠ some (.info (s.current y)) → c₁.mem x = F x := fun x hx => by
    rw [hmem₁, hcur.1.store hx]
  -- the task that is entered
  obtain ⟨c₂, hrun₂, hesp₂, heax₂, -, hmem₂⟩ := run_enter (y := y) harg rfl
  rw [u32_of_lt (by unfold NEXT; omega), u32_of_lt (by unfold STATE; omega)] at hesp₂ heax₂ hmem₂
  generalize hM : store32 (store32 (store32 c₁.mem y.currentTask new) (new + NEXT) 0) (new + STATE) RUNNING = M
    at hesp₂ heax₂ hmem₂
  have hMsame : ∀ x, s.owner x ≠ some .currentTask → s.owner x ≠ some (.link new) → M x = c₁.mem x := fun x h₁ h₂ => by
    rw [← hM, hlink.1.store h₂, hlink.2.store h₂, hp.currentTask.store h₁]
  have hMold : ∀ x, s.owner x ≠ some (.stack (s.current y)) → s.owner x ≠ some (.info (s.current y)) →
      s.owner x ≠ some .currentTask → s.owner x ≠ some (.link new) → M x = s.cpu.mem x := fun x h₁ h₂ h₃ h₄ =>
    (hMsame x h₃ h₄).trans ((hm₁ x h₂).trans (hFsame x h₁))
  have hMinfo : ∀ x, s.owner x = some (.info new) → M x = s.cpu.mem x := fun x hx =>
    hMold x (by rw [hx]; simp) (by rw [hx]; simpa using hne) (by rw [hx]; simp) (by rw [hx]; simp)
  have htss : load32 M y.tss = load32 s.cpu.mem y.tss :=
    hp.tss.same fun x hx => hMold x (by rw [hx]; simp) (by rw [hx]; simp) (by rw [hx]; simp) (by rw [hx]; simp)
  rw [htss, u32_of_lt hp.tss_lt, u32_of_lt (by unfold ESP0; omega), hinfo.2.1.same hMinfo] at hmem₂
  rw [u32_of_lt (by unfold ESP; omega), hinfo.1.same hMinfo] at hesp₂
  rw [u32_of_lt (by unfold PAGE_DIR; omega), hinfo.2.2.same hMinfo] at heax₂
  have hm₂ : ∀ x, s.owner x ≠ some .esp0 → c₂.mem x = M x := fun x hx => by
    rw [hmem₂, hp.esp0.store hx]
  -- the rest
  obtain ⟨c₃, hrun₃, hesp₃, hcr₃, hmem₃⟩ := run_pageDir c₂
  have hk := h.framed new hnew hne
  rw [hesp₂, hk.esp] at hesp₃
  have hklt := hk.lt
  have hkle := hk.le
  obtain ⟨c₄, hrun₄, hesp₄, hedi, hesi, hebx, hebp, heip, hcr₄, hif, hmem₄⟩ := run_restore hesp₃ (by omega)
  have hc₄ : c' = c₄ := by
    rw [hc, taskSwitchAsm, taskSwitchCode, run_append, run_append, run_append, hrun₁, hrun₂, hrun₃, hrun₄]
  subst hc₄
  have hmem : c'.mem = c₂.mem := hmem₄.trans hmem₃
  have hall : ∀ x, Untouched (s.current y) new (s.owner x) → c'.mem x = s.cpu.mem x := fun x hx => by
    rw [hmem, hm₂ x hx.2.2.2.2, hMold x hx.1 hx.2.1 hx.2.2.2.1 hx.2.2.1]
  have hstack : ∀ x, s.owner x = some (.stack new) → c'.mem x = s.cpu.mem x := fun x hx =>
    hall x ⟨by rw [hx]; simpa using hne, by rw [hx]; simp, by rw [hx]; simp, by rw [hx]; simp, by rw [hx]; simp⟩
  have hinfo' : ∀ x, s.owner x = some (.info new) → c'.mem x = s.cpu.mem x := fun x hx =>
    hall x ⟨by rw [hx]; simp, by rw [hx]; simpa using hne, by rw [hx]; simp, by rw [hx]; simp, by rw [hx]; simp⟩
  have hk' := hk.same hinfo.1 hinfo' hstack
  rw [hmem₃, ← hmem] at hedi hesi hebx hebp heip
  refine ⟨hall, ⟨?_, hebp.trans hk'.ebp, hebx.trans hk'.ebx, hesi.trans hk'.esi, hedi.trans hk'.edi, ?_,
    heip.trans hk'.eip, ?_, ?_, hif⟩, ?_⟩
  · rw [hmem, hmem₂, hp.esp0.load hp.currentTask (by simp), ← hM, hlink.1.load hp.currentTask (by simp),
      hlink.2.load hp.currentTask (by simp), load32_store32, u32_of_lt hlt₀]
  · rw [hesp₄]
    omega
  · rw [hcr₄, hcr₃, heax₂, hinfo.2.2.same hinfo']
  · have htss' : load32 c'.mem y.tss = load32 s.cpu.mem y.tss :=
      hp.tss.same fun x hx => hall x
        ⟨by rw [hx]; simp, by rw [hx]; simp, by rw [hx]; simp, by rw [hx]; simp, by rw [hx]; simp⟩
    rw [htss', hinfo.2.1.same hinfo', hmem, hmem₂, load32_store32, u32_of_lt (load32_lt _ _)]
  · refine framed_left hroom hlt₀ (fun x hx => ?_) ?_
    · rw [hF, hmem, hm₂ x (by rw [hx]; simp), hMsame x (by rw [hx]; simp) (by rw [hx]; simp), hm₁ x (by rw [hx]; simp)]
    · have hlast : load32 c₁.mem (s.current y + ESP) = s.cpu.reg .esp - 24 := by
        rw [hmem₁, load32_store32, u32_of_lt (by omega)]
      rw [← hlast]
      refine hcur.1.same fun x hx => ?_
      rw [hmem, hm₂ x (by rw [hx]; simp), hMsame x (by rw [hx]; simp) (by rw [hx]; simp)]

end BulbOS.Switch
