import BulbOS.Lib.Run
import BulbOS.Switch.Create

/-!
# The way into the kernel and back (`kernel/usr/syscall_entry.S`, `syscall_init`)

`sysenter` goes to the stack and the handler that `syscall_init` wrote to the registers of the processor, and `sysexit`
to `edx` with the stack of `ecx`; neither saves anything, and the stack of `sysenter` is the same for all tasks. The
function of a system call is C code.

* `syscallTable`: the function of a number; `load32_init`: the words that `syscall_init` stores;
* `enter`, `leave`: the code before and after the function; `enter_spec`, `leave_spec`;
* `CallInv.step`: the table, and the frame of the last call; **`syscall_returns`**: the function gets its arguments, and
  the caller finds every register but `eax` as it was.
-/

namespace BulbOS.Syscall

open KLib KLib.X86 BulbOS.Switch

/-! ## The table -/

inductive Handler
  | syscallRead
  | syscallWrite
  | syscallOpen
  | syscallClose
  | syscallLink
  | syscallUnlink
  | syscallChdir
  | syscallFstat
  | syscallMkdir
  | syscallDup
  | syscallPipe
  | syscallReaddir
  | syscallNotImpl
  deriving DecidableEq, Repr

def SYSCALL_COUNT : ℕ := 461

/-- The entries that `syscall_init` stores after the loop. -/
def implemented : List (ℕ × Handler) :=
  [(3, .syscallRead), (4, .syscallWrite), (5, .syscallOpen), (6, .syscallClose), (9, .syscallLink),
    (10, .syscallUnlink),
    (12, .syscallChdir), (28, .syscallFstat), (39, .syscallMkdir), (41, .syscallDup), (42, .syscallPipe),
    (460, .syscallReaddir)]

/-- The stores of `syscall_init`. -/
def stores : List (ℕ × Handler) := (List.range SYSCALL_COUNT).map (·, .syscallNotImpl) ++ implemented

/-- The addresses of code and data, and the stack of `sysenter`. -/
structure Places where
  table : ℕ
  exit : ℕ
  back : ℕ
  esp : ℕ
  handler : Handler → ℕ

variable {p : Places} {m m' : Mem} {c c' : Cpu}

/-- The memory after `syscall_init`. -/
def syscallInit (p : Places) (m : Mem) : Mem := storeAll m (stores.map fun e => (p.table + 4 * e.1, p.handler e.2))

def setEntry (f : ℕ → Handler) (e : ℕ × Handler) : ℕ → Handler := Function.update f e.1 e.2

/-- The function of a number. -/
def syscallTable : ℕ → Handler := implemented.foldl setEntry fun _ => .syscallNotImpl

theorem load32_storeAll_table {a n : ℕ} {f : ℕ → Handler} {l : List (ℕ × Handler)} {code : Handler → ℕ}
    (h : n ∈ l.map Prod.fst ∨ load32 m (a + 4 * n) = u32 (code (f n))) :
    load32 (storeAll m (l.map fun e => (a + 4 * e.1, code e.2))) (a + 4 * n) = u32 (code (l.foldl setEntry f n)) := by
  induction l generalizing m f with
  | nil => exact h.resolve_left List.not_mem_nil
  | cons e l ih =>
    refine ih ?_
    dsimp only [setEntry]
    by_cases hn : n = e.1
    · exact .inr (by rw [hn, load32_store32, Function.update_self])
    · rw [load32_store32_of_disjoint _ _ (by omega), Function.update_of_ne hn]
      exact h.imp (fun h => (List.mem_cons.mp h).resolve_left hn) id

theorem foldl_setEntry_const (l : List ℕ) (h : Handler) : (l.map (·, h)).foldl setEntry (fun _ => h) = fun _ => h := by
  induction l with
  | nil => rfl
  | cons n l ih =>
    rw [List.map_cons, List.foldl_cons, setEntry, Function.update_eq_self n fun _ => h]
    exact ih

/-- **`syscall_init`** stores the functions of all numbers. -/
theorem load32_init {n : ℕ} (hn : n < SYSCALL_COUNT) :
    load32 (syscallInit p m) (p.table + 4 * n) = u32 (p.handler (syscallTable n)) := by
  have hmem : n ∈ stores.map Prod.fst := by
    rw [stores, List.map_append, List.map_map]
    exact List.mem_append_left _ (List.mem_map.mpr ⟨n, List.mem_range.mpr hn, rfl⟩)
  refine (load32_storeAll_table (f := fun _ => .syscallNotImpl) (.inl hmem)).trans ?_
  rw [stores, List.foldl_append, foldl_setEntry_const]
  rfl

/-! ## The code -/

/-- `syscall_entry`, up to `sysenter`. -/
def entryCode : List Op := [.push .ecx, .push .edx, .push .ebp, .pushf, .mov (.reg .esp) (.reg .ebp)]

/-- The last flag of the user's registers that `popf` keeps in user mode, like `IOPL`. -/
def ioplFlags : List ℕ := [interruptFlag, 12, 13]

/-- `popf` in user mode. -/
def popfUser (c : Cpu) : Cpu :=
  { c.drop with flags := ioplFlags.foldl (fun f k => setFlag f k (c.flags.testBit k)) c.top }

/-- `syscall_exit`, after `popf`. -/
def exitCode : List Op := [.pop .ebp, .pop .edx, .pop .ecx, .ret]

/-- `syscall_handler`, up to the call. -/
def handlerCode (p : Places) : List Op :=
  [.push .ebp, .mov (.based 0 .ebp) (.reg .ebp), .push .eax, .push .ebp, .push .edi, .push .esi, .push .edx, .push .ecx,
    .push .ebx, .mov (.imm p.table) (.reg .ebx)]

/-- `syscall_handler`, after the call. -/
def returnCode (p : Places) : List Op :=
  [.mov (.reg .eax) (.based 0x18 .esp), .pop .ebx, .pop .ecx, .pop .edx, .pop .esi, .pop .edi, .pop .ebp, .pop .eax,
    .pop .ecx, .mov (.imm p.exit) (.reg .edx), .sti]

def sysenter (p : Places) (c : Cpu) : Cpu :=
  { c.setReg .esp p.esp with flags := setFlag c.flags interruptFlag false }

def sysexit (c : Cpu) : Cpu := { c.setReg .esp (c.reg .ecx) with eip := c.reg .edx }

/-- `call *(%ebx, %eax, 4)`. -/
def callTable (p : Places) (c : Cpu) : Cpu :=
  { c.pushWord p.back with eip := load32 c.mem (u32 (c.reg .ebx + 4 * c.reg .eax)) }

/-- From `syscall_entry` to the first instruction of the function. -/
def enter (p : Places) (c : Cpu) : Cpu := callTable p (run (handlerCode p) (0, sysenter p (run entryCode (0, c)).2)).2

/-- From the return of the function to the return of `syscall_entry`. -/
def leave (p : Places) (c : Cpu) : Cpu := (run exitCode (0, popfUser (sysexit (run (returnCode p) (0, c)).2))).2

variable {e : ℕ}

theorem run_entry (hflags : c.flags < 2 ^ 32) (he : c.reg .esp = e) (hle : 16 ≤ e) (hlt : e < 2 ^ 32) : ∃ m,
    run entryCode (0, c) = (0, { (c.setReg .esp (e - 16)).setReg .ebp (e - 16) with mem := m }) ∧
    load32 m (e - 4) = u32 (c.reg .ecx) ∧ load32 m (e - 8) = u32 (c.reg .edx) ∧ load32 m (e - 12) = u32 (c.reg .ebp) ∧
    load32 m (e - 16) = c.flags ∧ ∀ x, x < e - 16 ∨ e ≤ x → m x = c.mem x := by
  obtain ⟨m, hrun, hword, hsame⟩ := run_pushes (c := c) (l := [.ecx, .edx, .ebp]) (by decide) he
    (by change 4 * 3 ≤ e; omega) hlt
  change run (List.map Op.push _) _ = (0, { c.setReg .esp (e - 12) with mem := m }) at hrun
  change ∀ x, x < e - 12 ∨ e ≤ x → _ at hsame
  have hsub : sub32 (e - 12) 4 = e - 16 := sub32_of_le (by omega) (by omega)
  refine ⟨store32 m (e - 16) c.flags, ?_, ?_, ?_, ?_, ?_, fun x hx => ?_⟩
  · rw [show entryCode = [Reg.ecx, .edx, .ebp].map Op.push ++ [.pushf, .mov (.reg .esp) (.reg .ebp)] from rfl,
      run_append,
      hrun]
    simp [run, stepOp, exec, Cpu.pushWord, Cpu.write, Cpu.value, Cpu.setReg, hsub]
  · rw [load32_store32_of_disjoint _ _ (by omega)]
    exact hword 0 (by decide)
  · rw [load32_store32_of_disjoint _ _ (by omega)]
    exact hword 1 (by decide)
  · rw [load32_store32_of_disjoint _ _ (by omega)]
    exact hword 2 (by decide)
  · rw [load32_store32, u32_of_lt hflags]
  · rw [store32_of_outside _ _ (by omega)]
    exact hsame x (by omega)

/-- What the handler saves on the stack of `sysenter`. The word at `ebp` takes the place of `ebp`. -/
theorem run_handler (hebp : c.reg .ebp < 2 ^ 32) (he : c.reg .esp = e) (hle : 32 ≤ e) (hlt : e < 2 ^ 32)
    (hout : c.reg .ebp + 4 ≤ e - 4 ∨ e ≤ c.reg .ebp) : ∃ c' : Cpu,
    run (handlerCode p) (0, c) = (0, c') ∧ c'.reg .esp = e - 32 ∧ c'.reg .ebx = p.table ∧ c'.reg .eax = c.reg .eax ∧
    load32 c'.mem (e - 4) = c.reg .ebp ∧ load32 c'.mem (e - 12) = load32 c.mem (c.reg .ebp) ∧
    load32 c'.mem (e - 16) = u32 (c.reg .edi) ∧ load32 c'.mem (e - 20) = u32 (c.reg .esi) ∧
    load32 c'.mem (e - 24) = u32 (c.reg .edx) ∧ load32 c'.mem (e - 28) = u32 (c.reg .ecx) ∧
    load32 c'.mem (e - 32) = u32 (c.reg .ebx) ∧ ∀ x, x < e - 32 ∨ e ≤ x → c'.mem x = c.mem x := by
  set c₁ : Cpu := exec (exec c (.push .ebp)) (.mov (.based 0 .ebp) (.reg .ebp)) with hc₁
  have hsub : sub32 e 4 = e - 4 := sub32_of_le (by omega) hlt
  have hmem : c₁.mem = store32 c.mem (e - 4) (c.reg .ebp) := by
    simp [hc₁, exec, Cpu.pushWord, Cpu.write, Cpu.setReg, he, hsub]
  have hword₁ : load32 c₁.mem (c.reg .ebp) = load32 c.mem (c.reg .ebp) := by
    rw [hmem, load32_store32_of_disjoint _ _ (by omega)]
  have hreg : ∀ r, r ≠ .esp → r ≠ .ebp → c₁.reg r = c.reg r := fun r h₁ h₂ => by
    simp [hc₁, exec, Cpu.pushWord, Cpu.write, Cpu.setReg, Function.update_of_ne h₁, Function.update_of_ne h₂]
  have hflags : c₁.reg .ebp = load32 c.mem (c.reg .ebp) := by
    rw [← hword₁, hmem]
    simp [hc₁, exec, Cpu.pushWord, Cpu.write, Cpu.value, Cpu.setReg, he, hsub, u32_of_lt hebp]
  have hesp : c₁.reg .esp = e - 4 := by
    simp [hc₁, exec, Cpu.pushWord, Cpu.write, Cpu.setReg, he, hsub]
  obtain ⟨m, hrun, hword, hsame⟩ := run_pushes (c := c₁) (l := [.eax, .ebp, .edi, .esi, .edx, .ecx, .ebx])
    (by decide) hesp
    (by change 4 * 7 ≤ e - 4; omega) (by omega)
  change run (List.map Op.push _) _ = (0, { c₁.setReg .esp (e - 4 - 28) with mem := m }) at hrun
  change ∀ x, x < e - 4 - 28 ∨ e - 4 ≤ x → _ at hsame
  refine ⟨{ (c₁.setReg .esp (e - 4 - 28)).setReg .ebx p.table with mem := m }, ?_, ?_, ?_, ?_, ?_, ?_, ?_, ?_, ?_, ?_,
    ?_,
    fun x hx => ?_⟩
  · rw [show handlerCode p = [.push .ebp, .mov (.based 0 .ebp) (.reg .ebp)] ++
      ([Reg.eax, .ebp, .edi, .esi, .edx, .ecx, .ebx].map Op.push ++ [.mov (.imm p.table) (.reg .ebx)]) from rfl,
      run_append, run_append]
    change run _ (run _ (0, c₁)) = _
    rw [hrun]
    rfl
  · change e - 4 - 28 = e - 32
    omega
  · rfl
  · rw [← hreg .eax (by decide) (by decide)]
    simp [Cpu.setReg]
  · have hkeep : load32 m (e - 4) = load32 c₁.mem (e - 4) := load32_congr fun x _ _ => hsame x (by omega)
    change load32 m (e - 4) = _
    rw [hkeep, hmem, load32_store32, u32_of_lt hebp]
  · have := hword 1 (by decide)
    rw [show e - 4 - 4 * (1 + 1) = e - 12 by omega] at this
    exact this.trans ((congrArg u32 hflags).trans (u32_of_lt (load32_lt _ _)))
  · have := hword 2 (by decide)
    rw [show e - 4 - 4 * (2 + 1) = e - 16 by omega] at this
    exact this.trans (congrArg u32 (hreg .edi (by decide) (by decide)))
  · have := hword 3 (by decide)
    rw [show e - 4 - 4 * (3 + 1) = e - 20 by omega] at this
    exact this.trans (congrArg u32 (hreg .esi (by decide) (by decide)))
  · have := hword 4 (by decide)
    rw [show e - 4 - 4 * (4 + 1) = e - 24 by omega] at this
    exact this.trans (congrArg u32 (hreg .edx (by decide) (by decide)))
  · have := hword 5 (by decide)
    rw [show e - 4 - 4 * (5 + 1) = e - 28 by omega] at this
    exact this.trans (congrArg u32 (hreg .ecx (by decide) (by decide)))
  · have := hword 6 (by decide)
    rw [show e - 4 - 4 * (6 + 1) = e - 32 by omega] at this
    exact this.trans (congrArg u32 (hreg .ebx (by decide) (by decide)))
  · rw [show ({ (c₁.setReg .esp (e - 4 - 28)).setReg .ebx p.table with mem := m } : Cpu).mem x = m x from rfl,
      hsame x (by omega), hmem]
    exact store32_of_outside _ _ (by omega)

/-- The handler goes back to `syscall_exit`, with the result of the function. -/
theorem run_return (he : c.reg .esp = e - 32) (hle : 32 ≤ e) (hlt : e < 2 ^ 32) : ∃ c' : Cpu,
    run (returnCode p) (0, c) = (0, c') ∧ c'.reg .eax = u32 (c.reg .eax) ∧ c'.reg .ebx = load32 c.mem (e - 32) ∧
    c'.reg .esi = load32 c.mem (e - 20) ∧ c'.reg .edi = load32 c.mem (e - 16) ∧ c'.reg .ecx = load32 c.mem (e - 4) ∧
    c'.reg .edx = p.exit ∧ c'.flags.testBit interruptFlag = true ∧
    ∀ x, x < e - 8 ∨ e - 4 ≤ x → c'.mem x = c.mem x := by
  have hadd : u32 (e - 32 + 24) = e - 8 := by rw [u32_of_lt (by omega)]; omega
  set c₁ : Cpu := exec c (.mov (.reg .eax) (.based 0x18 .esp)) with hc₁
  have hmem : c₁.mem = store32 c.mem (e - 8) (c.reg .eax) := by
    simp [hc₁, exec, Cpu.write, Cpu.value, he, hadd]
  have hesp : c₁.reg .esp = e - 32 := he
  have hkeep : ∀ a, a + 4 ≤ e - 8 ∨ e - 4 ≤ a → load32 c₁.mem a = load32 c.mem a := fun a ha => by
    rw [hmem, load32_store32_of_disjoint _ _ (by omega)]
  obtain ⟨reg, hrun, htop, hword, -⟩ := run_pops (c := c₁) (l := [.ebx, .ecx, .edx, .esi, .edi, .ebp, .eax]) (by decide)
    (by decide) hesp (by change e - 32 + 28 < _; omega)
  change reg .esp = e - 32 + 28 at htop
  have hlast : load32 c₁.mem (reg .esp) = load32 c.mem (e - 4) := by
    rw [htop, show e - 32 + 28 = e - 4 by omega]
    exact hkeep _ (by omega)
  refine ⟨exec (exec (exec { c₁ with reg := reg } (.pop .ecx)) (.mov (.imm p.exit) (.reg .edx))) .sti, ?_, ?_, ?_, ?_,
    ?_,
    ?_, ?_, ?_, fun x hx => ?_⟩
  · rw [show returnCode p = [.mov (.reg .eax) (.based 0x18 .esp)] ++
      ([Reg.ebx, .ecx, .edx, .esi, .edi, .ebp, .eax].map Op.pop ++ [.pop .ecx, .mov (.imm p.exit) (.reg .edx), .sti])
      from rfl, run_append, run_append]
    change run _ (run _ (0, c₁)) = _
    rw [hrun]
    rfl
  · have hw : reg .eax = load32 c₁.mem (e - 32 + 4 * 6) := hword 6 (by decide)
    rw [show e - 32 + 4 * 6 = e - 8 by omega, hmem, load32_store32] at hw
    rw [← hw]
    simp [exec, Cpu.write, Cpu.drop, Cpu.setReg]
  · have hw : reg .ebx = load32 c₁.mem (e - 32 + 4 * 0) := hword 0 (by decide)
    rw [show e - 32 + 4 * 0 = e - 32 by omega, hkeep _ (by omega)] at hw
    rw [← hw]
    simp [exec, Cpu.write, Cpu.drop, Cpu.setReg]
  · have hw : reg .esi = load32 c₁.mem (e - 32 + 4 * 3) := hword 3 (by decide)
    rw [show e - 32 + 4 * 3 = e - 20 by omega, hkeep _ (by omega)] at hw
    rw [← hw]
    simp [exec, Cpu.write, Cpu.drop, Cpu.setReg]
  · have hw : reg .edi = load32 c₁.mem (e - 32 + 4 * 4) := hword 4 (by decide)
    rw [show e - 32 + 4 * 4 = e - 16 by omega, hkeep _ (by omega)] at hw
    rw [← hw]
    simp [exec, Cpu.write, Cpu.drop, Cpu.setReg]
  · rw [← hlast]
    simp [exec, Cpu.write, Cpu.drop, Cpu.top, Cpu.setReg]
  · simp [exec, Cpu.write, Cpu.value, Cpu.setReg]
  · exact testBit_setFlag ..
  · change c₁.mem x = _
    rw [hmem]
    exact store32_of_outside _ _ (by omega)

theorem testBit_popfUser (c : Cpu) (k : ℕ) :
    (popfUser c).flags.testBit k = if k ∈ ioplFlags then c.flags.testBit k else c.top.testBit k := by
  have h : (popfUser c).flags = setFlag (setFlag (setFlag c.top 9 (c.flags.testBit 9)) 12 (c.flags.testBit 12)) 13
    (c.flags.testBit 13) := rfl
  have hmem : k ∈ ioplFlags ↔ k = 9 ∨ k = 12 ∨ k = 13 := by simp [ioplFlags, interruptFlag]
  rw [h]
  by_cases h₁ : 13 = k
  · subst h₁
    rw [testBit_setFlag, if_pos (by decide)]
  rw [testBit_setFlag_of_ne _ _ h₁]
  by_cases h₂ : 12 = k
  · subst h₂
    rw [testBit_setFlag, if_pos (by decide)]
  rw [testBit_setFlag_of_ne _ _ h₂]
  by_cases h₃ : 9 = k
  · subst h₃
    rw [testBit_setFlag, if_pos (by decide)]
  rw [testBit_setFlag_of_ne _ _ h₃, if_neg (by rw [hmem]; omega)]

/-- `syscall_exit` takes the rest from the stack of the user. -/
theorem run_exit (he : c.reg .esp = e) (hlt : e + 20 < 2 ^ 32) : ∃ c' : Cpu,
    run exitCode (0, popfUser c) = (0, c') ∧ c'.reg .esp = e + 20 ∧ c'.reg .ebp = load32 c.mem (e + 4) ∧
    c'.reg .edx = load32 c.mem (e + 8) ∧ c'.reg .ecx = load32 c.mem (e + 12) ∧ c'.eip = load32 c.mem (e + 16) ∧
    (∀ r, r ∉ [Reg.esp, .ebp, .edx, .ecx] → c'.reg r = c.reg r) ∧ c'.flags = (popfUser c).flags ∧ c'.mem = c.mem := by
  have h4 : u32 (e + 4) = e + 4 := u32_of_lt (by omega)
  have hesp : (popfUser c).reg .esp = e + 4 := by
    simp [popfUser, Cpu.drop, Cpu.setReg, he, h4]
  obtain ⟨reg, hrun, htop, hword, hsame⟩ := run_pops (c := popfUser c) (l := [.ebp, .edx, .ecx]) (by decide) (by decide)
    hesp (by change e + 4 + 12 < _; omega)
  change reg .esp = e + 4 + 12 at htop
  have h20 : u32 (e + 4 + 12 + 4) = e + 20 := u32_of_lt (by omega)
  refine ⟨exec { popfUser c with reg := reg } .ret, ?_, ?_, ?_, ?_, ?_, ?_, fun r hr => ?_, rfl, rfl⟩
  · rw [show exitCode = [Reg.ebp, .edx, .ecx].map Op.pop ++ [.ret] from rfl, run_append, hrun]
    rfl
  · simp [exec, Cpu.drop, Cpu.setReg, htop, h20]
  · refine Eq.trans ?_ (hword 0 (by decide))
    simp [exec, Cpu.drop, Cpu.setReg]
  · refine Eq.trans ?_ (hword 1 (by decide))
    simp [exec, Cpu.drop, Cpu.setReg]
  · refine Eq.trans ?_ (hword 2 (by decide))
    simp [exec, Cpu.drop, Cpu.setReg]
  · change load32 c.mem (reg .esp) = _
    rw [htop]
  · rw [List.mem_cons, not_or] at hr
    have hpop : (popfUser c).reg r = c.reg r := Function.update_of_ne hr.1 ..
    rw [← hpop, ← hsame r hr.1 hr.2]
    simp [exec, Cpu.drop, Cpu.setReg, Function.update_of_ne hr.1]

/-! ## Calls -/

/-- The stack of `sysenter` and the table. -/
structure Placed (p : Places) : Prop where
  le : 36 ≤ p.esp
  lt : p.esp < 2 ^ 32
  table : p.table + 4 * SYSCALL_COUNT ≤ 2 ^ 32
  apart : p.table + 4 * SYSCALL_COUNT ≤ p.esp - 36 ∨ p.esp ≤ p.table

/-- The registers with which `syscall_entry` is called, and room for four words under the return address. -/
structure Fits (p : Places) (u : Cpu) : Prop where
  le : 16 ≤ u.reg .esp
  lt : u.reg .esp + 4 < 2 ^ 32
  regs : ∀ r, u.reg r < 2 ^ 32
  flags : u.flags < 2 ^ 32
  stack : u.reg .esp + 4 ≤ p.esp - 36 ∨ p.esp ≤ u.reg .esp - 16
  table : u.reg .esp + 4 ≤ p.table ∨ p.table + 4 * SYSCALL_COUNT ≤ u.reg .esp - 16

/-- The frame of a call, on both stacks. -/
structure Saved (p : Places) (m : Mem) (u : Cpu) : Prop where
  fits : Fits p u
  esp : load32 m (p.esp - 4) = u.reg .esp - 16
  ebx : load32 m (p.esp - 32) = u.reg .ebx
  esi : load32 m (p.esp - 20) = u.reg .esi
  edi : load32 m (p.esp - 16) = u.reg .edi
  eip : load32 m (u.reg .esp) = load32 u.mem (u.reg .esp)
  ecx : load32 m (u.reg .esp - 4) = u.reg .ecx
  edx : load32 m (u.reg .esp - 8) = u.reg .edx
  ebp : load32 m (u.reg .esp - 12) = u.reg .ebp
  flags : load32 m (u.reg .esp - 16) = u.flags

/-- The function of the number in `eax` runs, with its arguments over the return address. -/
structure Called (p : Places) (u c : Cpu) : Prop where
  eip : u.reg .eax < SYSCALL_COUNT → c.eip = u32 (p.handler (syscallTable (u.reg .eax)))
  esp : c.reg .esp = p.esp - 36
  back : load32 c.mem (p.esp - 36) = u32 p.back
  args : [Reg.ebx, .ecx, .edx, .esi, .edi].map u.reg = (List.range 5).map fun i => load32 c.mem (p.esp - 32 + 4 * i)

/-- The caller runs again, with the result `v`. -/
structure Returned (u : Cpu) (v : ℕ) (c : Cpu) : Prop where
  eax : c.reg .eax = v
  esp : c.reg .esp = u.reg .esp + 4
  eip : c.eip = load32 u.mem (u.reg .esp)
  regs : ∀ r, r ≠ .eax → r ≠ .esp → c.reg r = u.reg r
  flags : ∀ k, k ∉ ioplFlags → c.flags.testBit k = u.flags.testBit k
  interrupts : c.flags.testBit interruptFlag = true

variable {u : Cpu}

theorem Saved.same (h : Saved p m u) (hp : Placed p) (hk : ∀ x, p.esp - 32 ≤ x → x < p.esp → m' x = m x)
    (hu : ∀ x, u.reg .esp - 16 ≤ x → x < u.reg .esp + 4 → m' x = m x) : Saved p m' u := by
  have hle := hp.le
  have hfits := h.fits.le
  have hkernel : ∀ k, 4 ≤ k → k ≤ 32 → load32 m' (p.esp - k) = load32 m (p.esp - k) := fun k h₁ h₂ =>
    load32_congr fun x hx hx' => hk x (by omega) (by omega)
  have huser : ∀ k, k ≤ 16 → load32 m' (u.reg .esp - k) = load32 m (u.reg .esp - k) := fun k hk =>
    load32_congr fun x hx hx' => hu x (by omega) (by omega)
  exact ⟨h.fits, (hkernel 4 (by decide) (by decide)).trans h.esp, (hkernel 32 (by decide) (by decide)).trans h.ebx,
    (hkernel 20 (by decide) (by decide)).trans h.esi, (hkernel 16 (by decide) (by decide)).trans h.edi,
    (huser 0 (by decide)).trans h.eip, (huser 4 (by decide)).trans h.ecx, (huser 8 (by decide)).trans h.edx,
    (huser 12 (by decide)).trans h.ebp, (huser 16 (by decide)).trans h.flags⟩

/-- **The way in.** -/
theorem enter_spec (hp : Placed p) (hfits : Fits p u) (htable : ∀ n < SYSCALL_COUNT,
      load32 u.mem (p.table + 4 * n) = u32 (p.handler (syscallTable n))) :
    Called p u (enter p u) ∧ Saved p (enter p u).mem u ∧
      ∀ x, (x < p.esp - 36 ∨ p.esp ≤ x) → (x < u.reg .esp - 16 ∨ u.reg .esp ≤ x) → (enter p u).mem x = u.mem x := by
  have hle := hp.le
  have hlt := hp.lt
  have hule := hfits.le
  have hult := hfits.lt
  have hstack := hfits.stack
  have hreg : ∀ r, u32 (u.reg r) = u.reg r := fun r => u32_of_lt (hfits.regs r)
  obtain ⟨m, hrun, hecx, hedx, hebp, hflags, hsame⟩ := run_entry hfits.flags rfl hfits.le (hfits.regs _)
  rw [hreg] at hecx hedx hebp
  -- on the stack of `sysenter`
  set c₁ := sysenter p { (u.setReg .esp (u.reg .esp - 16)).setReg .ebp (u.reg .esp - 16) with mem := m } with hc₁
  have hkeep : ∀ r, r ≠ .esp → r ≠ .ebp → c₁.reg r = u.reg r := fun r h₁ h₂ => by
    simp [hc₁, sysenter, Cpu.setReg, Function.update_of_ne h₁, Function.update_of_ne h₂]
  have hebp₁ : c₁.reg .ebp = u.reg .esp - 16 := by
    simp [hc₁, sysenter, Cpu.setReg]
  have hmem₁ : c₁.mem = m := rfl
  obtain ⟨c₂, hrun₂, hesp₂, hebx₂, heax₂, hw4, -, hw16, hw20, hw24, hw28, hw32, hsame₂⟩ :=
    run_handler (p := p) (c := c₁)
    (e := p.esp) (by omega) rfl (by omega) hp.lt (by omega)
  rw [hmem₁] at hsame₂
  rw [hebp₁] at hw4
  rw [hkeep _ (by decide) (by decide), hreg] at hw16 hw20 hw24 hw28 hw32
  rw [hkeep _ (by decide) (by decide)] at heax₂
  -- the call
  have hsub : sub32 (p.esp - 32) 4 = p.esp - 36 := sub32_of_le (by omega) (by omega)
  have henter : enter p u = callTable p c₂ := by
    rw [enter, hrun, hrun₂]
  have hmem : (callTable p c₂).mem = store32 c₂.mem (p.esp - 36) p.back := by
    simp [callTable, Cpu.pushWord, hesp₂, hsub]
  have hword : ∀ k, 4 ≤ k → k ≤ 32 → load32 (callTable p c₂).mem (p.esp - k) = load32 c₂.mem (p.esp - k) :=
    fun k h₁ h₂ => by
    rw [hmem, load32_store32_of_disjoint _ _ (by omega)]
  have huser : ∀ x, x < p.esp - 36 ∨ p.esp ≤ x → (callTable p c₂).mem x = m x := fun x hx => by
    rw [hmem, store32_of_outside _ _ (by omega), hsame₂ x (by omega)]
  have hload : ∀ k, k ≤ 16 → load32 (callTable p c₂).mem (u.reg .esp - k) = load32 m (u.reg .esp - k) := fun k hk =>
    load32_congr fun x h₁ h₂ => huser x (by omega)
  have heip : load32 m (u.reg .esp) = load32 u.mem (u.reg .esp) := load32_congr fun x hx _ => hsame x (.inr hx)
  rw [henter]
  refine ⟨⟨fun hn => ?_, ?_, ?_, ?_⟩, ⟨hfits, ?_, ?_, ?_, ?_, (hload 0 (by decide)).trans heip, ?_, ?_, ?_, ?_⟩,
    fun x h₁ h₂ => (huser x h₁).trans (hsame x h₂)⟩
  · have htab := hp.table
    have hap := hp.apart
    have hut := hfits.table
    have heip : (callTable p c₂).eip = load32 c₂.mem (u32 (p.table + 4 * u.reg .eax)) := by
      rw [callTable, hebx₂, heax₂]
    rw [heip, u32_of_lt (by omega), ← htable _ hn]
    exact load32_congr fun x h₁ h₂ => (hsame₂ x (by omega)).trans (hsame x (by omega))
  · simp [callTable, Cpu.pushWord, Cpu.setReg, hesp₂, hsub]
  · rw [hmem, load32_store32]
  · have hargs : ∀ i, i < 5 → p.esp - 32 + 4 * i = p.esp - (32 - 4 * i) := fun i hi => by omega
    simp only [List.range, List.range.loop, List.map_cons, List.map_nil]
    rw [hargs 0 (by decide), hargs 1 (by decide), hargs 2 (by decide), hargs 3 (by decide), hargs 4 (by decide),
      hword _ (by decide) (by decide), hword _ (by decide) (by decide), hword _ (by decide) (by decide),
      hword _ (by decide) (by decide), hword _ (by decide) (by decide), hw32, hw28, hw24, hw20, hw16]
  · exact (hword 4 (by decide) (by decide)).trans hw4
  · exact (hword 32 (by decide) (by decide)).trans hw32
  · exact (hword 20 (by decide) (by decide)).trans hw20
  · exact (hword 16 (by decide) (by decide)).trans hw16
  · exact (hload 4 (by decide)).trans hecx
  · exact (hload 8 (by decide)).trans hedx
  · exact (hload 12 (by decide)).trans hebp
  · exact (hload 16 (by decide)).trans hflags

/-- **The way back.** -/
theorem leave_spec (hp : Placed p) (h : Saved p c.mem u) (hesp : c.reg .esp = p.esp - 32) :
    Returned u (u32 (c.reg .eax)) (leave p c) ∧ ∀ x, x < p.esp - 8 ∨ p.esp - 4 ≤ x → (leave p c).mem x = c.mem x := by
  have hle := hp.le
  have hule := h.fits.le
  have hult := h.fits.lt
  have hstack := h.fits.stack
  obtain ⟨c₁, hrun₁, heax, hebx, hesi, hedi, hecx, -, hif, hmem₁⟩ := run_return (p := p) hesp (by omega) hp.lt
  rw [h.esp] at hecx
  have hsp : (sysexit c₁).reg .esp = u.reg .esp - 16 := by
    simp [sysexit, Cpu.setReg, hecx]
  have hregs : ∀ r, r ≠ .esp → (sysexit c₁).reg r = c₁.reg r := fun r hr => by
    simp [sysexit, Cpu.setReg, Function.update_of_ne hr]
  have huser : ∀ k, k ≤ 16 → load32 (sysexit c₁).mem (u.reg .esp - k) = load32 c.mem (u.reg .esp - k) := fun k hk =>
    load32_congr fun x h₁ h₂ => hmem₁ x (by omega)
  obtain ⟨c₂, hrun₂, hesp₂, hebp₂, hedx₂, hecx₂, heip₂, hregs₂, hflags₂, hmem₂⟩ := run_exit hsp (by omega)
  have hleave : leave p c = c₂ := by
    rw [leave, hrun₁, hrun₂]
  rw [show u.reg .esp - 16 + 4 = u.reg .esp - 12 by omega, huser 12 (by decide), h.ebp] at hebp₂
  rw [show u.reg .esp - 16 + 8 = u.reg .esp - 8 by omega, huser 8 (by decide), h.edx] at hedx₂
  rw [show u.reg .esp - 16 + 12 = u.reg .esp - 4 by omega, huser 4 (by decide), h.ecx] at hecx₂
  rw [show u.reg .esp - 16 + 16 = u.reg .esp - 0 by omega, huser 0 (by decide)] at heip₂
  have htop : (sysexit c₁).top = u.flags := by
    rw [Cpu.top, hsp, huser 16 (by decide), h.flags]
  rw [hleave]
  refine ⟨⟨?_, ?_, heip₂.trans h.eip, fun r h₁ h₂ => ?_, fun k hk => ?_, ?_⟩, fun x hx => ?_⟩
  · rw [hregs₂ _ (by decide), hregs _ (by decide), heax]
  · omega
  · cases r with
    | eax => exact absurd rfl h₁
    | esp => exact absurd rfl h₂
    | ecx => exact hecx₂
    | edx => exact hedx₂
    | ebp => exact hebp₂
    | ebx => rw [hregs₂ _ (by decide), hregs _ (by decide), hebx, h.ebx]
    | esi => rw [hregs₂ _ (by decide), hregs _ (by decide), hesi, h.esi]
    | edi => rw [hregs₂ _ (by decide), hregs _ (by decide), hedi, h.edi]
  · rw [hflags₂, testBit_popfUser, if_neg hk, htop]
  · rw [hflags₂, testBit_popfUser, if_pos (by decide)]
    exact hif
  · rw [hmem₂]
    exact hmem₁ x hx

/-! ## Runs -/

/-- The processor, and the registers with which `syscall_entry` was called last. -/
structure CallCfg where
  cpu : Cpu
  last : Option Cpu

inductive CallOp
  | enter
  /-- Everything else: users, the function of a system call, other tasks. -/
  | work (cpu : Cpu)
  | leave

def callStep (p : Places) (s : CallCfg) : CallOp → CallCfg
  | .enter => ⟨enter p s.cpu, some s.cpu⟩
  | .work cpu => { s with cpu := cpu }
  | .leave => ⟨leave p s.cpu, none⟩

/-- The table is kept, and the frame of the last call; the function returns to the handler. -/
def CallOp.Legal (p : Places) (s : CallCfg) : CallOp → Prop
  | .enter => Fits p s.cpu
  | .work cpu => (∀ x, p.table ≤ x → x < p.table + 4 * SYSCALL_COUNT → cpu.mem x = s.cpu.mem x) ∧
      ∀ u ∈ s.last, (∀ x, p.esp - 32 ≤ x → x < p.esp → cpu.mem x = s.cpu.mem x) ∧
        ∀ x, u.reg .esp - 16 ≤ x → x < u.reg .esp + 4 → cpu.mem x = s.cpu.mem x
  | .leave => s.last ≠ none ∧ s.cpu.reg .esp = p.esp - 32 ∧ s.cpu.eip = u32 p.back

def CallMove (p : Places) (s : CallCfg) (op : CallOp) (s' : CallCfg) : Prop := op.Legal p s ∧ s' = callStep p s op

structure CallInv (p : Places) (s : CallCfg) : Prop where
  table : ∀ n < SYSCALL_COUNT, load32 s.cpu.mem (p.table + 4 * n) = u32 (p.handler (syscallTable n))
  saved : ∀ u ∈ s.last, Saved p s.cpu.mem u

variable {s s' s₀ s₁ s₂ s₃ s₄ : CallCfg} {op : CallOp} {ops ops₀ : List CallOp}

theorem CallInv.step (hp : Placed p) (h : CallInv p s) (hm : CallMove p s op s') : CallInv p s' := by
  have htab : ∀ m : Mem, (∀ x, p.table ≤ x → x < p.table + 4 * SYSCALL_COUNT → m x = s.cpu.mem x) →
      ∀ n < SYSCALL_COUNT, load32 m (p.table + 4 * n) = u32 (p.handler (syscallTable n)) := fun m hm n hn =>
    (load32_congr fun x h₁ h₂ => hm x (by omega) (by omega)).trans (h.table n hn)
  have hap := hp.apart
  have hle := hp.le
  obtain ⟨hlegal, rfl⟩ := hm
  cases op with
  | enter =>
    have hfits : Fits p s.cpu := hlegal
    obtain ⟨-, hsaved, hsame⟩ := enter_spec hp hfits h.table
    have hut := hfits.table
    refine ⟨htab _ fun x h₁ h₂ => hsame x (by omega) (by omega), fun u hu => ?_⟩
    cases hu
    exact hsaved
  | work cpu => exact ⟨htab _ hlegal.1, fun u hu => (h.saved u hu).same hp (hlegal.2 u hu).1 (hlegal.2 u hu).2⟩
  | leave =>
    obtain ⟨u, hu⟩ := Option.ne_none_iff_exists'.mp hlegal.1
    obtain ⟨-, hsame⟩ := leave_spec hp (h.saved u hu) hlegal.2.1
    exact ⟨htab _ fun x h₁ h₂ => hsame x (by omega), fun v hv => by cases hv⟩

theorem callInv_run (hp : Placed p) (h : CallInv p s) (hrun : Run (CallMove p) s ops s') : CallInv p s' :=
  hrun.invariant (fun _ _ _ h hm => h.step hp hm) h

theorem last_run (hrun : Run (CallMove p) s ops s') (hops : ∀ op ∈ ops, ∃ cpu, op = .work cpu) : s'.last = s.last := by
  induction hrun with
  | nil s => rfl
  | cons h _ ih =>
    obtain ⟨⟨cpu, rfl⟩, hrest⟩ := List.forall_mem_cons.mp hops
    rw [ih hrest, h.2]
    rfl

/-- **Every system call**: the function of the number in `eax` runs with the arguments of the caller, and when the
function returns and no call was made or has returned meanwhile, the caller runs again. Earlier calls need not have
returned. -/
theorem syscall_returns (hp : Placed p) (hinit : s₀.cpu.mem = syscallInit p m) (hlast : s₀.last = none)
    (hrun₀ : Run (CallMove p) s₀ ops₀ s₁) (hcall : CallMove p s₁ .enter s₂) (hrun : Run (CallMove p) s₂ ops s₃)
    (hops : ∀ op ∈ ops, ∃ cpu, op = .work cpu) (hret : CallMove p s₃ .leave s₄) :
    Called p s₁.cpu s₂.cpu ∧ Returned s₁.cpu (u32 (s₃.cpu.reg .eax)) s₄.cpu := by
  have h₀ : CallInv p s₀ := ⟨fun n hn => by rw [hinit, load32_init hn], fun u hu => by rw [hlast] at hu; cases hu⟩
  have h₁ := callInv_run hp h₀ hrun₀
  have h₃ := callInv_run hp (h₁.step hp hcall) hrun
  have hlast₃ : s₃.last = some s₁.cpu := by
    rw [last_run hrun hops, hcall.2]
    rfl
  obtain ⟨hfits, rfl⟩ := hcall
  obtain ⟨hlegal, rfl⟩ := hret
  exact ⟨(enter_spec hp hfits h₁.table).1, (leave_spec hp (h₃.saved _ hlast₃) hlegal.2.1).1⟩

/-! ## A call of `dup` -/

def demoPlaces : Places := ⟨0x10000, 0x2000, 0x3000, 0x8000, fun _ => 0x5000⟩

def demoUser : Cpu :=
  ⟨fun | .eax => 41 | .ebx => 1 | .esp => 0x4000 | _ => 7, 0x6000, 0, 0x202, syscallInit demoPlaces fun _ => 0⟩

/-- The function returns 5. -/
def demoResult (c : Cpu) : Cpu := { (c.setReg .esp (0x8000 - 32)).setReg .eax 5 with eip := u32 0x3000 }

theorem demo_placed : Placed demoPlaces := ⟨by decide, by decide, by decide, by decide⟩

theorem demo_fits : Fits demoPlaces demoUser :=
  ⟨by decide, by decide, fun r => by cases r <;> decide, by decide, by decide, by decide⟩

def demoStart : CallCfg := ⟨demoUser, none⟩

theorem demo_mem : demoStart.cpu.mem = syscallInit demoPlaces fun _ => 0 := by rw [demoStart, demoUser]

theorem demo_work {s : CallCfg} : CallMove p s (.work (demoResult s.cpu)) { s with cpu := demoResult s.cpu } :=
  ⟨⟨fun _ _ _ => rfl, fun _ _ => ⟨fun _ _ _ => rfl, fun _ _ _ => rfl⟩⟩, rfl⟩

theorem demo_esp (c : Cpu) : (demoResult c).reg .esp = 0x8000 - 32 := by
  simp [demoResult, Cpu.setReg]

theorem demo_eax (c : Cpu) : (demoResult c).reg .eax = 5 := by
  simp [demoResult, Cpu.setReg]

theorem syscall_returns_dup :
    ∃ c, Returned demoUser 5 c ∧ Called demoPlaces demoUser (enter demoPlaces demoUser) ∧
      syscallTable 41 = .syscallDup := by
  have h := syscall_returns demo_placed demo_mem rfl (.nil _) ⟨demo_fits, rfl⟩ (.single demo_work)
    (fun op hop => ⟨_, List.mem_singleton.mp hop⟩) ⟨⟨Option.some_ne_none _, demo_esp _, rfl⟩, rfl⟩
  rw [demo_eax] at h
  exact ⟨_, h.2, h.1, rfl⟩

end BulbOS.Syscall
