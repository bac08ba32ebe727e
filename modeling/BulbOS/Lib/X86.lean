import BulbOS.Lib.Bytes
import Mathlib.Data.Nat.Bitwise
import Mathlib.Logic.Function.Basic

/-!
# Some instructions of the 32-bit x86

A sequence of instructions, which a jump leaves only for a place behind it; addresses and registers are 32-bit values.

* `Cpu`, `Op`, `exec`: the registers, the instructions and what they do; `run`: a sequence of them;
* `run_append`: one sequence after another; `testBit_setFlag`: flags;
* `run_pushes`, `run_pops`: registers on the stack.
-/

namespace KLib.X86

inductive Reg
  | eax
  | ecx
  | edx
  | ebx
  | esp
  | ebp
  | esi
  | edi
  deriving DecidableEq, Repr

structure Cpu where
  reg : Reg → ℕ
  eip : ℕ
  cr3 : ℕ
  flags : ℕ
  mem : Mem

/-- A constant, a register, or the word at an address; `disp(base)` is the last one. -/
inductive Operand
  | imm (n : ℕ)
  | reg (r : Reg)
  | abs (addr : ℕ)
  | based (disp : ℕ) (base : Reg)

/-- `mov` has its source first. `je` goes past the next `skip` instructions. -/
inductive Op
  | push (src : Reg)
  | pop (dst : Reg)
  | pushf
  | popf
  | mov (src dst : Operand)
  | movFromCr3 (dst : Reg)
  | movToCr3 (src : Reg)
  | cmp (a b : Reg)
  | je (skip : ℕ)
  | cli
  | sti
  | ret

/-- `ZF` and `IF`. -/
def zeroFlag : ℕ := 6
def interruptFlag : ℕ := 9

def setFlag (flags n : ℕ) (b : Bool) : ℕ := if flags.testBit n = b then flags else flags ^^^ 2 ^ n

namespace Cpu

def setReg (c : Cpu) (r : Reg) (v : ℕ) : Cpu := { c with reg := Function.update c.reg r v }

def value (c : Cpu) : Operand → ℕ
  | .imm n => n
  | .reg r => c.reg r
  | .abs addr => load32 c.mem addr
  | .based disp base => load32 c.mem (u32 (c.reg base + disp))

def write (c : Cpu) (v : ℕ) : Operand → Cpu
  | .imm _ => c
  | .reg r => c.setReg r v
  | .abs addr => { c with mem := store32 c.mem addr v }
  | .based disp base => { c with mem := store32 c.mem (u32 (c.reg base + disp)) v }

/-- The stack grows to lower addresses. -/
def pushWord (c : Cpu) (v : ℕ) : Cpu :=
  let esp := sub32 (c.reg .esp) 4
  { c.setReg .esp esp with mem := store32 c.mem esp v }

/-- The word on the top of the stack, and the stack without it. -/
def top (c : Cpu) : ℕ := load32 c.mem (c.reg .esp)

def drop (c : Cpu) : Cpu := c.setReg .esp (u32 (c.reg .esp + 4))

end Cpu

def exec (c : Cpu) : Op → Cpu
  | .push src => c.pushWord (c.reg src)
  | .pop dst => c.drop.setReg dst c.top
  | .pushf => c.pushWord c.flags
  | .popf => { c.drop with flags := c.top }
  | .mov src dst => c.write (c.value src) dst
  | .movFromCr3 dst => c.setReg dst c.cr3
  | .movToCr3 src => { c with cr3 := c.reg src }
  | .cmp a b => { c with flags := setFlag c.flags zeroFlag (decide (c.reg a = c.reg b)) }
  | .je _ => c
  | .cli => { c with flags := setFlag c.flags interruptFlag false }
  | .sti => { c with flags := setFlag c.flags interruptFlag true }
  | .ret => { c.drop with eip := c.top }

/-- The instructions that a jump goes past come first. -/
def stepOp : ℕ × Cpu → Op → ℕ × Cpu
  | (skip + 1, c), _ => (skip, c)
  | (0, c), .je skip => (if c.flags.testBit zeroFlag then skip else 0, c)
  | (0, c), op => (0, exec c op)

def run (ops : List Op) (s : ℕ × Cpu) : ℕ × Cpu := ops.foldl stepOp s

theorem run_append (ops ops' : List Op) (s : ℕ × Cpu) : run (ops ++ ops') s = run ops' (run ops s) :=
    List.foldl_append ..

theorem run_cons (op : Op) (ops : List Op) (s : ℕ × Cpu) : run (op :: ops) s = run ops (stepOp s op) := rfl

@[simp] theorem testBit_setFlag (flags n : ℕ) (b : Bool) : (setFlag flags n b).testBit n = b := by
  unfold setFlag
  split_ifs with h
  · exact h
  · rw [Nat.testBit_xor, Nat.testBit_two_pow_self, Bool.xor_true]
    cases hb : flags.testBit n <;> cases b <;> simp_all

theorem testBit_setFlag_of_ne (flags : ℕ) {n k : ℕ} (b : Bool) (h : n ≠ k) :
    (setFlag flags n b).testBit k = flags.testBit k := by
  unfold setFlag
  split_ifs
  · rfl
  · rw [Nat.testBit_xor, Nat.testBit_two_pow_of_ne h, Bool.xor_false]

/-! ## Registers on the stack -/

variable {c : Cpu} {l : List Reg} {e : ℕ}

theorem run_pushes (hesp : .esp ∉ l) (he : c.reg .esp = e) (hle : 4 * l.length ≤ e) (hlt : e < 2 ^ 32) : ∃ m : Mem,
    run (l.map Op.push) (0, c) = (0, { c.setReg .esp (e - 4 * l.length) with mem := m }) ∧
    (∀ i (hi : i < l.length), load32 m (e - 4 * (i + 1)) = u32 (c.reg (l.get ⟨i, hi⟩))) ∧
    ∀ x, x < e - 4 * l.length ∨ e ≤ x → m x = c.mem x := by
  induction l generalizing c e with
  | nil =>
    refine ⟨c.mem, ?_, fun i hi => absurd hi (Nat.not_lt_zero i), fun _ _ => rfl⟩
    rw [List.length_nil, Nat.mul_zero, Nat.sub_zero, ← he, Cpu.setReg, Function.update_eq_self]
    rfl
  | cons r l ih =>
    rw [List.length_cons] at hle
    have hne : r ≠ .esp := fun e => hesp (e ▸ List.mem_cons_self)
    have hsub : sub32 e 4 = e - 4 := sub32_of_le (by omega) hlt
    have hesp' : (exec c (.push r)).reg .esp = e - 4 := by
      simp [exec, Cpu.pushWord, Cpu.setReg, he, hsub]
    have hmem : (exec c (.push r)).mem = store32 c.mem (e - 4) (c.reg r) := by
      simp [exec, Cpu.pushWord, he, hsub]
    obtain ⟨m, hrun, hword, hsame⟩ := ih (fun h => hesp (List.mem_cons_of_mem _ h)) hesp' (by omega) (by omega)
    refine ⟨m, ?_, fun i hi => ?_, fun x hx => ?_⟩
    · rw [List.map_cons, run_cons]
      refine hrun.trans ?_
      rw [List.length_cons, show e - 4 - 4 * l.length = e - 4 * (l.length + 1) by omega]
      simp [exec, Cpu.pushWord, Cpu.setReg]
    · cases i with
      | zero =>
        rw [show e - 4 * (0 + 1) = e - 4 by omega]
        have hload : load32 m (e - 4) = load32 (exec c (.push r)).mem (e - 4) :=
          load32_congr fun x h₁ _ => hsame x (.inr h₁)
        rw [hload, hmem, load32_store32]
        rfl
      | succ i =>
        rw [List.length_cons] at hi
        have hi' : i < l.length := by omega
        have hr : l.get ⟨i, hi'⟩ ≠ .esp := fun e => hesp (List.mem_cons_of_mem _ (e ▸ List.get_mem l ⟨i, hi'⟩))
        rw [show e - 4 * (i + 1 + 1) = e - 4 - 4 * (i + 1) by omega, hword i hi']
        simp only [exec, Cpu.pushWord, Cpu.setReg]
        rw [Function.update_of_ne hr]
        rfl
    · rw [List.length_cons] at hx
      rw [hsame x (by omega), hmem]
      exact store32_of_outside _ _ (by omega)

/-- Popped registers get the words one above the other; the other registers are kept. -/
theorem run_pops (hesp : .esp ∉ l) (hnd : l.Nodup) (he : c.reg .esp = e) (hlt : e + 4 * l.length < 2 ^ 32) :
    ∃ reg : Reg → ℕ, run (l.map Op.pop) (0, c) = (0, { c with reg := reg }) ∧ reg .esp = e + 4 * l.length ∧
    (∀ i (hi : i < l.length), reg (l.get ⟨i, hi⟩) = load32 c.mem (e + 4 * i)) ∧
    ∀ r, r ≠ .esp → r ∉ l → reg r = c.reg r := by
  induction l generalizing c e with
  | nil => exact ⟨c.reg, rfl, he, fun i hi => absurd hi (Nat.not_lt_zero i), fun _ _ _ => rfl⟩
  | cons r l ih =>
    rw [List.length_cons] at hlt
    obtain ⟨hr, hnd⟩ := List.nodup_cons.mp hnd
    have hne : r ≠ .esp := fun e => hesp (e ▸ List.mem_cons_self)
    have hadd : u32 (e + 4) = e + 4 := u32_of_lt (by omega)
    have hesp' : (exec c (.pop r)).reg .esp = e + 4 := by
      simp [exec, Cpu.drop, Cpu.setReg, Function.update_of_ne hne.symm, he, hadd]
    have hself : (exec c (.pop r)).reg r = load32 c.mem e := by
      simp [exec, Cpu.drop, Cpu.top, Cpu.setReg, he]
    obtain ⟨reg, hrun, htop, hword, hsame⟩ := ih (fun h => hesp (List.mem_cons_of_mem _ h)) hnd hesp' (by omega)
    refine ⟨reg, ?_, ?_, fun i hi => ?_, fun q hq hmem => ?_⟩
    · rw [List.map_cons, run_cons]
      exact hrun
    · rw [htop, List.length_cons]
      omega
    · cases i with
      | zero =>
        change reg r = load32 c.mem (e + 4 * 0)
        rw [hsame r hne hr, hself, Nat.mul_zero, Nat.add_zero]
      | succ i =>
        rw [List.length_cons] at hi
        have hi' : i < l.length := by omega
        change reg (l.get ⟨i, hi'⟩) = _
        rw [hword i hi', show e + 4 + 4 * i = e + 4 * (i + 1) by omega]
        rfl
    · have hqr : q ≠ r := fun e => hmem (e ▸ List.mem_cons_self)
      rw [hsame q hq fun h => hmem (List.mem_cons_of_mem r h)]
      simp [exec, Cpu.drop, Cpu.setReg, Function.update_of_ne hqr, Function.update_of_ne hq]

end KLib.X86
