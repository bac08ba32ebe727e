import BulbOS.Ide.Program
import Mathlib.Data.Set.Lattice
import Mathlib.Order.CompletePartialOrder
import Mathlib.Order.Interval.Set.Basic

/-!
# The sectors of a block

`bio_read` and `bio_write` multiply the block number by the size of a block with 32 bits, so that a block from
`2 ^ 22` on is taken for the one with the same last 22 bits.

* `bioAccess`: the code of the two functions; `bioAccess_wraps`: the number of the block matters modulo `2 ^ 22`;
* `bioAccess_commands`: the one command that the code writes;
* **`sectors_distinct_iff`**: two blocks have ranges and sectors of their own exactly if both are below `2 ^ 22`.
-/

namespace BulbOS.Ide

open KLib

variable {t device block : ℕ} {isWrite : Bool} {s : IdeState}

/-! ## The code -/

/-- The size of a block. -/
def blockSize : ℕ := 1024

/-- `bio_write`, but for `buf->valid`. -/
def bioWrite (device block size : ℕ) : Option (List Instr) := ideWriteDisk device (u32 (block * size)) size

def bioAccess (device block : ℕ) (isWrite : Bool) : Option (List Instr) :=
  if isWrite then bioWrite device block blockSize else bioRead device block blockSize

/-- The bytes that the IDE layer is asked for. -/
def asked (block : ℕ) : Set ℕ := Set.Ico (u32 (block * blockSize)) (u32 (block * blockSize) + blockSize)

theorem blockAddr_eq (block : ℕ) : u32 (block * blockSize) = block % 2 ^ 22 * blockSize := by
  unfold u32 blockSize
  omega

theorem bioAccess_wraps : bioAccess device block isWrite = bioAccess device (block % 2 ^ 22) isWrite := by
  unfold bioAccess bioWrite bioRead
  rw [blockAddr_eq, blockAddr_eq, Nat.mod_mod]

theorem asked_disjoint {b₁ b₂ : ℕ} : Disjoint (asked b₁) (asked b₂) ↔ b₁ % 2 ^ 22 ≠ b₂ % 2 ^ 22 := by
  unfold asked
  rw [blockAddr_eq, blockAddr_eq]
  constructor
  · intro h e
    have hmem : b₁ % 2 ^ 22 * blockSize ∈ Set.Ico (b₁ % 2 ^ 22 * blockSize) (b₁ % 2 ^ 22 * blockSize + blockSize) :=
      ⟨le_rfl, Nat.lt_add_of_pos_right (by decide)⟩
    exact Set.disjoint_left.mp h hmem (e ▸ hmem)
  · intro h
    refine Set.disjoint_left.mpr fun a h₁ h₂ => h ?_
    obtain ⟨hlo₁, hhi₁⟩ := h₁
    obtain ⟨hlo₂, hhi₂⟩ := h₂
    unfold blockSize at *
    omega

/-! ## The command -/

/-- The sectors of a command. -/
def Command.sectorList (c : Command) : List ℕ := List.range' c.lba c.sectors

/-- An access that writes no command. -/
def Instr.Silent : Instr → Prop
  | .write _ reg _ => reg ≠ .command
  | _ => True

theorem foldl_silent {l : List Instr} (h : ∀ i ∈ l, i.Silent) (ch : ℕ) :
    ((l.foldl (ideExec t) s).chan ch).commands = (s.chan ch).commands := by
  induction l generalizing s with
  | nil => rfl
  | cons i l ih =>
    have hi := h i List.mem_cons_self
    rw [List.foldl_cons, ih fun j hj => h j (List.mem_cons_of_mem _ hj)]
    cases i with
    | prdt channel => exact setChan_commands (x := { s.chan channel with prdt := true }) rfl ch
    | write channel reg data => exact setChan_commands (out_commands hi _) ch
    | _ => rfl

theorem ideFillLoop_block : ideFillLoop blockSize isWrite (2 ^ 32) 0 0 =
    some (ideSetPrdEntry 0 blockSize ++
      (if isWrite then (List.range blockSize).map fun i => .fill (1024 * 0 + i) (0 + i) else []) ++ [], 1) :=
  @ideFillLoop_chunks 1 blockSize (2 ^ 32) blockSize 0 1 isWrite rfl (by decide) rfl (by decide) rfl (by decide)

/-- The code before the registers are written. -/
def tableFill (device : ℕ) (isWrite : Bool) : List Instr :=
  [.request device] ++ (ideSetPrdt (deviceChannel device) ++ (ideSetPrdEntry 0 blockSize ++
    (if isWrite then (List.range blockSize).map fun i => .fill (1024 * 0 + i) (0 + i) else []) ++ []) ++
    [.prd 0 fun e => { e with reserved := e.reserved ||| 1 <<< 15 },
      .write (deviceChannel device) .busCom (if isWrite then 1 <<< 3 else 0),
      .write (deviceChannel device) .busCom 1]) ++ [.poll (deviceChannel device)]

/-- The code after the command. -/
def afterCommand (isWrite : Bool) : List Instr :=
  .block :: if isWrite then [] else ideReadDiskBuffer 0 blockSize ++ [.valid]

theorem bioAccess_eq (h : block < 2 ^ 22) : bioAccess device block isWrite =
    some (tableFill device isWrite ++ sendCode device (2 * block) 2 isWrite ++ afterCommand isWrite) := by
  have haddr : u32 (block * blockSize) / 512 = 2 * block := by
    rw [blockAddr_eq, Nat.mod_eq_of_lt h]
    unfold blockSize
    omega
  have hlba : ¬ 2 * block > 0x10000000 := by omega
  have hcode : ideAccessDisk device (2 * block) blockSize isWrite =
      some (tableFill device isWrite ++ sendCode device (2 * block) 2 isWrite ++ [.block]) := by
    rw [ideAccessDisk, if_neg (by decide), ideFillPrdTable, ideFillLoop_block]
    simp only [Option.bind_eq_bind, Option.bind_some, Option.pure_def, if_neg hlba, tableFill, sendCode,
      List.append_assoc, List.cons_append, List.nil_append]
    rfl
  unfold bioAccess bioWrite bioRead ideWriteDisk ideReadDisk
  rw [haddr]
  cases isWrite with
  | true => rw [if_pos rfl, hcode]; rfl
  | false =>
    rw [if_neg Bool.false_ne_true, hcode]
    simp only [Option.bind_eq_bind, Option.bind_some, Option.pure_def, afterCommand, List.append_assoc,
      List.cons_append, List.nil_append, Bool.false_eq_true, if_false]

theorem tableFill_silent : ∀ i ∈ tableFill device isWrite, i.Silent := by
  intro i hi
  cases isWrite <;>
    simp only [tableFill, ideSetPrdt, ideSetPrdEntry, List.mem_append, List.mem_cons, List.mem_map, List.not_mem_nil,
      or_false, Bool.false_eq_true, if_false, if_true] at hi
  · rcases hi with (rfl | (rfl | rfl | rfl | rfl) | rfl | rfl | rfl) | rfl <;> first | trivial | exact Reg.noConfusion
  · rcases hi with (rfl | (rfl | (rfl | rfl | rfl) | ⟨j, -, rfl⟩) | rfl | rfl | rfl) | rfl <;>
      first | trivial | exact Reg.noConfusion

theorem afterCommand_silent : ∀ i ∈ afterCommand isWrite, i.Silent := by
  intro i hi
  cases isWrite <;>
    simp only [afterCommand, ideReadDiskBuffer, List.mem_append, List.mem_cons, List.mem_map, List.not_mem_nil,
      or_false, Bool.false_eq_true, if_false, if_true] at hi
  · rcases hi with rfl | ⟨j, -, rfl⟩ | rfl <;> trivial
  · subst hi
    trivial

theorem sendCode_to {lba sectors : ℕ} : ∀ i ∈ sendCode device lba sectors isWrite, i.To (deviceChannel device) := by
  intro i hi
  simp only [sendCode, ideSetDevice, List.mem_append, List.mem_cons, List.not_mem_nil, or_false] at hi
  rcases hi with (rfl | rfl | rfl | rfl | rfl | rfl | rfl | rfl | rfl | rfl | rfl | rfl) | rfl | rfl | rfl <;> trivial

/-- **The one command of an access**, whatever the controller held. -/
theorem bioAccess_commands (h : block < 2 ^ 22) (t : ℕ) (s : IdeState) :
    (((tableFill device isWrite ++ sendCode device (2 * block) 2 isWrite ++ afterCommand isWrite).foldl
      (ideExec t) s).chan (deviceChannel device)).commands = (s.chan (deviceChannel device)).commands ++
        [⟨t, deviceDrive device, 2 * block, 2, isWrite, false⟩] := by
  rw [List.foldl_append, List.foldl_append, foldl_silent afterCommand_silent, foldl_writes sendCode_to]
  have hself : ∀ (s : IdeState) (ch : ℕ) (x : Channel), (s.setChan ch x).chan ch = x := fun s ch x =>
    Function.update_self ..
  rw [hself, sendCode_commands (by omega) (by decide) (by decide), foldl_silent tableFill_silent]

/-! ## Blocks and sectors -/

/-- Whatever the controller holds, the access of a block sends it one command, for the two sectors of the block. -/
def Exact (device block : ℕ) (isWrite : Bool) : Prop :=
  ∃ code, bioAccess device block isWrite = some code ∧ ∀ t s, ∃ c : Command,
    ((code.foldl (ideExec t) s).chan (deviceChannel device)).commands =
      (s.chan (deviceChannel device)).commands ++ [c] ∧
    c.drive = deviceDrive device ∧ c.isWrite = isWrite ∧ c.sectorList = [2 * block, 2 * block + 1]

/-- A controller with no command. -/
def idleIde : IdeState :=
  ⟨fun _ => ⟨fun _ => 0, fun _ => 0, 0, 0, false, false, []⟩, fun _ => ⟨0, 0, 0⟩, fun _ => 0, 0, 0, fun _ _ => 0⟩

theorem exact_iff : Exact device block isWrite ↔ block < 2 ^ 22 := by
  have hlt : block % 2 ^ 22 < 2 ^ 22 := Nat.mod_lt _ (Nat.two_pow_pos 22)
  constructor
  · rintro ⟨code, hcode, h⟩
    rw [bioAccess_wraps, bioAccess_eq hlt] at hcode
    cases hcode
    obtain ⟨c, hc, -, -, hsectors⟩ := h 0 idleIde
    rw [bioAccess_commands hlt] at hc
    obtain rfl : _ = c := List.singleton_inj.mp (List.append_cancel_left hc)
    have hfirst : 2 * (block % 2 ^ 22) = 2 * block := (List.cons.inj hsectors).1
    omega
  · intro h
    exact ⟨_, bioAccess_eq h, fun t s => ⟨_, bioAccess_commands h t s, rfl, rfl, rfl⟩⟩

/-- **Two blocks have byte ranges and sectors of their own** exactly if both are below `2 ^ 22`. -/
theorem sectors_distinct_iff {b₁ b₂ : ℕ} (hne : b₁ ≠ b₂) :
    (Disjoint (asked b₁) (asked b₂) ∧ ∀ isWrite, Exact device b₁ isWrite ∧ Exact device b₂ isWrite) ↔
      b₁ < 2 ^ 22 ∧ b₂ < 2 ^ 22 := by
  constructor
  · rintro ⟨-, h⟩
    exact ⟨exact_iff.mp (h true).1, exact_iff.mp (h true).2⟩
  · rintro ⟨h₁, h₂⟩
    refine ⟨asked_disjoint.mpr ?_, fun isWrite => ⟨exact_iff.mpr h₁, exact_iff.mpr h₂⟩⟩
    rwa [Nat.mod_eq_of_lt h₁, Nat.mod_eq_of_lt h₂]

/-- The blocks `5` and `9`. -/
theorem sectors_distinct_iff_low : (5 : ℕ) ≠ 9 ∧ Disjoint (asked 5) (asked 9) ∧
    ∀ isWrite, Exact 0 5 isWrite ∧ Exact 0 9 isWrite :=
  ⟨by decide, (sectors_distinct_iff (by decide)).mpr ⟨by decide, by decide⟩⟩

/-- Block `2 ^ 22` is taken for block `0`. -/
theorem block_wraps : ¬Disjoint (asked 0) (asked (2 ^ 22)) ∧ ∀ isWrite, ¬Exact 0 (2 ^ 22) isWrite := by
  refine ⟨fun h => asked_disjoint.mp h rfl, fun isWrite h => ?_⟩
  exact absurd (exact_iff.mp h) (lt_irrefl _)

end BulbOS.Ide
