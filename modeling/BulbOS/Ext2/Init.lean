import BulbOS.Ext2.Holes

/-!
# The group descriptors (`ext2_init`)

`ext2_init` allocates whole blocks for the descriptors and copies one block per group, to the place of the group's
descriptor.

* `Fs.bgdCount`, `Fs.bgdBytes`: the copies and the bytes allocated; `loadBgds`: the loop;
* `loadBgds_spec`: what is left of a copy after the later ones;
* `rupDivision_eq`: rounding up, and when the sum wraps around; `copies_inside_iff`: when the copies fit;
* **`descriptors_loaded_iff`**: when the descriptors are those of the table.
-/

namespace BulbOS.Ext2

open KLib

/-- `sizeof(ext2_bgd_t)`. -/
def sizeofBgd : ℕ := 32

/-- `RUP_DIVISION`, of unsigned 32-bit values. -/
def rupDivision (x y : ℕ) : ℕ := u32 (x + sub32 y 1) / y

/-- `BGD_PER_BLOCK`. -/
def Fs.bgdPerBlock (s : Fs) : ℕ := s.blockSize / sizeofBgd

def Fs.bgdCount (s : Fs) : ℕ := rupDivision s.sblock.totalBlocks s.sblock.blocksPg

def Fs.bgdBlocks (s : Fs) : ℕ := rupDivision s.bgdCount s.bgdPerBlock

/-- The size of the memory that is allocated for `bg_descrs`. -/
def Fs.bgdBytes (s : Fs) : ℕ := u32 (s.blockSize * s.bgdBlocks)

/-- The first `n` rounds of the loop; `mem` is the memory from `bg_descrs` on. -/
def loadBgds (s : Fs) (device : ℕ) (mem : Mem) (n : ℕ) : Mem :=
  (List.range n).foldl (fun mem i =>
    copyBytes mem (sizeofBgd * i) (ext2ReadBlock s device (u32 (2 + u32 (i * s.sblock.blocksPg)))) 0 s.blockSize) mem

variable {s : Fs} {device n i : ℕ} {mem : Mem}

/-! ## What is loaded -/

theorem blockSize_le (s : Fs) : 1024 ≤ s.blockSize := by
  rw [Fs.blockSize, Nat.shiftLeft_eq]
  exact Nat.le_mul_of_pos_right _ (Nat.two_pow_pos _)

theorem loadBgds_succ : loadBgds s device mem (n + 1) = copyBytes (loadBgds s device mem n) (sizeofBgd * n)
    (ext2ReadBlock s device (u32 (2 + u32 (n * s.sblock.blocksPg)))) 0 s.blockSize := by
  rw [loadBgds, List.range_succ, List.foldl_append]
  rfl

theorem loadBgds_spec (hi : i < n) {y : ℕ} (hy : y < sizeofBgd) :
    loadBgds s device mem n (sizeofBgd * i + y) = s.disk device (u32 (2 + u32 (i * s.sblock.blocksPg))) y := by
  have hbs := blockSize_le s
  induction n with
  | zero => omega
  | succ n ih =>
    unfold sizeofBgd at *
    rw [loadBgds_succ, copyBytes, sizeofBgd]
    by_cases hin : i = n
    · subst hin
      rw [if_pos (by omega), Nat.add_sub_cancel_left, Nat.zero_add]
      rfl
    · rw [if_neg (by omega)]
      exact ih (by omega)

/-! ## Sizes -/

theorem rupDivision_eq {x y : ℕ} (hx : x < 2 ^ 32) (h₀ : 0 < y) (hy : y < 2 ^ 32) :
    rupDivision x y = if x + (y - 1) < 2 ^ 32 then (x + (y - 1)) / y else 0 := by
  rw [rupDivision, sub32_of_le h₀ hy]
  by_cases h : x + (y - 1) < 2 ^ 32
  · rw [if_pos h, u32_of_lt h]
  · rw [if_neg h, u32, Nat.mod_eq_sub_mod (by omega), Nat.mod_eq_of_lt (by omega)]
    exact Nat.div_eq_of_lt (by omega)

theorem blockSize_eq (s : Fs) : s.blockSize = sizeofBgd * s.bgdPerBlock ∧ 32 ≤ s.bgdPerBlock := by
  have hbs : s.blockSize = 1024 * 2 ^ s.sblock.logBlockSize := Nat.shiftLeft_eq _ _
  have hpos : 0 < 2 ^ s.sblock.logBlockSize := Nat.two_pow_pos _
  unfold Fs.bgdPerBlock sizeofBgd
  omega

theorem copies_inside_iff (hcount : s.bgdCount < 2 ^ 32) (hper : s.blockSize < 2 ^ 32) (h₀ : 0 < s.bgdCount) :
    (∀ i < s.bgdCount, sizeofBgd * i + s.blockSize ≤ s.bgdBytes) ↔
      s.bgdCount % s.bgdPerBlock = 1 ∧ sizeofBgd * (s.bgdCount - 1) + s.blockSize < 2 ^ 32 := by
  obtain ⟨hbs, hper₀⟩ := blockSize_eq s
  have hblocks := rupDivision_eq hcount (show 0 < s.bgdPerBlock by omega) (by unfold sizeofBgd at hbs; omega)
  have hlast : (∀ i < s.bgdCount, sizeofBgd * i + s.blockSize ≤ s.bgdBytes) ↔
      sizeofBgd * (s.bgdCount - 1) + s.blockSize ≤ s.bgdBytes := by
    refine ⟨fun h => h _ (by omega), fun h i hi => ?_⟩
    have : sizeofBgd * i ≤ sizeofBgd * (s.bgdCount - 1) := Nat.mul_le_mul_left _ (by omega)
    omega
  rw [hlast]
  generalize hP : s.bgdPerBlock = P at hbs hper₀ hblocks ⊢
  generalize hc : s.bgdCount = c at hcount h₀ hblocks ⊢
  -- the last copy is that of descriptor `P * q + r`
  have hqr := Nat.div_add_mod (c - 1) P
  have hr : (c - 1) % P < P := Nat.mod_lt _ (by omega)
  have hmod : c % P = ((c - 1) % P + 1) % P := by
    rw [Nat.mod_add_mod, Nat.sub_add_cancel h₀]
  have hdiv : (c + (P - 1)) / P = (c - 1) / P + 1 := by
    rw [show c + (P - 1) = c - 1 + P by omega, Nat.add_div_right _ (by omega)]
  have hone : c % P = 1 ↔ (c - 1) % P = 0 := by
    rw [hmod]
    rcases Nat.lt_or_ge ((c - 1) % P + 1) P with hlt | hge
    · rw [Nat.mod_eq_of_lt hlt]
      omega
    · rw [show (c - 1) % P + 1 = P by omega, Nat.mod_self]
      omega
  have hbytes : s.bgdBytes = u32 (s.blockSize * rupDivision c P) := by
    rw [Fs.bgdBytes, Fs.bgdBlocks, hP, hc]
  rw [hone, hbytes, hblocks, hbs, sizeofBgd]
  unfold sizeofBgd at hbs
  by_cases hwrap : c + (P - 1) < 2 ^ 32
  · rw [if_pos hwrap, hdiv, Nat.mul_assoc, Nat.mul_succ]
    have hle : u32 (32 * (P * ((c - 1) / P) + P)) ≤ 32 * (P * ((c - 1) / P) + P) := Nat.mod_le _ _
    have hlt := u32_lt (32 * (P * ((c - 1) / P) + P))
    constructor
    · intro h
      omega
    · rintro ⟨hr₀, hlt'⟩
      rw [u32_of_lt (by omega)]
      omega
  · rw [if_neg hwrap, Nat.mul_zero]
    have hzero : u32 0 = 0 := rfl
    omega

/-! ## The descriptors -/

/-- The first block of the descriptor table: the block behind the superblock, which is at byte 1024. -/
def Fs.tableBlock (s : Fs) : ℕ := if s.sblock.logBlockSize = 0 then 2 else 1

/-- Byte `y` of record `i` of the descriptor table. -/
def tableByte (s : Fs) (device i y : ℕ) : UInt8 :=
  s.disk device (s.tableBlock + i / s.bgdPerBlock) (sizeofBgd * (i % s.bgdPerBlock) + y)

/-- The descriptors are loaded, whatever was in the memory, and every copy lies in the memory allocated. -/
structure LoadsDescriptors (s : Fs) (device : ℕ) : Prop where
  loaded : ∀ mem, ∀ i < s.groups, ∀ y < sizeofBgd,
    loadBgds s device mem s.bgdCount (sizeofBgd * i + y) = tableByte s device i y
  inside : ∀ i < s.bgdCount, sizeofBgd * i + s.blockSize ≤ s.bgdBytes

/-- The number of groups leaves one over from whole blocks of descriptors, and in the first block behind the start of
every group lies its own descriptor. -/
structure OneOver (s : Fs) (device : ℕ) : Prop where
  sum : s.sblock.totalBlocks + (s.sblock.blocksPg - 1) < 2 ^ 32
  one : s.groups % s.bgdPerBlock = 1
  word : sizeofBgd * (s.groups - 1) + s.blockSize < 2 ^ 32
  copies : ∀ i < s.groups, ∀ y < sizeofBgd,
    s.disk device (u32 (2 + u32 (i * s.sblock.blocksPg))) y = tableByte s device i y

/-- **The group descriptors** are loaded correctly exactly if there is no group, or their number leaves a rest of 1
and the block that is read for a group starts with its descriptor. -/
theorem descriptors_loaded_iff {s : Fs} {device : ℕ} (htot : s.sblock.totalBlocks < 2 ^ 32)
    (hpg : 0 < s.sblock.blocksPg) (hpg' : s.sblock.blocksPg < 2 ^ 32) (hbs : s.blockSize < 2 ^ 32) :
    LoadsDescriptors s device ↔ s.sblock.totalBlocks = 0 ∨ OneOver s device := by
  have hcount := rupDivision_eq htot hpg hpg'
  change s.bgdCount = _ at hcount
  rcases Nat.eq_zero_or_pos s.sblock.totalBlocks with hzero | hpos
  · have hgroups : s.groups = 0 := by
      rw [Fs.groups, hzero, Nat.zero_add]
      exact Nat.div_eq_of_lt (by omega)
    have hcount₀ : s.bgdCount = 0 := by
      rw [hcount, hzero, if_pos (by omega), Nat.zero_add]
      exact Nat.div_eq_of_lt (by omega)
    refine iff_of_true ⟨fun _ i hi => ?_, fun i hi => ?_⟩ (.inl hzero)
    · omega
    · omega
  obtain ⟨hgroups, -⟩ := groups_spec hpg hpos
  by_cases hsum : s.sblock.totalBlocks + (s.sblock.blocksPg - 1) < 2 ^ 32
  · rw [if_pos hsum] at hcount
    change s.bgdCount = s.groups at hcount
    have hword : s.groups < 2 ^ 32 := lt_of_le_of_lt (Nat.div_le_self _ _) hsum
    have hinside := copies_inside_iff (hcount ▸ hword) hbs (by omega)
    rw [hcount] at hinside
    constructor
    · intro h
      obtain ⟨hone, hlt⟩ := hinside.mp (by rw [← hcount]; exact h.inside)
      refine .inr ⟨hsum, hone, hlt, fun i hi y hy => ?_⟩
      rw [← h.loaded (fun _ => 0) i hi y hy, loadBgds_spec (by omega) hy]
    · rintro (h | h)
      · omega
      · refine ⟨fun mem i hi y hy => ?_, by rw [hcount]; exact hinside.mpr ⟨h.one, h.word⟩⟩
        rw [loadBgds_spec (by omega) hy]
        exact h.copies i hi y hy
  · rw [if_neg hsum] at hcount
    refine iff_of_false (fun h => ?_) (not_or.mpr ⟨by omega, fun h => hsum h.sum⟩)
    -- nothing is loaded at all
    have h₀ := h.loaded (fun _ => 0) 0 (by omega) 0 (by decide)
    have h₁ := h.loaded (fun _ => 1) 0 (by omega) 0 (by decide)
    rw [hcount] at h₀ h₁
    have : (0 : UInt8) = 1 := h₀.trans h₁.symm
    cases this

theorem descriptors_loaded_iff_small : OneOver smallFs 0 ∧ LoadsDescriptors smallFs 0 := by
  have h : OneOver smallFs 0 := by
    refine ⟨by decide, by decide, by decide, fun i hi y _ => ?_⟩
    obtain rfl : i = 0 := by
      have hone : smallFs.groups = 1 := by decide
      omega
    have hbyte : sizeofBgd * (0 % smallFs.bgdPerBlock) + y = y := by
      rw [Nat.zero_mod, Nat.mul_zero, Nat.zero_add]
    rw [tableByte, hbyte]
    rfl
  exact ⟨h, (descriptors_loaded_iff (by decide) (by decide) (by decide) (by decide)).mpr (.inr h)⟩

/-- Two groups of 64 blocks. -/
def smallGroups : Fs := { smallFs with sblock := { smallFs.sblock with totalBlocks := 128 } }

/-- The copy for the second group ends behind the block that was allocated. -/
theorem second_copy_overruns : smallGroups.groups = 2 ∧ smallGroups.bgdBytes = 1024 ∧
    ¬ LoadsDescriptors smallGroups 0 := by
  refine ⟨by decide, by decide, fun h => ?_⟩
  have hend := h.inside 1 (by decide)
  exact absurd hend (by decide)

end BulbOS.Ext2
