import BulbOS.Ext2.Inodes
import Mathlib.Data.Nat.Prime.Basic
import Mathlib.Tactic.Ring

/-!
# Where inodes lie

In ext2, inode `n` is record `(n - 1) % inodes_per_group` of the inode table of group
`(n - 1) / inodes_per_group`, and a record has `inode_size` bytes. `ext2_inode_idx` divides `n` itself, and
a slot of its blocks has `sizeof(ext2_inode_t)` bytes.

* `Located`: the tables of a filesystem, each in its own group;
* `Located.block`: the block of an inode, without overflow;
* `slot_offset_iff`: when a slot is at the right byte, for sizes that divide a block;
* **`inode_location_iff`**: when an inode is found where it lies.
-/

namespace BulbOS.Ext2

open KLib

variable {s : Fs} {groups first n : ℕ} {table : ℕ → ℕ}

/-- The byte of the disk at which the record of `ext2_read_inode` starts. -/
def recordStart (s : Fs) (inodeN : ℕ) : Except Stop ℕ := do
  let (block, idx) ← ext2InodeIdx s inodeN
  return s.blockSize * block + sizeofInode * idx

/-- `descr_idx` of `ext2_inode_idx`. -/
def descrIdx (s : Fs) (inodeN : ℕ) : ℕ := u32 (sub32 inodeN 1 + 1) / s.sblock.inodesPerGroup

/-- The inode table of group `g` starts at block `table g` and lies inside its group. The descriptor has
that block, or the block counted from the start of the group. `bio_read` counts the bytes of a disk in 32
bits, so block numbers are far below `2 ^ 32`. -/
structure Located (s : Fs) (groups first : ℕ) (table : ℕ → ℕ) : Prop where
  inodes : 0 < s.sblock.inodesPerGroup
  small : 128 ≤ s.sblock.inodeSize
  large : s.sblock.inodeSize ≤ s.blockSize
  above : ∀ g < groups, first + g * s.sblock.blocksPg ≤ table g
  below : ∀ g < groups, s.blockSize * table g + s.sblock.inodesPerGroup * s.sblock.inodeSize ≤
    s.blockSize * (first + (g + 1) * s.sblock.blocksPg)
  descr : ∀ g < groups, (s.bgDescrs g).inodeTable = table g ∨
    g * s.sblock.blocksPg + (s.bgDescrs g).inodeTable = table g
  bound : first + 4 * groups * s.sblock.blocksPg ≤ 2 ^ 32

theorem Located.size_pos (h : Located s groups first table) : 0 < s.sblock.inodeSize :=
  lt_of_lt_of_le (by decide) h.small

theorem Located.perBlock_pos (h : Located s groups first table) : 0 < s.inodesPerBlock :=
  Nat.div_pos h.large h.size_pos

theorem Located.table_le (h : Located s groups first table) {g : ℕ} (hg : g < groups) :
    s.sblock.inodesPerGroup * s.sblock.inodeSize ≤ s.blockSize * s.sblock.blocksPg := by
  have hle := Nat.mul_le_mul_left s.blockSize (h.above g hg)
  have hbelow := h.below g hg
  have hsucc : s.blockSize * (first + (g + 1) * s.sblock.blocksPg) =
      s.blockSize * (first + g * s.sblock.blocksPg) + s.blockSize * s.sblock.blocksPg := by ring
  omega

/-- The blocks in which `ext2_inode_idx` looks are less than two groups behind the start of a table. -/
theorem Located.tableBlock_lt (h : Located s groups first table) {g d : ℕ} (hg : g < groups)
    (hd : d < s.sblock.inodesPerGroup) : d / s.inodesPerBlock < 2 * s.sblock.blocksPg := by
  have hpos := h.perBlock_pos
  have hsize := h.size_pos
  have hround : s.blockSize < (s.inodesPerBlock + 1) * s.sblock.inodeSize := by
    rw [Nat.add_mul, Nat.one_mul]
    exact Nat.lt_div_mul_add hsize
  refine Nat.lt_of_mul_lt_mul_right (a := s.blockSize) ?_
  calc d / s.inodesPerBlock * s.blockSize
      ≤ d / s.inodesPerBlock * ((s.inodesPerBlock + 1) * s.sblock.inodeSize) :=
        Nat.mul_le_mul_left _ hround.le
    _ ≤ d / s.inodesPerBlock * (2 * s.inodesPerBlock * s.sblock.inodeSize) :=
        Nat.mul_le_mul_left _ (Nat.mul_le_mul_right _ (by omega))
    _ = 2 * s.sblock.inodeSize * (d / s.inodesPerBlock * s.inodesPerBlock) := by ring
    _ ≤ 2 * s.sblock.inodeSize * d := Nat.mul_le_mul_left _ (Nat.div_mul_le_self _ _)
    _ < 2 * s.sblock.inodeSize * s.sblock.inodesPerGroup := Nat.mul_lt_mul_of_pos_left hd (by omega)
    _ = 2 * (s.sblock.inodesPerGroup * s.sblock.inodeSize) := by ring
    _ ≤ 2 * (s.blockSize * s.sblock.blocksPg) := Nat.mul_le_mul_left 2 (h.table_le hg)
    _ = 2 * s.sblock.blocksPg * s.blockSize := by ring

theorem Located.table_lt (h : Located s groups first table) {g : ℕ} (hg : g < groups) :
    table g < first + (g + 1) * s.sblock.blocksPg := by
  have hbelow := h.below g hg
  have hpos := Nat.mul_pos h.inodes h.size_pos
  exact Nat.lt_of_mul_lt_mul_left (a := s.blockSize) (by omega)

/-- The block of an inode of a group that exists, without overflow. -/
theorem Located.block (h : Located s groups first table) (hn : n < 2 ^ 32)
    (hg : n / s.sblock.inodesPerGroup < groups) :
    ext2InodeIdx s n = .ok (n / s.sblock.inodesPerGroup * s.sblock.blocksPg +
      (s.bgDescrs (n / s.sblock.inodesPerGroup)).inodeTable + n % s.sblock.inodesPerGroup / s.inodesPerBlock,
      n % s.sblock.inodesPerGroup % s.inodesPerBlock) := by
  rw [ext2InodeIdx_spec h.inodes h.size_pos h.perBlock_pos hn]
  have hq := h.tableBlock_lt hg (Nat.mod_lt n h.inodes)
  have htable := h.table_lt hg
  have hdescr := h.descr _ hg
  have hbound := h.bound
  generalize n / s.sblock.inodesPerGroup = g at *
  have hmul : (g + 1) * s.sblock.blocksPg ≤ groups * s.sblock.blocksPg := Nat.mul_le_mul_right _ hg
  have hsum : 4 * groups * s.sblock.blocksPg = 4 * (groups * s.sblock.blocksPg) := by ring
  rw [Nat.add_mul, Nat.one_mul] at hmul htable
  have h₁ : u32 (g * s.sblock.blocksPg) = g * s.sblock.blocksPg := u32_of_lt (by omega)
  have h₂ : s.tableStart g = g * s.sblock.blocksPg + (s.bgDescrs g).inodeTable := by
    rw [Fs.tableStart, h₁]
    exact u32_of_lt (by omega)
  rw [h₂, u32_of_lt (by omega)]

/-- The slot of an inode in a block is at its byte, for sizes that divide a block. -/
theorem slot_offset_iff (h : Located s groups first table) (hdvd : s.sblock.inodeSize ∣ s.blockSize) {d : ℕ}
    (hd : 0 < d) : s.blockSize * (d / s.inodesPerBlock) + sizeofInode * (d % s.inodesPerBlock) =
      (d - 1) * s.sblock.inodeSize ↔ s.sblock.inodeSize = 256 ∧ d % s.inodesPerBlock = 2 := by
  have hB : s.blockSize = s.inodesPerBlock * s.sblock.inodeSize := (Nat.div_mul_cancel hdvd).symm
  -- the size is 128 times a power of two
  obtain ⟨w, hw⟩ : ∃ w, s.sblock.inodeSize = 128 * w := by
    have hpow : s.blockSize = 2 ^ (10 + s.sblock.logBlockSize) := by
      rw [Fs.blockSize, Nat.shiftLeft_eq, Nat.pow_add]
    rw [hpow] at hdvd
    obtain ⟨m, _, hm⟩ := (Nat.dvd_prime_pow Nat.prime_two).mp hdvd
    have h7 : 7 ≤ m := by
      by_contra hlt
      have : 2 ^ m ≤ 2 ^ 6 := Nat.pow_le_pow_right (by decide) (by omega)
      have := h.small
      omega
    exact ⟨2 ^ (m - 7), by rw [hm, show (128 : ℕ) = 2 ^ 7 by decide, ← Nat.pow_add]; congr 1; omega⟩
  have hwpos : 0 < w := by
    have := h.size_pos
    omega
  have hsplit := Nat.div_add_mod d s.inodesPerBlock
  generalize d % s.inodesPerBlock = e at hsplit ⊢
  generalize d / s.inodesPerBlock = t at hsplit ⊢
  rw [hB, hw, sizeofInode]
  subst hsplit
  cases e with
  | zero =>
    have hlt : (s.inodesPerBlock * t + 0 - 1) * (128 * w) < s.inodesPerBlock * t * (128 * w) :=
      Nat.mul_lt_mul_of_pos_right (by omega) (by omega)
    have hcomm : s.inodesPerBlock * (128 * w) * t = s.inodesPerBlock * t * (128 * w) := by ring
    constructor
    · intro heq
      omega
    · rintro ⟨_, h₂⟩
      cases h₂
  | succ e =>
    have hL : s.inodesPerBlock * (128 * w) * t + 128 * (e + 1) =
        s.inodesPerBlock * t * (128 * w) + 128 * (e + 1) := by ring
    have hR : (s.inodesPerBlock * t + (e + 1) - 1) * (128 * w) =
        s.inodesPerBlock * t * (128 * w) + 128 * (e * w) := by
      rw [← Nat.add_assoc, Nat.add_sub_cancel]
      ring
    rw [hL, hR, Nat.add_left_cancel_iff]
    constructor
    · intro heq
      have he : e + 1 = e * w := by omega
      have hdvd' : e ∣ 1 := (Nat.dvd_add_right (dvd_refl e)).mp ⟨w, he⟩
      have he1 : e = 1 := Nat.dvd_one.mp hdvd'
      subst he1
      omega
    · rintro ⟨h₁, h₂⟩
      obtain rfl : e = 1 := by omega
      omega

theorem descrIdx_eq (hn : n < 2 ^ 32) : descrIdx s n = n / s.sblock.inodesPerGroup := by
  have hback : u32 (sub32 n 1 + 1) = n := by
    unfold u32 sub32
    omega
  rw [descrIdx, hback]

/-- The group and the record of an inode that is not the last one of its group. -/
theorem pred_div_mod {n i : ℕ} (hi : 0 < i) (hmod : n % i ≠ 0) :
    (n - 1) / i = n / i ∧ (n - 1) % i = n % i - 1 := by
  have hsplit := Nat.div_add_mod n i
  have hlt := Nat.mod_lt n hi
  rw [show n - 1 = n % i - 1 + i * (n / i) by omega, Nat.add_mul_div_left _ _ hi, Nat.add_mul_mod_self_left,
    Nat.div_eq_of_lt (by omega), Nat.mod_eq_of_lt (by omega), Nat.zero_add]
  exact ⟨rfl, rfl⟩

/-- The last inode of a group is looked for behind that group. -/
theorem Located.last_inode (h : Located s groups first table) (hn₁ : 1 ≤ n)
    (hg : n / s.sblock.inodesPerGroup < groups) (hmod : n % s.sblock.inodesPerGroup = 0) :
    s.blockSize * table ((n - 1) / s.sblock.inodesPerGroup) +
      (n - 1) % s.sblock.inodesPerGroup * s.sblock.inodeSize <
    s.blockSize * (n / s.sblock.inodesPerGroup * s.sblock.blocksPg +
      (s.bgDescrs (n / s.sblock.inodesPerGroup)).inodeTable) := by
  have hpos := h.inodes
  have hsplit := Nat.div_add_mod n s.sblock.inodesPerGroup
  obtain ⟨g, hgn⟩ : ∃ g, n / s.sblock.inodesPerGroup = g + 1 := by
    refine Nat.exists_eq_succ_of_ne_zero fun hz => ?_
    rw [hz, hmod] at hsplit
    omega
  have hprev : (n - 1) / s.sblock.inodesPerGroup = g := by
    rw [hgn, hmod, Nat.mul_succ] at hsplit
    rw [show n - 1 = s.sblock.inodesPerGroup - 1 + s.sblock.inodesPerGroup * g by omega,
      Nat.add_mul_div_left _ _ hpos, Nat.div_eq_of_lt (by omega), Nat.zero_add]
  have hrec : (n - 1) % s.sblock.inodesPerGroup * s.sblock.inodeSize <
      s.sblock.inodesPerGroup * s.sblock.inodeSize :=
    Nat.mul_lt_mul_of_pos_right (Nat.mod_lt _ hpos) h.size_pos
  rw [hgn] at hg ⊢
  rw [hprev]
  have hstart : first + (g + 1) * s.sblock.blocksPg ≤
      (g + 1) * s.sblock.blocksPg + (s.bgDescrs (g + 1)).inodeTable := by
    have habove := h.above (g + 1) hg
    rcases h.descr (g + 1) hg with hd | hd <;> omega
  have hle := Nat.mul_le_mul_left s.blockSize hstart
  have hbelow := h.below g (by omega)
  omega

/-- **Location.** An inode is found where it lies exactly when it is not the last of its group, the
descriptor has the block of the table counted from the start of the group (as in group 0), and its slot is
at the right byte: for sizes that divide a block, when inodes have 256 bytes and the slot is slot 2. -/
theorem inode_location_iff {s : Fs} {groups first n : ℕ} {table : ℕ → ℕ} (h : Located s groups first table)
    (hn₁ : 1 ≤ n) (hn : n ≤ groups * s.sblock.inodesPerGroup) (hw : n < 2 ^ 32) :
    (recordStart s n = .ok (s.blockSize * table ((n - 1) / s.sblock.inodesPerGroup) +
        (n - 1) % s.sblock.inodesPerGroup * s.sblock.inodeSize) ∧ descrIdx s n < groups ↔
      n % s.sblock.inodesPerGroup ≠ 0 ∧
      n / s.sblock.inodesPerGroup * s.sblock.blocksPg + (s.bgDescrs (n / s.sblock.inodesPerGroup)).inodeTable =
        table (n / s.sblock.inodesPerGroup) ∧
      s.blockSize * (n % s.sblock.inodesPerGroup / s.inodesPerBlock) +
        sizeofInode * (n % s.sblock.inodesPerGroup % s.inodesPerBlock) =
        (n % s.sblock.inodesPerGroup - 1) * s.sblock.inodeSize) ∧
    (s.sblock.inodeSize ∣ s.blockSize → n % s.sblock.inodesPerGroup ≠ 0 →
      (s.blockSize * (n % s.sblock.inodesPerGroup / s.inodesPerBlock) +
        sizeofInode * (n % s.sblock.inodesPerGroup % s.inodesPerBlock) =
        (n % s.sblock.inodesPerGroup - 1) * s.sblock.inodeSize ↔
      s.sblock.inodeSize = 256 ∧ n % s.sblock.inodesPerGroup % s.inodesPerBlock = 2)) := by
  refine ⟨⟨?_, ?_⟩, fun hdvd hmod => slot_offset_iff h hdvd (Nat.pos_of_ne_zero hmod)⟩
  · rintro ⟨hstart, hdescr⟩
    rw [descrIdx_eq hw] at hdescr
    rw [recordStart, h.block hw hdescr] at hstart
    have heq := Except.ok.inj hstart
    have hmod : n % s.sblock.inodesPerGroup ≠ 0 := by
      intro hmod
      have hlast := h.last_inode hn₁ hdescr hmod
      rw [hmod, Nat.zero_div, Nat.zero_mod, Nat.add_zero, Nat.mul_zero, Nat.add_zero] at heq
      omega
    obtain ⟨hdiv, hrec⟩ := pred_div_mod h.inodes hmod
    rw [hdiv, hrec] at heq
    have hlt := Nat.mod_lt n h.inodes
    have htable := h.table_le hdescr
    have hrest := h.descr _ hdescr
    generalize n / s.sblock.inodesPerGroup = g at *
    have hbytes : (n % s.sblock.inodesPerGroup - 1) * s.sblock.inodeSize < s.blockSize * s.sblock.blocksPg :=
      lt_of_lt_of_le (Nat.mul_lt_mul_of_pos_right (by omega) h.size_pos) htable
    have hplace : g * s.sblock.blocksPg + (s.bgDescrs g).inodeTable = table g := by
      rcases hrest with hd | hd
      · rcases Nat.eq_zero_or_pos g with rfl | hg
        · rw [hd, Nat.zero_mul, Nat.zero_add]
        · have hle : s.blockSize * s.sblock.blocksPg ≤ s.blockSize * (g * s.sblock.blocksPg) :=
            Nat.mul_le_mul_left _ (Nat.le_mul_of_pos_left _ hg)
          rw [hd, Nat.mul_add, Nat.mul_add] at heq
          omega
      · exact hd
    refine ⟨hmod, hplace, ?_⟩
    rw [hplace, Nat.mul_add] at heq
    omega
  · rintro ⟨hmod, hplace, hslot⟩
    have hg : n / s.sblock.inodesPerGroup < groups := by
      have hsplit := Nat.div_add_mod n s.sblock.inodesPerGroup
      refine Nat.lt_of_mul_lt_mul_left (a := s.sblock.inodesPerGroup) ?_
      rw [Nat.mul_comm _ groups]
      omega
    obtain ⟨hdiv, hrec⟩ := pred_div_mod h.inodes hmod
    refine ⟨?_, by rw [descrIdx_eq hw]; exact hg⟩
    rw [recordStart, h.block hw hg, hdiv, hrec, hplace, ← hslot]
    change Except.ok _ = Except.ok _
    congr 1
    rw [Nat.mul_add, Nat.add_assoc]

theorem twoGroups_located : Located twoGroups 2 1 (fun g => g * 32 + 5) := by
  refine ⟨by decide, by decide, by decide, fun g hg => ?_, fun g hg => ?_, fun g hg => .inr rfl, by decide⟩
  · interval_cases g <;> decide
  · interval_cases g <;> decide

theorem inode_location_iff_twoGroups : Located twoGroups 2 1 (fun g => g * 32 + 5) ∧
    recordStart twoGroups 18 = .ok (1024 * 37 + 256) := by
  have h := twoGroups_located
  have hiff := (inode_location_iff h (show 1 ≤ 18 by decide) (by decide) (by decide)).1
  exact ⟨h, (hiff.mpr ⟨by decide, by decide, by decide⟩).1⟩

/-- One group of 64 blocks and 16 inodes of 128 bytes. -/
def smallInodes : Fs where
  sblock := ⟨64, 0, 64, 16, 128⟩
  bgDescrs _ := ⟨3, 4, 5⟩
  disk _ _ _ := 0

/-- The root directory, inode 2, is looked for one record too far. -/
theorem root_inode_misplaced : Located smallInodes 1 1 (fun g => g * 64 + 5) ∧
    ¬ (recordStart smallInodes 2 = .ok (smallInodes.blockSize * 5 + 1 * smallInodes.sblock.inodeSize) ∧
      descrIdx smallInodes 2 < 1) := by
  refine ⟨⟨by decide, by decide, by decide, fun g hg => ?_, fun g hg => ?_, fun g hg => .inr rfl, by decide⟩, ?_⟩
  · interval_cases g
    decide
  · interval_cases g
    decide
  · decide

end BulbOS.Ext2
