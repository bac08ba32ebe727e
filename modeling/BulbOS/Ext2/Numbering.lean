import BulbOS.Ext2.Alloc

/-!
# The bitmaps and the numbering of ext2

Bit `k` of the block bitmap of group `g` is block `first_data_block + g * blocks_pg + k`, and bit `k` of
its inode bitmap is inode `g * inodes_per_group + k + 1`. `ext2_alloc` has one running index `i` for the
descriptor, for the first bit and for the base of the number it returns.

* `ext2AllocLoop_ok`: the index `i` and the bit `j` of an allocation that returns;
* `bit_marked`: the one bit that it sets;
* **`alloc_numbering`**: when a block has the bit that is set for it; an inode never has.
-/

namespace BulbOS.Ext2

open KLib

variable {s s' : Fs} {device : ℕ} {isInode : Bool}

/-- The block of a bitmap. -/
def Bgd.bitmap (d : Bgd) (isInode : Bool) : ℕ := if isInode then d.inodeBitmap else d.blockBitmap

/-- Bit `k` of a bitmap of group `g`. -/
def bit (s : Fs) (device : ℕ) (isInode : Bool) (g k : ℕ) : Bool :=
  getBit (s.disk device ((s.bgDescrs g).bitmap isInode)) k

/-! ## An allocation -/

theorem ext2AllocScan_some {bitmap : Mem} {i fuel j k : ℕ} (h : ext2AllocScan s bitmap i fuel j = some k) :
    j ≤ k ∧ k < s.sblock.blocksPg ∧ u32 (i + k) < s.sblock.totalBlocks ∧ getBit bitmap k = false := by
  induction fuel generalizing j with
  | zero => cases h
  | succ fuel ih =>
    rw [ext2AllocScan] at h
    by_cases hin : j < s.sblock.blocksPg ∧ u32 (i + j) < s.sblock.totalBlocks
    · rw [if_pos hin] at h
      by_cases hset : getBit bitmap j = true
      · rw [if_pos hset] at h
        obtain ⟨hle, hrest⟩ := ih h
        exact ⟨by omega, hrest⟩
      · rw [if_neg hset] at h
        cases h
        exact ⟨le_rfl, hin.1, hin.2, Bool.eq_false_iff.mpr hset⟩
    · rw [if_neg hin] at h
      cases h

/-- Bit `j` of the bitmap of descriptor `i` is set, and a block is cleared. -/
def marked (s : Fs) (device : ℕ) (isInode : Bool) (i j : ℕ) : Fs :=
  ext2ZeroBlock (ext2WriteBlock s device ((s.bgDescrs i).bitmap isInode)
    (setBit (s.disk device ((s.bgDescrs i).bitmap isInode)) j)) device (u32 (i + j))

/-- An allocation that returns has found bit `j` at index `i`, which is the first index or not the one
the loop ends at. -/
theorem ext2AllocLoop_ok {fuel i₀ n : ℕ} (h : ext2AllocLoop s device isInode fuel i₀ = .ok (n, s')) :
    ∃ i j, i ≤ j ∧ j < s.sblock.blocksPg ∧ u32 (i + j) < s.sblock.totalBlocks ∧
      bit s device isInode i j = false ∧ n = u32 (i + j) ∧ s' = marked s device isInode i j ∧
      (i = i₀ ∨ i ≠ lastAllocs device) := by
  induction fuel generalizing i₀ with
  | zero => cases h
  | succ fuel ih =>
    rw [ext2AllocLoop] at h
    dsimp only at h
    cases hscan : ext2AllocScan s (ext2ReadBlock s device ((s.bgDescrs i₀).bitmap isInode)) i₀
        s.sblock.blocksPg i₀ with
    | some j =>
      unfold Bgd.bitmap at hscan
      rw [hscan] at h
      cases h
      obtain ⟨hle, hpg, htot, hclear⟩ := ext2AllocScan_some hscan
      exact ⟨i₀, j, hle, hpg, htot, hclear, rfl, rfl, .inl rfl⟩
    | none =>
      unfold Bgd.bitmap at hscan
      rw [hscan] at h
      dsimp only at h
      split_ifs at h with hzero hback
      obtain ⟨i, j, hle, hpg, htot, hclear, hn, hs', hi⟩ := ih h
      refine ⟨i, j, hle, hpg, htot, hclear, hn, hs', .inr ?_⟩
      rcases hi with rfl | hi
      · exact hback
      · exact hi

/-- A bit that is clear before an allocation and set after it is the bit that was found. -/
theorem bit_marked {i j g k : ℕ} (hk : k < 8 * s.blockSize) (hclear : bit s device isInode g k = false)
    (hset : bit (marked s device isInode i j) device isInode g k = true) :
    (s.bgDescrs i).bitmap isInode = (s.bgDescrs g).bitmap isInode ∧ k = j := by
  have hbs : (ext2WriteBlock s device ((s.bgDescrs i).bitmap isInode)
    (setBit (s.disk device ((s.bgDescrs i).bitmap isInode)) j)).blockSize = s.blockSize := rfl
  have hd : (marked s device isInode i j).bgDescrs = s.bgDescrs := rfl
  unfold bit at hset hclear
  rw [hd, marked, ext2ZeroBlock] at hset
  by_cases hz : (s.bgDescrs g).bitmap isInode = u32 (i + j)
  · rw [hz, getBit_write_self (by rw [hbs]; exact hk)] at hset
    exact absurd hset (by simp [getBit])
  · rw [write_other (.inr hz)] at hset
    by_cases hb : (s.bgDescrs g).bitmap isInode = (s.bgDescrs i).bitmap isInode
    · rw [hb, getBit_write_self hk, getBit_setBit, ← hb, hclear, Bool.or_false, decide_eq_true_eq] at hset
      exact ⟨hb.symm, hset.symm⟩
    · rw [write_other (.inr hb), hclear] at hset
      cases hset

/-! ## The numbering -/

/-- A filesystem of `groups` groups whose blocks start at `first`: every bitmap has a block of its own,
which is in use, and no entry behind the descriptor table names one of them. -/
structure Layout (s : Fs) (device first groups : ℕ) : Prop where
  drive : device < 4
  word : s.sblock.blocksPg < 2 ^ 32
  pos : 0 < s.sblock.blocksPg
  fits : s.sblock.blocksPg ≤ 8 * s.blockSize
  inodesPos : 0 < s.sblock.inodesPerGroup
  inodesFit : s.sblock.inodesPerGroup ≤ 8 * s.blockSize
  groupsPos : 0 < groups
  apart : ∀ g < groups, ∀ i m m', (s.bgDescrs i).bitmap m = (s.bgDescrs g).bitmap m' → i = g ∧ m = m'
  used : ∀ g < groups, ∀ m, ∃ g' < groups, ∃ k < s.sblock.blocksPg,
    first + g' * s.sblock.blocksPg + k = (s.bgDescrs g).bitmap m ∧ bit s device false g' k = true

/-- A call returns a number from `least` on whose own bit was clear and is set, and no other bit of a
bitmap changes. -/
def Takes (s : Fs) (device groups : ℕ) (isInode : Bool) (size least : ℕ) (number : ℕ → ℕ → ℕ)
    (r : Except Stop (ℕ × Fs)) : Prop :=
  ∃ g < groups, ∃ k < size, ∃ s', r = .ok (number g k, s') ∧ least ≤ number g k ∧
    bit s device isInode g k = false ∧ bit s' device isInode g k = true ∧
    ∀ g' < groups, ∀ m, ∀ k' < 8 * s.blockSize, (g' ≠ g ∨ m ≠ isInode ∨ k' ≠ k) →
      bit s' device m g' k' = bit s device m g' k'

/-- `ext2_block_alloc` follows the numbering. -/
def TakesBlock (s : Fs) (device first groups : ℕ) : Prop :=
  Takes s device groups false s.sblock.blocksPg first (fun g k => first + g * s.sblock.blocksPg + k)
    (ext2BlockAlloc s device)

/-- `ext2_inode_alloc` follows the numbering; the first ten inodes are reserved. -/
def TakesInode (s : Fs) (device groups : ℕ) : Prop :=
  Takes s device groups true s.sblock.inodesPerGroup 11 (fun g k => g * s.sblock.inodesPerGroup + k + 1)
    (ext2InodeAlloc s device)

variable {first groups : ℕ}

theorem Layout.takesBlock (h : Layout s device 0 groups) {k : ℕ} (hpg : k < s.sblock.blocksPg)
    (htot : k < s.sblock.totalBlocks) (hclear : bit s device false 0 k = false) : TakesBlock s device 0 groups := by
  have hword := h.word
  have hfits := h.fits
  obtain ⟨b, hbk, hb, halloc⟩ := ext2BlockAlloc_clear h.drive hpg htot (by omega) hclear
  have hb' : bit s device false 0 b = false := hb
  -- the bitmap blocks are in use, so the block that is cleared is none of them
  have hfree : ∀ g < groups, ∀ m, (s.bgDescrs g).bitmap m ≠ b := by
    intro g hg m e
    obtain ⟨g', _, k', hk', hnum, hset⟩ := h.used g hg m
    have hg' : g' = 0 := by
      by_contra hne
      have := Nat.le_mul_of_pos_left s.sblock.blocksPg (Nat.pos_of_ne_zero hne)
      omega
    subst hg'
    obtain rfl : k' = b := by omega
    rw [hb'] at hset
    cases hset
  have hne : b ≠ (s.bgDescrs 0).blockBitmap := fun e => hfree 0 h.groupsPos false e.symm
  refine ⟨0, h.groupsPos, b, by omega, allocated s device b, ?_, by omega, hb', ?_, fun g hg m k' hk' hother => ?_⟩
  · rw [halloc]
    simp
  · have hbit : blockBit (allocated s device b) device b = _ :=
      blockBit_allocated hne (show b < 8 * s.blockSize by omega)
    rw [decide_eq_true rfl, Bool.true_or] at hbit
    exact hbit
  · change getBit ((allocated s device b).disk device ((s.bgDescrs g).bitmap m)) k' = _
    by_cases hm : (s.bgDescrs g).bitmap m = (s.bgDescrs 0).blockBitmap
    · obtain ⟨rfl, rfl⟩ := h.apart 0 h.groupsPos g m false hm
      have hk : b ≠ k' := by
        rintro rfl
        simp at hother
      have hbit : blockBit (allocated s device b) device k' = _ := blockBit_allocated hne hk'
      rw [decide_eq_false hk, Bool.false_or] at hbit
      exact hbit
    · rw [allocated_other (.inr ⟨hfree g hg m, hm⟩)]
      rfl

/-- A block whose own bit is set has index 0 and a number from 0 on. -/
theorem Layout.of_takesBlock (h : Layout s device first groups) (ht : TakesBlock s device first groups) :
    first = 0 ∧ ∃ k < min s.sblock.blocksPg s.sblock.totalBlocks, bit s device false 0 k = false := by
  obtain ⟨g, hg, k, hk, s', hr, _, hclear, hset, _⟩ := ht
  have hstart : lastAllocs (device + if false = true then 4 else 0) = lastAllocs device := by simp
  have hzero : lastAllocs device = 0 := if_pos h.drive
  rw [ext2BlockAlloc, ext2Alloc, hstart] at hr
  obtain ⟨i, j, hle, hpg, htot, hfound, hn, rfl, hi⟩ := ext2AllocLoop_ok hr
  obtain ⟨hmap, rfl⟩ := bit_marked (lt_of_lt_of_le hk h.fits) hclear hset
  obtain ⟨rfl, -⟩ := h.apart g hg i false false hmap
  dsimp only at hn
  have hmul := Nat.le_mul_of_pos_right i h.pos
  have hmod : u32 (i + k) ≤ i + k := Nat.mod_le _ _
  obtain rfl : i = 0 := by
    by_contra hne
    have hpg1 : s.sblock.blocksPg = 1 := by
      have : i * s.sblock.blocksPg = i * 1 := by omega
      exact Nat.eq_of_mul_eq_mul_left (Nat.pos_of_ne_zero hne) this
    omega
  have hword := h.word
  have hu : u32 (0 + k) = k := by
    rw [Nat.zero_add]
    exact u32_of_lt (by omega)
  rw [hu] at htot
  exact ⟨by omega, k, lt_min hpg htot, hclear⟩

theorem Layout.not_takesInode (h : Layout s device first groups) : ¬ TakesInode s device groups := by
  rintro ⟨g, hg, k, hk, s', hr, _, hclear, hset, _⟩
  rw [ext2InodeAlloc, ext2Alloc] at hr
  obtain ⟨i, j, _, _, _, _, hn, rfl, _⟩ := ext2AllocLoop_ok hr
  obtain ⟨hmap, rfl⟩ := bit_marked (lt_of_lt_of_le hk h.inodesFit) hclear hset
  obtain ⟨rfl, -⟩ := h.apart g hg i true true hmap
  dsimp only at hn
  have hmul := Nat.le_mul_of_pos_right i h.inodesPos
  have hmod : u32 (i + k) ≤ i + k := Nat.mod_le _ _
  omega

/-- **Numbering.** `ext2_block_alloc` returns a block whose own bit it sets exactly when blocks are
numbered from 0 and group 0 has a clear bit; `ext2_inode_alloc` never returns an inode whose own bit it
sets. -/
theorem alloc_numbering {s : Fs} {device first groups : ℕ} (h : Layout s device first groups) :
    (TakesBlock s device first groups ↔
      first = 0 ∧ ∃ k < min s.sblock.blocksPg s.sblock.totalBlocks, bit s device false 0 k = false) ∧
    ¬ TakesInode s device groups := by
  refine ⟨⟨h.of_takesBlock, ?_⟩, h.not_takesInode⟩
  rintro ⟨rfl, k, hk, hclear⟩
  rw [lt_min_iff] at hk
  exact h.takesBlock hk.1 hk.2 hclear

/-- One group of 64 blocks; the first ten are in use, among them the bitmaps 3 and 4. -/
def oneGroup : Fs where
  sblock := ⟨64, 0, 64, 32, 128⟩
  bgDescrs g := if g = 0 then ⟨3, 4, 5⟩ else ⟨0, 0, 0⟩
  disk _ b x := if b = 3 ∧ x = 0 then 0xFF else if b = 3 ∧ x = 1 then 0x03 else if b = 4 ∧ x = 0 then 0xFF else 0

theorem oneGroup_layout {first : ℕ} (hfirst : first ≤ 1) : Layout oneGroup 0 first 1 := by
  refine ⟨by decide, by decide, by decide, by decide, by decide, by decide, by decide, ?_, ?_⟩
  · intro g hg i m m' e
    obtain rfl : g = 0 := by omega
    by_cases hi : i = 0
    · subst hi
      cases m <;> cases m' <;> simp [oneGroup, Bgd.bitmap] at e ⊢
    · cases m <;> cases m' <;> simp [oneGroup, Bgd.bitmap, hi] at e
  · intro g hg m
    obtain rfl : g = 0 := by omega
    refine ⟨0, by omega, (oneGroup.bgDescrs 0).bitmap m - first, ?_, ?_, ?_⟩
    · interval_cases first <;> cases m <;> decide
    · interval_cases first <;> cases m <;> decide
    · interval_cases first <;> cases m <;> decide

theorem alloc_numbering_oneGroup : Layout oneGroup 0 0 1 ∧ TakesBlock oneGroup 0 0 1 ∧ ¬ TakesInode oneGroup 0 1 := by
  have h := oneGroup_layout (Nat.zero_le 1)
  exact ⟨h, (alloc_numbering h).1.mpr ⟨rfl, 10, by decide, by decide⟩, (alloc_numbering h).2⟩

/-- Blocks are numbered from 1: the allocation returns block 10, whose bit is set already, and inode 22,
whose bit stays clear. -/
theorem oneGroup_wrong_bits : Layout oneGroup 0 1 1 ∧ bit oneGroup 0 false 0 10 = false ∧
    bit oneGroup 0 true 0 10 = false ∧ ¬ TakesBlock oneGroup 0 1 1 ∧ ¬ TakesInode oneGroup 0 1 := by
  refine ⟨oneGroup_layout le_rfl, by decide, by decide, ?_, ?_⟩
  · rintro ⟨g, hg, k, hk, s', hr, _, hclear, _⟩
    have hb : (ext2BlockAlloc oneGroup 0).map Prod.fst = .ok 10 := by decide +kernel
    rw [hr] at hb
    have hn : 1 + g * oneGroup.sblock.blocksPg + k = 10 := Except.ok.inj hb
    obtain rfl : g = 0 := by omega
    obtain rfl : k = 9 := by omega
    exact absurd hclear (by decide)
  · rintro ⟨g, hg, k, hk, s', hr, _, _, hset, _⟩
    have hb : (ext2InodeAlloc oneGroup 0).map (fun r => (r.1, bit r.2 0 true 0 21)) = .ok (22, false) := by
      decide +kernel
    rw [hr] at hb
    have hp := Except.ok.inj hb
    have hn : g * oneGroup.sblock.inodesPerGroup + k + 1 = 22 := congrArg Prod.fst hp
    obtain rfl : g = 0 := by omega
    obtain rfl : k = 21 := by omega
    rw [show bit s' 0 true 0 21 = false from congrArg Prod.snd hp] at hset
    cases hset

end BulbOS.Ext2
