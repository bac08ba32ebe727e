import BulbOS.Ext2.Search
import Mathlib.Data.List.Nodup

/-!
# Truncation

`ext2_truncate` goes through the direct pointers and then through the indirect ones, and returns at the first one
that is missing; the size and the record of the inode are only written behind both loops.

* `reachable`: the blocks of a file; `TreeOk`: a file whose blocks are its own and in use;
* `ext2BlockFree_spec`: a block is freed;
* `lead`, `truncDirect_spec`: the direct pointers up to the first missing one;
* **`truncate_complete_iff`**: when truncation is complete.
-/

namespace BulbOS.Ext2

open KLib

variable {s s' : Fs} {f f' : Inode} {device b i fuel : ℕ}

/-! ## The blocks of a file -/

/-- The blocks that are reached from block `b` through `depth` levels of pointers. -/
def subtree (s : Fs) (device : ℕ) : ℕ → ℕ → List ℕ
  | 0, b => if b = 0 then [] else [b]
  | depth + 1, b =>
    if b = 0 then []
    else b :: (List.range ptrEntryBlocks).flatMap fun r => subtree s device depth (load32 (s.disk device b) (4 * r))

/-- The data and indirect blocks of a file. -/
def reachable (s : Fs) (f : Inode) : List ℕ :=
  (List.range inodeBlocksCount).flatMap fun i => subtree s f.device (i - 11) (f.blocks i)

/-- The bitmaps of different groups are different blocks, and fit into them. -/
structure BitmapsOk (s : Fs) : Prop where
  pos : 0 < s.sblock.blocksPg
  fits : s.sblock.blocksPg ≤ 8 * s.blockSize
  apart : ∀ g < s.groups, ∀ g' < s.groups, (s.bgDescrs g).blockBitmap = (s.bgDescrs g').blockBitmap → g = g'

/-- A file whose blocks are distinct, lie on the disk and have their bits set; its record lies in a block that is no
bitmap and not one of them. -/
structure TreeOk (s : Fs) (f : Inode) : Prop where
  bitmaps : BitmapsOk s
  nodup : (reachable s f).Nodup
  disk : ∀ b ∈ reachable s f, b < s.sblock.totalBlocks
  set : ∀ b ∈ reachable s f, bit s f.device false (b / s.sblock.blocksPg) (b % s.sblock.blocksPg) = true
  record : ∃ block idx, ext2InodeIdx s f.n = .ok (block, idx) ∧ block ∉ reachable s f ∧
    (∀ g < s.groups, block ≠ (s.bgDescrs g).blockBitmap) ∧ sizeofInode * idx + sizeofInode ≤ s.blockSize

/-! ## Freeing a block -/

/-- Only bitmaps have changed. -/
structure OnlyBitmaps (device : ℕ) (s s' : Fs) : Prop where
  sblock : s'.sblock = s.sblock
  bgDescrs : s'.bgDescrs = s.bgDescrs
  others : ∀ c, (∀ g < s.groups, c ≠ (s.bgDescrs g).blockBitmap) → s'.disk device c = s.disk device c

theorem OnlyBitmaps.refl : OnlyBitmaps device s s := ⟨rfl, rfl, fun _ _ => rfl⟩

theorem groups_congr (h : s'.sblock = s.sblock) : s'.groups = s.groups := by
  unfold Fs.groups
  rw [h]

theorem OnlyBitmaps.trans {s'' : Fs} (h : OnlyBitmaps device s s') (h' : OnlyBitmaps device s' s'') :
    OnlyBitmaps device s s'' where
  sblock := h'.sblock.trans h.sblock
  bgDescrs := h'.bgDescrs.trans h.bgDescrs
  others c hc := by
    rw [h'.others c (by rw [groups_congr h.sblock, h.bgDescrs]; exact hc), h.others c hc]

theorem OnlyBitmaps.bitmapsOk (h : OnlyBitmaps device s s') (hok : BitmapsOk s) : BitmapsOk s' where
  pos := by rw [h.sblock]; exact hok.pos
  fits := by
    unfold Fs.blockSize
    rw [h.sblock]
    exact hok.fits
  apart := by
    rw [groups_congr h.sblock, h.bgDescrs]
    exact hok.apart

theorem group_lt (hpos : 0 < s.sblock.blocksPg) (hb : b < s.sblock.totalBlocks) : b / s.sblock.blocksPg < s.groups := by
  rw [Fs.groups, Nat.lt_iff_add_one_le, ← Nat.add_div_right _ hpos]
  exact Nat.div_le_div_right (by omega)

/-- **A block is freed.** -/
theorem ext2BlockFree_spec (hok : BitmapsOk s) (hb : b < s.sblock.totalBlocks)
    (hset : bit s device false (b / s.sblock.blocksPg) (b % s.sblock.blocksPg) = true) :
    ∃ s', ext2BlockFree s device b = .ok s' ∧ OnlyBitmaps device s s' ∧
      ∀ g < s.groups, ∀ k < s.sblock.blocksPg, bit s' device false g k = true ↔
        bit s device false g k = true ∧ g * s.sblock.blocksPg + k ≠ b := by
  have hpos := hok.pos
  have hg := group_lt hpos hb
  have hfree : ext2BlockFree s device b =
      .ok (ext2WriteBlock s device (s.bgDescrs (b / s.sblock.blocksPg)).blockBitmap
        (clearBit (s.disk device (s.bgDescrs (b / s.sblock.blocksPg)).blockBitmap) (b % s.sblock.blocksPg))) := by
    rw [ext2BlockFree, ext2Free, if_neg (by omega)]
    refine if_neg ?_
    change ¬ bit s device false (b / s.sblock.blocksPg) (b % s.sblock.blocksPg) = false
    rw [hset]
    decide
  refine ⟨_, hfree, ⟨rfl, rfl, fun c hc => write_other (.inr (hc _ hg))⟩, fun g hg' k hk => ?_⟩
  have hnum : g * s.sblock.blocksPg + k = b ↔ g = b / s.sblock.blocksPg ∧ k = b % s.sblock.blocksPg := by
    constructor
    · rintro rfl
      rw [Nat.mul_comm, Nat.mul_add_div hpos, Nat.div_eq_of_lt hk, Nat.mul_add_mod, Nat.mod_eq_of_lt hk]
      exact ⟨rfl, rfl⟩
    · rintro ⟨rfl, rfl⟩
      rw [Nat.mul_comm]
      exact Nat.div_add_mod b s.sblock.blocksPg
  change getBit ((ext2WriteBlock s device _ _).disk device (s.bgDescrs g).blockBitmap) k = true ↔
    getBit (s.disk device (s.bgDescrs g).blockBitmap) k = true ∧ _
  rw [ne_eq, hnum]
  by_cases hgb : g = b / s.sblock.blocksPg
  · subst hgb
    rw [getBit_write_self (lt_of_lt_of_le hk hok.fits), getBit_clearBit, Bool.and_eq_true, Bool.not_eq_true',
      decide_eq_false_iff_not]
    constructor
    · rintro ⟨hne, hbit⟩
      exact ⟨hbit, fun h => hne h.2.symm⟩
    · rintro ⟨hbit, hne⟩
      exact ⟨fun h => hne ⟨rfl, h.symm⟩, hbit⟩
  · rw [write_other (.inr fun e => hgb (hok.apart g hg' _ hg e))]
    simp [hgb]

/-! ## The direct pointers -/

/-- The number of pointers from `i` on before the first missing one. -/
def lead (blocks : ℕ → ℕ) : ℕ → ℕ → ℕ
  | 0, _ => 0
  | fuel + 1, i => if blocks i = 0 then 0 else lead blocks fuel (i + 1) + 1

theorem lead_le (blocks : ℕ → ℕ) (fuel i : ℕ) : lead blocks fuel i ≤ fuel := by
  induction fuel generalizing i with
  | zero => exact le_rfl
  | succ fuel ih =>
    rw [lead]
    split_ifs
    · exact Nat.zero_le _
    · exact Nat.succ_le_succ (ih _)

theorem lead_congr {blocks blocks' : ℕ → ℕ} (h : ∀ j, i ≤ j → blocks' j = blocks j) :
    lead blocks' fuel i = lead blocks fuel i := by
  induction fuel generalizing i with
  | zero => rfl
  | succ fuel ih => rw [lead, lead, h i le_rfl, ih fun j hj => h j (by omega)]

theorem lead_end {blocks : ℕ → ℕ} (h : lead blocks fuel i < fuel) : blocks (i + lead blocks fuel i) = 0 := by
  induction fuel generalizing i with
  | zero => omega
  | succ fuel ih =>
    rw [lead] at h ⊢
    by_cases hz : blocks i = 0
    · rw [if_pos hz]
      exact hz
    · rw [if_neg hz] at h ⊢
      rw [Nat.add_comm _ 1, ← Nat.add_assoc]
      exact ih (by omega)

theorem lead_ne {blocks : ℕ → ℕ} {j : ℕ} (hi : i ≤ j) (hj : j < i + lead blocks fuel i) : blocks j ≠ 0 := by
  induction fuel generalizing i with
  | zero =>
    rw [lead] at hj
    omega
  | succ fuel ih =>
    rw [lead] at hj
    by_cases hz : blocks i = 0
    · rw [if_pos hz] at hj
      omega
    · rw [if_neg hz] at hj
      by_cases hij : j = i
      · rw [hij]
        exact hz
      · exact ih (i := i + 1) (by omega) (by omega)

/-- The inode with `n` pointers from `i` on cleared. -/
def cleared (f : Inode) (i n : ℕ) : Inode :=
  { f with blocks := fun j => if i ≤ j ∧ j < i + n then 0 else f.blocks j }

/-- Pointers that can be freed one after the other. -/
structure Freeable (s : Fs) (f : Inode) (i fuel : ℕ) : Prop where
  disk : ∀ j, i ≤ j → j < i + fuel → f.blocks j ≠ 0 → f.blocks j < s.sblock.totalBlocks
  set : ∀ j, i ≤ j → j < i + fuel → f.blocks j ≠ 0 →
    bit s f.device false (f.blocks j / s.sblock.blocksPg) (f.blocks j % s.sblock.blocksPg) = true
  inj : ∀ j k, i ≤ j → j < k → k < i + fuel → f.blocks j ≠ 0 → f.blocks j ≠ f.blocks k

theorem cleared_zero (f : Inode) (i : ℕ) : cleared f i 0 = f := by
  have hblocks : (fun j => if i ≤ j ∧ j < i + 0 then 0 else f.blocks j) = f.blocks :=
    funext fun j => if_neg (by omega)
  rw [cleared, hblocks]

theorem cleared_succ (f : Inode) (i n : ℕ) :
    cleared { f with blocks := Function.update f.blocks i 0 } (i + 1) n = cleared f i (n + 1) := by
  unfold cleared
  congr 1
  funext j
  dsimp only
  by_cases hj : j = i
  · rw [if_neg (by omega), if_pos (by omega), hj, Function.update_self]
  · rw [Function.update_of_ne hj]
    by_cases hin : i + 1 ≤ j ∧ j < i + 1 + n
    · rw [if_pos hin, if_pos (by omega)]
    · rw [if_neg hin, if_neg (by omega)]

theorem Freeable.free (h : Freeable s f i (fuel + 1)) (hok : BitmapsOk s) (hz : f.blocks i ≠ 0) :
    ∃ s', ext2BlockFree s f.device (f.blocks i) = .ok s' ∧ OnlyBitmaps f.device s s' ∧
      Freeable s' { f with blocks := Function.update f.blocks i 0 } (i + 1) fuel ∧
      ∀ g < s.groups, ∀ k < s.sblock.blocksPg, bit s' f.device false g k = true ↔
        bit s f.device false g k = true ∧ g * s.sblock.blocksPg + k ≠ f.blocks i := by
  obtain ⟨s', hfree, honly, hbits⟩ := ext2BlockFree_spec hok (h.disk i le_rfl (by omega) hz)
    (h.set i le_rfl (by omega) hz)
  have hrest : ∀ j, i + 1 ≤ j → Function.update f.blocks i 0 j = f.blocks j :=
    fun j hj => Function.update_of_ne (by omega) _ _
  refine ⟨s', hfree, honly, ⟨fun j h₁ h₂ h₃ => ?_, fun j h₁ h₂ h₃ => ?_, fun j k h₁ h₂ h₃ h₄ => ?_⟩, hbits⟩
  · dsimp only at h₃ ⊢
    rw [hrest j h₁] at h₃ ⊢
    rw [honly.sblock]
    exact h.disk j (by omega) (by omega) h₃
  · dsimp only at h₃ ⊢
    rw [hrest j h₁] at h₃ ⊢
    rw [honly.sblock, hbits _ (group_lt hok.pos (h.disk j (by omega) (by omega) h₃)) _ (Nat.mod_lt _ hok.pos)]
    refine ⟨h.set j (by omega) (by omega) h₃, ?_⟩
    rw [Nat.mul_comm, Nat.div_add_mod]
    exact (h.inj i j le_rfl (by omega) (by omega) hz).symm
  · dsimp only at h₄ ⊢
    rw [hrest j h₁] at h₄ ⊢
    rw [hrest k (by omega)]
    exact h.inj j k (by omega) h₂ (by omega) h₄

/-- **The first loop of `ext2_truncate`** frees the blocks before the first missing pointer. -/
theorem truncDirect_spec (hok : BitmapsOk s) (h : Freeable s f i fuel) :
    ∃ s', truncDirect fuel i f s =
        .ok (decide (lead f.blocks fuel i = fuel), cleared f i (lead f.blocks fuel i), s') ∧
      OnlyBitmaps f.device s s' ∧ ∀ g < s.groups, ∀ k < s.sblock.blocksPg, bit s' f.device false g k = true ↔
        bit s f.device false g k = true ∧
          ∀ j, i ≤ j → j < i + lead f.blocks fuel i → f.blocks j ≠ g * s.sblock.blocksPg + k := by
  induction fuel generalizing i f s with
  | zero =>
    refine ⟨s, ?_, .refl, fun g _ k _ => ?_⟩
    · rw [truncDirect, lead, cleared_zero]
      rfl
    · rw [lead]
      exact ⟨fun hbit => ⟨hbit, fun j h₁ h₂ => absurd h₂ (by omega)⟩, And.left⟩
  | succ fuel ih =>
    rw [truncDirect]
    by_cases hz : f.blocks i = 0
    · have hlead : lead f.blocks (fuel + 1) i = 0 := if_pos hz
      refine ⟨s, ?_, .refl, fun g _ k _ => ?_⟩
      · rw [if_pos hz, hlead, cleared_zero]
        rfl
      · rw [hlead]
        exact ⟨fun hbit => ⟨hbit, fun j h₁ h₂ => absurd h₂ (by omega)⟩, And.left⟩
    · obtain ⟨s₁, hfree, honly₁, hfreeable, hbits₁⟩ := h.free hok hz
      obtain ⟨s', hrest, honly, hbits⟩ := ih (honly₁.bitmapsOk hok) hfreeable
      have hrest' : lead (Function.update f.blocks i 0) fuel (i + 1) = lead f.blocks fuel (i + 1) :=
        lead_congr fun j hj => Function.update_of_ne (by omega) _ _
      have hlead : lead f.blocks (fuel + 1) i = lead f.blocks fuel (i + 1) + 1 := if_neg hz
      rw [hrest', cleared_succ, ← hlead] at hrest
      rw [hrest', groups_congr honly₁.sblock, honly₁.sblock] at hbits
      refine ⟨s', ?_, honly₁.trans honly, fun g hg k hk => ?_⟩
      · rw [if_neg hz, hfree, ok_bind, hrest, hlead]
        simp
      · rw [hbits g hg k hk, hbits₁ g hg k hk, hlead, and_assoc]
        refine and_congr_right fun _ => ⟨?_, fun hall => ⟨?_, fun j h₁ h₂ => ?_⟩⟩
        · rintro ⟨hne, hall⟩ j h₁ h₂
          by_cases hj : j = i
          · rw [hj]
            exact hne.symm
          · have hj' := hall j (by omega) (by omega)
            dsimp only at hj'
            rwa [Function.update_of_ne hj] at hj'
        · exact (hall i le_rfl (by omega)).symm
        · dsimp only
          rw [Function.update_of_ne (by omega)]
          exact hall j (by omega) (by omega)

/-! ## Truncation -/

theorem subtree_zero (s : Fs) (device depth : ℕ) : subtree s device depth 0 = [] := by
  cases depth with
  | zero => rfl
  | succ depth => exact if_pos rfl

theorem subtree_direct (hi : i < directBlocks) (hz : f.blocks i ≠ 0) :
    subtree s f.device (i - 11) (f.blocks i) = [f.blocks i] := by
  unfold directBlocks at hi
  rw [show i - 11 = 0 by omega]
  exact if_neg hz

theorem direct_mem (hi : i < directBlocks) (hz : f.blocks i ≠ 0) : f.blocks i ∈ reachable s f := by
  refine List.mem_flatMap.mpr ⟨i, List.mem_range.mpr (lt_of_lt_of_le hi (by decide)), ?_⟩
  rw [subtree_direct hi hz]
  exact List.mem_singleton_self _

theorem TreeOk.freeable (h : TreeOk s f) : Freeable s f 0 directBlocks := by
  refine ⟨fun j _ hj hz => h.disk _ (direct_mem (by omega) hz), fun j _ hj hz => h.set _ (direct_mem (by omega) hz),
    fun j k _ hjk hk hz e => ?_⟩
  have hpair := (List.nodup_flatMap.mp h.nodup).2
  have hdirect : directBlocks < inodeBlocksCount := by decide
  have hdisj := List.pairwise_iff_getElem.mp hpair j k (by rw [List.length_range]; omega)
    (by rw [List.length_range]; omega) hjk
  rw [List.getElem_range, List.getElem_range] at hdisj
  change List.Disjoint (subtree s f.device (j - 11) (f.blocks j)) (subtree s f.device (k - 11) (f.blocks k)) at hdisj
  rw [subtree_direct (by omega) hz, subtree_direct (by omega) (e ▸ hz), e] at hdisj
  exact hdisj (List.mem_singleton_self _) (List.mem_singleton_self _)

theorem ext2InodeIdx_only (h : OnlyBitmaps device s s') (n : ℕ) : ext2InodeIdx s' n = ext2InodeIdx s n := by
  unfold ext2InodeIdx Fs.inodesPerBlock Fs.blockSize
  rw [h.sblock, h.bgDescrs]

/-- `ext2_truncate` returns at the first missing pointer, if there is one among the first thirteen. -/
theorem ext2Truncate_eq (h : TreeOk s f) :
    ∃ s₁, OnlyBitmaps f.device s s₁ ∧
      (∀ g < s.groups, ∀ k < s.sblock.blocksPg, bit s₁ f.device false g k = true ↔ bit s f.device false g k = true ∧
        ∀ j < lead f.blocks directBlocks 0, f.blocks j ≠ g * s.sblock.blocksPg + k) ∧
      (f.blocks ind1Idx = 0 → ext2Truncate s f = .ok (cleared f 0 (lead f.blocks directBlocks 0), s₁)) ∧
      ∀ f' s', ext2Truncate s f = .ok (f', s') → ∀ j, directBlocks ≤ j → f'.blocks j = f.blocks j := by
  obtain ⟨s₁, hdirect, honly, hbits⟩ := truncDirect_spec h.bitmaps h.freeable
  have hle := lead_le f.blocks directBlocks 0
  have hkeep : ∀ j, directBlocks ≤ j → (cleared f 0 (lead f.blocks directBlocks 0)).blocks j = f.blocks j :=
    fun j hj => if_neg (by omega)
  refine ⟨s₁, honly, fun g hg k hk => ?_, fun hz => ?_, fun f' s' hok j hj => ?_⟩
  · rw [hbits g hg k hk]
    refine and_congr_right fun _ => ⟨fun hall j hj => hall j (Nat.zero_le _) (by omega),
      fun hall j _ hj => hall j (by omega)⟩
  · rw [ext2Truncate, hdirect, ok_bind]
    by_cases hlead : lead f.blocks directBlocks 0 = directBlocks
    · have hz' : (cleared f 0 (lead f.blocks directBlocks 0)).blocks ind1Idx = 0 := (hkeep _ (by decide)).trans hz
      simp only [hlead, decide_true, Bool.not_true, Bool.false_eq_true, if_false]
      rw [hlead] at hz'
      rw [truncIndirect, if_pos hz']
      rfl
    · simp only [hlead, decide_false, Bool.not_false, if_true]
      rfl
  · rw [ext2Truncate, hdirect, ok_bind] at hok
    by_cases hlead : lead f.blocks directBlocks 0 = directBlocks
    · simp only [hlead, decide_true, Bool.not_true, Bool.false_eq_true, if_false] at hok
      obtain ⟨⟨go, s₂⟩, -, hok⟩ := eq_ok_of_bind hok
      rw [hlead] at hkeep
      cases go with
      | false =>
        cases hok
        exact hkeep j hj
      | true =>
        obtain ⟨s₃, -, hok⟩ := eq_ok_of_bind hok
        cases hok
        exact hkeep j hj
    · simp only [hlead, decide_false, Bool.not_false, if_true] at hok
      cases hok
      exact hkeep j hj

/-- The size and the block pointers in the record of an inode are 0. -/
def RecordEmpty (s : Fs) (f : Inode) : Prop :=
  ∀ block idx, ext2InodeIdx s f.n = .ok (block, idx) →
    load32 (s.disk f.device block) (sizeofInode * idx + 4) = 0 ∧
      ∀ i < inodeBlocksCount, load32 (s.disk f.device block) (sizeofInode * idx + 40 + 4 * i) = 0

/-- Truncation is complete: the inode and its record are empty, and of the bits exactly those of the blocks of the
file were cleared. -/
structure Truncated (s : Fs) (f : Inode) (s' : Fs) (f' : Inode) : Prop where
  size : f'.size = 0
  pointers : ∀ i < inodeBlocksCount, f'.blocks i = 0
  record : RecordEmpty s' f
  bits : ∀ g < s.groups, ∀ k < s.sblock.blocksPg, bit s' f.device false g k = true ↔
    bit s f.device false g k = true ∧ g * s.sblock.blocksPg + k ∉ reachable s f

/-- There are no indirect blocks, no pointer behind a missing one, and the sizes and the pointers of the record are 0
already. -/
structure NothingLeft (s : Fs) (f : Inode) : Prop where
  indirect : ∀ i, directBlocks ≤ i → i < inodeBlocksCount → f.blocks i = 0
  front : ∀ i j, i < j → j < directBlocks → f.blocks i = 0 → f.blocks j = 0
  size : f.size = 0
  record : RecordEmpty s f

theorem RecordEmpty.congr (h : TreeOk s f) (honly : OnlyBitmaps f.device s s') : RecordEmpty s' f ↔
    RecordEmpty s f := by
  obtain ⟨block, idx, hidx, -, hblock, -⟩ := h.record
  unfold RecordEmpty
  rw [ext2InodeIdx_only honly, hidx]
  refine forall₂_congr fun block' idx' => forall_congr' fun heq => ?_
  obtain ⟨rfl, rfl⟩ := Prod.mk.inj (Except.ok.inj heq)
  rw [honly.others block hblock]

/-- The pointers before the first missing one are all there are. -/
theorem NothingLeft.beyond (h : NothingLeft s f) (hi : i < inodeBlocksCount)
    (hlead : lead f.blocks directBlocks 0 ≤ i) :
    f.blocks i = 0 := by
  by_cases hd : directBlocks ≤ i
  · exact h.indirect i hd hi
  · have hend : f.blocks (0 + lead f.blocks directBlocks 0) = 0 := lead_end (by omega)
    rw [Nat.zero_add] at hend
    rcases Nat.eq_or_lt_of_le hlead with heq | hlt
    · rw [← heq]
      exact hend
    · exact h.front _ i hlt (by omega) hend

/-- **Truncation** is complete exactly if there was nothing left to do than to free some direct blocks. -/
theorem truncate_complete_iff {s : Fs} {f : Inode} (h : TreeOk s f) :
    (∃ f' s', ext2Truncate s f = .ok (f', s') ∧ Truncated s f s' f') ↔ NothingLeft s f := by
  obtain ⟨s₁, honly, hbits, htrunc, hkeep⟩ := ext2Truncate_eq h
  have hle := lead_le f.blocks directBlocks 0
  constructor
  · rintro ⟨f', s', hok, ht⟩
    have hindirect : ∀ i, directBlocks ≤ i → i < inodeBlocksCount → f.blocks i = 0 := fun i h₁ h₂ => by
      rw [← hkeep f' s' hok i h₁]
      exact ht.pointers i h₂
    rw [htrunc (hindirect _ (by decide) (by decide))] at hok
    cases hok
    refine ⟨hindirect, fun i j hij hj hz => ?_, ht.size, (RecordEmpty.congr h honly).mp ht.record⟩
    have hlead : lead f.blocks directBlocks 0 ≤ i := by
      by_contra hlt
      exact lead_ne (Nat.zero_le i) (show i < 0 + lead f.blocks directBlocks 0 by omega) hz
    rw [← ht.pointers j (lt_trans hj (by decide))]
    exact (if_neg (by omega)).symm
  · intro hn
    refine ⟨_, _, htrunc (hn.indirect _ (by decide) (by decide)), hn.size, fun i hi => ?_,
      (RecordEmpty.congr h honly).mpr hn.record, fun g hg k hk => ?_⟩
    · change (if 0 ≤ i ∧ i < 0 + lead f.blocks directBlocks 0 then 0 else f.blocks i) = 0
      by_cases hlt : 0 ≤ i ∧ i < 0 + lead f.blocks directBlocks 0
      · rw [if_pos hlt]
      · rw [if_neg hlt]
        exact hn.beyond hi (by omega)
    · rw [hbits g hg k hk]
      refine and_congr_right fun _ => ⟨fun hall hmem => ?_, fun hnot j hj e => ?_⟩
      · obtain ⟨i, hi, hmem⟩ := List.mem_flatMap.mp hmem
        rw [List.mem_range] at hi
        rcases Nat.lt_or_ge i (lead f.blocks directBlocks 0) with hlt | hge
        · have hz := lead_ne (Nat.zero_le i) (show i < 0 + lead f.blocks directBlocks 0 by omega)
          rw [subtree_direct (by omega) hz] at hmem
          exact hall i hlt (List.mem_singleton.mp hmem).symm
        · rw [hn.beyond hi hge, subtree_zero] at hmem
          cases hmem
      · have hz := lead_ne (Nat.zero_le j) (show j < 0 + lead f.blocks directBlocks 0 by omega)
        exact hnot (e ▸ direct_mem (by omega) hz)

/-- A file with one block, which is block 7. -/
def oneBlock (size : ℕ) : Inode := ⟨0, 2, 0x8000, 1, size, 0, 0, 0, 0, 0, fun i => if i = 0 then 7 else 0⟩

theorem oneBlock_idx (size : ℕ) : ext2InodeIdx smallFs (oneBlock size).n = .ok (5, 2) := by
  change ext2InodeIdx smallFs 2 = .ok (5, 2)
  decide +kernel

theorem oneBlock_ok (size : ℕ) : TreeOk smallFs (oneBlock size) := by
  have hreach : reachable smallFs (oneBlock size) = [7] := rfl
  refine ⟨⟨by decide, by decide, fun g hg g' hg' _ => ?_⟩, ?_, fun b hb => ?_, fun b hb => ?_, 5, 2,
    oneBlock_idx size, ?_, fun g _ => ?_, by decide⟩
  · have hone : smallFs.groups = 1 := by decide
    omega
  · rw [hreach]
    decide
  · rw [hreach, List.mem_singleton] at hb
    subst hb
    decide
  · rw [hreach, List.mem_singleton] at hb
    subst hb
    exact (by decide : bit smallFs 0 false (7 / smallFs.sblock.blocksPg) (7 % smallFs.sblock.blocksPg) = true)
  · rw [hreach]
    decide
  · exact (by decide : 5 ≠ 3)

/-- The file was written to but its record was not. -/
theorem truncate_complete_iff_oneBlock : TreeOk smallFs (oneBlock 0) ∧ ∃ f' s',
    ext2Truncate smallFs (oneBlock 0) = .ok (f', s') ∧ Truncated smallFs (oneBlock 0) s' f' := by
  refine ⟨oneBlock_ok 0, (truncate_complete_iff (oneBlock_ok 0)).mpr ⟨fun i hi _ => ?_, fun i j hij _ _ => ?_, rfl,
    fun block idx hidx => ?_⟩⟩
  · refine if_neg ?_
    unfold directBlocks at hi
    omega
  · exact if_neg (by omega)
  · rw [oneBlock_idx] at hidx
    obtain ⟨rfl, rfl⟩ := Prod.mk.inj (Except.ok.inj hidx)
    exact ⟨by decide, by decide⟩

/-- A file of 1000 bytes keeps its size: the second pointer is missing. -/
theorem size_is_kept : TreeOk smallFs (oneBlock 1000) ∧
    (ext2Truncate smallFs (oneBlock 1000)).map (fun r => r.1.size) = .ok 1000 ∧
    ¬ ∃ f' s', ext2Truncate smallFs (oneBlock 1000) = .ok (f', s') ∧ Truncated smallFs (oneBlock 1000) s' f' := by
  have hsize : (ext2Truncate smallFs (oneBlock 1000)).map (fun r => r.1.size) = .ok 1000 := by decide +kernel
  refine ⟨oneBlock_ok 1000, hsize, ?_⟩
  rintro ⟨f', s', hok, ht⟩
  rw [hok] at hsize
  have hsize' : f'.size = 1000 := Except.ok.inj hsize
  rw [ht.size] at hsize'
  cases hsize'

end BulbOS.Ext2
