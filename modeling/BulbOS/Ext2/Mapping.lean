import BulbOS.Ext2.Alloc

/-!
# The block of a file

A file block is found from a pointer of the inode through zero to three indirect blocks of 256 pointers.
`ext2_indblock` reads the block it was led to once more than the tree is deep.

* `treeRoot`, `treeIdxs`, `treeBlock`: the tree of ext2; `Mapped`: every pointer on the way is there;
* `ext2Indblock_spec`: what `ext2_indblock` returns;
* `ext2GetIblock_mapped`: what `ext2_get_iblock` returns, and that it changes nothing;
* **`block_mapping_iff`**: when that is the block of the tree.
-/

namespace BulbOS.Ext2

open KLib

variable {s : Fs} {device : ℕ}

/-! ## The tree -/

/-- The digits of `idx` to base 256, `depth` of them after the first. -/
def digits : ℕ → ℕ → List ℕ
  | 0, idx => [idx]
  | depth + 1, idx => idx / 256 ^ (depth + 1) :: digits depth (idx % 256 ^ (depth + 1))

/-- The pointer of the inode from which a file block is reached. -/
def treeRoot (idx : ℕ) : ℕ :=
  if idx < directBlocks then idx
  else if idx < ind1Limit then ind1Idx
  else if idx < ind2Limit then ind2Idx
  else ind3Idx

/-- The entries of the indirect blocks that lead to a file block. -/
def treeIdxs (idx : ℕ) : List ℕ :=
  if idx < directBlocks then []
  else if idx < ind1Limit then digits 0 (idx - directBlocks)
  else if idx < ind2Limit then digits 1 (idx - ind1Limit)
  else digits 2 (idx - ind2Limit)

/-- The block that is reached from block `b` through the entries `is`. -/
def follow (s : Fs) (device : ℕ) : ℕ → List ℕ → ℕ
  | b, [] => b
  | b, i :: is => follow s device (load32 (s.disk device b) (4 * i)) is

/-- Every block on the way is there. -/
def Mapped (s : Fs) (device : ℕ) : ℕ → List ℕ → Prop
  | b, [] => b ≠ 0
  | b, i :: is => b ≠ 0 ∧ Mapped s device (load32 (s.disk device b) (4 * i)) is

instance decidableMapped (s : Fs) (device : ℕ) : ∀ b is, Decidable (Mapped s device b is)
  | b, [] => inferInstanceAs (Decidable (b ≠ 0))
  | b, i :: is =>
    have := decidableMapped s device (load32 (s.disk device b) (4 * i)) is
    inferInstanceAs (Decidable (b ≠ 0 ∧ _))

/-- The block that ext2 assigns to file block `idx`. -/
def treeBlock (s : Fs) (f : Inode) (idx : ℕ) : ℕ := follow s f.device (f.blocks (treeRoot idx)) (treeIdxs idx)

theorem Mapped.ne_zero {b : ℕ} {is : List ℕ} (h : Mapped s device b is) : b ≠ 0 := by
  cases is with
  | nil => exact h
  | cons i is => exact h.1

/-! ## The code -/

/-- The entries that `ext2_indblock` reads: `ind32[r_idx]` and `block[n_idx]` at every level. -/
def indReads : ℕ → ℕ → List ℕ
  | 0, idx => [idx / 1, idx % 1]
  | times + 1, idx =>
    idx / 256 ^ (times + 1) :: idx % 256 ^ (times + 1) :: indReads times (idx % 256 ^ (times + 1))

/-- The entries that `ext2_get_iblock` reads. -/
def iblockReads (idx : ℕ) : List ℕ :=
  if idx < directBlocks then []
  else if idx < ind1Limit then indReads 0 (idx - directBlocks)
  else if idx < ind2Limit then indReads 1 (idx - ind1Limit)
  else indReads 2 (idx - ind2Limit)

theorem ext2GetDiv_eq {times : ℕ} (h : times ≤ 2) : ext2GetDiv times = .ok (256 ^ times) := by
  interval_cases times <;> rfl

/-- A block that is written back as it was read changes nothing. -/
theorem write_read (s : Fs) (device b : ℕ) : ext2WriteBlock s device b (s.disk device b) = s := by
  have hmem : (fun x => if x < s.blockSize then s.disk device b x else s.disk device b x) = s.disk device b := by
    funext x
    exact ite_self _
  rw [ext2WriteBlock, hmem, Function.update_eq_self, Function.update_eq_self]

theorem indEntry_there {ind : Mem} {idx times : ℕ} (h : times ≤ 2) (hp : load32 ind (4 * (idx / 256 ^ times)) ≠ 0) :
    indEntry s device ind idx times =
      .ok (load32 ind (4 * (idx / 256 ^ times)), idx % 256 ^ times, ind, s) := by
  rw [indEntry, ext2GetDiv_eq h]
  exact if_neg hp

/-- `ext2_indblock` returns the first word of the block that the tree leads to. -/
theorem ext2Indblock_spec {times b idx : ℕ} (h : times ≤ 2) (hmap : Mapped s device b (digits times idx)) :
    ext2Indblock device times (s.disk device b) idx s =
      .ok (load32 (s.disk device (follow s device b (digits times idx))) 0, s.disk device b, s) := by
  induction times generalizing b idx with
  | zero =>
    have hp : load32 (s.disk device b) (4 * (idx / 256 ^ 0)) ≠ 0 := by
      rw [Nat.pow_zero, Nat.div_one]
      exact hmap.2
    rw [ext2Indblock, indEntry_there h hp, Nat.pow_zero, Nat.div_one, Nat.mod_one]
    change Except.ok (_, _, ext2WriteBlock s device _ (s.disk device _)) = _
    rw [write_read]
    rfl
  | succ times ih =>
    rw [ext2Indblock, indEntry_there h hmap.2.ne_zero]
    change (ext2Indblock device times (s.disk device _) _ s >>= _) = _
    rw [ih (by omega) hmap.2]
    change Except.ok (_, _, ext2WriteBlock s device _ (s.disk device _)) = _
    rw [write_read]
    rfl

theorem fillPointer_there {f : Inode} {i : ℕ} (h : f.blocks i ≠ 0) : fillPointer s f i = .ok (f, s) := if_neg h

theorem iblock_indirect {f : Inode} {idx i times k : ℕ} (hd : ¬ idx < directBlocks)
    (hind : indirect idx = .ok (i, times, k)) (ht : times ≤ 2)
    (hmap : Mapped s f.device (f.blocks i) (digits times k)) :
    ext2GetIblock s f idx =
      .ok (load32 (s.disk f.device (follow s f.device (f.blocks i) (digits times k))) 0, f, s) := by
  rw [ext2GetIblock, if_neg hd, hind]
  change (fillPointer s f i >>= _) = _
  rw [fillPointer_there hmap.ne_zero]
  change (ext2Indblock f.device times (s.disk f.device (f.blocks i)) k s >>= _) = _
  rw [ext2Indblock_spec ht hmap]
  change Except.ok (_, _, ext2WriteBlock s f.device _ (s.disk f.device _)) = _
  rw [write_read]

/-- **`ext2_get_iblock`** returns the block of the tree if it is direct and else the first word in it, and
changes nothing. -/
theorem ext2GetIblock_mapped {f : Inode} {idx : ℕ} (hidx : idx < ind3Limit)
    (hmap : Mapped s f.device (f.blocks (treeRoot idx)) (treeIdxs idx)) :
    ext2GetIblock s f idx = .ok (if idx < directBlocks then treeBlock s f idx
      else load32 (s.disk f.device (treeBlock s f idx)) 0, f, s) := by
  unfold treeBlock
  unfold treeRoot treeIdxs at hmap ⊢
  by_cases h₀ : idx < directBlocks
  · simp only [if_pos h₀] at hmap ⊢
    rw [ext2GetIblock, if_pos h₀, fillPointer_there hmap]
    rfl
  simp only [if_neg h₀] at hmap ⊢
  by_cases h₁ : idx < ind1Limit
  · simp only [if_pos h₁] at hmap ⊢
    exact iblock_indirect h₀ (if_pos h₁) (by decide) hmap
  simp only [if_neg h₁] at hmap ⊢
  by_cases h₂ : idx < ind2Limit
  · simp only [if_pos h₂] at hmap ⊢
    exact iblock_indirect h₀ (by rw [indirect, if_neg h₁, if_pos h₂]) (by decide) hmap
  simp only [if_neg h₂] at hmap ⊢
  exact iblock_indirect h₀ (by rw [indirect, if_neg h₁, if_neg h₂, if_pos hidx]) (by decide) hmap

theorem iblockReads_lt_iff {idx : ℕ} (hidx : idx < ind3Limit) :
    (∀ j ∈ iblockReads idx, j < 256) ↔ idx < ind2Limit ∨ (idx - ind2Limit) % 65536 < 256 := by
  have e₁ : ind1Limit = 268 := by decide
  have e₂ : ind2Limit = 65804 := by decide
  have e₃ : ind3Limit = 16843020 := by decide
  have e₀ : directBlocks = 12 := rfl
  unfold iblockReads
  split_ifs with h₀ h₁ h₂
  · simp only [List.not_mem_nil, false_implies, implies_true, true_iff]
    omega
  all_goals
    simp only [indReads, List.mem_cons, List.not_mem_nil, or_false, forall_eq_or_imp, forall_eq]
    omega

/-- **Block mapping.** Nothing changes. The block that ext2 assigns to `idx` is returned, and no entry
outside an indirect block is read, exactly when the block is direct, or its first word is its own number and
the entry `block[n_idx]` of the first of three levels exists. -/
theorem block_mapping_iff {s : Fs} {f : Inode} {idx : ℕ} (hidx : idx < ind3Limit)
    (hmap : Mapped s f.device (f.blocks (treeRoot idx)) (treeIdxs idx)) :
    (∃ r, ext2GetIblock s f idx = .ok (r, f, s)) ∧
    (ext2GetIblock s f idx = .ok (treeBlock s f idx, f, s) ∧ (∀ j ∈ iblockReads idx, j < 256) ↔
      idx < directBlocks ∨ load32 (s.disk f.device (treeBlock s f idx)) 0 = treeBlock s f idx ∧
        (idx < ind2Limit ∨ (idx - ind2Limit) % 65536 < 256)) := by
  have hspec := ext2GetIblock_mapped hidx hmap
  refine ⟨⟨_, hspec⟩, ?_⟩
  rw [hspec, iblockReads_lt_iff hidx]
  by_cases h₀ : idx < directBlocks
  · have h₂ : idx < ind2Limit := lt_of_lt_of_le h₀ (by decide)
    simp [h₀, h₂]
  · simp [h₀]

/-- Block 30 is an indirect block with the entries 40 and 41; block 41 starts with its own number. -/
def treeFs : Fs where
  sblock := ⟨64, 0, 64, 16, 128⟩
  bgDescrs _ := ⟨3, 4, 5⟩
  disk _ b x := if b = 30 ∧ x = 0 then 40 else if b = 30 ∧ x = 4 ∨ b = 41 ∧ x = 0 then 41
    else if b = 30 ∨ b = 41 then 0 else 7

/-- A file of 14 blocks. -/
def treeFile : Inode :=
  ⟨0, 2, 0x8000, 1, 14336, 0, 0, 0, 0, 0, fun i => if i < 12 then 10 + i else if i = 12 then 30 else 0⟩

theorem block_mapping_iff_tree : Mapped treeFs 0 (treeFile.blocks (treeRoot 13)) (treeIdxs 13) ∧
    ext2GetIblock treeFs treeFile 13 = .ok (41, treeFile, treeFs) := by
  have hmap : Mapped treeFs treeFile.device (treeFile.blocks (treeRoot 13)) (treeIdxs 13) := by decide
  have h := block_mapping_iff (show 13 < ind3Limit by decide) hmap
  exact ⟨hmap, (h.2.mpr (.inr ⟨by decide, .inl (by decide)⟩)).1⟩

/-- Block 12 of the file is block 40; what is returned is the first word in it. -/
theorem data_read_as_pointer : Mapped treeFs 0 (treeFile.blocks (treeRoot 12)) (treeIdxs 12) ∧
    treeBlock treeFs treeFile 12 = 40 ∧ (ext2GetIblock treeFs treeFile 12).map Prod.fst = .ok 0x07070707 ∧
    ¬ (ext2GetIblock treeFs treeFile 12 = .ok (treeBlock treeFs treeFile 12, treeFile, treeFs) ∧
      ∀ j ∈ iblockReads 12, j < 256) := by
  have hret : (ext2GetIblock treeFs treeFile 12).map Prod.fst = .ok 0x07070707 := by decide +kernel
  refine ⟨by decide, by decide, hret, ?_⟩
  rintro ⟨hok, _⟩
  rw [hok] at hret
  exact absurd (Except.ok.inj hret) (by decide)

end BulbOS.Ext2
