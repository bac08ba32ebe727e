import BulbOS.Ext2.Alloc

/-!
# The inode table

`ext2_inode_idx` gives the block and the slot of an inode; a slot has `sizeof(ext2_inode_t)` bytes, and a
block has as many slots as inodes of `inode_size` bytes fit in it.

* `ext2InodeIdx_spec`, `TableOk.slot`: the place of an inode, inside its block;
* `TableOk.place_inj`: two inodes have different places;
* `putInode_outside`, `SameRecord.put`: what a record holds after `ext2_inode_update`;
* **`inode_table_round_trip`**: an update is read back and leaves the other inodes alone.
-/

namespace BulbOS.Ext2

open KLib

variable {s s' : Fs} {groups : ℕ}

/-- The first block of the inode table of group `g`, where `ext2_inode_idx` places it. -/
def Fs.tableStart (s : Fs) (g : ℕ) : ℕ := u32 (u32 (g * s.sblock.blocksPg) + (s.bgDescrs g).inodeTable)

/-- The number of blocks of an inode table. -/
def Fs.tableBlocks (s : Fs) : ℕ := (s.sblock.inodesPerGroup + s.inodesPerBlock - 1) / s.inodesPerBlock

/-- A superblock and descriptors whose inode tables are disjoint. -/
structure TableOk (s : Fs) (groups : ℕ) : Prop where
  inodes : 0 < s.sblock.inodesPerGroup
  small : 128 ≤ s.sblock.inodeSize
  large : s.sblock.inodeSize ≤ s.blockSize
  disjoint : ∀ g < groups, ∀ g' < groups, g ≠ g' → ∀ t < s.tableBlocks, ∀ t' < s.tableBlocks,
    u32 (s.tableStart g + t) ≠ u32 (s.tableStart g' + t')

/-! ## Places -/

theorem TableOk.perBlock_pos (h : TableOk s groups) : 0 < s.inodesPerBlock :=
  Nat.div_pos h.large (lt_of_lt_of_le (by decide) h.small)

/-- The place of an inode: its group, and in it its block and its slot. -/
theorem ext2InodeIdx_spec (h₀ : 0 < s.sblock.inodesPerGroup) (h₁ : 0 < s.sblock.inodeSize)
    (h₂ : 0 < s.inodesPerBlock) {n : ℕ} (hn : n < 2 ^ 32) :
    ext2InodeIdx s n = .ok (u32 (s.tableStart (n / s.sblock.inodesPerGroup) +
      n % s.sblock.inodesPerGroup / s.inodesPerBlock), n % s.sblock.inodesPerGroup % s.inodesPerBlock) := by
  have hback : u32 (sub32 n 1 + 1) = n := by
    unfold u32 sub32
    omega
  rw [ext2InodeIdx, if_neg (by omega)]
  dsimp only
  rw [hback]
  rfl

theorem TableOk.idx (h : TableOk s groups) {n : ℕ} (hn : n < 2 ^ 32) :
    ext2InodeIdx s n = .ok (u32 (s.tableStart (n / s.sblock.inodesPerGroup) +
      n % s.sblock.inodesPerGroup / s.inodesPerBlock), n % s.sblock.inodesPerGroup % s.inodesPerBlock) :=
  ext2InodeIdx_spec h.inodes (lt_of_lt_of_le (by decide) h.small) h.perBlock_pos hn

theorem TableOk.slot (h : TableOk s groups) (d : ℕ) :
    sizeofInode * (d % s.inodesPerBlock) + sizeofInode ≤ s.blockSize := by
  have hlt := Nat.mod_lt d h.perBlock_pos
  calc sizeofInode * (d % s.inodesPerBlock) + sizeofInode
      = 128 * (d % s.inodesPerBlock + 1) := by unfold sizeofInode; omega
    _ ≤ s.sblock.inodeSize * s.inodesPerBlock := Nat.mul_le_mul h.small hlt
    _ ≤ s.blockSize := Nat.mul_div_le _ _

theorem TableOk.block_lt (h : TableOk s groups) (n : ℕ) :
    n % s.sblock.inodesPerGroup / s.inodesPerBlock < s.tableBlocks := by
  have hlt := Nat.mod_lt n h.inodes
  have hpos := h.perBlock_pos
  unfold Fs.tableBlocks
  rw [Nat.lt_div_iff_mul_lt hpos]
  have := Nat.div_mul_le_self (n % s.sblock.inodesPerGroup) s.inodesPerBlock
  omega

theorem TableOk.place_inj (h : TableOk s groups) {n m : ℕ} (hn : n < 2 ^ 32) (hm : m < 2 ^ 32)
    (hgn : n / s.sblock.inodesPerGroup < groups) (hgm : m / s.sblock.inodesPerGroup < groups)
    (he : ext2InodeIdx s n = ext2InodeIdx s m) : n = m := by
  rw [h.idx hn, h.idx hm] at he
  have hp := Except.ok.inj he
  have hblock := congrArg Prod.fst hp
  have hslot := congrArg Prod.snd hp
  dsimp only at hblock hslot
  have hgroup : n / s.sblock.inodesPerGroup = m / s.sblock.inodesPerGroup := by
    by_contra hne
    exact h.disjoint _ hgn _ hgm hne _ (h.block_lt n) _ (h.block_lt m) hblock
  rw [hgroup] at hblock
  have ht : n % s.sblock.inodesPerGroup / s.inodesPerBlock = m % s.sblock.inodesPerGroup / s.inodesPerBlock := by
    have h₁ := (Nat.div_le_self (n % s.sblock.inodesPerGroup) s.inodesPerBlock).trans (Nat.mod_le n _)
    have h₂ := (Nat.div_le_self (m % s.sblock.inodesPerGroup) s.inodesPerBlock).trans (Nat.mod_le m _)
    exact u32_add_inj (by omega) (by omega) hblock
  have hd : n % s.sblock.inodesPerGroup = m % s.sblock.inodesPerGroup := by
    rw [← Nat.div_add_mod (n % s.sblock.inodesPerGroup) s.inodesPerBlock, ht, hslot, Nat.div_add_mod]
  rw [← Nat.div_add_mod n s.sblock.inodesPerGroup, hgroup, hd, Nat.div_add_mod]

/-! ## Records -/

/-- The fields have the types of `inode_t`. -/
structure Inode.Typed (f : Inode) : Prop where
  mode : f.mode < 2 ^ 16
  hardLinksCount : f.hardLinksCount < 2 ^ 16
  size : f.size < 2 ^ 32
  lastAccessTime : f.lastAccessTime < 2 ^ 32
  creationTime : f.creationTime < 2 ^ 32
  lastModifyTime : f.lastModifyTime < 2 ^ 32
  deletionTime : f.deletionTime < 2 ^ 32
  sectors : f.sectors < 2 ^ 32
  blocks : ∀ i < inodeBlocksCount, f.blocks i < 2 ^ 32

/-- Two inodes with the same record. -/
structure SameRecord (f f' : Inode) : Prop where
  mode : f.mode = f'.mode
  hardLinksCount : f.hardLinksCount = f'.hardLinksCount
  size : f.size = f'.size
  lastAccessTime : f.lastAccessTime = f'.lastAccessTime
  creationTime : f.creationTime = f'.creationTime
  lastModifyTime : f.lastModifyTime = f'.lastModifyTime
  deletionTime : f.deletionTime = f'.deletionTime
  sectors : f.sectors = f'.sectors
  blocks : ∀ i < inodeBlocksCount, f.blocks i = f'.blocks i

theorem putBlocks_spec (m : Mem) (a : ℕ) (blocks : ℕ → ℕ) (n : ℕ) :
    let m' := (List.range n).foldl (fun m i => store32 m (a + 40 + 4 * i) (blocks i)) m
    (∀ x, x < a + 40 ∨ a + 40 + 4 * n ≤ x → m' x = m x) ∧
      ∀ i < n, load32 m' (a + 40 + 4 * i) = u32 (blocks i) := by
  induction n with
  | zero => exact ⟨fun _ _ => rfl, fun _ hi => absurd hi (Nat.not_lt_zero _)⟩
  | succ n ih =>
    obtain ⟨hout, hin⟩ := ih
    rw [List.range_succ, List.foldl_append]
    refine ⟨fun x hx => ?_, fun i hi => ?_⟩
    · exact (store32_of_outside _ _ (by omega)).trans (hout x (by omega))
    · by_cases hin' : i = n
      · subst hin'
        exact load32_store32 _ _ _
      · exact (load32_store32_of_disjoint _ _ (by omega)).trans (hin i (by omega))

theorem putBlocks_outside (m : Mem) {a x : ℕ} (blocks : ℕ → ℕ) (h : x < a + 40 ∨ a + 100 ≤ x) :
    putBlocks m a blocks x = m x :=
  (putBlocks_spec m a blocks inodeBlocksCount).1 x h

theorem load32_putBlocks (m : Mem) (a : ℕ) (blocks : ℕ → ℕ) {i : ℕ} (hi : i < inodeBlocksCount) :
    load32 (putBlocks m a blocks) (a + 40 + 4 * i) = u32 (blocks i) :=
  (putBlocks_spec m a blocks inodeBlocksCount).2 i hi

theorem load16_putBlocks_of_disjoint (m : Mem) {a b : ℕ} (blocks : ℕ → ℕ) (h : b + 2 ≤ a + 40) :
    load16 (putBlocks m a blocks) b = load16 m b :=
  load16_congr fun _ _ _ => putBlocks_outside m blocks (by omega)

theorem load32_putBlocks_of_disjoint (m : Mem) {a b : ℕ} (blocks : ℕ → ℕ) (h : b + 4 ≤ a + 40) :
    load32 (putBlocks m a blocks) b = load32 m b :=
  load32_congr fun _ _ _ => putBlocks_outside m blocks (by omega)

theorem putInode_outside (m : Mem) {a x : ℕ} (f : Inode) (h : x < a ∨ a + sizeofInode ≤ x) :
    putInode m a f x = m x := by
  unfold sizeofInode at h
  unfold putInode
  rw [putBlocks_outside _ _ (by omega)]
  simp (disch := omega) only [store32_of_outside, store16_of_outside]

/-- The inode that `ext2_inode_get` makes of a record at `a`. -/
def getInode (m : Mem) (a : ℕ) (o : Inode) : Inode :=
  { o with
    mode := load16 m a
    size := load32 m (a + 4)
    lastAccessTime := load32 m (a + 8)
    creationTime := load32 m (a + 12)
    lastModifyTime := load32 m (a + 16)
    deletionTime := load32 m (a + 20)
    hardLinksCount := load16 m (a + 26)
    sectors := load32 m (a + 28)
    blocks := fun i => if i < inodeBlocksCount then load32 m (a + 40 + 4 * i) else o.blocks i }

theorem getInode_congr {m m' : Mem} {a : ℕ} (o : Inode)
    (h : ∀ x, a ≤ x → x < a + sizeofInode → m x = m' x) : getInode m a o = getInode m' a o := by
  unfold sizeofInode at h
  have h₁₆ : ∀ k, k + 2 ≤ 128 → load16 m (a + k) = load16 m' (a + k) :=
    fun k hk => load16_congr fun x _ _ => h x (by omega) (by omega)
  have h₃₂ : ∀ k, k + 4 ≤ 128 → load32 m (a + k) = load32 m' (a + k) :=
    fun k hk => load32_congr fun x _ _ => h x (by omega) (by omega)
  have hmode : load16 m a = load16 m' a := h₁₆ 0 (by decide)
  have hblocks : (fun i => if i < inodeBlocksCount then load32 m (a + 40 + 4 * i) else o.blocks i) =
      fun i => if i < inodeBlocksCount then load32 m' (a + 40 + 4 * i) else o.blocks i := by
    funext i
    by_cases hi : i < inodeBlocksCount
    · rw [if_pos hi, if_pos hi, Nat.add_assoc]
      exact h₃₂ (40 + 4 * i) (by unfold inodeBlocksCount at hi; omega)
    · rw [if_neg hi, if_neg hi]
  unfold getInode
  rw [hmode, hblocks, h₃₂ 4 (by decide), h₃₂ 8 (by decide), h₃₂ 12 (by decide), h₃₂ 16 (by decide),
    h₃₂ 20 (by decide), h₁₆ 26 (by decide), h₃₂ 28 (by decide)]

theorem SameRecord.put (m : Mem) (a : ℕ) {f : Inode} (hf : f.Typed) (o : Inode) :
    SameRecord (getInode (putInode m a f) a o) f := by
  refine ⟨?_, ?_, ?_, ?_, ?_, ?_, ?_, ?_, fun i hi => ?_⟩
  · change load16 (putBlocks _ _ _) _ = _
    simp (disch := omega) only [load16_putBlocks_of_disjoint, load16_store32_of_disjoint,
      load16_store16_of_disjoint, load16_store16]
    exact Nat.mod_eq_of_lt hf.mode
  · change load16 (putBlocks _ _ _) _ = _
    simp (disch := omega) only [load16_putBlocks_of_disjoint, load16_store32_of_disjoint, load16_store16]
    exact Nat.mod_eq_of_lt hf.hardLinksCount
  · change load32 (putBlocks _ _ _) _ = _
    simp (disch := omega) only [load32_putBlocks_of_disjoint, load32_store32_of_disjoint,
      load32_store16_of_disjoint, load32_store32]
    exact u32_of_lt hf.size
  · change load32 (putBlocks _ _ _) _ = _
    simp (disch := omega) only [load32_putBlocks_of_disjoint, load32_store32_of_disjoint,
      load32_store16_of_disjoint, load32_store32]
    exact u32_of_lt hf.lastAccessTime
  · change load32 (putBlocks _ _ _) _ = _
    simp (disch := omega) only [load32_putBlocks_of_disjoint, load32_store32_of_disjoint,
      load32_store16_of_disjoint, load32_store32]
    exact u32_of_lt hf.creationTime
  · change load32 (putBlocks _ _ _) _ = _
    simp (disch := omega) only [load32_putBlocks_of_disjoint, load32_store32_of_disjoint,
      load32_store16_of_disjoint, load32_store32]
    exact u32_of_lt hf.lastModifyTime
  · change load32 (putBlocks _ _ _) _ = _
    simp (disch := omega) only [load32_putBlocks_of_disjoint, load32_store32_of_disjoint,
      load32_store16_of_disjoint, load32_store32]
    exact u32_of_lt hf.deletionTime
  · change load32 (putBlocks _ _ _) _ = _
    simp (disch := omega) only [load32_putBlocks_of_disjoint, load32_store32]
    exact u32_of_lt hf.sectors
  · change (if i < inodeBlocksCount then load32 (putBlocks _ _ _) _ else _) = _
    rw [if_pos hi, load32_putBlocks _ _ _ hi, u32_of_lt (hf.blocks i hi)]

/-! ## Update and get -/

theorem ext2InodeGet_of_idx {o : Inode} {block idx : ℕ} (h : ext2InodeIdx s o.n = .ok (block, idx)) :
    ext2InodeGet s o = .ok (getInode (s.disk o.device block) (sizeofInode * idx) o) := by
  rw [ext2InodeGet, h]
  rfl

theorem ext2InodeUpdate_of_idx {f : Inode} {block idx : ℕ} (h : ext2InodeIdx s f.n = .ok (block, idx)) :
    ext2InodeUpdate s f = .ok (ext2WriteBlock s f.device block
      (putInode (s.disk f.device block) (sizeofInode * idx) f)) := by
  rw [ext2InodeUpdate, h]
  rfl

/-- **Inode table.** An inode that is updated is read back; what is read for another inode, and every
byte outside its record, is unchanged. -/
theorem inode_table_round_trip {s : Fs} {groups : ℕ} (h : TableOk s groups) {f : Inode} (hf : f.Typed)
    (hn : f.n < 2 ^ 32) (hg : f.n / s.sblock.inodesPerGroup < groups) :
    ∃ s' block idx, ext2InodeUpdate s f = .ok s' ∧ ext2InodeIdx s f.n = .ok (block, idx) ∧
      (∀ o : Inode, o.device = f.device → o.n = f.n → ∃ o', ext2InodeGet s' o = .ok o' ∧ SameRecord o' f) ∧
      (∀ o : Inode, o.n < 2 ^ 32 → o.n / s.sblock.inodesPerGroup < groups → o.n ≠ f.n →
        ext2InodeGet s' o = ext2InodeGet s o) ∧
      ∀ d b x, ¬ (d = f.device ∧ b = block ∧ sizeofInode * idx ≤ x ∧ x < sizeofInode * idx + sizeofInode) →
        s'.disk d b x = s.disk d b x := by
  have hplace : ∀ n < 2 ^ 32, ∃ block idx, ext2InodeIdx s n = .ok (block, idx) ∧
      sizeofInode * idx + sizeofInode ≤ s.blockSize := fun n hn => ⟨_, _, h.idx hn, h.slot _⟩
  obtain ⟨block, idx, hidx, hfit⟩ := hplace f.n hn
  let s' := ext2WriteBlock s f.device block (putInode (s.disk f.device block) (sizeofInode * idx) f)
  have hframe : ∀ d b x, ¬ (d = f.device ∧ b = block ∧ sizeofInode * idx ≤ x ∧ x < sizeofInode * idx + sizeofInode) →
      s'.disk d b x = s.disk d b x := by
    intro d b x hout
    by_cases hb : d = f.device ∧ b = block
    · obtain ⟨rfl, rfl⟩ := hb
      by_cases hx : x < s.blockSize
      · rw [write_self hx]
        exact putInode_outside _ _ (by omega)
      · change (ext2WriteBlock s _ _ _).disk _ _ x = _
        rw [ext2WriteBlock]
        dsimp only
        rw [Function.update_self, Function.update_self, if_neg hx]
    · rw [write_other (by omega)]
  refine ⟨s', block, idx, ext2InodeUpdate_of_idx hidx, hidx, fun o hd ho => ?_, fun o ho hgo hne => ?_, hframe⟩
  · have hidx' : ext2InodeIdx s' o.n = .ok (block, idx) := by
      rw [ho]
      exact hidx
    refine ⟨_, ext2InodeGet_of_idx hidx', ?_⟩
    have hrec := SameRecord.put (s.disk f.device block) (sizeofInode * idx) hf o
    rwa [getInode_congr o fun x _ hx => by rw [hd, write_self (by omega)]]
  · obtain ⟨block', idx', hidx', _⟩ := hplace o.n ho
    have hother : block' ≠ block ∨ idx' ≠ idx := by
      by_contra hsame
      push Not at hsame
      obtain ⟨rfl, rfl⟩ := hsame
      exact hne (h.place_inj ho hn hgo hg (hidx'.trans hidx.symm))
    rw [ext2InodeGet_of_idx hidx', ext2InodeGet_of_idx (s := s') hidx']
    congr 1
    refine getInode_congr o fun x h₁ h₂ => hframe _ _ _ ?_
    unfold sizeofInode at h₁ h₂ ⊢
    omega

/-- Two groups of 32 blocks and 16 inodes of 256 bytes. -/
def twoGroups : Fs where
  sblock := ⟨64, 0, 32, 16, 256⟩
  bgDescrs _ := ⟨3, 4, 5⟩
  disk _ _ _ := 0

theorem twoGroups_tableOk : TableOk twoGroups 2 := ⟨by decide, by decide, by decide, by decide⟩

/-- Inode 18, a file. -/
def demoInode : Inode := ⟨0, 18, 0x8000, 1, 2000, 5, 6, 7, 0, 4, fun i => if i < 2 then 40 + i else 0⟩

theorem demoInode_typed : demoInode.Typed :=
  ⟨by decide, by decide, by decide, by decide, by decide, by decide, by decide, by decide, by decide⟩

theorem inode_table_round_trip_demo : TableOk twoGroups 2 ∧ demoInode.Typed ∧ ∃ s' o',
    ext2InodeUpdate twoGroups demoInode = .ok s' ∧
      ext2InodeGet s' ⟨0, 18, 0, 0, 0, 0, 0, 0, 0, 0, fun _ => 0⟩ = .ok o' ∧ SameRecord o' demoInode := by
  obtain ⟨s', block, idx, hup, _, hget, _⟩ :=
    inode_table_round_trip twoGroups_tableOk demoInode_typed (by decide) (by decide)
  obtain ⟨o', ho', hrec⟩ := hget ⟨0, 18, 0, 0, 0, 0, 0, 0, 0, 0, fun _ => 0⟩ rfl rfl
  exact ⟨twoGroups_tableOk, demoInode_typed, s', o', hup, ho', hrec⟩

end BulbOS.Ext2
