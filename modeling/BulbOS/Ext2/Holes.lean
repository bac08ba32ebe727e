import BulbOS.Ext2.Bounds

/-!
# Reading a file with holes

`ext2_read_content` finds a block with `ext2_get_iblock`, which fills every pointer that is missing on the way.

* `Reading`: the blocks of a file, by the number of levels above the data, and the blocks allocated since;
* `Grown`, `Added`: bits of the bitmaps are only set, and one was set;
* `Reading.alloc`, `Reading.write`: an allocation, and a pointer block that is written back;
* `Reading.indblock`, `Reading.iblock`: a bit is set exactly if a pointer is missing;
* **`read_frame_iff`**: when a read changes nothing.
-/

namespace BulbOS.Ext2

open KLib

variable {s s' s'' : Fs} {f f' : Inode} {device : ℕ} {used fresh fresh' : Set ℕ} {level : ℕ → Set ℕ}

/-- An index at which `ext2_alloc` may look for a bit. -/
def Start (s : Fs) (i : ℕ) : Prop := i = 0 ∨ ∃ k, i = nextIndex s k

theorem Start.congr {i : ℕ} (hs : s'.sblock = s.sblock) (h : Start s' i) : Start s i := by
  unfold Start nextIndex at h ⊢
  rwa [hs] at h

theorem searchFrom_start {fuel i i' j : ℕ} (h : searchFrom s device false fuel i = some (i', j)) (hi : Start s i) :
    Start s i' := by
  induction fuel generalizing i with
  | zero => cases h
  | succ fuel ih =>
    rw [searchFrom] at h
    cases hscan : scanAt s device false i with
    | some j =>
      rw [hscan] at h
      cases h
      exact hi
    | none =>
      rw [hscan] at h
      dsimp only at h
      split_ifs at h
      exact ih h (.inr ⟨i, rfl⟩)

/-! ## Bits that are set -/

/-- No bit of a bitmap was cleared. -/
structure Grown (device : ℕ) (s s' : Fs) : Prop where
  sblock : s'.sblock = s.sblock
  bgDescrs : s'.bgDescrs = s.bgDescrs
  bits : ∀ i j, Start s i → j < s.sblock.blocksPg → bit s device false i j = true → bit s' device false i j = true

/-- A bit of a bitmap was set. -/
def Added (device : ℕ) (s s' : Fs) : Prop :=
  ∃ i j, Start s i ∧ j < s.sblock.blocksPg ∧ bit s device false i j = false ∧ bit s' device false i j = true

theorem Grown.refl : Grown device s s := ⟨rfl, rfl, fun _ _ _ _ h => h⟩

theorem Grown.start {i : ℕ} (h : Grown device s s') (hi : Start s i) : Start s' i := hi.congr h.sblock.symm

theorem Grown.trans (h : Grown device s s') (h' : Grown device s' s'') : Grown device s s'' where
  sblock := h'.sblock.trans h.sblock
  bgDescrs := h'.bgDescrs.trans h.bgDescrs
  bits i j hi hj hbit := h'.bits i j (h.start hi) (by rw [h.sblock]; exact hj) (h.bits i j hi hj hbit)

theorem Added.grown (h : Added device s s') (hg : Grown device s s') (h' : Grown device s' s'') :
    Added device s s'' := by
  obtain ⟨i, j, hi, hj, hclear, hset⟩ := h
  exact ⟨i, j, hi, hj, hclear, h'.bits i j (hg.start hi) (by rw [hg.sblock]; exact hj) hset⟩

theorem not_added_self : ¬ Added device s s := by
  rintro ⟨i, j, -, -, hclear, hset⟩
  rw [hclear] at hset
  cases hset

/-! ## The blocks of a file -/

/-- A block of the file with `d` levels of pointers, or one allocated since. -/
def Known (level : ℕ → Set ℕ) (fresh : Set ℕ) (d b : ℕ) : Prop := b ∈ level d ∨ b ∈ fresh

/-- If `p` is a block of pointers, then those in `m` lead to blocks one level below. -/
def Leads (level : ℕ → Set ℕ) (fresh : Set ℕ) (p : ℕ) (m : Mem) : Prop :=
  ∀ d, Known level fresh (d + 1) p → ∀ r < 256, load32 m (4 * r) = 0 ∨ Known level fresh d (load32 m (4 * r))

/-- The blocks in use, the blocks of a file by level, and the blocks that were allocated since. A block in use has
its bit set, the bitmaps are in use, and they are no blocks of the file. -/
structure Reading (used : Set ℕ) (level : ℕ → Set ℕ) (fresh : Set ℕ) (s : Fs) (device : ℕ) : Prop where
  drive : device < 4
  blockSize : s.blockSize = 1024
  fits : s.sblock.blocksPg ≤ 8 * 1024
  bitmaps : ∀ i, Start s i → (s.bgDescrs i).blockBitmap ∈ used ∧ ∀ d, (s.bgDescrs i).blockBitmap ∉ level d
  levels : ∀ d, level d ⊆ used
  set : ∀ i j, Start s i → i ≤ j → j < s.sblock.blocksPg → u32 (i + j) ∈ used → bit s device false i j = true
  apart : ∀ b ∈ fresh, b ∉ used
  leads : ∀ p, Leads level fresh p (s.disk device p)

theorem Known.mono {d b : ℕ} (h : Known level fresh d b) (hsub : fresh ⊆ fresh') : Known level fresh' d b :=
  h.imp_right fun hb => hsub hb

theorem Known.back {d d' b : ℕ} (hlevels : ∀ d, level d ⊆ used) (hapart : ∀ b ∈ fresh', b ∉ used)
    (h : Known level fresh d b) (h' : Known level fresh' d' b) : Known level fresh d' b := by
  rcases h' with h' | h'
  · exact .inl h'
  · rcases h with h | h
    · exact absurd (hlevels d h) (hapart b h')
    · exact .inr h

theorem Leads.mono {d p : ℕ} {m : Mem} (hlevels : ∀ d, level d ⊆ used) (hapart : ∀ b ∈ fresh', b ∉ used)
    (hp : Known level fresh d p) (hsub : fresh ⊆ fresh') (h : Leads level fresh p m) : Leads level fresh' p m := by
  intro d' hp' r hr
  exact (h d' (hp.back hlevels hapart hp') r hr).imp_right fun hk => hk.mono hsub

theorem Reading.not_bitmap (h : Reading used level fresh s device) {d b i : ℕ} (hb : Known level fresh d b)
    (hi : Start s i) : b ≠ (s.bgDescrs i).blockBitmap := by
  rintro rfl
  rcases hb with hb | hb
  · exact (h.bitmaps i hi).2 d hb
  · exact h.apart _ hb (h.bitmaps i hi).1

/-- **An allocation** sets a bit, and the block is not one in use. -/
theorem Reading.alloc (h : Reading used level fresh s device) {n : ℕ} (ha : ext2BlockAlloc s device = .ok (n, s')) :
    n < 2 ^ 32 ∧ Reading used level (insert n fresh) s' device ∧ Grown device s s' ∧ Added device s s' := by
  obtain ⟨i, j, hsearch, rfl, rfl⟩ := ext2AllocLoop_search ha
  obtain ⟨hij, hj, -, hclear⟩ := ext2AllocScan_some (searchFrom_scan hsearch)
  have hi : Start s i := searchFrom_start hsearch (.inl (if_pos (by simpa using h.drive)))
  have hn : u32 (i + j) ∉ used := by
    intro hmem
    have := h.set i j hi hij hj hmem
    rw [bit, hclear] at this
    cases this
  have hother : ∀ k, Start s k → (s.bgDescrs k).blockBitmap ≠ u32 (i + j) := fun k hk e => hn (e ▸ (h.bitmaps k hk).1)
  have hbits : ∀ k l, Start s k → l < s.sblock.blocksPg → bit (marked s device false i j) device false k l =
      (decide ((s.bgDescrs k).blockBitmap = (s.bgDescrs i).blockBitmap ∧ j = l) || bit s device false k l) := by
    intro k l hk hl
    have hlt : l < 8 * s.blockSize := by
      rw [h.blockSize]
      exact lt_of_lt_of_le hl h.fits
    change getBit ((marked s device false i j).disk device (s.bgDescrs k).blockBitmap) l = _
    rw [marked, ext2ZeroBlock, write_other (.inr (hother k hk))]
    change getBit ((ext2WriteBlock s device (s.bgDescrs i).blockBitmap
      (setBit (s.disk device (s.bgDescrs i).blockBitmap) j)).disk device (s.bgDescrs k).blockBitmap) l = _
    by_cases hb : (s.bgDescrs k).blockBitmap = (s.bgDescrs i).blockBitmap
    · rw [hb, getBit_write_self hlt, getBit_setBit, ← hb]
      simp [bit, Bgd.bitmap]
    · rw [write_other (.inr hb)]
      simp [bit, Bgd.bitmap, hb]
  have hgrown : Grown device s (marked s device false i j) := by
    refine ⟨rfl, rfl, fun k l hk hl hbit => ?_⟩
    rw [hbits k l hk hl, hbit, Bool.or_true]
  refine ⟨u32_lt _, ⟨h.drive, h.blockSize, h.fits, h.bitmaps, h.levels, fun k l hk hkl hl hu => ?_, ?_, fun p => ?_⟩,
    hgrown, i, j, hi, hj, hclear, ?_⟩
  · exact hgrown.bits k l hk hl (h.set k l hk hkl hl hu)
  · rintro b (rfl | hb)
    · exact hn
    · exact h.apart b hb
  · intro d hp r hr
    by_cases hpn : p = u32 (i + j)
    · left
      have hzero : load32 ((marked s device false i j).disk device p) (4 * r) = load32 (fun _ => 0) (4 * r) := by
        refine load32_congr fun x _ hx => ?_
        rw [hpn]
        have hxs : x < s.blockSize := by
          rw [h.blockSize]
          omega
        exact write_self hxs
      rw [hzero]
      rfl
    · have hp₀ : Known level fresh (d + 1) p := by
        rcases hp with hp | hp | hp
        · exact .inl hp
        · exact absurd hp hpn
        · exact .inr hp
      have hdisk : (marked s device false i j).disk device p = s.disk device p :=
        marked_other (.inr ⟨h.not_bitmap hp₀ hi, hpn⟩)
      rw [hdisk]
      exact (h.leads p d hp₀ r hr).imp_right fun hk => hk.mono (Set.subset_insert _ _)
  · rw [hbits i j hi hj]
    simp

/-- **A pointer block** is written back. -/
theorem Reading.write (h : Reading used level fresh s device) {d b : ℕ} {m : Mem} (hb : Known level fresh d b)
    (hm : Leads level fresh b m) :
    Reading used level fresh (ext2WriteBlock s device b m) device ∧ Grown device s (ext2WriteBlock s device b m) := by
  have hbits : ∀ k l, Start s k → bit (ext2WriteBlock s device b m) device false k l = bit s device false k l := by
    intro k l hk
    have hother : (ext2WriteBlock s device b m).disk device (s.bgDescrs k).blockBitmap =
        s.disk device (s.bgDescrs k).blockBitmap := write_other (.inr (h.not_bitmap hb hk).symm)
    change getBit ((ext2WriteBlock s device b m).disk device (s.bgDescrs k).blockBitmap) l = _
    rw [hother]
    rfl
  refine ⟨⟨h.drive, h.blockSize, h.fits, h.bitmaps, h.levels, fun k l hk hkl hl hu => ?_, h.apart, fun p => ?_⟩,
    rfl, rfl, fun k l hk _ hbit => ?_⟩
  · rw [hbits k l hk]
    exact h.set k l hk hkl hl hu
  · intro d' hp r hr
    by_cases hpb : p = b
    · have hword : load32 ((ext2WriteBlock s device b m).disk device p) (4 * r) = load32 m (4 * r) := by
        refine load32_congr fun x _ hx => ?_
        rw [hpb]
        exact write_self (by rw [h.blockSize]; omega)
      rw [hword]
      exact hm d' (hpb ▸ hp) r hr
    · rw [write_other (.inr hpb)]
      exact h.leads p d' hp r hr
  · rw [hbits k l hk]
    exact hbit

/-! ## Finding a block -/

/-- What a call leaves: more blocks may have been allocated since. -/
def Left (used : Set ℕ) (level : ℕ → Set ℕ) (fresh : Set ℕ) (device : ℕ) (s s' : Fs) (P : Set ℕ → Prop) : Prop :=
  ∃ fresh', fresh ⊆ fresh' ∧ Reading used level fresh' s' device ∧ Grown device s s' ∧ P fresh'

theorem Reading.entry (h : Reading used level fresh s device) {times idx p b k : ℕ} {ind ind' : Mem} (ht : times ≤ 2)
    (hidx : idx / 256 ^ times < 256) (hp : Known level fresh (times + 1) p) (hind : Leads level fresh p ind)
    (he : indEntry s device ind idx times = .ok (b, k, ind', s')) :
    k = idx % 256 ^ times ∧ Left used level fresh device s s' fun fresh' =>
      Known level fresh' times b ∧ Leads level fresh' p ind' ∧
        (Added device s s' ∨ b ≠ 0 ∧ b = load32 ind (4 * (idx / 256 ^ times)) ∧ s' = s) := by
  rw [indEntry, ext2GetDiv_eq ht, ok_bind] at he
  dsimp only at he
  by_cases hz : load32 ind (4 * (idx / 256 ^ times)) = 0
  · rw [if_pos hz] at he
    obtain ⟨⟨n, s₁⟩, ha, hr⟩ := eq_ok_of_bind he
    cases hr
    obtain ⟨hn, hread, hgrown, hadded⟩ := h.alloc ha
    refine ⟨rfl, insert n fresh, Set.subset_insert _ _, hread, hgrown, .inr (Set.mem_insert _ _), ?_, .inl hadded⟩
    intro d hpd r hr
    by_cases hri : r = idx / 256 ^ times
    · rw [hri, load32_store32, u32_of_lt hn]
      exact .inr (.inr (Set.mem_insert _ _))
    · rw [load32_store32_of_disjoint _ _ (by omega)]
      exact hind.mono h.levels hread.apart hp (Set.subset_insert _ _) d hpd r hr
  · rw [if_neg hz] at he
    cases he
    exact ⟨rfl, fresh, Set.Subset.rfl, h, .refl, (hind times hp _ hidx).resolve_left hz, hind, .inr ⟨hz, rfl, rfl⟩⟩

/-- **`ext2_indblock`** sets a bit if a pointer on the way is missing. -/
theorem Reading.indblock {times idx p b : ℕ} {ind' : Mem} (h : Reading used level fresh s device) (ht : times ≤ 2)
    (hidx : idx < 256 ^ (times + 1)) (hp : Known level fresh (times + 1) p)
    (he : ext2Indblock device times (s.disk device p) idx s = .ok (b, ind', s')) :
    Left used level fresh device s s' fun fresh' => Leads level fresh' p ind' ∧
      (Added device s s' ∨ (p ≠ 0 → Mapped s device p (digits times idx))) := by
  have hdiv : idx / 256 ^ times < 256 := Nat.div_lt_of_lt_mul (by rw [← Nat.pow_succ]; exact hidx)
  induction times generalizing s s' fresh idx p b ind' with
  | zero =>
    rw [ext2Indblock] at he
    obtain ⟨⟨b₁, k, ind₁, s₁⟩, hentry, hr⟩ := eq_ok_of_bind he
    cases hr
    obtain ⟨-, fresh', hsub, hread, hgrown, -, hind, hcase⟩ := h.entry ht hdiv hp (h.leads p) hentry
    have hsame : ext2WriteBlock s₁ device b₁ (ext2ReadBlock s₁ device b₁) = s₁ := write_read s₁ device b₁
    rw [hsame]
    refine ⟨fresh', hsub, hread, hgrown, hind, hcase.imp_right ?_⟩
    rintro ⟨hne, hb, -⟩ hp₀
    rw [Nat.pow_zero, Nat.div_one] at hb
    exact ⟨hp₀, hb ▸ hne⟩
  | succ times ih =>
    rw [ext2Indblock] at he
    obtain ⟨⟨b₁, k, ind₁, s₁⟩, hentry, he⟩ := eq_ok_of_bind he
    obtain ⟨⟨b₂, ind₂, s₂⟩, hrec, hr⟩ := eq_ok_of_bind he
    cases hr
    obtain ⟨rfl, fresh₁, hsub₁, hread₁, hgrown₁, hb₁, hind₁, hcase₁⟩ := h.entry ht hdiv hp (h.leads p) hentry
    have hmod : idx % 256 ^ (times + 1) < 256 ^ (times + 1) := Nat.mod_lt _ (Nat.pow_pos (by decide))
    obtain ⟨fresh₂, hsub₂, hread₂, hgrown₂, hind₂, hcase₂⟩ := ih hread₁ (by omega) hmod hb₁ hrec
      (Nat.div_lt_of_lt_mul (by rw [← Nat.pow_succ]; exact hmod))
    obtain ⟨hread₃, hgrown₃⟩ := hread₂.write (hb₁.mono hsub₂) hind₂
    refine ⟨fresh₂, hsub₁.trans hsub₂, hread₃, (hgrown₁.trans hgrown₂).trans hgrown₃,
      hind₁.mono h.levels hread₂.apart (hp.mono hsub₁) hsub₂, ?_⟩
    rcases hcase₁ with hadd | ⟨hne, hb, rfl⟩
    · exact .inl (hadd.grown hgrown₁ (hgrown₂.trans hgrown₃))
    · refine hcase₂.imp (fun hadd => hadd.grown hgrown₂ hgrown₃) fun hmap hp₀ => ?_
      refine ⟨hp₀, ?_⟩
      rw [← hb]
      exact hmap hne

/-- The pointers of an inode lead to blocks of the file. -/
def Roots (level : ℕ → Set ℕ) (fresh : Set ℕ) (f : Inode) : Prop :=
  ∀ i < inodeBlocksCount, f.blocks i = 0 ∨ Known level fresh (i - 11) (f.blocks i)

theorem Roots.mono (h : Roots level fresh f) (hsub : fresh ⊆ fresh') : Roots level fresh' f :=
  fun i hi => (h i hi).imp_right fun hk => hk.mono hsub

theorem Reading.pointer (h : Reading used level fresh s f.device) (hr : Roots level fresh f) {i : ℕ}
    (hi : i < inodeBlocksCount) (he : fillPointer s f i = .ok (f', s')) :
    f'.device = f.device ∧ Left used level fresh f.device s s' fun fresh' =>
      Roots level fresh' f' ∧ Known level fresh' (i - 11) (f'.blocks i) ∧
        (Added f.device s s' ∨ f.blocks i ≠ 0 ∧ f' = f ∧ s' = s) := by
  rw [fillPointer] at he
  by_cases hz : f.blocks i = 0
  · rw [if_pos hz] at he
    obtain ⟨⟨n, s₁⟩, ha, he⟩ := eq_ok_of_bind he
    cases he
    obtain ⟨-, hread, hgrown, hadded⟩ := h.alloc ha
    have hnew : Known level (insert n fresh) (i - 11) (Function.update f.blocks i n i) := by
      rw [Function.update_self]
      exact .inr (Set.mem_insert _ _)
    refine ⟨rfl, insert n fresh, Set.subset_insert _ _, hread, hgrown, fun k hk => ?_, hnew, .inl hadded⟩
    by_cases hki : k = i
    · rw [hki]
      exact .inr hnew
    · dsimp only
      rw [Function.update_of_ne hki]
      exact (hr k hk).imp_right fun hk => hk.mono (Set.subset_insert _ _)
  · rw [if_neg hz] at he
    cases he
    exact ⟨rfl, fresh, Set.Subset.rfl, h, .refl, hr, (hr i hi).resolve_left hz, .inr ⟨hz, rfl, rfl⟩⟩

theorem Reading.iblock_indirect (h : Reading used level fresh s f.device) (hr : Roots level fresh f)
    {idx i times k b : ℕ}
    (hd : ¬ idx < directBlocks) (hind : indirect idx = .ok (i, times, k)) (ht : times ≤ 2) (hi : i = times + 12)
    (hk : k < 256 ^ (times + 1)) (he : ext2GetIblock s f idx = .ok (b, f', s')) :
    f'.device = f.device ∧ Left used level fresh f.device s s' fun fresh' => Roots level fresh' f' ∧
      (Added f.device s s' ∨ Mapped s f.device (f.blocks i) (digits times k)) := by
  rw [ext2GetIblock, if_neg hd, hind, ok_bind] at he
  obtain ⟨⟨f₁, s₁⟩, hfill, he⟩ := eq_ok_of_bind he
  obtain ⟨⟨b₁, buf, s₂⟩, hblock, he⟩ := eq_ok_of_bind he
  cases he
  obtain ⟨hdev, fresh₁, hsub₁, hread₁, hgrown₁, hroots₁, hknown, hcase₁⟩ :=
    h.pointer hr (by rw [hi]; unfold inodeBlocksCount; omega) hfill
  rw [show i - 11 = times + 1 by omega] at hknown
  rw [hdev] at hblock ⊢
  obtain ⟨fresh₂, hsub₂, hread₂, hgrown₂, hlead₂, hcase₂⟩ := hread₁.indblock ht hk hknown hblock
  obtain ⟨hread₃, hgrown₃⟩ := hread₂.write (hknown.mono hsub₂) hlead₂
  refine ⟨rfl, fresh₂, hsub₁.trans hsub₂, hread₃, (hgrown₁.trans hgrown₂).trans hgrown₃, hroots₁.mono hsub₂, ?_⟩
  rcases hcase₁ with hadd | ⟨hne, rfl, rfl⟩
  · exact .inl (hadd.grown hgrown₁ (hgrown₂.trans hgrown₃))
  · exact hcase₂.imp (fun hadd => hadd.grown hgrown₂ hgrown₃) fun hmap => hmap hne

/-- **`ext2_get_iblock`** sets a bit if a pointer on the way is missing. -/
theorem Reading.iblock (h : Reading used level fresh s f.device) (hr : Roots level fresh f) {idx b : ℕ}
    (hidx : idx < ind3Limit) (he : ext2GetIblock s f idx = .ok (b, f', s')) :
    f'.device = f.device ∧ Left used level fresh f.device s s' fun fresh' => Roots level fresh' f' ∧
      (Added f.device s s' ∨ FileMapped s f idx) := by
  unfold FileMapped treeRoot treeIdxs
  have e₁ : ind1Limit = 268 := by decide
  have e₂ : ind2Limit = 65804 := by decide
  have e₃ : ind3Limit = 16843020 := by decide
  have e₀ : directBlocks = 12 := rfl
  by_cases h₀ : idx < directBlocks
  · simp only [if_pos h₀]
    rw [ext2GetIblock, if_pos h₀] at he
    obtain ⟨⟨f₁, s₁⟩, hfill, he⟩ := eq_ok_of_bind he
    cases he
    obtain ⟨hdev, fresh₁, hsub, hread, hgrown, hroots, -, hcase⟩ :=
      h.pointer hr (by unfold inodeBlocksCount; omega) hfill
    exact ⟨hdev, fresh₁, hsub, hread, hgrown, hroots, hcase.imp_right And.left⟩
  simp only [if_neg h₀]
  by_cases h₁ : idx < ind1Limit
  · simp only [if_pos h₁]
    exact h.iblock_indirect hr h₀ (if_pos h₁) (by decide) rfl (by omega) he
  simp only [if_neg h₁]
  by_cases h₂ : idx < ind2Limit
  · simp only [if_pos h₂]
    exact h.iblock_indirect hr h₀ (by rw [indirect, if_neg h₁, if_pos h₂]) (by decide) rfl (by omega) he
  simp only [if_neg h₂]
  exact h.iblock_indirect hr h₀ (by rw [indirect, if_neg h₁, if_neg h₂, if_pos hidx]) (by decide) rfl (by omega) he

/-! ## Reading -/

variable {dst dst' : Mem} {size fuel i offset n : ℕ}

/-- **The loop of `ext2_read_content`** sets a bit if one of the blocks it comes to is not there. -/
theorem Reading.loop (h : Reading used level fresh s f.device) (hr : Roots level fresh f) (hi : i ≤ size)
    (hs : size < 2 ^ 32) (ho : offset < 2 ^ 32) (he : readLoop size fuel i offset dst f s = .ok (n, dst', f', s')) :
    Grown f.device s s' ∧
      (Added f.device s s' ∨ ∀ k < size - i, FileMapped s f (u32 (offset + k) / 1024)) := by
  induction fuel generalizing i offset dst f s fresh with
  | zero => cases he
  | succ fuel ih =>
    rw [readLoop] at he
    by_cases hlt : i < size
    · rw [if_pos hlt, h.blockSize] at he
      obtain ⟨⟨b, f₁, s₁⟩, hget, he⟩ := eq_ok_of_bind he
      dsimp only at he
      obtain ⟨hdev, fresh₁, hsub, hread₁, hgrown₁, hroots₁, hcase⟩ := h.iblock hr (block_lt le_rfl ho) hget
      have hmod := Nat.mod_lt offset (show 1024 > 0 by decide)
      have hlen : chunk (size - i) (offset % 1024) = min (size - i) (1024 - offset % 1024) := chunk_eq hmod
      rw [hread₁.blockSize, u32_of_lt (show i + chunk (size - i) (offset % 1024) < 2 ^ 32 by omega)] at he
      rw [← hdev] at hread₁
      obtain ⟨hgrown₂, hrest⟩ := ih hread₁ hroots₁ (by omega) (u32_lt _) he
      rw [hdev] at hgrown₂ hrest
      refine ⟨hgrown₁.trans hgrown₂, ?_⟩
      rcases hcase with hadd | hmap
      · exact .inl (hadd.grown hgrown₁ hgrown₂)
      -- the first block is there, so nothing has changed
      rw [ext2GetIblock_mapped (block_lt le_rfl ho) hmap] at hget
      cases hget
      refine hrest.imp id fun hrest k hk => ?_
      rcases Nat.lt_or_ge k (chunk (size - i) (offset % 1024)) with hin | hout
      · rw [u32_of_lt (show offset + k < 2 ^ 32 by omega), show (offset + k) / 1024 = offset / 1024 by omega]
        exact hmap
      · have := hrest (k - chunk (size - i) (offset % 1024)) (by omega)
        rwa [u32_add_left, Nat.add_assoc, Nat.add_sub_cancel' hout] at this
    · rw [if_neg hlt] at he
      cases he
      exact ⟨.refl, .inr fun k hk => absurd hk (by omega)⟩

theorem readLoop_frame (hi : i ≤ size) (hs : size < 2 ^ 32) (ho : offset < 2 ^ 32)
    (hmap : ∀ k < size - i, FileMapped s f (u32 (offset + k) / s.blockSize))
    (he : readLoop size fuel i offset dst f s = .ok (n, dst', f', s')) : f' = f ∧ s' = s := by
  induction fuel generalizing i offset dst with
  | zero => cases he
  | succ fuel ih =>
    rw [readLoop] at he
    by_cases hlt : i < size
    · have hfirst : FileMapped s f (offset / s.blockSize) := by
        have := hmap 0 (by omega)
        rwa [Nat.add_zero, u32_of_lt ho] at this
      have hbs : 1024 ≤ s.blockSize := by
        rw [Fs.blockSize, Nat.shiftLeft_eq]
        exact Nat.le_mul_of_pos_right _ (Nat.two_pow_pos _)
      rw [if_pos hlt, ext2GetIblock_mapped (block_lt hbs ho) hfirst, ok_bind] at he
      dsimp only at he
      have hle := chunk_le (size - i) (offset % s.blockSize)
      rw [u32_of_lt (show i + chunk (size - i) (offset % s.blockSize) < 2 ^ 32 by omega)] at he
      refine ih (by omega) (u32_lt _) (fun k hk => ?_) he
      have := hmap (chunk (size - i) (offset % s.blockSize) + k) (by omega)
      rwa [← Nat.add_assoc, ← u32_add_left] at this
    · rw [if_neg hlt] at he
      cases he
      exact ⟨rfl, rfl⟩

/-- The number of bytes that `ext2_read_content` sets out to read. -/
def readSize (f : Inode) (offset size : ℕ) : ℕ := if u32 (offset + size) > f.size then f.size - offset else size

/-- Every block of the file that is read is there, and so is every block on the way to it. -/
def AllMapped (s : Fs) (f : Inode) (offset size : ℕ) : Prop :=
  offset ≤ f.size → ∀ k < readSize f offset size, FileMapped s f (u32 (offset + k) / s.blockSize)

/-- Blocks of 1024 bytes; the bits of the blocks in use are set, among them the bitmaps and the blocks of the file,
which are no bitmaps. -/
structure Consistent (used : Set ℕ) (level : ℕ → Set ℕ) (s : Fs) (f : Inode) : Prop where
  disk : Reading used level ∅ s f.device
  file : Roots level ∅ f

theorem ext2ReadContent_inside (s : Fs) (dst : Mem) (h : offset ≤ f.size) : ext2ReadContent s f dst offset size =
    readLoop (readSize f offset size) (readSize f offset size + 1) 0 offset dst f s := if_neg (by omega)

theorem readSize_lt (offset : ℕ) (hf : f.size < 2 ^ 32) (hs : size < 2 ^ 32) : readSize f offset size < 2 ^ 32 := by
  unfold readSize
  split_ifs <;> omega

/-- **Reading.** A read that returns has changed nothing if every block it reads is there. In a consistent
filesystem a read returns and changes nothing exactly if this is so. -/
theorem read_frame_iff {s : Fs} {f : Inode} {offset size : ℕ} (hf : f.size < 2 ^ 32) (ho : offset < 2 ^ 32)
    (hs : size < 2 ^ 32) :
    (AllMapped s f offset size → ∀ dst n dst' f' s',
      ext2ReadContent s f dst offset size = .ok (n, dst', f', s') → f' = f ∧ s' = s) ∧
    ∀ used level, Consistent used level s f → ∀ dst,
      ((∃ n dst', ext2ReadContent s f dst offset size = .ok (n, dst', f, s)) ↔ AllMapped s f offset size) := by
  have hsize := readSize_lt offset hf hs
  refine ⟨fun hmap dst n dst' f' s' he => ?_, fun used level hc dst => ⟨?_, fun hmap => ?_⟩⟩
  · rcases Nat.lt_or_ge f.size offset with hlt | hge
    · rw [ext2ReadContent_behind s dst hlt] at he
      cases he
      exact ⟨rfl, rfl⟩
    · rw [ext2ReadContent_inside s dst hge] at he
      exact readLoop_frame (Nat.zero_le _) hsize ho (hmap hge) he
  · rintro ⟨n, dst', he⟩ hge
    rw [ext2ReadContent_inside s dst hge] at he
    rw [hc.disk.blockSize]
    exact (hc.disk.loop hc.file (Nat.zero_le _) hsize ho he).2.resolve_left not_added_self
  · rcases Nat.lt_or_ge f.size offset with hlt | hge
    · exact ⟨_, _, ext2ReadContent_behind s dst hlt⟩
    · have hmap' := hmap hge
      rw [hc.disk.blockSize] at hmap'
      rw [ext2ReadContent_inside s dst hge]
      obtain ⟨dst', hdst⟩ := readLoop_mapped dst hc.disk.blockSize (Nat.zero_le _) (Nat.lt_succ_self _) hsize ho hmap'
      exact ⟨_, dst', hdst⟩

theorem demo_consistent : Consistent {3, 20} (fun d => if d = 0 then {20} else ∅) demoFs demoFile := by
  have hstart : ∀ i, Start demoFs i → i = 0 := by
    rintro i (rfl | ⟨k, rfl⟩)
    · rfl
    · change u32 (u32 (k / 64 + 1) * 64) % 64 = 0
      unfold u32
      omega
  have hdata : ∀ d, (if d = 0 then ({20} : Set ℕ) else ∅) ⊆ {20} := by
    intro d
    split_ifs
    · exact Set.Subset.rfl
    · exact Set.empty_subset _
  refine ⟨⟨by decide, rfl, by decide, fun i _ => ⟨.inl rfl, fun d hd => ?_⟩, fun d b hb => .inr (hdata d hb), ?_,
    fun b hb => absurd hb (Set.notMem_empty b), ?_⟩, fun i hi => ?_⟩
  · have h3 : (3 : ℕ) = 20 := hdata d hd
    omega
  · intro i j hi _ hj hu
    obtain rfl := hstart i hi
    have hj₀ : j < 64 := hj
    rw [Nat.zero_add, u32_of_lt (by omega)] at hu
    rcases hu with rfl | hu
    · decide
    · have hj' : j = 20 := hu
      subst hj'
      decide
  · rintro p d (hp | hp)
    · dsimp only at hp
      rw [if_neg (Nat.succ_ne_zero d)] at hp
      exact absurd hp (Set.notMem_empty p)
    · exact absurd hp (Set.notMem_empty p)
  · by_cases hi₀ : i = 0
    · subst hi₀
      exact .inr (.inl rfl)
    · exact .inl (if_neg hi₀)

theorem read_frame_iff_demo : Consistent {3, 20} (fun d => if d = 0 then {20} else ∅) demoFs demoFile ∧
    ∃ n dst', ext2ReadContent demoFs demoFile (fun _ => 0) 0 500 = .ok (n, dst', demoFile, demoFs) := by
  refine ⟨demo_consistent, ((read_frame_iff (by decide) (by decide) (by decide)).2 _ _ demo_consistent _).mpr ?_⟩
  intro _ k hk
  have hk' : k < 500 := hk
  rw [Nat.zero_add, u32_of_lt (by omega), show k / demoFs.blockSize = 0
    from Nat.div_eq_of_lt (by change k < 1024; omega)]
  decide

/-- A read of the missing block takes block 8 from the bitmap. -/
theorem hole_is_filled : blockBit demoFs 0 8 = false ∧ demoFile.blocks 1 = 0 ∧
    (ext2ReadContent demoFs demoFile (fun _ => 0) 1500 100).map
      (fun r => (r.1, r.2.2.1.blocks 1, blockBit r.2.2.2 0 8)) = .ok (100, 8, true) ∧
    ¬ ∃ n dst', ext2ReadContent demoFs demoFile (fun _ => 0) 1500 100 = .ok (n, dst', demoFile, demoFs) := by
  have hres : (ext2ReadContent demoFs demoFile (fun _ => 0) 1500 100).map
      (fun r => (r.1, r.2.2.1.blocks 1, blockBit r.2.2.2 0 8)) = .ok (100, 8, true) := by decide +kernel
  refine ⟨by decide, rfl, hres, ?_⟩
  rintro ⟨n, dst', he⟩
  rw [he] at hres
  have hblock : demoFile.blocks 1 = 8 := congrArg (fun r => r.2.1) (Except.ok.inj hres)
  exact absurd hblock (by decide)

end BulbOS.Ext2
