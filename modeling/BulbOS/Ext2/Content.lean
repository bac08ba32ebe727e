import BulbOS.Ext2.Alloc
import Mathlib.Data.Finset.Card
import Mathlib.Data.Set.Basic

/-!
# The contents of a small file

A file whose first twelve blocks are direct. Blocks that the file does not own are *taken*: their
bits in the block bitmap are set, so `ext2_alloc` never returns one of them.

* `FileOk`: the bitmap and the pointers of the file;
* `ext2BlockAlloc_spec`: an allocation; `fillPointer_spec`: a pointer of the file is filled;
* `content`: the bytes of the file, zeros where it has no block;
* `writeLoop_spec`, `readLoop_spec`: the two copy loops; `DirectFile.write`, `DirectFile.read`: the two calls;
* **`small_file_agreement`**: what is read after a write.
-/

namespace BulbOS.Ext2

open KLib

/-- The clear bits of the block bitmap of group 0 that `ext2_alloc` may find. -/
def freeBits (s : Fs) (device : ℕ) : Finset ℕ :=
  (Finset.range (8 * 1024)).filter fun k =>
    k < s.sblock.blocksPg ∧ k < s.sblock.totalBlocks ∧ blockBit s device k = false

/-- The direct pointers that are missing. -/
def holes (f : Inode) : Finset ℕ := (Finset.range directBlocks).filter fun i => f.blocks i = 0

/-- The bitmap and the direct pointers of a file, with the blocks it does not own. -/
structure FileOk (s : Fs) (f : Inode) (taken : Set ℕ) : Prop where
  blockSize : s.sblock.logBlockSize = 0
  device : f.device < 4
  zero : 0 ∈ taken
  bitmap : (s.bgDescrs 0).blockBitmap ∈ taken
  takenSet : ∀ b ∈ taken, b < 8 * 1024 → blockBit s f.device b = true
  ownSet : ∀ i < directBlocks, f.blocks i ≠ 0 → f.blocks i < 8 * 1024 → blockBit s f.device (f.blocks i) = true
  own : ∀ i < directBlocks, f.blocks i ≠ 0 → f.blocks i ∉ taken
  distinct : ∀ i < directBlocks, ∀ j < directBlocks, f.blocks i ≠ 0 → f.blocks i = f.blocks j → i = j
  room : (holes f).card ≤ (freeBits s f.device).card

/-- Byte `k` of a file. -/
def content (s : Fs) (f : Inode) (k : ℕ) : UInt8 :=
  if f.blocks (k / 1024) = 0 then 0 else s.disk f.device (f.blocks (k / 1024)) (k % 1024)

theorem content_hole {s : Fs} {f : Inode} {k : ℕ} (h : f.blocks (k / 1024) = 0) : content s f k = 0 := if_pos h

theorem content_block {s : Fs} {f : Inode} {k : ℕ} (h : f.blocks (k / 1024) ≠ 0) :
    content s f k = s.disk f.device (f.blocks (k / 1024)) (k % 1024) := if_neg h

/-- Another state of the same file: only the bitmap and blocks that are not taken have changed. -/
structure Same (taken : Set ℕ) (s : Fs) (f : Inode) (s' : Fs) (f' : Inode) : Prop where
  sblock : s'.sblock = s.sblock
  bgDescrs : s'.bgDescrs = s.bgDescrs
  inode : f' = { f with blocks := f'.blocks }
  frame : ∀ b ∈ taken, b ≠ (s.bgDescrs 0).blockBitmap → s'.disk f.device b = s.disk f.device b
  others : ∀ d ≠ f.device, s'.disk d = s.disk d

variable {s s' s'' : Fs} {f f' f'' : Inode} {taken : Set ℕ} {b : ℕ}

theorem Same.refl : Same taken s f s f := ⟨rfl, rfl, rfl, fun _ _ _ => rfl, fun _ _ => rfl⟩

theorem Same.device (h : Same taken s f s' f') : f'.device = f.device := by rw [h.inode]

theorem Same.size (h : Same taken s f s' f') : f'.size = f.size := by rw [h.inode]

theorem Same.n (h : Same taken s f s' f') : f'.n = f.n := by rw [h.inode]

theorem Same.trans (h : Same taken s f s' f') (h' : Same taken s' f' s'' f'') : Same taken s f s'' f'' where
  sblock := h'.sblock.trans h.sblock
  bgDescrs := h'.bgDescrs.trans h.bgDescrs
  inode := by rw [h'.inode, h.inode]
  frame b hb hne := by
    rw [← h.frame b hb hne, ← h.device]
    exact h'.frame b hb (by rw [h.bgDescrs]; exact hne)
  others d hd := by rw [h'.others d (by rw [h.device]; exact hd), h.others d hd]

theorem FileOk.blockSize_eq (h : FileOk s f taken) : s.blockSize = 1024 := by
  rw [Fs.blockSize, h.blockSize]
  rfl

/-! ## Writing a block -/

theorem FileOk.write (h : FileOk s f taken) (hb : b ≠ (s.bgDescrs 0).blockBitmap) (buffer : Mem) :
    FileOk (ext2WriteBlock s f.device b buffer) f taken := by
  have hbit : ∀ k, blockBit (ext2WriteBlock s f.device b buffer) f.device k = blockBit s f.device k :=
    fun k => blockBit_write hb
  refine ⟨h.blockSize, h.device, h.zero, h.bitmap, fun c hc hlt => ?_, fun i hi h₀ hlt => ?_, h.own, h.distinct, ?_⟩
  · rw [hbit]
    exact h.takenSet c hc hlt
  · rw [hbit]
    exact h.ownSet i hi h₀ hlt
  · have : freeBits (ext2WriteBlock s f.device b buffer) f.device = freeBits s f.device := by
      unfold freeBits
      simp only [hbit]
      rfl
    rw [this]
    exact h.room

theorem same_write {b : ℕ} (hb : b ∉ taken) (buffer : Mem) :
    Same taken s f (ext2WriteBlock s f.device b buffer) f where
  sblock := rfl
  bgDescrs := rfl
  inode := rfl
  frame c hc _ := write_other (.inr fun e => hb (e ▸ hc))
  others d hd := by
    funext c
    exact write_other (.inl hd)

/-! ## Allocation -/

/-- **An allocation** finds a clear bit. -/
theorem ext2BlockAlloc_spec {device : ℕ} (hd : device < 4) (h : (freeBits s device).Nonempty) :
    ∃ b ∈ freeBits s device, ext2BlockAlloc s device = .ok (b, allocated s device b) := by
  obtain ⟨k, hk⟩ := h
  simp only [freeBits, Finset.mem_filter, Finset.mem_range] at hk
  obtain ⟨hlt, hpg, htot, hbit⟩ := hk
  obtain ⟨b, hbk, hclear, halloc⟩ := ext2BlockAlloc_clear hd hpg htot (by omega) hbit
  refine ⟨b, ?_, halloc⟩
  simp only [freeBits, Finset.mem_filter, Finset.mem_range]
  exact ⟨by omega, by omega, by omega, hclear⟩

theorem FileOk.free_not_taken (h : FileOk s f taken) {b : ℕ} (hb : b ∈ freeBits s f.device) :
    b ∉ taken ∧ ∀ i < directBlocks, f.blocks i ≠ 0 → f.blocks i ≠ b := by
  simp only [freeBits, Finset.mem_filter, Finset.mem_range] at hb
  obtain ⟨hlt, _, _, hclear⟩ := hb
  refine ⟨fun ht => ?_, fun i hi h₀ e => ?_⟩
  · rw [h.takenSet b ht hlt] at hclear
    cases hclear
  · have := h.ownSet i hi h₀ (by rw [e]; exact hlt)
    rw [e, hclear] at this
    cases this

theorem allocated_bit (h : FileOk s f taken) {b k : ℕ} (hb : b ∉ taken) (hk : k < 8 * 1024) :
    blockBit (allocated s f.device b) f.device k = (decide (b = k) || blockBit s f.device k) := by
  have hne : b ≠ (s.bgDescrs 0).blockBitmap := fun e => hb (e ▸ h.bitmap)
  exact blockBit_allocated hne (by rw [h.blockSize_eq]; exact hk)

theorem freeBits_allocated (h : FileOk s f taken) {b : ℕ} (hb : b ∉ taken) :
    freeBits (allocated s f.device b) f.device = (freeBits s f.device).erase b := by
  ext k
  simp only [freeBits, Finset.mem_erase, Finset.mem_filter, Finset.mem_range]
  have hsb : (allocated s f.device b).sblock = s.sblock := rfl
  rw [hsb]
  constructor
  · rintro ⟨hlt, hpg, htot, hbit⟩
    rw [allocated_bit h hb hlt, Bool.or_eq_false_iff, decide_eq_false_iff_not] at hbit
    exact ⟨fun e => hbit.1 e.symm, hlt, hpg, htot, hbit.2⟩
  · rintro ⟨hne, hlt, hpg, htot, hbit⟩
    refine ⟨hlt, hpg, htot, ?_⟩
    rw [allocated_bit h hb hlt, hbit, decide_eq_false (Ne.symm hne)]
    rfl

theorem holes_fill {i b : ℕ} (hb : b ≠ 0) :
    holes { f with blocks := Function.update f.blocks i b } = (holes f).erase i := by
  ext j
  simp only [holes, Finset.mem_erase, Finset.mem_filter, Finset.mem_range]
  by_cases hj : j = i
  · subst hj
    simp [hb]
  · rw [Function.update_of_ne hj]
    simp [hj]

theorem FileOk.alloc (h : FileOk s f taken) {i b : ℕ} (hi : i < directBlocks) (h₀ : f.blocks i = 0)
    (hb : b ∈ freeBits s f.device) :
    FileOk (allocated s f.device b) { f with blocks := Function.update f.blocks i b } taken := by
  obtain ⟨hnt, hown⟩ := h.free_not_taken hb
  have hb₀ : b ≠ 0 := fun e => hnt (e ▸ h.zero)
  have hmem : i ∈ holes f := by
    simp only [holes, Finset.mem_filter, Finset.mem_range]
    exact ⟨hi, h₀⟩
  have hupd : ∀ j < directBlocks, j ≠ i → Function.update f.blocks i b j = f.blocks j :=
    fun j _ hne => Function.update_of_ne hne _ _
  refine ⟨h.blockSize, h.device, h.zero, h.bitmap, fun c hc hlt => ?_, fun j hj hj₀ hlt => ?_,
    fun j hj hj₀ => ?_, fun j hj k hk hj₀ hjk => ?_, ?_⟩
  · change blockBit (allocated s f.device b) f.device c = true
    rw [allocated_bit h hnt hlt, h.takenSet c hc hlt, Bool.or_true]
  · change blockBit (allocated s f.device b) f.device (Function.update f.blocks i b j) = true
    dsimp only at hj₀ hlt
    rw [allocated_bit h hnt hlt]
    by_cases hji : j = i
    · subst hji
      rw [Function.update_self, decide_eq_true rfl, Bool.true_or]
    · rw [hupd j hj hji] at hj₀ hlt ⊢
      rw [h.ownSet j hj hj₀ hlt, Bool.or_true]
  · dsimp only at hj₀ ⊢
    by_cases hji : j = i
    · subst hji
      rw [Function.update_self]
      exact hnt
    · rw [hupd j hj hji] at hj₀ ⊢
      exact h.own j hj hj₀
  · dsimp only at hj₀ hjk
    by_cases hji : j = i
    · subst hji
      by_contra hne
      have hkj : k ≠ j := fun e => hne e.symm
      rw [Function.update_self, hupd k hk hkj] at hjk
      exact hown k hk (by rw [← hjk]; exact hb₀) hjk.symm
    · rw [hupd j hj hji] at hj₀ hjk
      by_cases hki : k = i
      · subst hki
        rw [Function.update_self] at hjk
        exact absurd hjk (hown j hj hj₀)
      · rw [hupd k hk hki] at hjk
        exact h.distinct j hj k hk hj₀ hjk
  · change (holes _).card ≤ (freeBits (allocated s f.device b) f.device).card
    rw [holes_fill hb₀, freeBits_allocated h hnt, Finset.card_erase_of_mem hmem, Finset.card_erase_of_mem hb]
    have := h.room
    omega

theorem same_alloc (hnt : b ∉ taken) (i : ℕ) :
    Same taken s f (allocated s f.device b) { f with blocks := Function.update f.blocks i b } where
  sblock := rfl
  bgDescrs := rfl
  inode := rfl
  frame c hc hne := allocated_other (.inr ⟨fun e => hnt (e ▸ hc), hne⟩)
  others d hd := by
    funext c
    exact allocated_other (.inl hd)

/-- The block of index `i` of the file is there afterwards, and no byte of the file changes. -/
structure Filled (taken : Set ℕ) (s : Fs) (f : Inode) (i : ℕ) (s' : Fs) (f' : Inode) : Prop where
  ok : FileOk s' f' taken
  same : Same taken s f s' f'
  there : f'.blocks i ≠ 0
  content : ∀ k < directBlocks * 1024, content s' f' k = content s f k

/-- **A pointer is filled.** -/
theorem fillPointer_spec (h : FileOk s f taken) {i : ℕ} (hi : i < directBlocks) :
    ∃ s' f', fillPointer s f i = .ok (f', s') ∧ Filled taken s f i s' f' := by
  by_cases h₀ : f.blocks i = 0
  · have hmem : i ∈ holes f := by
      simp only [holes, Finset.mem_filter, Finset.mem_range]
      exact ⟨hi, h₀⟩
    have hne : (freeBits s f.device).Nonempty := by
      rw [← Finset.card_pos]
      exact lt_of_lt_of_le (Finset.card_pos.mpr ⟨i, hmem⟩) h.room
    obtain ⟨b, hb, halloc⟩ := ext2BlockAlloc_spec h.device hne
    obtain ⟨hnt, hown⟩ := h.free_not_taken hb
    have hb₀ : b ≠ 0 := fun e => hnt (e ▸ h.zero)
    refine ⟨_, _, ?_, h.alloc hi h₀ hb, same_alloc hnt i, ?_, fun k hk => ?_⟩
    · rw [fillPointer, if_pos h₀, halloc]
      rfl
    · dsimp only
      rw [Function.update_self]
      exact hb₀
    · have hki : k / 1024 < directBlocks := by
        unfold directBlocks at hk ⊢
        omega
      by_cases e : k / 1024 = i
      · have hnew : Function.update f.blocks i b (k / 1024) = b := by
          rw [e, Function.update_self]
        rw [content_hole (f := f) (by rw [e]; exact h₀), content_block (by exact ne_of_eq_of_ne hnew hb₀)]
        dsimp only
        rw [hnew]
        exact allocated_self (by rw [h.blockSize_eq]; exact Nat.mod_lt _ (by decide))
      · have hold : Function.update f.blocks i b (k / 1024) = f.blocks (k / 1024) :=
          Function.update_of_ne e _ _
        by_cases hz : f.blocks (k / 1024) = 0
        · rw [content_hole hz, content_hole (hold.trans hz)]
        · rw [content_block hz, content_block (by exact ne_of_eq_of_ne hold hz)]
          dsimp only
          rw [hold, allocated_other]
          exact .inr ⟨hown _ hki hz, fun e => h.own _ hki hz (e ▸ h.bitmap)⟩
  · refine ⟨s, f, ?_, h, .refl, h₀, fun _ _ => rfl⟩
    rw [fillPointer, if_neg h₀]
    rfl

/-! ## The copy loops -/

theorem chunk_eq {rest bufOff : ℕ} (h : bufOff < 1024) : chunk rest bufOff = min rest (1024 - bufOff) := by
  rw [chunk, sub32_of_le (by omega) (by decide)]
  split_ifs <;> omega

theorem content_write (h : FileOk s f taken) {i off len a : ℕ} (hi : i < directBlocks) (h₀ : f.blocks i ≠ 0)
    (hlen : off + len ≤ 1024) (src : Mem) {k : ℕ} (hk : k < directBlocks * 1024) :
    content (ext2WriteBlock s f.device (f.blocks i)
        (copyBytes (ext2ReadBlock s f.device (f.blocks i)) off src a len)) f k =
      if 1024 * i + off ≤ k ∧ k < 1024 * i + off + len then src (a + (k - (1024 * i + off)))
      else content s f k := by
  by_cases e : k / 1024 = i
  · have hmod : k % 1024 = k - 1024 * i := by omega
    have hks : k % 1024 < s.blockSize := by
      rw [h.blockSize_eq]
      omega
    rw [content_block (by rw [e]; exact h₀), content_block (s := s) (by rw [e]; exact h₀), e, write_self hks,
      copyBytes]
    by_cases hin : 1024 * i + off ≤ k ∧ k < 1024 * i + off + len
    · have : k % 1024 - off = k - (1024 * i + off) := by omega
      rw [if_pos hin, if_pos (by omega), this]
    · rw [if_neg hin, if_neg (by omega)]
      rfl
  · have hki : k / 1024 < directBlocks := by
      unfold directBlocks at hk ⊢
      omega
    rw [if_neg (by omega)]
    by_cases hz : f.blocks (k / 1024) = 0
    · rw [content_hole hz, content_hole hz]
    · rw [content_block hz, content_block hz, write_other]
      exact .inr fun e' => e (h.distinct _ hki _ hi hz e')

theorem ext2GetIblock_spec (h : FileOk s f taken) {i : ℕ} (hi : i < directBlocks) :
    ∃ s' f', ext2GetIblock s f i = .ok (f'.blocks i, f', s') ∧ Filled taken s f i s' f' := by
  obtain ⟨s', f', he, hf⟩ := fillPointer_spec h hi
  refine ⟨s', f', ?_, hf⟩
  rw [ext2GetIblock, if_pos hi, he]
  rfl

/-- **The loop of `ext2_write_content`.** -/
theorem writeLoop_spec (src : Mem) {size fuel i offset : ℕ} (h : FileOk s f taken) (hi : i ≤ size)
    (hf : size - i < fuel) (hend : offset + (size - i) ≤ directBlocks * 1024) (hs : size < 2 ^ 32) :
    ∃ s' f', writeLoop src size fuel i offset f s = .ok (size, offset + (size - i), f', s') ∧
      FileOk s' f' taken ∧ Same taken s f s' f' ∧ ∀ k < directBlocks * 1024, content s' f' k =
        if offset ≤ k ∧ k < offset + (size - i) then src (i + (k - offset)) else content s f k := by
  induction fuel generalizing i offset s f with
  | zero => omega
  | succ fuel ih =>
    by_cases hlt : i < size
    · have hidx : offset / 1024 < directBlocks := by
        unfold directBlocks at hend ⊢
        omega
      obtain ⟨s₁, f₁, hget, hfill⟩ := ext2GetIblock_spec h hidx
      have hbs₁ := hfill.ok.blockSize_eq
      let len := min (size - i) (1024 - offset % 1024)
      have hlen : chunk (size - i) (offset % 1024) = len := chunk_eq (Nat.mod_lt _ (by decide))
      have hlen₁ : 0 < len ∧ offset % 1024 + len ≤ 1024 ∧ len ≤ size - i := by
        have := Nat.mod_lt offset (show 1024 > 0 by decide)
        omega
      let s₂ := ext2WriteBlock s₁ f₁.device (f₁.blocks (offset / 1024))
        (copyBytes (ext2ReadBlock s₁ f₁.device (f₁.blocks (offset / 1024))) (offset % 1024) src i len)
      have hnt : f₁.blocks (offset / 1024) ∉ taken := hfill.ok.own _ hidx hfill.there
      have hok₂ : FileOk s₂ f₁ taken :=
        hfill.ok.write (ne_of_mem_of_not_mem hfill.ok.bitmap hnt).symm _
      have hsame₂ : Same taken s f s₂ f₁ := hfill.same.trans (same_write hnt _)
      have hlow : offset + len < 2 ^ 32 := by
        unfold directBlocks at hend
        omega
      have hround : writeLoop src size (fuel + 1) i offset f s =
          writeLoop src size fuel (i + len) (offset + len) f₁ s₂ := by
        rw [writeLoop, if_pos hlt, h.blockSize_eq, hget]
        change writeLoop src size fuel (u32 (i + chunk (size - i) (offset % s₁.blockSize)))
          (u32 (offset + chunk (size - i) (offset % s₁.blockSize))) f₁ (ext2WriteBlock s₁ f₁.device _
            (copyBytes _ (offset % s₁.blockSize) src i (chunk (size - i) (offset % s₁.blockSize)))) = _
        rw [hbs₁, hlen, u32_of_lt hlow, u32_of_lt (by omega)]
      obtain ⟨s', f', hloop, hok', hsame', hcont'⟩ := ih hok₂ (show i + len ≤ size by omega) (by omega)
        (show offset + len + (size - (i + len)) ≤ directBlocks * 1024 by omega)
      have hpos : offset + len + (size - (i + len)) = offset + (size - i) := by omega
      refine ⟨s', f', ?_, hok', hsame₂.trans hsame', fun k hk => ?_⟩
      · rw [hround, hloop, hpos]
      · have hstart : 1024 * (offset / 1024) + offset % 1024 = offset := Nat.div_add_mod offset 1024
        rw [hcont' k hk, hpos, content_write hfill.ok hidx hfill.there hlen₁.2.1 src hk, hstart]
        by_cases h₁ : offset + len ≤ k ∧ k < offset + (size - i)
        · have hsrc : i + len + (k - (offset + len)) = i + (k - offset) := by omega
          rw [if_pos h₁, if_pos (by omega), hsrc]
        · rw [if_neg h₁]
          by_cases h₂ : offset ≤ k ∧ k < offset + len
          · rw [if_pos h₂, if_pos (by omega)]
          · rw [if_neg h₂, if_neg (by omega)]
            exact hfill.content k hk
    · have hsize : i = size := by omega
      subst hsize
      refine ⟨s, f, ?_, h, .refl, fun k _ => ?_⟩
      · rw [writeLoop, if_neg hlt, Nat.sub_self, Nat.add_zero]
      · rw [if_neg (by omega)]

/-- **The loop of `ext2_read_content`.** -/
theorem readLoop_spec {size fuel i offset : ℕ} (dst : Mem) (h : FileOk s f taken) (hi : i ≤ size)
    (hf : size - i < fuel) (hend : offset + (size - i) ≤ directBlocks * 1024) (hs : size < 2 ^ 32) :
    ∃ dst' s' f', readLoop size fuel i offset dst f s = .ok (size, dst', f', s') ∧
      FileOk s' f' taken ∧ Same taken s f s' f' ∧ (∀ k < directBlocks * 1024, content s' f' k = content s f k) ∧
      ∀ k, dst' k = if i ≤ k ∧ k < size then content s f (offset + (k - i)) else dst k := by
  induction fuel generalizing i offset dst s f with
  | zero => omega
  | succ fuel ih =>
    by_cases hlt : i < size
    · have hidx : offset / 1024 < directBlocks := by
        unfold directBlocks at hend ⊢
        omega
      obtain ⟨s₁, f₁, hget, hfill⟩ := ext2GetIblock_spec h hidx
      have hbs₁ := hfill.ok.blockSize_eq
      let len := min (size - i) (1024 - offset % 1024)
      have hlen : chunk (size - i) (offset % 1024) = len := chunk_eq (Nat.mod_lt _ (by decide))
      have hlen₁ : 0 < len ∧ offset % 1024 + len ≤ 1024 ∧ len ≤ size - i := by
        have := Nat.mod_lt offset (show 1024 > 0 by decide)
        omega
      let buf := ext2ReadBlock s₁ f₁.device (f₁.blocks (offset / 1024))
      let dst₁ := copyBytes dst i buf (offset % 1024) len
      have hlow : offset + len < 2 ^ 32 := by
        unfold directBlocks at hend
        omega
      have hround : readLoop size (fuel + 1) i offset dst f s =
          readLoop size fuel (i + len) (offset + len) dst₁ f₁ s₁ := by
        rw [readLoop, if_pos hlt, h.blockSize_eq, hget]
        change readLoop size fuel (u32 (i + chunk (size - i) (offset % s₁.blockSize)))
          (u32 (offset + chunk (size - i) (offset % s₁.blockSize)))
            (copyBytes dst i _ (offset % s₁.blockSize) (chunk (size - i) (offset % s₁.blockSize))) f₁ s₁ = _
        rw [hbs₁, hlen, u32_of_lt hlow, u32_of_lt (by omega)]
      obtain ⟨dst', s', f', hloop, hok', hsame', hcont', hdst'⟩ := ih dst₁ hfill.ok
        (show i + len ≤ size by omega) (by omega)
        (show offset + len + (size - (i + len)) ≤ directBlocks * 1024 by omega)
      refine ⟨dst', s', f', hround.trans hloop, hok', hfill.same.trans hsame',
        fun k hk => (hcont' k hk).trans (hfill.content k hk), fun k => ?_⟩
      rw [hdst' k]
      by_cases h₁ : i + len ≤ k ∧ k < size
      · have hoff : offset + len + (k - (i + len)) = offset + (k - i) := by omega
        rw [if_pos h₁, if_pos (by omega), hoff]
        exact hfill.content _ (by omega)
      · rw [if_neg h₁]
        change copyBytes dst i buf (offset % 1024) len k = _
        rw [copyBytes]
        by_cases h₂ : i ≤ k ∧ k < i + len
        · have hdiv : (offset + (k - i)) / 1024 = offset / 1024 := by omega
          have hmod : (offset + (k - i)) % 1024 = offset % 1024 + (k - i) := by omega
          rw [if_pos h₂, if_pos (by omega), ← hfill.content _ (by omega),
            content_block (by rw [hdiv]; exact hfill.there), hdiv, hmod]
          rfl
        · rw [if_neg h₂, if_neg (by omega)]
    · have hsize : i = size := by omega
      subst hsize
      refine ⟨dst, s, f, ?_, h, .refl, fun _ _ => rfl, fun k => ?_⟩
      · rw [readLoop, if_neg hlt]
      · rw [if_neg (by omega)]

/-! ## The calls -/

theorem ext2InodeIdx_congr (h : Same taken s f s' f') (n : ℕ) : ext2InodeIdx s' n = ext2InodeIdx s n := by
  unfold ext2InodeIdx Fs.inodesPerBlock Fs.blockSize
  rw [h.sblock, h.bgDescrs]

theorem FileOk.resize (h : FileOk s f taken) (size : ℕ) : FileOk s { f with size := size } taken :=
  ⟨h.blockSize, h.device, h.zero, h.bitmap, h.takenSet, h.ownSet, h.own, h.distinct, h.room⟩

theorem content_of_taken (h : FileOk s f taken) (hb : b ∈ taken) (buffer : Mem) {k : ℕ}
    (hk : k < directBlocks * 1024) : content (ext2WriteBlock s f.device b buffer) f k = content s f k := by
  have hki : k / 1024 < directBlocks := by
    unfold directBlocks at hk ⊢
    omega
  by_cases hz : f.blocks (k / 1024) = 0
  · rw [content_hole hz, content_hole hz]
  · rw [content_block hz, content_block hz, write_other]
    exact .inr fun e => h.own _ hki hz (e ▸ hb)

/-- A file and the block of its inode, which it does not own. -/
structure DirectFile (s : Fs) (f : Inode) (taken : Set ℕ) (table : ℕ) : Prop where
  ok : FileOk s f taken
  idx : ∃ idx, ext2InodeIdx s f.n = .ok (table, idx)
  mem : table ∈ taken
  ne : table ≠ (s.bgDescrs 0).blockBitmap

variable {table : ℕ}

/-- **`ext2_read_content`** inside the file. -/
theorem DirectFile.read (h : DirectFile s f taken table) (dst : Mem) {o len : ℕ} (hlen : o + len ≤ f.size)
    (hsmall : o + len ≤ directBlocks * 1024) : ∃ dst' f' s', ext2ReadContent s f dst o len = .ok (len, dst', f', s') ∧
      DirectFile s' f' taken table ∧ f'.size = f.size ∧
      (∀ k < directBlocks * 1024, content s' f' k = content s f k) ∧ ∀ k < len, dst' k = content s f (o + k) := by
  have hread : ext2ReadContent s f dst o len = readLoop len (len + 1) 0 o dst f s := by
    unfold directBlocks at hsmall
    rw [ext2ReadContent, if_neg (by omega), u32_of_lt (by omega), if_neg (by omega)]
  obtain ⟨idx, hidx⟩ := h.idx
  obtain ⟨dst', s', f', hloop, hok, hsame, hcont, hdst⟩ := readLoop_spec dst h.ok (Nat.zero_le len)
    (Nat.lt_succ_self len) (show o + (len - 0) ≤ directBlocks * 1024 from hsmall)
    (by unfold directBlocks at hsmall; omega)
  refine ⟨dst', f', s', hread.trans hloop, ⟨hok, ⟨idx, ?_⟩, h.mem, ?_⟩, hsame.size, hcont, fun k hk => ?_⟩
  · rw [ext2InodeIdx_congr hsame, hsame.n, hidx]
  · rw [hsame.bgDescrs]
    exact h.ne
  · rw [hdst k, if_pos ⟨Nat.zero_le k, hk⟩, Nat.sub_zero]

/-- **`ext2_write_content`** from inside the file on. -/
theorem DirectFile.write (h : DirectFile s f taken table) (src : Mem) {offset n : ℕ} (ho : offset ≤ f.size)
    (hn : offset + n ≤ directBlocks * 1024) : ∃ f' s', ext2WriteContent s f src offset n = .ok ((n : ℤ), f', s') ∧
      DirectFile s' f' taken table ∧ f'.size = max f.size (offset + n) ∧
      (∀ k < directBlocks * 1024, content s' f' k =
        if offset ≤ k ∧ k < offset + n then src (k - offset) else content s f k) ∧
      ∀ b ∈ taken, b ≠ (s.bgDescrs 0).blockBitmap → b ≠ table → s'.disk f.device b = s.disk f.device b := by
  obtain ⟨idx, hidx⟩ := h.idx
  have hsmall : offset + n ≤ 12 * 1024 := hn
  have hmax : ¬ u32 (offset + n) > maxFileSize := by
    rw [u32_of_lt (by omega)]
    have : maxFileSize = 67383296 := by decide
    omega
  obtain ⟨s₁, f₁, hloop, hok₁, hsame₁, hcont₁⟩ := writeLoop_spec src h.ok (Nat.zero_le n)
    (Nat.lt_succ_self n) (show offset + (n - 0) ≤ directBlocks * 1024 from hn) (by omega)
  rw [Nat.sub_zero] at hloop hcont₁
  let size := max f.size (offset + n)
  let f₂ : Inode := { f₁ with size := size }
  have hf₂ : (if offset + n > f₁.size then { f₁ with size := offset + n } else f₁) = f₂ := by
    have hsize := hsame₁.size
    split_ifs with hgt
    · have : size = offset + n := by omega
      rw [← this]
    · have : size = f₁.size := by omega
      change f₁ = { f₁ with size := size }
      rw [this]
  let s₂ := ext2WriteBlock s₁ f₁.device table (putInode (ext2ReadBlock s₁ f₁.device table) (sizeofInode * idx) f₂)
  have hidx₂ : ext2InodeIdx s₁ f₂.n = .ok (table, idx) := by
    rw [ext2InodeIdx_congr hsame₁, show f₂.n = f.n from hsame₁.n, hidx]
  have hwrite : ext2WriteContent s f src offset n = .ok ((n : ℤ), f₂, s₂) := by
    rw [ext2WriteContent, if_neg (by omega), if_neg hmax, hloop]
    change ((ext2InodeUpdate s₁ (if offset + n > f₁.size then _ else f₁)).bind _) = _
    rw [hf₂, ext2InodeUpdate, hidx₂]
    rfl
  have hne : table ≠ (s₁.bgDescrs 0).blockBitmap := by
    rw [hsame₁.bgDescrs]
    exact h.ne
  refine ⟨f₂, s₂, hwrite, ⟨(hok₁.write hne _).resize size, ⟨idx, hidx₂⟩, h.mem, hne⟩, rfl, fun k hk => ?_,
    fun b hb hb₁ hb₂ => ?_⟩
  · have hcont₂ : content s₂ f₂ k = content s₁ f₁ k := content_of_taken hok₁ h.mem _ hk
    rw [hcont₂, hcont₁ k hk, Nat.zero_add]
  · rw [← hsame₁.frame b hb hb₁]
    exact write_other (.inr hb₂)

/-! ## Writing, then reading -/

/-- A file and its filesystem: the bits of block 0, of the metadata and of the blocks of all files are
set, the direct pointers of the file are distinct and used by nothing else, and twelve bits are clear. -/
structure SmallFile (s : Fs) (f : Inode) (metadata others : Set ℕ) : Prop where
  blockSize : s.sblock.logBlockSize = 0
  device : f.device < 4
  bitmap : (s.bgDescrs 0).blockBitmap ∈ metadata
  table : ∃ b idx, ext2InodeIdx s f.n = .ok (b, idx) ∧ b ∈ metadata ∧ b ≠ (s.bgDescrs 0).blockBitmap
  apart : ∀ b ∈ others, b ∉ metadata
  zeroSet : blockBit s f.device 0 = true
  metadataSet : ∀ b ∈ metadata, b < 8 * 1024 → blockBit s f.device b = true
  othersSet : ∀ b ∈ others, b < 8 * 1024 → blockBit s f.device b = true
  ownSet : ∀ i < directBlocks, f.blocks i ≠ 0 → f.blocks i < 8 * 1024 → blockBit s f.device (f.blocks i) = true
  own : ∀ i < directBlocks, f.blocks i ≠ 0 → f.blocks i ∉ metadata ∧ f.blocks i ∉ others
  distinct : ∀ i < directBlocks, ∀ j < directBlocks, f.blocks i ≠ 0 → f.blocks i = f.blocks j → i = j
  room : 12 ≤ (freeBits s f.device).card

/-- The blocks that the file does not own. -/
def takenBlocks (metadata others : Set ℕ) : Set ℕ := {b | b = 0 ∨ b ∈ metadata ∨ b ∈ others}

variable {metadata others : Set ℕ}

theorem SmallFile.fileOk (h : SmallFile s f metadata others) : FileOk s f (takenBlocks metadata others) where
  blockSize := h.blockSize
  device := h.device
  zero := .inl rfl
  bitmap := .inr (.inl h.bitmap)
  takenSet := by
    rintro b (rfl | hb | hb) hlt
    exacts [h.zeroSet, h.metadataSet b hb hlt, h.othersSet b hb hlt]
  ownSet := h.ownSet
  own i hi h₀ := by
    rintro (hz | hb | hb)
    exacts [h₀ hz, (h.own i hi h₀).1 hb, (h.own i hi h₀).2 hb]
  distinct := h.distinct
  room := by
    refine le_trans ?_ h.room
    exact (Finset.card_filter_le _ _).trans (by rw [Finset.card_range]; decide)

/-- **A small file.** A write of `n` bytes at `offset` returns `n` and sets the size; a later read
gives the old contents, zeros where there was no block, overlaid with the bytes written; the blocks
of other files are unchanged. -/
theorem small_file_agreement (h : SmallFile s f metadata others) (src : Mem) {offset n : ℕ}
    (ho : offset ≤ f.size) (hn : offset + n ≤ 12 * 1024) :
    ∃ f' s', ext2WriteContent s f src offset n = .ok ((n : ℤ), f', s') ∧ f'.size = max f.size (offset + n) ∧
      (∀ dst o len, o + len ≤ f'.size → o + len ≤ 12 * 1024 →
        ∃ dst' f'' s'', ext2ReadContent s' f' dst o len = .ok (len, dst', f'', s'') ∧
          ∀ k < len, dst' k = if offset ≤ o + k ∧ o + k < offset + n then src (o + k - offset)
            else content s f (o + k)) ∧
      ∀ b ∈ others, s'.disk f.device b = s.disk f.device b := by
  obtain ⟨tb, idx, hidx, htb, hne⟩ := h.table
  have hfile : DirectFile s f (takenBlocks metadata others) tb := ⟨h.fileOk, ⟨idx, hidx⟩, .inr (.inl htb), hne⟩
  obtain ⟨f', s', hwrite, hfile', hsize, hcont, hframe⟩ := hfile.write src ho hn
  refine ⟨f', s', hwrite, hsize, fun dst o len hlen hsmall => ?_, fun b hb => ?_⟩
  · obtain ⟨dst', f'', s'', hread, -, -, -, hdst⟩ := hfile'.read dst hlen hsmall
    refine ⟨dst', f'', s'', hread, fun k hk => ?_⟩
    have hk₁ : o + k < directBlocks * 1024 := by
      unfold directBlocks
      omega
    rw [hdst k hk, hcont _ hk₁]
  · exact hframe b (.inr (.inr hb)) (fun e => h.apart b hb (e ▸ h.bitmap)) fun e => h.apart b hb (e ▸ htb)

/-- Blocks 0 to 7 are metadata, block 20 is the file's and block 30 another file's. -/
def demoFs : Fs where
  sblock := ⟨64, 0, 64, 8, 128⟩
  bgDescrs _ := ⟨3, 4, 5⟩
  disk _ b x := if b = 3 then if x = 0 then 0xFF else if x = 2 then 0x10 else if x = 3 then 0x40 else 0 else 7

/-- 2000 bytes, of which the second block is missing. -/
def demoFile : Inode := ⟨0, 2, 0x8000, 1, 2000, 0, 0, 0, 0, 0, fun i => if i = 0 then 20 else 0⟩

theorem small_file_agreement_demo : SmallFile demoFs demoFile {b | 1 ≤ b ∧ b < 8} {b | b = 30} ∧
    ∃ f' s', ext2WriteContent demoFs demoFile (fun _ => 9) 1500 600 = .ok ((600 : ℕ), f', s') ∧
      f'.size = 2100 := by
  have hfree : (Finset.range 52).filter (fun k => 40 ≤ k) ⊆ freeBits demoFs demoFile.device := by
    intro k hk
    rw [Finset.mem_filter, Finset.mem_range] at hk
    obtain ⟨h₂, h₁⟩ := hk
    simp only [freeBits, Finset.mem_filter, Finset.mem_range]
    interval_cases k <;> decide
  have h : SmallFile demoFs demoFile {b | 1 ≤ b ∧ b < 8} {b | b = 30} := by
    refine ⟨rfl, by decide, by decide, ⟨5, 2, by decide, by decide, by decide⟩, ?_, by decide, ?_, ?_, ?_, ?_, ?_,
      Finset.card_le_card hfree⟩
    · rintro b rfl
      decide
    · rintro b ⟨h₁, h₂⟩ _
      interval_cases b <;> decide
    · rintro b rfl _
      decide
    · intro i _ h₀ _
      obtain rfl : i = 0 := by
        by_contra hi
        exact h₀ (if_neg hi)
      decide
    · intro i _ h₀
      obtain rfl : i = 0 := by
        by_contra hi
        exact h₀ (if_neg hi)
      decide
    · intro i _ j _ h₀ e
      have hne : ∀ i, demoFile.blocks i ≠ 0 → i = 0 := fun i h₀ => by
        by_contra hi
        exact h₀ (if_neg hi)
      rw [hne i h₀, hne j (by rw [← e]; exact h₀)]
  refine ⟨h, ?_⟩
  obtain ⟨f', s', hw, hsize, _⟩ := small_file_agreement h (fun _ => 9) (show 1500 ≤ demoFile.size by decide)
    (show 1500 + 600 ≤ 12 * 1024 by decide)
  exact ⟨f', s', hw, hsize⟩

end BulbOS.Ext2
