import BulbOS.Ext2.Rounds

/-!
# The bounds of a file

`ext2_read_content` cuts a request at the end of the file, `ext2_write_content` refuses one that starts behind
the end or goes beyond `MAX_FILE_SIZE`. Both add offset and size in 32 bits, and so is `MAX_FILE_SIZE` computed.

* `FileMapped`: a file block that is there;
* `readLoop_count`: what the loop returns, if it returns; `readLoop_mapped`: a file without holes;
* **`file_bounds_iff`**: when requests are cut and refused as they should be.
-/

namespace BulbOS.Ext2

open KLib

variable {s s' : Fs} {f f' : Inode} {dst dst' : Mem} {size fuel i offset n : ℕ}

/-- File block `idx` and all blocks on the way to it are there. -/
def FileMapped (s : Fs) (f : Inode) (idx : ℕ) : Prop :=
  Mapped s f.device (f.blocks (treeRoot idx)) (treeIdxs idx)

instance (s : Fs) (f : Inode) (idx : ℕ) : Decidable (FileMapped s f idx) :=
  inferInstanceAs (Decidable (Mapped _ _ _ _))

theorem maxFileSize_eq : maxFileSize = 67383296 := by decide

/-- A 32-bit offset does not lie behind the last block of the tree. -/
theorem block_lt {blockSize : ℕ} (hbs : 1024 ≤ blockSize) (h : offset < 2 ^ 32) : offset / blockSize < ind3Limit := by
  have hdiv : offset / blockSize ≤ offset / 1024 := Nat.div_le_div_left hbs (by decide)
  have hlimit : ind3Limit = 16843020 := by decide
  omega

theorem readLoop_count (hi : i ≤ size) (hs : size < 2 ^ 32)
    (h : readLoop size fuel i offset dst f s = .ok (n, dst', f', s')) : n = size ∧ ∀ k, size ≤ k → dst' k = dst k := by
  induction fuel generalizing i offset dst f s with
  | zero => cases h
  | succ fuel ih =>
    rw [readLoop] at h
    by_cases hlt : i < size
    · rw [if_pos hlt] at h
      obtain ⟨⟨b, f₁, s₁⟩, -, h⟩ := eq_ok_of_bind h
      dsimp only at h
      have hle := chunk_le (size - i) (offset % s₁.blockSize)
      rw [u32_of_lt (show i + chunk (size - i) (offset % s₁.blockSize) < 2 ^ 32 by omega)] at h
      obtain ⟨hn, hdst⟩ := ih (by omega) h
      refine ⟨hn, fun k hk => ?_⟩
      rw [hdst k hk, copyBytes, if_neg (by omega)]
    · rw [if_neg hlt] at h
      cases h
      exact ⟨by omega, fun k _ => rfl⟩

theorem readLoop_mapped (dst : Mem) (hbs : s.blockSize = 1024) (hi : i ≤ size) (hf : size - i < fuel)
    (hs : size < 2 ^ 32) (ho : offset < 2 ^ 32)
    (hmap : ∀ k < size - i, FileMapped s f (u32 (offset + k) / 1024)) :
    ∃ dst', readLoop size fuel i offset dst f s = .ok (size, dst', f, s) := by
  induction fuel generalizing i offset dst with
  | zero => omega
  | succ fuel ih =>
    rw [readLoop]
    by_cases hlt : i < size
    · have hmod := Nat.mod_lt offset (show 1024 > 0 by decide)
      have hlen : chunk (size - i) (offset % 1024) = min (size - i) (1024 - offset % 1024) := chunk_eq hmod
      have hfirst : FileMapped s f (offset / 1024) := by
        have := hmap 0 (by omega)
        rwa [Nat.add_zero, u32_of_lt ho] at this
      rw [if_pos hlt, hbs, ext2GetIblock_mapped (block_lt le_rfl ho) hfirst, ok_bind]
      dsimp only
      rw [hbs, u32_of_lt (show i + chunk (size - i) (offset % 1024) < 2 ^ 32 by omega)]
      refine ih _ (by omega) (by omega) (u32_lt _) fun k hk => ?_
      have := hmap (chunk (size - i) (offset % 1024) + k) (by omega)
      rwa [← Nat.add_assoc, ← u32_add_left] at this
    · have hsize : i = size := by omega
      exact ⟨dst, by rw [if_neg hlt, hsize]⟩

/-! ## Requests -/

/-- The largest file that the tree and a 32-bit size allow. -/
def fileLimit : ℕ := min (ind3Limit * 1024) (2 ^ 32 - 1)

/-- The requests for `size` bytes from `offset` on of a file of `isize` bytes are cut at the end of the file and
refused as they should be, whatever its blocks. -/
structure Bounded (isize offset size : ℕ) : Prop where
  read : ∀ s f dst n dst' f' s', f.size = isize → ext2ReadContent s f dst offset size = .ok (n, dst', f', s') →
    n = (if offset ≤ isize then min size (isize - offset) else 0) ∧ ∀ k, n ≤ k → dst' k = dst k
  returns : ∀ s f dst, f.size = isize → s.sblock.logBlockSize = 0 → (∀ idx < ind3Limit, FileMapped s f idx) →
    ∃ r, ext2ReadContent s f dst offset size = .ok r
  write : ∀ s f src, f.size = isize →
    (ext2WriteContent s f src offset size = .ok (-1, f, s) ↔ isize < offset ∨ fileLimit < offset + size)

theorem ext2WriteContent_refused (s : Fs) (f : Inode) (src : Mem) (offset size : ℕ) :
    ext2WriteContent s f src offset size = .ok (-1, f, s) ↔ f.size < offset ∨ maxFileSize < u32 (offset + size) := by
  rw [ext2WriteContent]
  by_cases h₁ : offset > f.size
  · rw [if_pos h₁]
    exact iff_of_true rfl (.inl h₁)
  by_cases h₂ : u32 (offset + size) > maxFileSize
  · rw [if_neg h₁, if_pos h₂]
    exact iff_of_true rfl (.inr h₂)
  · rw [if_neg h₁, if_neg h₂]
    refine iff_of_false (fun h => ?_) (not_or.mpr ⟨h₁, h₂⟩)
    obtain ⟨⟨i, o, f₁, s₁⟩, -, h⟩ := eq_ok_of_bind h
    obtain ⟨s₂, -, h⟩ := eq_ok_of_bind h
    have hi : (i : ℤ) = -1 := congrArg Prod.fst (Except.ok.inj h)
    omega

theorem ext2ReadContent_behind (s : Fs) {f : Inode} (dst : Mem) (h : f.size < offset) :
    ext2ReadContent s f dst offset size = .ok (0, dst, f, s) := if_pos h

/-- A request that does not wrap around is cut at the end of the file. -/
theorem ext2ReadContent_cut (s : Fs) {f : Inode} (dst : Mem) (h : offset ≤ f.size) (hlt : offset + size < 2 ^ 32) :
    ext2ReadContent s f dst offset size =
      readLoop (min size (f.size - offset)) (min size (f.size - offset) + 1) 0 offset dst f s := by
  have hcut : (if u32 (offset + size) > f.size then f.size - offset else size) = min size (f.size - offset) := by
    rw [u32_of_lt hlt]
    split_ifs <;> omega
  rw [ext2ReadContent, if_neg (by omega), hcut]

theorem bounded_behind {isize : ℕ} (h : isize < offset) : Bounded isize offset size where
  read s f dst n dst' f' s' hf hr := by
    rw [ext2ReadContent_behind s dst (by omega)] at hr
    cases hr
    exact ⟨(if_neg (by omega)).symm, fun _ _ => rfl⟩
  returns s f dst hf _ _ := ⟨_, ext2ReadContent_behind s dst (by omega)⟩
  write s f src hf := by
    rw [ext2WriteContent_refused, hf]
    exact iff_of_true (.inl h) (.inl h)

theorem blockSize_of_log (h : s.sblock.logBlockSize = 0) : s.blockSize = 1024 := by
  rw [Fs.blockSize, h]
  rfl

theorem bounded_small {isize : ℕ} (ho : offset ≤ isize) (h : offset + size ≤ maxFileSize) :
    Bounded isize offset size := by
  have hmax := maxFileSize_eq
  have hlimit : fileLimit = 2 ^ 32 - 1 := by decide
  refine ⟨fun s f dst n dst' f' s' hf hr => ?_, fun s f dst hf hlog hmap => ?_, fun s f src hf => ?_⟩
  · rw [ext2ReadContent_cut s dst (by omega) (by omega)] at hr
    obtain ⟨rfl, hdst⟩ := readLoop_count (Nat.zero_le _) (by omega) hr
    rw [if_pos ho, ← hf]
    exact ⟨rfl, hdst⟩
  · rw [ext2ReadContent_cut s dst (by omega) (by omega)]
    have hmin : min size (f.size - offset) < 2 ^ 32 := by omega
    obtain ⟨dst', hdst⟩ := readLoop_mapped dst (blockSize_of_log hlog) (Nat.zero_le _) (Nat.lt_succ_self _) hmin
      (show offset < 2 ^ 32 by omega) fun k _ => hmap _ (block_lt le_rfl (u32_lt _))
    exact ⟨_, hdst⟩
  · rw [ext2WriteContent_refused, hf, u32_of_lt (by omega)]
    omega

/-- A disk on which every word is a pointer. -/
def onesFs : Fs where
  sblock := ⟨64, 0, 64, 16, 128⟩
  bgDescrs _ := ⟨3, 4, 5⟩
  disk _ _ _ := 1

def onesFile (size : ℕ) : Inode := ⟨0, 2, 0x8000, 1, size, 0, 0, 0, 0, 0, fun _ => 1⟩

theorem onesFs_mapped (device b : ℕ) (hb : b ≠ 0) (is : List ℕ) : Mapped onesFs device b is := by
  induction is generalizing b with
  | nil => exact hb
  | cons i is ih =>
    have hbyte : (onesFs.disk device b (4 * i)).toNat = 1 := rfl
    refine ⟨hb, ih _ ?_⟩
    unfold load32
    omega

theorem Bounded.small {isize : ℕ} (ho : offset < 2 ^ 32) (hs : size < 2 ^ 32) (hi : isize < 2 ^ 32)
    (h : Bounded isize offset size) (hle : offset ≤ isize) : offset + size ≤ maxFileSize := by
  have hmax := maxFileSize_eq
  have hlimit : fileLimit = 2 ^ 32 - 1 := by decide
  have hwrite := (ext2WriteContent_refused onesFs (onesFile isize) (fun _ => 0) offset size).symm.trans
    (h.write onesFs (onesFile isize) (fun _ => 0) rfl)
  rw [show (onesFile isize).size = isize from rfl, hlimit] at hwrite
  rcases Nat.lt_or_ge (offset + size) (2 ^ 32) with hlt | hge
  · rw [u32_of_lt hlt] at hwrite
    omega
  · exfalso
    -- the sum has wrapped around, so the request is not cut
    have hsum : u32 (offset + size) = offset + size - 2 ^ 32 := by
      rw [u32, Nat.mod_eq_sub_mod hge, Nat.mod_eq_of_lt (by omega)]
    obtain ⟨dst', hread⟩ := readLoop_mapped (fun _ => 0) (show onesFs.blockSize = 1024 from rfl) (Nat.zero_le size)
      (Nat.lt_succ_self _) hs ho fun k _ => onesFs_mapped (onesFile isize).device _ (by decide : 1 ≠ 0) _
    have hcut : ext2ReadContent onesFs (onesFile isize) (fun _ => 0) offset size =
        .ok (size, dst', onesFile isize, onesFs) := by
      rw [ext2ReadContent, show (onesFile isize).size = isize from rfl, if_neg (by omega), hsum, if_neg (by omega)]
      exact hread
    have hcount := (h.read _ _ _ _ _ _ _ rfl hcut).1
    rw [if_pos hle] at hcount
    omega

/-- **The bounds of a file.** Requests are cut and refused as they should be exactly if they start behind the end
of the file, or end within `MAX_FILE_SIZE`, which is 67383296. -/
theorem file_bounds_iff {isize offset size : ℕ} (hi : isize < 2 ^ 32) (ho : offset < 2 ^ 32) (hs : size < 2 ^ 32) :
    Bounded isize offset size ↔ isize < offset ∨ offset + size ≤ 67383296 := by
  rw [← maxFileSize_eq]
  constructor
  · intro h
    by_contra hne
    exact hne (.inr (h.small ho hs hi (by omega)))
  · rintro (h | h)
    · exact bounded_behind h
    · rcases Nat.lt_or_ge isize offset with hlt | hge
      · exact bounded_behind hlt
      · exact bounded_small hge h

theorem file_bounds_iff_demo : 3000 < 2 ^ 32 ∧ 1000 < 2 ^ 32 ∧ 5000 < 2 ^ 32 ∧ Bounded 3000 1000 5000 :=
  ⟨by decide, by decide, by decide, (file_bounds_iff (by decide) (by decide) (by decide)).mpr (.inr (by decide))⟩

/-- A write that ends at 67383297 is refused, and one of `2 ^ 32 - 1` bytes at 1 is not. -/
theorem limit_wraps : ¬ Bounded 8192 0 67383297 ∧ ¬ Bounded 8192 1 (2 ^ 32 - 1) ∧
    (ext2WriteContent treeFs { treeFile with size := 8192 } (fun _ => 0) 0 67383297).map Prod.fst = .ok (-1) := by
  have hmax := maxFileSize_eq
  refine ⟨fun h => ?_, fun h => ?_, by decide +kernel⟩
  · have := h.small (by decide) (by decide) (by decide) (by decide)
    omega
  · have := h.small (by decide) (by decide) (by decide) (by decide)
    omega

end BulbOS.Ext2
