import BulbOS.Ext2.Search
import BulbOS.Ext2.Content
import BulbOS.Ext2.Mapping

/-!
# The rounds of the copy loops

`ext2_read_content` and `ext2_write_content` copy in rounds of `len` bytes at `buf_off` of a block. The offset is
taken modulo `BLOCK_SIZE`, the length is cut at 1024.

* `rounds`: the pairs of `buf_off` and `len`, if the loop ends; `readRound`, `writeRound`: one round;
* `ext2GetIblock_sblock`: the block size stays;
* `readLoop_rounds`, `writeLoop_rounds`: the loops are their rounds, one after the other;
* **`copy_loops_iff`**: when every round moves on inside the block and all bytes are copied.
-/

namespace BulbOS.Ext2

open KLib

/-- The places and lengths of the copies, if the loop ends. -/
def rounds (blockSize size : ℕ) : ℕ → ℕ → ℕ → Option (List (ℕ × ℕ))
  | 0, _, _ => none
  | fuel + 1, i, offset =>
    if i < size then
      let bufOff := offset % blockSize
      let len := chunk (size - i) bufOff
      (rounds blockSize size fuel (u32 (i + len)) (u32 (offset + len))).map ((bufOff, len) :: ·)
    else some []

/-- The variables of a copy loop; `mem` is `dst` or `src`. -/
structure Copy where
  i : ℕ
  offset : ℕ
  mem : Mem
  inode : Inode
  fs : Fs

/-- A round of `ext2_read_content`. -/
def readRound (c : Copy) (r : ℕ × ℕ) : Except Stop Copy := do
  let (block, inode, s) ← ext2GetIblock c.fs c.inode (c.offset / c.fs.blockSize)
  let buf := ext2ReadBlock s inode.device block
  return ⟨c.i + r.2, c.offset + r.2, copyBytes c.mem c.i buf r.1 r.2, inode, s⟩

/-- A round of `ext2_write_content`. -/
def writeRound (c : Copy) (r : ℕ × ℕ) : Except Stop Copy := do
  let (block, inode, s) ← ext2GetIblock c.fs c.inode (c.offset / c.fs.blockSize)
  let buf := ext2ReadBlock s inode.device block
  return ⟨c.i + r.2, c.offset + r.2, c.mem, inode,
    ext2WriteBlock s inode.device block (copyBytes buf r.1 c.mem c.i r.2)⟩

/-! ## The block size stays -/

variable {s s' : Fs} {f f' : Inode} {device : ℕ}

theorem ext2BlockAlloc_sblock {n : ℕ} (h : ext2BlockAlloc s device = .ok (n, s')) : s'.sblock = s.sblock := by
  obtain ⟨i, j, -, -, rfl⟩ := ext2AllocLoop_search h
  rfl

theorem indEntry_sblock {ind ind' : Mem} {idx times b k : ℕ}
    (h : indEntry s device ind idx times = .ok (b, k, ind', s')) : s'.sblock = s.sblock := by
  obtain ⟨div, -, h⟩ := eq_ok_of_bind h
  dsimp only at h
  by_cases hz : load32 ind (4 * (idx / div)) = 0
  · rw [if_pos hz] at h
    obtain ⟨⟨n, s₁⟩, halloc, hr⟩ := eq_ok_of_bind h
    cases hr
    exact ext2BlockAlloc_sblock halloc
  · rw [if_neg hz] at h
    cases h
    rfl

theorem ext2Indblock_sblock {times idx b : ℕ} {ind ind' : Mem}
    (h : ext2Indblock device times ind idx s = .ok (b, ind', s')) : s'.sblock = s.sblock := by
  induction times generalizing idx b ind ind' s s' with
  | zero =>
    obtain ⟨⟨b₁, k, ind₁, s₁⟩, hentry, hr⟩ := eq_ok_of_bind h
    cases hr
    change s₁.sblock = s.sblock
    exact indEntry_sblock hentry
  | succ times ih =>
    obtain ⟨⟨b₁, k, ind₁, s₁⟩, hentry, h⟩ := eq_ok_of_bind h
    obtain ⟨⟨b₂, ind₂, s₂⟩, hrec, hr⟩ := eq_ok_of_bind h
    cases hr
    change s₂.sblock = s.sblock
    exact (ih hrec).trans (indEntry_sblock hentry)

theorem fillPointer_sblock {i : ℕ} (h : fillPointer s f i = .ok (f', s')) : s'.sblock = s.sblock := by
  rw [fillPointer] at h
  by_cases hz : f.blocks i = 0
  · rw [if_pos hz] at h
    obtain ⟨⟨n, s₁⟩, halloc, hr⟩ := eq_ok_of_bind h
    cases hr
    exact ext2BlockAlloc_sblock halloc
  · rw [if_neg hz] at h
    cases h
    rfl

theorem ext2GetIblock_sblock {idx b : ℕ} (h : ext2GetIblock s f idx = .ok (b, f', s')) : s'.sblock = s.sblock := by
  rw [ext2GetIblock] at h
  by_cases hd : idx < directBlocks
  · rw [if_pos hd] at h
    obtain ⟨⟨f₁, s₁⟩, hfill, hr⟩ := eq_ok_of_bind h
    cases hr
    exact fillPointer_sblock hfill
  · rw [if_neg hd] at h
    obtain ⟨⟨i, times, k⟩, -, h⟩ := eq_ok_of_bind h
    obtain ⟨⟨f₁, s₁⟩, hfill, h⟩ := eq_ok_of_bind h
    obtain ⟨⟨b₁, ind, s₂⟩, hind, hr⟩ := eq_ok_of_bind h
    cases hr
    change s₂.sblock = s.sblock
    exact (ext2Indblock_sblock hind).trans (fillPointer_sblock hfill)

theorem blockSize_congr (h : s'.sblock = s.sblock) : s'.blockSize = s.blockSize := by
  unfold Fs.blockSize
  rw [h]

/-! ## The loops are their rounds -/

variable {size fuel i offset : ℕ} {rs : List (ℕ × ℕ)}

theorem rounds_cons {blockSize : ℕ} (hi : i < size) (h : rounds blockSize size (fuel + 1) i offset = some rs) :
    ∃ rs', rs = (offset % blockSize, chunk (size - i) (offset % blockSize)) :: rs' ∧
      rounds blockSize size fuel (u32 (i + chunk (size - i) (offset % blockSize)))
        (u32 (offset + chunk (size - i) (offset % blockSize))) = some rs' := by
  rw [rounds, if_pos hi] at h
  obtain ⟨rs', hrs, rfl⟩ := Option.map_eq_some_iff.mp h
  exact ⟨rs', rfl, hrs⟩

theorem rounds_nil {blockSize : ℕ} (hi : ¬ i < size) (h : rounds blockSize size (fuel + 1) i offset = some rs) :
    rs = [] := by
  rw [rounds, if_neg hi] at h
  exact (Option.some.inj h).symm

/-- **The loop of `ext2_read_content`.** -/
theorem readLoop_rounds (dst : Mem) (f : Inode) (s : Fs) (h : rounds s.blockSize size fuel i offset = some rs)
    (hsum : i + (rs.map Prod.snd).sum = size) (hoff : offset + (rs.map Prod.snd).sum < 2 ^ 32) (hs : size < 2 ^ 32) :
    readLoop size fuel i offset dst f s = do
      let c ← rs.foldlM readRound ⟨i, offset, dst, f, s⟩
      return (size, c.mem, c.inode, c.fs) := by
  induction fuel generalizing i offset dst f s rs with
  | zero => cases h
  | succ fuel ih =>
    rw [readLoop]
    by_cases hi : i < size
    · obtain ⟨rs, rfl, hrs⟩ := rounds_cons hi h
      rw [List.map_cons, List.sum_cons] at hsum hoff
      dsimp only at hsum hoff
      rw [if_pos hi, List.foldlM_cons, readRound]
      dsimp only
      cases hget : ext2GetIblock s f (offset / s.blockSize) with
      | error e => rfl
      | ok r =>
        obtain ⟨b, f₁, s₁⟩ := r
        have hbs := blockSize_congr (ext2GetIblock_sblock hget)
        rw [u32_of_lt (by omega), u32_of_lt (by omega), ← hbs] at hrs
        rw [ok_bind, ok_bind]
        dsimp only
        rw [u32_of_lt (by rw [hbs]; omega), u32_of_lt (by rw [hbs]; omega),
          ih _ f₁ s₁ hrs (by rw [hbs]; omega) (by rw [hbs]; omega), hbs]
        rfl
    · rw [rounds_nil hi h, if_neg hi]
      rw [rounds_nil hi h, List.map_nil, List.sum_nil, Nat.add_zero] at hsum
      rw [hsum]
      rfl

/-- **The loop of `ext2_write_content`.** -/
theorem writeLoop_rounds (src : Mem) (f : Inode) (s : Fs) (h : rounds s.blockSize size fuel i offset = some rs)
    (hsum : i + (rs.map Prod.snd).sum = size) (hoff : offset + (rs.map Prod.snd).sum < 2 ^ 32) (hs : size < 2 ^ 32) :
    writeLoop src size fuel i offset f s = do
      let c ← rs.foldlM writeRound ⟨i, offset, src, f, s⟩
      return (size, offset + (rs.map Prod.snd).sum, c.inode, c.fs) := by
  induction fuel generalizing i offset f s rs with
  | zero => cases h
  | succ fuel ih =>
    rw [writeLoop]
    by_cases hi : i < size
    · obtain ⟨rs, rfl, hrs⟩ := rounds_cons hi h
      rw [List.map_cons, List.sum_cons] at hsum hoff ⊢
      dsimp only at hsum hoff
      rw [if_pos hi, List.foldlM_cons, writeRound]
      dsimp only
      cases hget : ext2GetIblock s f (offset / s.blockSize) with
      | error e => rfl
      | ok r =>
        obtain ⟨b, f₁, s₁⟩ := r
        have hbs := blockSize_congr (ext2GetIblock_sblock hget)
        rw [u32_of_lt (by omega), u32_of_lt (by omega), ← hbs] at hrs
        rw [ok_bind, ok_bind]
        dsimp only
        rw [u32_of_lt (by rw [hbs]; omega), u32_of_lt (by rw [hbs]; omega),
          ih f₁ (ext2WriteBlock s₁ f₁.device b _) hrs (by rw [hbs]; omega) (by rw [hbs]; omega), hbs, Nat.add_assoc]
        rfl
    · rw [rounds_nil hi h, if_neg hi]
      rw [rounds_nil hi h, List.map_nil, List.sum_nil, Nat.add_zero] at hsum
      rw [hsum]
      rfl

/-! ## When the copies are right -/

theorem chunk_le (rest bufOff : ℕ) : chunk rest bufOff ≤ rest := by
  unfold chunk
  split_ifs <;> omega

theorem chunk_end (rest : ℕ) : chunk rest 1024 = 0 := by
  rw [chunk, sub32_of_le le_rfl (by decide), Nat.sub_self, if_neg (Nat.not_lt_zero _)]

theorem chunk_behind {rest bufOff : ℕ} (hb : 1024 < bufOff) (h : bufOff + rest < 2 ^ 32) :
    chunk rest bufOff = rest := by
  have hsub : sub32 1024 bufOff = 1024 + (2 ^ 32 - bufOff) := Nat.mod_eq_of_lt (by omega)
  rw [chunk, hsub, if_pos (by omega)]

/-- Every round moves on and stays inside a block. -/
def Within (blockSize : ℕ) (rs : List (ℕ × ℕ)) : Prop := ∀ r ∈ rs, 0 < r.2 ∧ r.1 + r.2 ≤ blockSize

theorem rounds_small (hi : i ≤ size) (hf : size - i < fuel) (hoff : offset + (size - i) < 2 ^ 32)
    (hs : size < 2 ^ 32) : ∃ rs, rounds 1024 size fuel i offset = some rs ∧ Within 1024 rs ∧
      i + (rs.map Prod.snd).sum = size := by
  induction fuel generalizing i offset with
  | zero => omega
  | succ fuel ih =>
    rw [rounds]
    by_cases hlt : i < size
    · have hmod := Nat.mod_lt offset (show 1024 > 0 by decide)
      have hlen : chunk (size - i) (offset % 1024) = min (size - i) (1024 - offset % 1024) := chunk_eq hmod
      have hpos : 0 < chunk (size - i) (offset % 1024) ∧
          offset % 1024 + chunk (size - i) (offset % 1024) ≤ 1024 := by omega
      obtain ⟨rs, hrs, hin, hsum⟩ := @ih (i + chunk (size - i) (offset % 1024))
        (offset + chunk (size - i) (offset % 1024)) (by omega) (by omega) (by omega)
      refine ⟨(offset % 1024, chunk (size - i) (offset % 1024)) :: rs, ?_, ?_, ?_⟩
      · rw [if_pos hlt]
        dsimp only
        rw [u32_of_lt (by omega), u32_of_lt (by omega), hrs]
        rfl
      · intro r hr
        rcases List.mem_cons.mp hr with rfl | hr
        · exact hpos
        · exact hin r hr
      · rw [List.map_cons, List.sum_cons, ← Nat.add_assoc]
        exact hsum
    · refine ⟨[], if_neg hlt, fun r hr => absurd hr (List.not_mem_nil), ?_⟩
      rw [List.map_nil, List.sum_nil]
      omega

theorem rounds_one {blockSize : ℕ} (h₀ : 0 < size) (hf : 1 < fuel) (hoff : offset + size < 2 ^ 32)
    (h : chunk size (offset % blockSize) = size) :
    rounds blockSize size fuel 0 offset = some [(offset % blockSize, size)] := by
  obtain ⟨fuel, rfl⟩ : ∃ k, fuel = k + 2 := ⟨fuel - 2, by omega⟩
  rw [rounds, if_pos h₀, Nat.sub_zero]
  dsimp only
  rw [h, Nat.zero_add, u32_of_lt (by omega), rounds, if_neg (Nat.lt_irrefl _)]
  rfl

theorem not_within_end {blockSize : ℕ} (hi : i < size) (hend : offset % blockSize = 1024)
    (h : rounds blockSize size fuel i offset = some rs) : ¬ Within blockSize rs := by
  intro hin
  cases fuel with
  | zero => cases h
  | succ fuel =>
    obtain ⟨rs', rfl, -⟩ := rounds_cons hi h
    have := (hin _ List.mem_cons_self).1
    rw [hend, chunk_end] at this
    exact Nat.lt_irrefl 0 this

/-- The loops of `ext2_read_content` and `ext2_write_content`, for `size` bytes from `offset` on, consist of the
rounds `rs`; each moves on inside its block, and together they copy `size` bytes. -/
structure Transfers (s : Fs) (offset size : ℕ) (rs : List (ℕ × ℕ)) : Prop where
  ends : rounds s.blockSize size (size + 1) 0 offset = some rs
  within : ∀ r ∈ rs, 0 < r.2 ∧ r.1 + r.2 ≤ s.blockSize
  total : (rs.map Prod.snd).sum = size
  read : ∀ f dst, offset + size ≤ f.size → ext2ReadContent s f dst offset size = do
    let c ← rs.foldlM readRound ⟨0, offset, dst, f, s⟩
    return (size, c.mem, c.inode, c.fs)
  write : ∀ f src, offset ≤ f.size → offset + size ≤ maxFileSize → ext2WriteContent s f src offset size = do
    let c ← rs.foldlM writeRound ⟨0, offset, src, f, s⟩
    let inode := if offset + size > c.inode.size then { c.inode with size := offset + size } else c.inode
    let s ← ext2InodeUpdate c.fs inode
    return ((size : ℤ), inode, s)

theorem Transfers.of_rounds (hoff : offset + size < 2 ^ 32)
    (h : rounds s.blockSize size (size + 1) 0 offset = some rs) (hin : Within s.blockSize rs)
    (hsum : (rs.map Prod.snd).sum = size) : Transfers s offset size rs := by
  refine ⟨h, hin, hsum, fun f dst hf => ?_, fun f src ho hmax => ?_⟩
  · rw [ext2ReadContent, if_neg (by omega), u32_of_lt hoff, if_neg (by omega)]
    exact readLoop_rounds dst f s h (by omega) (by omega) (by omega)
  · rw [ext2WriteContent, if_neg (by omega), u32_of_lt hoff, if_neg (by omega),
      writeLoop_rounds src f s h (by omega) (by omega) (by omega), hsum]
    cases rs.foldlM writeRound ⟨0, offset, src, f, s⟩ with
    | error e => rfl
    | ok c => rfl

/-- The copy ends before 1024 or lies behind it, in one block. -/
def OneRound (blockSize offset size : ℕ) : Prop :=
  offset % blockSize + size ≤ 1024 ∧ offset % blockSize < 1024 ∨
    1024 < offset % blockSize ∧ offset % blockSize + size ≤ blockSize

instance (blockSize offset size : ℕ) : Decidable (OneRound blockSize offset size) :=
  inferInstanceAs (Decidable (_ ∨ _))

theorem within_oneRound {blockSize : ℕ} (hbs : 1024 < blockSize) (h₀ : 0 < size) (hoff : offset + size < 2 ^ 32)
    (h : rounds blockSize size (size + 1) 0 offset = some rs) (hin : Within blockSize rs) :
    OneRound blockSize offset size := by
  have hle : offset % blockSize ≤ offset := Nat.mod_le _ _
  obtain ⟨rs', rfl, hrs⟩ := rounds_cons h₀ h
  have hfirst := hin _ List.mem_cons_self
  rw [Nat.sub_zero] at hfirst hrs
  dsimp only at hfirst
  rcases Nat.lt_trichotomy (offset % blockSize) 1024 with hlt | heq | hgt
  · refine .inl ⟨?_, hlt⟩
    by_contra hlong
    have hlen : chunk size (offset % blockSize) = 1024 - offset % blockSize := by
      rw [chunk_eq hlt]
      omega
    have hnext : (offset + (1024 - offset % blockSize)) % blockSize = 1024 := by
      have hdiv := Nat.div_add_mod offset blockSize
      rw [show offset + (1024 - offset % blockSize) = 1024 + blockSize * (offset / blockSize) by omega,
        Nat.add_mul_mod_self_left, Nat.mod_eq_of_lt hbs]
    rw [hlen, Nat.zero_add, u32_of_lt (by omega), u32_of_lt (by omega)] at hrs
    exact not_within_end (by omega) hnext hrs fun r hr => hin r (List.mem_cons_of_mem _ hr)
  · rw [heq, chunk_end] at hfirst
    omega
  · rw [chunk_behind hgt (by omega)] at hfirst
    exact .inr ⟨hgt, hfirst.2⟩

/-- **The copy loops** move on in every round, stay inside their blocks and copy all bytes exactly if blocks have
1024 bytes, or nothing is to be copied, or one round does it. -/
theorem copy_loops_iff (s : Fs) {offset size : ℕ} (hoff : offset + size < 2 ^ 32) :
    (∃ rs, Transfers s offset size rs) ↔
      s.sblock.logBlockSize = 0 ∨ size = 0 ∨ OneRound s.blockSize offset size := by
  have hlog : s.sblock.logBlockSize = 0 ∨ 1024 < s.blockSize := by
    rcases Nat.eq_zero_or_pos s.sblock.logBlockSize with h | h
    · exact .inl h
    · right
      rw [Fs.blockSize, Nat.shiftLeft_eq]
      have : 2 ^ 1 ≤ 2 ^ s.sblock.logBlockSize := Nat.pow_le_pow_right (by decide) h
      omega
  constructor
  · rintro ⟨rs, h⟩
    rcases hlog with hlog | hbs
    · exact .inl hlog
    · rcases Nat.eq_zero_or_pos size with h₀ | h₀
      · exact .inr (.inl h₀)
      · exact .inr (.inr (within_oneRound hbs h₀ hoff h.ends h.within))
  · rintro (hlog | rfl | hone)
    · have hbs : s.blockSize = 1024 := by
        rw [Fs.blockSize, hlog]
        rfl
      obtain ⟨rs, hrs, hin, hsum⟩ := rounds_small (Nat.zero_le size) (Nat.lt_succ_self size)
        (show offset + (size - 0) < 2 ^ 32 by omega) (by omega)
      rw [← hbs] at hrs hin
      exact ⟨rs, .of_rounds hoff hrs hin (by omega)⟩
    · exact ⟨[], .of_rounds hoff rfl (fun r hr => absurd hr List.not_mem_nil) rfl⟩
    · rcases Nat.eq_zero_or_pos size with rfl | h₀
      · exact ⟨[], .of_rounds hoff rfl (fun r hr => absurd hr List.not_mem_nil) rfl⟩
      have hle : offset % s.blockSize ≤ offset := Nat.mod_le _ _
      have hpos : 1024 ≤ s.blockSize := by
        rw [Fs.blockSize, Nat.shiftLeft_eq]
        exact Nat.le_mul_of_pos_right _ (Nat.two_pow_pos _)
      have hlen : chunk size (offset % s.blockSize) = size := by
        rcases hone with ⟨hsize, hlt⟩ | ⟨hgt, -⟩
        · rw [chunk_eq hlt]
          omega
        · exact chunk_behind hgt (by omega)
      refine ⟨_, .of_rounds hoff (rounds_one h₀ (by omega) hoff hlen) (fun r hr => ?_) (Nat.add_zero size)⟩
      rw [List.mem_singleton] at hr
      subst hr
      rcases hone with ⟨hsize, -⟩ | ⟨-, hsize⟩ <;> exact ⟨h₀, by omega⟩

/-- Blocks of 2048 bytes, and a file with one of them. -/
def wideFs : Fs := { treeFs with sblock := { treeFs.sblock with logBlockSize := 1 } }

theorem copy_loops_iff_wide : 1500 + 500 < 2 ^ 32 ∧ OneRound wideFs.blockSize 1500 500 ∧
    ∃ rs, Transfers wideFs 1500 500 rs :=
  ⟨by decide, by decide, (copy_loops_iff wideFs (by decide)).mpr (.inr (.inr (by decide)))⟩

/-- A read of one byte at 1024 of a block of 2048 bytes does not end. -/
theorem round_without_progress :
    (ext2ReadContent wideFs treeFile (fun _ => 0) 1024 1).map Prod.fst = .error .diverges ∧
      ¬ ∃ rs, Transfers wideFs 1024 1 rs := by
  refine ⟨by decide +kernel, ?_⟩
  rintro ⟨rs, h⟩
  have hends := h.ends
  rw [show rounds wideFs.blockSize 1 (1 + 1) 0 1024 = none by decide +kernel] at hends
  cases hends

end BulbOS.Ext2
