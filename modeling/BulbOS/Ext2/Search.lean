import BulbOS.Ext2.Numbering

/-!
# The search for a clear bit

`ext2_alloc` goes from one index to the next in steps of `blocks_pg`, modulo `total_blocks`, and stops when it
comes to 0. The index is a block number, and it is used as the number of a descriptor and as the first bit too.

* `allocSearch`, `allocVisits`: where the search ends, and the descriptors it reads;
* **`search_iff`**: when the search ends, reads only descriptors of groups, and looks at all bits before giving up;
* **`inode_alloc_frame`**: when the allocation of an inode changes only a bitmap.
-/

namespace BulbOS.Ext2

open KLib

variable {s s' : Fs} {device : ℕ} {isInode : Bool}

/-- The next index. -/
def nextIndex (s : Fs) (i : ℕ) : ℕ :=
  u32 (u32 (i / s.sblock.blocksPg + 1) * s.sblock.blocksPg) % s.sblock.totalBlocks

/-- The bits of descriptor `i` are looked at from bit `i` on. -/
def scanAt (s : Fs) (device : ℕ) (isInode : Bool) (i : ℕ) : Option ℕ :=
  ext2AllocScan s (s.disk device ((s.bgDescrs i).bitmap isInode)) i s.sblock.blocksPg i

/-- The index and the bit that the loop of `ext2_alloc` finds. -/
def searchFrom (s : Fs) (device : ℕ) (isInode : Bool) : ℕ → ℕ → Option (ℕ × ℕ)
  | 0, _ => none
  | fuel + 1, i =>
    match scanAt s device isInode i with
    | some j => some (i, j)
    | none => if nextIndex s i = lastAllocs device then none else searchFrom s device isInode fuel (nextIndex s i)

/-- The descriptors that the loop reads. -/
def visitsFrom (s : Fs) (device : ℕ) (isInode : Bool) : ℕ → ℕ → List ℕ
  | 0, _ => []
  | fuel + 1, i => i :: match scanAt s device isInode i with
    | some _ => []
    | none => if nextIndex s i = lastAllocs device then [] else visitsFrom s device isInode fuel (nextIndex s i)

def allocSearch (s : Fs) (device : ℕ) (isInode : Bool) : Option (ℕ × ℕ) :=
  searchFrom s device isInode (2 ^ 32) (lastAllocs (device + if isInode then 4 else 0))

def allocVisits (s : Fs) (device : ℕ) (isInode : Bool) : List ℕ :=
  visitsFrom s device isInode (2 ^ 32) (lastAllocs (device + if isInode then 4 else 0))

/-! ## The loop -/

theorem ext2AllocLoop_succ (hpg : s.sblock.blocksPg ≠ 0) (htot : s.sblock.totalBlocks ≠ 0) (fuel i : ℕ) :
    ext2AllocLoop s device isInode (fuel + 1) i = match scanAt s device isInode i with
      | some j => .ok (u32 (i + j), marked s device isInode i j)
      | none => if nextIndex s i = lastAllocs device then .error .cantAlloc
        else ext2AllocLoop s device isInode fuel (nextIndex s i) := by
  rw [ext2AllocLoop]
  change (match scanAt s device isInode i with
    | some j => Except.ok (u32 (i + j), marked s device isInode i j)
    | none => _) = _
  cases scanAt s device isInode i with
  | some j => rfl
  | none =>
    dsimp only
    rw [if_neg (by omega)]
    rfl

theorem ext2AllocLoop_search {fuel i n : ℕ} (h : ext2AllocLoop s device isInode fuel i = .ok (n, s')) :
    ∃ i' j, searchFrom s device isInode fuel i = some (i', j) ∧ n = u32 (i' + j) ∧
      s' = marked s device isInode i' j := by
  induction fuel generalizing i with
  | zero => cases h
  | succ fuel ih =>
    rw [ext2AllocLoop] at h
    change (match scanAt s device isInode i with
      | some j => Except.ok (u32 (i + j), marked s device isInode i j)
      | none => _) = _ at h
    rw [searchFrom]
    cases hscan : scanAt s device isInode i with
    | some j =>
      rw [hscan] at h
      cases h
      exact ⟨i, j, rfl, rfl, rfl⟩
    | none =>
      rw [hscan] at h
      dsimp only at h ⊢
      split_ifs at h with hzero hback
      rw [if_neg (by exact hback)]
      exact ih h

theorem searchFrom_scan {fuel i i' j : ℕ} (h : searchFrom s device isInode fuel i = some (i', j)) :
    scanAt s device isInode i' = some j := by
  induction fuel generalizing i with
  | zero => cases h
  | succ fuel ih =>
    rw [searchFrom] at h
    cases hscan : scanAt s device isInode i with
    | some j =>
      rw [hscan] at h
      cases h
      exact hscan
    | none =>
      rw [hscan] at h
      dsimp only at h
      split_ifs at h
      exact ih h

theorem searchFrom_ok {fuel i i' j : ℕ} (h : searchFrom s device isInode fuel i = some (i', j)) :
    ext2AllocLoop s device isInode fuel i = .ok (u32 (i' + j), marked s device isInode i' j) := by
  obtain ⟨-, hpg, htot, -⟩ := ext2AllocScan_some (searchFrom_scan h)
  induction fuel generalizing i with
  | zero => cases h
  | succ fuel ih =>
    rw [ext2AllocLoop_succ (by omega) (by omega)]
    rw [searchFrom] at h
    cases hscan : scanAt s device isInode i with
    | some j =>
      rw [hscan] at h
      cases h
      rfl
    | none =>
      rw [hscan] at h
      dsimp only at h ⊢
      split_ifs at h with hback
      rw [if_neg hback]
      exact ih h

/-! ## What an allocation changes -/

theorem write_behind {block d b x : ℕ} {buffer : Mem} (hx : ¬ x < s.blockSize) :
    (ext2WriteBlock s device block buffer).disk d b x = s.disk d b x := by
  by_cases h : d = device ∧ b = block
  · obtain ⟨rfl, rfl⟩ := h
    rw [ext2WriteBlock]
    dsimp only
    rw [Function.update_self, Function.update_self, if_neg hx]
  · rw [write_other]
    by_cases hd : d = device
    · exact .inr fun hb => h ⟨hd, hb⟩
    · exact .inl hd

theorem marked_other {i j d c : ℕ} (h : d ≠ device ∨ c ≠ (s.bgDescrs i).bitmap isInode ∧ c ≠ u32 (i + j)) :
    (marked s device isInode i j).disk d c = s.disk d c := by
  rw [marked, ext2ZeroBlock, write_other (h.imp_right And.right), write_other (h.imp_right And.left)]

/-- The block that is cleared. A bit that lies behind the block of the bitmap is not stored. -/
theorem marked_zero {i j : ℕ} :
    (marked s device isInode i j).disk device (u32 (i + j)) = s.disk device (u32 (i + j)) ↔
      ∀ x < s.blockSize, s.disk device (u32 (i + j)) x = 0 := by
  have hself : ∀ x < s.blockSize, (marked s device isInode i j).disk device (u32 (i + j)) x = 0 :=
    fun x hx => write_self hx
  refine ⟨fun heq x hx => by rw [← heq]; exact hself x hx, fun hzero => funext fun x => ?_⟩
  by_cases hx : x < s.blockSize
  · rw [hself x hx, hzero x hx]
  · rw [marked, ext2ZeroBlock, write_behind (by exact hx), write_behind hx]

theorem marked_bitmap {i j : ℕ} (h : u32 (i + j) ≠ (s.bgDescrs i).bitmap isInode)
    (hclear : bit s device isInode i j = false) :
    (marked s device isInode i j).disk device ((s.bgDescrs i).bitmap isInode) =
      s.disk device ((s.bgDescrs i).bitmap isInode) ↔ 8 * s.blockSize ≤ j := by
  rw [marked, ext2ZeroBlock, write_other (.inr h.symm)]
  constructor
  · intro heq
    by_contra hj
    have hset : getBit ((ext2WriteBlock s device ((s.bgDescrs i).bitmap isInode)
        (setBit (s.disk device ((s.bgDescrs i).bitmap isInode)) j)).disk device ((s.bgDescrs i).bitmap isInode)) j =
          getBit (setBit (s.disk device ((s.bgDescrs i).bitmap isInode)) j) j :=
      getBit_write_self (Nat.lt_of_not_le hj)
    rw [heq, getBit_setBit, decide_eq_true rfl, Bool.true_or] at hset
    unfold bit at hclear
    rw [hclear] at hset
    cases hset
  · intro hj
    funext x
    rw [ext2WriteBlock]
    dsimp only
    rw [Function.update_self, Function.update_self]
    by_cases hx : x < s.blockSize
    · rw [if_pos hx, setBit, Function.update_of_ne (by omega)]
    · rw [if_neg hx]

/-- Which blocks are changed when bit `j` of descriptor `i` was found. -/
theorem marked_changes {i j c : ℕ} (hclear : bit s device isInode i j = false) :
    (marked s device isInode i j).disk device c ≠ s.disk device c ↔
      c = u32 (i + j) ∧ (∃ x < s.blockSize, s.disk device c x ≠ 0) ∨
        c = (s.bgDescrs i).bitmap isInode ∧ c ≠ u32 (i + j) ∧ j < 8 * s.blockSize := by
  by_cases hn : c = u32 (i + j)
  · subst hn
    rw [ne_eq, marked_zero]
    simp
  by_cases hb : c = (s.bgDescrs i).bitmap isInode
  · subst hb
    rw [ne_eq, marked_bitmap (Ne.symm hn) hclear]
    simp [hn]
  · simp [marked_other (.inr ⟨hb, hn⟩), hn, hb]

/-- The number of groups. -/
def Fs.groups (s : Fs) : ℕ := (s.sblock.totalBlocks + (s.sblock.blocksPg - 1)) / s.sblock.blocksPg

/-- Whatever `ext2_inode_alloc` returns, it has changed at most the block of the inode bitmap of one group. -/
def OnlyBitmap (s : Fs) (device : ℕ) : Prop :=
  ∀ n s', ext2InodeAlloc s device = .ok (n, s') →
    ∃ g < s.groups, ∀ d c, d ≠ device ∨ c ≠ (s.bgDescrs g).inodeBitmap → s'.disk d c = s.disk d c

/-- The bitmap in which bit `j` was found is that of a group, if the bit lies in its block; and so is the block
that has the number of the inode, if it does not hold zeros only. -/
def Confined (s : Fs) (device i j : ℕ) : Prop :=
  ∃ g < s.groups,
    ((∃ x < s.blockSize, s.disk device (u32 (i + j)) x ≠ 0) → u32 (i + j) = (s.bgDescrs g).inodeBitmap) ∧
    ((s.bgDescrs i).inodeBitmap ≠ u32 (i + j) → j < 8 * s.blockSize →
      (s.bgDescrs i).inodeBitmap = (s.bgDescrs g).inodeBitmap)

/-- **Allocating an inode** changes only a bitmap exactly if this is so for the first clear bit that the search
comes to. -/
theorem inode_alloc_frame (s : Fs) (device : ℕ) :
    OnlyBitmap s device ↔ ∀ i j, allocSearch s device true = some (i, j) → Confined s device i j := by
  constructor
  · intro h i j hsearch
    obtain ⟨-, -, -, hclear⟩ := ext2AllocScan_some (searchFrom_scan hsearch)
    obtain ⟨g, hg, hsame⟩ := h _ _ (searchFrom_ok hsearch)
    refine ⟨g, hg, fun hx => ?_, fun hne hj => ?_⟩
    · by_contra hc
      exact (marked_changes hclear).mpr (.inl ⟨rfl, hx⟩) (hsame _ _ (.inr hc))
    · by_contra hc
      exact (marked_changes hclear).mpr (.inr ⟨rfl, hne, hj⟩) (hsame _ _ (.inr hc))
  · intro h n s' hok
    obtain ⟨i, j, hsearch, rfl, rfl⟩ := ext2AllocLoop_search hok
    obtain ⟨-, -, -, hclear⟩ := ext2AllocScan_some (searchFrom_scan hsearch)
    obtain ⟨g, hg, hblock, hbitmap⟩ := h i j hsearch
    refine ⟨g, hg, fun d c hdc => ?_⟩
    by_cases hd : d = device
    · subst hd
      by_contra hne
      have hc := hdc.resolve_left (not_not.mpr rfl)
      rcases (marked_changes hclear).mp hne with ⟨rfl, hx⟩ | ⟨rfl, hne', hj⟩
      · exact hc (hblock hx)
      · exact hc (hbitmap hne' hj)
    · exact marked_other (.inl hd)

/-- The bitmap of the first ten inodes, which the search never looks at, and data in block 22. -/
def dataFs : Fs := ext2WriteBlock oneGroup 0 22 fun _ => 7

/-- The first inode is 22, and block 22 is cleared. -/
theorem data_block_cleared : ¬ OnlyBitmap dataFs 0 ∧ dataFs.disk 0 22 0 = 7 ∧
    (ext2InodeAlloc dataFs 0).map (fun r => (r.1, r.2.disk 0 22 0)) = .ok (22, 0) := by
  have hres : (ext2InodeAlloc dataFs 0).map (fun r => (r.1, r.2.disk 0 22 0)) = .ok (22, 0) := by decide +kernel
  have hdata : dataFs.disk 0 22 0 = 7 := by decide +kernel
  refine ⟨fun h => ?_, hdata, hres⟩
  cases hok : ext2InodeAlloc dataFs 0 with
  | error e =>
    rw [hok] at hres
    cases hres
  | ok r =>
    rw [hok] at hres
    have hcleared : r.2.disk 0 22 0 = 0 := congrArg Prod.snd (Except.ok.inj hres)
    obtain ⟨g, -, hg⟩ := h r.1 r.2 hok
    have hne : 22 ≠ (dataFs.bgDescrs g).inodeBitmap := by
      by_cases h₀ : g = 0 <;> simp [dataFs, ext2WriteBlock, oneGroup, h₀]
    rw [hg 0 22 (.inr hne), hdata] at hcleared
    cases hcleared

/-! ## The end of the search -/

/-- The search ends, reads only descriptors of groups, and if it gives up, then it has looked at every bit `k` of
every group `g` that stands for a block of the disk. -/
structure Searches (s : Fs) (device : ℕ) (isInode : Bool) : Prop where
  ends : ext2Alloc s device isInode ≠ .error .diverges
  inside : ∀ i ∈ allocVisits s device isInode, i < s.groups
  all : ext2Alloc s device isInode = .error .cantAlloc → ∀ g < s.groups, ∀ k < s.sblock.blocksPg,
    g * s.sblock.blocksPg + k < s.sblock.totalBlocks →
      g ∈ allocVisits s device isInode ∧ g ≤ k ∧ u32 (g + k) < s.sblock.totalBlocks

variable {i fuel : ℕ}

theorem scanAt_none (h : s.sblock.blocksPg ≤ i) : scanAt s device isInode i = none := by
  cases hscan : scanAt s device isInode i with
  | none => rfl
  | some j =>
    obtain ⟨hij, hj, -⟩ := ext2AllocScan_some hscan
    omega

theorem scanAt_some {k : ℕ} (hik : i ≤ k) (hpg : k < s.sblock.blocksPg) (htot : i + k < s.sblock.totalBlocks)
    (hword : i + k < 2 ^ 32) (hclear : bit s device isInode i k = false) :
    ∃ j, scanAt s device isInode i = some j := by
  obtain ⟨j, -, hscan, -⟩ := ext2AllocScan_spec hpg htot hword hclear hik (show k - i < s.sblock.blocksPg by omega)
  exact ⟨j, hscan⟩

theorem nextIndex_mul (htot : s.sblock.totalBlocks < 2 ^ 32) (hpg : 0 < s.sblock.blocksPg) {m : ℕ}
    (hm : i / s.sblock.blocksPg = m) (h : (m + 1) * s.sblock.blocksPg < s.sblock.totalBlocks) :
    nextIndex s i = (m + 1) * s.sblock.blocksPg := by
  have hle : m + 1 ≤ (m + 1) * s.sblock.blocksPg := Nat.le_mul_of_pos_right _ hpg
  rw [nextIndex, hm, u32_of_lt (show m + 1 < 2 ^ 32 by omega), u32_of_lt (by omega), Nat.mod_eq_of_lt h]

/-- The search goes through all multiples of `blocks_pg` without looking at a bit. -/
theorem mem_visitsFrom (hd : lastAllocs device = 0) (htot : s.sblock.totalBlocks < 2 ^ 32) (hpg : 0 < s.sblock.blocksPg)
    {m k : ℕ} (h₀ : 0 < m) (h : (m + k) * s.sblock.blocksPg < s.sblock.totalBlocks) (hfuel : k < fuel) :
    (m + k) * s.sblock.blocksPg ∈ visitsFrom s device isInode fuel (m * s.sblock.blocksPg) := by
  induction k generalizing m fuel with
  | zero =>
    obtain ⟨fuel, rfl⟩ : ∃ f, fuel = f + 1 := ⟨fuel - 1, by omega⟩
    rw [visitsFrom]
    exact List.mem_cons_self
  | succ k ih =>
    obtain ⟨fuel, rfl⟩ : ∃ f, fuel = f + 1 := ⟨fuel - 1, by omega⟩
    have hle : s.sblock.blocksPg ≤ m * s.sblock.blocksPg := Nat.le_mul_of_pos_left _ h₀
    have hm : (m + 1) * s.sblock.blocksPg < s.sblock.totalBlocks :=
      lt_of_le_of_lt (Nat.mul_le_mul_right _ (by omega)) h
    have hne : (m + 1) * s.sblock.blocksPg ≠ 0 := by
      rw [Nat.succ_mul]
      omega
    rw [visitsFrom, scanAt_none hle, nextIndex_mul htot hpg (Nat.mul_div_cancel m hpg) hm, hd]
    dsimp only
    rw [if_neg hne, show m + (k + 1) = (m + 1) + k by omega]
    exact List.mem_cons_of_mem _ (ih (by omega) (by rw [show m + 1 + k = m + (k + 1) by omega]; exact h) (by omega))

/-- With groups of one block, the search gives up without looking at a bit. -/
theorem ext2AllocLoop_one (hd : lastAllocs device = 0) (hpg : s.sblock.blocksPg = 1)
    (htot : s.sblock.totalBlocks < 2 ^ 32) (h₀ : 0 < i) (hi : i < s.sblock.totalBlocks)
    (hfuel : s.sblock.totalBlocks ≤ i + fuel) :
    ext2AllocLoop s device isInode fuel i = .error .cantAlloc := by
  induction fuel generalizing i with
  | zero => omega
  | succ fuel ih =>
    rw [ext2AllocLoop_succ (by omega) (by omega), scanAt_none (by omega), hd]
    dsimp only
    have hnext : nextIndex s i = (i + 1) % s.sblock.totalBlocks := by
      have hu : u32 (i + 1) = i + 1 := u32_of_lt (by omega)
      rw [nextIndex, hpg, Nat.div_one, Nat.mul_one, hu, hu]
    by_cases hlast : i + 1 = s.sblock.totalBlocks
    · rw [hnext, hlast, Nat.mod_self, if_pos rfl]
    · rw [hnext, Nat.mod_eq_of_lt (by omega), if_neg (by omega)]
      exact ih (by omega) (by omega) (by omega)

theorem groups_spec (hpg : 0 < s.sblock.blocksPg) (htot : 0 < s.sblock.totalBlocks) :
    0 < s.groups ∧ (s.groups - 1) * s.sblock.blocksPg < s.sblock.totalBlocks ∧
      s.sblock.totalBlocks ≤ s.groups * s.sblock.blocksPg := by
  have hdiv := Nat.div_add_mod (s.sblock.totalBlocks + (s.sblock.blocksPg - 1)) s.sblock.blocksPg
  have hmod := Nat.mod_lt (s.sblock.totalBlocks + (s.sblock.blocksPg - 1)) hpg
  have hpos : 0 < s.groups := Nat.div_pos (by omega) hpg
  rw [Nat.mul_comm] at hdiv
  change s.groups * s.sblock.blocksPg + _ = _ at hdiv
  rw [Nat.sub_mul]
  omega

/-- Once the search has come to a multiple of `blocks_pg`, it leaves the descriptors of the groups, except if
a group is one block. -/
theorem blocksPg_eq_one (hd : lastAllocs device = 0) (htot : s.sblock.totalBlocks < 2 ^ 32)
    (hpg : 0 < s.sblock.blocksPg) {m : ℕ} (h₀ : 0 < m) (hm : m * s.sblock.blocksPg < s.sblock.totalBlocks)
    (hfuel : s.sblock.totalBlocks ≤ fuel)
    (hin : ∀ k ∈ visitsFrom s device isInode fuel (m * s.sblock.blocksPg), k < s.groups) : s.sblock.blocksPg = 1 := by
  obtain ⟨hpos, hlast, hend⟩ := groups_spec hpg (by omega)
  have hmg : m < s.groups := Nat.lt_of_mul_lt_mul_right (lt_of_lt_of_le hm hend)
  have hle : s.groups - 1 ≤ (s.groups - 1) * s.sblock.blocksPg := Nat.le_mul_of_pos_right _ hpg
  obtain ⟨k, hk⟩ : ∃ k, m + k = s.groups - 1 := ⟨s.groups - 1 - m, by omega⟩
  have hmem := hin _ (mem_visitsFrom hd htot hpg h₀ (by rw [hk]; exact hlast) (by omega))
  rw [hk] at hmem
  by_contra hne
  have := Nat.mul_le_mul_left (s.groups - 1) (show 2 ≤ s.sblock.blocksPg by omega)
  omega

theorem visitsFrom_next (hnone : scanAt s device isInode i = none) (hne : nextIndex s i ≠ lastAllocs device) :
    visitsFrom s device isInode (fuel + 1) i = i :: visitsFrom s device isInode fuel (nextIndex s i) := by
  rw [visitsFrom, hnone]
  dsimp only
  rw [if_neg hne]

theorem Searches.not_next (h : Searches s device isInode) (hd : lastAllocs device = 0)
    (htot : s.sblock.totalBlocks < 2 ^ 32) (hpg : 0 < s.sblock.blocksPg)
    (hi : lastAllocs (device + if isInode then 4 else 0) = i) (hnone : scanAt s device isInode i = none) {m : ℕ}
    (hm : (m + 1) * s.sblock.blocksPg < s.sblock.totalBlocks) (hnext : nextIndex s i = (m + 1) * s.sblock.blocksPg) :
    False := by
  obtain ⟨fuel, hfuel⟩ : ∃ fuel, 2 ^ 32 = fuel + 1 := ⟨2 ^ 32 - 1, by decide⟩
  have hle : s.sblock.blocksPg ≤ (m + 1) * s.sblock.blocksPg := Nat.le_mul_of_pos_left _ (by omega)
  have hne : nextIndex s i ≠ lastAllocs device := by omega
  have hin := h.inside
  rw [allocVisits, hi, hfuel, visitsFrom_next hnone hne, hnext] at hin
  have hone := blocksPg_eq_one hd htot hpg (Nat.succ_pos m) hm (by omega) fun k hk =>
    hin k (List.mem_cons_of_mem _ hk)
  have hstop : ext2Alloc s device isInode = .error .cantAlloc := by
    rw [ext2Alloc, hi, hfuel, ext2AllocLoop_succ (by omega) (by omega), hnone]
    dsimp only
    rw [if_neg hne, hnext]
    exact ext2AllocLoop_one hd hone htot (by omega) hm (by omega)
  have hgroups : 1 < s.groups := by
    rw [Fs.groups, hone]
    omega
  have := (h.all hstop 1 hgroups 0 (by omega) (by omega)).2.1
  omega

theorem searches_of_scan (hi : lastAllocs (device + if isInode then 4 else 0) = i) (hg : i < s.groups) {j : ℕ}
    (hscan : scanAt s device isInode i = some j) : Searches s device isInode := by
  obtain ⟨-, hpg, htot, -⟩ := ext2AllocScan_some hscan
  obtain ⟨fuel, hfuel⟩ : ∃ fuel, 2 ^ 32 = fuel + 1 := ⟨2 ^ 32 - 1, by decide⟩
  have hok : ext2Alloc s device isInode = .ok (u32 (i + j), marked s device isInode i j) := by
    rw [ext2Alloc, hi, hfuel, ext2AllocLoop_succ (by omega) (by omega), hscan]
  refine ⟨?_, fun k hk => ?_, fun e => ?_⟩
  · rw [hok]
    intro e
    cases e
  · rw [allocVisits, hi, hfuel, visitsFrom, hscan] at hk
    rw [List.mem_singleton.mp hk]
    exact hg
  · rw [hok] at e
    cases e

/-- For blocks: group 0 has a clear bit, or it is the only group and the size of a group is a multiple of that of
the disk. For inodes: there are more than 11 groups, and descriptor 11 has a clear bit from bit 11 on. -/
def Findable (s : Fs) (device : ℕ) : Bool → Prop
  | false => (∃ k, k < s.sblock.blocksPg ∧ k < s.sblock.totalBlocks ∧ bit s device false 0 k = false) ∨
      s.sblock.totalBlocks ∣ s.sblock.blocksPg
  | true => 11 < s.groups ∧ ∃ k, 11 ≤ k ∧ k < s.sblock.blocksPg ∧ 11 + k < s.sblock.totalBlocks ∧
      bit s device true 11 k = false

theorem searches_block (hd : device < 4) (hpg : 0 < s.sblock.blocksPg) (hpg' : s.sblock.blocksPg < 2 ^ 32)
    (htot : 0 < s.sblock.totalBlocks) (htot' : s.sblock.totalBlocks < 2 ^ 32) :
    Searches s device false ↔ Findable s device false := by
  have hlast : lastAllocs device = 0 := if_pos hd
  have hi : lastAllocs (device + if false = true then 4 else 0) = 0 := hlast
  obtain ⟨hpos, -, hend⟩ := groups_spec hpg htot
  have hnext : nextIndex s 0 = s.sblock.blocksPg % s.sblock.totalBlocks := by
    rw [nextIndex, Nat.zero_div, Nat.zero_add, show u32 1 = 1 from rfl, Nat.one_mul, u32_of_lt hpg']
  constructor
  · intro h
    by_contra hc
    obtain ⟨hfull, hdvd⟩ := not_or.mp hc
    have hnone : scanAt s device false 0 = none := by
      cases hscan : scanAt s device false 0 with
      | none => rfl
      | some k =>
        obtain ⟨-, hk, hk', hclear⟩ := ext2AllocScan_some hscan
        rw [Nat.zero_add, u32_of_lt (by omega)] at hk'
        exact absurd ⟨k, hk, hk', hclear⟩ hfull
    have hne : nextIndex s 0 ≠ 0 := fun e => hdvd (Nat.dvd_of_mod_eq_zero (hnext ▸ e))
    by_cases hlt : s.sblock.blocksPg < s.sblock.totalBlocks
    · refine h.not_next hlast htot' hpg hi hnone (m := 0) (by omega) ?_
      rw [hnext, Nat.mod_eq_of_lt hlt]
      omega
    · -- one group that is larger than the disk: the second descriptor does not exist
      obtain ⟨fuel, hfuel⟩ : ∃ fuel, 2 ^ 32 = fuel + 1 + 1 := ⟨2 ^ 32 - 2, by decide⟩
      have hin := h.inside
      rw [allocVisits, hi, hfuel, visitsFrom_next hnone (by omega), visitsFrom] at hin
      have hsecond := hin _ (List.mem_cons_of_mem _ List.mem_cons_self)
      have hone : s.groups = 1 := by
        refine Nat.div_eq_of_lt_le ?_ ?_ <;> omega
      omega
  · rintro (⟨k, hk, hk', hclear⟩ | hdvd)
    · obtain ⟨j, hscan⟩ := scanAt_some (Nat.zero_le k) hk (by omega) (by omega) hclear
      exact searches_of_scan hi hpos hscan
    · by_cases hscan : ∃ j, scanAt s device false 0 = some j
      · obtain ⟨j, hscan⟩ := hscan
        exact searches_of_scan hi hpos hscan
      have hnone : scanAt s device false 0 = none := Option.eq_none_iff_forall_not_mem.mpr fun j hj => hscan ⟨j, hj⟩
      have hzero : nextIndex s 0 = 0 := by rw [hnext, Nat.mod_eq_zero_of_dvd hdvd]
      obtain ⟨fuel, hfuel⟩ : ∃ fuel, 2 ^ 32 = fuel + 1 := ⟨2 ^ 32 - 1, by decide⟩
      have hle := Nat.le_of_dvd hpg hdvd
      have hone : s.groups = 1 := by
        refine Nat.div_eq_of_lt_le ?_ ?_ <;> omega
      have hstop : ext2Alloc s device false = .error .cantAlloc := by
        rw [ext2Alloc, hi, hfuel, ext2AllocLoop_succ (by omega) (by omega), hnone]
        dsimp only
        rw [if_pos (hzero.trans hlast.symm)]
      have hvisits : allocVisits s device false = [0] := by
        rw [allocVisits, hi, hfuel, visitsFrom, hnone]
        dsimp only
        rw [if_pos (hzero.trans hlast.symm)]
      refine ⟨?_, fun k hk => ?_, fun _ g hg k hk hgk => ?_⟩
      · rw [hstop]
        intro e
        cases e
      · rw [hvisits] at hk
        rw [List.mem_singleton.mp hk]
        exact hpos
      · obtain rfl : g = 0 := by omega
        rw [hvisits, Nat.zero_add, u32_of_lt (by omega)]
        exact ⟨List.mem_singleton_self 0, Nat.zero_le k, by omega⟩

theorem searches_inode (hpg : 0 < s.sblock.blocksPg) (hpg' : s.sblock.blocksPg < 2 ^ 32) (hd : device < 4)
    (htot : 0 < s.sblock.totalBlocks) (htot' : s.sblock.totalBlocks < 2 ^ 32) :
    Searches s device true ↔ Findable s device true := by
  have hlast : lastAllocs device = 0 := if_pos hd
  have hi : lastAllocs (device + if true = true then 4 else 0) = 11 := if_neg (by simp)
  obtain ⟨hpos, hend', hend⟩ := groups_spec hpg htot
  constructor
  · intro h
    have hg : 11 < s.groups := by
      refine h.inside 11 ?_
      obtain ⟨fuel, hfuel⟩ : ∃ fuel, 2 ^ 32 = fuel + 1 := ⟨2 ^ 32 - 1, by decide⟩
      rw [allocVisits, hi, hfuel, visitsFrom]
      exact List.mem_cons_self
    have hmany : 11 * s.sblock.blocksPg < s.sblock.totalBlocks :=
      lt_of_le_of_lt (Nat.mul_le_mul_right _ (by omega)) hend'
    refine ⟨hg, ?_⟩
    cases hscan : scanAt s device true 11 with
    | some k =>
      obtain ⟨hle, hk, hk', hclear⟩ := ext2AllocScan_some hscan
      rw [u32_of_lt (by omega)] at hk'
      exact ⟨k, hle, hk, hk', hclear⟩
    | none =>
      exfalso
      have hmul : (11 / s.sblock.blocksPg + 1) * s.sblock.blocksPg ≤ 11 + s.sblock.blocksPg := by
        rw [Nat.succ_mul]
        exact Nat.add_le_add_right (Nat.div_mul_le_self 11 _) _
      by_cases hlt : (11 / s.sblock.blocksPg + 1) * s.sblock.blocksPg < s.sblock.totalBlocks
      · exact h.not_next hlast htot' hpg hi hscan hlt (nextIndex_mul htot' hpg rfl hlt)
      -- twelve groups of one block: the search gives up after the last one
      have hone : s.sblock.blocksPg = 1 := by omega
      have htwelve : s.sblock.totalBlocks = 12 := by
        rw [hone] at hlt
        omega
      have hstop : ext2Alloc s device true = .error .cantAlloc := by
        obtain ⟨fuel, hfuel⟩ : ∃ fuel, 2 ^ 32 = fuel + 1 := ⟨2 ^ 32 - 1, by decide⟩
        rw [ext2Alloc, hi, hfuel]
        exact ext2AllocLoop_one hlast hone htot' (by decide) (by omega) (by omega)
      have := (h.all hstop 1 (by omega) 0 (by omega) (by omega)).2.1
      omega
  · rintro ⟨hg, k, hle, hk, hk', hclear⟩
    obtain ⟨j, hscan⟩ := scanAt_some hle hk hk' (by omega) hclear
    exact searches_of_scan hi hg hscan

/-- **The search of `ext2_alloc`** ends inside the descriptors, after looking at all groups if it gives up, exactly
in the cases of `Findable`. -/
theorem search_iff {s : Fs} {device : ℕ} (hd : device < 4) (hpg : 0 < s.sblock.blocksPg)
    (hpg' : s.sblock.blocksPg < 2 ^ 32) (htot : 0 < s.sblock.totalBlocks) (htot' : s.sblock.totalBlocks < 2 ^ 32)
    (isInode : Bool) : Searches s device isInode ↔ Findable s device isInode := by
  cases isInode with
  | false => exact searches_block hd hpg hpg' htot htot'
  | true => exact searches_inode hpg hpg' hd htot htot'

theorem search_iff_oneGroup : Searches oneGroup 0 false ∧ ¬ Searches oneGroup 0 true := by
  have h := search_iff (s := oneGroup) (show 0 < 4 by decide) (by decide) (by decide) (by decide) (by decide)
  exact ⟨(h false).mpr (.inl ⟨10, by decide, by decide, by decide⟩), fun hs => absurd ((h true).mp hs).1 (by decide)⟩

/-- Two groups of 8 blocks on a disk of 12, all in use. -/
def fullFs : Fs where
  sblock := ⟨12, 0, 8, 8, 128⟩
  bgDescrs g := if g < 2 then ⟨3, 4, 5⟩ else ⟨0, 0, 0⟩
  disk _ _ _ := 0xFF

theorem fullFs_diverges (fuel : ℕ) : ext2AllocLoop fullFs 0 false fuel 8 = .error .diverges ∧
    ext2AllocLoop fullFs 0 false fuel 4 = .error .diverges := by
  induction fuel with
  | zero => exact ⟨rfl, rfl⟩
  | succ fuel ih =>
    have h₈ : scanAt fullFs 0 false 8 = none := by decide +kernel
    have h₄ : scanAt fullFs 0 false 4 = none := by decide +kernel
    rw [ext2AllocLoop_succ (by decide) (by decide), ext2AllocLoop_succ (by decide) (by decide), h₈, h₄]
    exact ⟨ih.2, ih.1⟩

/-- The search goes from 0 to 8, to 4, and from there to 8 and 4 for ever. -/
theorem full_disk_diverges : ext2BlockAlloc fullFs 0 = .error .diverges ∧ fullFs.groups = 2 ∧
    8 ∈ allocVisits fullFs 0 false ∧ ¬ Searches fullFs 0 false := by
  obtain ⟨fuel, hfuel⟩ : ∃ fuel, 2 ^ 32 = fuel + 1 + 1 := ⟨2 ^ 32 - 2, by decide⟩
  have h₀ : scanAt fullFs 0 false 0 = none := by decide +kernel
  have hdiv : ext2BlockAlloc fullFs 0 = .error .diverges := by
    change ext2AllocLoop fullFs 0 false (2 ^ 32) 0 = _
    rw [hfuel, ext2AllocLoop_succ (by decide) (by decide), h₀]
    exact (fullFs_diverges (fuel + 1)).1
  refine ⟨hdiv, by decide, ?_, fun h => h.ends hdiv⟩
  change 8 ∈ visitsFrom fullFs 0 false (2 ^ 32) 0
  rw [hfuel, visitsFrom_next h₀ (by decide)]
  exact List.mem_cons_of_mem _ List.mem_cons_self

end BulbOS.Ext2
