import BulbOS.Ext2.Model
import BulbOS.Lib.Stop

/-!
# The block bitmap of group 0

Block `b` of group 0 has bit `b` of the bitmap of that group: this is how `ext2_alloc` numbers blocks.
A run of allocations and frees starts with a bitmap in which the bit of the bitmap block is set.

* `write_other`, `write_self`: a block that is written, and the others;
* `ext2BlockAlloc_clear`: an allocation takes a clear bit of group 0, if there is one;
* `Books`: the bitmap is the first one with the outstanding blocks added; `Books.alloc`, `Books.free`;
* **`blocks_outstanding`**: no block is given out twice.
-/

namespace BulbOS.Ext2

open KLib

variable {s s' : Fs} {device : ℕ}

/-- Bit `k` of the block bitmap of group 0. -/
def blockBit (s : Fs) (device k : ℕ) : Bool := getBit (s.disk device (s.bgDescrs 0).blockBitmap) k

/-! ## Writing a block -/

theorem write_other {block : ℕ} {buffer : Mem} {d b : ℕ} (h : d ≠ device ∨ b ≠ block) :
    (ext2WriteBlock s device block buffer).disk d b = s.disk d b := by
  rw [ext2WriteBlock]
  dsimp only
  by_cases hd : d = device
  · subst hd
    rw [Function.update_self, Function.update_of_ne (h.resolve_left (not_not.mpr rfl))]
  · rw [Function.update_of_ne hd]

theorem write_self {block : ℕ} {buffer : Mem} {x : ℕ} (hx : x < s.blockSize) :
    (ext2WriteBlock s device block buffer).disk device block x = buffer x := by
  rw [ext2WriteBlock]
  dsimp only
  rw [Function.update_self, Function.update_self, if_pos hx]

theorem getBit_write_self {block k : ℕ} {buffer : Mem} (hk : k < 8 * s.blockSize) :
    getBit ((ext2WriteBlock s device block buffer).disk device block) k = getBit buffer k := by
  unfold getBit
  rw [write_self (by omega)]

theorem blockBit_write {b k : ℕ} {buffer : Mem} (h : b ≠ (s.bgDescrs 0).blockBitmap) :
    blockBit (ext2WriteBlock s device b buffer) device k = blockBit s device k := by
  unfold blockBit
  have : (ext2WriteBlock s device b buffer).bgDescrs = s.bgDescrs := rfl
  rw [this, write_other (.inr h.symm)]

/-! ## Allocation -/

theorem ext2AllocScan_spec {bitmap : Mem} {i k : ℕ} (hpg : k < s.sblock.blocksPg)
    (htot : i + k < s.sblock.totalBlocks) (hk : i + k < 2 ^ 32) (hbit : getBit bitmap k = false) {fuel j : ℕ}
    (hj : j ≤ k) (hf : k - j < fuel) :
    ∃ b ≤ k, ext2AllocScan s bitmap i fuel j = some b ∧ getBit bitmap b = false := by
  induction fuel generalizing j with
  | zero => omega
  | succ fuel ih =>
    rw [ext2AllocScan, u32_of_lt (by omega), if_pos ⟨by omega, by omega⟩]
    by_cases hset : getBit bitmap j = true
    · rw [if_pos hset]
      have hne : j ≠ k := by
        rintro rfl
        rw [hbit] at hset
        cases hset
      exact ih (by omega) (by omega)
    · rw [if_neg hset]
      exact ⟨j, hj, rfl, Bool.eq_false_iff.mpr hset⟩

/-- The filesystem after block `b` was allocated. -/
def allocated (s : Fs) (device b : ℕ) : Fs :=
  ext2ZeroBlock (ext2WriteBlock s device (s.bgDescrs 0).blockBitmap
    (setBit (s.disk device (s.bgDescrs 0).blockBitmap) b)) device b

/-- **An allocation** takes the first clear bit of group 0. -/
theorem ext2BlockAlloc_clear (hd : device < 4) {k : ℕ} (hpg : k < s.sblock.blocksPg)
    (htot : k < s.sblock.totalBlocks) (hk : k < 2 ^ 32) (hbit : blockBit s device k = false) :
    ∃ b ≤ k, blockBit s device b = false ∧ ext2BlockAlloc s device = .ok (b, allocated s device b) := by
  obtain ⟨b, hbk, hscan, hclear⟩ := ext2AllocScan_spec (i := 0) hpg (by omega) (by omega) hbit (Nat.zero_le k)
    (show k - 0 < s.sblock.blocksPg by omega)
  have hu : u32 (0 + b) = b := by
    rw [Nat.zero_add]
    exact u32_of_lt (by omega)
  refine ⟨b, hbk, hclear, ?_⟩
  have hstart : lastAllocs (device + if false = true then 4 else 0) = 0 := if_pos (by simpa using hd)
  rw [ext2BlockAlloc, ext2Alloc, hstart]
  change ext2AllocLoop s device false (2 ^ 32 - 1 + 1) 0 = _
  rw [ext2AllocLoop]
  simp only [Bool.false_eq_true, if_false, ext2ReadBlock]
  rw [hscan]
  dsimp only
  rw [hu]
  rfl

theorem allocated_other {b d c : ℕ} (h : d ≠ device ∨ c ≠ b ∧ c ≠ (s.bgDescrs 0).blockBitmap) :
    (allocated s device b).disk d c = s.disk d c := by
  rw [allocated, ext2ZeroBlock, write_other (h.imp_right And.left), write_other (h.imp_right And.right)]

theorem allocated_self {b x : ℕ} (hx : x < s.blockSize) : (allocated s device b).disk device b x = 0 := by
  rw [allocated, ext2ZeroBlock]
  exact write_self hx

theorem blockBit_allocated {b k : ℕ} (hb : b ≠ (s.bgDescrs 0).blockBitmap) (hk : k < 8 * s.blockSize) :
    blockBit (allocated s device b) device k = (decide (b = k) || blockBit s device k) := by
  rw [allocated, ext2ZeroBlock, blockBit_write (by exact hb)]
  exact (getBit_write_self hk).trans (getBit_setBit _ _ _)

/-! ## Free -/

/-- The filesystem after block `b` of group 0 was freed. -/
def freed (s : Fs) (device b : ℕ) : Fs :=
  ext2WriteBlock s device (s.bgDescrs 0).blockBitmap (clearBit (s.disk device (s.bgDescrs 0).blockBitmap) b)

theorem ext2BlockFree_set {b : ℕ} (hb : b < s.sblock.blocksPg) (hbit : blockBit s device b = true) :
    ext2BlockFree s device b = .ok (freed s device b) := by
  rw [ext2BlockFree, ext2Free, if_neg (by omega), Nat.div_eq_of_lt hb, Nat.mod_eq_of_lt hb]
  simp only [Bool.false_eq_true, if_false, ext2ReadBlock]
  rw [if_neg]
  · rfl
  · unfold blockBit at hbit
    rw [hbit]
    decide

theorem blockBit_freed {b k : ℕ} (hk : k < 8 * s.blockSize) :
    blockBit (freed s device b) device k = (!decide (b = k) && blockBit s device k) :=
  (getBit_write_self hk).trans (getBit_clearBit _ _ _)

/-! ## Runs -/

/-- A call of one of the two functions. -/
inductive BlockOp
  | alloc
  | free (b : ℕ)

/-- A filesystem and the blocks outstanding. -/
abbrev Outstanding := Fs × List ℕ

/-- An allocation finds a clear bit in group 0; a block that is freed is outstanding. -/
def BlockOp.Legal (device : ℕ) (c : Outstanding) : BlockOp → Prop
  | .alloc => ∃ k, k < min c.1.sblock.blocksPg c.1.sblock.totalBlocks ∧ blockBit c.1 device k = false
  | .free b => b ∈ c.2

instance (device : ℕ) (c : Outstanding) (op : BlockOp) : Decidable (op.Legal device c) :=
  match op with
  | .alloc => inferInstanceAs (Decidable (∃ k, k < min c.1.sblock.blocksPg c.1.sblock.totalBlocks ∧ _))
  | .free b => inferInstanceAs (Decidable (b ∈ c.2))

def BlockOp.step (device : ℕ) (c : Outstanding) : BlockOp → Except Stop Outstanding
  | .alloc => do
    let (b, s) ← ext2BlockAlloc c.1 device
    return (s, b :: c.2)
  | .free b => do
    let s ← ext2BlockFree c.1 device b
    return (s, c.2.erase b)

/-- The bitmap of group 0 fits its block and has a bit for the block it is in, which is set. -/
structure GroupOk (s : Fs) (device : ℕ) : Prop where
  drive : device < 4
  word : s.sblock.blocksPg < 2 ^ 32
  fits : s.sblock.blocksPg ≤ 8 * s.blockSize
  self : (s.bgDescrs 0).blockBitmap < 8 * s.blockSize → blockBit s device (s.bgDescrs 0).blockBitmap = true

/-- The bitmap is the one of `s₀` with the outstanding blocks added. -/
structure Books (s₀ : Fs) (device : ℕ) (c : Outstanding) : Prop where
  sblock : c.1.sblock = s₀.sblock
  bgDescrs : c.1.bgDescrs = s₀.bgDescrs
  nodup : c.2.Nodup
  group : ∀ b ∈ c.2, b < s₀.sblock.blocksPg
  clear : ∀ b ∈ c.2, blockBit s₀ device b = false
  bits : ∀ k < 8 * s₀.blockSize, blockBit c.1 device k = (decide (k ∈ c.2) || blockBit s₀ device k)

variable {s₀ : Fs} {c c' : Outstanding}

theorem Books.blockSize (h : Books s₀ device c) : c.1.blockSize = s₀.blockSize := by
  unfold Fs.blockSize
  rw [h.sblock]

/-- A clear bit of group 0 is not outstanding, was clear and is not that of the bitmap block. -/
theorem Books.of_clear (h : Books s₀ device c) (hok : GroupOk s₀ device) {b : ℕ} (hb : b < s₀.sblock.blocksPg)
    (hbit : blockBit c.1 device b = false) :
    b ∉ c.2 ∧ blockBit s₀ device b = false ∧ b ≠ (c.1.bgDescrs 0).blockBitmap := by
  have hlt : b < 8 * s₀.blockSize := lt_of_lt_of_le hb hok.fits
  rw [h.bits b hlt, Bool.or_eq_false_iff, decide_eq_false_iff_not] at hbit
  obtain ⟨hmem, hclear⟩ := hbit
  refine ⟨hmem, hclear, ?_⟩
  rintro e
  rw [h.bgDescrs] at e
  have := hok.self (e ▸ hlt)
  rw [← e, hclear] at this
  cases this

theorem Books.alloc (h : Books s₀ device c) (hok : GroupOk s₀ device) (hl : BlockOp.alloc.Legal device c) :
    ∃ c', BlockOp.alloc.step device c = .ok c' ∧ Books s₀ device c' := by
  obtain ⟨k, hk, hbit⟩ := hl
  rw [h.sblock, lt_min_iff] at hk
  have hword := hok.word
  obtain ⟨b, hbk, hclear, halloc⟩ := ext2BlockAlloc_clear hok.drive (by rw [h.sblock]; exact hk.1)
    (by rw [h.sblock]; exact hk.2) (by omega) hbit
  have hb : b < s₀.sblock.blocksPg := by omega
  obtain ⟨hmem, hclear₀, hne⟩ := h.of_clear hok hb hclear
  refine ⟨(allocated c.1 device b, b :: c.2), ?_, h.sblock, h.bgDescrs, List.nodup_cons.mpr ⟨hmem, h.nodup⟩,
    List.forall_mem_cons.mpr ⟨hb, h.group⟩, List.forall_mem_cons.mpr ⟨hclear₀, h.clear⟩, fun j hj => ?_⟩
  · rw [BlockOp.step, halloc]
    rfl
  · dsimp only
    rw [blockBit_allocated hne (by rw [h.blockSize]; exact hj), h.bits j hj]
    simp [eq_comm, Bool.or_assoc]

theorem Books.free (h : Books s₀ device c) (hok : GroupOk s₀ device) {b : ℕ} (hl : b ∈ c.2) :
    ∃ c', (BlockOp.free b).step device c = .ok c' ∧ Books s₀ device c' := by
  have hb := h.group b hl
  have hlt : b < 8 * s₀.blockSize := lt_of_lt_of_le hb hok.fits
  have hset : blockBit c.1 device b = true := by
    rw [h.bits b hlt, decide_eq_true hl, Bool.true_or]
  refine ⟨(freed c.1 device b, c.2.erase b), ?_, h.sblock, h.bgDescrs, h.nodup.erase b,
    fun x hx => h.group x (List.mem_of_mem_erase hx), fun x hx => h.clear x (List.mem_of_mem_erase hx),
    fun j hj => ?_⟩
  · rw [BlockOp.step, ext2BlockFree_set (by rw [h.sblock]; exact hb) hset]
    rfl
  · dsimp only
    rw [blockBit_freed (by rw [h.blockSize]; exact hj), h.bits j hj]
    by_cases e : b = j
    · subst e
      rw [h.clear b hl]
      simp [h.nodup.not_mem_erase]
    · simp [h.nodup.mem_erase_iff, e, Ne.symm e]

theorem Books.step (h : Books s₀ device c) (hok : GroupOk s₀ device) {op : BlockOp} (hl : op.Legal device c) :
    ∃ c', op.step device c = .ok c' ∧ Books s₀ device c' := by
  cases op with
  | alloc => exact h.alloc hok hl
  | free b => exact h.free hok hl

theorem Books.start (s : Fs) (device : ℕ) : Books s device (s, []) :=
  ⟨rfl, rfl, List.nodup_nil, by simp, by simp, by simp⟩

/-- **Outstanding blocks.** After every run of allocations and frees, the outstanding blocks are
distinct, their bits were clear at the start, the bitmap is the first one with exactly them added, and
an outstanding block can be freed. -/
theorem blocks_outstanding {s₀ : Fs} {device : ℕ} (hok : GroupOk s₀ device) {ops : List BlockOp} {c : Outstanding}
    (hrun : Run (fun c op c' => BlockOp.Legal device c op ∧ op.step device c = .ok c') (s₀, []) ops c) :
    c.2.Nodup ∧ (∀ b ∈ c.2, blockBit s₀ device b = false) ∧
      (∀ k < 8 * s₀.blockSize, blockBit c.1 device k = true ↔ blockBit s₀ device k = true ∨ k ∈ c.2) ∧
      (∀ op : BlockOp, op.Legal device c → ∃ c', op.step device c = .ok c') := by
  have h : Books s₀ device c := by
    refine hrun.invariant (I := Books s₀ device) ?_ (Books.start s₀ device)
    rintro c op c' h ⟨hl, hstep⟩
    obtain ⟨c₁, hc₁, h₁⟩ := h.step hok hl
    rw [hstep] at hc₁
    cases hc₁
    exact h₁
  refine ⟨h.nodup, h.clear, fun k hk => ?_, fun op hl => ?_⟩
  · rw [h.bits k hk, Bool.or_eq_true, decide_eq_true_eq, or_comm]
  · obtain ⟨c', hc', _⟩ := h.step hok hl
    exact ⟨c', hc'⟩

/-- Blocks 0 to 7 are in use, among them the bitmap, which is block 3. -/
def smallFs : Fs where
  sblock := ⟨64, 0, 64, 8, 128⟩
  bgDescrs _ := ⟨3, 4, 5⟩
  disk _ b x := if b = 3 ∧ x = 0 then 0xFF else 0

theorem blocks_outstanding_small : GroupOk smallFs 0 ∧ ∃ c : Outstanding,
    Run (fun c op c' => BlockOp.Legal 0 c op ∧ op.step 0 c = .ok c') (smallFs, [])
      [.alloc, .alloc, .free 8, .alloc, .alloc] c ∧ c.2 = [10, 8, 9] ∧ c.2.Nodup := by
  have hok : GroupOk smallFs 0 := ⟨by decide, by decide, by decide, fun _ => by decide⟩
  obtain ⟨c, hrun, hc⟩ := exists_run (BlockOp.Legal 0) (fun c op => op.step 0 c) (smallFs, [])
    [.alloc, .alloc, .free 8, .alloc, .alloc] (fun c => c.2 == [10, 8, 9]) (by decide +kernel)
  exact ⟨hok, c, hrun, by simpa using hc, (blocks_outstanding hok hrun).1⟩

end BulbOS.Ext2
