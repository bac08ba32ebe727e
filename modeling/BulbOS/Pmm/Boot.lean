import BulbOS.Pmm.Model
import Mathlib.Data.List.Basic
import Mathlib.Order.Interval.Set.Disjoint
import Mathlib.Data.Finset.Max
import Mathlib.Order.CompletePartialOrder
import Mathlib.Data.Set.Lattice

/-!
# The pages that are free after boot

`pmm_setup_bitmap` frees, for every available entry of the memory map at or above 1 MiB, the frames from
the one that its address is in, after the occupied prefix of the entry at 1 MiB, to the second one past
the last whole frame: its last index is `(addr + size) / 4096 + 1`, and the loop includes it.

* `MbMmapEntry.Clears`: the indices an entry clears; `pmmInit_clears`: the bitmap after boot;
* `UsablePage`: what a free page should be;
* `SetBehind`: the bits behind the bitmap, which `pmm_init` does not set;
* **`onlyUsable_iff`**: every page that is free is usable exactly when they are set, and each entry that frees a
  page does so inside available entries, its two extra pages included;
* `not_onlyUsable`: below 8 TiB, and past the occupied prefix, no map with available memory is like that;
* `qemu_frees_reserved`: on a memory map of 128 MiB two reserved pages are marked free.
-/

namespace BulbOS.Pmm

open KLib

/-! ## Entries -/

namespace MbMmapEntry

variable (e : MbMmapEntry)

def start : ℕ := e.addrLow.toNat + e.addrHigh.toNat * 2 ^ 32

def length : ℕ := e.lenLow.toNat + e.lenHigh.toNat * 2 ^ 32

/-- The addresses of the entry. -/
def bytes : Set ℕ := Set.Ico e.start (e.start + e.length)

/-- `pmm_setup_bitmap` clears bits for the entry. -/
def Taken : Prop := upperMemoryStart.toNat ≤ e.start ∧ e.type = multibootMemAvailable

instance : Decidable e.Taken := by unfold Taken; infer_instance

/-- The first bit that is cleared. -/
def firstPage (occupiedSize : ℕ) : ℕ :=
  u32 ((if e.start = upperMemoryStart.toNat then e.start + occupiedSize else e.start) / pageFrameSize)

/-- The last bit that is cleared. -/
def lastPage : ℕ := u32 ((e.start + e.length) % 2 ^ 64 / pageFrameSize + 1)

/-- Bit `i` is cleared for the entry. -/
def Clears (occupiedSize i : ℕ) : Prop := e.Taken ∧ e.firstPage occupiedSize ≤ i ∧ i ≤ e.lastPage

/-- The addresses of the frames whose bits are cleared. -/
def freed (occupiedSize : ℕ) : Set ℕ :=
  Set.Ico (e.firstPage occupiedSize * pageFrameSize) ((e.lastPage + 1) * pageFrameSize)

/-- The frames from the first to the last bit are below the address `low` or from `high` on. -/
def Misses (occupiedSize low high : ℕ) : Prop :=
  high ≤ low ∨ (e.lastPage + 1) * pageFrameSize ≤ low ∨ high ≤ e.firstPage occupiedSize * pageFrameSize

theorem start_lt : e.start < 2 ^ 64 := by
  have h₁ := e.addrLow.toNat_lt
  have h₂ := e.addrHigh.toNat_lt
  unfold start
  omega

theorem length_lt : e.length < 2 ^ 64 := by
  have h₁ := e.lenLow.toNat_lt
  have h₂ := e.lenHigh.toNat_lt
  unfold length
  omega

end MbMmapEntry

theorem lowHigh_toNat (low high : UInt32) :
    (low.toUInt64 + high.toUInt64 <<< 32).toNat = low.toNat + high.toNat * 2 ^ 32 := by
  have h₁ := low.toNat_lt
  have h₂ := high.toNat_lt
  rw [UInt64.toNat_add, UInt64.toNat_shiftLeft, UInt32.toNat_toUInt64, UInt32.toNat_toUInt64]
  change (low.toNat + high.toNat <<< 32 % 2 ^ 64) % 2 ^ 64 = _
  rw [Nat.shiftLeft_eq, Nat.mod_eq_of_lt (show high.toNat * 2 ^ 32 < 2 ^ 64 by omega)]
  exact Nat.mod_eq_of_lt (by omega)

variable {e : MbMmapEntry} {info : MultibootInfo} {kernelStart kernelEnd occupied i : ℕ} {m m' mem : Mem}
  {s : PmmState}

theorem getBit_clearBits (m : Mem) (bit last i : ℕ) :
    getBit (clearBits m bit last) i = false ↔ getBit m i = false ∨ bit ≤ i ∧ i ≤ last := by
  have hfold : ∀ n, getBit ((List.range n).foldl (fun m j => clearBit m (bit + j)) m) i = false ↔
      getBit m i = false ∨ bit ≤ i ∧ i < bit + n := by
    intro n
    induction n with
    | zero => simp
    | succ n ih =>
      have hstep : bit + n = i ∨ bit ≤ i ∧ i < bit + n ↔ bit ≤ i ∧ i < bit + (n + 1) := by omega
      rw [List.range_succ, List.foldl_append, List.foldl_cons, List.foldl_nil, getBit_clearBit,
        Bool.and_eq_false_iff, ih, Bool.not_eq_false', decide_eq_true_eq, or_left_comm, hstep]
  rw [clearBits, hfold]
  exact or_congr_right (by omega)

theorem upperMemoryStart_toNat : upperMemoryStart.toNat = 0x100000 := by decide

theorem end_of_prefix (addr size occ : UInt64) (c : Prop) [Decidable c] :
    (if c then addr + occ else addr) + (if c then size - occ else size) = addr + size := by
  by_cases hc : c
  · rw [if_pos hc, if_pos hc, UInt64.add_assoc, UInt64.add_comm occ, UInt64.sub_add_cancel]
  · rw [if_neg hc, if_neg hc]

theorem start_eq_iff {addr : UInt64} (haddr : addr.toNat = e.start) :
    addr = upperMemoryStart ↔ e.start = upperMemoryStart.toNat := by
  rw [← UInt64.toNat_inj, haddr]

theorem start_of_prefix {addr occ : UInt64} (haddr : addr.toNat = e.start) (hocc : occ.toNat = occupied)
    (hlt : occupied < 2 ^ 32) :
    u32 ((if addr = upperMemoryStart then addr + occ else addr).toNat / pageFrameSize) =
      e.firstPage occupied := by
  unfold MbMmapEntry.firstPage
  by_cases hc : addr = upperMemoryStart
  · have hup : e.start = 0x100000 := ((start_eq_iff haddr).mp hc).trans upperMemoryStart_toNat
    have hsum : (e.start + occupied) % 2 ^ 64 = e.start + occupied := Nat.mod_eq_of_lt (by omega)
    rw [if_pos hc, if_pos ((start_eq_iff haddr).mp hc), UInt64.toNat_add, haddr, hocc, hsum]
  · rw [if_neg hc, if_neg (mt (start_eq_iff haddr).mpr hc), haddr]

theorem pmmSetupEntry_eq (e : MbMmapEntry) (hocc : occupied < 2 ^ 32) (m : Mem) :
    pmmSetupEntry e occupied m =
      if e.Taken then
        if e.lastPage = bit32Max then none else some (clearBits m (e.firstPage occupied) e.lastPage)
      else some m := by
  have haddr : (e.addrLow.toUInt64 + e.addrHigh.toUInt64 <<< 32).toNat = e.start := lowHigh_toNat _ _
  have hsize : (e.lenLow.toUInt64 + e.lenHigh.toUInt64 <<< 32).toNat = e.length := lowHigh_toNat _ _
  have hocc' : (UInt64.ofNat occupied).toNat = occupied := by
    rw [UInt64.toNat_ofNat']
    exact Nat.mod_eq_of_lt (by omega)
  rw [pmmSetupEntry]
  generalize e.addrLow.toUInt64 + e.addrHigh.toUInt64 <<< 32 = addr at haddr ⊢
  generalize e.lenLow.toUInt64 + e.lenHigh.toUInt64 <<< 32 = size at hsize ⊢
  dsimp only
  have hlt : addr < upperMemoryStart ↔ e.start < upperMemoryStart.toNat := by
    rw [UInt64.lt_iff_toNat_lt, haddr]
  by_cases hlow : e.start < upperMemoryStart.toNat
  · rw [if_pos (hlt.mpr hlow), if_neg fun ht : e.Taken => absurd ht.1 (Nat.not_le.mpr hlow)]
  rw [if_neg (mt hlt.mp hlow)]
  by_cases htype : e.type ≠ multibootMemAvailable
  · rw [if_pos htype, if_neg fun ht : e.Taken => htype ht.2]
  have ht : e.Taken := ⟨Nat.le_of_not_lt hlow, not_not.mp htype⟩
  have hlast : u32 ((addr + size).toNat / pageFrameSize + 1) = e.lastPage := by
    rw [UInt64.toNat_add, haddr, hsize, MbMmapEntry.lastPage]
  rw [if_neg htype, if_pos ht, end_of_prefix, hlast, start_of_prefix haddr hocc' hocc]

/-- **The loop over the entries.** -/
theorem foldlM_setup (hocc : occupied < 2 ^ 32) (mmap : ℕ → MbMmapEntry) {l : List ℕ}
    (h : l.foldlM (fun m k => pmmSetupEntry (mmap k) occupied m) m = some m') :
    (∀ k ∈ l, (mmap k).Taken → (mmap k).lastPage ≠ bit32Max) ∧
      ∀ i, getBit m' i = false ↔ getBit m i = false ∨ ∃ k ∈ l, (mmap k).Clears occupied i := by
  induction l generalizing m with
  | nil =>
    obtain rfl := Option.some.inj h
    exact ⟨List.forall_mem_nil _, fun i => by simp⟩
  | cons k l ih =>
    rw [List.foldlM_cons, pmmSetupEntry_eq _ hocc] at h
    by_cases ht : (mmap k).Taken
    · rw [if_pos ht] at h
      by_cases hlast : (mmap k).lastPage = bit32Max
      · rw [if_pos hlast] at h
        cases h
      rw [if_neg hlast] at h
      obtain ⟨hret, hbits⟩ := ih h
      refine ⟨List.forall_mem_cons.mpr ⟨fun _ => hlast, hret⟩, fun i => ?_⟩
      rw [hbits, getBit_clearBits, List.exists_mem_cons_iff, or_assoc]
      exact or_congr_right (or_congr_left (and_iff_right ht).symm)
    · rw [if_neg ht] at h
      obtain ⟨hret, hbits⟩ := ih h
      refine ⟨List.forall_mem_cons.mpr ⟨fun ht' => absurd ht' ht, hret⟩, fun i => ?_⟩
      rw [hbits, List.exists_mem_cons_iff]
      exact or_congr_right (or_iff_right fun hc => ht hc.1).symm

theorem foldlM_setup_isSome (hocc : occupied < 2 ^ 32) (mmap : ℕ → MbMmapEntry) {l : List ℕ}
    (h : ∀ k ∈ l, (mmap k).Taken → (mmap k).lastPage ≠ bit32Max) (m : Mem) :
    ∃ m', l.foldlM (fun m k => pmmSetupEntry (mmap k) occupied m) m = some m' := by
  induction l generalizing m with
  | nil => exact ⟨m, rfl⟩
  | cons k l ih =>
    obtain ⟨hk, hl⟩ := List.forall_mem_cons.mp h
    rw [List.foldlM_cons, pmmSetupEntry_eq _ hocc]
    by_cases ht : (mmap k).Taken
    · rw [if_pos ht, if_neg (hk ht)]
      exact ih hl _
    · rw [if_neg ht]
      exact ih hl _

/-! ## `pmm_init` -/

/-- `num_of_pages`. -/
def MultibootInfo.numOfPages (info : MultibootInfo) : ℕ :=
  u32 (info.memUpper.toNat + upperMemoryStart.toNat >>> 10) >>> 2

/-- The number of entries of the memory map. -/
def MultibootInfo.entries (info : MultibootInfo) : ℕ := info.mmapLength.toNat / 24

/-- `kernel_size`. -/
def kernelSize (kernelStart kernelEnd : ℕ) : ℕ := sub32 kernelEnd (u32 (kernelStart + kernelOffset))

/-- `total_size`. -/
def totalSize (info : MultibootInfo) (kernelStart kernelEnd : ℕ) : ℕ :=
  u32 (bitmapSize info.numOfPages + kernelSize kernelStart kernelEnd + kernelStart)

theorem testBit_ones (i : ℕ) : (255 : UInt8).toNat.testBit (i % 8) = true := by
  have : i % 8 < 8 := Nat.mod_lt _ (by decide)
  interval_cases i % 8 <;> rfl

/-- `pmm_init` returns: the flags are set and no loop runs for ever. -/
def Boots (info : MultibootInfo) : Prop :=
  info.flags.toNat.testBit 0 = true ∧ info.flags.toNat.testBit 6 = true ∧
    ∀ k < info.entries, (info.mmap k).Taken → (info.mmap k).lastPage ≠ bit32Max

theorem pmmInit_boots (h : Boots info) (kernelStart kernelEnd : ℕ) (mem : Mem) :
    ∃ s, pmmInit info kernelStart kernelEnd mem = some s := by
  obtain ⟨m', hm⟩ := foldlM_setup_isSome (u32_lt _ : totalSize info kernelStart kernelEnd < 2 ^ 32) info.mmap
    (l := List.range info.entries) (fun k hk => h.2.2 k (List.mem_range.mp hk))
    (fun b => if b < bitmapSize info.numOfPages then 0xFF else mem b)
  refine ⟨⟨m', info.numOfPages, 0⟩, ?_⟩
  simp only [pmmInit, pmmDetectUpperMemorySize, pmmDetectMmapPtr, if_pos h.1, if_pos h.2.1, Option.bind_eq_bind,
    Option.bind_some, Option.pure_def]
  exact (congrArg (Option.bind · _) hm).trans rfl

/-- **The bitmap after `pmm_init`.** -/
theorem pmmInit_clears (h : pmmInit info kernelStart kernelEnd mem = some s) :
    Boots info ∧ s.numOfPages = info.numOfPages ∧ ∀ i, getBit s.memBitmap i = false ↔
      (8 * bitmapSize info.numOfPages ≤ i ∧ getBit mem i = false) ∨
        ∃ k < info.entries, (info.mmap k).Clears (totalSize info kernelStart kernelEnd) i := by
  simp only [pmmInit, Option.bind_eq_bind, Option.pure_def] at h
  obtain ⟨upper, h₀, h⟩ := Option.bind_eq_some_iff.mp h
  obtain ⟨mmap, h₆, h⟩ := Option.bind_eq_some_iff.mp h
  obtain ⟨m', hm, hs⟩ := Option.bind_eq_some_iff.mp h
  obtain ⟨hf₀, hu⟩ := Option.ite_none_right_eq_some.mp h₀
  obtain ⟨hf₆, hmap⟩ := Option.ite_none_right_eq_some.mp h₆
  obtain rfl := Option.some.inj hu
  obtain rfl := Option.some.inj hmap
  obtain ⟨hret, hbits⟩ := foldlM_setup (u32_lt _) info.mmap hm
  obtain rfl := Option.some.inj hs
  refine ⟨⟨hf₀, hf₆, fun k hk => hret k (List.mem_range.mpr hk)⟩, rfl, fun i => ?_⟩
  refine (hbits i).trans (or_congr ?_ ?_)
  · change getBit (fun b => if b < bitmapSize info.numOfPages then 0xFF else mem b) i = false ↔ _
    unfold getBit
    beta_reduce
    by_cases hi : i / 8 < bitmapSize info.numOfPages
    · rw [if_pos hi, testBit_ones]
      exact ⟨nofun, fun hpast => absurd hpast.1 (by omega)⟩
    · rw [if_neg hi]
      exact (and_iff_right (by omega)).symm
  · simp only [List.mem_range]
    rfl

/-! ## Usable pages -/

/-- The addresses of a frame. -/
def frame (i : ℕ) : Set ℕ := Set.Ico (i * pageFrameSize) ((i + 1) * pageFrameSize)

/-- The physical addresses of the kernel image. -/
def kernelImage (kernelStart kernelEnd : ℕ) : Set ℕ :=
  Set.Ico kernelStart (kernelStart + kernelSize kernelStart kernelEnd)

/-- The physical addresses of the bitmap, one byte after the image. -/
def bitmapBytes (info : MultibootInfo) (kernelStart kernelEnd : ℕ) : Set ℕ :=
  Set.Ico (kernelStart + kernelSize kernelStart kernelEnd + 1)
    (kernelStart + kernelSize kernelStart kernelEnd + 1 + bitmapSize info.numOfPages)

/-- The frame lies inside an available entry at or above 1 MiB. -/
def InAvailable (info : MultibootInfo) (i : ℕ) : Prop :=
  ∃ k < info.entries, (info.mmap k).Taken ∧ frame i ⊆ (info.mmap k).bytes

/-- Addresses that must not be freed. -/
def Forbidden (info : MultibootInfo) (kernelStart kernelEnd : ℕ) : Set ℕ :=
  kernelImage kernelStart kernelEnd ∪ bitmapBytes info kernelStart kernelEnd ∪
    {b | ∃ k < info.entries, (info.mmap k).type ≠ multibootMemAvailable ∧ b ∈ (info.mmap k).bytes}

/-- A page that may be free: there is memory for it, all of it is available, and it has nothing of the
kernel image, of the bitmap or of a reserved entry. -/
structure UsablePage (info : MultibootInfo) (kernelStart kernelEnd i : ℕ) : Prop where
  below : i < info.numOfPages
  inside : InAvailable info i
  apart : Disjoint (frame i) (Forbidden info kernelStart kernelEnd)

/-- **Only usable memory is free**: a page index whose bit is clear is that of a usable page. -/
def OnlyUsable (info : MultibootInfo) (kernelStart kernelEnd : ℕ) (s : PmmState) : Prop :=
  ∀ i < 2 ^ 32, getBit s.memBitmap i = false → UsablePage info kernelStart kernelEnd i

/-- The memory behind the bitmap, before `pmm_init`: the bits of the pages for which there is no memory are set, and
those of the up to seven pages that are left over are set or those of usable pages. -/
structure SetBehind (info : MultibootInfo) (kernelStart kernelEnd : ℕ) (mem : Mem) : Prop where
  behind : ∀ i < 2 ^ 32, info.numOfPages ≤ i → getBit mem i = true
  rest : ∀ i < info.numOfPages, 8 * bitmapSize info.numOfPages ≤ i →
    getBit mem i = true ∨ UsablePage info kernelStart kernelEnd i

/-- What an entry that frees pages needs: the page of its start and its last two pages lie inside available
entries (past 16 TiB, where the indices wrap, so do the others), there is memory for the last one, and
the kernel image, the bitmap and the other entries end before the first one or start after the last. -/
structure FreesInside (info : MultibootInfo) (kernelStart kernelEnd : ℕ) (e : MbMmapEntry) : Prop where
  below : e.lastPage < info.numOfPages
  ends : ∀ i, e.Clears (totalSize info kernelStart kernelEnd) i →
    i = e.firstPage (totalSize info kernelStart kernelEnd) ∨ e.lastPage ≤ i + 1 ∨ 2 ^ 44 ≤ e.start →
      InAvailable info i
  image : e.Misses (totalSize info kernelStart kernelEnd) kernelStart
    (kernelStart + kernelSize kernelStart kernelEnd)
  bitmap : e.Misses (totalSize info kernelStart kernelEnd) (kernelStart + kernelSize kernelStart kernelEnd + 1)
    (kernelStart + kernelSize kernelStart kernelEnd + 1 + bitmapSize info.numOfPages)
  reserved : ∀ j < info.entries, (info.mmap j).type ≠ multibootMemAvailable →
    e.Misses (totalSize info kernelStart kernelEnd) (info.mmap j).start
      ((info.mmap j).start + (info.mmap j).length)

theorem OnlyUsable.usable (h : OnlyUsable info kernelStart kernelEnd s)
    (hs : pmmInit info kernelStart kernelEnd mem = some s) {k : ℕ}
    (hk : k < info.entries) (hc : (info.mmap k).Clears (totalSize info kernelStart kernelEnd) i) :
    UsablePage info kernelStart kernelEnd i :=
  h i (hc.2.2.trans_lt (u32_lt _)) (((pmmInit_clears hs).2.2 i).mpr (.inr ⟨k, hk, hc⟩))

theorem disjoint_freed_iff {low high : ℕ} (hle : e.firstPage occupied ≤ e.lastPage) :
    Disjoint (e.freed occupied) (Set.Ico low high) ↔ e.Misses occupied low high := by
  unfold MbMmapEntry.freed MbMmapEntry.Misses pageFrameSize
  rw [Set.Ico_disjoint_Ico]
  omega

theorem disjoint_forbidden_iff (hle : e.firstPage occupied ≤ e.lastPage) :
    Disjoint (e.freed occupied) (Forbidden info kernelStart kernelEnd) ↔
      e.Misses occupied kernelStart (kernelStart + kernelSize kernelStart kernelEnd) ∧
      e.Misses occupied (kernelStart + kernelSize kernelStart kernelEnd + 1)
        (kernelStart + kernelSize kernelStart kernelEnd + 1 + bitmapSize info.numOfPages) ∧
      ∀ j < info.entries, (info.mmap j).type ≠ multibootMemAvailable →
        e.Misses occupied (info.mmap j).start ((info.mmap j).start + (info.mmap j).length) := by
  rw [Forbidden, Set.disjoint_union_right, Set.disjoint_union_right, kernelImage, bitmapBytes,
    disjoint_freed_iff hle, disjoint_freed_iff hle, and_assoc]
  refine and_congr_right fun _ => and_congr_right fun _ => ?_
  constructor
  · intro hdis j hj htype
    refine (disjoint_freed_iff hle).mp (hdis.mono_right fun b hb => ?_)
    exact ⟨j, hj, htype, hb⟩
  · intro hmiss
    refine Set.disjoint_left.mpr fun b hfreed hb => ?_
    obtain ⟨j, hj, htype, hin⟩ := hb
    exact Set.disjoint_left.mp ((disjoint_freed_iff hle).mpr (hmiss j hj htype)) hfreed hin

theorem frame_subset_of_middle (htot : occupied < 2 ^ 32) (hs : e.start < 2 ^ 44)
    (hfirst : e.firstPage occupied < i) (hlast : i + 1 < e.lastPage) : frame i ⊆ e.bytes := by
  have hmod : (e.start + e.length) % 2 ^ 64 ≤ e.start + e.length := Nat.mod_le _ _
  have hl : e.lastPage ≤ (e.start + e.length) % 2 ^ 64 / 4096 + 1 := Nat.mod_le _ _
  have hf : e.start < (e.firstPage occupied + 1) * 4096 := by
    unfold MbMmapEntry.firstPage pageFrameSize
    by_cases hc : e.start = upperMemoryStart.toNat
    · have hup : e.start = 0x100000 := hc.trans upperMemoryStart_toNat
      rw [if_pos hc, u32_of_lt (by omega)]
      omega
    · rw [if_neg hc, u32_of_lt (by omega)]
      omega
  refine Set.Ico_subset_Ico ?_ ?_
  · unfold pageFrameSize
    omega
  · unfold pageFrameSize
    omega

theorem mem_freed_iff {b : ℕ} (ht : e.Taken) : b ∈ e.freed occupied ↔ e.Clears occupied (b / pageFrameSize) := by
  unfold MbMmapEntry.freed MbMmapEntry.Clears pageFrameSize
  rw [Set.mem_Ico, and_iff_right ht]
  omega

theorem mem_frame_div (b : ℕ) : b ∈ frame (b / pageFrameSize) := by
  unfold frame pageFrameSize
  rw [Set.mem_Ico]
  omega

theorem eight_mul_bitmapSize_le (n : ℕ) : 8 * bitmapSize n ≤ n := by
  rw [bitmapSize, Nat.shiftRight_eq_div_pow]
  omega

theorem numOfPages_lt (info : MultibootInfo) : info.numOfPages < 2 ^ 32 := by
  rw [MultibootInfo.numOfPages, Nat.shiftRight_eq_div_pow]
  exact (Nat.div_le_self _ _).trans_lt (u32_lt _)

/-- **The condition.** -/
theorem onlyUsable_iff (h : pmmInit info kernelStart kernelEnd mem = some s) :
    OnlyUsable info kernelStart kernelEnd s ↔ SetBehind info kernelStart kernelEnd mem ∧
      ∀ k < info.entries, (info.mmap k).Taken →
        (info.mmap k).firstPage (totalSize info kernelStart kernelEnd) ≤ (info.mmap k).lastPage →
          FreesInside info kernelStart kernelEnd (info.mmap k) := by
  have hbits := (pmmInit_clears h).2.2
  constructor
  · intro honly
    refine ⟨⟨fun i hi hpast => ?_, fun i hi hpast => ?_⟩, fun k hk ht hle => ?_⟩
    · by_contra hold
      rw [Bool.not_eq_true] at hold
      have hle : 8 * bitmapSize info.numOfPages ≤ i := (eight_mul_bitmapSize_le _).trans hpast
      have husable := honly i hi ((hbits i).mpr (.inl ⟨hle, hold⟩))
      exact absurd husable.below (not_lt.mpr hpast)
    · by_cases hold : getBit mem i = true
      · exact .inl hold
      · rw [Bool.not_eq_true] at hold
        exact .inr (honly i (hi.trans (numOfPages_lt info)) ((hbits i).mpr (.inl ⟨hpast, hold⟩)))
    · have hapart : Disjoint ((info.mmap k).freed (totalSize info kernelStart kernelEnd))
          (Forbidden info kernelStart kernelEnd) := by
        refine Set.disjoint_left.mpr fun b hfreed => ?_
        exact Set.disjoint_left.mp (honly.usable h hk ((mem_freed_iff ht).mp hfreed)).apart (mem_frame_div b)
      obtain ⟨himage, hbitmap, hreserved⟩ := (disjoint_forbidden_iff hle).mp hapart
      exact ⟨(honly.usable h hk ⟨ht, hle, le_rfl⟩).below, fun i hc _ => (honly.usable h hk hc).inside, himage,
        hbitmap, hreserved⟩
  · rintro ⟨hbehind, hcond⟩ i hi hclear
    rcases (hbits i).mp hclear with ⟨hpast, hold⟩ | ⟨k, hk, hc⟩
    · by_cases hlt : i < info.numOfPages
      · refine (hbehind.rest i hlt hpast).resolve_left fun hset => ?_
        rw [hset] at hold
        cases hold
      · rw [hbehind.behind i hi (Nat.le_of_not_lt hlt)] at hold
        cases hold
    have hle := hc.2.1.trans hc.2.2
    have hin := hcond k hk hc.1 hle
    have hapart := (disjoint_forbidden_iff hle).mpr ⟨hin.image, hin.bitmap, hin.reserved⟩
    refine ⟨hc.2.2.trans_lt hin.below, ?_, hapart.mono_left ?_⟩
    · by_cases hends : i = (info.mmap k).firstPage (totalSize info kernelStart kernelEnd) ∨
          (info.mmap k).lastPage ≤ i + 1 ∨ 2 ^ 44 ≤ (info.mmap k).start
      · exact hin.ends i hc hends
      · rw [not_or, not_or] at hends
        exact ⟨k, hk, hc.1, frame_subset_of_middle (u32_lt _) (Nat.lt_of_not_le hends.2.2)
          (lt_of_le_of_ne hc.2.1 (Ne.symm hends.1)) (Nat.lt_of_not_le hends.2.1)⟩
    · exact Set.Ico_subset_Ico (Nat.mul_le_mul_right _ hc.2.1)
        (Nat.mul_le_mul_right _ (Nat.succ_le_succ hc.2.2))

/-- **A boot that frees anything frees too much**: if the available entries end below 8 TiB and none is
used up by the occupied prefix, the last one frees two pages past its end. -/
theorem not_onlyUsable (hs : pmmInit info kernelStart kernelEnd mem = some s)
    (hlow : ∀ k < info.entries, (info.mmap k).start + (info.mmap k).length ≤ 2 ^ 43)
    (hfrees : ∀ k < info.entries, (info.mmap k).Taken →
      (info.mmap k).firstPage (totalSize info kernelStart kernelEnd) ≤ (info.mmap k).lastPage)
    (hsome : ∃ k < info.entries, (info.mmap k).Taken) : ¬ OnlyUsable info kernelStart kernelEnd s := by
  intro honly
  obtain ⟨k₀, hk₀, ht₀⟩ := hsome
  obtain ⟨k, hk, hmax⟩ := Finset.exists_max_image ((Finset.range info.entries).filter fun k => (info.mmap k).Taken)
    (fun k => (info.mmap k).start + (info.mmap k).length)
    ⟨k₀, Finset.mem_filter.mpr ⟨Finset.mem_range.mpr hk₀, ht₀⟩⟩
  obtain ⟨hk, ht⟩ := Finset.mem_filter.mp hk
  have hk := Finset.mem_range.mp hk
  obtain ⟨j, hj, htj, hin⟩ := (honly.usable hs hk ⟨ht, hfrees k hk ht, le_rfl⟩).inside
  have hend := hmax j (Finset.mem_filter.mpr ⟨Finset.mem_range.mpr hj, htj⟩)
  have hle := hlow k hk
  have hlast : (info.mmap k).lastPage = ((info.mmap k).start + (info.mmap k).length) / 4096 + 1 := by
    unfold MbMmapEntry.lastPage pageFrameSize
    rw [Nat.mod_eq_of_lt (show (info.mmap k).start + (info.mmap k).length < 2 ^ 64 by omega)]
    exact u32_of_lt (by omega)
  -- the first address of the last page is past the end of every entry
  have hmem : (info.mmap k).lastPage * pageFrameSize ∈ (info.mmap j).bytes :=
    hin ⟨le_rfl, Nat.mul_lt_mul_of_pos_right (Nat.lt_succ_self _) (by decide)⟩
  have hlt : (info.mmap k).lastPage * 4096 < (info.mmap j).start + (info.mmap j).length := hmem.2
  omega

/-- The memory map of a machine with 128 MiB: the last 128 KiB are reserved. -/
def qemuInfo : MultibootInfo :=
  ⟨65, 129920, 144, fun k =>
    [⟨0, 0, 0x9FC00, 0, 1⟩, ⟨0x9FC00, 0, 0x400, 0, 2⟩, ⟨0xF0000, 0, 0x10000, 0, 2⟩,
      ⟨0x100000, 0, 0x7EE0000, 0, 1⟩, ⟨0x7FE0000, 0, 0x20000, 0, 2⟩].getD k ⟨0xFFFC0000, 0, 0x40000, 0, 2⟩⟩

theorem qemuInfo_boots : Boots qemuInfo := ⟨by decide, by decide, by decide +kernel⟩

theorem onlyUsable_iff_qemu : ∃ s, pmmInit qemuInfo 0x100000 0xC0120000 (fun _ => 0xFF) = some s ∧
    (OnlyUsable qemuInfo 0x100000 0xC0120000 s ↔ SetBehind qemuInfo 0x100000 0xC0120000 (fun _ => 0xFF) ∧
      ∀ k < qemuInfo.entries, (qemuInfo.mmap k).Taken →
        (qemuInfo.mmap k).firstPage (totalSize qemuInfo 0x100000 0xC0120000) ≤ (qemuInfo.mmap k).lastPage →
          FreesInside qemuInfo 0x100000 0xC0120000 (qemuInfo.mmap k)) := by
  obtain ⟨s, hs⟩ := pmmInit_boots qemuInfo_boots 0x100000 0xC0120000 fun _ => 0xFF
  exact ⟨s, hs, onlyUsable_iff hs⟩

/-- **Two reserved pages are marked free** on that machine, past the end of the bitmap. -/
theorem qemu_frees_reserved : ∃ s, pmmInit qemuInfo 0x100000 0xC0120000 (fun _ => 0xFF) = some s ∧
    getBit s.memBitmap 0x7FE0 = false ∧ getBit s.memBitmap 0x7FE1 = false ∧ s.numOfPages = 0x7FE0 ∧
      ¬ OnlyUsable qemuInfo 0x100000 0xC0120000 s := by
  have htaken : (qemuInfo.mmap 3).Taken := ⟨by decide, rfl⟩
  have hfirst : (qemuInfo.mmap 3).firstPage (totalSize qemuInfo 0x100000 0xC0120000) ≤ 0x7FE0 := by decide +kernel
  have hlast : (qemuInfo.mmap 3).lastPage = 0x7FE1 := by decide +kernel
  have hpages : qemuInfo.numOfPages = 0x7FE0 := by decide +kernel
  obtain ⟨s, hs⟩ := pmmInit_boots qemuInfo_boots 0x100000 0xC0120000 fun _ => 0xFF
  obtain ⟨-, hn, hbits⟩ := pmmInit_clears hs
  have hclear : ∀ i, 0x7FE0 ≤ i → i ≤ 0x7FE1 → getBit s.memBitmap i = false := fun i hlow hhigh =>
    (hbits i).mpr (.inr ⟨3, by decide, htaken, hfirst.trans hlow, hlast ▸ hhigh⟩)
  have hfree := hclear 0x7FE0 le_rfl (by decide)
  refine ⟨s, hs, hfree, hclear 0x7FE1 (by decide) le_rfl, hn.trans hpages, fun honly => ?_⟩
  have hbelow := (honly 0x7FE0 (by decide) hfree).below
  rw [hpages] at hbelow
  exact absurd hbelow (lt_irrefl _)

end BulbOS.Pmm
