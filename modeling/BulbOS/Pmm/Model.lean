import BulbOS.Lib.Bits

/-!
# The physical page allocator (`kernel/memory/pmm.c`)

One bit of `mem_bitmap` for each page frame, set when the frame is used. `memBitmap` is the memory
from `mem_bitmap` on, with what follows the bitmap: nothing in the code stops at its end, so the
searches also return the offsets of the bytes they read. The loops get more steps than there are
pages; `none` is a call that does not return (it loops for ever, divides by zero or aborts).
-/

namespace BulbOS.Pmm

open KLib

/-- `PAGE_FRAME_SIZE`. -/
def pageFrameSize : ℕ := 4096

/-- `BIT32_MAX`. -/
def bit32Max : ℕ := 2 ^ 32 - 1

/-- `UPPER_MEMORY_START`. -/
def upperMemoryStart : UInt64 := 0x100000

/-- `KERNEL_OFFSET`. -/
def kernelOffset : ℕ := 0xC0000000

/-- `mb_mmap_entry_t`. -/
structure MbMmapEntry where
  addrLow : UInt32
  addrHigh : UInt32
  lenLow : UInt32
  lenHigh : UInt32
  type : UInt32

/-- `MULTIBOOT_MEM_AVAILABLE`. -/
def multibootMemAvailable : UInt32 := 1

/-- What `pmm.c` reads of `multiboot_info_t`, and the memory map at `mmap_addr`. -/
structure MultibootInfo where
  flags : UInt32
  memUpper : UInt32
  mmapLength : UInt32
  mmap : ℕ → MbMmapEntry

/-- The statics of `pmm.c`, and `last_alloc` of `pmm_alloc`. -/
structure PmmState where
  memBitmap : Mem
  numOfPages : ℕ
  lastAlloc : ℕ

/-! ## Boot -/

/-- `MULTIBOOT_INFO_MEMORY` has to be set. -/
def pmmDetectUpperMemorySize (info : MultibootInfo) : Option ℕ :=
  if info.flags.toNat.testBit 0 then some info.memUpper.toNat else none

/-- `MULTIBOOT_INFO_MEM_MAP` has to be set. -/
def pmmDetectMmapPtr (info : MultibootInfo) : Option (ℕ → MbMmapEntry) :=
  if info.flags.toNat.testBit 6 then some info.mmap else none

/-- Clear the bits `bit, …, last`. -/
def clearBits (m : Mem) (bit last : ℕ) : Mem :=
  (List.range (last + 1 - bit)).foldl (fun m i => clearBit m (bit + i)) m

/-- One round of the loop of `pmm_setup_bitmap`; with `end` the largest 32-bit number its inner loop
does not end. -/
def pmmSetupEntry (e : MbMmapEntry) (occupiedSize : ℕ) (m : Mem) : Option Mem :=
  let addr := e.addrLow.toUInt64 + e.addrHigh.toUInt64 <<< 32
  let size := e.lenLow.toUInt64 + e.lenHigh.toUInt64 <<< 32
  if addr < upperMemoryStart then some m
  else if e.type ≠ multibootMemAvailable then some m
  else
    let occupied := UInt64.ofNat occupiedSize
    let addr' := if addr = upperMemoryStart then addr + occupied else addr
    let size' := if addr = upperMemoryStart then size - occupied else size
    let bit := u32 (addr'.toNat / pageFrameSize)
    let last := u32 ((addr' + size').toNat / pageFrameSize + 1)
    if last = bit32Max then none else some (clearBits m bit last)

/-- The entries are 24 bytes long. -/
def pmmSetupBitmap (info : MultibootInfo) (mmap : ℕ → MbMmapEntry) (occupiedSize : ℕ) (m : Mem) :
    Option Mem :=
  (List.range (info.mmapLength.toNat / 24)).foldlM (fun m i => pmmSetupEntry (mmap i) occupiedSize m) m

/-- `bitmap_size`. -/
def bitmapSize (numOfPages : ℕ) : ℕ := numOfPages >>> 3

/-- `mem` is the memory after the kernel image. -/
def pmmInit (info : MultibootInfo) (kernelStart kernelEnd : ℕ) (mem : Mem) : Option PmmState := do
  let upper ← pmmDetectUpperMemorySize info
  let memorySize := u32 (upper + upperMemoryStart.toNat >>> 10)
  let numOfPages := memorySize >>> 2
  let kernelSize := sub32 kernelEnd (u32 (kernelStart + kernelOffset))
  let totalSize := u32 (bitmapSize numOfPages + kernelSize + kernelStart)
  let m := fun b => if b < bitmapSize numOfPages then 0xFF else mem b
  let mmap ← pmmDetectMmapPtr info
  let m ← pmmSetupBitmap info mmap totalSize m
  return ⟨m, numOfPages, 0⟩

/-! ## Allocation -/

/-- The new `*last_allocated`. -/
def pmmAdd (numOfPages lastAllocated value : ℕ) : Option ℕ :=
  if numOfPages = 0 then none else some (u32 (lastAllocated + value) % numOfPages)

/-- The offset of the word that `pmm_get_dword` points to. -/
def pmmGetDword (pageIndex : ℕ) : ℕ := 4 * (pageIndex / 32)

/-- The bytes of that word. -/
def dwordBytes (pageIndex : ℕ) : List ℕ := (List.range 4).map (pmmGetDword pageIndex + ·)

/-- The first loop of `pmm_search_free_page`: the index whose word has a free page, or `none` when it
is back at `start`; and the bytes read. -/
def pmmSearchDword (s : PmmState) (start : ℕ) : ℕ → ℕ → Option (Option ℕ × List ℕ)
  | 0, _ => none
  | fuel + 1, lastAlloc =>
    if load32 s.memBitmap (pmmGetDword lastAlloc) = bit32Max then do
      let next ← pmmAdd s.numOfPages lastAlloc 32
      if next = start then return (none, dwordBytes lastAlloc)
      else
        let (found, reads) ← pmmSearchDword s start fuel next
        return (found, dwordBytes lastAlloc ++ reads)
    else some (some lastAlloc, dwordBytes lastAlloc)

/-- The second loop: the first index from `lastAlloc` on whose bit is clear. -/
def pmmSearchBit (s : PmmState) : ℕ → ℕ → Option (ℕ × List ℕ)
  | 0, _ => none
  | fuel + 1, lastAlloc =>
    if getBit s.memBitmap lastAlloc then do
      let next ← pmmAdd s.numOfPages lastAlloc 1
      let (found, reads) ← pmmSearchBit s fuel next
      return (found, lastAlloc / 8 :: reads)
    else some (lastAlloc, [lastAlloc / 8])

def pmmSearchFreePage (s : PmmState) (lastAlloc : ℕ) : Option (ℕ × List ℕ) := do
  let (found, reads) ← pmmSearchDword s lastAlloc (s.numOfPages + 2) lastAlloc
  match found with
  | none => return (bit32Max, reads)
  | some lastAlloc =>
    let (lastAlloc, reads') ← pmmSearchBit s (s.numOfPages + 2) lastAlloc
    return (lastAlloc, reads ++ reads')

/-- The pointer returned, the new state and the bytes read. -/
def pmmAlloc (s : PmmState) : Option (ℕ × PmmState × List ℕ) := do
  let (lastAlloc, reads) ← pmmSearchFreePage s s.lastAlloc
  if lastAlloc = bit32Max then return (0, { s with lastAlloc := lastAlloc }, reads)
  else
    return (u32 (lastAlloc * pageFrameSize),
      { s with lastAlloc := lastAlloc, memBitmap := setBit s.memBitmap lastAlloc }, reads)

def pmmFree (s : PmmState) (page : ℕ) : PmmState :=
  { s with memBitmap := clearBit s.memBitmap (page / pageFrameSize) }

end BulbOS.Pmm
