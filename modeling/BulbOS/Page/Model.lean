import BulbOS.Pmm.Model

/-!
# Page tables (`kernel/memory/page.c`)

Physical memory is a family of page frames of 1024 entries. The last entry of the page directory is the
directory itself, so the code reaches page table `d` at the virtual address `RECURSIVE_INDEX(d)`: a
pointer to a table is the frame that the MMU finds for it in the current state. `page_dir` is the loaded
directory in every call. The MMU reads the entries at every access, and its cache is left out.

`none` is a call of `pmm_alloc` or a loop that does not end. A call of `page_get_pt` with `PAGE_ALLOC` that returns
does not return `NULL`.
-/

namespace BulbOS.Page

open KLib Pmm

/-- `NUM_OF_ENTRIES`. -/
def numOfEntries : ℕ := 1024

/-- `PAGE_MEMORY`. -/
def pageMemory : ℕ := numOfEntries * pageFrameSize

/-- `PD_PRESENT | PD_READ_WRITE | PD_USER`, the same bits as those of a page table entry. -/
def presentReadWriteUser : ℕ := 1 ||| 2 ||| 4

/-- `alloc_flag_t`. -/
inductive AllocFlag
  | noAlloc
  | pageAlloc
  deriving DecidableEq

/-- The allocator, the entries of the frame at each physical address, and the frame of the directory. -/
structure Paging where
  pmm : PmmState
  frames : ℕ → ℕ → ℕ
  dir : ℕ

def pageGetPtIndex (addr : ℕ) : ℕ := addr >>> 12 &&& 0x3FF

def pageGetPdIndex (addr : ℕ) : ℕ := addr >>> 22

/-- `PD_PRESENT` is set. -/
def Present (entry : ℕ) : Prop := entry % 2 = 1

instance (entry : ℕ) : Decidable (Present entry) := inferInstanceAs (Decidable (_ = _))

/-- `entry & 0xFFFFF000`. -/
def entryBase (entry : ℕ) : ℕ := entry / pageFrameSize * pageFrameSize

/-- `page_dir[d]`. -/
def Paging.pdEntry (s : Paging) (d : ℕ) : ℕ := s.frames s.dir d

/-- The frame that the MMU finds at `RECURSIVE_INDEX(d)`. -/
def Paging.window (s : Paging) (d : ℕ) : ℕ :=
  entryBase (s.frames (entryBase (s.pdEntry (numOfEntries - 1))) d)

/-- Entry `i` of the frame at `frame` becomes `v`. -/
def Paging.write (s : Paging) (frame i v : ℕ) : Paging :=
  { s with frames := Function.update s.frames frame (Function.update (s.frames frame) i v) }

/-- `memset(page_table, 0, PAGE_FRAME_SIZE)`. -/
def Paging.clear (s : Paging) (frame : ℕ) : Paging :=
  { s with frames := Function.update s.frames frame fun _ => 0 }

def pdAddTable (s : Paging) (d pageEntry : ℕ) : Paging := s.write s.dir d (pageEntry ||| presentReadWriteUser)

def ptAddEntry (s : Paging) (frame i page : ℕ) : Paging := s.write frame i (page ||| presentReadWriteUser)

/-- The index of the table, or `NULL`. -/
def pageGetPt (s : Paging) (addr : ℕ) (allocFlag : AllocFlag) : Option (Option ℕ × Paging) :=
  let pdIndex := pageGetPdIndex addr
  if Present (s.pdEntry pdIndex) then some (some pdIndex, s)
  else if allocFlag = .noAlloc then some (none, s)
  else do
    let (ptr, pmm, _) ← pmmAlloc s.pmm
    let s := pdAddTable { s with pmm := pmm } pdIndex ptr
    return (some pdIndex, s.clear (s.window pdIndex))

/-- The index of the table and of the entry, or `NULL`. `page_get_pt` always gets `PAGE_ALLOC`. -/
def pageGetPtEntry (s : Paging) (addr : ℕ) (allocFlag : AllocFlag) : Option (Option (ℕ × ℕ) × Paging) := do
  let ptIndex := pageGetPtIndex addr
  let (table, s) ← pageGetPt s addr .pageAlloc
  let d ← table
  if Present (s.frames (s.window d) ptIndex) then return (some (d, ptIndex), s)
  else if allocFlag = .noAlloc then return (none, s)
  else
    let (ptr, pmm, _) ← pmmAlloc s.pmm
    let s := { s with pmm := pmm }
    return (some (d, ptIndex), ptAddEntry s (s.window d) ptIndex ptr)

/-- The address, or `none` when a `NULL` entry is dereferenced. -/
def pageGetPhysAddr (s : Paging) (addr : ℕ) : Option (Option ℕ × Paging) := do
  let (ptEntry, s) ← pageGetPtEntry s addr .noAlloc
  return (ptEntry.map fun (d, i) => entryBase (s.frames (s.window d) i) ||| addr &&& 0xFFF, s)

/-- `RECURSIVE_INDEX`. -/
def recursiveIndex (d : ℕ) : ℕ := 0xFFC00000 + d * pageFrameSize

/-- The loop of `page_identity_pte`: `entry` and `lastEntry` are pointers of 32 bits into `pageTable`, which leads to
`frame`. -/
def identityPteLoop (pageTable : ℕ) (frame : Paging → ℕ) (lastEntry : ℕ) : ℕ → Paging → ℕ → ℕ → Option Paging
  | 0, _, _, _ => none
  | fuel + 1, s, entry, addr =>
    if entry ≤ lastEntry then
      identityPteLoop pageTable frame lastEntry fuel
        (ptAddEntry s (frame s) (sub32 entry pageTable / 4) (u32 addr)) (u32 (entry + 4)) (addr + pageFrameSize)
    else some s

/-- The table has 1024 entries; a loop that goes on behind them does not end. -/
def pageIdentityPte (s : Paging) (pageTable : ℕ) (frame : Paging → ℕ) (addr size : ℕ) : Option Paging :=
  let entry := pageTable + 4 * pageGetPtIndex addr
  let lastEntry := pageTable + 4 * pageGetPtIndex (u32 (addr + size))
  identityPteLoop pageTable frame lastEntry (numOfEntries + 1) s entry addr

/-- The loop of `page_identity_map`. -/
def pageIdentityLoop (endAddr : ℕ) : ℕ → Paging → ℕ → ℕ → Option Paging
  | 0, _, _, _ => none
  | fuel + 1, s, addr, size =>
    if addr < endAddr then do
      let (table, s) ← pageGetPt s addr .pageAlloc
      let d ← table
      let maxSize := pageMemory - (addr &&& 0xFFF)
      let pageSize := if size > maxSize then maxSize else size
      let s ← pageIdentityPte s (recursiveIndex d) (·.window d) addr pageSize
      pageIdentityLoop endAddr fuel s (u32 (addr + pageSize)) (sub32 size pageSize)
    else some s

/-- The loop makes at most 1025 rounds. -/
def pageIdentityMap (s : Paging) (addr size : ℕ) : Option Paging :=
  pageIdentityLoop (u32 (addr + size)) 1026 s addr size

/-- `page_table1` is the address of the static table, in the kernel. -/
def pageInit (s : Paging) (pageTable1 : ℕ) : Option Paging :=
  let s := pdAddTable s (numOfEntries - 1) s.dir
  let s := pdAddTable s 0 (pageTable1 - kernelOffset)
  pageIdentityPte s pageTable1 (fun _ => pageTable1 - kernelOffset) 0 upperMemoryStart.toNat

end BulbOS.Page
