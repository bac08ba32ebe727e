import BulbOS.Lib.Bits

/-!
# The ext2 filesystem (`kernel/fs/filesystem.c`)

A disk is a function from block numbers to bytes, and `bio_read`, `bio_write` and `bio_release` are
coherent access to it: a buffer that was read is a copy of its block, and `ext2_write_block` puts the
`BLOCK_SIZE` bytes of the buffer back. Bytes of a buffer from `BLOCK_SIZE` on are whatever lies behind
it in memory.

* `ext2Alloc`, `ext2Free`: the bitmaps;
* `ext2Indblock`, `ext2GetIblock`: the block of a file;
* `ext2InodeUpdate`, `ext2InodeGet`: the inode table;
* `ext2ReadContent`, `ext2WriteContent`: the contents of a file;
* `ext2IndTrunc`, `ext2Truncate`: truncation.
-/

namespace BulbOS.Ext2

open KLib

/-- What the code reads of `ext2_sblock_t`. -/
structure Sblock where
  totalBlocks : ℕ
  logBlockSize : ℕ
  blocksPg : ℕ
  inodesPerGroup : ℕ
  inodeSize : ℕ

/-- What the code reads of `ext2_bgd_t`. -/
structure Bgd where
  blockBitmap : ℕ
  inodeBitmap : ℕ
  inodeTable : ℕ

/-- The superblock, the group descriptors and the disks, by device and block. -/
structure Fs where
  sblock : Sblock
  bgDescrs : ℕ → Bgd
  disk : ℕ → ℕ → Mem

/-- What `filesystem.c` uses of `inode_t`. -/
structure Inode where
  device : ℕ
  n : ℕ
  mode : ℕ
  hardLinksCount : ℕ
  size : ℕ
  lastAccessTime : ℕ
  creationTime : ℕ
  lastModifyTime : ℕ
  deletionTime : ℕ
  sectors : ℕ
  blocks : ℕ → ℕ

/-- Why a call does not return: a message before an `abort`, an `abort` without one, a division by
zero, or a loop that does not end. -/
inductive Stop
  | cantAlloc
  | freeingFreeBlock
  | abort
  | divideError
  | diverges
  deriving DecidableEq, Repr

/-- `BLOCK_SIZE`. -/
def Fs.blockSize (s : Fs) : ℕ := 1024 <<< s.sblock.logBlockSize

/-- `INODE_BLOCKS_COUNT`. -/
def inodeBlocksCount : ℕ := 15

/-- `DIRECT_BLOCKS`. -/
def directBlocks : ℕ := 12

/-- `PTR_ENTRY_BLOCKS`, which is `IND1_PTR_BLOCKS`. -/
def ptrEntryBlocks : ℕ := 1024 / 4

/-- `IND2_PTR_BLOCKS`. -/
def ind2PtrBlocks : ℕ := ptrEntryBlocks * ptrEntryBlocks

/-- `IND3_PTR_BLOCKS`. -/
def ind3PtrBlocks : ℕ := ind2PtrBlocks * ptrEntryBlocks

def ind1Idx : ℕ := 12
def ind2Idx : ℕ := 13
def ind3Idx : ℕ := 14

def ind1Limit : ℕ := directBlocks + ptrEntryBlocks
def ind2Limit : ℕ := ind1Limit + ind2PtrBlocks
def ind3Limit : ℕ := ind2Limit + ind3PtrBlocks

/-- `MAX_FILE_SIZE`, a product of unsigned 32-bit values. -/
def maxFileSize : ℕ := u32 ((ind3PtrBlocks + ind2PtrBlocks + ptrEntryBlocks + directBlocks) * 1024)

/-! ## Blocks -/

def ext2ReadBlock (s : Fs) (device block : ℕ) : Mem := s.disk device block

/-- The buffer of a block is written. -/
def ext2WriteBlock (s : Fs) (device block : ℕ) (buffer : Mem) : Fs :=
  { s with
    disk := Function.update s.disk device (Function.update (s.disk device) block fun x =>
      if x < s.blockSize then buffer x else s.disk device block x) }

def ext2ZeroBlock (s : Fs) (device block : ℕ) : Fs := ext2WriteBlock s device block fun _ => 0

/-! ## Bitmaps -/

/-- `last_allocs` of `ext2_alloc`, which nothing changes. -/
def lastAllocs (k : ℕ) : ℕ := if k < 4 then 0 else 11

/-- The `for` loop of `ext2_alloc`: the first clear bit from `j` on. -/
def ext2AllocScan (s : Fs) (bitmap : Mem) (i : ℕ) : ℕ → ℕ → Option ℕ
  | 0, _ => none
  | fuel + 1, j =>
    if j < s.sblock.blocksPg ∧ u32 (i + j) < s.sblock.totalBlocks then
      if getBit bitmap j then ext2AllocScan s bitmap i fuel (j + 1) else some j
    else none

/-- The `do` loop of `ext2_alloc`. -/
def ext2AllocLoop (s : Fs) (device : ℕ) (isInode : Bool) : ℕ → ℕ → Except Stop (ℕ × Fs)
  | 0, _ => .error .diverges
  | fuel + 1, i =>
    let bgDescr := s.bgDescrs i
    let bitmapIdx := if isInode then bgDescr.inodeBitmap else bgDescr.blockBitmap
    let bitmap := ext2ReadBlock s device bitmapIdx
    match ext2AllocScan s bitmap i s.sblock.blocksPg i with
    | some j =>
      let s := ext2WriteBlock s device bitmapIdx (setBit bitmap j)
      let s := ext2ZeroBlock s device (u32 (i + j))
      .ok (u32 (i + j), s)
    | none =>
      if s.sblock.blocksPg = 0 ∨ s.sblock.totalBlocks = 0 then .error .divideError
      else
        let i := u32 (u32 (i / s.sblock.blocksPg + 1) * s.sblock.blocksPg) % s.sblock.totalBlocks
        if i = lastAllocs device then .error .cantAlloc
        else ext2AllocLoop s device isInode fuel i

/-- The loop visits starts of groups only, so after `2 ^ 32` rounds it repeats itself. -/
def ext2Alloc (s : Fs) (device : ℕ) (isInode : Bool) : Except Stop (ℕ × Fs) :=
  ext2AllocLoop s device isInode (2 ^ 32) (lastAllocs (device + if isInode then 4 else 0))

def ext2BlockAlloc (s : Fs) (device : ℕ) : Except Stop (ℕ × Fs) := ext2Alloc s device false

def ext2InodeAlloc (s : Fs) (device : ℕ) : Except Stop (ℕ × Fs) := ext2Alloc s device true

def ext2Free (s : Fs) (device n : ℕ) (isInode : Bool) : Except Stop Fs :=
  if s.sblock.blocksPg = 0 then .error .divideError
  else
    let bgDescr := s.bgDescrs (n / s.sblock.blocksPg)
    let bitmapIdx := if isInode then bgDescr.inodeBitmap else bgDescr.blockBitmap
    let bitmap := ext2ReadBlock s device bitmapIdx
    let idx := n % s.sblock.blocksPg
    if getBit bitmap idx = false then .error .freeingFreeBlock
    else .ok (ext2WriteBlock s device bitmapIdx (clearBit bitmap idx))

def ext2BlockFree (s : Fs) (device block : ℕ) : Except Stop Fs := ext2Free s device block false

def ext2InodeFree (s : Fs) (device inode : ℕ) : Except Stop Fs := ext2Free s device inode true

/-! ## The blocks of a file -/

def ext2GetDiv : ℕ → Except Stop ℕ
  | 0 => .ok 1
  | 1 => .ok ptrEntryBlocks
  | 2 => .ok ind2PtrBlocks
  | _ => .error .abort

/-- The entry of `ind` for a block and the index below it; a missing entry is filled. -/
def indEntry (s : Fs) (device : ℕ) (ind : Mem) (idx times : ℕ) : Except Stop (ℕ × ℕ × Mem × Fs) := do
  let div ← ext2GetDiv times
  let rIdx := idx / div
  let nIdx := idx % div
  if load32 ind (4 * rIdx) = 0 then do
    let (block, s) ← ext2BlockAlloc s device
    return (block, nIdx, store32 ind (4 * rIdx) block, s)
  else return (load32 ind (4 * rIdx), nIdx, ind, s)

/-- The block, and `ind` after the call. The source's test of a missing entry in `block` is of the
address of the buffer, which is not null. -/
def ext2Indblock (device : ℕ) : ℕ → Mem → ℕ → Fs → Except Stop (ℕ × Mem × Fs)
  | 0, ind, idx, s => do
    let (b, nIdx, ind, s) ← indEntry s device ind idx 0
    let block := ext2ReadBlock s device b
    return (load32 block (4 * nIdx), ind, ext2WriteBlock s device b block)
  | times + 1, ind, idx, s => do
    let (b, nIdx, ind, s) ← indEntry s device ind idx (times + 1)
    let block := ext2ReadBlock s device b
    let (ret, block, s) ← ext2Indblock device times block nIdx s
    return (ret, ind, ext2WriteBlock s device b block)

/-- A missing block pointer of an inode is filled. -/
def fillPointer (s : Fs) (inode : Inode) (i : ℕ) : Except Stop (Inode × Fs) :=
  if inode.blocks i = 0 then do
    let (block, s) ← ext2BlockAlloc s inode.device
    return ({ inode with blocks := Function.update inode.blocks i block }, s)
  else return (inode, s)

/-- The number of the pointer, `times` and the index below it, for a block that is not direct. -/
def indirect (idx : ℕ) : Except Stop (ℕ × ℕ × ℕ) :=
  if idx < ind1Limit then .ok (ind1Idx, 0, idx - directBlocks)
  else if idx < ind2Limit then .ok (ind2Idx, 1, idx - ind1Limit)
  else if idx < ind3Limit then .ok (ind3Idx, 2, idx - ind2Limit)
  else .error .abort

def ext2GetIblock (s : Fs) (inode : Inode) (idx : ℕ) : Except Stop (ℕ × Inode × Fs) :=
  if idx < directBlocks then do
    let (inode, s) ← fillPointer s inode idx
    return (inode.blocks idx, inode, s)
  else do
    let (indIdx, times, rIdx) ← indirect idx
    let (inode, s) ← fillPointer s inode indIdx
    let buf := ext2ReadBlock s inode.device (inode.blocks indIdx)
    let (block, buf, s) ← ext2Indblock inode.device times buf rIdx s
    return (block, inode, ext2WriteBlock s inode.device (inode.blocks indIdx) buf)

/-! ## The inode table -/

/-- `INODES_PER_BLOCK`. -/
def Fs.inodesPerBlock (s : Fs) : ℕ := s.blockSize / s.sblock.inodeSize

/-- The block and the index of an inode. -/
def ext2InodeIdx (s : Fs) (inodeN : ℕ) : Except Stop (ℕ × ℕ) :=
  if s.sblock.inodesPerGroup = 0 ∨ s.sblock.inodeSize = 0 ∨ s.inodesPerBlock = 0 then .error .divideError
  else
    let inodeIdx := sub32 inodeN 1
    let descrIdx := u32 (inodeIdx + 1) / s.sblock.inodesPerGroup
    let descrInodeIdx := u32 (inodeIdx + 1) % s.sblock.inodesPerGroup
    let inodeTableIdx := u32 (u32 (descrIdx * s.sblock.blocksPg) + (s.bgDescrs descrIdx).inodeTable)
    let tableBlockIdx := descrInodeIdx / s.inodesPerBlock
    .ok (u32 (inodeTableIdx + tableBlockIdx), descrInodeIdx % s.inodesPerBlock)

/-- `sizeof(ext2_inode_t)`, the distance of records as `ext2_read_inode` computes it. -/
def sizeofInode : ℕ := 128

/-- The block pointers `i`, ..., `14` of a record at `a`. -/
def putBlocks (m : Mem) (a : ℕ) (blocks : ℕ → ℕ) : Mem :=
  (List.range inodeBlocksCount).foldl (fun m i => store32 m (a + 40 + 4 * i) (blocks i)) m

/-- The fields of a record at `a` that `ext2_inode_update` writes. -/
def putInode (m : Mem) (a : ℕ) (inode : Inode) : Mem :=
  let m := store16 m a inode.mode
  let m := store32 m (a + 4) inode.size
  let m := store32 m (a + 8) inode.lastAccessTime
  let m := store32 m (a + 12) inode.creationTime
  let m := store32 m (a + 16) inode.lastModifyTime
  let m := store32 m (a + 20) inode.deletionTime
  let m := store16 m (a + 26) inode.hardLinksCount
  let m := store32 m (a + 28) inode.sectors
  putBlocks m a inode.blocks

def ext2InodeUpdate (s : Fs) (inode : Inode) : Except Stop Fs := do
  let (block, idx) ← ext2InodeIdx s inode.n
  let buf := ext2ReadBlock s inode.device block
  return ext2WriteBlock s inode.device block (putInode buf (sizeofInode * idx) inode)

/-- The fields of `inode_t` are loaded; `valid` is not one of them. -/
def ext2InodeGet (s : Fs) (inode : Inode) : Except Stop Inode := do
  let (block, idx) ← ext2InodeIdx s inode.n
  let m := ext2ReadBlock s inode.device block
  let a := sizeofInode * idx
  return { inode with
    mode := load16 m a
    size := load32 m (a + 4)
    lastAccessTime := load32 m (a + 8)
    creationTime := load32 m (a + 12)
    lastModifyTime := load32 m (a + 16)
    deletionTime := load32 m (a + 20)
    hardLinksCount := load16 m (a + 26)
    sectors := load32 m (a + 28)
    blocks := fun i => if i < inodeBlocksCount then load32 m (a + 40 + 4 * i) else inode.blocks i }

/-! ## The contents of a file -/

/-- `len` of a round, with `rest` bytes missing. -/
def chunk (rest bufOff : ℕ) : ℕ := if rest < sub32 1024 bufOff then rest else sub32 1024 bufOff

/-- `n` bytes at `b` of `src` are copied to `a`. -/
def copyBytes (m : Mem) (a : ℕ) (src : Mem) (b n : ℕ) : Mem := fun x =>
  if a ≤ x ∧ x < a + n then src (b + (x - a)) else m x

/-- The loop of `ext2_read_content`. -/
def readLoop (size : ℕ) : ℕ → ℕ → ℕ → Mem → Inode → Fs → Except Stop (ℕ × Mem × Inode × Fs)
  | 0, _, _, _, _, _ => .error .diverges
  | fuel + 1, i, offset, dst, inode, s =>
    if i < size then do
      let (block, inode, s) ← ext2GetIblock s inode (offset / s.blockSize)
      let buf := ext2ReadBlock s inode.device block
      let bufOff := offset % s.blockSize
      let len := chunk (size - i) bufOff
      readLoop size fuel (u32 (i + len)) (u32 (offset + len)) (copyBytes dst i buf bufOff len) inode s
    else .ok (i, dst, inode, s)

/-- The number of bytes read, and `dst` after the call. -/
def ext2ReadContent (s : Fs) (inode : Inode) (dst : Mem) (offset size : ℕ) :
    Except Stop (ℕ × Mem × Inode × Fs) :=
  if offset > inode.size then .ok (0, dst, inode, s)
  else
    let size := if u32 (offset + size) > inode.size then inode.size - offset else size
    readLoop size (size + 1) 0 offset dst inode s

/-- The loop of `ext2_write_content`. -/
def writeLoop (src : Mem) (size : ℕ) : ℕ → ℕ → ℕ → Inode → Fs → Except Stop (ℕ × ℕ × Inode × Fs)
  | 0, _, _, _, _ => .error .diverges
  | fuel + 1, i, offset, inode, s =>
    if i < size then do
      let (block, inode, s) ← ext2GetIblock s inode (offset / s.blockSize)
      let buf := ext2ReadBlock s inode.device block
      let bufOff := offset % s.blockSize
      let len := chunk (size - i) bufOff
      let s := ext2WriteBlock s inode.device block (copyBytes buf bufOff src i len)
      writeLoop src size fuel (u32 (i + len)) (u32 (offset + len)) inode s
    else .ok (i, offset, inode, s)

/-- The number of bytes written, or `-1`. -/
def ext2WriteContent (s : Fs) (inode : Inode) (src : Mem) (offset size : ℕ) :
    Except Stop (ℤ × Inode × Fs) :=
  if offset > inode.size then .ok (-1, inode, s)
  else if u32 (offset + size) > maxFileSize then .ok (-1, inode, s)
  else do
    let (i, offset, inode, s) ← writeLoop src size (size + 1) 0 offset inode s
    let inode := if offset > inode.size then { inode with size := offset } else inode
    let s ← ext2InodeUpdate s inode
    return (i, inode, s)

/-! ## Truncation -/

/-- The loop of `ext2_ind_trunc` over the entries from `i` on, and the block after the call; the
source decrements `times` at every entry. -/
def ext2IndTrunc (device : ℕ) : ℕ → ℕ → ℕ → Mem → Fs → Except Stop (Mem × Fs)
  | 0, _, _, _, _ => .error .diverges
  | fuel + 1, i, times, block, s =>
    if i < ptrEntryBlocks then
      let b := load32 block (4 * i)
      if b = 0 then .ok (block, s)
      else if times ≠ 0 then do
        let buf := ext2ReadBlock s device b
        let (buf, s) ← ext2IndTrunc device fuel 0 (times - 1) buf s
        ext2IndTrunc device fuel (i + 1) (times - 1) block (ext2WriteBlock s device b buf)
      else do
        let s ← ext2BlockFree s device b
        ext2IndTrunc device fuel (i + 1) 0 (store32 block (4 * i) 0) s
    else .ok (block, s)

/-- The first loop of `ext2_truncate`; `true` when it does not return early. -/
def truncDirect : ℕ → ℕ → Inode → Fs → Except Stop (Bool × Inode × Fs)
  | 0, _, inode, s => .ok (true, inode, s)
  | fuel + 1, i, inode, s =>
    if inode.blocks i = 0 then .ok (false, inode, s)
    else do
      let s ← ext2BlockFree s inode.device (inode.blocks i)
      truncDirect fuel (i + 1) { inode with blocks := Function.update inode.blocks i 0 } s

/-- The second loop. -/
def truncIndirect : ℕ → ℕ → ℕ → Inode → Fs → Except Stop (Bool × Fs)
  | 0, _, _, _, s => .ok (true, s)
  | fuel + 1, idx, times, inode, s =>
    if inode.blocks idx = 0 then .ok (false, s)
    else do
      let buf := ext2ReadBlock s inode.device (inode.blocks idx)
      let (buf, s) ← ext2IndTrunc inode.device (2 ^ 32) 0 times buf s
      truncIndirect fuel (idx + 1) (times + 1) inode
        (ext2WriteBlock s inode.device (inode.blocks idx) buf)

def ext2Truncate (s : Fs) (inode : Inode) : Except Stop (Inode × Fs) := do
  let (go, inode, s) ← truncDirect directBlocks 0 inode s
  if !go then return (inode, s)
  let (go, s) ← truncIndirect 3 ind1Idx 0 inode s
  if !go then return (inode, s)
  let inode := { inode with size := 0 }
  let s ← ext2InodeUpdate s inode
  return (inode, s)

end BulbOS.Ext2
