import BulbOS.Ext2.Model

/-!
# Directory records (`ext2_link` and `ext2_unlink`, and their callers in `kernel/fs/dir.c`)

A directory is a file of records, `ext2_dir_t`. Here a file is its `size` and the bytes of its direct blocks,
`BLOCK_SIZE` is 1024, and what the lookups of the dentry cache give is an argument of the calls. Locks are left out.
`none` is a call that does not complete: a `NULL` pointer is read, a loop does not end, or it aborts. From the 13th
block on `ext2_get_iblock` does not return the blocks of a file: what reads or writes there has no result here.

* `ext2Link`, `ext2Unlink`: a record is added or removed;
* `dirLink`, `dirCreate`, `dirMake`, `fileOpen`, `dirUnlink`: the calls;
* `DirFile.offsets`, `DirFile.records`, `DirFile.names`: the records of a directory; `DirFile.children`: its child list.
-/

namespace BulbOS.Dir

open KLib Ext2

/-- The bytes of the direct blocks. -/
def directBytes : ℕ := directBlocks * 1024

/-- The `size` of an inode and the bytes of its direct blocks. -/
structure DirFile where
  size : ℕ
  content : Mem

/-- `ext2_read_content` of the whole file. -/
def DirFile.readContent (d : DirFile) : Option Mem := if d.size ≤ directBytes then some d.content else none

/-- `ext2_write_content`. -/
def DirFile.writeContent (d : DirFile) (src : Mem) (offset n : ℕ) : Option DirFile :=
  if offset > d.size then some d
  else if offset + n ≤ directBytes then
    some ⟨max d.size (offset + n), fun k => if offset ≤ k ∧ k < offset + n then src (k - offset) else d.content k⟩
  else none

/-- `ALIGN_ADDR(addr, 4)`. -/
def align4 (addr : ℕ) : ℕ := (addr + 3) / 4 * 4

/-- `DIR_ENTRY_SIZE`. -/
def dirEntrySize (length : ℕ) : ℕ := 8 + length

/-! ## The record at an offset -/

def recSize (m : Mem) (i : ℕ) : ℕ := load16 m (i + 4)

def recLength (m : Mem) (i : ℕ) : ℕ := (m (i + 6)).toNat

def recName (m : Mem) (i : ℕ) : List UInt8 := (List.range (recLength m i)).map fun k => m (i + 8 + k)

def recInode (m : Mem) (i : ℕ) : ℕ := load32 m i

def recEntry (m : Mem) (i : ℕ) : ℕ × List UInt8 := (recInode m i, recName m i)

def fileType (mode : ℕ) : ℕ := if mode = 0x1000 then 5 else if mode = 0x8000 then 1 else if mode = 0x4000 then 2 else 0

/-- The bytes of a record; `length` is one byte. -/
def record (n size type : ℕ) (name : List UInt8) : Mem := fun k =>
  if k < 4 then UInt8.ofNat (n / 2 ^ (8 * k))
  else if k < 6 then UInt8.ofNat (size / 2 ^ (8 * (k - 4)))
  else if k = 6 then UInt8.ofNat name.length
  else if k = 7 then UInt8.ofNat type
  else name.getD (k - 8) 0

/-- The loop that looks for the last record. -/
def findLast (m : Mem) (size : ℕ) : ℕ → ℕ → Option ℕ → Option (Option ℕ)
  | 0, i, last => if i < size then none else some last
  | fuel + 1, i, last => if i < size then findLast m size fuel (i + recSize m i) (some i) else some last

/-! ## Adding and removing a record -/

/-- `ext2_link` behind the loop: the record of an inode `n` of the given mode is added to `d`. -/
def ext2LinkAt (d : DirFile) (last : Option ℕ) (n mode : ℕ) (name : List UInt8) : Option DirFile :=
  let lastSize := (last.map (recSize d.content)).getD 0
  let lastLen := (last.map (recLength d.content)).getD 0
  let lastStart := sub32 d.size lastSize
  let lastNewSize := dirEntrySize lastLen
  let newStart := align4 (lastStart + lastNewSize)
  let rem := 1024 - newStart % 1024
  let newSize := dirEntrySize name.length
  if newSize > rem then
    let d := { d with size := d.size + 1024 }
    d.writeContent (record n (sub32 1024 newSize) (fileType mode) name) ((newStart / 1024 + 1) * 1024) newSize
  else do
    let d ← match last with
      | none => some d
      | some l =>
        let buffer := store16 d.content (l + 4) (align4 lastNewSize)
        d.writeContent (fun k => buffer (l + k)) lastStart (align4 lastNewSize)
    d.writeContent (record n rem (fileType mode) name) newStart newSize

def ext2Link (d : DirFile) (n mode : ℕ) (name : List UInt8) : Option DirFile := do
  let buffer ← d.readContent
  let last ← findLast buffer d.size d.size 0 none
  ext2LinkAt d last n mode name

/-- The loop of `ext2_unlink`; the list has the offsets of `entry` and its next siblings. The `offset` of
the next one is read also if there is none. -/
def unlinkLoop : ℕ → ℕ → ℕ → Mem → List ℕ → Option (ℕ × ℕ × ℕ × Mem)
  | newOffset, prev, act, buffer, [] => some (newOffset, prev, act, buffer)
  | _, _, _, _, [_] => none
  | newOffset, prev, act, buffer, _ :: next :: entries =>
    let rem := 1024 - newOffset % 1024
    let (newOffset, buffer) :=
      if recSize buffer act < rem then (newOffset, store16 buffer (prev + 4) (sub32 newOffset next))
      else ((newOffset / 1024 + 1) * 1024, store16 buffer (prev + 4) rem)
    let moved : Mem := fun k =>
      if newOffset ≤ k ∧ k < newOffset + recSize buffer act then buffer (act + (k - newOffset)) else buffer k
    unlinkLoop (align4 newOffset) act next moved (next :: entries)

/-- What `dir_unlink` finds: the inode of the entry, its offset, the offset of its next sibling, and the
offsets that the loop comes to, from its previous sibling on. -/
structure Child where
  mode : ℕ
  hardLinksCount : ℕ
  size : ℕ
  offset : ℕ
  nextSib : Option ℕ
  entries : List ℕ

/-- The entry at an offset, in a child list of the offsets `before`, its own and `after`; the last child that was
added is the first of the list, and `next_sib` leads to the end of it. -/
def childAt (mode hardLinksCount size : ℕ) (before : List ℕ) (offset : ℕ) (after : List ℕ) : Child where
  mode := mode
  hardLinksCount := hardLinksCount
  size := size
  offset := offset
  nextSib := after.head?
  entries := match before.getLast? with
    | none => []
    | some prev => prev :: after

/-- `EMPTY_DIR_SIZE`. -/
def emptyDirSize : ℕ := 0xC * 2

/-- What `ext2_unlink` does in `buffer`, and the new `size`. -/
def unlinkBuffer (buffer : Mem) (entry : Child) : Option (Mem × ℕ) := do
  let zeroed : Mem := fun k =>
    if entry.offset ≤ k ∧ k < entry.offset + recSize buffer entry.offset then 0 else buffer k
  let next ← entry.nextSib
  let (newOffset, prev, act, buffer) ← unlinkLoop entry.offset next next zeroed entry.entries
  return (store16 buffer (prev + 4) (1024 - act % 1024), (newOffset / 1024 + 1) * 1024)

/-- The result `false` is `-1`. -/
def ext2Unlink (d : DirFile) (entry : Child) : Option (Bool × DirFile) :=
  if entry.hardLinksCount = 0 then none
  else if entry.mode &&& 0x4000 ≠ 0 ∧ entry.size ≠ emptyDirSize then some (false, d)
  else do
    let buffer ← d.readContent
    let (buffer, size) ← unlinkBuffer buffer entry
    let d ← d.writeContent buffer 0 d.size
    return (true, { d with size := size })

/-! ## The calls -/

/-- The directories, by device and inode number. -/
abbrev Dirs := ℕ × ℕ → DirFile

/-- The inode that a lookup finds. -/
structure Target where
  device : ℕ
  n : ℕ
  mode : ℕ

/-- `write_dir` with `link` set. -/
def writeLink (s : Dirs) (dir : ℕ × ℕ) (n mode : ℕ) (name : List UInt8) : Option Dirs := do
  let d ← ext2Link (s dir) n mode name
  return Function.update s dir d

/-- `old` and `dir` are what is found for `oldpath` and for the directory of `newpath`. -/
def dirLink (s : Dirs) (old : Option Target) (dir : Option (ℕ × ℕ)) (name : List UInt8) : Option Dirs :=
  match old, dir with
  | none, _ => some s
  | some old, dir =>
    if old.mode &&& 0x8000 = 0 then some s
    else match dir with
      | none => some s
      | some dir => if dir.1 = old.device then writeLink s dir old.n old.mode name else some s

/-- `dinode_alloc` gives the inode `n`, with size 0. -/
def dinodeAlloc (s : Dirs) (n : ℕ) : Dirs := Function.update s (0, n) { s (0, n) with size := 0 }

/-- If the new inode `n` is a directory, its `.` and `..` are added as well. -/
def dirCreate (s : Dirs) (dir : Option (ℕ × ℕ)) (name : List UInt8) (n mode : ℕ) : Option Dirs := do
  let dir ← dir
  let s ← writeLink (dinodeAlloc s n) dir n mode name
  if mode &&& 0x4000 ≠ 0 then do
    let s ← writeLink s (0, n) n mode [46]
    writeLink s (0, n) dir.2 0x4000 [46, 46]
  else return s

def dirMake (s : Dirs) (dir : Option (ℕ × ℕ)) (name : List UInt8) (n mode : ℕ) : Option Dirs :=
  dirCreate s dir name n (0x4000 ||| (mode &&& 0xFFF))

/-- `file_open`: the path is created if the lookup does not find it. -/
def fileOpen (s : Dirs) (found oCreat : Bool) (dir : Option (ℕ × ℕ)) (name : List UInt8) (n : ℕ) : Option Dirs :=
  if !found && oCreat then dirCreate s dir name n 0x8000 else some s

def dirUnlink (s : Dirs) (dir : Option (ℕ × ℕ)) (name : List UInt8) (entry : Option Child) : Option Dirs :=
  match dir with
  | none => some s
  | some dir =>
    if name = [46] ∨ name = [46, 46] then some s
    else match entry with
      | none => some s
      | some entry => do
        let (_, d) ← ext2Unlink (s dir) entry
        return Function.update s dir d

/-! ## The records of a directory -/

/-- The loop over the records, as in `ext2_parse_dir`. -/
def offsetsFrom (m : Mem) (size : ℕ) : ℕ → ℕ → List ℕ
  | 0, _ => []
  | fuel + 1, i => if i < size then i :: offsetsFrom m size fuel (i + recSize m i) else []

def DirFile.offsets (d : DirFile) : List ℕ := offsetsFrom d.content d.size d.size 0

def DirFile.names (d : DirFile) : List (List UInt8) := d.offsets.map (recName d.content)

def DirFile.records (d : DirFile) : List (ℕ × List UInt8) := d.offsets.map (recEntry d.content)

/-- A round of `ext2_parse_dir`, with the children of the directory so far: `.` and `..` are left out, and so is a
name that the table of the directory has. -/
def addChild (m : Mem) (children : List ℕ) (i : ℕ) : List ℕ :=
  let path (i : ℕ) := (recName m i).takeWhile (· ≠ 0)
  if recName m i = [46] ∨ recName m i = [46, 46] then children
  else if children.any fun c => path c = path i then children
  else i :: children

/-- The child list of a directory that was read, by offsets. -/
def DirFile.children (d : DirFile) : List ℕ := d.offsets.foldl (addChild d.content) []

end BulbOS.Dir
