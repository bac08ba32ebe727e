import BulbOS.Inode.Model

/-!
# The dentry cache (`kernel/fs/dir.c`, `ext2_parse_dir`)

A `dentry_t` is given by its address, as an inode is. A string is the list of its bytes before the `NUL`;
`'/'` is 47 and `'.'` is 46. The hash tables keep the bytes of their keys; for `dir_head.table` the pointers
to them are kept too. The files of the disk are what `ext2_inode_get` and `ext2_read_content` give.

* `dirSet`, `dirEvict`, `dirAddChild`, `dirRelease`: the cache;
* `ext2ParseDir`, `ext2ParseRoot`: dentries for the entries of a directory;
* `dirIterGet`, `dirGet`: the lookup of a path, in a buffer whose slashes are cut and restored.
-/

namespace BulbOS.Dentry

open KLib BulbOS.Table BulbOS.Inode

/-- `dentry_t`, less its mutex and its links in the list of unreferenced dentries. -/
structure DentryT where
  valid : Bool
  refCount : ℤ
  offset : ℕ
  inode : ℕ
  path : ℕ
  nextSib : ℕ
  prevSib : ℕ
  parent : ℕ
  children : ℕ
  table : ℕ

/-- A call of `dir_set`: its arguments, and what it found. -/
structure SetCall where
  device : ℕ
  inodeN : ℕ
  /-- The table had the path already. -/
  cached : Bool
  /-- It had, but `ht_set` meets a tombstone before it. -/
  buried : Bool
  /-- `ht_set` refuses, since the table is full. -/
  refused : Bool
  /-- The links of the new dentry that nothing initializes are `NULL`. -/
  cleared : Bool
  deriving DecidableEq, Repr

/-- The memory of the dentries, `dir_head`, and `current_dir` of the current task. -/
structure Dentries where
  inodes : Inodes
  dentries : ℕ → DentryT
  /-- The addresses of dentries that are in use. -/
  live : List ℕ
  lru : Lru
  table : HashTable (List UInt8) ℕ
  /-- `key32` of the entries of `table`. -/
  keys : ℕ → ℕ
  /-- The strings on the heap, and those that are in use. -/
  strs : ℕ → List UInt8
  paths : List ℕ
  /-- The tables of directories, and those that are in use. -/
  tables : ℕ → HashTable (List UInt8) ℕ
  liveTables : List ℕ
  currentDir : ℕ
  /-- What `kmalloc` will return, and what is in it when a table is resized. -/
  heap : ℕ → ℕ
  fresh : ℕ → ℕ → HashEntry (List UInt8) ℕ
  /-- The calls of `dir_set` so far, the last one first. -/
  sets : List SetCall

/-- What `ext2_inode_get` loads, and what `ext2_read_content` reads, by device and inode. -/
structure Disk where
  inode : ℕ → ℕ → Ext2.Inode
  content : ℕ → ℕ → Mem

variable (s : Dentries)

def Dentries.set (dentry : ℕ) (x : DentryT) : Dentries :=
  { s with dentries := Function.update s.dentries dentry x }

/-- `dentry->path`, the string. -/
def Dentries.str (dentry : ℕ) : List UInt8 := s.strs (s.dentries dentry).path

def Dentries.addRef (dentry : ℕ) (k : ℤ) : Dentries :=
  s.set dentry { s.dentries dentry with refCount := (s.dentries dentry).refCount + k }

/-- The next address of the heap is used. -/
def Dentries.pop : Dentries := { s with heap := fun n => s.heap (n + 1) }

/-! ## The table -/

/-- Where `ht_set` stops for a key. -/
def putSlot (t : HashTable (List UInt8) ℕ) (key : List UInt8) : Option ℕ :=
  htProbe t (stopSlot key) (t.capacity + 1) (t.home key)

/-- Where `ht_remove` stops for a key. -/
def findSlot (t : HashTable (List UInt8) ℕ) (key : List UInt8) : Option ℕ :=
  htProbe t (stopFind key) (t.capacity + 1) (t.home key)

/-- `ht_assign`: only an entry that was not valid gets a key. -/
def keysPut (t : HashTable (List UInt8) ℕ) (keys : ℕ → ℕ) (key : List UInt8) (ptr : ℕ) : ℕ → ℕ :=
  match putSlot t key with
  | some i => if (t.entry i).state = .valid then keys else Function.update keys (i % t.capacity) ptr
  | none => keys

def keysRemove (t : HashTable (List UInt8) ℕ) (keys : ℕ → ℕ) (key : List UInt8) : ℕ → ℕ :=
  match findSlot t key with
  | some i => if (t.entry i).state = .empty then keys else Function.update keys (i % t.capacity) 0
  | none => keys

/-- `ht_set` of `dir_head.table`. -/
def dirPut (path dentry : ℕ) : Except Stop (Int × Dentries) :=
  match htSet s.fresh s.table (s.strs path) (some dentry) with
  | none => .error .diverges
  | some (ret, table) =>
    .ok (ret, { s with
      table := table
      keys := if ret = 0 then keysPut s.table s.keys (s.strs path) path else s.keys })

/-! ## Dentries -/

/-- `kmalloc` of a string. -/
def newPath (str : List UInt8) : Except Stop (ℕ × Dentries) :=
  let path := s.heap 0
  if path = 0 ∨ path ∈ s.paths then .error .inUse
  else .ok (path, { s.pop with strs := Function.update s.strs path str, paths := path :: s.paths })

/-- The fields that are not set here keep what is in the memory. -/
def dentryAlloc (path inode offset : ℕ) : Except Stop (ℕ × Dentries) :=
  let dentry := s.heap 0
  if dentry = 0 ∨ dentry ∈ s.live then .error .inUse
  else
    let s := s.pop.set dentry { s.dentries dentry with
      valid := false, refCount := 1, offset := offset, inode := inode, path := path }
    .ok (dentry, { s with
      inodes := inodeDup s.inodes inode
      live := dentry :: s.live
      lru := { s.lru with
        next := Function.update s.lru.next dentry 0, prev := Function.update s.lru.prev dentry 0 } })

def dirRemove (l : Lru) (dentry : ℕ) : Except Stop Lru :=
  if l.next dentry = 0 ∧ l.prev dentry = 0 ∧ l.lhead ≠ dentry then .error (.notPartOfList .dentry)
  else l.remove .dentry dentry

/-- `_dir_release`. -/
def dirRelease (dentry : ℕ) : Dentries :=
  let s := s.addRef dentry (-1)
  if (s.dentries dentry).refCount = 0 then { s with lru := s.lru.push dentry } else s

/-- The loop of `dir_release_entries`, at `child`. -/
def dirReleaseEntries (dentry : ℕ) : ℕ → Dentries → ℕ → Except Stop Dentries
  | 0, _, _ => .error .diverges
  | fuel + 1, s, child =>
    if child = 0 then .ok s
    else
      match htRemove (s.tables (s.dentries dentry).table) (s.str child) with
      | none => .error .diverges
      | some (_, t) =>
        let s := { s with tables := Function.update s.tables (s.dentries dentry).table t }
        let s := dirRelease s child
        dirReleaseEntries dentry fuel s (s.dentries child).nextSib

/-- `ht_free`. Page 0 holds no address of the heap, so that nothing is freed if the table is `NULL`. -/
def tableFree (table : ℕ) : Except Stop Dentries :=
  if table = 0 then .ok s
  else if table ∈ s.liveTables then .ok { s with liveTables := s.liveTables.erase table }
  else .error .notInUse

/-- The end of `dir_evict`. -/
def dirFree (old : ℕ) : Except Stop Dentries := do
  let lru ← dirRemove s.lru old
  let s := { s with lru := lru, paths := s.paths.erase (s.dentries old).path }
  let s ← if (s.dentries old).valid then dirReleaseEntries old (s.live.length + 1) s (s.dentries old).children
    else .ok s
  let s ← tableFree s (s.dentries old).table
  return { s with live := s.live.erase old }

def dirEvict : Except Stop Dentries :=
  let old := s.lru.ltail
  if old = 0 then .error (.noFree .dentry)
  else if old ∉ s.live then .error .notInUse
  else if (s.dentries old).refCount ≠ 0 then .error (.alreadyFree .dentry)
  else
    match htRemove s.table (s.str old) with
    | none => .error .diverges
    | some (ret, table) =>
      if ret ≠ 0 then .error (.notInHashTable .dentry)
      else dirFree { s with table := table, keys := keysRemove s.table s.keys (s.str old) } old

/-- `do … while (ret && dir_head.ltail)`; every eviction takes an entry out of the table. -/
def dirEvictLoop (path dentry : ℕ) : ℕ → Dentries → Except Stop (Int × Dentries)
  | 0, _ => .error .diverges
  | fuel + 1, s => do
    let s ← dirEvict s
    let (ret, s) ← dirPut s path dentry
    if ret ≠ 0 ∧ s.lru.ltail ≠ 0 then dirEvictLoop path dentry fuel s else return (ret, s)

/-- The call of `dir_set`, with the dentry at the second next address of the heap. -/
def setCall (device path inodeN : ℕ) : SetCall :=
  let key := s.strs path
  let cached := htGet s.table key ≠ some none
  { device := device
    inodeN := inodeN
    cached := cached
    buried := cached ∧ (putSlot s.table key).any fun i => (s.table.entry i).state ≠ .valid
    refused := s.table.Overloaded
    cleared := (s.dentries (s.heap 1)).children = 0 ∧ (s.dentries (s.heap 1)).parent = 0 ∧
      (s.dentries (s.heap 1)).table = 0 }

def dirSet (device path inodeN offset : ℕ) : Except Stop (ℕ × Dentries) := do
  let (inode, inodes) ← inodeGet s.inodes (s.heap 0) device inodeN
  let s := { s.pop with inodes := inodes, sets := setCall s device path inodeN :: s.sets }
  let (dentry, s) ← dentryAlloc s path inode offset
  let (ret, s) ← dirPut s path dentry
  if ret = 0 then return (dentry, s)
  else do
    let (ret, s) ← dirEvictLoop path dentry s.table.capacity s
    if ret = 0 then return (dentry, s) else .error (.cantGet .dentry)

/-- The entry becomes the first child. -/
def linkChild (dir entry : ℕ) : Dentries :=
  let s := s.addRef dir 1
  let s := s.set entry { s.dentries entry with parent := dir }
  let first := (s.dentries dir).children
  let s := if first ≠ 0 then s.set first { s.dentries first with prevSib := entry } else s
  let s := s.set entry { s.dentries entry with nextSib := (s.dentries dir).children }
  let s := s.set entry { s.dentries entry with prevSib := 0 }
  let s := s.addRef entry 1
  s.set dir { s.dentries dir with children := entry }

def dirAddChild (dir entry : ℕ) : Except Stop Dentries :=
  if dir ∉ s.live then .error .notInUse
  else
    let table := (s.dentries dir).table
    match htGet (s.tables table) (s.str entry) with
    | none => .error .diverges
    | some (some _) => .ok s
    | some none =>
      match htSet s.fresh (s.tables table) (s.str entry) (some entry) with
      | none => .error .diverges
      | some (_, t) => .ok (linkChild { s with tables := Function.update s.tables table t } dir entry)

/-! ## Directories -/

/-- `ext2_dir_t` at an offset of the directory. -/
structure Entry where
  offset : ℕ
  inode : ℕ
  name : List UInt8
  deriving DecidableEq, Repr

def entryAt (buffer : Mem) (i : ℕ) : Entry :=
  ⟨i, load32 buffer i, (List.range (buffer (i + 6)).toNat).map fun k => buffer (i + 8 + k)⟩

/-- The entries from `i` on; each has at least one byte, unless the loop does not end. -/
def dirEntries (buffer : Mem) (size : ℕ) : ℕ → ℕ → Option (List Entry)
  | 0, _ => none
  | fuel + 1, i =>
    if i < size then do
      let rest ← dirEntries buffer size fuel (u32 (i + load16 buffer (i + 4)))
      return entryAt buffer i :: rest
    else some []

/-- The entries of the directory in an inode. -/
def Disk.entries (disk : Disk) (device n : ℕ) : Option (List Entry) :=
  let size := (disk.inode device n).size
  dirEntries (disk.content device n) size (size + 1) 0

/-- `dir_sum_path` and `ext2_sum_path`. -/
def sumPath (path1 path2 : List UInt8) : List UInt8 :=
  (if path1.getLast? = some 47 then path1 else path1 ++ [47]) ++ path2

/-- `"."` and `".."`, which `ext2_parse_dir` skips. -/
def isDot (name : List UInt8) : Bool := name = [46] || name = [46, 46]

/-- A round of `ext2_parse_dir`. -/
def parseEntry (dir device : ℕ) (e : Entry) : Except Stop Dentries :=
  if dir ∉ s.live then .error .notInUse
  else do
    let (path, s) ← newPath s ((sumPath (s.str dir) e.name).takeWhile (· ≠ 0))
    if isDot e.name then return s
    else do
      let (child, s) ← dirSet s device path e.inode e.offset
      let s ← dirAddChild s dir child
      return dirRelease s child

/-- The table of a directory that is read for the first time. -/
def dirTable (dir : ℕ) : Except Stop Dentries :=
  if (s.dentries dir).table ≠ 0 then .ok s
  else
    match htCreate 20 75 true with
    | none => .error .diverges
    | some t =>
      let table := s.heap 0
      if table = 0 ∨ table ∈ s.liveTables then .error .inUse
      else .ok { s.pop.set dir { s.dentries dir with table := table } with
        tables := Function.update s.tables table t, liveTables := table :: s.liveTables }

def ext2ParseDir (disk : Disk) (dir : ℕ) : Except Stop Dentries :=
  if dir ∉ s.live then .error .notInUse
  else do
    let s ← dirTable s dir
    let inode := (s.dentries dir).inode
    let inodes ← inodeLock disk.inode s.inodes inode
    let data := (inodes.inodes inode).data
    match dirEntries (disk.content data.device data.n) data.size (data.size + 1) 0 with
    | none => .error .diverges
    | some es => es.foldlM (fun s e => parseEntry s dir data.device e) { s with inodes := inodes }

def ext2RootInode : ℕ := 2

def ext2ParseRoot (disk : Disk) (device : ℕ) : Except Stop Dentries := do
  let (path, s) ← newPath s [47]
  let (dentry, s) ← dirSet s device path ext2RootInode 0
  let s ← ext2ParseDir s disk dentry
  return dirRelease s dentry

/-! ## Lookup -/

/-- The string in a buffer. -/
def cstr (path : List UInt8) : List UInt8 := path.takeWhile (· ≠ 0)

/-- `for (; path[len] != '/' && len; --len)`. -/
def slashBefore (path : List UInt8) : ℕ → ℕ
  | 0 => 0
  | len + 1 => if path.getD (len + 1) 0 = 47 then len + 1 else slashBefore path len

/-- The first loop of `dir_iter_get`: the dentry or `NULL`, the buffer and `len`. -/
def prefixLoop : ℕ → List UInt8 → ℕ → Except Stop (ℕ × List UInt8 × ℕ)
  | 0, _, _ => .error .diverges
  | fuel + 1, path, len =>
    if len = 0 then .ok (0, path, len)
    else
      let len := slashBefore path len
      let path := path.set len 0
      match htGet s.table (cstr path) with
      | none => .error .diverges
      | some (some dentry) => .ok (dentry, path, len)
      | some none => prefixLoop fuel path len

/-- `for (; len != orig_len && path[len]; ++len)`. -/
def nextNul (path : List UInt8) (origLen : ℕ) : ℕ → ℕ → ℕ
  | 0, len => len
  | fuel + 1, len => if len ≠ origLen ∧ path.getD len 0 ≠ 0 then nextNul path origLen fuel (len + 1) else len

/-- The second loop of `dir_iter_get`. -/
def descend (disk : Disk) (origLen : ℕ) : ℕ → Dentries → ℕ → List UInt8 → ℕ → Except Stop (ℕ × Dentries)
  | 0, _, _, _, _ => .error .diverges
  | fuel + 1, s, dentry, path, len =>
    if len = origLen then .ok (dentry, s)
    else do
      let s ← ext2ParseDir s disk dentry
      let path := path.set len 47
      let len := nextNul path origLen (origLen - len) len
      if 1 < len ∧ path.getD (len - 1) 0 = 46 then
        if 2 < len ∧ path.getD (len - 2) 0 = 46 then
          descend disk origLen fuel s (s.dentries dentry).parent path len
        else descend disk origLen fuel s dentry path len
      else
        let path := if 1 < origLen ∧ path.getD (origLen - 1) 0 = 47 then path.set (origLen - 1) 0 else path
        match htGet s.table (cstr path) with
        | none => .error .diverges
        | some none => .ok (0, s)
        | some (some dentry) => descend disk origLen fuel s dentry path len

def dirIterGet (disk : Disk) (path : List UInt8) (len : ℕ) : Except Stop (ℕ × Dentries) := do
  let (dentry, path, start) ← prefixLoop s (len + 1) path len
  if dentry = 0 then return (0, s) else descend disk len (len + 1) s dentry path start

/-- `dir_get` of a path that is cached. -/
def dirGetHit (dentry : ℕ) : Except Stop (ℕ × Dentries) :=
  let refCount := (s.dentries dentry).refCount
  let s := s.addRef dentry 1
  if refCount = 0 then do
    let lru ← dirRemove s.lru dentry
    return (dentry, { s with lru := lru })
  else return (dentry, s)

/-- `dir_get` of an absolute path. -/
def dirGetAbs (disk : Disk) (path : List UInt8) : Except Stop (ℕ × Dentries) :=
  let len := path.length
  let path := if 1 < len ∧ path.getD (len - 1) 0 = 47 then path.take (len - 1) else path
  match htGet s.table path with
  | none => .error .diverges
  | some (some dentry) => dirGetHit s dentry
  | some none => dirIterGet s disk (path ++ List.replicate (len + 1 - path.length) 0) len

/-- The dentry, or `0` for `NULL`. -/
def dirGet (disk : Disk) (path : List UInt8) : Except Stop (ℕ × Dentries) :=
  dirGetAbs s disk (if path.head? = some 47 then path else sumPath (s.str s.currentDir) path)

/-- `dir_init`, with `DIR_TABLE_SIZE` and `DIR_LOAD_FACTOR`: the memory and the inode cache are those of `s`. -/
def dirInit (disk : Disk) : Except Stop Dentries :=
  match htCreate 50 75 false with
  | none => .error .diverges
  | some table => do
    let s ← ext2ParseRoot { s with table := table, lru := { s.lru with lhead := 0, ltail := 0 } } disk 0
    let (dentry, s) ← dirGet s disk [47]
    return { s with currentDir := dentry }

end BulbOS.Dentry
