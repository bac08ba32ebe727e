import BulbOS.Ext2.Model
import BulbOS.Table.Model

/-!
# The inode cache (`kernel/fs/inode.c`)

An `inode_t` is given by its address, `0` being `NULL`; page 0 is mapped, so the links of `NULL` can be
written. Calls are made one after another: every mutex is free when it is acquired. `kmalloc` may return
any memory that is not in use, and does not clear it.

* `Lru`: the list of unreferenced objects, which `inode.c` and `dir.c` both keep;
* `inodeGet`, `inodeDup`, `inodeRelease`, `inodeLock`.
-/

namespace BulbOS.Inode

open KLib BulbOS.Table

/-- The two files print the same messages. -/
inductive Cache
  | inode
  | dentry
  deriving DecidableEq, Repr

/-- Why a call does not return: one of the messages before an `abort`, a loop that does not end, or memory
that is not in use is freed, used or handed out again: nothing is said of what the heap does then. -/
inductive Stop
  | notPartOfList (cache : Cache)
  | removingFromEmptyList (cache : Cache)
  | noFree (cache : Cache)
  | alreadyFree (cache : Cache)
  | notInHashTable (cache : Cache)
  | cantGet (cache : Cache)
  | wrongState
  | notInUse
  | inUse
  | diverges
  deriving DecidableEq, Repr

/-! ## Unreferenced objects -/

/-- The links of the objects, and the ends of the list. -/
structure Lru where
  next : ℕ → ℕ
  prev : ℕ → ℕ
  lhead : ℕ
  ltail : ℕ

/-- The first `if` of `inode_remove` and `dir_remove` that unlinks. -/
def Lru.unlinkHead (l : Lru) (x : ℕ) : Lru :=
  if x = l.lhead then
    { l with lhead := l.next x, prev := Function.update l.prev (l.next x) 0 }
  else l

/-- The second one. -/
def Lru.unlinkTail (l : Lru) (x : ℕ) : Lru :=
  if x = l.ltail then
    { l with ltail := l.prev x, next := Function.update l.next (l.prev x) 0 }
  else l

/-- The third one. -/
def Lru.unlinkMiddle (l : Lru) (x : ℕ) : Lru :=
  if x ≠ l.ltail ∧ x ≠ l.lhead then
    let l := { l with next := Function.update l.next (l.prev x) (l.next x) }
    { l with prev := Function.update l.prev (l.next x) (l.prev x) }
  else l

/-- `inode_remove` and `dir_remove` after their first check. -/
def Lru.remove (l : Lru) (cache : Cache) (x : ℕ) : Except Stop Lru :=
  if l.lhead = 0 ∧ l.ltail = 0 then .error (.removingFromEmptyList cache)
  else .ok (((l.unlinkHead x).unlinkTail x).unlinkMiddle x)

/-- An object that nobody references any more becomes the head. -/
def Lru.push (l : Lru) (x : ℕ) : Lru :=
  let l := if l.lhead = 0 then { l with ltail := x } else { l with prev := Function.update l.prev l.lhead x }
  { l with next := Function.update l.next x l.lhead, lhead := x }

/-! ## The cache -/

/-- `inode_t`, less its links; `data` has `device`, `n` and what the filesystem loads. -/
structure InodeT where
  valid : Bool
  refCount : ℤ
  data : Ext2.Inode

/-- The memory of the inodes, and `ihead`. -/
structure Inodes where
  inodes : ℕ → InodeT
  /-- The addresses of inodes that are in use. -/
  live : List ℕ
  table : HashTable UInt64 ℕ
  lru : Lru

def Inodes.set (s : Inodes) (inode : ℕ) (x : InodeT) : Inodes :=
  { s with inodes := Function.update s.inodes inode x }

/-- `((uint64_t)device << 32) | inode_n`. -/
def inodeKey (device n : ℕ) : UInt64 := UInt64.ofNat device <<< 32 ||| UInt64.ofNat n

def Inodes.key (s : Inodes) (inode : ℕ) : UInt64 :=
  inodeKey (s.inodes inode).data.device (s.inodes inode).data.n

/-- The inode at the address that `kmalloc` returned; the rest of it is loaded by `inode_lock`. -/
def inodeAlloc (s : Inodes) (inode device n : ℕ) : Inodes :=
  let data := { (s.inodes inode).data with device := device, n := n }
  { s.set inode ⟨false, 1, data⟩ with live := inode :: s.live }

def inodeRemove (l : Lru) (inode : ℕ) : Except Stop Lru :=
  if l.next inode = 0 ∧ l.prev inode = 0 then .error (.notPartOfList .inode) else l.remove .inode inode

def inodeEvict (s : Inodes) : Except Stop Inodes :=
  let old := s.lru.ltail
  if old = 0 then .error (.noFree .inode)
  else if (s.inodes old).refCount ≠ 0 then .error (.alreadyFree .inode)
  else
    match htRemove s.table (s.key old) with
    | none => .error .diverges
    | some (ret, table) =>
      if ret ≠ 0 then .error (.notInHashTable .inode)
      else do
        let lru ← inodeRemove s.lru old
        if old ∈ s.live then return { s with table := table, lru := lru, live := s.live.erase old }
        else .error .notInUse

/-- `ht_set` on the table of the cache, which is never resized. -/
def inodeSet (s : Inodes) (key : UInt64) (inode : ℕ) : Except Stop (Int × Inodes) :=
  match htSet (fun _ _ => ⟨0, none, .empty⟩) s.table key (some inode) with
  | none => .error .diverges
  | some (ret, table) => .ok (ret, { s with table := table })

/-- `do … while (ret && ihead.ltail)`; every eviction takes an entry out of the table. -/
def inodeEvictLoop (key : UInt64) (inode : ℕ) : ℕ → Inodes → Except Stop (Int × Inodes)
  | 0, _ => .error .diverges
  | fuel + 1, s => do
    let s ← inodeEvict s
    let (ret, s) ← inodeSet s key inode
    if ret ≠ 0 ∧ s.lru.ltail ≠ 0 then inodeEvictLoop key inode fuel s else return (ret, s)

/-- `inode_get` of an inode that is cached. -/
def inodeGetHit (s : Inodes) (inode : ℕ) : Except Stop (ℕ × Inodes) :=
  let refCount := (s.inodes inode).refCount
  let s := s.set inode { s.inodes inode with refCount := refCount + 1 }
  if refCount = 0 then do
    let lru ← inodeRemove s.lru inode
    return (inode, { s with lru := lru })
  else return (inode, s)

/-- `inode_get` of one that is not; `ptr` is what `kmalloc` returns. -/
def inodeGetMiss (s : Inodes) (ptr device n : ℕ) : Except Stop (ℕ × Inodes) :=
  if ptr = 0 ∨ ptr ∈ s.live then .error .inUse
  else do
    let key := inodeKey device n
    let (ret, s) ← inodeSet (inodeAlloc s ptr device n) key ptr
    if ret = 0 then return (ptr, s)
    else do
      let (ret, s) ← inodeEvictLoop key ptr s.table.capacity s
      if ret = 0 then return (ptr, s) else .error (.cantGet .inode)

def inodeGet (s : Inodes) (ptr device n : ℕ) : Except Stop (ℕ × Inodes) :=
  match htGet s.table (inodeKey device n) with
  | none => .error .diverges
  | some (some inode) => inodeGetHit s inode
  | some none => inodeGetMiss s ptr device n

def inodeDup (s : Inodes) (inode : ℕ) : Inodes :=
  s.set inode { s.inodes inode with refCount := (s.inodes inode).refCount + 1 }

/-- The inode after the call, and whether it was truncated. -/
def inodeRelease (s : Inodes) (inode : ℕ) : Bool × Inodes :=
  let s := s.set inode { s.inodes inode with refCount := (s.inodes inode).refCount - 1 }
  if (s.inodes inode).refCount = 0 then
    let s := { s with lru := s.lru.push inode }
    if (s.inodes inode).valid ∧ (s.inodes inode).data.hardLinksCount = 0 then
      (true, s.set inode { s.inodes inode with valid := false })
    else (false, s)
  else (false, s)

/-- `load` is `inode_load` of the filesystem, which leaves `device`, `n` and `valid` as they are. -/
def inodeLock (load : ℕ → ℕ → Ext2.Inode) (s : Inodes) (inode : ℕ) : Except Stop Inodes :=
  let x := s.inodes inode
  if inode = 0 ∨ x.refCount = 0 then .error .wrongState
  else if x.valid then .ok s
  else .ok (s.set inode { x with
    data := { load x.data.device x.data.n with device := x.data.device, n := x.data.n } })

/-- `inode_init`, with `INODE_TABLE_SIZE` and `INODE_LOAD_FACTOR`. -/
def inodeInit (inodes : ℕ → InodeT) (next prev : ℕ → ℕ) : Option Inodes := do
  let table ← htCreate 50 75 false
  return ⟨inodes, [], table, next, prev, 0, 0⟩

end BulbOS.Inode
