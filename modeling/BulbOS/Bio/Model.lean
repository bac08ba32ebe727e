import BulbOS.Sem.Model
import BulbOS.Table.Model

/-!
# The buffer cache (`kernel/fs/bio.c`)

The buffers, their mutexes and their data lie in one byte memory. `kmalloc` may return any memory
apart from what the cache has allocated; what lies in memory that is not allocated may change at any
time. Page 0 is mapped, so a link of `NULL` can be read and written; `nullLink` records that it was.
One task runs, so a mutex that is taken stays taken.
-/

namespace BulbOS.Bio

open KLib BulbOS.Task BulbOS.Sem BulbOS.Table

/-- The fields of `bio_buf_t`, less `dirty`, which nothing uses. -/
inductive Field
  | device
  | block
  | refCount
  | valid
  | mutex
  | size
  | buffer
  | next
  | prev
  deriving DecidableEq, Repr

def Field.offset : Field → ℕ
  | .device => 0
  | .block => 4
  | .refCount => 8
  | .valid => 12
  | .mutex => 20
  | .size => 24
  | .buffer => 28
  | .next => 32
  | .prev => 36

/-- `sizeof(bio_buf_t)`. -/
def sizeofBuf : ℕ := 40

/-- `sizeof(semaphore_t)`. -/
def sizeofSem : ℕ := 16

/-- The memory of the machine, `bio_head` and the disks, by device and byte address. -/
structure BioState where
  mem : Mem
  table : HashTable UInt64 ℕ
  mutex : Semaphore
  lhead : ℕ
  ltail : ℕ
  disk : ℕ → ℕ → UInt8
  /-- The start and the size of what `kmalloc` gave the cache. -/
  allocated : List (ℕ × ℕ)
  nullLink : Bool

/-- Why a call does not return: one of the messages before an `abort`, a mutex that nobody will
release, or a loop that does not end. -/
inductive Stop
  | notPartOfList
  | removingFromEmptyList
  | noFreeBufs
  | alreadyFree
  | notInHashTable
  | sizesDiffer
  | noFreeBuffer
  | blocked
  | diverges
  deriving DecidableEq, Repr

/-! ## Memory -/

/-- What `kmalloc` returned for a buffer, its mutex and its data, and what is in freed memory. -/
structure Heap where
  buf : ℕ
  mutex : ℕ
  buffer : ℕ
  junk : Mem

/-- `buf->field`. -/
def BioState.get (s : BioState) (buf : ℕ) (f : Field) : ℕ := load32 s.mem (buf + f.offset)

/-- `buf->field = v`. -/
def BioState.set (s : BioState) (buf : ℕ) (f : Field) (v : ℕ) : BioState :=
  { s with mem := store32 s.mem (buf + f.offset) v }

/-- `buf->field = v`, where `buf` was read from a link. -/
def BioState.setLink (s : BioState) (buf : ℕ) (f : Field) (v : ℕ) : BioState :=
  { s.set buf f v with nullLink := s.nullLink || buf = 0 }

def BioState.kmalloc (s : BioState) (ptr size : ℕ) : BioState := { s with allocated := (ptr, size) :: s.allocated }

/-- Address `x` lies in the memory of `r`. -/
def Inside (r : ℕ × ℕ) (x : ℕ) : Prop := r.1 ≤ x ∧ x < r.1 + r.2

instance (r : ℕ × ℕ) (x : ℕ) : Decidable (Inside r x) := inferInstanceAs (Decidable (_ ∧ _))

/-- The pieces at `ptr` do not depend on `x`. -/
instance (l : List (ℕ × ℕ)) (ptr x : ℕ) : Decidable (∃ r ∈ l, r.1 = ptr ∧ Inside r x) :=
  let pieces := l.filter fun r => decide (r.1 = ptr)
  decidable_of_iff (∃ r ∈ pieces, Inside r x) (by simp only [pieces, List.mem_filter, decide_eq_true_eq, and_assoc])

def BioState.kfree (s : BioState) (junk : Mem) (ptr : ℕ) : BioState :=
  { s with
    mem := fun x => if ∃ r ∈ s.allocated, r.1 = ptr ∧ Inside r x then junk x else s.mem x
    allocated := s.allocated.filter (·.1 ≠ ptr) }

/-- The `n` bytes at address `a`. -/
def bytesAt (m : Mem) (a n : ℕ) : List UInt8 := (List.range n).map fun i => m (a + i)

/-- `memcpy` of the `n` bytes at `b` of the memory `src` to address `a` of `m`. -/
def memcpy (m : Mem) (a : ℕ) (src : Mem) (b n : ℕ) : Mem := fun x =>
  if a ≤ x ∧ x < a + n then src (b + (x - a)) else m x

/-! ## Mutexes -/

/-- `semaphore_acquire` of the only task: it returns when a slot is free. -/
def acquire (sem : Semaphore) : Option Semaphore :=
  if sem.currentCount < sem.maxCount then some { sem with currentCount := sem.currentCount + 1 }
  else none

/-- `semaphore_release` with nobody waiting. -/
def release (sem : Semaphore) : Option Semaphore :=
  if sem.waitingTasksStart = 0 then some { sem with currentCount := dec32 sem.currentCount } else none

theorem acquire_eq {s s' : Sched} {sem sem' : Semaphore} (hc : sem.currentCount < sem.maxCount)
    (h : semaphoreAcquire s sem = some (s', sem')) : acquire sem = some sem' := by
  rw [semaphoreAcquire, if_pos hc] at h
  obtain ⟨_, _, he⟩ := Option.bind_eq_some_iff.mp h
  rw [Option.pure_def, Option.some.injEq, Prod.mk.injEq] at he
  rw [acquire, if_pos hc, he.2]

theorem release_eq {s s' : Sched} {sem sem' : Semaphore} (hw : sem.waitingTasksStart = 0)
    (h : semaphoreRelease s sem = some (s', sem')) : release sem = some sem' := by
  rw [semaphoreRelease, if_pos hw] at h
  obtain ⟨_, _, he⟩ := Option.bind_eq_some_iff.mp h
  rw [Option.pure_def, Option.some.injEq, Prod.mk.injEq] at he
  rw [release, if_pos hw, he.2]

/-- The `semaphore_t` at address `a`. -/
def semAt (m : Mem) (a : ℕ) : Semaphore :=
  ⟨load32 m a, load32 m (a + 4), load32 m (a + 8), load32 m (a + 12)⟩

/-- A call that changes only `current_count`, on the mutex of a buffer. -/
def BioState.onMutex (s : BioState) (mutex : ℕ) (f : Semaphore → Option Semaphore) : Except Stop BioState :=
  match f (semAt s.mem mutex) with
  | none => .error .blocked
  | some sem => .ok { s with mem := store32 s.mem (mutex + 4) sem.currentCount }

/-- The same on `bio_head.mutex`. -/
def BioState.onHead (s : BioState) (f : Semaphore → Option Semaphore) : Except Stop BioState :=
  match f s.mutex with
  | none => .error .blocked
  | some sem => .ok { s with mutex := sem }

/-! ## The cache -/

def bioAlloc (s : BioState) (h : Heap) (device block size : ℕ) : BioState :=
  let s := s.kmalloc h.buf sizeofBuf
  let s := s.set h.buf .device device
  let s := s.set h.buf .block block
  let s := s.set h.buf .refCount 1
  let s := s.set h.buf .valid 0
  let s := s.kmalloc h.mutex sizeofSem
  let s := { s with
    mem := store32 (store32 (store32 (store32 s.mem h.mutex 1) (h.mutex + 4) 0) (h.mutex + 8) 0)
      (h.mutex + 12) 0 }
  let s := s.set h.buf .mutex h.mutex
  let s := s.set h.buf .size size
  let s := s.kmalloc h.buffer size
  let s := s.set h.buf .buffer h.buffer
  let s := s.set h.buf .next 0
  s.set h.buf .prev 0

/-- The first `if` of `bio_remove` that unlinks. -/
def unlinkHead (s : BioState) (buf : ℕ) : BioState :=
  if buf = s.lhead then
    let s := { s with lhead := s.get buf .next }
    s.setLink (s.get buf .next) .prev 0
  else s

/-- The second one. -/
def unlinkTail (s : BioState) (buf : ℕ) : BioState :=
  if buf = s.ltail then
    let s := { s with ltail := s.get buf .prev }
    s.setLink (s.get buf .prev) .next 0
  else s

/-- The third one. -/
def unlinkMiddle (s : BioState) (buf : ℕ) : BioState :=
  if buf ≠ s.ltail ∧ buf ≠ s.lhead then
    let s := s.setLink (s.get buf .prev) .next (s.get buf .next)
    s.setLink (s.get buf .next) .prev (s.get buf .prev)
  else s

def bioRemove (s : BioState) (buf : ℕ) : Except Stop BioState :=
  if s.get buf .next = 0 ∧ s.get buf .prev = 0 then .error .notPartOfList
  else if s.lhead = 0 ∧ s.ltail = 0 then .error .removingFromEmptyList
  else .ok (unlinkMiddle (unlinkTail (unlinkHead s buf) buf) buf)

/-- `((uint64_t)device << 32) | block`. -/
def bioKey (device block : ℕ) : UInt64 := UInt64.ofNat device <<< 32 ||| UInt64.ofNat block

/-- The end of `bio_evict`. -/
def bioFree (junk : Mem) (s : BioState) (old : ℕ) : BioState :=
  let s := s.kfree junk (s.get old .buffer)
  let s := s.kfree junk (s.get old .mutex)
  s.kfree junk old

def bioEvict (junk : Mem) (s : BioState) : Except Stop BioState :=
  if s.ltail = 0 then .error .noFreeBufs
  else if s.get s.ltail .refCount ≠ 0 then .error .alreadyFree
  else
    let old := s.ltail
    match htRemove s.table (bioKey (s.get old .device) (s.get old .block)) with
    | none => .error .diverges
    | some (ret, table) =>
      if ret ≠ 0 then .error .notInHashTable
      else do
        let s ← bioRemove { s with table := table } old
        return bioFree junk s old

/-- `ht_set` on the table of the cache, which is never resized. -/
def bioSet (s : BioState) (key : UInt64) (buf : ℕ) : Except Stop (Int × BioState) :=
  match htSet (fun _ _ => ⟨0, none, .empty⟩) s.table key (some buf) with
  | none => .error .diverges
  | some (ret, table) => .ok (ret, { s with table := table })

/-- `do … while (ret && bio_head.ltail)`. -/
def bioEvictLoop (junk : Mem) (key : UInt64) (buf : ℕ) : ℕ → BioState → Except Stop (Int × BioState)
  | 0, _ => .error .diverges
  | fuel + 1, s => do
    let s ← bioEvict junk s
    let (ret, s) ← bioSet s key buf
    if ret ≠ 0 ∧ s.ltail ≠ 0 then bioEvictLoop junk key buf fuel s else return (ret, s)

/-- The end of `bio_get`. -/
def bioLock (s : BioState) (buf : ℕ) : Except Stop (ℕ × BioState) := do
  let s ← s.onHead release
  let s ← s.onMutex (s.get buf .mutex) acquire
  return (buf, s)

/-- `bio_get` when the block is cached in `buf`. -/
def bioGetHit (s : BioState) (buf size : ℕ) : Except Stop (ℕ × BioState) :=
  if size ≠ s.get buf .size then .error .sizesDiffer
  else
    let refCount := s.get buf .refCount
    let s := s.set buf .refCount (refCount + 1)
    if refCount = 0 then do
      let s ← bioRemove s buf
      bioLock s buf
    else bioLock s buf

/-- `bio_get` when it is not; every eviction takes an entry out of the table. -/
def bioGetMiss (h : Heap) (s : BioState) (device block size : ℕ) : Except Stop (ℕ × BioState) := do
  let key := bioKey device block
  let s := bioAlloc s h device block size
  let (ret, s) ← bioSet s key h.buf
  if ret = 0 then bioLock s h.buf
  else do
    let (ret, s) ← bioEvictLoop h.junk key h.buf s.table.capacity s
    if ret = 0 then bioLock s h.buf else .error .noFreeBuffer

def bioGet (h : Heap) (s : BioState) (device block size : ℕ) : Except Stop (ℕ × BioState) := do
  let s ← s.onHead acquire
  match htGet s.table (bioKey device block) with
  | none => .error .diverges
  | some (some buf) => bioGetHit s buf size
  | some none => bioGetMiss h s device block size

/-- The `if` of `bio_release`. -/
def pushFront (s : BioState) (buf : ℕ) : BioState :=
  let s := if s.lhead = 0 then { s with ltail := buf } else s.set s.lhead .prev buf
  let s := s.set buf .next s.lhead
  { s with lhead := buf }

def bioRelease (s : BioState) (buf : ℕ) : Except Stop BioState := do
  let s ← s.onHead acquire
  let refCount := sub32 (s.get buf .refCount) 1
  let s := s.set buf .refCount refCount
  let s := if refCount = 0 then pushFront s buf else s
  let s ← s.onHead release
  s.onMutex (s.get buf .mutex) release

/-- `ide_read_disk` and `ide_read_disk_buffer`; `device_idx` is a `uint8_t`. -/
def ideReadDisk (s : BioState) (deviceIdx buffer addr size : ℕ) : BioState :=
  { s with mem := memcpy s.mem buffer (s.disk (deviceIdx % 2 ^ 8)) addr size }

def ideWriteDisk (s : BioState) (deviceIdx buffer addr size : ℕ) : BioState :=
  { s with
    disk := Function.update s.disk (deviceIdx % 2 ^ 8)
      (memcpy (s.disk (deviceIdx % 2 ^ 8)) addr s.mem buffer size) }

/-- `bio_read` after `bio_get`. -/
def bioFill (s : BioState) (buf device block size : ℕ) : BioState :=
  if s.get buf .valid = 0 then
    (ideReadDisk s device (s.get buf .buffer) (u32 (block * size)) size).set buf .valid 1
  else s

def bioRead (h : Heap) (s : BioState) (device block size : ℕ) : Except Stop (ℕ × BioState) := do
  let (buf, s) ← bioGet h s device block size
  return (buf, bioFill s buf device block size)

def bioWrite (s : BioState) (buf : ℕ) : BioState :=
  let s := ideWriteDisk s (s.get buf .device) (s.get buf .buffer)
    (u32 (s.get buf .block * s.get buf .size)) (s.get buf .size)
  s.set buf .valid 0

/-- `BIO_TABLE_SIZE` and `BIO_LOAD_FACTOR`. -/
def bioInit (mem : Mem) (disk : ℕ → ℕ → UInt8) : Option BioState := do
  let table ← htCreate 50 75 false
  return ⟨mem, table, mutexCreate, 0, 0, disk, [], false⟩

/-! ## Runs of one task -/

/-- Besides the code's data, what the task does with its buffers. -/
structure BioSys where
  bio : BioState
  /-- The buffers that `bio_read` returned and that were not released since. -/
  held : List ℕ
  /-- The buffers that were changed and not written since. -/
  modified : List ℕ
  /-- The bytes of the last `bio_write` to a block of a device. -/
  contents : ℕ → ℕ → List UInt8
  /-- How many buffers were released, and when each was last. -/
  clock : ℕ
  releasedAt : ℕ → ℕ

inductive BioOp
  | read (h : Heap) (device block size : ℕ)
  | modify (buf : ℕ) (bytes : Mem)
  | write (buf : ℕ)
  | release (buf : ℕ)
  /-- Somebody else uses the heap. -/
  | other (junk : Mem)

def bioStep (c : BioSys) : BioOp → Except Stop BioSys
  | .read h device block size => do
    let (buf, s) ← bioRead h c.bio device block size
    return { c with bio := s, held := buf :: c.held }
  | .modify buf bytes =>
    .ok { c with
      bio := { c.bio with mem := memcpy c.bio.mem (c.bio.get buf .buffer) bytes 0 (c.bio.get buf .size) }
      modified := buf :: c.modified }
  | .write buf =>
    .ok { c with
      bio := bioWrite c.bio buf
      modified := c.modified.filter (· ≠ buf)
      contents := Function.update c.contents (c.bio.get buf .device)
        (Function.update (c.contents (c.bio.get buf .device)) (c.bio.get buf .block)
          (bytesAt c.bio.mem (c.bio.get buf .buffer) (c.bio.get buf .size))) }
  | .release buf => do
    let s ← bioRelease c.bio buf
    return { c with
      bio := s
      held := c.held.erase buf
      clock := c.clock + 1
      releasedAt := Function.update c.releasedAt buf c.clock }
  | .other junk =>
    .ok { c with bio := { c.bio with
      mem := fun x => if ∃ r ∈ c.bio.allocated, Inside r x then c.bio.mem x else junk x } }

/-- Two pieces of memory do not overlap. -/
def Apart (r r' : ℕ × ℕ) : Prop := r.1 + r.2 ≤ r'.1 ∨ r'.1 + r'.2 ≤ r.1

instance (r r' : ℕ × ℕ) : Decidable (Apart r r') := inferInstanceAs (Decidable (_ ∨ _))

/-- What `bio_alloc` asks `kmalloc` for. -/
def Heap.pieces (h : Heap) (size : ℕ) : List (ℕ × ℕ) :=
  [(h.buf, sizeofBuf), (h.mutex, sizeofSem), (h.buffer, size)]

/-- `kmalloc` gave memory above page 0, apart from what is allocated. -/
def Heap.Fresh (h : Heap) (s : BioState) (size : ℕ) : Prop :=
  (h.pieces size).Pairwise Apart ∧ ∀ r ∈ h.pieces size, 4096 ≤ r.1 ∧ 0 < r.2 ∧ r.1 + r.2 ≤ 2 ^ 32 ∧
    ∀ r' ∈ s.allocated, Apart r r'

instance (h : Heap) (s : BioState) (size : ℕ) : Decidable (h.Fresh s size) :=
  inferInstanceAs (Decidable (_ ∧ _))

/-- The arguments are 32-bit values, and the task uses the buffers it holds. -/
def BioOp.Legal (c : BioSys) : BioOp → Prop
  | .read h device block size => h.Fresh c.bio size ∧ device < 2 ^ 32 ∧ block < 2 ^ 32
  | .modify buf _ | .write buf | .release buf => buf ∈ c.held
  | .other _ => True

instance (c : BioSys) : (op : BioOp) → Decidable (op.Legal c)
  | .read _ _ _ _ => inferInstanceAs (Decidable (_ ∧ _))
  | .modify _ _ | .write _ | .release _ => inferInstanceAs (Decidable (_ ∈ _))
  | .other _ => inferInstanceAs (Decidable True)

/-- A call that returns. -/
def BioMove (c : BioSys) (op : BioOp) (c' : BioSys) : Prop := op.Legal c ∧ bioStep c op = .ok c'

def bioBoot (s : BioState) : BioSys :=
  ⟨s, [], [], fun device block => bytesAt (s.disk device) (block * 1024) 1024, 0, fun _ => 0⟩

end BulbOS.Bio
