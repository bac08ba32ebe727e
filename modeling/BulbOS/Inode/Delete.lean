import BulbOS.Dir.Model
import BulbOS.Ext2.Truncate
import BulbOS.Inode.Valid

/-!
# Deleting a file

`inode_release` truncates an inode without references and links if its `valid` is set. Nothing sets it: `inode_lock`
loads an inode again every time, and `ext2_inode_get` leaves `valid` as it is. `ext2_inode_free` is called by nothing.

* `Files`: the inode cache and the disk; `Files.lock`, `Files.unlink`, `Files.release`;
* `Unloaded`: no inode is valid; `Unloaded.step`: this stays so;
* **`delete_frees_iff`**: when the space of a deleted file is free.
-/

namespace BulbOS.Inode

open KLib Ext2 BulbOS.Dir BulbOS.Table

/-! ## The calls -/

/-- The inode cache and the disk. -/
structure Files where
  cache : Inodes
  fs : Fs

/-- What the filesystem loads of an inode is replaced. -/
def Files.load (c : Files) (inode : ℕ) (data : Ext2.Inode) : Files :=
  { c with cache := c.cache.set inode { c.cache.inodes inode with data := data } }

/-- `inode_lock`, where `inode_load` is `ext2_inode_get`. -/
def Files.lock (c : Files) (inode : ℕ) : Option Files :=
  let x := c.cache.inodes inode
  if inode = 0 ∨ x.refCount = 0 then none
  else if x.valid then some c
  else do
    let data ← (ext2InodeGet c.fs x.data).toOption
    return c.load inode data

/-- `inode_release`, where `inode_trunc` is `ext2_truncate`. -/
def Files.release (c : Files) (inode : ℕ) : Option Files :=
  let (trunc, cache) := inodeRelease c.cache inode
  if trunc then do
    let (data, fs) ← (ext2Truncate c.fs (c.cache.inodes inode).data).toOption
    return Files.load ⟨cache, fs⟩ inode data
  else some { c with cache := cache }

/-- `ext2_unlink` on the disk; `buffer` is the memory that `kmalloc` returns. -/
def unlinkEntry (s : Fs) (dst : Ext2.Inode) (entry : Child) (buffer : Mem) : Option (Bool × Ext2.Inode × Fs) :=
  if entry.hardLinksCount = 0 then none
  else if entry.mode &&& 0x4000 ≠ 0 ∧ entry.size ≠ emptyDirSize then some (false, dst, s)
  else do
    let (_, buffer, dst, s) ← (ext2ReadContent s dst buffer 0 dst.size).toOption
    let (buffer, size) ← unlinkBuffer buffer entry
    let (_, dst, s) ← (ext2WriteContent s dst buffer 0 dst.size).toOption
    let dst := { dst with size := size }
    let s ← (ext2InodeUpdate s dst).toOption
    return (true, dst, s)

/-- `--x` of an `uint16_t`. -/
def dec16 (x : ℕ) : ℕ := (x + 0xFFFF) % 0x10000

/-- `dir_unlink` of a child of `dir` behind the lookups, which give the offset of the child and of its siblings. -/
def Files.unlink (c : Files) (dir entry offset : ℕ) (before after : List ℕ) (buffer : Mem) :
    Option (Bool × Files) := do
  let c ← c.lock dir
  let c ← c.lock entry
  let e := (c.cache.inodes entry).data
  let child := childAt e.mode e.hardLinksCount e.size before offset after
  let (done, dst, fs) ← unlinkEntry c.fs (c.cache.inodes dir).data child buffer
  let c := Files.load { c with fs := fs } dir dst
  if done then
    let e := (c.cache.inodes entry).data
    let links := if e.mode &&& 0x4000 ≠ 0 then dec16 e.hardLinksCount else e.hardLinksCount
    let e := { e with hardLinksCount := dec16 links }
    let fs ← (ext2InodeUpdate c.fs e).toOption
    return (true, Files.load { c with fs := fs } entry e)
  else return (false, c)

/-- The calls; `other` is all that changes the disk and what is loaded of an inode: it is read and written, linked
and updated. -/
inductive FileCall
  | get (ptr device n : ℕ)
  | dup (inode : ℕ)
  | release (inode : ℕ)
  | lock (inode : ℕ)
  | unlink (dir entry offset : ℕ) (before after : List ℕ) (buffer : Mem)
  | other (inode : ℕ) (data : Ext2.Inode) (fs : Fs)

def FileCall.step (c : Files) : FileCall → Option Files
  | .get ptr device n => (inodeGet c.cache ptr device n).toOption.map fun r => { c with cache := r.2 }
  | .dup inode => some { c with cache := inodeDup c.cache inode }
  | .release inode => c.release inode
  | .lock inode => c.lock inode
  | .unlink dir entry offset before after buffer => (c.unlink dir entry offset before after buffer).map Prod.snd
  | .other inode data fs => some (Files.load { c with fs := fs } inode data)

def FileMove (c : Files) (call : FileCall) (c' : Files) : Prop := call.step c = some c'

/-! ## `valid` -/

variable {s : Inodes} {c c' : Files} {i : ℕ}

theorem Files.load_valid (c : Files) (i : ℕ) (data : Ext2.Inode) : KeepsValid c.cache (c.load i data).cache :=
  keepsValid_set id

theorem Files.lock_valid (h : c.lock i = some c') : KeepsValid c.cache c'.cache := by
  unfold Files.lock at h
  dsimp only at h
  split_ifs at h
  · cases h
    exact keepsValid_of_inodes rfl fun _ hj => hj
  · obtain ⟨data, -, h⟩ := Option.bind_eq_some_iff.mp h
    cases h
    exact c.load_valid i data

theorem Files.release_valid (h : c.release i = some c') : KeepsValid c.cache c'.cache := by
  unfold Files.release at h
  dsimp only at h
  split_ifs at h
  · obtain ⟨⟨data, fs⟩, -, h⟩ := Option.bind_eq_some_iff.mp h
    cases h
    exact inodeRelease_valid.trans (Files.load_valid ⟨_, fs⟩ i data)
  · cases h
    exact inodeRelease_valid

theorem Files.unlink_valid {dir entry offset : ℕ} {before after : List ℕ} {buffer : Mem} {done : Bool}
    (h : c.unlink dir entry offset before after buffer = some (done, c')) : KeepsValid c.cache c'.cache := by
  unfold Files.unlink at h
  obtain ⟨c₁, h₁, h⟩ := Option.bind_eq_some_iff.mp h
  obtain ⟨c₂, h₂, h⟩ := Option.bind_eq_some_iff.mp h
  obtain ⟨⟨done', dst, fs⟩, -, h⟩ := Option.bind_eq_some_iff.mp h
  have hk := ((lock_valid h₁).trans (lock_valid h₂)).trans (Files.load_valid ⟨c₂.cache, fs⟩ dir dst)
  dsimp only at h
  cases done' with
  | false =>
    cases h
    exact hk
  | true =>
    obtain ⟨fs', -, h⟩ := Option.bind_eq_some_iff.mp h
    cases h
    exact hk.trans (Files.load_valid ⟨_, fs'⟩ entry _)

/-- No inode that is in use is valid. -/
def Unloaded (c : Files) : Prop := ∀ j ∈ c.cache.live, (c.cache.inodes j).valid = false

theorem Unloaded.keep (h : Unloaded c) (hk : KeepsValid c.cache c'.cache) : Unloaded c' := by
  intro j hj
  by_contra hv
  obtain ⟨hj', hv'⟩ := hk j hj (Bool.eq_true_of_not_eq_false hv)
  rw [h j hj'] at hv'
  cases hv'

theorem Unloaded.step {call : FileCall} (h : Unloaded c) (hs : FileMove c call c') : Unloaded c' := by
  refine h.keep ?_
  cases call with
  | get ptr device n =>
    obtain ⟨⟨i, s'⟩, hr, rfl⟩ := Option.map_eq_some_iff.mp hs
    exact inodeGet_valid (eq_ok_of_toOption hr)
  | dup inode =>
    cases hs
    exact keepsValid_set id
  | release inode => exact Files.release_valid hs
  | lock inode => exact Files.lock_valid hs
  | unlink dir entry offset before after buffer =>
    obtain ⟨⟨done, c''⟩, hr, rfl⟩ := Option.map_eq_some_iff.mp hs
    exact Files.unlink_valid hr
  | other inode data fs =>
    cases hs
    exact Files.load_valid ⟨c.cache, fs⟩ inode data

theorem unloaded_boot {inodes : ℕ → InodeT} {next prev : ℕ → ℕ} (h : inodeInit inodes next prev = some s) (fs : Fs) :
    Unloaded ⟨s, fs⟩ := by
  unfold inodeInit at h
  obtain ⟨table, -, h⟩ := Option.bind_eq_some_iff.mp h
  cases h
  exact fun j hj => absurd hj List.not_mem_nil

theorem Unloaded.release (h : Unloaded c) (hi : i ∈ c.cache.live) (hrel : c.release i = some c') : c'.fs = c.fs := by
  have hv := h i hi
  have htrunc : (inodeRelease c.cache i).1 = false := by
    unfold inodeRelease
    dsimp only
    split_ifs with href htrunc
    · change (Function.update c.cache.inodes i _ i).valid = true ∧ _ at htrunc
      rw [Function.update_self, hv] at htrunc
      cases htrunc.1
    · rfl
    · rfl
  unfold Files.release at hrel
  dsimp only at hrel
  rw [htrunc] at hrel
  cases hrel
  rfl

/-! ## Deletion -/

/-- The inode `f` and all blocks that are reached from it are free in the bitmaps of `s'`. -/
def Freed (s : Fs) (f : Ext2.Inode) (s' : Fs) : Prop :=
  bit s' f.device true ((f.n - 1) / s.sblock.inodesPerGroup) ((f.n - 1) % s.sblock.inodesPerGroup) = false ∧
    ∀ b ∈ reachable s f, bit s' f.device false (b / s.sblock.blocksPg) (b % s.sblock.blocksPg) = false

/-- Inode `i`, a regular file with one link, is unlinked on the way from `c₀` to `c`, and from `c` to `c'` its last
reference is released. -/
structure Deletion (i : ℕ) (c₀ c c' : Files) : Prop where
  unlinked : ∃ calls c₁ data dir offset before after buffer c₂ calls', Run FileMove c₀ calls c₁ ∧
    ext2InodeGet c₁.fs (c₁.cache.inodes i).data = .ok data ∧ data.mode &&& 0xF000 = 0x8000 ∧ data.hardLinksCount = 1 ∧
    c₁.unlink dir i offset before after buffer = some (true, c₂) ∧ Run FileMove c₂ calls' c
  live : i ∈ c.cache.live
  last : (c.cache.inodes i).refCount = 1
  released : c.release i = some c'

theorem Deletion.unloaded {c₀ : Files} (h : Deletion i c₀ c c') (h₀ : Unloaded c₀) : Unloaded c := by
  obtain ⟨calls, c₁, -, dir, offset, before, after, buffer, c₂, calls', hrun, -, -, -, hunlink, hrun'⟩ := h.unlinked
  have h₁ : Unloaded c₁ := hrun.invariant (I := Unloaded) (fun _ _ _ => Unloaded.step) h₀
  have h₂ : Unloaded c₂ := h₁.keep (Files.unlink_valid hunlink)
  exact hrun'.invariant (I := Unloaded) (fun _ _ _ => Unloaded.step) h₂

/-- **Deletion.** The release frees nothing: afterwards the inode and the blocks of the file are free exactly if they
were free before it. -/
theorem delete_frees_iff {inodes : ℕ → InodeT} {next prev : ℕ → ℕ} {cache : Inodes} {fs : Fs}
    (hboot : inodeInit inodes next prev = some cache) (h : Deletion i ⟨cache, fs⟩ c c') :
    Freed c.fs (c.cache.inodes i).data c'.fs ↔ Freed c.fs (c.cache.inodes i).data c.fs := by
  have hfs : c'.fs = c.fs := (h.unloaded (unloaded_boot hboot fs)).release h.live h.released
  rw [hfs]

/-- Inode 2 is a directory with the entries `b` and `a`, and inode 12 is `a`, a file of 100 bytes in block 8. -/
def demoFs : Fs where
  sblock := ⟨64, 0, 64, 16, 128⟩
  bgDescrs _ := ⟨3, 4, 5⟩
  disk _ b x :=
    if b = 3 then if x = 0 then 0xFF else if x = 1 then 1 else 0
    else if b = 4 then if x = 0 then 0xFF else if x = 1 then 0xF else 0
    else if b = 5 then if x = 257 then 0x40 else if x = 261 then 4 else if x = 282 then 2 else if x = 296 then 7 else 0
    else if b = 6 then
      if x = 513 then 0x80 else if x = 516 then 100 else if x = 538 then 1 else if x = 552 then 8 else 0
    else if b = 7 then [2, 0, 0, 0, 12, 0, 1, 2, 46, 0, 0, 0, 2, 0, 0, 0, 12, 0, 2, 2, 46, 46, 0, 0,
      11, 0, 0, 0, 12, 0, 1, 1, 98, 0, 0, 0, 12, 0, 0, 0, 220, 3, 1, 1, 97, 0, 0, 0].getD x 0
    else 0

/-- The memory is clear. -/
def demoMemory (_ : ℕ) : InodeT := ⟨false, 0, ⟨0, 0, 0, 0, 0, 0, 0, 0, 0, 0, fun _ => 0⟩⟩

/-- `inode_get` of the directory and of the file, `dir_unlink` and `inode_release`: the states around the last two. -/
def demoDelete (c₀ : Files) : Option (Files × Files × Files) := do
  let c₁ ← [FileCall.get 100 0 2, .get 200 0 12].foldlM FileCall.step c₀
  let (done, c) ← c₁.unlink 100 200 36 [] [24] fun _ => 0
  let c' ← c.release 200
  if done then return (c₁, c, c') else none

/-- The bit of inode 12 is set. -/
def Kept12 (c : Files) : Prop :=
  (c.cache.inodes 200).data.n = 12 ∧ (c.cache.inodes 200).data.device = 0 ∧ c.fs.sblock.inodesPerGroup = 16 ∧
    bit c.fs 0 true 0 11 = true

instance (c : Files) : Decidable (Kept12 c) := inferInstanceAs (Decidable (_ ∧ _))

theorem Kept12.not_freed (h : Kept12 c) (h' : Kept12 c') : ¬ Freed c.fs (c.cache.inodes 200).data c'.fs := by
  obtain ⟨hn, hd, hg, -⟩ := h
  intro hfreed
  have hbit := hfreed.1
  rw [hn, hd, hg] at hbit
  exact Bool.false_ne_true (hbit.symm.trans h'.2.2.2)

/-- The file is regular and has one link, the reference is the last one, and the inode stays. -/
def DemoDeleted (c₁ c c' : Files) : Prop :=
  (ext2InodeGet c₁.fs (c₁.cache.inodes 200).data).toOption.map (fun f => (f.mode, f.hardLinksCount)) =
      some (0x8000, 1) ∧
    200 ∈ c.cache.live ∧ (c.cache.inodes 200).refCount = 1 ∧ Kept12 c ∧ Kept12 c'

instance (c₁ c c' : Files) : Decidable (DemoDeleted c₁ c c') := inferInstanceAs (Decidable (_ ∧ _))

theorem demo_deletion : ∃ cache c c', inodeInit demoMemory (fun _ => 0) (fun _ => 0) = some cache ∧
    Deletion 200 ⟨cache, demoFs⟩ c c' ∧ Kept12 c ∧ Kept12 c' := by
  have heval : ((inodeInit demoMemory (fun _ => 0) (fun _ => 0)).bind fun s =>
      (demoDelete ⟨s, demoFs⟩).map (s, ·)).any (fun r => DemoDeleted r.2.1 r.2.2.1 r.2.2.2) = true := by
    decide +kernel
  obtain ⟨⟨cache, c₁, c, c'⟩, hsome, hdemo⟩ := (Option.any_eq_true ..).mp heval
  obtain ⟨s, hboot, hrun⟩ := Option.bind_eq_some_iff.mp hsome
  obtain ⟨r, hdel, hr⟩ := Option.map_eq_some_iff.mp hrun
  cases hr
  obtain ⟨hdata, hlive, hlast, hkept, hkept'⟩ := of_decide_eq_true hdemo
  obtain ⟨data, hget, hmode⟩ := Option.map_eq_some_iff.mp hdata
  obtain ⟨hmode, hlinks⟩ := Prod.mk.inj hmode
  unfold demoDelete at hdel
  obtain ⟨c₁', hcalls, hdel⟩ := Option.bind_eq_some_iff.mp hdel
  obtain ⟨⟨done, c₂⟩, hunlink, hdel⟩ := Option.bind_eq_some_iff.mp hdel
  obtain ⟨c₃, hrelease, hdel⟩ := Option.bind_eq_some_iff.mp hdel
  cases done with
  | false => cases hdel
  | true =>
    cases hdel
    have hrun : Run FileMove _ _ c₁ := run_of_foldlM (fun _ _ _ h => h) hcalls
    refine ⟨cache, c, c', hboot, ⟨⟨_, c₁, data, 100, 36, [], [24], _, c, [], hrun, eq_ok_of_toOption hget, ?_, hlinks,
      hunlink, .nil c⟩, hlive, hlast, hrelease⟩, hkept, hkept'⟩
    rw [hmode]
    decide

theorem delete_frees_iff_demo : ∃ cache c c', inodeInit demoMemory (fun _ => 0) (fun _ => 0) = some cache ∧
    Deletion 200 ⟨cache, demoFs⟩ c c' ∧ ¬ Freed c.fs (c.cache.inodes 200).data c'.fs := by
  obtain ⟨cache, c, c', hboot, h, hkept, -⟩ := demo_deletion
  exact ⟨cache, c, c', hboot, h, fun hfreed => hkept.not_freed hkept ((delete_frees_iff hboot h).mp hfreed)⟩

/-- **A deleted file keeps its inode.** -/
theorem deleted_inode_in_use : ¬ ∀ (inodes : ℕ → InodeT) (next prev : ℕ → ℕ) (cache : Inodes) (fs : Fs) (i : ℕ)
    (c c' : Files), inodeInit inodes next prev = some cache → Deletion i ⟨cache, fs⟩ c c' →
    Freed c.fs (c.cache.inodes i).data c'.fs := by
  intro hall
  obtain ⟨cache, c, c', hboot, h, hkept, hkept'⟩ := demo_deletion
  exact hkept.not_freed hkept' (hall _ _ _ _ _ _ _ _ hboot h)

end BulbOS.Inode
