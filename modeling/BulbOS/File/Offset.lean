import BulbOS.Ext2.Content
import BulbOS.File.Refs
import BulbOS.Lib.Stop

/-!
# The offset of an open file (`kernel/fs/inode.c`, `kernel/fs/file.c`)

`inode_read` and `inode_write` add the result of the transfer to `file->offset` unless it is `0`: the `-1` of a write
that fails, too. Between two calls on a file, other descriptors may do anything to its inode.

* `inodeRead`, `inodeWrite`, `fileRead`, `fileWrite`: the calls, with the results as `int`;
* `readLoop_count`, `writeLoop_count`: a transfer that returns moved all bytes;
* `OffsetOp.Fits`: the call neither fails in `ext2_write_content` nor leaves the range of `int` and `size_t`;
* **`offset_iff`**: the offset is the sum of the results after every run of such calls, and after no other call.
-/

namespace BulbOS.File.Offset

open KLib BulbOS.Ext2

/-! ## The calls -/

/-- A value as `int`. -/
def asInt (n : ℤ) : ℤ := n.bmod (2 ^ 32)

/-- `file->offset += b`, if `b` is not `0`. -/
def advance (file : FileT) (b : ℤ) : FileT :=
  if b ≠ 0 then { file with offset := (((file.offset : ℤ) + b) % 2 ^ 32).toNat } else file

def inodeRead (s : Fs) (inode : Inode) (file : FileT) (addr : Mem) (size : ℕ) :
    Except Stop (ℤ × FileT × Inode × Fs) := do
  let (bread, _, inode, s) ← ext2ReadContent s inode addr file.offset size
  return (asInt bread, advance file (asInt bread), inode, s)

def inodeWrite (s : Fs) (inode : Inode) (file : FileT) (addr : Mem) (size : ℕ) :
    Except Stop (ℤ × FileT × Inode × Fs) := do
  let (bwrite, inode, s) ← ext2WriteContent s inode addr file.offset size
  return (asInt bwrite, advance file (asInt bwrite), inode, s)

/-- `file_read` on a file whose function is `inode_read`, or none. -/
def fileRead (s : Fs) (inode : Inode) (file : FileT) (addr : Mem) (size : ℕ) :
    Except Stop (ℤ × FileT × Inode × Fs) :=
  if !file.readp then .ok (-1, file, inode, s)
  else if file.read = .null then .ok (-1, file, inode, s)
  else inodeRead s inode file addr size

def fileWrite (s : Fs) (inode : Inode) (file : FileT) (addr : Mem) (size : ℕ) :
    Except Stop (ℤ × FileT × Inode × Fs) :=
  if !file.writep then .ok (-1, file, inode, s)
  else if file.write = .null then .ok (-1, file, inode, s)
  else inodeWrite s inode file addr size

/-! ## Runs -/

/-- A file, its inode and the disk, with the sum of the positive results of the calls so far. -/
structure OffsetSys where
  file : FileT
  inode : Inode
  fs : Fs
  sum : ℕ

inductive OffsetOp
  | read (addr : Mem) (size : ℕ)
  | write (addr : Mem) (size : ℕ)
  /-- Other descriptors truncate or extend the file. -/
  | others (inode : Inode) (fs : Fs)

/-- The state after a call, with its result. -/
def OffsetSys.after (c : OffsetSys) : ℤ × FileT × Inode × Fs → OffsetSys
  | (r, file, inode, s) => ⟨file, inode, s, c.sum + r.toNat⟩

def offsetStep (c : OffsetSys) : OffsetOp → Except Stop OffsetSys
  | .read addr size => c.after <$> fileRead c.fs c.inode c.file addr size
  | .write addr size => c.after <$> fileWrite c.fs c.inode c.file addr size
  | .others inode fs => .ok { c with inode := inode, fs := fs }

/-- The number of bytes that `ext2_read_content` sets out to read. -/
def wanted (inodeSize offset size : ℕ) : ℕ :=
  if offset > inodeSize then 0 else if u32 (offset + size) > inodeSize then inodeSize - offset else size

/-- The call neither fails in `ext2_write_content` nor leaves the range of `int` and `size_t`. -/
def OffsetOp.Fits (c : OffsetSys) : OffsetOp → Prop
  | .read _ size => c.file.readp = true → wanted c.inode.size c.file.offset size < 2 ^ 31 ∧
      c.file.offset + wanted c.inode.size c.file.offset size < 2 ^ 32
  | .write _ size => c.file.writep = true → c.file.offset ≤ c.inode.size ∧ c.file.offset + size ≤ maxFileSize
  | .others _ _ => True

/-- Sizes are `size_t`. -/
def OffsetOp.Legal : OffsetOp → Prop
  | .read _ size | .write _ size => size < 2 ^ 32
  | .others _ _ => True

/-- A call that returns. -/
def OffsetMove (c : OffsetSys) (op : OffsetOp) (c' : OffsetSys) : Prop := op.Legal ∧ offsetStep c op = .ok c'

/-- The offset is the sum of the results. -/
def OffsetOk (c : OffsetSys) : Prop := c.file.offset = c.sum

/-! ## Transfers -/

theorem chunk_le (rest bufOff : ℕ) : chunk rest bufOff ≤ rest := by
  unfold chunk
  split_ifs with h
  · exact le_rfl
  · exact not_lt.mp h

theorem next_le {size i : ℕ} (h : i < size) (bufOff : ℕ) : u32 (i + chunk (size - i) bufOff) ≤ size :=
  calc
    u32 (i + chunk (size - i) bufOff) ≤ i + chunk (size - i) bufOff := Nat.mod_le _ _
    _ ≤ i + (size - i) := Nat.add_le_add_left (chunk_le _ _) i
    _ = size := Nat.add_sub_of_le h.le

theorem readLoop_count {size fuel i offset n : ℕ} {dst dst' : Mem} {inode inode' : Inode} {s s' : Fs}
    (hi : i ≤ size) (h : readLoop size fuel i offset dst inode s = .ok (n, dst', inode', s')) : n = size := by
  induction fuel generalizing i offset dst inode s with
  | zero => cases h
  | succ fuel ih =>
    rw [readLoop] at h
    split_ifs at h with hlt
    · obtain ⟨⟨block, inode₁, s₁⟩, -, h⟩ := eq_ok_of_bind h
      exact ih (next_le hlt _) h
    · cases h
      exact le_antisymm hi (not_lt.mp hlt)

theorem writeLoop_count {src : Mem} {size fuel i offset n offset' : ℕ} {inode inode' : Inode} {s s' : Fs}
    (hi : i ≤ size) (h : writeLoop src size fuel i offset inode s = .ok (n, offset', inode', s')) : n = size := by
  induction fuel generalizing i offset inode s with
  | zero => cases h
  | succ fuel ih =>
    rw [writeLoop] at h
    split_ifs at h with hlt
    · obtain ⟨⟨block, inode₁, s₁⟩, -, h⟩ := eq_ok_of_bind h
      exact ih (next_le hlt _) h
    · cases h
      exact le_antisymm hi (not_lt.mp hlt)

theorem ext2ReadContent_count {s s' : Fs} {inode inode' : Inode} {dst dst' : Mem} {offset size n : ℕ}
    (h : ext2ReadContent s inode dst offset size = .ok (n, dst', inode', s')) : n = wanted inode.size offset size := by
  unfold ext2ReadContent at h
  unfold wanted
  split_ifs at h ⊢ with hoff hclamp
  · cases h
    rfl
  · exact readLoop_count (Nat.zero_le _) h
  · exact readLoop_count (Nat.zero_le _) h

theorem ext2WriteContent_count {s s' : Fs} {inode inode' : Inode} {src : Mem} {offset size : ℕ} {r : ℤ}
    (h : ext2WriteContent s inode src offset size = .ok (r, inode', s')) :
    r = if offset ≤ inode.size ∧ u32 (offset + size) ≤ maxFileSize then (size : ℤ) else -1 := by
  unfold ext2WriteContent at h
  split_ifs at h with hoff hmax
  · cases h
    rw [if_neg fun hle => absurd hle.1 (not_le.mpr hoff)]
  · cases h
    rw [if_neg fun hle => absurd hle.2 (not_le.mpr hmax)]
  · rw [if_pos ⟨not_lt.mp hoff, not_lt.mp hmax⟩]
    obtain ⟨⟨n, offset', inode₁, s₁⟩, hloop, hrest⟩ := eq_ok_of_bind h
    obtain ⟨s₂, -, hrest⟩ := eq_ok_of_bind hrest
    rw [← writeLoop_count (Nat.zero_le _) hloop]
    exact (Prod.mk.inj (Except.ok.inj hrest)).1.symm

/-! ## One call -/

theorem asInt_low {n : ℕ} (h : n < 2 ^ 31) : asInt n = n := by
  unfold asInt
  rw [Int.bmod_eq_of_le] <;> omega

theorem asInt_high {n : ℕ} (h : 2 ^ 31 ≤ n) (hlt : n < 2 ^ 32) : asInt n = n - 2 ^ 32 := by
  unfold asInt
  rw [Int.bmod_neg _ _ (by omega)]
  omega

/-- A count is added: the offset grows by the result exactly if nothing leaves its range. -/
theorem advance_count {file : FileT} {n : ℕ} (hoff : file.offset < 2 ^ 32) (hn : n < 2 ^ 32) :
    (advance file (asInt n)).offset = file.offset + (asInt n).toNat ↔ n < 2 ^ 31 ∧ file.offset + n < 2 ^ 32 := by
  unfold advance
  rcases Nat.lt_or_ge n (2 ^ 31) with hlow | hhigh
  · rw [asInt_low hlow, Int.toNat_natCast]
    split_ifs with h₀
    · dsimp only
      omega
    · omega
  · rw [asInt_high hhigh hn, if_pos (by omega)]
    dsimp only
    omega

theorem advance_failed {file : FileT} :
    (advance file (asInt (-1))).offset ≠ file.offset + (asInt (-1)).toNat := by
  have hint : asInt (-1) = -1 := by decide
  rw [hint]
  unfold advance
  rw [if_pos (by decide)]
  dsimp only
  omega

/-- A file with the functions that `file_open` gives it. -/
structure Opened (file : FileT) : Prop where
  read : file.read = .inodeRead
  write : file.write = .inodeWrite
  offset : file.offset < 2 ^ 32

theorem Opened.advance {file : FileT} (h : Opened file) (b : ℤ) : Opened (advance file b) := by
  unfold Offset.advance
  split_ifs
  · exact ⟨h.read, h.write, by dsimp only; omega⟩
  · exact h

theorem wanted_lt {inodeSize offset size : ℕ} (h : size < 2 ^ 32) : wanted inodeSize offset size < 2 ^ 32 := by
  have hsum := u32_lt (offset + size)
  unfold wanted
  split_ifs <;> omega

theorem fileRead_offset {s s' : Fs} {inode inode' : Inode} {file file' : FileT} {addr : Mem} {size : ℕ} {r : ℤ}
    (h : Opened file) (hsize : size < 2 ^ 32) (hr : fileRead s inode file addr size = .ok (r, file', inode', s')) :
    Opened file' ∧ (file'.offset = file.offset + r.toNat ↔ (file.readp = true →
      wanted inode.size file.offset size < 2 ^ 31 ∧ file.offset + wanted inode.size file.offset size < 2 ^ 32)) := by
  unfold fileRead at hr
  by_cases hp : file.readp = true
  · rw [hp, if_neg (by decide), h.read, if_neg (by decide), inodeRead] at hr
    obtain ⟨⟨n, dst', inode₁, s₁⟩, hcontent, hr⟩ := eq_ok_of_bind hr
    obtain rfl := ext2ReadContent_count hcontent
    obtain ⟨hr₁, hr₂⟩ := Prod.mk.inj (Except.ok.inj hr)
    rw [← hr₁, ← (Prod.mk.inj hr₂).1]
    exact ⟨h.advance _, (advance_count h.offset (wanted_lt hsize)).trans ⟨fun hw _ => hw, fun hw => hw hp⟩⟩
  · rw [Bool.eq_false_iff.mpr hp, if_pos (by decide)] at hr
    cases hr
    exact ⟨h, fun _ hp' => absurd hp' hp, fun _ => rfl⟩

theorem fileWrite_offset {s s' : Fs} {inode inode' : Inode} {file file' : FileT} {addr : Mem} {size : ℕ} {r : ℤ}
    (h : Opened file) (hsize : size < 2 ^ 32) (hr : fileWrite s inode file addr size = .ok (r, file', inode', s')) :
    Opened file' ∧ (file'.offset = file.offset + r.toNat ↔
      (file.writep = true → file.offset ≤ inode.size ∧ file.offset + size ≤ maxFileSize)) := by
  have hmax : maxFileSize = 67383296 := by decide
  unfold fileWrite at hr
  by_cases hp : file.writep = true
  · rw [hp, if_neg (by decide), h.write, if_neg (by decide), inodeWrite] at hr
    obtain ⟨⟨b, inode₁, s₁⟩, hcontent, hr⟩ := eq_ok_of_bind hr
    have hb := ext2WriteContent_count hcontent
    obtain ⟨hr₁, hr₂⟩ := Prod.mk.inj (Except.ok.inj hr)
    rw [← hr₁, ← (Prod.mk.inj hr₂).1]
    refine ⟨h.advance _, ?_⟩
    split_ifs at hb with hfits
    · rw [hb, advance_count h.offset hsize]
      have hwrap : u32 (file.offset + size) ≤ maxFileSize := hfits.2
      have hsum : file.offset + size < 2 ^ 32 → u32 (file.offset + size) = file.offset + size := u32_of_lt
      refine ⟨fun hw _ => ⟨hfits.1, hsum hw.2 ▸ hwrap⟩, fun hw => ?_⟩
      have hle := (hw hp).2
      omega
    · rw [hb]
      refine ⟨fun hw => absurd hw advance_failed, fun hw => absurd ⟨(hw hp).1, ?_⟩ hfits⟩
      exact (Nat.mod_le _ _).trans (hw hp).2
  · rw [Bool.eq_false_iff.mpr hp, if_pos (by decide)] at hr
    cases hr
    exact ⟨h, fun _ hp' => absurd hp' hp, fun _ => rfl⟩

theorem offset_step {c c' : OffsetSys} {op : OffsetOp} (h : Opened c.file) (hok : OffsetOk c)
    (hs : OffsetMove c op c') :
    Opened c'.file ∧ (OffsetOk c' ↔ op.Fits c) := by
  obtain ⟨hlegal, hs⟩ := hs
  have hoff : c.file.offset = c.sum := hok
  cases op with
  | read addr size =>
    obtain ⟨⟨r, file, inode, s⟩, hr, hs⟩ := eq_ok_of_bind hs
    cases hs
    obtain ⟨hopened, hiff⟩ := fileRead_offset h hlegal hr
    nth_rewrite 1 [hoff] at hiff
    exact ⟨hopened, hiff⟩
  | write addr size =>
    obtain ⟨⟨r, file, inode, s⟩, hr, hs⟩ := eq_ok_of_bind hs
    cases hs
    obtain ⟨hopened, hiff⟩ := fileWrite_offset h hlegal hr
    nth_rewrite 1 [hoff] at hiff
    exact ⟨hopened, hiff⟩
  | others inode fs =>
    cases hs
    exact ⟨h, fun _ => trivial, fun _ => hok⟩

/-! ## Every run -/

/-- A call that fits. -/
def FitMove (c : OffsetSys) (op : OffsetOp) (c' : OffsetSys) : Prop := op.Fits c ∧ OffsetMove c op c'

/-- The offset after a call is the sum of the results; if the call did not transfer anything, it is as before. -/
def Tracks (c c' : OffsetSys) : Prop := OffsetOk c' ∧ (c'.sum = c.sum → c'.file.offset = c.file.offset)

theorem run_tracks {c₀ c : OffsetSys} {ops : List OffsetOp} (h₀ : Opened c₀.file ∧ OffsetOk c₀)
    (h : Run FitMove c₀ ops c) : Opened c.file ∧ OffsetOk c := by
  refine h.invariant (I := fun c => Opened c.file ∧ OffsetOk c) (fun c op c' hinv hs => ?_) h₀
  obtain ⟨hopened, hiff⟩ := offset_step hinv.1 hinv.2 hs.2
  exact ⟨hopened, hiff.mpr hs.1⟩

theorem fileOpen_opened {s s' : Files} {inode mode flags ptr fd : ℕ}
    (h : fileOpen s (some (inode, mode)) flags ptr = some ((fd : ℤ), s')) :
    Opened (s'.files (s'.openFiles fd)) ∧ (s'.files (s'.openFiles fd)).offset = 0 := by
  have hfd : ¬(fd : ℤ) = -1 := by omega
  unfold fileOpen at h
  dsimp only at h
  split_ifs at h with hdir hfull
  · exact absurd (Prod.mk.inj (Option.some.inj h)).1.symm hfd
  · obtain ⟨s₁, -, h⟩ := Option.bind_eq_some_iff.mp h
    exact absurd (Prod.mk.inj (Option.some.inj h)).1.symm hfd
  · obtain ⟨hn, rfl⟩ := Prod.mk.inj (Option.some.inj h)
    rcases fdAlloc_cases (fileAlloc s ptr).2 (fileAlloc s ptr).1 with heq | ⟨j, -, -, heq⟩
    · exact absurd (congrArg Prod.fst heq) hfull
    · obtain rfl : j = fd := by
        have hj := congrArg Prod.fst heq
        dsimp only at hj
        omega
      have hentry : (fdAlloc (fileAlloc s ptr).2 (fileAlloc s ptr).1).2.openFiles j = (fileAlloc s ptr).1 := by
        rw [heq]
        exact Function.update_self ..
      dsimp only [Files.set]
      rw [hentry, Function.update_self]
      exact ⟨⟨rfl, rfl, Nat.two_pow_pos 32⟩, rfl⟩

/-- **The offset is the sum of the results** while every call fits, and not after a call that does not. -/
theorem offset_iff {s s' : Files} {inode mode flags ptr fd : ℕ}
    (hopen : fileOpen s (some (inode, mode)) flags ptr = some ((fd : ℤ), s')) {i₀ : Inode} {fs₀ : Fs} {c : OffsetSys}
    {ops : List OffsetOp} (h : Run FitMove ⟨s'.files (s'.openFiles fd), i₀, fs₀, 0⟩ ops c) :
    OffsetOk c ∧ ∀ op c', OffsetMove c op c' → (Tracks c c' ↔ op.Fits c) := by
  obtain ⟨hopened, hok⟩ := run_tracks (fileOpen_opened hopen) h
  refine ⟨hok, fun op c' hs => ?_⟩
  have hstep := (offset_step hopened hok hs).2
  refine ⟨fun htracks => hstep.mp htracks.1, fun hfits => ⟨hstep.mpr hfits, fun hsum => ?_⟩⟩
  exact (hstep.mpr hfits).trans (hsum.trans hok.symm)

instance (c : OffsetSys) : (op : OffsetOp) → Decidable (op.Fits c)
  | .read _ size => inferInstanceAs (Decidable (c.file.readp = true →
      wanted c.inode.size c.file.offset size < 2 ^ 31 ∧
        c.file.offset + wanted c.inode.size c.file.offset size < 2 ^ 32))
  | .write _ size => inferInstanceAs (Decidable (c.file.writep = true →
      c.file.offset ≤ c.inode.size ∧ c.file.offset + size ≤ maxFileSize))
  | .others _ _ => instDecidableTrue

instance : (op : OffsetOp) → Decidable op.Legal
  | .read _ size | .write _ size => inferInstanceAs (Decidable (size < 2 ^ 32))
  | .others _ _ => instDecidableTrue

/-- The files after `file_open` gave descriptor `0`. -/
def openedFiles : Files := ((fileOpen fileInit (some (2, 0x8000)) oRdwr 0x1000).map Prod.snd).getD fileInit

theorem fileOpen_openedFiles : fileOpen fileInit (some (2, 0x8000)) oRdwr 0x1000 =
    some (((0 : ℕ) : ℤ), openedFiles) := rfl

/-- A file that was just opened for reading and writing. -/
def openedSys : OffsetSys := ⟨openedFiles.files (openedFiles.openFiles 0), demoFile, demoFs, 0⟩

/-- 100 bytes are written, another descriptor truncates the file, and a read finds nothing more. -/
def truncatedOps : List OffsetOp :=
  [.write (fun _ => 9) 100, .others { demoFile with size := 50 } demoFs, .read (fun _ => 0) 10]

theorem offset_iff_truncated : ∃ c, Run FitMove openedSys truncatedOps c ∧ OffsetOk c ∧ c.file.offset = 100 ∧
    ∀ op c', OffsetMove c op c' → (Tracks c c' ↔ op.Fits c) := by
  obtain ⟨c, hrun, hc⟩ := exists_run (fun c (op : OffsetOp) => op.Fits c ∧ op.Legal) offsetStep openedSys truncatedOps
    (fun c => c.file.offset = 100) (by decide +kernel)
  have hrun : Run FitMove openedSys truncatedOps c := hrun.mono fun _ _ _ h => ⟨h.1.1, h.1.2, h.2⟩
  obtain ⟨hok, hnext⟩ := offset_iff fileOpen_openedFiles hrun
  exact ⟨c, hrun, hok, of_decide_eq_true hc, hnext⟩

/-- A write that is too long fails, and the offset is `2 ^ 32 - 1`. -/
theorem failed_write_moves : ∃ c', OffsetMove openedSys (.write (fun _ => 9) 67383297) c' ∧ c'.sum = openedSys.sum ∧
    openedSys.file.offset = 0 ∧ c'.file.offset = 2 ^ 32 - 1 ∧ ¬Tracks openedSys c' := by
  obtain ⟨c', hrun, hc⟩ := exists_run (fun _ (op : OffsetOp) => op.Legal) offsetStep openedSys
    [.write (fun _ => 9) 67383297] (fun c => c.file.offset = 2 ^ 32 - 1 ∧ c.sum = 0) (by decide +kernel)
  obtain ⟨hoff, hsum⟩ := of_decide_eq_true hc
  have hmove : OffsetMove openedSys (.write (fun _ => 9) 67383297) c' := by
    cases hrun with
    | cons hs hnil =>
      cases hnil
      exact hs
  refine ⟨c', hmove, hsum, rfl, hoff, fun htracks => ?_⟩
  have hzero := htracks.2 hsum
  rw [hoff] at hzero
  exact absurd hzero (by decide +kernel)

end BulbOS.File.Offset
