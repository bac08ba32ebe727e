import BulbOS.File.Refs
import BulbOS.Lib.Stop

/-!
# Descriptors from user tasks

The system calls take any `int` as a descriptor. Here a call that indexes outside `open_files`, dereferences
an empty entry or calls through a `NULL` function pointer has a `Fault`.

* `syscall`: the calls, with their faults; `Safe`: a call that fails or acts on a live file of the task;
* `Counted`: every entry is a counted reference; `Counted.step`: a safe call keeps this;
* **`safe_iff`**: in every state of every run, which calls are safe.
-/

namespace BulbOS.File

open KLib

/-- How a call ends in the kernel. -/
inductive Fault
  | outside
  | nullFile
  | nullCall
  deriving DecidableEq, Repr

/-- A call returns `-1`, or it has acted on files. -/
inductive Outcome
  | fails
  | acts (files : List ℕ)
  deriving DecidableEq, Repr

/-- The calls; `offset` is `file->offset` after a read or a write. -/
inductive Syscall
  | open (entry : Option (ℕ × ℕ)) (flags ptr : ℕ)
  | pipe (ptr ptr' pipe : ℕ)
  | dup (oldFd : ℤ)
  | read (fd : ℤ) (offset : ℕ)
  | write (fd : ℤ) (offset : ℕ)
  | fstat (fd : ℤ)
  | close (fd : ℤ)

/-- `current_task->open_files[fd]`. -/
def entryAt (s : Files) (fd : ℤ) : Except Fault ℕ :=
  if 0 ≤ fd ∧ fd < openFilesCount then .ok (s.openFiles fd.toNat) else .error .outside

/-- `*file`. -/
def deref (s : Files) (file : ℕ) : Except Fault FileT :=
  if file = 0 then .error .nullFile else .ok (s.files file)

/-- `file_read` and `file_write`: the permission, the pointer, and the call through it. -/
def fileCall (allowed : FileT → Bool) (fn : FileT → FileFn) (s : Files) (file offset : ℕ) :
    Except Fault (Outcome × Files) := do
  let x ← deref s file
  if !allowed x then return (.fails, s)
  if fn x = .null then return (.fails, s)
  return (.acts [file], s.set file { x with offset := offset })

def fileRead : Files → ℕ → ℕ → Except Fault (Outcome × Files) := fileCall FileT.readp FileT.read

def fileWrite : Files → ℕ → ℕ → Except Fault (Outcome × Files) := fileCall FileT.writep FileT.write

def fileStat (s : Files) (file : ℕ) : Except Fault (Outcome × Files) := do
  let x ← deref s file
  if x.stat = .null then return (.fails, s)
  return (.acts [file], s)

/-- `fd_alloc` dereferences the file if it finds a free entry. -/
def fdDup (s : Files) (file : ℕ) : Except Fault (Outcome × Files) :=
  if (fdAlloc s file).1 = -1 then .ok (.fails, s)
  else do
    let _ ← deref s file
    return (.acts [file], (fdAlloc s file).2)

def syscall (s : Files) : Syscall → Except Fault (Outcome × Files)
  | .open entry flags ptr =>
    match fileOpen s entry flags ptr with
    | none => .error .nullCall
    | some (fd, s') => .ok (if fd = -1 then .fails else .acts [s'.openFiles fd.toNat], s')
  | .pipe ptr ptr' pipe =>
    match syscallPipe s ptr ptr' pipe with
    | none => .error .nullCall
    | some (_, none, s') => .ok (.fails, s')
    | some (_, some (rfd, wfd), s') => .ok (.acts [s'.openFiles rfd.toNat, s'.openFiles wfd.toNat], s')
  | .dup oldFd => do
    let file ← entryAt s oldFd
    fdDup s file
  | .read fd offset => do
    let file ← entryAt s fd
    fileRead s file offset
  | .write fd offset => do
    let file ← entryAt s fd
    -- the result of `file_write` is not returned
    let (_, s) ← fileWrite s file offset
    return (.acts [file], s)
  | .fstat fd => do
    let file ← entryAt s fd
    fileStat s file
  | .close fd => do
    let file ← entryAt s fd
    let _ ← deref s file
    match syscallClose s fd.toNat with
    | none => .error .nullCall
    | some s' => .ok (.acts [file], s')

/-- A live file of the task. -/
def LiveEntry (s : Files) (f : ℕ) : Prop :=
  f ≠ 0 ∧ 1 ≤ (s.files f).refCount ∧ ∃ i < openFilesCount, s.openFiles i = f

/-- The call returns `-1`, or it has acted on files that are live and entries of the task, before the call
or, for new files, after it. -/
def Safe (s : Files) (op : Syscall) : Prop :=
  ∃ r s', syscall s op = .ok (r, s') ∧ ∀ fs, r = .acts fs → ∀ f ∈ fs, LiveEntry s f ∨ LiveEntry s' f

/-- `kmalloc` gives memory that no entry refers to. -/
def Syscall.Legal (s : Files) : Syscall → Prop
  | .open _ _ ptr => ptr ≠ 0 ∧ ∀ i < openFilesCount, s.openFiles i ≠ ptr
  | .pipe ptr ptr' _ => (ptr ≠ 0 ∧ ∀ i < openFilesCount, s.openFiles i ≠ ptr) ∧
    (ptr' ≠ 0 ∧ ∀ i < openFilesCount, s.openFiles i ≠ ptr') ∧ ptr ≠ ptr'
  | _ => True

/-- A descriptor with an entry. -/
def ValidFd (s : Files) (fd : ℤ) : Prop := 0 ≤ fd ∧ fd < openFilesCount ∧ s.openFiles fd.toNat ≠ 0

/-- Descriptors are valid, the last reference is not closed, and there are entries for new files. -/
def Syscall.Valid (s : Files) : Syscall → Prop
  | .open entry flags ptr => (FileOp.open entry flags ptr).Creates → ∃ i < openFilesCount, s.openFiles i = 0
  | .pipe _ _ _ => ∃ i < openFilesCount, ∃ j < openFilesCount, i ≠ j ∧ s.openFiles i = 0 ∧ s.openFiles j = 0
  | .dup fd | .read fd _ | .write fd _ | .fstat fd => ValidFd s fd
  | .close fd => ValidFd s fd ∧ (s.files (s.openFiles fd.toNat)).refCount ≠ 1

instance (s : Files) (fd : ℤ) : Decidable (ValidFd s fd) :=
  inferInstanceAs (Decidable (0 ≤ fd ∧ fd < openFilesCount ∧ s.openFiles fd.toNat ≠ 0))

instance (s : Files) : (op : Syscall) → Decidable (op.Legal s)
  | .open _ _ ptr => inferInstanceAs (Decidable (ptr ≠ 0 ∧ ∀ i < openFilesCount, s.openFiles i ≠ ptr))
  | .pipe ptr ptr' _ => inferInstanceAs (Decidable ((ptr ≠ 0 ∧ ∀ i < openFilesCount, s.openFiles i ≠ ptr) ∧
      (ptr' ≠ 0 ∧ ∀ i < openFilesCount, s.openFiles i ≠ ptr') ∧ ptr ≠ ptr'))
  | .dup _ | .read _ _ | .write _ _ | .fstat _ | .close _ => isTrue trivial

instance (s : Files) : (op : Syscall) → Decidable (op.Valid s)
  | .open entry flags ptr => inferInstanceAs (Decidable
      ((FileOp.open entry flags ptr).Creates → ∃ i < openFilesCount, s.openFiles i = 0))
  | .pipe _ _ _ => inferInstanceAs (Decidable
      (∃ i < openFilesCount, ∃ j < openFilesCount, i ≠ j ∧ s.openFiles i = 0 ∧ s.openFiles j = 0))
  | .dup fd | .read fd _ | .write fd _ | .fstat fd => inferInstanceAs (Decidable (ValidFd s fd))
  | .close fd => inferInstanceAs (Decidable
      (ValidFd s fd ∧ (s.files (s.openFiles fd.toNat)).refCount ≠ 1))

/-- No file was released, and every entry is a counted reference. -/
structure Counted (s : Files) : Prop where
  flist : s.flist = 0
  refs : ∀ i < openFilesCount, s.openFiles i ≠ 0 → ∃ k, k + openFilesCount < 2 ^ 32 ∧ Refs s (s.openFiles i) k

variable {s s' : Files} {fd : ℤ} {file : ℕ}

/-! ## Entries and files -/

theorem ValidFd.entryAt (h : ValidFd s fd) : entryAt s fd = .ok (s.openFiles fd.toNat) := if_pos ⟨h.1, h.2.1⟩

theorem ValidFd.deref (h : ValidFd s fd) :
    deref s (s.openFiles fd.toNat) = .ok (s.files (s.openFiles fd.toNat)) := if_neg h.2.2

theorem ValidFd.toNat_lt (h : ValidFd s fd) : fd.toNat < openFilesCount := by
  have h₁ := h.1
  have h₂ := h.2.1
  omega

theorem slots_pos {o : ℕ → ℕ} {i : ℕ} (hi : i < openFilesCount) : 1 ≤ slots o (o i) :=
  List.countP_pos_iff.mpr ⟨i, List.mem_range.mpr hi, by simp⟩

theorem Counted.live (h : Counted s) {i : ℕ} (hi : i < openFilesCount) (h₀ : s.openFiles i ≠ 0) :
    LiveEntry s (s.openFiles i) := by
  obtain ⟨k, _, _, hrefs⟩ := h.refs i hi h₀
  have := slots_pos (o := s.openFiles) hi
  exact ⟨h₀, by omega, i, hi, rfl⟩

theorem entry_fault {α : Type} {g : ℕ → Except Fault α}
    (hg : ∀ i < openFilesCount, s.openFiles i = 0 → ∃ e, g 0 = .error e) (h : ¬ ValidFd s fd) :
    ∃ e, (entryAt s fd >>= g) = .error e := by
  by_cases hin : 0 ≤ fd ∧ fd < openFilesCount
  · have h₀ : s.openFiles fd.toNat = 0 := by
      by_contra hne
      exact h ⟨hin.1, hin.2, hne⟩
    rw [entryAt, if_pos hin, h₀]
    exact hg fd.toNat (by omega) h₀
  · exact ⟨.outside, by rw [entryAt, if_neg hin]; rfl⟩

theorem not_safe {op : Syscall} (h : ∃ e, syscall s op = .error e) : ¬ Safe s op := by
  rintro ⟨r, s', hok, _⟩
  obtain ⟨e, he⟩ := h
  rw [he] at hok
  cases hok

/-! ## The calls -/

/-- What a call that returns leaves, and what it has acted on. -/
def Good (s : Files) (op : Syscall) : Prop :=
  ∃ r s', syscall s op = .ok (r, s') ∧ Counted s' ∧ ∀ fs, r = .acts fs → ∀ f ∈ fs, LiveEntry s f ∨ LiveEntry s' f

theorem Counted.set (h : Counted s) {x : FileT} (hx : x.refCount = (s.files file).refCount) :
    Counted (s.set file x) := by
  refine ⟨h.flist, fun i hi h₀ => ?_⟩
  obtain ⟨k, hk, hrefs⟩ := h.refs i hi h₀
  exact ⟨k, hk, hrefs.set hx⟩

/-- A call that fails, or acts on the entry of its descriptor. -/
theorem Counted.good_fd (h : Counted s) {op : Syscall} (hfd : ValidFd s fd) {r : Outcome} (hs' : Counted s')
    (hop : syscall s op = .ok (r, s')) (hr : r = .fails ∨ r = .acts [s.openFiles fd.toNat]) : Good s op := by
  refine ⟨r, s', hop, hs', fun fs hfs f hf => .inl ?_⟩
  rcases hr with rfl | rfl
  · cases hfs
  · cases hfs
    rw [List.mem_singleton.mp hf]
    exact h.live hfd.toNat_lt hfd.2.2

theorem Counted.call (h : Counted s) (hfd : ValidFd s fd) (allowed : FileT → Bool) (fn : FileT → FileFn)
    (offset : ℕ) : ∃ r s', fileCall allowed fn s (s.openFiles fd.toNat) offset = .ok (r, s') ∧ Counted s' ∧
      (r = .fails ∨ r = .acts [s.openFiles fd.toNat]) := by
  rw [fileCall, hfd.deref, ok_bind]
  by_cases hp : allowed (s.files (s.openFiles fd.toNat)) = true
  · rw [if_neg (by simp [hp])]
    by_cases hn : fn (s.files (s.openFiles fd.toNat)) = .null
    · exact ⟨_, _, if_pos hn, h, .inl rfl⟩
    · exact ⟨_, _, if_neg hn, h.set rfl, .inr rfl⟩
  · rw [if_pos (by simp [hp])]
    exact ⟨_, _, rfl, h, .inl rfl⟩

theorem Counted.read (h : Counted s) (hfd : ValidFd s fd) (offset : ℕ) : Good s (.read fd offset) := by
  obtain ⟨r, s', hcall, hs', hr⟩ := h.call hfd FileT.readp FileT.read offset
  refine h.good_fd hfd hs' ?_ hr
  rw [syscall, hfd.entryAt, ok_bind]
  exact hcall

theorem Counted.write (h : Counted s) (hfd : ValidFd s fd) (offset : ℕ) : Good s (.write fd offset) := by
  obtain ⟨r, s', hcall, hs', -⟩ := h.call hfd FileT.writep FileT.write offset
  refine h.good_fd hfd hs' ?_ (.inr rfl)
  rw [syscall, hfd.entryAt, ok_bind, fileWrite, hcall]
  rfl

theorem Counted.fstat (h : Counted s) (hfd : ValidFd s fd) : Good s (.fstat fd) := by
  have hop : syscall s (.fstat fd) = fileStat s (s.openFiles fd.toNat) := by
    rw [syscall, hfd.entryAt, ok_bind]
  rw [fileStat, hfd.deref, ok_bind] at hop
  by_cases hn : (s.files (s.openFiles fd.toNat)).stat = .null
  · rw [if_pos hn] at hop
    exact h.good_fd hfd h hop (.inl rfl)
  · rw [if_neg hn] at hop
    exact h.good_fd hfd h hop (.inr rfl)

theorem Counted.fdAlloc (h : Counted s) {k : ℕ} (hk : k + openFilesCount < 2 ^ 32) (hrefs : Refs s file k) :
    Counted (fdAlloc s file).2 := by
  refine ⟨(fdAlloc_flist _ _).trans h.flist, fun i hi h₀ => ?_⟩
  rcases fdAlloc_cases s file with heq | ⟨j, hj, hfree, heq⟩
  · rw [heq] at h₀ ⊢
    exact h.refs i hi h₀
  · have hdup := hrefs.dup hk file
    by_cases hij : i = j
    · subst hij
      have hnew : (File.fdAlloc s file).2.openFiles i = file := by
        rw [heq]
        exact Function.update_self _ _ _
      rw [hnew]
      exact ⟨k, hk, hdup⟩
    · have hold : (File.fdAlloc s file).2.openFiles i = s.openFiles i := by
        rw [heq]
        exact Function.update_of_ne hij _ _
      rw [hold] at h₀ ⊢
      obtain ⟨k', hk', hrefs'⟩ := h.refs i hi h₀
      exact ⟨k', hk', hrefs'.dup hk' file⟩

theorem Counted.dup (h : Counted s) (hfd : ValidFd s fd) : Good s (.dup fd) := by
  have hop : syscall s (.dup fd) = fdDup s (s.openFiles fd.toNat) := by
    rw [syscall, hfd.entryAt]
    rfl
  obtain ⟨k, hk, hrefs⟩ := h.refs _ hfd.toNat_lt hfd.2.2
  by_cases hfull : (File.fdAlloc s (s.openFiles fd.toNat)).1 = -1
  · exact h.good_fd hfd h (hop.trans (if_pos hfull)) (.inl rfl)
  · rw [fdDup, if_neg hfull, hfd.deref] at hop
    exact h.good_fd hfd (h.fdAlloc hk hrefs) hop (.inr rfl)

theorem syscallClose_more {i : ℕ} (h : 0 < sub32 (s.files (s.openFiles i)).refCount 1) :
    ∃ s', syscallClose s i = some s' := by
  obtain ⟨n, hn⟩ := Nat.exists_eq_succ_of_ne_zero h.ne'
  exact ⟨_, by rw [syscallClose, fileClose_more hn]; rfl⟩

theorem syscallClose_last {i : ℕ} (h : (s.files (s.openFiles i)).refCount = 1) : syscallClose s i = none := by
  simp only [syscallClose, fileClose_last h, Option.bind_eq_bind, Option.bind_none]

theorem Counted.close (h : Counted s) (hfd : ValidFd s fd)
    (hlast : (s.files (s.openFiles fd.toNat)).refCount ≠ 1) : Good s (.close fd) := by
  have hlt := hfd.toNat_lt
  obtain ⟨k, hk, _, hrefs⟩ := h.refs _ hlt hfd.2.2
  have hle := slots_le s.openFiles (s.openFiles fd.toNat)
  have hpos := slots_pos (o := s.openFiles) hlt
  obtain ⟨s', hclose⟩ : ∃ s', syscallClose s fd.toNat = some s' := by
    refine syscallClose_more ?_
    rw [sub32_of_le (by omega) (by omega)]
    omega
  have hop : syscall s (.close fd) = .ok (.acts [s.openFiles fd.toNat], s') := by
    rw [syscall, hfd.entryAt, ok_bind, hfd.deref, ok_bind, hclose]
  refine h.good_fd hfd ⟨?_, fun i hi h₀ => ?_⟩ hop (.inr rfl)
  · rw [syscallClose_eq hclose]
    exact h.flist
  · have hi₀ : s'.openFiles i = s.openFiles i := by
      rw [syscallClose_eq hclose] at h₀ ⊢
      refine Function.update_of_ne ?_ _ _
      rintro rfl
      exact h₀ (Function.update_self _ _ _)
    rw [hi₀] at h₀ ⊢
    obtain ⟨k', hk', hrefs'⟩ := h.refs i hi h₀
    exact ⟨k', hk', hrefs'.closeFd hk' hlt hclose⟩

theorem fdAlloc_free (file : ℕ) (h : ∃ i < openFilesCount, s.openFiles i = 0) :
    ∃ i < openFilesCount, s.openFiles i = 0 ∧ File.fdAlloc s file =
      ((i : ℤ), { fileDup s file with openFiles := Function.update s.openFiles i file }) := by
  obtain ⟨j, hj, h₀⟩ := h
  unfold File.fdAlloc
  cases hfind : (List.range openFilesCount).find? (fun i => s.openFiles i = 0) with
  | none => exact absurd (by simpa using h₀) (List.find?_eq_none.mp hfind j (List.mem_range.mpr hj))
  | some i =>
    have hi := List.find?_some hfind
    exact ⟨i, List.mem_range.mp (List.mem_of_find?_eq_some hfind), by simpa using hi, rfl⟩

theorem fdAlloc_full (file : ℕ) (h : ¬ ∃ i < openFilesCount, s.openFiles i = 0) :
    File.fdAlloc s file = (-1, s) := by
  rcases fdAlloc_cases s file with heq | ⟨i, hi, h₀, -⟩
  · exact heq
  · exact absurd ⟨i, hi, h₀⟩ h

/-- The new file is the entry of the descriptor that `file_open` returns. -/
theorem fileOpen_free {entry : Option (ℕ × ℕ)} {flags ptr : ℕ} (hl : s.flist = 0)
    (hc : (FileOp.open entry flags ptr).Creates) (h : ∃ i < openFilesCount, s.openFiles i = 0) :
    ∃ i < openFilesCount, ∃ s', fileOpen s entry flags ptr = some ((i : ℤ), s') ∧
      s'.openFiles = Function.update s.openFiles i ptr := by
  obtain _ | ⟨inode, mode⟩ := entry
  · exact hc.elim
  have hptr : (fileAlloc s ptr).1 = ptr := by rw [fileAlloc_eq hl]
  have ho : (fileAlloc s ptr).2.openFiles = s.openFiles := by
    rw [fileAlloc_eq hl]
    rfl
  obtain ⟨i, hi, -, heq⟩ := fdAlloc_free (s := (fileAlloc s ptr).2) ptr (ho ▸ h)
  have hfd : ¬ ((i : ℤ) = -1) := by omega
  unfold fileOpen
  simp only [if_neg hc, hptr, heq, if_neg hfd]
  exact ⟨i, hi, _, rfl, by simp only [Files.set, ho]⟩

theorem fileOpen_full {entry : Option (ℕ × ℕ)} {flags ptr : ℕ} (hl : s.flist = 0) (h₀ : ptr ≠ 0)
    (hfree : ∀ i < openFilesCount, s.openFiles i ≠ ptr) (hc : (FileOp.open entry flags ptr).Creates)
    (h : ¬ ∃ i < openFilesCount, s.openFiles i = 0) : fileOpen s entry flags ptr = none := by
  obtain _ | ⟨inode, mode⟩ := entry
  · exact hc.elim
  have hptr : (fileAlloc s ptr).1 = ptr := by rw [fileAlloc_eq hl]
  have ho : (fileAlloc s ptr).2.openFiles = s.openFiles := by
    rw [fileAlloc_eq hl]
    rfl
  have hone : ((fileAlloc s ptr).2.files ptr).refCount = 1 := by
    rw [(extra_fileAlloc hl h₀ hfree).2, ho, slots_eq_zero hfree]
  unfold fileOpen
  simp only [if_neg hc, hptr, fdAlloc_full (s := (fileAlloc s ptr).2) ptr (ho ▸ h), if_true, fileClose_last hone]
  rfl

theorem syscallPipe_free {ptr ptr' pipe : ℕ} (hl : s.flist = 0)
    (h₀ : ptr ≠ 0) (hfree : ∀ i < openFilesCount, s.openFiles i ≠ ptr)
    (h₀' : ptr' ≠ 0) (hfree' : ∀ i < openFilesCount, s.openFiles i ≠ ptr') (hne : ptr ≠ ptr')
    (h : (Syscall.pipe ptr ptr' pipe).Valid s) :
    ∃ i < openFilesCount, ∃ j < openFilesCount, i ≠ j ∧ ∃ s',
      syscallPipe s ptr ptr' pipe = some (0, some ((i : ℤ), (j : ℤ)), s') ∧
      s'.openFiles = Function.update (Function.update s.openFiles i ptr) j ptr' := by
  rcases halloc : pipeAlloc s ptr ptr' pipe with ⟨r, w, s₁⟩
  obtain ⟨rfl, rfl, -, ho, -⟩ := extra_pipeAlloc hl h₀ hfree h₀' hfree' hne halloc
  obtain ⟨a, ha, b, hb, hab, ha₀, hb₀⟩ := h
  rw [← ho] at ha₀ hb₀
  obtain ⟨i, hi, -, heq⟩ := fdAlloc_free (s := s₁) r ⟨a, ha, ha₀⟩
  have hnext : ∃ j < openFilesCount, (File.fdAlloc s₁ r).2.openFiles j = 0 := by
    rw [heq]
    by_cases hia : a = i
    · exact ⟨b, hb, (Function.update_of_ne (fun hbi => hab (hia.trans hbi.symm)) _ _).trans hb₀⟩
    · exact ⟨a, ha, (Function.update_of_ne hia _ _).trans ha₀⟩
  obtain ⟨j, hj, hj₀, heq'⟩ := fdAlloc_free w hnext
  have hij : i ≠ j := by
    rintro rfl
    rw [heq] at hj₀
    exact h₀ ((Function.update_self _ _ _).symm.trans hj₀)
  have hfd : ¬ ((i : ℤ) = -1) := by omega
  have hfd' : ¬ ((j : ℤ) = -1) := by omega
  unfold syscallPipe
  simp only [heq] at heq'
  simp only [halloc, heq, if_neg hfd, heq', if_neg hfd']
  exact ⟨i, hi, j, hj, hij, _, rfl, by rw [ho]⟩

theorem set_files_of_ne {f : ℕ} {x : FileT} (h : f ≠ file) : (s.set file x).files f = s.files f :=
  Function.update_of_ne h _ _

theorem fileClose_other {r w : ℕ} (hne : w ≠ r) (h : fileClose s r = some s') : s'.files w = s.files w := by
  rw [(fileClose_eq h).2, set_files_of_ne hne]

theorem syscallPipe_full {ptr ptr' pipe : ℕ} (hl : s.flist = 0)
    (h₀ : ptr ≠ 0) (hfree : ∀ i < openFilesCount, s.openFiles i ≠ ptr)
    (h₀' : ptr' ≠ 0) (hfree' : ∀ i < openFilesCount, s.openFiles i ≠ ptr') (hne : ptr ≠ ptr')
    (h : ¬ (Syscall.pipe ptr ptr' pipe).Valid s) : syscallPipe s ptr ptr' pipe = none := by
  rcases halloc : pipeAlloc s ptr ptr' pipe with ⟨r, w, s₁⟩
  obtain ⟨rfl, rfl, -, ho, hr, hw, -⟩ := extra_pipeAlloc hl h₀ hfree h₀' hfree' hne halloc
  rw [← ho] at hfree hfree'
  unfold syscallPipe
  simp only [halloc]
  by_cases hone : ∃ i < openFilesCount, s₁.openFiles i = 0
  · obtain ⟨i, hi, hi₀, heq⟩ := fdAlloc_free r hone
    have hfd : ¬ ((i : ℤ) = -1) := by omega
    have hnone : ¬ ∃ j < openFilesCount, (File.fdAlloc s₁ r).2.openFiles j = 0 := by
      rintro ⟨j, hj, hj₀⟩
      rw [heq] at hj₀
      by_cases hij : j = i
      · subst hij
        exact h₀ ((Function.update_self _ _ _).symm.trans hj₀)
      · replace hj₀ := (Function.update_of_ne hij _ _).symm.trans hj₀
        exact h ⟨i, hi, j, hj, Ne.symm hij, ho ▸ hi₀, ho ▸ hj₀⟩
    have hw₁ := refCount_fdAlloc (hw.dup r) (fdAlloc_other hne hfree') (by rw [fdAlloc_full w hnone])
    rw [fdAlloc_full w hnone] at hw₁
    simp only [fdAlloc_full w hnone, if_true]
    rw [if_neg (by rw [heq]; exact hfd)]
    refine Option.bind_eq_none_iff.mpr fun s₂ hclose => ?_
    have hlast : (s₂.files w).refCount = 1 := by
      rw [fileClose_other hne.symm hclose]
      exact hw₁
    rw [fileClose_last hlast, Option.bind_eq_bind, Option.bind_none]
  · simp only [fdAlloc_full r hone, if_true]
    rw [fileClose_last (by rw [hr.2, slots_eq_zero hfree]), Option.bind_eq_bind, Option.bind_none]

/-- After a new file `ptr` and its entry, the entries are counted. -/
theorem Counted.entry {ptr i : ℕ} {o : ℕ → ℕ}
    (h : ∀ j < openFilesCount, o j ≠ 0 → ∃ k, k + openFilesCount < 2 ^ 32 ∧ Refs s' (o j) k)
    (hptr : Refs s' ptr 1) : ∀ j < openFilesCount, Function.update o i ptr j ≠ 0 →
      ∃ k, k + openFilesCount < 2 ^ 32 ∧ Refs s' (Function.update o i ptr j) k := by
  intro j hj h₀
  by_cases hji : j = i
  · subst hji
    rw [Function.update_self]
    exact ⟨1, by decide, hptr⟩
  · rw [Function.update_of_ne hji] at h₀ ⊢
    exact h j hj h₀

theorem Extra.live {f i : ℕ} (h : Extra s f) (hi : i < openFilesCount) (hf : s.openFiles i = f) :
    LiveEntry s f := by
  have := h.2
  exact ⟨h.1, by omega, i, hi, hf⟩

theorem Counted.open (h : Counted s) {entry : Option (ℕ × ℕ)} {flags ptr : ℕ}
    (hleg : (Syscall.open entry flags ptr).Legal s) (hv : (Syscall.open entry flags ptr).Valid s) :
    Good s (.open entry flags ptr) := by
  obtain ⟨h₀, hfree⟩ := hleg
  by_cases hc : (FileOp.open entry flags ptr).Creates
  · obtain ⟨i, hi, s', hopen, ho⟩ := fileOpen_free h.flist hc (hv hc)
    obtain ⟨hl, hptr, hkeep⟩ := extra_open h.flist h₀ hfree hopen hc
    have hnew : s'.openFiles i = ptr := by rw [ho, Function.update_self]
    refine ⟨.acts [s'.openFiles i], s', ?_, ⟨hl, ?_⟩, fun fs hfs f hf => .inr ?_⟩
    · simp only [syscall, hopen, Int.toNat_natCast]
      rw [if_neg (by omega)]
    · rw [ho]
      refine Counted.entry (fun j hj hj₀ => ?_) hptr
      obtain ⟨k, hk, hrefs⟩ := h.refs j hj hj₀
      exact ⟨k, hk, hkeep _ k (hfree j hj) hk hrefs⟩
    · cases hfs
      rw [List.mem_singleton.mp hf, hnew]
      exact hptr.live hi hnew
  · have hopen : fileOpen s entry flags ptr = some (-1, s) := by
      obtain _ | ⟨inode, mode⟩ := entry
      · rfl
      · exact if_pos (not_not.mp hc)
    refine ⟨.fails, s, ?_, h, fun fs hfs => by cases hfs⟩
    simp only [syscall, hopen, if_true]

theorem Counted.pipe (h : Counted s) {ptr ptr' pipe : ℕ} (hleg : (Syscall.pipe ptr ptr' pipe).Legal s)
    (hv : (Syscall.pipe ptr ptr' pipe).Valid s) : Good s (.pipe ptr ptr' pipe) := by
  obtain ⟨⟨h₀, hfree⟩, ⟨h₀', hfree'⟩, hne⟩ := hleg
  obtain ⟨i, hi, j, hj, hij, s', hpipe, ho⟩ := syscallPipe_free h.flist h₀ hfree h₀' hfree' hne hv
  obtain ⟨hl, hr, hw, hkeep⟩ := extra_pipe h.flist h₀ hfree h₀' hfree' hne hpipe
  have hnew : s'.openFiles i = ptr := by rw [ho, Function.update_of_ne hij, Function.update_self]
  have hnew' : s'.openFiles j = ptr' := by rw [ho, Function.update_self]
  refine ⟨.acts [s'.openFiles i, s'.openFiles j], s', ?_, ⟨hl, ?_⟩, fun fs hfs f hf => .inr ?_⟩
  · simp only [syscall, hpipe, Int.toNat_natCast]
  · rw [ho]
    refine Counted.entry (Counted.entry (fun m hm hm₀ => ?_) hr) hw
    obtain ⟨k, hk, hrefs⟩ := h.refs m hm hm₀
    exact ⟨k, hk, hkeep _ k (hfree m hm) (hfree' m hm) hk hrefs⟩
  · cases hfs
    rcases List.mem_cons.mp hf with rfl | hf
    · rw [hnew]
      exact hr.live hi hnew
    · rw [List.mem_singleton.mp hf, hnew']
      exact hw.live hj hnew'

/-! ## Every call -/

theorem Counted.step (h : Counted s) {op : Syscall} (hleg : op.Legal s) (hv : op.Valid s) : Good s op := by
  cases op with
  | «open» entry flags ptr => exact h.open hleg hv
  | pipe ptr ptr' pipe => exact h.pipe hleg hv
  | dup fd => exact h.dup hv
  | read fd offset => exact h.read hv offset
  | write fd offset => exact h.write hv offset
  | fstat fd => exact h.fstat hv
  | close fd => exact h.close hv.1 hv.2

theorem Counted.fault (h : Counted s) {op : Syscall} (hleg : op.Legal s) (hv : ¬ op.Valid s) :
    ∃ e, syscall s op = .error e := by
  cases op with
  | «open» entry flags ptr =>
    obtain ⟨hc, hfull⟩ := Classical.not_imp.mp hv
    exact ⟨.nullCall, by simp only [syscall, fileOpen_full h.flist hleg.1 hleg.2 hc hfull]⟩
  | pipe ptr ptr' pipe =>
    obtain ⟨⟨h₀, hfree⟩, ⟨h₀', hfree'⟩, hne⟩ := hleg
    exact ⟨.nullCall, by simp only [syscall, syscallPipe_full h.flist h₀ hfree h₀' hfree' hne hv]⟩
  | dup fd =>
    refine entry_fault (fun i hi h₀ => ⟨.nullFile, ?_⟩) hv
    obtain ⟨j, -, -, heq⟩ := fdAlloc_free 0 ⟨i, hi, h₀⟩
    rw [fdDup, heq, if_neg (by omega)]
    rfl
  | read fd offset => exact entry_fault (fun _ _ _ => ⟨.nullFile, rfl⟩) hv
  | write fd offset => exact entry_fault (fun _ _ _ => ⟨.nullFile, rfl⟩) hv
  | fstat fd => exact entry_fault (fun _ _ _ => ⟨.nullFile, rfl⟩) hv
  | close fd =>
    by_cases hfd : ValidFd s fd
    · have hlast : (s.files (s.openFiles fd.toNat)).refCount = 1 := by
        by_contra hne
        exact hv ⟨hfd, hne⟩
      exact ⟨.nullCall, by rw [syscall, hfd.entryAt, ok_bind, hfd.deref, ok_bind, syscallClose_last hlast]⟩
    · exact entry_fault (fun _ _ _ => ⟨.nullFile, rfl⟩) hfd

/-! ## Runs -/

/-- `task_user_create_new`, if `kmalloc` gave zeros for the entries that it does not set. Other tasks may
refer to the two files too. -/
structure NewTask (s : Files) (stdinRead stdoutWrite : ℕ) : Prop where
  flist : s.flist = 0
  ne : stdinRead ≠ 0 ∧ stdoutWrite ≠ 0 ∧ stdinRead ≠ stdoutWrite
  openFiles : s.openFiles = Function.update (Function.update (fun _ => 0) 0 stdinRead) 1 stdoutWrite
  refCount : ∀ f ∈ [stdinRead, stdoutWrite],
    1 ≤ (s.files f).refCount ∧ (s.files f).refCount + openFilesCount < 2 ^ 32

/-- A valid call of the task. -/
def CallMove (s : Files) (op : Syscall) (s' : Files) : Prop :=
  op.Legal s ∧ op.Valid s ∧ ∃ r, syscall s op = .ok (r, s')

theorem NewTask.counted {stdinRead stdoutWrite : ℕ} (h : NewTask s stdinRead stdoutWrite) : Counted s := by
  obtain ⟨hin, hout, hne⟩ := h.ne
  have hslots : ∀ f ∈ [stdinRead, stdoutWrite], slots s.openFiles f = 1 := by
    intro f hf
    have hempty : slots (fun _ => 0) f = 0 :=
      slots_eq_zero fun i _ h₀ => by rcases List.mem_pair.mp hf with rfl | rfl <;> omega
    have h₁ := slots_update (o := fun _ => 0) (j := 0) (by decide) stdinRead f
    have h₂ := slots_update (o := Function.update (fun _ => 0) 0 stdinRead) (j := 1) (by decide) stdoutWrite f
    rw [← h.openFiles, Function.update_of_ne (by decide)] at h₂
    rcases List.mem_pair.mp hf with rfl | rfl
    · rw [if_neg (Ne.symm hin), if_pos rfl] at h₁
      rw [if_neg (Ne.symm hin), if_neg (Ne.symm hne)] at h₂
      omega
    · rw [if_neg (Ne.symm hout), if_neg hne] at h₁
      rw [if_neg (Ne.symm hout), if_pos rfl] at h₂
      omega
  refine ⟨h.flist, fun i hi h₀ => ?_⟩
  have hmem : s.openFiles i ∈ [stdinRead, stdoutWrite] := by
    rw [h.openFiles] at h₀ ⊢
    by_cases h₁ : i = 1
    · rw [h₁, Function.update_self]
      exact List.mem_cons_of_mem _ (List.mem_singleton_self _)
    by_cases h₂ : i = 0
    · rw [h₂, Function.update_of_ne (by decide), Function.update_self]
      exact List.mem_cons_self
    · rw [Function.update_of_ne h₁, Function.update_of_ne h₂] at h₀
      exact absurd rfl h₀
  obtain ⟨hpos, hlt⟩ := h.refCount _ hmem
  obtain ⟨k, hk⟩ := Nat.exists_eq_succ_of_ne_zero (Nat.one_le_iff_ne_zero.mp hpos)
  have hs := hslots _ hmem
  exact ⟨k, by omega, h₀, by omega⟩

theorem Counted.run {ops : List Syscall} (h : Counted s) (hrun : Run CallMove s ops s') : Counted s' := by
  induction hrun with
  | nil s => exact h
  | cons hm _ ih =>
    obtain ⟨hleg, hv, r, hok⟩ := hm
    obtain ⟨r', s₁, hok', hs₁, -⟩ := h.step hleg hv
    rw [hok] at hok'
    obtain ⟨-, rfl⟩ := Prod.mk.inj (Except.ok.inj hok')
    exact ih hs₁

/-- The state of a new task: `stdin_read` at `0x1000` and `stdout_write` at `0x2000`. -/
def newTask : Files :=
  { files := fun f => if f = 0x1000 then ⟨1, true, false, 0, 0, .pipeClose, .pipeRead, .null, .null, 0⟩
      else ⟨1, false, true, 0, 0, .pipeClose, .null, .pipeWrite, .null, 0x1000⟩
    flist := 0
    ulist := 0x2000
    openFiles := Function.update (Function.update (fun _ => 0) 0 0x1000) 1 0x2000 }

theorem newTask_new : NewTask newTask 0x1000 0x2000 :=
  ⟨rfl, by decide, rfl, by decide⟩

end BulbOS.File
