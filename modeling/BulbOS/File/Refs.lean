import BulbOS.File.Model
import BulbOS.Lib.Run
import Mathlib.Data.List.Range

/-!
# References to open files

`file_alloc` sets `ref_count` to 1 for the caller and `fd_alloc` adds one for the entry of `open_files`;
nobody gives up the first one. So a file has one reference more than entries, and closing its last
descriptor does not release it.

* `FileInv.step`: what one call does to the count and the entries of a file;
* **`file_refs_iff`**: the counts are the numbers of entries only while no file was created.
-/

namespace BulbOS.File

open KLib

/-- Besides the code's data, the files that the calls of the run created. -/
structure FileSys where
  files : Files
  created : List ℕ

/-- The calls, with what the lookup of a path and `kmalloc` give. -/
inductive FileOp
  | open (entry : Option (ℕ × ℕ)) (flags ptr : ℕ)
  | dup (oldFd : ℕ)
  | pipe (ptr ptr' pipe : ℕ)
  | close (fd : ℕ)

/-- A call that gets as far as `file_alloc`: a pipe, or a path that names a file, or a directory opened
with `O_RDONLY`. -/
def FileOp.Creates : FileOp → Prop
  | .open (some (_, mode)) flags _ => ¬ (mode &&& typeDir ≠ 0 ∧ flags ≠ oRdonly)
  | .pipe _ _ _ => True
  | _ => False

instance : (op : FileOp) → Decidable op.Creates
  | .open (some (_, mode)) flags _ => inferInstanceAs (Decidable (¬ (mode &&& typeDir ≠ 0 ∧ flags ≠ oRdonly)))
  | .pipe _ _ _ => isTrue trivial
  | .open none _ _ | .dup _ | .close _ => isFalse id

/-- A call; the files it created are recorded. -/
def fileStep (c : FileSys) : FileOp → Option FileSys
  | .open entry flags ptr => do
    let (_, s) ← fileOpen c.files entry flags ptr
    return ⟨s, if (FileOp.open entry flags ptr).Creates then (fileAlloc c.files ptr).1 :: c.created
      else c.created⟩
  | .dup oldFd => some { c with files := (syscallDup c.files oldFd).2 }
  | .pipe ptr ptr' pipe => do
    let (_, _, s) ← syscallPipe c.files ptr ptr' pipe
    let (r, w, _) := pipeAlloc c.files ptr ptr' pipe
    return ⟨s, r :: w :: c.created⟩
  | .close fd => do
    let s ← syscallClose c.files fd
    return { c with files := s }

/-- `kmalloc` gave memory that no file uses. -/
def Fresh (c : FileSys) (ptr : ℕ) : Prop :=
  ptr ≠ 0 ∧ ptr ∉ c.created ∧ ∀ i < openFilesCount, c.files.openFiles i ≠ ptr

/-- The descriptors are valid. -/
def FileOp.Legal (c : FileSys) : FileOp → Prop
  | .open _ _ ptr => Fresh c ptr
  | .pipe ptr ptr' _ => Fresh c ptr ∧ Fresh c ptr' ∧ ptr ≠ ptr'
  | .dup fd | .close fd => fd < openFilesCount ∧ c.files.openFiles fd ≠ 0

/-- A call that returns. -/
def FileMove (c : FileSys) (op : FileOp) (c' : FileSys) : Prop := op.Legal c ∧ fileStep c op = some c'

/-- The entries of `open_files` that refer to a file. -/
def slots (openFiles : ℕ → ℕ) (file : ℕ) : ℕ :=
  (List.range openFilesCount).countP fun i => openFiles i = file

/-! ## Entries -/

theorem slots_update {o : ℕ → ℕ} {j : ℕ} (hj : j < openFilesCount) (v f : ℕ) :
    slots (Function.update o j v) f + (if o j = f then 1 else 0) = slots o f + if v = f then 1 else 0 := by
  have hmem : j ∈ List.range openFilesCount := List.mem_range.mpr hj
  have hperm := List.perm_cons_erase hmem
  have hrest : ((List.range openFilesCount).erase j).countP (fun i => Function.update o j v i = f) =
      ((List.range openFilesCount).erase j).countP fun i => o i = f := by
    refine List.countP_congr fun i hi => ?_
    have hij : i ≠ j := (List.nodup_range.mem_erase_iff.mp hi).1
    rw [Function.update_of_ne hij]
  unfold slots
  rw [hperm.countP_eq, hperm.countP_eq, List.countP_cons, List.countP_cons, hrest, Function.update_self]
  simp only [decide_eq_true_eq]
  omega

theorem slots_le (o : ℕ → ℕ) (f : ℕ) : slots o f ≤ openFilesCount :=
  List.countP_le_length.trans (List.length_range).le

theorem slots_eq_zero {o : ℕ → ℕ} {f : ℕ} (h : ∀ i < openFilesCount, o i ≠ f) : slots o f = 0 :=
  List.countP_eq_zero.mpr fun i hi => by simpa using h i (List.mem_range.mp hi)

theorem fdAlloc_cases (s : Files) (file : ℕ) :
    fdAlloc s file = (-1, s) ∨ ∃ i < openFilesCount, s.openFiles i = 0 ∧
      fdAlloc s file = ((i : ℤ), { fileDup s file with openFiles := Function.update s.openFiles i file }) := by
  unfold fdAlloc
  cases hfind : (List.range openFilesCount).find? (fun i => s.openFiles i = 0) with
  | none => exact .inl rfl
  | some i =>
    have h₀ := List.find?_some hfind
    exact .inr ⟨i, List.mem_range.mp (List.mem_of_find?_eq_some hfind), by simpa using h₀, rfl⟩

/-! ## One call -/

/-- A file with `k` references more than entries. -/
def Refs (s : Files) (f k : ℕ) : Prop := f ≠ 0 ∧ (s.files f).refCount = slots s.openFiles f + k

/-- A file with one reference more than entries. -/
def Extra (s : Files) (f : ℕ) : Prop := f ≠ 0 ∧ (s.files f).refCount = slots s.openFiles f + 1

/-- No file was released, and every created one has a reference too many. -/
structure FileInv (c : FileSys) : Prop where
  flist : c.files.flist = 0
  extra : ∀ f ∈ c.created, Extra c.files f

theorem Refs.set {s : Files} {f k file : ℕ} {x : FileT} (h : Refs s f k)
    (hx : x.refCount = (s.files file).refCount) : Refs (s.set file x) f k := by
  refine ⟨h.1, ?_⟩
  by_cases hf : f = file
  · subst hf
    simp only [Files.set, Function.update_self]
    exact hx.trans h.2
  · simp only [Files.set, Function.update_of_ne hf]
    exact h.2

theorem fileAlloc_eq {s : Files} (h : s.flist = 0) (ptr : ℕ) :
    fileAlloc s ptr = (ptr, { s.set ptr { s.files ptr with
      refCount := 1, next := s.ulist, close := .null, read := .null, write := .null, stat := .null } with
        ulist := ptr }) := by
  simp only [fileAlloc, h, ne_eq, not_true_eq_false, if_false]

theorem Refs.alloc {s : Files} {f k ptr : ℕ} (hl : s.flist = 0) (h : Refs s f k) (hne : f ≠ ptr) :
    Refs (fileAlloc s ptr).2 f k := by
  rw [fileAlloc_eq hl]
  refine ⟨h.1, ?_⟩
  simp only [Files.set, Function.update_of_ne hne]
  exact h.2

theorem extra_fileAlloc {s : Files} {ptr : ℕ} (hl : s.flist = 0) (h₀ : ptr ≠ 0)
    (hfree : ∀ i < openFilesCount, s.openFiles i ≠ ptr) : Extra (fileAlloc s ptr).2 ptr := by
  rw [fileAlloc_eq hl]
  refine ⟨h₀, ?_⟩
  simp only [Files.set, Function.update_self, slots_eq_zero hfree]

theorem Refs.dup {s : Files} {f k : ℕ} (h : Refs s f k) (hk : k + openFilesCount < 2 ^ 32) (file : ℕ) :
    Refs (fdAlloc s file).2 f k := by
  rcases fdAlloc_cases s file with heq | ⟨i, hi, hfree, heq⟩
  · rw [heq]
    exact h
  · rw [heq]
    refine ⟨h.1, ?_⟩
    have hslots := slots_update (o := s.openFiles) hi file f
    rw [hfree, if_neg (Ne.symm h.1)] at hslots
    have hle := slots_le (Function.update s.openFiles i file) f
    have hc := h.2
    by_cases hf : f = file
    · subst hf
      simp only [fileDup, Files.set, Function.update_self, if_true, u32, openFilesCount] at hslots hle hk ⊢
      omega
    · simp only [fileDup, Files.set, Function.update_of_ne hf]
      rw [if_neg (Ne.symm hf)] at hslots
      omega

theorem Extra.dup {s : Files} {f : ℕ} (h : Extra s f) (file : ℕ) : Extra (fdAlloc s file).2 f :=
  Refs.dup (k := 1) h (by decide) file

@[simp] theorem fdAlloc_flist (s : Files) (file : ℕ) : (fdAlloc s file).2.flist = s.flist := by
  rcases fdAlloc_cases s file with heq | ⟨i, -, -, heq⟩
  · rw [heq]
  · rw [heq]
    rfl

theorem fileClose_more {s : Files} {file n : ℕ} (h : sub32 (s.files file).refCount 1 = n + 1) :
    fileClose s file = some (s.set file { s.files file with refCount := n + 1 }) := by
  simp only [fileClose, h, gt_iff_lt, Nat.succ_pos, if_true]

/-- A `file_close` that returns took one reference and left others. -/
theorem fileClose_eq {s s' : Files} {file : ℕ} (h : fileClose s file = some s') :
    0 < sub32 (s.files file).refCount 1 ∧
      s' = s.set file { s.files file with refCount := sub32 (s.files file).refCount 1 } := by
  unfold fileClose at h
  simp only [Files.set, Function.update_self, if_true] at h
  split at h
  · exact ⟨‹_›, (Option.some.inj h).symm⟩
  · cases h

/-- `file_close` on a file with one reference does not return. -/
theorem fileClose_last {s : Files} {file : ℕ} (h : (s.files file).refCount = 1) : fileClose s file = none := by
  have h₀ : sub32 (s.files file).refCount 1 = 0 := by
    rw [h]
    rfl
  simp only [fileClose, h₀, Files.set, Function.update_self, gt_iff_lt, lt_irrefl, if_false, if_true]

theorem syscallClose_eq {s s' : Files} {fd : ℕ} (h : syscallClose s fd = some s') :
    s' = { s.set (s.openFiles fd) { s.files (s.openFiles fd) with
      refCount := sub32 (s.files (s.openFiles fd)).refCount 1 } with
        openFiles := Function.update s.openFiles fd 0 } := by
  unfold syscallClose at h
  obtain ⟨s₁, hclose, h⟩ := Option.bind_eq_some_iff.mp h
  obtain ⟨-, rfl⟩ := fileClose_eq hclose
  exact (Option.some.inj h).symm

theorem Refs.closeFd {s s' : Files} {f k fd : ℕ} (h : Refs s f k) (hk : k + openFilesCount < 2 ^ 32)
    (hfd : fd < openFilesCount) (hs : syscallClose s fd = some s') : Refs s' f k := by
  obtain rfl := syscallClose_eq hs
  refine ⟨h.1, ?_⟩
  have hslots := slots_update (o := s.openFiles) hfd 0 f
  rw [if_neg (Ne.symm h.1)] at hslots
  have hle := slots_le s.openFiles f
  have hc := h.2
  by_cases hf : f = s.openFiles fd
  · subst hf
    simp only [Files.set, Function.update_self, if_true, sub32, openFilesCount] at hslots hle hk ⊢
    omega
  · simp only [Files.set, Function.update_of_ne hf]
    rw [if_neg (Ne.symm hf)] at hslots
    omega

/-- Without a free entry `fd_alloc` changes nothing, and a new file has one reference. -/
theorem refCount_fdAlloc {s : Files} {file : ℕ} (h : Extra s file)
    (hnone : ∀ i < openFilesCount, s.openFiles i ≠ file) (hfd : (fdAlloc s file).1 = -1) :
    ((fdAlloc s file).2.files file).refCount = 1 := by
  rcases fdAlloc_cases s file with heq | ⟨i, -, -, heq⟩
  · rw [heq, h.2, slots_eq_zero hnone]
  · rw [heq] at hfd
    simp only at hfd
    omega

/-- The entry that `fd_alloc` takes refers to the file it is given. -/
theorem fdAlloc_other {s : Files} {file f : ℕ} (hne : file ≠ f) (h : ∀ i < openFilesCount, s.openFiles i ≠ f) :
    ∀ i < openFilesCount, (fdAlloc s file).2.openFiles i ≠ f := by
  rcases fdAlloc_cases s file with heq | ⟨j, -, -, heq⟩
  · rw [heq]
    exact h
  · rw [heq]
    intro i hi
    by_cases hij : i = j
    · subst hij
      simpa only [Function.update_self] using hne
    · simpa only [Function.update_of_ne hij] using h i hi

theorem fileOpen_refused {s s' : Files} {entry : Option (ℕ × ℕ)} {flags ptr : ℕ} {r : ℤ}
    (hs : fileOpen s entry flags ptr = some (r, s')) (hc : ¬ (FileOp.open entry flags ptr).Creates) : s' = s := by
  obtain _ | ⟨inode, mode⟩ := entry
  · exact (Prod.mk.inj (Option.some.inj hs)).2.symm
  · unfold fileOpen at hs
    simp only [if_pos (not_not.mp hc)] at hs
    exact (Prod.mk.inj (Option.some.inj hs)).2.symm

/-- A `file_open` that returns and got as far as `file_alloc` found a free entry. -/
theorem extra_open {s s' : Files} {entry : Option (ℕ × ℕ)} {flags ptr : ℕ} {r : ℤ}
    (hl : s.flist = 0) (h₀ : ptr ≠ 0) (hfree : ∀ i < openFilesCount, s.openFiles i ≠ ptr)
    (hs : fileOpen s entry flags ptr = some (r, s')) (hc : (FileOp.open entry flags ptr).Creates) :
    s'.flist = 0 ∧ Extra s' ptr ∧ ∀ f k, f ≠ ptr → k + openFilesCount < 2 ^ 32 → Refs s f k → Refs s' f k := by
  obtain _ | ⟨inode, mode⟩ := entry
  · exact hc.elim
  have hnew := extra_fileAlloc hl h₀ hfree
  have hptr : (fileAlloc s ptr).1 = ptr := by rw [fileAlloc_eq hl]
  have hl' : (fileAlloc s ptr).2.flist = 0 := by rw [fileAlloc_eq hl]; exact hl
  have hfree' : ∀ i < openFilesCount, (fileAlloc s ptr).2.openFiles i ≠ ptr := by
    rw [fileAlloc_eq hl]
    exact hfree
  unfold fileOpen at hs
  simp only [if_neg hc, hptr] at hs
  by_cases hfd : (fdAlloc (fileAlloc s ptr).2 ptr).1 = -1
  · -- the new file is closed again: its only reference, so `close` is called through `NULL`
    simp only [if_pos hfd, fileClose_last (refCount_fdAlloc hnew hfree' hfd)] at hs
    cases hs
  · simp only [if_neg hfd] at hs
    obtain ⟨-, rfl⟩ := Prod.mk.inj (Option.some.inj hs)
    refine ⟨(fdAlloc_flist _ _).trans hl', Refs.set (k := 1) (hnew.dup ptr) rfl, fun f k hf hk h => ?_⟩
    exact ((h.alloc hl hf).dup hk ptr).set rfl

theorem extra_pipeAlloc {s s' : Files} {ptr ptr' pipe r w : ℕ} (hl : s.flist = 0)
    (h₀ : ptr ≠ 0) (hfree : ∀ i < openFilesCount, s.openFiles i ≠ ptr)
    (h₀' : ptr' ≠ 0) (hfree' : ∀ i < openFilesCount, s.openFiles i ≠ ptr') (hne : ptr ≠ ptr')
    (hs : pipeAlloc s ptr ptr' pipe = (r, w, s')) :
    r = ptr ∧ w = ptr' ∧ s'.flist = 0 ∧ s'.openFiles = s.openFiles ∧ Extra s' ptr ∧ Extra s' ptr' ∧
      ∀ f k, f ≠ ptr → f ≠ ptr' → Refs s f k → Refs s' f k := by
  have hptr : (fileAlloc s ptr).1 = ptr := by rw [fileAlloc_eq hl]
  have hl₁ : (fileAlloc s ptr).2.flist = 0 := by rw [fileAlloc_eq hl]; exact hl
  have ho₁ : (fileAlloc s ptr).2.openFiles = s.openFiles := by rw [fileAlloc_eq hl]; rfl
  have hr := extra_fileAlloc hl h₀ hfree
  have hkeep : ∀ f k, f ≠ ptr → Refs s f k → Refs (fileAlloc s ptr).2 f k := fun f k hf h => h.alloc hl hf
  unfold pipeAlloc at hs
  simp only [hptr] at hs
  generalize (fileAlloc s ptr).2 = s₁ at hs hl₁ ho₁ hr hkeep
  have hptr' : (fileAlloc s₁ ptr').1 = ptr' := by rw [fileAlloc_eq hl₁]
  have hl₂ : (fileAlloc s₁ ptr').2.flist = 0 := by rw [fileAlloc_eq hl₁]; exact hl₁
  have ho₂ : (fileAlloc s₁ ptr').2.openFiles = s₁.openFiles := by rw [fileAlloc_eq hl₁]; rfl
  have hr₂ := Refs.alloc (k := 1) hl₁ hr hne
  have hw := extra_fileAlloc hl₁ h₀' (ho₁ ▸ hfree')
  have hkeep₂ : ∀ f k, f ≠ ptr → f ≠ ptr' → Refs s f k → Refs (fileAlloc s₁ ptr').2 f k :=
    fun f k hf hf' h => (hkeep f k hf h).alloc hl₁ hf'
  simp only [hptr'] at hs
  generalize (fileAlloc s₁ ptr').2 = s₂ at hs hl₂ ho₂ hr₂ hw hkeep₂
  obtain ⟨hread, hs⟩ := Prod.mk.inj hs
  obtain ⟨hwrite, rfl⟩ := Prod.mk.inj hs
  refine ⟨hread.symm, hwrite.symm, hl₂, ho₂.trans ho₁, ?_, ?_, fun f k hf hf' h => ?_⟩
  · exact Refs.set (k := 1) (Refs.set (k := 1) hr₂ (by rfl)) (by rfl)
  · exact Refs.set (k := 1) (Refs.set (k := 1) hw (by rfl)) (by rfl)
  · exact Refs.set (Refs.set (hkeep₂ f k hf hf' h) (by rfl)) (by rfl)

theorem extra_pipe {s s' : Files} {ptr ptr' pipe : ℕ} {r : ℤ} {fds : Option (ℤ × ℤ)} (hl : s.flist = 0)
    (h₀ : ptr ≠ 0) (hfree : ∀ i < openFilesCount, s.openFiles i ≠ ptr)
    (h₀' : ptr' ≠ 0) (hfree' : ∀ i < openFilesCount, s.openFiles i ≠ ptr') (hne : ptr ≠ ptr')
    (hs : syscallPipe s ptr ptr' pipe = some (r, fds, s')) :
    s'.flist = 0 ∧ Extra s' ptr ∧ Extra s' ptr' ∧
      ∀ f k, f ≠ ptr → f ≠ ptr' → k + openFilesCount < 2 ^ 32 → Refs s f k → Refs s' f k := by
  unfold syscallPipe at hs
  rcases halloc : pipeAlloc s ptr ptr' pipe with ⟨rf, wf, s₁⟩
  obtain ⟨rfl, rfl, hl₁, ho₁, hr₁, hw₁, hkeep⟩ := extra_pipeAlloc hl h₀ hfree h₀' hfree' hne halloc
  rw [← ho₁] at hfree hfree'
  simp only [halloc] at hs
  have hr₂ := hr₁.dup rf
  have hw₂ := hw₁.dup rf
  have hl₂ : (fdAlloc s₁ rf).2.flist = 0 := (fdAlloc_flist s₁ rf).trans hl₁
  by_cases hfd : (fdAlloc s₁ rf).1 = -1
  · simp only [if_pos hfd, fileClose_last (refCount_fdAlloc hr₁ hfree hfd)] at hs
    cases hs
  simp only [if_neg hfd] at hs
  by_cases hfd' : (fdAlloc (fdAlloc s₁ rf).2 wf).1 = -1
  · -- `read` goes back to one reference, `write` loses its only one
    simp only [if_pos hfd'] at hs
    obtain ⟨s₂, hclose, hs⟩ := Option.bind_eq_some_iff.mp hs
    obtain ⟨-, rfl⟩ := fileClose_eq hclose
    obtain ⟨s₃, hclose', hs⟩ := Option.bind_eq_some_iff.mp hs
    have hone := refCount_fdAlloc hw₂ (fdAlloc_other hne hfree') hfd'
    rw [fileClose_last (by simpa only [Files.set, Function.update_of_ne hne.symm] using hone)] at hclose'
    cases hclose'
  · simp only [if_neg hfd'] at hs
    obtain ⟨-, -, rfl⟩ : _ ∧ _ ∧ _ := by simpa using hs
    refine ⟨(fdAlloc_flist _ _).trans hl₂, hr₂.dup wf, hw₂.dup wf, fun f k hf hf' hk h => ?_⟩
    exact ((hkeep f k hf hf' h).dup hk rf).dup hk wf

theorem FileInv.step {c c' : FileSys} {op : FileOp} (h : FileInv c) (hm : FileMove c op c') :
    FileInv c' ∧ (c'.created = [] ↔ c.created = [] ∧ ¬ op.Creates) := by
  obtain ⟨hleg, hs⟩ := hm
  cases op with
  | «open» entry flags ptr =>
    obtain ⟨⟨r, s⟩, hopen, hs⟩ := Option.bind_eq_some_iff.mp hs
    obtain rfl := Option.some.inj hs
    obtain ⟨h₀, hnew, hfree⟩ := hleg
    by_cases hc : (FileOp.open entry flags ptr).Creates
    · obtain ⟨hl, hptr, hkeep⟩ := extra_open h.flist h₀ hfree hopen hc
      simp only [fileAlloc_eq h.flist, hc, if_true, not_true_eq_false, and_false, iff_false]
      refine ⟨⟨hl, fun f hf => ?_⟩, List.cons_ne_nil _ _⟩
      rcases List.mem_cons.mp hf with rfl | hf
      · exact hptr
      · exact hkeep f 1 (fun heq => hnew (heq ▸ hf)) (by decide) (h.extra f hf)
    · rw [if_neg hc]
      obtain rfl := fileOpen_refused hopen hc
      exact ⟨⟨h.flist, h.extra⟩, by simp [hc]⟩
  | dup oldFd =>
    obtain rfl := Option.some.inj hs
    refine ⟨⟨(fdAlloc_flist _ _).trans h.flist, fun f hf => (h.extra f hf).dup _⟩, ?_⟩
    simp [FileOp.Creates]
  | pipe ptr ptr' pipe =>
    obtain ⟨⟨r, fds, s⟩, hpipe, hs⟩ := Option.bind_eq_some_iff.mp hs
    obtain ⟨⟨h₀, hnew, hfree⟩, ⟨h₀', hnew', hfree'⟩, hne⟩ := hleg
    obtain ⟨hl, hr, hw, hkeep⟩ := extra_pipe h.flist h₀ hfree h₀' hfree' hne hpipe
    rcases halloc : pipeAlloc c.files ptr ptr' pipe with ⟨rf, wf, s₁⟩
    obtain ⟨rfl, rfl, -⟩ := extra_pipeAlloc h.flist h₀ hfree h₀' hfree' hne halloc
    simp only [halloc] at hs
    obtain rfl := Option.some.inj hs
    refine ⟨⟨hl, fun f hf => ?_⟩, by simp [FileOp.Creates]⟩
    rcases List.mem_cons.mp hf with rfl | hf
    · exact hr
    rcases List.mem_cons.mp hf with rfl | hf
    · exact hw
    · exact hkeep f 1 (fun heq => hnew (heq ▸ hf)) (fun heq => hnew' (heq ▸ hf)) (by decide) (h.extra f hf)
  | close fd =>
    unfold fileStep at hs
    obtain ⟨s, hclose, hs⟩ := Option.bind_eq_some_iff.mp hs
    obtain rfl := Option.some.inj hs
    refine ⟨⟨?_, fun f hf => Refs.closeFd (k := 1) (h.extra f hf) (by decide) hleg.1 hclose⟩, ?_⟩
    · obtain rfl := syscallClose_eq hclose
      exact h.flist
    · simp [FileOp.Creates]

/-! ## Runs -/

theorem FileInv.run {c c' : FileSys} {ops : List FileOp} (h : FileInv c) (hrun : Run FileMove c ops c') :
    FileInv c' ∧ (c'.created = [] ↔ c.created = [] ∧ ∀ op ∈ ops, ¬ op.Creates) := by
  induction hrun with
  | nil c => exact ⟨h, by simp⟩
  | cons hm _ ih =>
    obtain ⟨h₁, hc₁⟩ := h.step hm
    obtain ⟨h₂, hc₂⟩ := ih h₁
    refine ⟨h₂, ?_⟩
    rw [hc₂, hc₁, List.forall_mem_cons, and_assoc]

/-- **References to files.** Whatever calls were made, a file they created has one reference more than
entries of `open_files`, also after its last descriptor was closed. So the counts are the numbers of entries
exactly if no file was created at all. -/
theorem file_refs_iff {s : Files} (hl : s.flist = 0) {c : FileSys} {ops : List FileOp}
    (hrun : Run FileMove ⟨s, []⟩ ops c) :
    (∀ f ∈ c.created, (c.files.files f).refCount = slots c.files.openFiles f + 1) ∧
    ((∀ f ∈ c.created, (c.files.files f).refCount = slots c.files.openFiles f) ↔
      ∀ op ∈ ops, ¬ op.Creates) := by
  have h₀ : FileInv ⟨s, []⟩ := ⟨hl, fun f hf => absurd hf List.not_mem_nil⟩
  obtain ⟨h, hc⟩ := h₀.run hrun
  refine ⟨fun f hf => (h.extra f hf).2, fun heq => ?_, fun hno f hf => ?_⟩
  · refine (hc.mp (List.eq_nil_iff_forall_not_mem.mpr fun f hf => ?_)).2
    have := heq f hf
    have := (h.extra f hf).2
    omega
  · rw [hc.mpr ⟨rfl, hno⟩] at hf
    exact absurd hf List.not_mem_nil

/-- `file_init`, and a task without open files. -/
def fileInit : Files :=
  { files := fun _ => ⟨0, false, false, 0, 0, .null, .null, .null, .null, 0⟩, flist := 0, ulist := 0
    openFiles := fun _ => 0 }

instance (c : FileSys) (ptr : ℕ) : Decidable (Fresh c ptr) :=
  inferInstanceAs (Decidable (ptr ≠ 0 ∧ ptr ∉ c.created ∧ ∀ i < openFilesCount, c.files.openFiles i ≠ ptr))

instance (c : FileSys) : (op : FileOp) → Decidable (op.Legal c)
  | .open _ _ ptr => inferInstanceAs (Decidable (Fresh c ptr))
  | .pipe ptr ptr' _ => inferInstanceAs (Decidable (Fresh c ptr ∧ Fresh c ptr' ∧ ptr ≠ ptr'))
  | .dup fd | .close fd => inferInstanceAs (Decidable (fd < openFilesCount ∧ c.files.openFiles fd ≠ 0))

theorem fileMove_close {c : FileSys} {fd n : ℕ} (hl : (FileOp.close fd).Legal c)
    (h : sub32 (c.files.files (c.files.openFiles fd)).refCount 1 = n + 1) :
    FileMove c (.close fd) { c with
      files := { c.files.set (c.files.openFiles fd) { c.files.files (c.files.openFiles fd) with refCount := n + 1 }
        with openFiles := Function.update c.files.openFiles fd 0 } } := by
  refine ⟨hl, ?_⟩
  rw [fileStep, syscallClose, fileClose_more h]
  rfl

/-- A missing path is opened, then the file at `0x1000`, which is duplicated and closed once. -/
theorem file_refs_iff_demo :
    ∃ c, Run FileMove ⟨fileInit, []⟩
      [.open none oRdwr 0x1000, .open (some (12, 0x8000)) oRdwr 0x1000, .dup 0, .close 0] c ∧
      c.created = [0x1000] ∧ (c.files.files 0x1000).refCount = slots c.files.openFiles 0x1000 + 1 ∧
      ¬ ∀ f ∈ c.created, (c.files.files f).refCount = slots c.files.openFiles f := by
  have hrun : Run FileMove ⟨fileInit, []⟩
      [.open none oRdwr 0x1000, .open (some (12, 0x8000)) oRdwr 0x1000, .dup 0, .close 0] _ :=
    .cons ⟨by decide, rfl⟩ (.cons ⟨by decide, rfl⟩ (.cons ⟨by decide, rfl⟩
      (.cons (fileMove_close (n := 1) (by decide) (by decide)) (.nil _))))
  obtain ⟨hall, hiff⟩ := file_refs_iff rfl hrun
  refine ⟨_, hrun, rfl, hall _ (List.mem_singleton_self _), fun h => ?_⟩
  exact hiff.mp h _ (List.mem_cons_of_mem _ List.mem_cons_self) (by decide)

/-- The first file is opened and its only descriptor closed: one reference is left, and it is not released. -/
theorem last_close_keeps_file :
    ∃ c, Run FileMove ⟨fileInit, []⟩ [.open (some (12, 0x8000)) oRdwr 0x1000, .close 0] c ∧
      c.created = [0x1000] ∧ c.files.flist = 0 ∧
      slots c.files.openFiles 0x1000 = 0 ∧ (c.files.files 0x1000).refCount = 1 := by
  exact ⟨_, .cons ⟨by decide, rfl⟩ (.cons (fileMove_close (n := 0) (by decide) (by decide)) (.nil _)),
    rfl, rfl, by decide, by decide⟩

end BulbOS.File
