import BulbOS.File.Refs
import BulbOS.Lib.Linked

/-!
# The lists of `file_t` objects

Callers allocate, duplicate and close files, each closing only references that it has. The `file_close` of the last
reference clears the file before it reads `file->close`, so that it calls `NULL`: as long as none does, all files are on
`fhead.ulist` and none is on `fhead.flist`.

* `ListsOk`: the two lists, as they should be; `ListInv.step`: what every call keeps;
* `lastCall`, `CloseOk`: what the last `file_close` calls, and what it should call;
* **`file_lists_iff`**: the lists are right after every run; a `file_close` is exactly if it is not the last one.
-/

namespace BulbOS.File

open KLib

/-- Besides the code's data, the references that callers have, and the files that `kmalloc` gave. -/
structure ListSys where
  files : Files
  held : List ℕ
  made : List ℕ

inductive ListOp
  | alloc (ptr : ℕ)
  | dup (file : ℕ)
  | close (file : ℕ)
  /-- A caller sets the fields of its file, as `file_open` and `pipe_alloc` do. -/
  | fill (file : ℕ) (x : FileT)

def listStep (c : ListSys) : ListOp → Option ListSys
  | .alloc ptr =>
    let (file, s) := fileAlloc c.files ptr
    some ⟨s, file :: c.held, if c.files.flist ≠ 0 then c.made else ptr :: c.made⟩
  | .dup file => some { c with files := fileDup c.files file, held := file :: c.held }
  | .close file => do
    let s ← fileClose c.files file
    return { c with files := s, held := c.held.erase file }
  | .fill file x =>
    let old := c.files.files file
    some { c with files := c.files.set file { x with refCount := old.refCount, next := old.next } }

/-- `kmalloc` gives new memory, references are balanced, and a count does not wrap around. -/
def ListOp.Legal (c : ListSys) : ListOp → Prop
  | .alloc ptr => ptr ≠ 0 ∧ ptr ∉ c.made
  | .dup file => file ∈ c.held ∧ (c.files.files file).refCount + 1 < 2 ^ 32
  | .close file | .fill file _ => file ∈ c.held

/-- The call does not give up the last reference. -/
def ListOp.Keeps (c : ListSys) : ListOp → Prop
  | .close file => (c.files.files file).refCount ≠ 1
  | _ => True

def ListMove (c : ListSys) (op : ListOp) (c' : ListSys) : Prop := op.Legal c ∧ op.Keeps c ∧ listStep c op = some c'

/-- The two lists: no file is on both, and a file is on the first exactly while it has references. -/
structure ListsOk (c : ListSys) (ulist flist : List ℕ) : Prop where
  used : Linked (fun f => (c.files.files f).next) 0 c.files.ulist ulist
  free : Linked (fun f => (c.files.files f).next) 0 c.files.flist flist
  disjoint : ulist.Disjoint flist
  mem_used : ∀ f, f ∈ ulist ↔ f ∈ c.made ∧ 0 < (c.files.files f).refCount
  mem_free : ∀ f, f ∈ flist ↔ f ∈ c.made ∧ (c.files.files f).refCount = 0
  alloc : ∀ ptr, ptr ≠ 0 → ptr ∉ c.made → (fileAlloc c.files ptr).1 ∉ c.held

/-- The file after the `memset` of `file_close`. -/
def closed (s : Files) (file : ℕ) : Files :=
  { s.set file ⟨0, false, false, 0, 0, .null, .null, .null, .null, s.flist⟩ with flist := file }

/-- What the `file_close` of the last reference calls, and the file that it hands over. -/
def lastCall (s : Files) (file : ℕ) : FileFn × FileT := (((closed s file).files file).close, (closed s file).files file)

theorem fileClose_lastCall {s : Files} {file : ℕ} (h : (s.files file).refCount = 1) :
    fileClose s file = if (lastCall s file).1 = .null then none else some (closed s file) := by
  have hzero : sub32 1 1 = 0 := by decide
  unfold fileClose
  rw [h, hzero]
  rfl

theorem fileClose_pred {s : Files} {file : ℕ} (h : 1 < (s.files file).refCount)
    (hlt : (s.files file).refCount < 2 ^ 32) :
    fileClose s file = some (s.set file { s.files file with refCount := (s.files file).refCount - 1 }) := by
  obtain ⟨n, hn⟩ := Nat.exists_eq_add_of_le' h
  have hsub : sub32 (s.files file).refCount 1 = n + 1 := by
    rw [sub32_of_le h.le hlt]
    omega
  rw [fileClose_more hsub, hn]
  rfl

/-- The last reference is given up with a call of the function of the file, which finds its fields. -/
def CloseOk (s : Files) (file : ℕ) : Prop :=
  (s.files file).refCount = 1 → (lastCall s file).1 ≠ .null ∧ (lastCall s file).1 = (s.files file).close ∧
    (lastCall s file).2.object = (s.files file).object ∧ (lastCall s file).2.writep = (s.files file).writep ∧
    (lastCall s file).2.readp = (s.files file).readp ∧ (lastCall s file).2.offset = (s.files file).offset

/-- The lists when the last reference is given up, at the call. -/
def ClosedListsOk (c : ListSys) (file : ℕ) : Prop :=
  (c.files.files file).refCount = 1 →
    ∃ ulist flist, ListsOk { c with files := closed c.files file, held := c.held.erase file } ulist flist

theorem lastCall_null (s : Files) (file : ℕ) : (lastCall s file).1 = .null := by
  have hself : (closed s file).files file = ⟨0, false, false, 0, 0, .null, .null, .null, .null, s.flist⟩ :=
    Function.update_self ..
  unfold lastCall
  rw [hself]

theorem closeOk_iff {s : Files} {file : ℕ} : CloseOk s file ↔ (s.files file).refCount ≠ 1 :=
  ⟨fun h hone => (h hone).1 (lastCall_null s file), fun h hone => absurd hone h⟩

/-- All files are on `ulist`, with as many references as callers have. -/
structure ListInv (c : ListSys) : Prop where
  flist : c.files.flist = 0
  ulist : Linked (fun f => (c.files.files f).next) 0 c.files.ulist c.made
  mem : ∀ f ∈ c.held, f ∈ c.made
  count : ∀ f ∈ c.made, (c.files.files f).refCount = c.held.count f
  pos : ∀ f ∈ c.made, 0 < (c.files.files f).refCount
  lt : ∀ f ∈ c.made, (c.files.files f).refCount < 2 ^ 32

/-- The count of one file and the references of callers change together. -/
theorem ListInv.recount {c : ListSys} {file n : ℕ} {held : List ℕ} (h : ListInv c) {x : FileT}
    (hx : x.next = (c.files.files file).next) (hn : x.refCount = n) (hpos : 0 < n) (hlt : n < 2 ^ 32)
    (hmem : ∀ f ∈ held, f ∈ c.made) (hcount : held.count file = n)
    (hother : ∀ f, f ≠ file → held.count f = c.held.count f) :
    ListInv ⟨c.files.set file x, held, c.made⟩ := by
  have hself : ((c.files.set file x).files file) = x := Function.update_self ..
  have hne : ∀ f, f ≠ file → (c.files.set file x).files f = c.files.files f := fun f hf =>
    Function.update_of_ne hf ..
  refine ⟨h.flist, h.ulist.congr fun f _ => ?_, hmem, fun f hf => ?_, fun f hf => ?_, fun f hf => ?_⟩
  · by_cases hf : f = file
    · rw [hf]
      exact (congrArg FileT.next hself).trans hx
    · exact congrArg FileT.next (hne f hf)
  · by_cases hff : f = file
    · rw [hff, hcount, ← hn]
      exact congrArg FileT.refCount hself
    · rw [hother f hff, ← h.count f hf]
      exact congrArg FileT.refCount (hne f hff)
  · by_cases hff : f = file
    · rw [hff]
      change 0 < ((c.files.set file x).files file).refCount
      rw [hself, hn]
      exact hpos
    · change 0 < ((c.files.set file x).files f).refCount
      rw [hne f hff]
      exact h.pos f hf
  · by_cases hff : f = file
    · rw [hff]
      change ((c.files.set file x).files file).refCount < 2 ^ 32
      rw [hself, hn]
      exact hlt
    · change ((c.files.set file x).files f).refCount < 2 ^ 32
      rw [hne f hff]
      exact h.lt f hf

theorem ListInv.alloc {c : ListSys} {ptr : ℕ} (h : ListInv c) (h₀ : ptr ≠ 0) (hnew : ptr ∉ c.made) :
    ListInv ⟨(fileAlloc c.files ptr).2, ptr :: c.held, ptr :: c.made⟩ := by
  have halloc : (fileAlloc c.files ptr).2 = { c.files.set ptr { c.files.files ptr with
      refCount := 1, next := c.files.ulist, close := .null, read := .null, write := .null, stat := .null } with
        ulist := ptr } := by
    unfold fileAlloc
    rw [if_neg (not_not.mpr h.flist)]
  rw [halloc]
  have hself := Function.update_self ptr ({ c.files.files ptr with
    refCount := 1, next := c.files.ulist, close := .null, read := .null, write := .null, stat := .null } : FileT)
    c.files.files
  have hne : ∀ f ∈ c.made, f ≠ ptr := fun f hf e => hnew (e ▸ hf)
  have hunheld : ptr ∉ c.held := fun hp => hnew (h.mem ptr hp)
  refine ⟨h.flist, ⟨rfl, h₀, ?_⟩, fun f hf => ?_, fun f hf => ?_, fun f hf => ?_, fun f hf => ?_⟩
  · dsimp only [Files.set]
    rw [hself]
    exact h.ulist.congr fun f hf => congrArg FileT.next (Function.update_of_ne (hne f hf) ..)
  · exact (List.mem_cons.mp hf).elim (fun e => e ▸ List.mem_cons_self) fun hf => List.mem_cons_of_mem _ (h.mem f hf)
  · dsimp only [Files.set]
    rcases List.mem_cons.mp hf with rfl | hf
    · rw [hself, List.count_cons_self, List.count_eq_zero.mpr hunheld]
    · rw [Function.update_of_ne (hne f hf), List.count_cons_of_ne (hne f hf).symm]
      exact h.count f hf
  · dsimp only [Files.set]
    rcases List.mem_cons.mp hf with rfl | hf
    · rw [hself]
      exact one_pos
    · rw [Function.update_of_ne (hne f hf)]
      exact h.pos f hf
  · dsimp only [Files.set]
    rcases List.mem_cons.mp hf with rfl | hf
    · rw [hself]
      exact Nat.one_lt_two_pow (by decide)
    · rw [Function.update_of_ne (hne f hf)]
      exact h.lt f hf

/-- **Every call that returns** keeps all files on `ulist`. -/
theorem ListInv.step {c c' : ListSys} {op : ListOp} (h : ListInv c) (hs : ListMove c op c') : ListInv c' := by
  obtain ⟨hlegal, hkeeps, hs⟩ := hs
  cases op with
  | alloc ptr =>
    obtain ⟨h₀, hnew⟩ := hlegal
    have hfst : (fileAlloc c.files ptr).1 = ptr := by
      unfold fileAlloc
      rw [if_neg (not_not.mpr h.flist)]
    have hc' : (⟨(fileAlloc c.files ptr).2, (fileAlloc c.files ptr).1 :: c.held,
      if c.files.flist ≠ 0 then c.made else ptr :: c.made⟩ : ListSys) = c' := Option.some.inj hs
    rw [← hc', if_neg (not_not.mpr h.flist), hfst]
    exact h.alloc h₀ hnew
  | dup file =>
    obtain ⟨hheld, hlt⟩ := hlegal
    cases hs
    have hmade := h.mem file hheld
    have hn : ({ c.files.files file with refCount := u32 ((c.files.files file).refCount + 1) } : FileT).refCount =
      (c.files.files file).refCount + 1 := u32_of_lt hlt
    refine h.recount rfl hn (Nat.succ_pos _) hlt (fun f hf => ?_) ?_ fun f hf => List.count_cons_of_ne (Ne.symm hf)
    · exact (List.mem_cons.mp hf).elim (fun e => e ▸ hmade) (h.mem f)
    · rw [List.count_cons_self, h.count file hmade]
  | close file =>
    simp only [listStep, Option.bind_eq_bind, Option.pure_def, Option.bind_eq_some_iff, Option.some.injEq] at hs
    obtain ⟨s, hclose, rfl⟩ := hs
    have hmade := h.mem file hlegal
    have hpos := h.pos file hmade
    have hmore : (c.files.files file).refCount ≠ 1 := hkeeps
    have hcount := h.count file hmade
    rw [fileClose_pred (by omega) (h.lt file hmade)] at hclose
    cases hclose
    have hlt := h.lt file hmade
    refine h.recount (n := (c.files.files file).refCount - 1) rfl rfl (by omega) (by omega)
      (fun f hf => h.mem f (List.mem_of_mem_erase hf)) ?_ fun f hf => List.count_erase_of_ne hf
    rw [List.count_erase_self, hcount]
  | fill file x =>
    cases hs
    have hmade := h.mem file hlegal
    exact h.recount (x := { x with refCount := (c.files.files file).refCount, next := (c.files.files file).next })
      rfl rfl (h.pos file hmade) (h.lt file hmade) h.mem (h.count file hmade).symm fun f _ => rfl

theorem ListInv.listsOk {c : ListSys} (h : ListInv c) : ListsOk c c.made [] := by
  refine ⟨h.ulist, h.flist, List.disjoint_nil_right _, fun f => ?_, fun f => ?_, fun ptr h₀ hnew => ?_⟩
  · exact ⟨fun hf => ⟨hf, h.pos f hf⟩, And.left⟩
  · exact ⟨fun hf => absurd hf List.not_mem_nil, fun hf => absurd hf.2 (h.pos f hf.1).ne'⟩
  · rw [fileAlloc, if_neg (not_not.mpr h.flist)]
    exact fun hp => hnew (h.mem ptr hp)

theorem ListInv.closedListsOk_iff {c : ListSys} {file : ℕ} (h : ListInv c) (hf : file ∈ c.held) :
    ClosedListsOk c file ↔ (c.files.files file).refCount ≠ 1 := by
  refine ⟨fun hok hone => ?_, fun hne hone => absurd hone hne⟩
  obtain ⟨ulist, flist, hlists⟩ := hok hone
  have hused : file ∈ ulist := h.ulist.mem_of_eq_off hlists.used (h.mem file hf) fun f hne =>
    congrArg FileT.next (Function.update_of_ne hne ..)
  have h₀ : file ≠ 0 := hlists.used.ne_null hused
  obtain ⟨l, rfl, -⟩ := hlists.free.exists_cons h₀
  exact hlists.disjoint hused List.mem_cons_self

/-- A call returns exactly if it does not give up the last reference. -/
theorem ListInv.returns_iff {c : ListSys} {op : ListOp} (h : ListInv c) (hlegal : op.Legal c) :
    (∃ c', listStep c op = some c') ↔ op.Keeps c := by
  cases op with
  | alloc ptr => exact ⟨fun _ => trivial, fun _ => ⟨_, rfl⟩⟩
  | dup file => exact ⟨fun _ => trivial, fun _ => ⟨_, rfl⟩⟩
  | fill file x => exact ⟨fun _ => trivial, fun _ => ⟨_, rfl⟩⟩
  | close file =>
    have hmade := h.mem file hlegal
    have hpos := h.pos file hmade
    simp only [listStep, ListOp.Keeps]
    by_cases hone : (c.files.files file).refCount = 1
    · rw [fileClose_lastCall hone, if_pos (lastCall_null ..)]
      exact ⟨fun ⟨_, hs⟩ => absurd hs (Option.some_ne_none _).symm, fun hne => absurd hone hne⟩
    · rw [fileClose_pred (by omega) (h.lt file hmade)]
      exact ⟨fun _ => hone, fun _ => ⟨_, rfl⟩⟩

/-- No file was allocated yet. -/
structure Unused (c : ListSys) : Prop where
  flist : c.files.flist = 0
  ulist : c.files.ulist = 0
  held : c.held = []
  made : c.made = []

theorem Unused.listInv {c : ListSys} (h : Unused c) : ListInv c := by
  refine ⟨h.flist, ?_, ?_, ?_, ?_, ?_⟩ <;> simp [h.ulist, h.held, h.made]

/-- **While no `file_close` gives up the last reference**, the lists are right; one that does calls `NULL`, and leaves
the file on both lists. -/
theorem file_lists_iff {c₀ c : ListSys} {ops : List ListOp} (h₀ : Unused c₀) (h : Run ListMove c₀ ops c) :
    (∃ ulist flist, ListsOk c ulist flist) ∧
      (∀ op, op.Legal c → ((∃ c', listStep c op = some c') ↔ op.Keeps c)) ∧
      ∀ file ∈ c.held, (CloseOk c.files file ↔ (c.files.files file).refCount ≠ 1) ∧
        (ClosedListsOk c file ↔ (c.files.files file).refCount ≠ 1) := by
  have hinv : ListInv c := h.invariant (fun _ _ _ hi hs => hi.step hs) h₀.listInv
  exact ⟨⟨_, _, hinv.listsOk⟩, fun op hlegal => hinv.returns_iff hlegal, fun file hf =>
    ⟨closeOk_iff, hinv.closedListsOk_iff hf⟩⟩

/-- A system before the first call. -/
def unused : ListSys :=
  ⟨⟨fun _ => ⟨0, false, false, 0, 0, .null, .null, .null, .null, 0⟩, 0, 0, fun _ => 0⟩, [], []⟩

theorem unused_ok : Unused unused := ⟨rfl, rfl, rfl, rfl⟩

/-- The read end of a pipe. -/
def pipeEnd : FileT := ⟨1, true, false, 0x5000, 0, .pipeClose, .pipeRead, .null, .null, 0⟩

/-- A pipe end is allocated, filled in and duplicated. -/
def pipeOps : List ListOp := [.alloc 0x1000, .fill 0x1000 pipeEnd, .dup 0x1000]

def ListSys.then (c : ListSys) (op : ListOp) : ListSys := (listStep c op).getD c

theorem run_pipeOps : Run ListMove unused pipeOps (pipeOps.foldl .then unused) := by
  refine .cons ⟨⟨by decide, by decide⟩, trivial, rfl⟩ (.cons ⟨?_, trivial, rfl⟩
    (.cons ⟨⟨?_, ?_⟩, trivial, rfl⟩ (.nil _)))
  · exact List.mem_cons_self
  · exact List.mem_cons_self
  · decide +kernel

/-- One of the two references can be given up, both cannot. -/
theorem file_lists_iff_pipe :
    (∃ c', listStep (pipeOps.foldl .then unused) (.close 0x1000) = some c') ∧
      CloseOk (pipeOps.foldl .then unused).files 0x1000 := by
  have hheld : 0x1000 ∈ (pipeOps.foldl .then unused).held := by decide +kernel
  have hcount : ((pipeOps.foldl .then unused).files.files 0x1000).refCount ≠ 1 := by decide +kernel
  obtain ⟨-, hreturns, hclose⟩ := file_lists_iff unused_ok run_pipeOps
  exact ⟨(hreturns (.close 0x1000) hheld).mpr hcount, (hclose 0x1000 hheld).1.mpr hcount⟩

/-- The only reference to the read end of a pipe is given up: `pipe_close` is not called, `NULL` is, and the file is on
both lists. -/
theorem pipe_close_not_called : ∃ c, Run ListMove unused [.alloc 0x1000, .fill 0x1000 pipeEnd] c ∧
    ListOp.Legal c (.close 0x1000) ∧ (c.files.files 0x1000).close = .pipeClose ∧ ¬CloseOk c.files 0x1000 ∧
      ¬ClosedListsOk c 0x1000 := by
  have hrun : Run ListMove unused [.alloc 0x1000, .fill 0x1000 pipeEnd]
      ([.alloc 0x1000, .fill 0x1000 pipeEnd].foldl .then unused) :=
    .cons ⟨⟨by decide, by decide⟩, trivial, rfl⟩ (.cons ⟨List.mem_cons_self, trivial, rfl⟩ (.nil _))
  have hone : (([.alloc 0x1000, .fill 0x1000 pipeEnd].foldl ListSys.then unused).files.files 0x1000).refCount = 1 := by
    decide +kernel
  have hinv : ListInv _ := hrun.invariant (fun _ _ _ hi hs => hi.step hs) unused_ok.listInv
  have hheld : 0x1000 ∈ ([.alloc 0x1000, .fill 0x1000 pipeEnd].foldl ListSys.then unused).held := List.mem_cons_self
  exact ⟨_, hrun, hheld, by decide +kernel, fun hok => closeOk_iff.mp hok hone,
    fun hok => (hinv.closedListsOk_iff hheld).mp hok hone⟩

end BulbOS.File
