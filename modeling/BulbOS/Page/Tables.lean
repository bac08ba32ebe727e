import BulbOS.Page.Model
import BulbOS.Pmm.Alloc

/-!
# What the page table calls do to the tables

* `TablesOk`: the last entry of the directory is the directory, and two page tables share a frame only if it
  is frame 0, which `pmm_alloc` returns when no frame is left;
* `pte`: the page table entry of a page, as the MMU finds it;
* **`pageGetPt_spec`**: `page_get_pt` with `PAGE_ALLOC`, and `pte_addTable`: the entries after it;
* **`pageIdentityPte_eq`**, `pte_fill`: `page_identity_pte` in closed form.
-/

namespace BulbOS.Page

open KLib Pmm

variable {s s' : Paging} {p p' : PmmState} {d e ptr addr size page : ℕ}

/-! ## Entries and addresses -/

theorem pageGetPdIndex_eq (addr : ℕ) : pageGetPdIndex addr = addr / 2 ^ 22 := Nat.shiftRight_eq_div_pow addr 22

theorem pageGetPtIndex_eq (addr : ℕ) : pageGetPtIndex addr = addr / 4096 % 1024 := by
  rw [pageGetPtIndex, Nat.shiftRight_eq_div_pow]
  exact Nat.and_two_pow_sub_one_eq_mod (addr / 2 ^ 12) 10

theorem pageOffset_eq (addr : ℕ) : addr &&& 0xFFF = addr % 4096 := Nat.and_two_pow_sub_one_eq_mod addr 12

theorem or_flags (n : ℕ) : n ||| presentReadWriteUser = n / 8 * 8 + 7 := by
  have hlow : ∀ b < 8, b ||| presentReadWriteUser = 7 := by decide
  have hsplit : n = n / 8 * 2 ^ 3 ||| n % 8 := by
    rw [← Nat.shiftLeft_eq, ← Nat.shiftLeft_add_eq_or_of_lt (Nat.mod_lt _ (by decide)), Nat.shiftLeft_eq]
    omega
  conv_lhs => rw [hsplit]
  rw [Nat.or_assoc, hlow _ (Nat.mod_lt _ (by decide)), ← Nat.shiftLeft_eq,
    ← Nat.shiftLeft_add_eq_or_of_lt (by decide), Nat.shiftLeft_eq]

theorem present_or_flags (n : ℕ) : Present (n ||| presentReadWriteUser) := by
  rw [or_flags, Present]
  omega

theorem entryBase_or_flags (n : ℕ) : entryBase (n ||| presentReadWriteUser) = entryBase n := by
  rw [or_flags]
  unfold entryBase pageFrameSize
  omega

theorem Paging.frames_write (s : Paging) (f i v g j : ℕ) :
    (s.write f i v).frames g j = if g = f ∧ j = i then v else s.frames g j := by
  unfold Paging.write
  dsimp only
  by_cases hg : g = f
  · rw [hg, Function.update_self, Function.update_apply]
    exact if_congr (by simp) rfl rfl
  · rw [Function.update_of_ne hg, if_neg (fun hc => hg hc.1)]

/-- The frame of table `d`. -/
def Paging.base (s : Paging) (d : ℕ) : ℕ := entryBase (s.pdEntry d)

/-- The page table entry of a page as the MMU finds it; 0 where there is no table. -/
def pte (s : Paging) (page : ℕ) : ℕ :=
  if Present (s.pdEntry (page / 1024)) then s.frames (s.base (page / 1024)) (page % 1024) else 0

/-- The page at `RECURSIVE_INDEX(d)`: its entry is entry `d` of the directory. -/
def slotPage (d : ℕ) : ℕ := 1023 * 1024 + d

/-- The state of the tables between two calls. -/
structure TablesOk (s : Paging) : Prop where
  slot : Present (s.pdEntry 1023)
  self : s.base 1023 = s.dir
  dir_ne : s.dir ≠ 0
  pages : s.pmm.numOfPages ≤ 2 ^ 20
  last : LastOk s.pmm
  used : ∀ d < 1024, Present (s.pdEntry d) → s.base d ≠ 0 → s.base d / 4096 < s.pmm.numOfPages →
    getBit s.pmm.memBitmap (s.base d / 4096) = true
  inj : ∀ d < 1024, ∀ e < 1024, Present (s.pdEntry d) → Present (s.pdEntry e) → s.base d = s.base e →
    d = e ∨ s.base d = 0

theorem TablesOk.window_eq (h : TablesOk s) (d : ℕ) : s.window d = s.base d :=
  congrArg (fun f => entryBase (s.frames f d)) h.self

theorem TablesOk.base_ne_dir (h : TablesOk s) (hd : d < 1023) (hp : Present (s.pdEntry d)) : s.base d ≠ s.dir := by
  intro heq
  rcases h.inj d (by omega) 1023 (by omega) hp h.slot (heq.trans h.self.symm) with hd' | hzero
  · omega
  · exact h.dir_ne (heq.symm.trans hzero)

/-! ## A frame from `pmm_alloc` -/

/-- What a call of `pmm_alloc` returns: `NULL`, or a frame that was free. -/
structure Allocated (p : PmmState) (ptr : ℕ) (p' : PmmState) : Prop where
  call : ∃ reads, pmmAlloc p = some (ptr, p', reads)
  pages : p'.numOfPages = p.numOfPages
  last : LastOk p'
  aligned : entryBase ptr = ptr
  keep : ∀ i, getBit p.memBitmap i = true → getBit p'.memBitmap i = true
  inside : ptr ≠ 0 → ptr / 4096 < p.numOfPages
  fresh : ptr ≠ 0 → getBit p.memBitmap (ptr / 4096) = false
  taken : ptr ≠ 0 → getBit p'.memBitmap (ptr / 4096) = true

theorem allocated_of_pmmAlloc (hle : p.numOfPages ≤ 2 ^ 20) (hlast : LastOk p) {reads : List ℕ}
    (h : pmmAlloc p = some (ptr, p', reads)) : Allocated p ptr p' := by
  obtain ⟨hpages, hlast', ⟨rfl, hsame⟩ | ⟨i, hi, rfl, hclear, hset⟩⟩ := pmmAlloc_spec hle hlast h
  · exact ⟨⟨reads, h⟩, hpages, hlast', rfl, fun i hi => hsame ▸ hi, fun hz => absurd rfl hz, fun hz => absurd rfl hz,
      fun hz => absurd rfl hz⟩
  · have hdiv : i * pageFrameSize / 4096 = i := Nat.mul_div_cancel i (by decide)
    refine ⟨⟨reads, h⟩, hpages, hlast', ?_, fun j hj => ?_, fun _ => ?_, fun _ => ?_, fun _ => ?_⟩
    · rw [entryBase, Nat.mul_div_cancel i (by decide)]
    · rw [hset, getBit_setBit, hj, Bool.or_true]
    · rwa [hdiv]
    · rwa [hdiv]
    · rw [hdiv, hset, getBit_setBit, decide_eq_true rfl, Bool.true_or]

theorem TablesOk.base_ne_new (h : TablesOk s) (ha : Allocated s.pmm ptr p') (hptr : ptr ≠ 0) (hd : d < 1024)
    (hp : Present (s.pdEntry d)) : s.base d ≠ ptr := by
  rintro rfl
  have hused := h.used d hd hp hptr (ha.inside hptr)
  rw [ha.fresh hptr] at hused
  cases hused

theorem TablesOk.dir_ne_new (h : TablesOk s) (ha : Allocated s.pmm ptr p') : s.dir ≠ ptr := by
  by_cases hptr : ptr = 0
  · rw [hptr]
    exact h.dir_ne
  · have := h.base_ne_new ha hptr (by omega) h.slot
    rwa [h.self] at this

/-! ## A new table -/

/-- Table `d` in the frame at `ptr`, with all its entries 0. -/
def Paging.addTable (s : Paging) (p' : PmmState) (d ptr : ℕ) : Paging :=
  (pdAddTable { s with pmm := p' } d ptr).clear ptr

theorem frames_addTable (f i : ℕ) : (s.addTable p' d ptr).frames f i =
    if f = ptr then 0 else if f = s.dir ∧ i = d then ptr ||| presentReadWriteUser else s.frames f i := by
  unfold Paging.addTable Paging.clear pdAddTable Paging.write
  dsimp only
  by_cases hf : f = ptr
  · rw [if_pos hf, hf, Function.update_self]
  · rw [if_neg hf, Function.update_of_ne hf]
    by_cases hd : f = s.dir
    · rw [hd, Function.update_self, Function.update_apply]
      exact if_congr (by simp) rfl rfl
    · rw [if_neg (fun hc => hd hc.1), Function.update_of_ne hd]

theorem pdEntry_addTable (hdir : s.dir ≠ ptr) (e : ℕ) : (s.addTable p' d ptr).pdEntry e =
    if e = d then ptr ||| presentReadWriteUser else s.pdEntry e := by
  refine (frames_addTable s.dir e).trans ?_
  rw [if_neg hdir]
  exact if_congr (by simp) rfl rfl

theorem base_addTable (hdir : s.dir ≠ ptr) (haligned : entryBase ptr = ptr) (e : ℕ) :
    (s.addTable p' d ptr).base e = if e = d then ptr else s.base e := by
  rw [Paging.base, pdEntry_addTable hdir]
  by_cases he : e = d
  · rw [if_pos he, if_pos he, entryBase_or_flags, haligned]
  · rw [if_neg he, if_neg he, Paging.base]

theorem present_addTable (hdir : s.dir ≠ ptr) (e : ℕ) :
    Present ((s.addTable p' d ptr).pdEntry e) ↔ e = d ∨ Present (s.pdEntry e) := by
  rw [pdEntry_addTable hdir]
  by_cases he : e = d
  · rw [if_pos he]
    exact iff_of_true (present_or_flags ptr) (.inl he)
  · rw [if_neg he, or_iff_right he]

/-- Table `d` is present, or it is put into a new frame. -/
inductive Gets (s : Paging) (d : ℕ) : Paging → Prop
  | present (hp : Present (s.pdEntry d)) : Gets s d s
  | absent {ptr : ℕ} {p' : PmmState} (hp : ¬ Present (s.pdEntry d)) (ha : Allocated s.pmm ptr p') :
    Gets s d (s.addTable p' d ptr)

/-- **`page_get_pt` with `PAGE_ALLOC`.** -/
theorem pageGetPt_spec (h : TablesOk s) {r : Option ℕ} (hr : pageGetPt s addr .pageAlloc = some (r, s')) :
    r = some (addr / 2 ^ 22) ∧ Gets s (addr / 2 ^ 22) s' := by
  rw [pageGetPt, pageGetPdIndex_eq] at hr
  by_cases hp : Present (s.pdEntry (addr / 2 ^ 22))
  · rw [if_pos hp] at hr
    cases hr
    exact ⟨rfl, .present hp⟩
  · rw [if_neg hp, if_neg (by decide)] at hr
    obtain ⟨⟨ptr, p', reads⟩, halloc, hr⟩ := Option.bind_eq_some_iff.mp hr
    cases hr
    have ha := allocated_of_pmmAlloc h.pages h.last halloc
    have hd : 1023 ≠ addr / 2 ^ 22 := fun hd => hp (hd ▸ h.slot)
    -- the window of the new table goes through the last entry of the directory, which is another one
    have hslot : (pdAddTable { s with pmm := p' } (addr / 2 ^ 22) ptr).pdEntry 1023 = s.pdEntry 1023 := by
      unfold Paging.pdEntry pdAddTable Paging.write
      dsimp only
      rw [Function.update_self, Function.update_of_ne hd]
    have hnew : (pdAddTable { s with pmm := p' } (addr / 2 ^ 22) ptr).frames s.dir (addr / 2 ^ 22) =
        ptr ||| presentReadWriteUser := by
      unfold pdAddTable Paging.write
      dsimp only
      rw [Function.update_self, Function.update_self]
    have hwindow : (pdAddTable { s with pmm := p' } (addr / 2 ^ 22) ptr).window (addr / 2 ^ 22) = ptr := by
      rw [Paging.window, numOfEntries, hslot, show entryBase (s.pdEntry 1023) = s.dir from h.self, hnew,
        entryBase_or_flags, ha.aligned]
    rw [hwindow]
    exact ⟨rfl, .absent hp ha⟩

/-- The directory gets a new entry that leads to a new frame. -/
theorem TablesOk.of_pdEntry (h : TablesOk s) (ha : Allocated s.pmm ptr s'.pmm) (hp : ¬ Present (s.pdEntry d))
    (hdir : s'.dir = s.dir)
    (hentry : ∀ e, s'.pdEntry e = if e = d then ptr ||| presentReadWriteUser else s.pdEntry e) : TablesOk s' := by
  have hd : 1023 ≠ d := fun hd => hp (hd ▸ h.slot)
  have hnewBase : s'.base d = ptr := by
    rw [Paging.base, hentry, if_pos rfl, entryBase_or_flags, ha.aligned]
  have hold : ∀ e, e ≠ d → s'.pdEntry e = s.pdEntry e := fun e hed => (hentry e).trans (if_neg hed)
  have holdBase : ∀ e, e ≠ d → s'.base e = s.base e := fun e hed => congrArg entryBase (hold e hed)
  have hnew : ∀ e < 1024, e ≠ d → Present (s'.pdEntry e) → s'.base e = ptr → ptr = 0 := fun e he hed hpe hbase => by
    by_contra hptr
    rw [hold e hed] at hpe
    exact h.base_ne_new ha hptr he hpe ((holdBase e hed).symm.trans hbase)
  refine ⟨?_, ?_, hdir ▸ h.dir_ne, ha.pages.le.trans h.pages, ha.last, fun e he hpe hz hlt => ?_,
    fun e he f hf hpe hpf heq => ?_⟩
  · rw [hold 1023 hd]
    exact h.slot
  · rw [holdBase 1023 hd, hdir]
    exact h.self
  · by_cases hed : e = d
    · rw [hed, hnewBase] at hz ⊢
      exact ha.taken hz
    · rw [holdBase e hed] at hz hlt ⊢
      rw [hold e hed] at hpe
      exact ha.keep _ (h.used e he hpe hz (ha.pages ▸ hlt))
  · by_cases hed : e = d <;> by_cases hfd : f = d
    · exact .inl (hed.trans hfd.symm)
    · rw [hed, hnewBase] at heq ⊢
      exact .inr (hnew f hf hfd hpf heq.symm)
    · rw [hfd, hnewBase] at heq
      rw [heq]
      exact .inr (hnew e he hed hpe heq)
    · rw [holdBase e hed, holdBase f hfd] at heq
      rw [holdBase e hed]
      rw [hold e hed] at hpe
      rw [hold f hfd] at hpf
      exact h.inj e he f hf hpe hpf heq

theorem TablesOk.addTable (h : TablesOk s) (ha : Allocated s.pmm ptr p') (hp : ¬ Present (s.pdEntry d)) :
    TablesOk (s.addTable p' d ptr) :=
  h.of_pdEntry ha hp rfl (pdEntry_addTable (h.dir_ne_new ha))

theorem Gets.ok (hg : Gets s d s') (h : TablesOk s) : TablesOk s' := by
  cases hg with
  | present => exact h
  | absent hp ha => exact h.addTable ha hp

theorem Gets.isPresent (hg : Gets s d s') (h : TablesOk s) : Present (s'.pdEntry d) := by
  cases hg with
  | present hp => exact hp
  | absent hp ha => exact (present_addTable (h.dir_ne_new ha) d).mpr (.inl rfl)

/-- A new table has no pages; when it is in frame 0, the other tables there lose theirs. -/
theorem pte_addTable (h : TablesOk s) (ha : Allocated s.pmm ptr p') (hp : ¬ Present (s.pdEntry d))
    (hpage : page < 2 ^ 20) (hslot : page ≠ slotPage d) :
    pte (s.addTable p' d ptr) page = pte s page ∨ ptr = 0 ∧ Present (s.pdEntry (page / 1024)) ∧
      s.base (page / 1024) = 0 ∧ pte (s.addTable p' d ptr) page = 0 := by
  have hdir := h.dir_ne_new ha
  unfold pte
  rw [base_addTable hdir ha.aligned, frames_addTable]
  by_cases hed : page / 1024 = d
  · rw [if_pos ((present_addTable hdir _).mpr (.inl hed)), if_pos hed, if_pos rfl, if_neg (hed ▸ hp)]
    exact .inl rfl
  · rw [if_neg hed]
    by_cases hpe : Present (s.pdEntry (page / 1024))
    · rw [if_pos ((present_addTable hdir _).mpr (.inr hpe)), if_pos hpe]
      by_cases hbase : s.base (page / 1024) = ptr
      · have hptr : ptr = 0 := by
          by_contra hptr
          exact h.base_ne_new ha hptr (by omega) hpe hbase
        rw [if_pos hbase]
        exact .inr ⟨hptr, hpe, hbase.trans hptr, rfl⟩
      · rw [if_neg hbase, if_neg]
        · exact .inl rfl
        · rintro ⟨hb, hi⟩
          have hlast : ¬ page / 1024 < 1023 := fun hlt => h.base_ne_dir hlt hpe hb
          unfold slotPage at hslot
          omega
    · rw [if_neg (mt (present_addTable hdir _).mp (not_or.mpr ⟨hed, hpe⟩)), if_neg hpe]
      exact .inl rfl

/-! ## Calls that return -/

/-- `pmm_alloc` does not return, now or after other calls. -/
inductive Stuck : PmmState → Prop
  | now {p : PmmState} (h : pmmAlloc p = none) : Stuck p
  | later {p : PmmState} {r : ℕ × PmmState × List ℕ} (h : pmmAlloc p = some r) (hs : Stuck r.2.1) : Stuck p

theorem pmmAlloc_returns (h : ¬ Stuck p) : ∃ ptr p' reads, pmmAlloc p = some (ptr, p', reads) ∧ ¬ Stuck p' := by
  cases hr : pmmAlloc p with
  | none => exact absurd (.now hr) h
  | some r => exact ⟨r.1, r.2.1, r.2.2, rfl, fun hs => h (.later hr hs)⟩

theorem pageGetPt_returns (h : ¬ Stuck s.pmm) (addr : ℕ) :
    ∃ d s', pageGetPt s addr .pageAlloc = some (some d, s') ∧ ¬ Stuck s'.pmm := by
  rw [pageGetPt]
  by_cases hp : Present (s.pdEntry (pageGetPdIndex addr))
  · rw [if_pos hp]
    exact ⟨_, _, rfl, h⟩
  · obtain ⟨ptr, p', reads, halloc, hs⟩ := pmmAlloc_returns h
    rw [if_neg hp, if_neg (by decide), halloc]
    exact ⟨_, _, rfl, hs⟩

/-! ## The entries of one table -/

/-- Entries `i, …, i + n - 1` of a frame lead to the pages from `addr` on. -/
def Paging.fill (s : Paging) (f i n addr : ℕ) : Paging :=
  { s with frames := fun g j =>
      if g = f ∧ i ≤ j ∧ j < i + n then u32 (addr + pageFrameSize * (j - i)) ||| presentReadWriteUser
        else s.frames g j }

theorem frames_fill (s : Paging) (f i n addr g j : ℕ) : (s.fill f i n addr).frames g j =
    if g = f ∧ i ≤ j ∧ j < i + n then u32 (addr + pageFrameSize * (j - i)) ||| presentReadWriteUser
    else s.frames g j := rfl

@[simp] theorem fill_dir (s : Paging) (f i n addr : ℕ) : (s.fill f i n addr).dir = s.dir := rfl

@[simp] theorem fill_pmm (s : Paging) (f i n addr : ℕ) : (s.fill f i n addr).pmm = s.pmm := rfl

theorem fill_zero (s : Paging) (f i addr : ℕ) : s.fill f i 0 addr = s := by
  have hframes : (s.fill f i 0 addr).frames = s.frames := by
    funext g j
    exact if_neg fun hc => by omega
  rw [Paging.fill] at hframes ⊢
  dsimp only at hframes
  rw [hframes]

theorem fill_succ (s : Paging) (f i n addr : ℕ) : s.fill f i (n + 1) addr =
    ptAddEntry (s.fill f i n addr) f (i + n) (u32 (addr + pageFrameSize * n)) := by
  have hframes : (s.fill f i (n + 1) addr).frames =
      (ptAddEntry (s.fill f i n addr) f (i + n) (u32 (addr + pageFrameSize * n))).frames := by
    funext g j
    rw [ptAddEntry, Paging.frames_write]
    unfold Paging.fill
    dsimp only
    by_cases hnew : g = f ∧ j = i + n
    · rw [if_pos hnew, if_pos (by omega), hnew.2, Nat.add_sub_cancel_left]
    · rw [if_neg hnew]
      exact if_congr (by omega) rfl rfl
  exact congrArg (fun frames => (⟨s.pmm, frames, s.dir⟩ : Paging)) hframes

theorem TablesOk.window_fill (h : TablesOk s) (hd : d < 1024) (hp : Present (s.pdEntry d)) {i n : ℕ}
    (hin : i + n ≤ 1023) (addr : ℕ) : (s.fill (s.base d) i n addr).window d = s.base d := by
  have hslot : (s.fill (s.base d) i n addr).pdEntry 1023 = s.pdEntry 1023 := if_neg fun hc => by omega
  rw [Paging.window, numOfEntries, hslot, show entryBase (s.pdEntry 1023) = s.dir from h.self]
  refine congrArg entryBase (if_neg fun hc => ?_)
  have hlast : ¬ d < 1023 := fun hlt => h.base_ne_dir hlt hp hc.1.symm
  omega

/-- The loop, from the entry that is next on, in a table that its own writes do not move. -/
theorem identityPteLoop_fill {pageTable f i n : ℕ} (addr : ℕ) (frame : Paging → ℕ)
    (hframe : ∀ k < n, frame (s.fill f i k addr) = f) (hpos : 0 < i + n) (hlast : pageTable + 4 * (i + n) < 2 ^ 32)
    {m k fuel : ℕ} (hk : k + m = n) (hfuel : m < fuel) :
    identityPteLoop pageTable frame (pageTable + 4 * (i + n) - 4) fuel (s.fill f i k addr) (pageTable + 4 * (i + k))
      (addr + pageFrameSize * k) = some (s.fill f i n addr) := by
  induction m generalizing k fuel with
  | zero =>
    obtain ⟨fuel, rfl⟩ := Nat.exists_eq_succ_of_ne_zero (Nat.ne_zero_of_lt hfuel)
    rw [identityPteLoop, if_neg (by omega), show k = n by omega]
  | succ m ih =>
    obtain ⟨fuel, rfl⟩ := Nat.exists_eq_succ_of_ne_zero (Nat.ne_zero_of_lt hfuel)
    have hindex : sub32 (pageTable + 4 * (i + k)) pageTable / 4 = i + k := by
      rw [sub32_of_le (by omega) (by omega)]
      omega
    have hentry : u32 (pageTable + 4 * (i + k) + 4) = pageTable + 4 * (i + (k + 1)) := u32_of_lt (by omega)
    rw [identityPteLoop, if_pos (by omega), hindex, hentry, hframe k (by omega), ← fill_succ,
      show addr + pageFrameSize * k + pageFrameSize = addr + pageFrameSize *
        (k + 1) by rw [Nat.mul_succ, Nat.add_assoc]]
    exact ih (by omega) (by omega)

/-- A loop to the last word of the address space does not end. -/
theorem identityPteLoop_wraps (pageTable : ℕ) (frame : Paging → ℕ) (fuel : ℕ) (s : Paging) {entry : ℕ}
    (hentry : entry < 2 ^ 32) (halign : entry % 4 = 0) (addr : ℕ) :
    identityPteLoop pageTable frame 0xFFFFFFFC fuel s entry addr = none := by
  induction fuel generalizing s entry addr with
  | zero => rfl
  | succ fuel ih =>
    rw [identityPteLoop, if_pos (by omega)]
    have hnext : u32 (entry + 4) < 2 ^ 32 := u32_lt _
    exact ih _ hnext (by unfold u32; omega) _

/-- **`page_identity_pte`** of a table that is present. -/
theorem pageIdentityPte_eq (h : TablesOk s) (hd : d < 1024) (hp : Present (s.pdEntry d)) (addr size : ℕ) :
    pageIdentityPte s (recursiveIndex d) (·.window d) addr size =
      if d = 1023 ∧ pageGetPtIndex (u32 (addr + size)) = 1023 then none
      else some (s.fill (s.base d) (pageGetPtIndex addr)
        (pageGetPtIndex (u32 (addr + size)) + 1 - pageGetPtIndex addr) addr) := by
  have hend : ∀ a, pageGetPtIndex a < 1024 := fun a => by
    rw [pageGetPtIndex_eq]
    exact Nat.mod_lt _ (by decide)
  have hstart := hend addr
  have hlast := hend (u32 (addr + size))
  rw [pageIdentityPte]
  generalize pageGetPtIndex addr = i at *
  generalize pageGetPtIndex (u32 (addr + size)) = j at *
  by_cases hwrap : d = 1023 ∧ j = 1023
  · obtain ⟨rfl, rfl⟩ := hwrap
    rw [if_pos ⟨rfl, rfl⟩]
    exact identityPteLoop_wraps _ _ _ _ (by unfold recursiveIndex pageFrameSize; omega)
      (by unfold recursiveIndex pageFrameSize; omega) _
  · rw [if_neg hwrap]
    by_cases hle : i ≤ j
    · have hend : recursiveIndex d + 4 * (i + (j + 1 - i)) < 2 ^ 32 := by
        unfold recursiveIndex pageFrameSize
        omega
      have hfill := identityPteLoop_fill addr (·.window d)
        (fun k hk => h.window_fill hd hp (show i + k ≤ 1023 by omega) addr) (by omega) hend (Nat.zero_add _)
        (show j + 1 - i < numOfEntries + 1 by unfold numOfEntries; omega)
      rw [fill_zero, Nat.mul_zero, Nat.add_zero, Nat.add_zero] at hfill
      rw [← hfill]
      congr 1
      omega
    · rw [numOfEntries, identityPteLoop, if_neg (by omega), Nat.sub_eq_zero_of_le (by omega), fill_zero]

theorem pdEntry_fill (h : TablesOk s) (hd : d < 1023) (hp : Present (s.pdEntry d)) (i n addr e : ℕ) :
    (s.fill (s.base d) i n addr).pdEntry e = s.pdEntry e :=
  if_neg fun hc => h.base_ne_dir hd hp hc.1.symm

theorem TablesOk.fill (h : TablesOk s) (hd : d < 1023) (hp : Present (s.pdEntry d)) (i n addr : ℕ) :
    TablesOk (s.fill (s.base d) i n addr) := by
  have hentry := pdEntry_fill h hd hp i n addr
  have hbase : ∀ e, (s.fill (s.base d) i n addr).base e = s.base e := fun e => congrArg entryBase (hentry e)
  refine ⟨?_, ?_, h.dir_ne, h.pages, h.last, ?_, ?_⟩
  · rw [hentry]
    exact h.slot
  · rw [hbase]
    exact h.self
  · simp only [hentry, hbase, fill_pmm]
    exact h.used
  · simp only [hentry, hbase]
    exact h.inj

/-- The entries that are written, in every table in that frame. -/
theorem pte_fill (h : TablesOk s) (hd : d < 1023) (hp : Present (s.pdEntry d)) (i n addr page : ℕ) :
    pte (s.fill (s.base d) i n addr) page =
      if Present (s.pdEntry (page / 1024)) ∧ s.base (page / 1024) = s.base d ∧ i ≤ page % 1024 ∧ page % 1024 < i + n
      then u32 (addr + pageFrameSize * (page % 1024 - i)) ||| presentReadWriteUser else pte s page := by
  have hentry := pdEntry_fill h hd hp i n addr
  unfold pte
  rw [hentry, show (s.fill (s.base d) i n addr).base (page / 1024) = s.base (page / 1024)
    from congrArg entryBase (hentry _)]
  by_cases hpage : Present (s.pdEntry (page / 1024))
  · rw [if_pos hpage, if_pos hpage]
    exact if_congr (by simp [hpage]) rfl rfl
  · rw [if_neg hpage, if_neg hpage, if_neg (fun hc => hpage hc.1)]

end BulbOS.Page
