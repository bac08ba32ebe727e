import BulbOS.Page.Identity

/-!
# Address translation

`page_get_pt_entry` passes `PAGE_ALLOC` to `page_get_pt` whatever flag it got, so a lookup creates the page table
that it does not find. The entry of a page that is not mapped is `NULL`, and `page_get_phys_addr` dereferences it.

* **`pageGetPtEntry_spec`**: what `page_get_pt_entry` does;
* **`translates_iff`**: `page_get_phys_addr` does what its comment promises for the addresses that are mapped.
-/

namespace BulbOS.Page

open KLib Pmm

variable {s s₁ s' : Paging} {d addr page : ℕ} {flag : AllocFlag}

/-! ## Looking up an entry -/

/-- The entry of `page` leads to a new frame. -/
def Paging.putPage (s : Paging) (p' : PmmState) (page ptr : ℕ) : Paging :=
  ptAddEntry { s with pmm := p' } (s.base (page / 1024)) (page % 1024) ptr

theorem div_page_div_table (addr : ℕ) : addr / 4096 / 1024 = addr / 2 ^ 22 := Nat.div_div_eq_div_mul addr 4096 1024

theorem pte_eq (hp : Present (s.pdEntry (page / 1024))) : pte s page = s.frames (s.base (page / 1024)) (page % 1024) :=
  if_pos hp

/-- **`page_get_pt_entry`**: a table that is not present is created with either flag. -/
theorem pageGetPtEntry_spec (h : TablesOk s) {r : Option (ℕ × ℕ)} (hr : pageGetPtEntry s addr flag = some (r, s')) :
    ∃ s₁, Gets s (addr / 2 ^ 22) s₁ ∧
      (Present (pte s₁ (addr / 4096)) ∧ r = some (addr / 2 ^ 22, addr / 4096 % 1024) ∧ s' = s₁ ∨
        ¬ Present (pte s₁ (addr / 4096)) ∧ flag = .noAlloc ∧ r = none ∧ s' = s₁ ∨
        ¬ Present (pte s₁ (addr / 4096)) ∧ flag = .pageAlloc ∧ r = some (addr / 2 ^ 22, addr / 4096 % 1024) ∧
          ∃ ptr p', Allocated s₁.pmm ptr p' ∧ s' = s₁.putPage p' (addr / 4096) ptr) := by
  obtain ⟨⟨table, s₁⟩, hget, hr⟩ := Option.bind_eq_some_iff.mp hr
  obtain ⟨rfl, hg⟩ := pageGetPt_spec h hget
  have hok := hg.ok h
  have htable := div_page_div_table addr
  have hpte : s₁.frames (s₁.window (addr / 2 ^ 22)) (addr / 4096 % 1024) = pte s₁ (addr / 4096) := by
    rw [pte_eq (by rw [htable]; exact hg.isPresent h), htable, hok.window_eq]
  refine ⟨s₁, hg, ?_⟩
  simp only [Option.bind_eq_bind, Option.bind_some, pageGetPtIndex_eq, hpte] at hr
  by_cases hp : Present (pte s₁ (addr / 4096))
  · rw [if_pos hp] at hr
    cases hr
    exact .inl ⟨hp, rfl, rfl⟩
  · rw [if_neg hp] at hr
    by_cases hflag : flag = .noAlloc
    · rw [if_pos hflag] at hr
      cases hr
      exact .inr (.inl ⟨hp, hflag, rfl, rfl⟩)
    · rw [if_neg hflag] at hr
      obtain ⟨⟨ptr, p', reads⟩, halloc, hr⟩ := Option.bind_eq_some_iff.mp hr
      cases hr
      have ha := allocated_of_pmmAlloc hok.pages hok.last halloc
      have hflag' : flag = .pageAlloc := by
        cases flag
        · exact absurd rfl hflag
        · rfl
      refine .inr (.inr ⟨hp, hflag', rfl, ptr, p', ha, ?_⟩)
      have hwindow : ({ s₁ with pmm := p' } : Paging).window (addr / 2 ^ 22) = s₁.base (addr / 4096 / 1024) := by
        rw [htable]
        exact hok.window_eq _
      rw [hwindow]
      rfl

/-! ## Translation -/

/-- The address has a page table and a page. -/
def Mapped (s : Paging) (addr : ℕ) : Prop := Present (pte s (addr / 4096))

/-- What the comment of `page_get_phys_addr` promises: it returns, having changed neither a frame nor the bitmap and
without having dereferenced `NULL`, and returns the address of the byte in the frame if the address is mapped. -/
def Translates (s : Paging) (addr : ℕ) : Prop :=
  ∃ r s', pageGetPhysAddr s addr = some (some r, s') ∧ s'.frames = s.frames ∧ s'.dir = s.dir ∧
    s'.pmm.memBitmap = s.pmm.memBitmap ∧ (Mapped s addr → r = entryBase (pte s (addr / 4096)) + addr % 4096)

theorem entryBase_or_offset (entry addr : ℕ) : entryBase entry ||| addr &&& 0xFFF = entryBase entry + addr % 4096 := by
  rw [pageOffset_eq, entryBase, show pageFrameSize = 2 ^ 12 from rfl, ← Nat.shiftLeft_eq,
    ← Nat.shiftLeft_add_eq_or_of_lt (Nat.mod_lt _ (by decide))]

theorem Mapped.table (h : Mapped s addr) : Present (s.pdEntry (addr / 2 ^ 22)) := by
  by_contra hp
  rw [Mapped, pte, div_page_div_table, if_neg hp] at h
  exact absurd h (by decide)

/-- **Translation never allocates** exactly for the addresses that are mapped. -/
theorem translates_iff (h : TablesOk s) (addr : ℕ) : Translates s addr ↔ Mapped s addr := by
  constructor
  · rintro ⟨r, s', hr, hframes, hdir, -⟩
    obtain ⟨⟨entry, s₂⟩, hentry, hr⟩ := Option.bind_eq_some_iff.mp hr
    obtain ⟨s₁, hg, ⟨hp, rfl, rfl⟩ | ⟨-, -, rfl, -⟩ | ⟨-, hflag, -⟩⟩ := pageGetPtEntry_spec h hentry
    · cases hr
      -- the tables have not changed, so the entry was there before
      have hsame : pte s' (addr / 4096) = pte s (addr / 4096) := by
        unfold pte Paging.base Paging.pdEntry
        rw [hframes, hdir]
      rwa [Mapped, ← hsame]
    · cases hr
    · cases hflag
  · intro hm
    have htable := hm.table
    have hget : pageGetPt s addr .pageAlloc = some (some (addr / 2 ^ 22), s) := by
      rw [pageGetPt, pageGetPdIndex_eq]
      exact if_pos htable
    have hpte : s.frames (s.window (addr / 2 ^ 22)) (addr / 4096 % 1024) = pte s (addr / 4096) := by
      rw [pte_eq (by rwa [div_page_div_table]), div_page_div_table, h.window_eq]
    have hentry : pageGetPtEntry s addr .noAlloc = some (some (addr / 2 ^ 22, addr / 4096 % 1024), s) := by
      rw [pageGetPtEntry, hget]
      simp only [Option.bind_eq_bind, Option.bind_some, pageGetPtIndex_eq, hpte]
      exact if_pos hm
    refine ⟨_, s, ?_, rfl, rfl, rfl, fun _ => rfl⟩
    rw [pageGetPhysAddr, hentry]
    simp only [Option.bind_eq_bind, Option.bind_some, Option.map_some, hpte, entryBase_or_offset]
    rfl

theorem translates_iff_full : Translates fullSpace 0x400123 := by
  refine (translates_iff fullSpace_ok.toTablesOk 0x400123).mpr ?_
  rw [Mapped, fullSpace_pte (by decide)]
  decide

/-- One free frame. -/
def lastFramePmm : PmmState := ⟨fun b => if b = 3 then 0x7F else 0xFF, 32, 0⟩

/-- A directory without tables. -/
def emptySpace (pmm : PmmState) : Paging where
  pmm := pmm
  frames := fun f i => if f = 1024 * 4096 ∧ i = 1023 then 1024 * 4096 ||| presentReadWriteUser else 0
  dir := 1024 * 4096

/-- The look-up of an address that is not mapped takes the free frame for a page table, and then dereferences
`NULL`. -/
theorem lookup_allocates : ∃ s', pageGetPhysAddr (emptySpace lastFramePmm) 0x400123 = some (none, s') ∧
    Present (s'.pdEntry 1) ∧ ¬ Present ((emptySpace lastFramePmm).pdEntry 1) ∧ getBit s'.pmm.memBitmap 31 = true ∧
    getBit lastFramePmm.memBitmap 31 = false ∧ ¬ Translates (emptySpace lastFramePmm) 0x400123 := by
  have heval : (pageGetPhysAddr (emptySpace lastFramePmm) 0x400123).map
    (fun r => (r.1, r.2.pdEntry 1, getBit r.2.pmm.memBitmap 31)) =
      some (none, 31 * 4096 ||| presentReadWriteUser, true) := by decide +kernel
  obtain ⟨⟨r, s'⟩, hr, hv⟩ := Option.map_eq_some_iff.mp heval
  simp only [Prod.mk.injEq] at hv
  obtain ⟨rfl, hentry, hbit⟩ := hv
  refine ⟨s', hr, ?_, by decide, hbit, by decide, ?_⟩
  · rw [hentry]
    exact present_or_flags _
  · rintro ⟨r, s'', hr', -⟩
    rw [hr] at hr'
    cases hr'

end BulbOS.Page
