import BulbOS.Page.Tables

/-!
# Identity mapping

`page_identity_map` cuts its range where 4 MiB from the start of the first page are over, not where a table
ends. A piece that is cut ends at the index in the next table that it starts at, so only one entry of it is
written; the last piece is written up to the index of its end.

* `pageIdentityMap_rule`: the invariant rule of the loop;
* `pageIdentityMap_returns`: it ends, if `pmm_alloc` does;
* **`mapsRange_iff`**: the range is mapped when it ends in the table it starts in, and the start has an offset
  that the flags hide.
-/

namespace BulbOS.Page

open KLib Pmm

variable {s s₁ s' : Paging} {d a addr size page fuel E : ℕ}

/-! ## The loop -/

/-- `max_size`. -/
def maxSize (a : ℕ) : ℕ := pageMemory - a % 4096

theorem maxSize_eq (a : ℕ) : maxSize a = 2 ^ 22 - a % 4096 := rfl

/-- Where a piece starts: at the start of the range, or at the same index of a later table. -/
structure PieceAt (addr a : ℕ) : Prop where
  le : addr ≤ a
  index : a / 4096 % 1024 = addr / 4096 % 1024
  offset : a = addr ∨ a % 4096 = 0 ∧ addr / 2 ^ 22 < a / 2 ^ 22

theorem PieceAt.next (h : PieceAt addr a) : PieceAt addr (a + maxSize a) := by
  obtain ⟨hle, hindex, hoffset⟩ := h
  rw [maxSize_eq]
  exact ⟨by omega, by omega, .inr (by omega)⟩

theorem u32_piece {n : ℕ} (hE : E < 2 ^ 32) (hn : a + n ≤ E) :
    u32 (a + n) = a + n ∧ sub32 (E - a) n = E - (a + n) := by
  refine ⟨u32_of_lt (by omega), ?_⟩
  rw [sub32_of_le (by omega) (by omega), Nat.sub_sub]

theorem pageIdentityLoop_succ (hE : E < 2 ^ 32) (hlt : a < E)
    (hget : pageGetPt s a .pageAlloc = some (some d, s₁)) :
    pageIdentityLoop E (fuel + 1) s a (E - a) =
      if a + maxSize a < E then
        (pageIdentityPte s₁ (recursiveIndex d) (·.window d) a (maxSize a)).bind fun s =>
          pageIdentityLoop E fuel s (a + maxSize a) (E - (a + maxSize a))
      else (pageIdentityPte s₁ (recursiveIndex d) (·.window d) a (E - a)).bind fun s =>
        pageIdentityLoop E fuel s E 0 := by
  have hmax : pageMemory - (a &&& 0xFFF) = maxSize a := by rw [pageOffset_eq, maxSize]
  rw [pageIdentityLoop, if_pos hlt, hget]
  simp only [Option.bind_eq_bind, Option.bind_some, hmax]
  by_cases hcut : a + maxSize a < E
  · obtain ⟨hu, hsub⟩ := u32_piece hE hcut.le
    rw [if_pos hcut, if_pos (by omega), hu, hsub]
  · obtain ⟨hu, hsub⟩ := u32_piece hE (show a + (E - a) ≤ E by omega)
    rw [if_neg hcut, if_neg (by omega), hu, hsub, Nat.add_sub_cancel' hlt.le, Nat.sub_self]

theorem pageIdentityLoop_end (h : pageIdentityLoop E fuel s E size = some s') : s' = s := by
  cases fuel with
  | zero => cases h
  | succ fuel =>
    rw [pageIdentityLoop, if_neg (Nat.lt_irrefl E)] at h
    exact (Option.some.inj h).symm

theorem pageIdentityPte_cut (h : TablesOk s) (hp : Present (s.pdEntry (a / 2 ^ 22))) (hlt : a + maxSize a < 2 ^ 32) :
    pageIdentityPte s (recursiveIndex (a / 2 ^ 22)) (·.window (a / 2 ^ 22)) a (maxSize a) =
      some (s.fill (s.base (a / 2 ^ 22)) (a / 4096 % 1024) 1 a) := by
  rw [maxSize_eq] at hlt ⊢
  rw [pageIdentityPte_eq h (by omega) hp, u32_of_lt hlt, pageGetPtIndex_eq, pageGetPtIndex_eq, if_neg (by omega)]
  congr 2
  omega

theorem pageIdentityPte_last (h : TablesOk s) (hp : Present (s.pdEntry (a / 2 ^ 22))) (hlt : a < E) (hE : E < 2 ^ 32) :
    pageIdentityPte s (recursiveIndex (a / 2 ^ 22)) (·.window (a / 2 ^ 22)) a (E - a) =
      if a / 2 ^ 22 = 1023 ∧ E / 4096 % 1024 = 1023 then none
      else some (s.fill (s.base (a / 2 ^ 22)) (a / 4096 % 1024) (E / 4096 % 1024 + 1 - a / 4096 % 1024) a) := by
  rw [pageIdentityPte_eq h (by omega) hp, Nat.add_sub_cancel' hlt.le, u32_of_lt hE, pageGetPtIndex_eq,
    pageGetPtIndex_eq]

/-- **The invariant rule of the loop.** -/
theorem pageIdentityMap_rule {P : ℕ → Paging → Prop} {Q : Paging → Prop} (hsize : 0 < size) (hE : addr + size < 2 ^ 32)
    (hok : ∀ a s, P a s → TablesOk s) (hstart : P addr s)
    (hcut : ∀ a s s₁, PieceAt addr a → a + maxSize a < addr + size → P a s → Gets s (a / 2 ^ 22) s₁ →
      P (a + maxSize a) (s₁.fill (s₁.base (a / 2 ^ 22)) (addr / 4096 % 1024) 1 a))
    (hlast : ∀ a s s₁, PieceAt addr a → a < addr + size → addr + size ≤ a + maxSize a → P a s → Gets s (a / 2 ^ 22) s₁ →
      ¬ (a / 2 ^ 22 = 1023 ∧ (addr + size) / 4096 % 1024 = 1023) →
      Q (s₁.fill (s₁.base (a / 2 ^ 22)) (addr / 4096 % 1024) ((addr + size) / 4096 % 1024 + 1 - addr / 4096 % 1024) a))
    (h : pageIdentityMap s addr size = some s') : Q s' := by
  have hloop : ∀ fuel a s, PieceAt addr a → a < addr + size → P a s →
      pageIdentityLoop (addr + size) fuel s a (addr + size - a) = some s' → Q s' := by
    intro fuel
    induction fuel with
    | zero => exact fun a s _ _ _ h => nomatch h
    | succ fuel ih =>
      intro a s ha hlt hP h
      cases hget : pageGetPt s a .pageAlloc with
      | none =>
        rw [pageIdentityLoop, if_pos hlt, hget] at h
        cases h
      | some r =>
        obtain ⟨r, s₁⟩ := r
        obtain ⟨rfl, hg⟩ := pageGetPt_spec (hok a s hP) hget
        have hok₁ := hg.ok (hok a s hP)
        have hp := hg.isPresent (hok a s hP)
        rw [pageIdentityLoop_succ hE hlt hget] at h
        by_cases hc : a + maxSize a < addr + size
        · rw [if_pos hc, pageIdentityPte_cut hok₁ hp (by omega), ha.index, Option.bind_some] at h
          exact ih _ _ ha.next hc (hcut a s s₁ ha hc hP hg) h
        · rw [if_neg hc, pageIdentityPte_last hok₁ hp hlt hE, ha.index] at h
          by_cases hwrap : a / 2 ^ 22 = 1023 ∧ (addr + size) / 4096 % 1024 = 1023
          · rw [if_pos hwrap] at h
            cases h
          · rw [if_neg hwrap, Option.bind_some] at h
            rw [pageIdentityLoop_end h]
            exact hlast a s s₁ ha hlt (by omega) hP hg hwrap
  rw [pageIdentityMap, u32_of_lt hE] at h
  refine hloop 1026 addr s ⟨le_rfl, rfl, .inl rfl⟩ (by omega) hstart ?_
  rwa [Nat.add_sub_cancel_left]

/-- The range reaches the last entry of the directory only where it ends before the last page. -/
def EndsBeforeLast (addr size : ℕ) : Prop :=
  0xFFC00000 + addr / 4096 % 1024 * 4096 < addr + size → addr + size < 0xFFFFF000

/-- **The loop ends.** -/
theorem pageIdentityMap_returns (hok : TablesOk s) (hE : addr + size < 2 ^ 32) (hends : EndsBeforeLast addr size)
    (h : ¬ Stuck s.pmm) : ∃ s', pageIdentityMap s addr size = some s' := by
  have hloop : ∀ n a s, PieceAt addr a → TablesOk s → a ≤ addr + size → addr + size + a % 4096 ≤ a + n * 2 ^ 22 →
      ¬ Stuck s.pmm → ∃ s', pageIdentityLoop (addr + size) (n + 1) s a (addr + size - a) = some s' := by
    intro n
    induction n with
    | zero =>
      intro a s _ _ hle hn _
      rw [pageIdentityLoop, if_neg (by omega)]
      exact ⟨s, rfl⟩
    | succ n ih =>
      intro a s ha hok hle hn hs
      by_cases hlt : a < addr + size
      · obtain ⟨d, s₁, hget, hs₁⟩ := pageGetPt_returns hs a
        obtain ⟨hd, hg⟩ := pageGetPt_spec hok hget
        cases hd
        have hok₁ := hg.ok hok
        have hp := hg.isPresent hok
        rw [pageIdentityLoop_succ hE hlt hget]
        by_cases hc : a + maxSize a < addr + size
        · rw [if_pos hc, pageIdentityPte_cut hok₁ hp (by omega), Option.bind_some]
          have hnext := ha.next
          rw [maxSize_eq] at hc hnext ⊢
          exact ih _ _ hnext (hok₁.fill (by omega) hp _ _ _) (by omega) (by omega) hs₁
        · have hwrap : ¬ (a / 2 ^ 22 = 1023 ∧ (addr + size) / 4096 % 1024 = 1023) := by
            have hindex := ha.index
            unfold EndsBeforeLast at hends
            omega
          rw [if_neg hc, pageIdentityPte_last hok₁ hp hlt hE, if_neg hwrap, Option.bind_some, pageIdentityLoop,
            if_neg (Nat.lt_irrefl _)]
          exact ⟨_, rfl⟩
      · rw [pageIdentityLoop, if_neg hlt]
        exact ⟨s, rfl⟩
  rw [pageIdentityMap, u32_of_lt hE]
  have := hloop 1025 addr s ⟨le_rfl, rfl, .inl rfl⟩ hok (by omega) (by omega) h
  rwa [Nat.add_sub_cancel_left] at this

/-! ## The range -/

/-- The tables between two calls, while no table has ended up in frame 0. -/
structure Ok (s : Paging) : Prop extends TablesOk s where
  base_ne : ∀ d < 1024, Present (s.pdEntry d) → s.base d ≠ 0

/-- The page has a byte of the range. -/
def Meets (addr size page : ℕ) : Prop := page * 4096 < addr + size ∧ addr < (page + 1) * 4096

/-- Every page of the range gets the entry of an identity mapping, in every directory. -/
def MapsRange (addr size : ℕ) : Prop := ∀ s, Ok s → ¬ Stuck s.pmm → ∃ s', pageIdentityMap s addr size = some s' ∧
  ∀ page, Meets addr size page → pte s' page = page * 4096 ||| presentReadWriteUser

/-- A range in one table, with an offset that the flags hide, is mapped. -/
theorem mapsRange_of_one_table (hsize : 0 < size) (hend : addr + size ≤ 0xFFC00000)
    (htable : addr / 2 ^ 22 = (addr + size) / 2 ^ 22) (hoffset : addr % 4096 < 8) : MapsRange addr size := by
  intro s hs hstuck
  have hE : addr + size < 0xFFFFF000 := by omega
  obtain ⟨s', hs'⟩ := pageIdentityMap_returns hs.toTablesOk (show addr + size < 2 ^ 32 by omega) (fun _ => hE) hstuck
  refine ⟨s', hs', fun page ⟨hlow, hhigh⟩ => ?_⟩
  refine pageIdentityMap_rule (P := fun a s => TablesOk s ∧ a = addr)
    (Q := fun s' => pte s' page = page * 4096 ||| presentReadWriteUser) hsize (by omega) (fun a s h => h.1)
    ⟨hs.toTablesOk, rfl⟩ ?_ ?_ hs'
  · rintro a s s₁ - hcut ⟨-, rfl⟩ -
    rw [maxSize_eq] at hcut
    omega
  · rintro a s s₁ - - - ⟨hok, rfl⟩ hg -
    have hpage : page / 1024 = a / 2 ^ 22 := by omega
    have hvalue : a + 4096 * (page % 1024 - a / 4096 % 1024) = page * 4096 + a % 4096 := by omega
    have hle : page * 4096 + 4096 ≤ 2 ^ 32 := by omega
    have hlt : page * 4096 + a % 4096 < 2 ^ 32 := (Nat.add_lt_add_left (Nat.mod_lt a (by decide)) _).trans_le hle
    rw [pte_fill (hg.ok hok) (by omega) (hg.isPresent hok), hpage, if_pos ⟨hg.isPresent hok, rfl, by omega, by omega⟩,
      pageFrameSize, hvalue, u32_of_lt hlt, or_flags, or_flags]
    omega

/-! ## A range that is not mapped -/

/-- A bitmap without a free page, with zeros behind it. -/
def fullPmm (lastAlloc : ℕ) : PmmState := ⟨fun b => if b < 4 then 0xFF else 0, 32, lastAlloc⟩

/-- All tables are present, and all their entries are 1. -/
def fullSpace : Paging where
  pmm := fullPmm 0
  frames := fun f i =>
    if f = 1024 * 4096 then (i + 1) * 4096 ||| presentReadWriteUser else if f < 1024 * 4096 then 1 else 0
  dir := 1024 * 4096

theorem fullPmm_bits (last : ℕ) : ∀ i < 32, getBit (fullPmm last).memBitmap i = true := by
  change ∀ i < 32, getBit (fun b => if b < 4 then 0xFF else 0) i = true
  decide

theorem fullPmm_null {last : ℕ} (hlast : last = 0 ∨ last = bit32Max) :
    ∃ reads, pmmAlloc (fullPmm last) = some (0, fullPmm bit32Max, reads) := by
  have heval : (pmmAlloc (fullPmm last)).map (fun r => (r.1, r.2.1.lastAlloc)) = some (0, bit32Max) := by
    rcases hlast with rfl | rfl <;> decide +kernel
  obtain ⟨⟨ptr, p', reads⟩, halloc, hv⟩ := Option.map_eq_some_iff.mp heval
  simp only [Prod.mk.injEq] at hv
  obtain ⟨rfl, hmax⟩ := hv
  have hlast' : LastOk (fullPmm last) := by
    rcases hlast with rfl | rfl
    · exact .inl (by decide)
    · exact .inr rfl
  have hle : (fullPmm last).numOfPages ≤ 2 ^ 20 := show 32 ≤ 2 ^ 20 by decide
  obtain ⟨hpages, -, ⟨-, hbits⟩ | ⟨i, hi, -, hclear, -⟩⟩ := pmmAlloc_spec hle hlast' halloc
  · refine ⟨reads, halloc.trans ?_⟩
    obtain ⟨m, n, l⟩ := p'
    dsimp only at hmax hpages hbits
    rw [hmax, hpages, hbits]
    rfl
  · rw [fullPmm_bits last i hi] at hclear
    cases hclear

theorem fullPmm_not_stuck : ¬ Stuck (fullPmm 0) := by
  have hall : ∀ p, Stuck p → ∀ last, last = 0 ∨ last = bit32Max → p ≠ fullPmm last := by
    intro p hp
    induction hp with
    | now h =>
      rintro last hlast rfl
      obtain ⟨reads, halloc⟩ := fullPmm_null hlast
      rw [h] at halloc
      cases halloc
    | later h hs ih =>
      rintro last hlast rfl
      obtain ⟨reads, halloc⟩ := fullPmm_null hlast
      cases h.symm.trans halloc
      exact ih bit32Max (.inr rfl) rfl
  exact fun h => hall _ h 0 (.inl rfl) rfl

theorem fullSpace_dir (i : ℕ) : fullSpace.frames (1024 * 4096) i = (i + 1) * 4096 ||| presentReadWriteUser := by
  unfold fullSpace
  dsimp only
  rw [if_pos rfl]

theorem fullSpace_pdEntry (e : ℕ) : fullSpace.pdEntry e = (e + 1) * 4096 ||| presentReadWriteUser := fullSpace_dir e

theorem fullSpace_base (e : ℕ) : fullSpace.base e = (e + 1) * 4096 := by
  rw [Paging.base, fullSpace_pdEntry, entryBase_or_flags]
  exact congrArg (· * 4096) (Nat.mul_div_cancel (e + 1) (by decide))

theorem fullSpace_present (e : ℕ) : Present (fullSpace.pdEntry e) := by
  rw [fullSpace_pdEntry]
  exact present_or_flags _

theorem fullSpace_ok : Ok fullSpace := by
  refine ⟨⟨fullSpace_present 1023, fullSpace_base 1023, by decide, by decide, .inl (by decide), fun d _ _ _ hlt => ?_,
    fun d _ e _ _ _ heq => ?_⟩, fun d _ _ => ?_⟩
  · exact fullPmm_bits 0 _ hlt
  · rw [fullSpace_base, fullSpace_base] at heq
    omega
  · rw [fullSpace_base]
    omega

theorem fullSpace_pte (hpage : page < 1023 * 1024) : pte fullSpace page = 1 := by
  rw [pte, if_pos (fullSpace_present _), fullSpace_base]
  unfold fullSpace
  dsimp only
  rw [if_neg (by omega), if_pos (by omega)]

/-- All tables are where they were, and the frames behind the directory are as they were. -/
structure Unmoved (s : Paging) : Prop where
  ok : TablesOk s
  dir : s.dir = 1024 * 4096
  behind : ∀ f, 1024 * 4096 ≤ f → s.frames f = fullSpace.frames f

theorem unmoved_fullSpace : Unmoved fullSpace := ⟨fullSpace_ok.toTablesOk, rfl, fun _ _ => rfl⟩

theorem Unmoved.pdEntry (h : Unmoved s) (e : ℕ) : s.pdEntry e = fullSpace.pdEntry e := by
  rw [Paging.pdEntry, h.dir, h.behind _ le_rfl]
  rfl

theorem Unmoved.base (h : Unmoved s) (e : ℕ) : s.base e = (e + 1) * 4096 := by
  rw [Paging.base, h.pdEntry]
  exact fullSpace_base e

theorem Unmoved.present (h : Unmoved s) (e : ℕ) : Present (s.pdEntry e) := by
  rw [h.pdEntry]
  exact fullSpace_present e

theorem Unmoved.eq_of_gets (h : Unmoved s) (hg : Gets s d s₁) : s₁ = s := by
  cases hg with
  | present => rfl
  | absent hp => exact absurd (h.present d) hp

theorem Unmoved.fill (h : Unmoved s) (hd : d < 1023) (i n addr : ℕ) : Unmoved (s.fill (s.base d) i n addr) := by
  refine ⟨h.ok.fill hd (h.present d) i n addr, h.dir, fun f hf => ?_⟩
  have hbase := h.base d
  rw [← h.behind f hf]
  funext j
  exact if_neg fun hc => by omega

theorem Unmoved.pte_fill (h : Unmoved s) (hd : d < 1023) (i n addr page : ℕ) : pte (s.fill (s.base d) i n addr) page =
    if page / 1024 = d ∧ i ≤ page % 1024 ∧ page % 1024 < i + n
    then u32 (addr + pageFrameSize * (page % 1024 - i)) ||| presentReadWriteUser else pte s page := by
  rw [Page.pte_fill h.ok hd (h.present d)]
  refine if_congr ?_ rfl rfl
  rw [h.base, h.base]
  have hp := h.present (page / 1024)
  constructor
  · rintro ⟨-, hbase, hin⟩
    exact ⟨by omega, hin⟩
  · rintro ⟨hbase, hin⟩
    exact ⟨hp, by rw [hbase], hin⟩

/-- **The rule for these tables**: up to the last piece, none of them is moved. -/
theorem fullSpace_rule {P : ℕ → Paging → Prop} {Q : Paging → Prop} (hsize : 0 < size) (hE : addr + size < 2 ^ 32)
    (hstart : P addr fullSpace)
    (hcut : ∀ a s, PieceAt addr a → a + maxSize a < addr + size → Unmoved s → P a s →
      P (a + maxSize a) (s.fill (s.base (a / 2 ^ 22)) (addr / 4096 % 1024) 1 a))
    (hlast : ∀ a s, PieceAt addr a → a < addr + size → addr + size ≤ a + maxSize a → Unmoved s → P a s →
      ¬ (a / 2 ^ 22 = 1023 ∧ (addr + size) / 4096 % 1024 = 1023) →
      Q (s.fill (s.base (a / 2 ^ 22)) (addr / 4096 % 1024) ((addr + size) / 4096 % 1024 + 1 - addr / 4096 % 1024) a))
    (h : pageIdentityMap fullSpace addr size = some s') : Q s' := by
  refine pageIdentityMap_rule (P := fun a s => Unmoved s ∧ P a s) hsize hE (fun a s h => h.1.ok)
    ⟨unmoved_fullSpace, hstart⟩ ?_ ?_ h
  · rintro a s s₁ ha hc ⟨hun, hP⟩ hg
    rw [hun.eq_of_gets hg]
    have hd : a / 2 ^ 22 < 1023 := by
      rw [maxSize_eq] at hc
      omega
    exact ⟨hun.fill hd _ _ _, hcut a s ha hc hun hP⟩
  · rintro a s s₁ ha hlt hle ⟨hun, hP⟩ hg hwrap
    rw [hun.eq_of_gets hg]
    exact hlast a s ha hlt hle hun hP hwrap

/-- A page at another index than the start of the range, in a table before that of its end or at a lower index. -/
theorem fullSpace_pte_other (hsize : 0 < size) (hend : addr + size ≤ 0xFFC00000)
    (hpage : page / 1024 < 1023) (hindex : page % 1024 ≠ addr / 4096 % 1024)
    (hbefore : page / 1024 < (addr + size) / 2 ^ 22 ∨ page % 1024 < addr / 4096 % 1024)
    (h : pageIdentityMap fullSpace addr size = some s') : pte s' page = 1 := by
  refine fullSpace_rule (P := fun _ s => pte s page = 1) (Q := fun s' => pte s' page = 1) hsize (by omega)
    (fullSpace_pte (by omega)) ?_ ?_ h
  · intro a s _ hc hun hP
    rw [maxSize_eq] at hc
    rw [hun.pte_fill (by omega), if_neg (by omega)]
    exact hP
  · intro a s ha hlt hle hun hP _
    have hi := ha.index
    rw [maxSize_eq] at hle
    rw [hun.pte_fill (by omega), if_neg (by omega)]
    exact hP

/-- The first page keeps its entry or gets that of the first piece, with the offset of the start. -/
theorem fullSpace_pte_first (hsize : 0 < size) (hend : addr + size ≤ 0xFFC00000)
    (h : pageIdentityMap fullSpace addr size = some s') :
    pte s' (addr / 4096) = 1 ∨ pte s' (addr / 4096) = addr ||| presentReadWriteUser := by
  refine fullSpace_rule (P := fun a s => pte s (addr / 4096) = 1 ∨ pte s (addr / 4096) = addr ||| presentReadWriteUser)
    (Q := fun s' => pte s' (addr / 4096) = 1 ∨ pte s' (addr / 4096) = addr ||| presentReadWriteUser) hsize (by omega)
    (.inl (fullSpace_pte (by omega))) ?_ ?_ h
  · intro a s ha hc hun hP
    rw [maxSize_eq] at hc
    rw [hun.pte_fill (by omega)]
    by_cases htable : addr / 4096 / 1024 = a / 2 ^ 22
    · obtain rfl : a = addr := ha.offset.resolve_right (by omega)
      rw [if_pos (by omega), Nat.sub_self, Nat.mul_zero, Nat.add_zero, u32_of_lt (by omega)]
      exact .inr rfl
    · rw [if_neg (fun hc => htable hc.1)]
      exact hP
  · intro a s ha hlt hle hun hP _
    rw [hun.pte_fill (by omega)]
    by_cases htable : addr / 4096 / 1024 = a / 2 ^ 22 ∧
        addr / 4096 % 1024 < addr / 4096 % 1024 + ((addr + size) / 4096 % 1024 + 1 - addr / 4096 % 1024)
    · obtain rfl : a = addr := ha.offset.resolve_right (by omega)
      rw [if_pos ⟨htable.1, le_rfl, htable.2⟩, Nat.sub_self, Nat.mul_zero, Nat.add_zero, u32_of_lt (by omega)]
      exact .inr rfl
    · rw [if_neg (fun hc => htable ⟨hc.1, hc.2.2⟩)]
      exact hP

/-- A range that is the end of the last page of a table is not mapped at all. -/
theorem fullSpace_pte_end (hsize : 0 < size) (hend : addr + size ≤ 0xFFC00000) (hpage : size ≤ 4096)
    (hedge : (addr + size) % 2 ^ 22 = 0) (h : pageIdentityMap fullSpace addr size = some s') :
    pte s' (addr / 4096) = 1 := by
  refine fullSpace_rule (P := fun a s => a = addr ∧ pte s (addr / 4096) = 1) (Q := fun s' => pte s' (addr / 4096) = 1)
    hsize (by omega) ⟨rfl, fullSpace_pte (by omega)⟩ ?_ ?_ h
  · rintro a s ha hc hun ⟨rfl, -⟩
    rw [maxSize_eq] at hc
    omega
  · rintro a s ha hlt hle hun ⟨rfl, hP⟩ -
    rw [hun.pte_fill (by omega), if_neg (by omega)]
    exact hP

/-- **Identity mapping covers its range** only when it ends in the table it starts in, and the offset of its
start is below the bits of the flags. -/
theorem mapsRange_iff (hsize : 0 < size) (hend : addr + size ≤ 0xFFC00000) :
    MapsRange addr size ↔ addr / 2 ^ 22 = (addr + size) / 2 ^ 22 ∧ addr % 4096 < 8 := by
  refine ⟨fun hmaps => ?_, fun h => mapsRange_of_one_table hsize hend h.1 h.2⟩
  obtain ⟨s', hs', hpte⟩ := hmaps fullSpace fullSpace_ok fullPmm_not_stuck
  have hmapped : ∀ page, Meets addr size page → pte s' page ≠ 1 := fun page hm heq => by
    have := hpte page hm
    rw [or_flags] at this
    omega
  have hfirst : Meets addr size (addr / 4096) := ⟨by omega, by omega⟩
  refine ⟨?_, ?_⟩
  · by_contra hne
    by_cases hindex : addr / 4096 % 1024 = 1023
    · by_cases hedge : (addr + size) % 2 ^ 22 = 0 ∧ size ≤ 4096
      · exact hmapped _ hfirst (fullSpace_pte_end hsize hend hedge.2 hedge.1 hs')
      · -- the first page of the next table
        refine hmapped ((addr / 2 ^ 22 + 1) * 1024) ⟨by omega, by omega⟩ ?_
        exact fullSpace_pte_other hsize hend (by omega) (by omega) (.inr (by omega)) hs'
    · -- the last page of the first table
      refine hmapped (addr / 2 ^ 22 * 1024 + 1023) ⟨by omega, by omega⟩ ?_
      exact fullSpace_pte_other hsize hend (by omega) (by omega) (.inl (by omega)) hs'
  · have heq := hpte _ hfirst
    rcases fullSpace_pte_first hsize hend hs' with h | h
    · exact absurd h (hmapped _ hfirst)
    · rw [h, or_flags, or_flags] at heq
      omega

/-- The registers of the local APIC. -/
theorem mapsRange_iff_lapic : MapsRange 0xFEE00000 0x400 :=
  (mapsRange_iff (by decide) (by decide)).mpr ⟨by decide, by decide⟩

/-- One whole table: only its first page is mapped. -/
theorem one_table_not_mapped : ¬ MapsRange 0x400000 0x400000 := by
  intro hmaps
  obtain ⟨s', hs', hpte⟩ := hmaps fullSpace fullSpace_ok fullPmm_not_stuck
  have hmapped := hpte 1025 ⟨by decide, by decide⟩
  rw [fullSpace_pte_other (by decide) (by decide) (by decide) (by decide) (.inl (by decide)) hs'] at hmapped
  exact absurd hmapped (by decide)

end BulbOS.Page
