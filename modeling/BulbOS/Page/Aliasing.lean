import BulbOS.Page.Frames
import Mathlib.Data.Finset.Card

/-!
# Pages do not share frames

The calls of the last module, and `page_identity_map` for devices behind the memory that `pmm_alloc` hands out. At the
start the kernel's own pages are there, in frames that are not free.

* `Apart`: a page whose entry has changed since the start shares its frame with no other page and no page table;
* `Apart.addTable`, `Apart.putPage`, `Apart.identity`: a new table, a new page, and pages that lead to themselves keep
  it;
* `tablesNeeded`: how often `page_identity_map` calls `pmm_alloc`; `Apart.identityMap`: its loop;
* **`pages_apart`**: every run.
-/

namespace BulbOS.Page

open KLib Pmm

variable {s₀ s s₁ s' : Paging} {p p' : PmmState} {d e n i ptr addr size page q r a : ℕ}

/-- The pages below the windows of the tables. -/
def windowStart : ℕ := 1023 * 1024

/-- The frame that a page leads to. -/
def frameOf (s : Paging) (page : ℕ) : ℕ := entryBase (pte s page)

/-- The pages and the tables of the kernel are in frames of the memory that are not free. -/
structure Start (s : Paging) : Prop extends Ok s where
  frames : ∀ q < windowStart, Present (pte s q) → frameOf s q / 4096 < s.pmm.numOfPages ∧
    getBit s.pmm.memBitmap (frameOf s q / 4096) = true
  tables : ∀ d < 1024, Present (s.pdEntry d) → s.base d / 4096 < s.pmm.numOfPages

/-- The page has been mapped since the start, or mapped anew. -/
def Changed (s₀ s : Paging) (q : ℕ) : Prop := pte s q ≠ pte s₀ q

/-- A frame of the memory is not free; the pages behind the memory lead to themselves. -/
def Settled (s : Paging) (q : ℕ) : Prop :=
  frameOf s q / 4096 < s.pmm.numOfPages ∧ getBit s.pmm.memBitmap (frameOf s q / 4096) = true ∨
    frameOf s q = q * 4096 ∧ s.pmm.numOfPages ≤ q

structure Apart (s₀ s : Paging) : Prop where
  ok : Ok s
  tables : ∀ d < 1024, Present (s.pdEntry d) → s.base d / 4096 < s.pmm.numOfPages
  settled : ∀ q < windowStart, Present (pte s q) → Settled s q
  alone : ∀ q < windowStart, ∀ r < windowStart, q ≠ r → Present (pte s q) → Present (pte s r) → Changed s₀ s q →
    frameOf s q ≠ frameOf s r
  clear : ∀ q < windowStart, Present (pte s q) → Changed s₀ s q → ∀ d < 1024, Present (s.pdEntry d) →
    s.base d ≠ frameOf s q

theorem Start.apart (h : Start s) : Apart s s :=
  ⟨h.toOk, h.tables, fun q hq hp => .inl (h.frames q hq hp), fun _ _ _ _ _ _ _ hc => absurd rfl hc,
    fun _ _ _ hc => absurd rfl hc⟩

/-! ## New frames -/

theorem Apart.frame_ne_new (h : Apart s₀ s) (ha : Allocated s.pmm ptr p') (hptr : ptr ≠ 0) (hq : q < windowStart)
    (hp : Present (pte s q)) : frameOf s q ≠ ptr := by
  rintro rfl
  rcases h.settled q hq hp with ⟨-, hbit⟩ | ⟨hself, hle⟩
  · rw [ha.fresh hptr] at hbit
    cases hbit
  · have hlt := ha.inside hptr
    rw [hself, Nat.mul_div_cancel q (by decide)] at hlt
    omega

theorem Settled.of_allocated (h : Settled s q) (ha : Allocated s.pmm ptr s'.pmm) (hsame : pte s' q = pte s q) :
    Settled s' q := by
  unfold Settled frameOf at *
  rw [hsame, ha.pages]
  exact h.imp (fun hc => ⟨hc.1, ha.keep _ hc.2⟩) id

/-- **A new table.** -/
theorem Apart.addTable (h : Apart s₀ s) (ha : Allocated s.pmm ptr p') (hptr : ptr ≠ 0) (hd : ¬ Present (s.pdEntry d)) :
    Apart s₀ (s.addTable p' d ptr) := by
  have hdir := h.ok.dir_ne_new ha
  have hd' : d ≠ 1023 := fun e => hd (e ▸ h.ok.slot)
  have hsame : ∀ q < windowStart, pte (s.addTable p' d ptr) q = pte s q := fun q hq => by
    unfold windowStart at hq
    refine (pte_addTable h.ok.toTablesOk ha hd (by omega) fun hslot => ?_).resolve_right fun hc => hptr hc.1
    unfold slotPage at hslot
    omega
  have hframe : ∀ q < windowStart, frameOf (s.addTable p' d ptr) q = frameOf s q :=
    fun q hq => congrArg entryBase (hsame q hq)
  refine ⟨h.ok.addTable ha hptr hd, fun e he hp => ?_, fun q hq hp => ?_, fun q hq r hr hne hpq hpr hc => ?_,
    fun q hq hp hc e he hpe => ?_⟩
  · rw [base_addTable hdir ha.aligned]
    rw [present_addTable hdir] at hp
    change _ < p'.numOfPages
    rw [ha.pages]
    by_cases hed : e = d
    · rw [if_pos hed]
      exact ha.inside hptr
    · rw [if_neg hed]
      exact h.tables e he (hp.resolve_left hed)
  · rw [hsame q hq] at hp
    exact (h.settled q hq hp).of_allocated ha (hsame q hq)
  · rw [hframe q hq, hframe r hr]
    rw [hsame q hq] at hpq
    rw [hsame r hr] at hpr
    rw [Changed, hsame q hq] at hc
    exact h.alone q hq r hr hne hpq hpr hc
  · rw [hsame q hq] at hp
    rw [Changed, hsame q hq] at hc
    rw [base_addTable hdir ha.aligned, hframe q hq]
    rw [present_addTable hdir] at hpe
    by_cases hed : e = d
    · rw [if_pos hed]
      exact (h.frame_ne_new ha hptr hq hp).symm
    · rw [if_neg hed]
      exact h.clear q hq hp hc e he (hpe.resolve_left hed)

theorem pdEntry_putPage_below (h : TablesOk s) (hpage : page < windowStart) (hp : Present (s.pdEntry (page / 1024)))
    (hnew : ¬ Present (pte s page)) (p' : PmmState) (ptr e : ℕ) : (s.putPage p' page ptr).pdEntry e = s.pdEntry e := by
  unfold windowStart at hpage
  refine (pdEntry_putPage h (by omega) hp hnew p' ptr e).resolve_right fun hc => ?_
  omega

theorem pte_putPage_other (h : Ok s) (hpage : page < windowStart) (hp : Present (s.pdEntry (page / 1024)))
    (hnew : ¬ Present (pte s page)) (p' : PmmState) (ptr : ℕ) (hq : q < windowStart) (hne : q ≠ page) :
    pte (s.putPage p' page ptr) q = pte s q := by
  have hentry := pdEntry_putPage_below h.toTablesOk hpage hp hnew p' ptr (q / 1024)
  unfold windowStart at hpage hq
  unfold pte
  rw [Paging.base, hentry, frames_putPage]
  by_cases hpq : Present (s.pdEntry (q / 1024))
  · rw [if_pos hpq, if_pos hpq, if_neg]
    · rfl
    · rintro ⟨hbase, hindex⟩
      have htable := (h.inj _ (by omega) _ (by omega) hpq hp hbase).resolve_right (h.base_ne _ (by omega) hpq)
      omega
  · rw [if_neg hpq, if_neg hpq]

/-- **A new page.** -/
theorem Apart.putPage (h : Apart s₀ s) (ha : Allocated s.pmm ptr p') (hptr : ptr ≠ 0) (hpage : page < windowStart)
    (hp : Present (s.pdEntry (page / 1024))) (hnew : ¬ Present (pte s page)) : Apart s₀ (s.putPage p' page ptr) := by
  have hlt : page < 2 ^ 20 := by
    unfold windowStart at hpage
    omega
  have hentry := pdEntry_putPage_below h.ok.toTablesOk hpage hp hnew p' ptr
  have hbase : ∀ e, (s.putPage p' page ptr).base e = s.base e := fun e => congrArg entryBase (hentry e)
  have hself : frameOf (s.putPage p' page ptr) page = ptr := by
    rw [frameOf, pte_putPage h.ok.toTablesOk hlt hp hnew, entryBase_or_flags, ha.aligned]
  have hsame : ∀ q < windowStart, q ≠ page → pte (s.putPage p' page ptr) q = pte s q :=
    fun q hq hne => pte_putPage_other h.ok hpage hp hnew p' ptr hq hne
  have hframe : ∀ q < windowStart, q ≠ page → frameOf (s.putPage p' page ptr) q = frameOf s q :=
    fun q hq hne => congrArg entryBase (hsame q hq hne)
  have hfresh : ∀ q < windowStart, q ≠ page → Present (pte (s.putPage p' page ptr) q) →
      frameOf (s.putPage p' page ptr) q ≠ ptr := fun q hq hne hpq => by
    rw [hsame q hq hne] at hpq
    rw [hframe q hq hne]
    exact h.frame_ne_new ha hptr hq hpq
  refine ⟨h.ok.putPage ha hptr hlt hp hnew, fun e he hpe => ?_, fun q hq hpq => ?_, fun q hq r hr hne hpq hpr hc => ?_,
    fun q hq hpq hc e he hpe => ?_⟩
  · rw [hentry] at hpe
    rw [hbase]
    change _ < p'.numOfPages
    rw [ha.pages]
    exact h.tables e he hpe
  · by_cases hqp : q = page
    · refine .inl ?_
      rw [hqp, hself]
      change _ < p'.numOfPages ∧ _
      rw [ha.pages]
      exact ⟨ha.inside hptr, ha.taken hptr⟩
    · rw [hsame q hq hqp] at hpq
      exact (h.settled q hq hpq).of_allocated ha (hsame q hq hqp)
  · by_cases hqp : q = page
    · rw [hqp, hself]
      exact (hfresh r hr (fun e => hne (hqp.trans e.symm)) hpr).symm
    by_cases hrp : r = page
    · rw [hrp, hself]
      exact hfresh q hq hqp hpq
    · rw [hframe q hq hqp, hframe r hr hrp]
      rw [hsame q hq hqp] at hpq
      rw [hsame r hr hrp] at hpr
      rw [Changed, hsame q hq hqp] at hc
      exact h.alone q hq r hr hne hpq hpr hc
  · rw [hentry] at hpe
    rw [hbase]
    by_cases hqp : q = page
    · rw [hqp, hself]
      exact h.ok.base_ne_new ha hptr he hpe
    · rw [hsame q hq hqp] at hpq
      rw [Changed, hsame q hq hqp] at hc
      rw [hframe q hq hqp]
      exact h.clear q hq hpq hc e he hpe

/-! ## Pages that lead to themselves -/

/-- Whether entries `i, …, i + n - 1` of table `d` have the page's. -/
def Filled (d i n q : ℕ) : Prop := q / 1024 = d ∧ i ≤ q % 1024 ∧ q % 1024 < i + n

/-- The pages of the entries lead to themselves, and the others where they led. -/
theorem frameOf_fill (h : Ok s) (hd : d < 1023) (hp : Present (s.pdEntry d)) (ha : a / 4096 = d * 1024 + i)
    (hq : q < windowStart) : (Filled d i n q → frameOf (s.fill (s.base d) i n a) q = q * 4096) ∧
      (¬ Filled d i n q → pte (s.fill (s.base d) i n a) q = pte s q) := by
  unfold windowStart at hq
  have hpte := pte_fill h.toTablesOk hd hp i n a q
  refine ⟨fun hf => ?_, fun hf => hpte.trans (if_neg fun hc => hf ⟨?_, hc.2.2⟩)⟩
  · obtain ⟨rfl, hi, hlt⟩ := hf
    rw [frameOf, hpte, if_pos ⟨hp, rfl, hi, hlt⟩, entryBase_or_flags, entryBase, pageFrameSize, u32_of_lt (by omega)]
    omega
  · exact (h.inj _ (by omega) _ (by omega) hc.1 hp hc.2.1).resolve_right (h.base_ne _ (by omega) hc.1)

/-- **Identity mapping** in a table, behind the memory. -/
theorem Apart.identity (h : Apart s₀ s) (hd : d < 1023) (hp : Present (s.pdEntry d)) (ha : a / 4096 = d * 1024 + i)
    (hle : s.pmm.numOfPages ≤ a / 4096) : Apart s₀ (s.fill (s.base d) i n a) := by
  have hentry := pdEntry_fill h.ok.toTablesOk hd hp i n a
  have hbase : ∀ e, (s.fill (s.base d) i n a).base e = s.base e := fun e => congrArg entryBase (hentry e)
  have hown : ∀ q, Filled d i n q → s.pmm.numOfPages ≤ q := fun q hq => by
    obtain ⟨hqd, hi, -⟩ := hq
    omega
  have hfill := fun q hq => frameOf_fill (n := n) h.ok hd hp ha (q := q) hq
  have hframe : ∀ q < windowStart, ¬ Filled d i n q → frameOf (s.fill (s.base d) i n a) q = frameOf s q :=
    fun q hq hf => congrArg entryBase ((hfill q hq).2 hf)
  -- the frame of a page behind the memory is no other page's
  have hapart : ∀ q < windowStart, Filled d i n q → ∀ r < windowStart, q ≠ r →
    Present (pte (s.fill (s.base d) i n a) r) →
      frameOf (s.fill (s.base d) i n a) r ≠ q * 4096 := fun q hq hf r hr hne hpr heq => by
    by_cases hfr : Filled d i n r
    · rw [(hfill r hr).1 hfr] at heq
      omega
    · rw [(hfill r hr).2 hfr] at hpr
      rw [hframe r hr hfr] at heq
      have hq := hown q hf
      rcases h.settled r hr hpr with ⟨hlt, -⟩ | ⟨hself, -⟩
      · rw [heq, Nat.mul_div_cancel q (by decide)] at hlt
        omega
      · rw [hself] at heq
        omega
  refine ⟨⟨h.ok.toTablesOk.fill hd hp i n a, fun e he hpe => ?_⟩, fun e he hpe => ?_, fun q hq hpq => ?_,
    fun q hq r hr hne hpq hpr hc => ?_, fun q hq hpq hc e he hpe => ?_⟩
  · rw [hentry] at hpe
    rw [hbase]
    exact h.ok.base_ne e he hpe
  · rw [hentry] at hpe
    rw [hbase]
    exact h.tables e he hpe
  · by_cases hf : Filled d i n q
    · exact .inr ⟨(hfill q hq).1 hf, hown q hf⟩
    · have hsame := (hfill q hq).2 hf
      rw [hsame] at hpq
      have hset := h.settled q hq hpq
      unfold Settled frameOf at hset ⊢
      rwa [hsame]
  · by_cases hf : Filled d i n q
    · rw [(hfill q hq).1 hf]
      exact (hapart q hq hf r hr hne hpr).symm
    by_cases hfr : Filled d i n r
    · rw [(hfill r hr).1 hfr]
      exact hapart r hr hfr q hq hne.symm hpq
    · rw [hframe q hq hf, hframe r hr hfr]
      rw [(hfill q hq).2 hf] at hpq
      rw [(hfill r hr).2 hfr] at hpr
      rw [Changed, (hfill q hq).2 hf] at hc
      exact h.alone q hq r hr hne hpq hpr hc
  · rw [hentry] at hpe
    rw [hbase]
    by_cases hf : Filled d i n q
    · intro heq
      have hlt := h.tables e he hpe
      have hq' := hown q hf
      rw [heq, (hfill q hq).1 hf, Nat.mul_div_cancel q (by decide)] at hlt
      omega
    · rw [hframe q hq hf]
      rw [(hfill q hq).2 hf] at hpq
      rw [Changed, (hfill q hq).2 hf] at hc
      exact h.clear q hq hpq hc e he hpe

/-! ## The loop of `page_identity_map` -/

/-- The tables that `page_identity_map` gets: one for the start of each piece. -/
def Touched (addr endAddr d : ℕ) : Prop :=
  d = addr / 2 ^ 22 ∨ addr / 2 ^ 22 < d ∧ d * 2 ^ 22 + addr / 4096 % 1024 * 4096 < endAddr

instance (addr endAddr d : ℕ) : Decidable (Touched addr endAddr d) := inferInstanceAs (Decidable (_ ∨ _))

/-- How many of them it has to create. -/
def tablesNeeded (s : Paging) (addr endAddr : ℕ) : ℕ :=
  ((Finset.range 1023).filter fun d => Touched addr endAddr d ∧ ¬ Present (s.pdEntry d)).card

theorem starves_mono {m : ℕ} (hle : m ≤ n) (h : starves m p = true) : starves n p = true := by
  induction m generalizing n p with
  | zero => cases h
  | succ m ih =>
    obtain ⟨n, rfl⟩ := Nat.exists_eq_add_one_of_ne_zero (Nat.ne_of_gt (Nat.zero_lt_of_lt hle))
    rw [starves] at h ⊢
    cases halloc : pmmAlloc p with
    | none =>
      rw [halloc] at h
      cases h
    | some res =>
      obtain ⟨ptr, p', reads⟩ := res
      rw [halloc] at h
      simp only [Bool.or_eq_true] at h ⊢
      exact h.imp id (ih (by omega))

/-- A frame for the table, and what is left for the other tables. -/
theorem Apart.gets (h : Apart s₀ s) (hg : Gets s d s₁)
    (hn : ¬ starves (n + if Present (s.pdEntry d) then 0 else 1) s.pmm = true) :
    Apart s₀ s₁ ∧ s₁.pmm.numOfPages = s.pmm.numOfPages ∧ ¬ starves n s₁.pmm = true := by
  cases hg with
  | present hp =>
    rw [if_pos hp] at hn
    exact ⟨h, rfl, hn⟩
  | absent hp ha =>
    rw [if_neg hp] at hn
    obtain ⟨hptr, hn⟩ := not_starves_succ hn ha
    exact ⟨h.addTable ha hptr hp, ha.pages, hn⟩

theorem Gets.pdEntry_other (hg : Gets s d s₁) (h : TablesOk s) (he : e ≠ d) : s₁.pdEntry e = s.pdEntry e := by
  cases hg with
  | present => rfl
  | absent hp ha => exact (pdEntry_addTable (h.dir_ne_new ha) e).trans (if_neg he)

theorem touched_next {endAddr : ℕ} (h : Touched (a + maxSize a) endAddr d) (hlt : a + maxSize a < endAddr) :
    Touched a endAddr d ∧ d ≠ a / 2 ^ 22 := by
  rw [maxSize_eq] at hlt
  unfold Touched at h ⊢
  rw [maxSize_eq] at h
  omega

theorem tablesNeeded_next {endAddr : ℕ} (ha : a / 2 ^ 22 < 1023) (hlt : a + maxSize a < endAddr)
    (hsame : ∀ e, e ≠ a / 2 ^ 22 → s₁.pdEntry e = s.pdEntry e) :
    tablesNeeded s₁ (a + maxSize a) endAddr + (if Present (s.pdEntry (a / 2 ^ 22)) then 0 else 1) ≤
      tablesNeeded s a endAddr := by
  have hsub : ∀ e, e ∈ (Finset.range 1023).filter (fun d => Touched (a + maxSize a) endAddr d ∧
    ¬ Present (s₁.pdEntry d)) →
      e ∈ (Finset.range 1023).filter (fun d => Touched a endAddr d ∧ ¬ Present (s.pdEntry d)) ∧ e ≠ a / 2 ^ 22 := by
    intro e he
    rw [Finset.mem_filter] at he ⊢
    obtain ⟨ht, hne⟩ := touched_next he.2.1 hlt
    exact ⟨⟨he.1, ht, hsame e hne ▸ he.2.2⟩, hne⟩
  unfold tablesNeeded
  by_cases hp : Present (s.pdEntry (a / 2 ^ 22))
  · rw [if_pos hp, Nat.add_zero]
    exact Finset.card_le_card fun e he => (hsub e he).1
  · rw [if_neg hp]
    refine Nat.succ_le_of_lt (Finset.card_lt_card (Finset.ssubset_iff_of_subset (fun e he => (hsub e he).1) |>.mpr ?_))
    refine ⟨a / 2 ^ 22, ?_, fun he => (hsub _ he).2 rfl⟩
    rw [Finset.mem_filter, Finset.mem_range]
    exact ⟨ha, .inl rfl, hp⟩

theorem tablesNeeded_fill {endAddr : ℕ} (h : TablesOk s) (hd : d < 1023) (hp : Present (s.pdEntry d)) :
    tablesNeeded (s.fill (s.base d) i n a) addr endAddr = tablesNeeded s addr endAddr := by
  unfold tablesNeeded
  simp only [pdEntry_fill h hd hp]

theorem le_tablesNeeded {endAddr : ℕ} (ha : a / 2 ^ 22 < 1023) :
    (if Present (s.pdEntry (a / 2 ^ 22)) then 0 else 1) ≤ tablesNeeded s a endAddr := by
  by_cases hp : Present (s.pdEntry (a / 2 ^ 22))
  · rw [if_pos hp]
    exact Nat.zero_le _
  · rw [if_neg hp]
    refine Finset.card_pos.mpr ⟨a / 2 ^ 22, ?_⟩
    rw [Finset.mem_filter, Finset.mem_range]
    exact ⟨ha, .inl rfl, hp⟩

/-- **`page_identity_map`.** -/
theorem Apart.identityMap (h : Apart s₀ s) (hsize : 0 < size) (hend : addr + size ≤ windowStart * 4096)
    (hle : s.pmm.numOfPages ≤ addr / 4096) (hn : ¬ starves (tablesNeeded s addr (addr + size)) s.pmm = true)
    (hs : pageIdentityMap s addr size = some s') : Apart s₀ s' := by
  unfold windowStart at hend
  refine pageIdentityMap_rule (P := fun a t => Apart s₀ t ∧ t.pmm.numOfPages = s.pmm.numOfPages ∧
    ¬ starves (tablesNeeded t a (addr + size)) t.pmm = true) hsize (by omega) (fun a t hP => hP.1.ok.toTablesOk)
      ⟨h, rfl, hn⟩
    (fun a t t₁ ha hlt hP hg => ?_) (fun a t t₁ ha hlt _ hP hg _ => ?_) hs
  · obtain ⟨hapart, hpages, hn⟩ := hP
    have hlast : a / 2 ^ 22 < 1023 := by
      rw [maxSize_eq] at hlt
      omega
    have hnext := tablesNeeded_next hlast hlt fun e he => hg.pdEntry_other hapart.ok.toTablesOk he
    obtain ⟨hapart₁, hpages₁, hn₁⟩ := hapart.gets hg fun hs => hn (starves_mono hnext hs)
    have hstart := ha.le
    have hindex := ha.index
    have hp := hg.isPresent hapart.ok.toTablesOk
    refine ⟨hapart₁.identity hlast hp (by omega) (by omega), hpages₁.trans hpages, ?_⟩
    rw [tablesNeeded_fill hapart₁.ok.toTablesOk hlast hp]
    exact hn₁
  · obtain ⟨hapart, hpages, hn⟩ := hP
    have hlast : a / 2 ^ 22 < 1023 := by omega
    obtain ⟨hapart₁, hpages₁, -⟩ := hapart.gets (n := 0) hg fun hs =>
      hn (starves_mono (by rw [Nat.zero_add]; exact le_tablesNeeded hlast) hs)
    have hstart := ha.le
    have hindex := ha.index
    exact hapart₁.identity hlast (hg.isPresent hapart.ok.toTablesOk) (by omega) (by omega)

/-! ## Calls and runs -/

/-- A call of the last module, or one of `page_identity_map`. -/
inductive MapCall
  | call (op : PagingOp)
  | identity (addr size : ℕ)

def mapCall (s : Paging) : MapCall → Option Paging
  | .call op => (pagingCall s op).map Prod.snd
  | .identity addr size => pageIdentityMap s addr size

/-- The call is about pages below the windows, an identity mapping is behind the memory, and `pmm_alloc` never returns
`NULL`. -/
def MapCall.Allowed (s : Paging) : MapCall → Prop
  | .call op => op.address < windowStart * 4096 ∧ ¬ Starved s op
  | .identity addr size => 0 < size ∧ addr + size ≤ windowStart * 4096 ∧ s.pmm.numOfPages ≤ addr / 4096 ∧
    ¬ starves (tablesNeeded s addr (addr + size)) s.pmm = true

/-- **One call.** -/
theorem Apart.step (h : Apart s₀ s) {op : MapCall} (hop : op.Allowed s) (hs : mapCall s op = some s') :
    Apart s₀ s' := by
  cases op with
  | identity addr size =>
    obtain ⟨hsize, hend, hle, hn⟩ := hop
    exact h.identityMap hsize hend hle hn hs
  | call op =>
    obtain ⟨haddr, hstarved⟩ := hop
    unfold windowStart at haddr
    obtain ⟨⟨found, t⟩, hcall, rfl⟩ := Option.map_eq_some_iff.mp hs
    cases op with
    | getPt addr flag =>
      obtain ⟨⟨res, t'⟩, hr, hv⟩ := Option.map_eq_some_iff.mp hcall
      cases hv
      cases flag with
      | noAlloc =>
        rw [pageGetPt] at hr
        by_cases hp : Present (s.pdEntry (pageGetPdIndex addr))
        · rw [if_pos hp] at hr
          cases hr
          exact h
        · rw [if_neg hp, if_pos rfl] at hr
          cases hr
          exact h
      | pageAlloc =>
        obtain ⟨-, hg⟩ := pageGetPt_spec h.ok.toTablesOk hr
        refine (h.gets (n := 0) hg fun hs => hstarved ?_).1
        rw [Starved, framesNeeded]
        simpa using hs
    | getPtEntry addr flag =>
      dsimp only [PagingOp.address] at haddr
      obtain ⟨⟨res, t'⟩, hr, hv⟩ := Option.map_eq_some_iff.mp hcall
      cases hv
      obtain ⟨s₂, hg, hcases⟩ := pageGetPtEntry_spec h.ok.toTablesOk hr
      obtain ⟨h₂, -, hleft⟩ := h.gets hg hstarved
      rcases hcases with ⟨-, -, rfl⟩ | ⟨-, -, -, rfl⟩ | ⟨hp, rfl, -, ptr, p', ha, rfl⟩
      · exact h₂
      · exact h₂
      · have hn : ¬ Mapped s addr := by
          rwa [Mapped, ← hg.pte_eq h.ok.toTablesOk (by omega) (div_page_div_table addr)]
        rw [if_neg (by simp [hn])] at hleft
        have htable : Present (s₂.pdEntry (addr / 4096 / 1024)) := by
          rw [div_page_div_table]
          exact hg.isPresent h.ok.toTablesOk
        refine h₂.putPage ha (not_starves_succ hleft ha).1 ?_ htable hp
        unfold windowStart
        omega

/-- **Pages do not share frames.** In every run of these calls from the kernel's own pages, a page that has been
mapped since the start, or mapped anew, leads to a frame that no other page leads to and that holds no page table, the
directory included. -/
theorem pages_apart {ops : List MapCall} (hstart : Start s₀)
    (hrun : Run (fun s op s' => mapCall s op = some s' ∧ op.Allowed s) s₀ ops s) (hq : q < windowStart)
    (hpq : Present (pte s q)) (hc : pte s q ≠ pte s₀ q) :
    (∀ r < windowStart, r ≠ q → Present (pte s r) → frameOf s r ≠ frameOf s q) ∧
      ∀ d < 1024, Present (s.pdEntry d) → s.base d ≠ frameOf s q := by
  have h : Apart s₀ s := hrun.invariant (fun _ _ _ h hs => h.step hs.2 hs.1) hstart.apart
  exact ⟨fun r hr hne hpr => (h.alone q hq r hr hne.symm hpq hpr hc).symm, h.clear q hq hpq hc⟩

/-! ## Example -/

instance (s : Paging) : (op : MapCall) → Decidable (op.Allowed s)
  | .call _ => inferInstanceAs (Decidable (_ ∧ _))
  | .identity _ _ => inferInstanceAs (Decidable (_ ∧ _ ∧ _ ∧ _))

/-- The directory in frame 2, and eight free frames. -/
def bootSpace : Paging where
  pmm := freePmm
  frames := fun f i => if f = 2 * 4096 ∧ i = 1023 then 2 * 4096 ||| presentReadWriteUser else 0
  dir := 2 * 4096

theorem bootSpace_pdEntry (d : ℕ) :
    bootSpace.pdEntry d = if d = 1023 then 2 * 4096 ||| presentReadWriteUser else 0 := by
  unfold Paging.pdEntry bootSpace
  simp

theorem bootSpace_present (hp : Present (bootSpace.pdEntry d)) : d = 1023 := by
  by_contra hne
  rw [bootSpace_pdEntry, if_neg hne] at hp
  exact absurd hp (by decide)

theorem bootSpace_base : bootSpace.base 1023 = 2 * 4096 := by
  rw [Paging.base, bootSpace_pdEntry, if_pos rfl, entryBase_or_flags]
  decide

theorem bootSpace_start : Start bootSpace := by
  refine ⟨⟨⟨?_, bootSpace_base, by decide, by decide, .inl (by decide), fun d _ hp _ _ => ?_,
    fun d _ e _ hd he _ => ?_⟩,
    fun d _ hp => ?_⟩, fun q hq hp => ?_, fun d _ hp => ?_⟩
  · rw [bootSpace_pdEntry, if_pos rfl]
    exact present_or_flags _
  · obtain rfl := bootSpace_present hp
    rw [bootSpace_base]
    decide
  · exact .inl ((bootSpace_present hd).trans (bootSpace_present he).symm)
  · obtain rfl := bootSpace_present hp
    rw [bootSpace_base]
    decide
  · unfold windowStart at hq
    rw [pte, if_neg fun hd => by have := bootSpace_present hd; omega] at hp
    exact absurd hp (by decide)
  · obtain rfl := bootSpace_present hp
    rw [bootSpace_base]
    decide

/-- Two pages of the heap, and the registers of the local APIC between them. -/
def heapAndLapic : List MapCall :=
  [.call (.getPtEntry 0x400000 .pageAlloc), .identity 0xFEE00000 0x400, .call (.getPtEntry 0x401000 .pageAlloc)]

theorem pages_apart_lapic : ∃ s, Run (fun s op s' => mapCall s op = some s' ∧ op.Allowed s) bootSpace heapAndLapic s ∧
    frameOf s 0xFEE00 ≠ frameOf s 0x400 ∧ frameOf s 0x401 ≠ frameOf s 0x400 := by
  have heval : (heapAndLapic.foldlM (fun s (op : MapCall) => if op.Allowed s then mapCall s op else none) bootSpace).any
      (fun s => decide (Present (pte s 0x400) ∧ Present (pte s 0x401) ∧ Present (pte s 0xFEE00))) = true := by
    decide +kernel
  obtain ⟨s, hs, hv⟩ := (Option.any_eq_true _ _).mp heval
  obtain ⟨hp, hp', hlapic⟩ := of_decide_eq_true hv
  have hrun : Run (fun s op s' => mapCall s op = some s' ∧ op.Allowed s) bootSpace heapAndLapic s :=
    run_of_foldlM (fun s op s' h => (Option.ite_none_right_eq_some.mp h).symm) hs
  have hc : pte s 0x400 ≠ pte bootSpace 0x400 := fun heq => by
    rw [heq] at hp
    exact absurd hp (by decide)
  have h := (pages_apart bootSpace_start hrun (by decide) hp hc).1
  exact ⟨s, hrun, h 0xFEE00 (by decide) (by decide) hlapic, h 0x401 (by decide) (by decide) hp'⟩

end BulbOS.Page
