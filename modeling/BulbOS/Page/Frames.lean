import BulbOS.Lib.Run
import BulbOS.Page.Translate

/-!
# Frames of mapped pages

`page_get_pt` and `page_get_pt_entry` write whatever `pmm_alloc` returns into the directory or the table, `NULL`
included. A run has calls of the two, with either flag; `mapped` is the list of the pages whose entries were made by
calls with `PAGE_ALLOC`.

* `CallOk`: what a call owes its caller when no frame is left; `Starved`: a call that gets `NULL` for a frame;
* `MapInv`: the frames of the mapped pages are used, and no two pages share one;
* **`frames_not_shared`**: it holds in every run without starved calls, and a call is right when it is not starved;
* `frame_zero_shared`: two pages mapped to frame 0.
-/

namespace BulbOS.Page

open KLib Pmm

variable {s s₁ s' : Paging} {p p' : PmmState} {d e n ptr addr page q : ℕ} {flag : AllocFlag}

/-! ## A new page -/

theorem TablesOk.of_same (h : TablesOk s) (ha : Allocated s.pmm ptr s'.pmm) (hdir : s'.dir = s.dir)
    (hentry : ∀ e, s'.pdEntry e = s.pdEntry e) : TablesOk s' := by
  have hbase : ∀ e, s'.base e = s.base e := fun e => congrArg entryBase (hentry e)
  refine ⟨?_, ?_, hdir ▸ h.dir_ne, ha.pages.le.trans h.pages, ha.last, fun e he hp hz hlt => ?_, ?_⟩
  · rw [hentry]
    exact h.slot
  · rw [hbase, hdir]
    exact h.self
  · rw [hentry] at hp
    rw [hbase] at hz hlt ⊢
    exact ha.keep _ (h.used e he hp hz (ha.pages ▸ hlt))
  · simp only [hentry, hbase]
    exact h.inj

theorem frames_putPage (f i : ℕ) : (s.putPage p' page ptr).frames f i =
    if f = s.base (page / 1024) ∧ i = page % 1024 then ptr ||| presentReadWriteUser else s.frames f i :=
  Paging.frames_write _ _ _ _ _ _

/-- Entries of the directory are written through its own slot only, where no table was. -/
theorem pdEntry_putPage (h : TablesOk s) (hpage : page < 2 ^ 20) (hp : Present (s.pdEntry (page / 1024)))
    (hnew : ¬ Present (pte s page)) (p' : PmmState) (ptr e : ℕ) :
    (s.putPage p' page ptr).pdEntry e = s.pdEntry e ∨ page / 1024 = 1023 ∧ e = page % 1024 ∧ ¬ Present (s.pdEntry e) ∧
      (s.putPage p' page ptr).pdEntry e = ptr ||| presentReadWriteUser := by
  by_cases hc : s.dir = s.base (page / 1024) ∧ e = page % 1024
  · obtain ⟨hdir, rfl⟩ := hc
    have hlast : page / 1024 = 1023 := by
      by_contra hne
      exact h.base_ne_dir (by omega) hp hdir.symm
    refine .inr ⟨hlast, rfl, ?_, (frames_putPage s.dir _).trans (if_pos ⟨hdir, rfl⟩)⟩
    rwa [pte_eq hp, ← hdir] at hnew
  · exact .inl ((frames_putPage s.dir e).trans (if_neg hc))

theorem TablesOk.putPage (h : TablesOk s) (ha : Allocated s.pmm ptr p') (hpage : page < 2 ^ 20)
    (hp : Present (s.pdEntry (page / 1024))) (hnew : ¬ Present (pte s page)) : TablesOk (s.putPage p' page ptr) := by
  have hentry := pdEntry_putPage h hpage hp hnew p' ptr
  by_cases hall : ∀ e, (s.putPage p' page ptr).pdEntry e = s.pdEntry e
  · exact h.of_same ha rfl hall
  · -- the slot of the directory: the page is the window of a new table
    push Not at hall
    obtain ⟨d, hd⟩ := hall
    obtain ⟨-, rfl, habsent, hwritten⟩ := (hentry d).resolve_left hd
    refine h.of_pdEntry ha habsent rfl fun e => ?_
    by_cases he : e = page % 1024
    · rw [if_pos he, he, hwritten]
    · rw [if_neg he]
      exact (hentry e).resolve_right fun hc => he hc.2.1

theorem pte_putPage (h : TablesOk s) (hpage : page < 2 ^ 20) (hp : Present (s.pdEntry (page / 1024)))
    (hnew : ¬ Present (pte s page)) (p' : PmmState) (ptr : ℕ) :
    pte (s.putPage p' page ptr) page = ptr ||| presentReadWriteUser := by
  have hsame : (s.putPage p' page ptr).pdEntry (page / 1024) = s.pdEntry (page / 1024) :=
    (pdEntry_putPage h hpage hp hnew p' ptr _).resolve_right fun hc => hc.2.2.1 hp
  rw [pte_eq (by rwa [hsame]), Paging.base, hsame, frames_putPage]
  exact if_pos ⟨rfl, rfl⟩

theorem pte_putPage_of_ne (h : Ok s) (hpage : page < 2 ^ 20) (hp : Present (s.pdEntry (page / 1024)))
    (hnew : ¬ Present (pte s page)) (p' : PmmState) (ptr : ℕ) (hq : q < 2 ^ 20) (hqp : Present (pte s q)) :
    pte (s.putPage p' page ptr) q = pte s q := by
  have hpq : Present (s.pdEntry (q / 1024)) := by
    by_contra hn
    rw [pte, if_neg hn] at hqp
    exact absurd hqp (by decide)
  have hsame : (s.putPage p' page ptr).pdEntry (q / 1024) = s.pdEntry (q / 1024) :=
    (pdEntry_putPage h.toTablesOk hpage hp hnew p' ptr _).resolve_right fun hc => hc.2.2.1 hpq
  rw [pte_eq (by rwa [hsame]), Paging.base, hsame, frames_putPage, if_neg]
  · exact (pte_eq hpq).symm
  · rintro ⟨hbase, hindex⟩
    have htable := (h.inj _ (by omega) _ (by omega) hpq hp hbase).resolve_right (h.base_ne _ (by omega) hpq)
    have heq : q = page := by omega
    exact hnew (heq ▸ hqp)

/-- A frame that is not `NULL` keeps the tables out of frame 0. -/
theorem Ok.putPage (h : Ok s) (ha : Allocated s.pmm ptr p') (hptr : ptr ≠ 0) (hpage : page < 2 ^ 20)
    (hp : Present (s.pdEntry (page / 1024))) (hnew : ¬ Present (pte s page)) : Ok (s.putPage p' page ptr) := by
  refine ⟨h.toTablesOk.putPage ha hpage hp hnew, fun e he hpe => ?_⟩
  rcases pdEntry_putPage h.toTablesOk hpage hp hnew p' ptr e with heq | ⟨-, -, -, heq⟩
  · rw [Paging.base, heq]
    exact h.base_ne e he (heq ▸ hpe)
  · rw [Paging.base, heq, entryBase_or_flags, ha.aligned]
    exact hptr

theorem Ok.addTable (h : Ok s) (ha : Allocated s.pmm ptr p') (hptr : ptr ≠ 0) (hp : ¬ Present (s.pdEntry d)) :
    Ok (s.addTable p' d ptr) := by
  have hdir := h.dir_ne_new ha
  refine ⟨h.toTablesOk.addTable ha hp, fun e he hpe => ?_⟩
  rw [base_addTable hdir ha.aligned]
  by_cases hed : e = d
  · rw [if_pos hed]
    exact hptr
  · rw [if_neg hed]
    exact h.base_ne e he (((present_addTable hdir e).mp hpe).resolve_left hed)

theorem pte_addTable_of_present (h : TablesOk s) (ha : Allocated s.pmm ptr p') (hptr : ptr ≠ 0)
    (hp : ¬ Present (s.pdEntry d)) (hq : q < 2 ^ 20) (hqp : Present (pte s q)) :
    pte (s.addTable p' d ptr) q = pte s q := by
  refine (pte_addTable h ha hp hq fun hslot => hp ?_).resolve_right fun hc => hptr hc.1
  -- the entry of the window of a table is the one of the directory
  have hlast : q / 1024 = 1023 := by
    unfold slotPage at hslot
    omega
  have hindex : q % 1024 = d := by
    unfold slotPage at hslot
    omega
  rw [pte, hlast, if_pos h.slot, h.self, hindex] at hqp
  exact hqp

theorem Gets.pte_eq (hg : Gets s d s₁) (h : TablesOk s) (hpage : page < 2 ^ 20) (htable : page / 1024 = d) :
    pte s₁ page = pte s page := by
  cases hg with
  | present => rfl
  | absent hp ha =>
    refine (pte_addTable h ha hp hpage fun hslot => hp ?_).resolve_right fun hc => hp (htable ▸ hc.2.1)
    rw [show d = 1023 by unfold slotPage at hslot; omega]
    exact h.slot

/-! ## Calls -/

instance (s : Paging) (addr : ℕ) : Decidable (Mapped s addr) := inferInstanceAs (Decidable (Present _))

/-- A call, with its address and flag. -/
inductive PagingOp
  | getPt (addr : ℕ) (flag : AllocFlag)
  | getPtEntry (addr : ℕ) (flag : AllocFlag)

def PagingOp.address : PagingOp → ℕ
  | .getPt addr _ => addr
  | .getPtEntry addr _ => addr

/-- Whether the call returns a pointer, and the state after it. -/
def pagingCall (s : Paging) : PagingOp → Option (Bool × Paging)
  | .getPt addr flag => (pageGetPt s addr flag).map fun r => (r.1.isSome, r.2)
  | .getPtEntry addr flag => (pageGetPtEntry s addr flag).map fun r => (r.1.isSome, r.2)

/-- How often the call calls `pmm_alloc`. -/
def framesNeeded (s : Paging) : PagingOp → ℕ
  | .getPt addr flag => if Present (s.pdEntry (addr / 2 ^ 22)) ∨ flag = .noAlloc then 0 else 1
  | .getPtEntry addr flag =>
    (if Mapped s addr ∨ flag = .noAlloc then 0 else 1) + if Present (s.pdEntry (addr / 2 ^ 22)) then 0 else 1

/-- One of `n` calls of `pmm_alloc` returns `NULL`. -/
def starves : ℕ → PmmState → Bool
  | 0, _ => false
  | n + 1, p =>
    match pmmAlloc p with
    | none => false
    | some (ptr, p', _) => ptr == 0 || starves n p'

/-- `pmm_alloc` returns `NULL` to the call. -/
def Starved (s : Paging) (op : PagingOp) : Prop := starves (framesNeeded s op) s.pmm = true

instance (s : Paging) (op : PagingOp) : Decidable (Starved s op) := inferInstanceAs (Decidable (_ = _))

/-- When `pmm_alloc` returns `NULL` to the call, it returns `NULL`, and no entry becomes present. -/
def CallOk (s : Paging) (op : PagingOp) : Prop := Starved s op → ∃ s', pagingCall s op = some (false, s') ∧
  (∀ d < 1024, Present (s'.pdEntry d) → Present (s.pdEntry d)) ∧
    ∀ page < 2 ^ 20, Present (pte s' page) → Present (pte s page)

/-- **A starved call** is not right: it returns a pointer, or it has made a table present. -/
theorem callOk_iff (h : TablesOk s) {op : PagingOp} (haddr : op.address < 2 ^ 32) : CallOk s op ↔ ¬ Starved s op := by
  refine ⟨fun hok hstarved => ?_, fun hn hstarved => absurd hstarved hn⟩
  obtain ⟨s', hcall, hentries, -⟩ := hok hstarved
  cases op with
  | getPt addr flag =>
    obtain ⟨⟨r, s₁⟩, hr, hv⟩ := Option.map_eq_some_iff.mp hcall
    cases flag with
    | noAlloc =>
      rw [Starved, framesNeeded, if_pos (.inr rfl)] at hstarved
      cases hstarved
    | pageAlloc =>
      obtain ⟨rfl, -⟩ := pageGetPt_spec h hr
      cases hv
  | getPtEntry addr flag =>
    obtain ⟨⟨r, s₁⟩, hr, hv⟩ := Option.map_eq_some_iff.mp hcall
    obtain ⟨s₂, hg, ⟨-, rfl, -⟩ | ⟨-, rfl, rfl, rfl⟩ | ⟨-, -, rfl, -⟩⟩ := pageGetPtEntry_spec h hr
    · cases hv
    · cases hv
      by_cases hp : Present (s.pdEntry (addr / 2 ^ 22))
      · rw [Starved, framesNeeded, if_pos (.inr rfl), if_pos hp] at hstarved
        cases hstarved
      · dsimp only [PagingOp.address] at haddr
        exact hp (hentries _ (by omega) (hg.isPresent h))
    · cases hv

/-! ## Runs -/

/-- The tables, and the pages that calls with `PAGE_ALLOC` have mapped. -/
structure MapCfg where
  tables : Paging
  mapped : List ℕ

/-- The pages mapped after the call. -/
def mappedAfter (c : MapCfg) : PagingOp → List ℕ
  | .getPtEntry addr .pageAlloc => if Mapped c.tables addr then c.mapped else addr / 4096 :: c.mapped
  | _ => c.mapped

def mapStep (c : MapCfg) (op : PagingOp) : Option MapCfg :=
  (pagingCall c.tables op).map fun r => ⟨r.2, mappedAfter c op⟩

/-- The frames of the mapped pages are used, and no two pages share one. -/
structure MapInv (c : MapCfg) : Prop where
  ok : Ok c.tables
  present : ∀ q ∈ c.mapped, q < 2 ^ 20 ∧ Present (pte c.tables q)
  inside : ∀ q ∈ c.mapped, entryBase (pte c.tables q) / 4096 < c.tables.pmm.numOfPages
  used : ∀ q ∈ c.mapped, getBit c.tables.pmm.memBitmap (entryBase (pte c.tables q) / 4096) = true
  distinct : ∀ q ∈ c.mapped, ∀ r ∈ c.mapped, q ≠ r → entryBase (pte c.tables q) ≠ entryBase (pte c.tables r)

variable {mapped : List ℕ}

/-- The mapped pages keep their entries, and more frames are used. -/
theorem MapInv.of_same (h : MapInv ⟨s, mapped⟩) (ha : Allocated s.pmm ptr s'.pmm) (hok : Ok s')
    (hsame : ∀ q < 2 ^ 20, Present (pte s q) → pte s' q = pte s q) : MapInv ⟨s', mapped⟩ := by
  have heq : ∀ q ∈ mapped, pte s' q = pte s q := fun q hq => hsame q (h.present q hq).1 (h.present q hq).2
  refine ⟨hok, fun q hq => ?_, fun q hq => ?_, fun q hq => ?_, fun q hq r hr hne => ?_⟩
  · rw [heq q hq]
    exact h.present q hq
  · rw [heq q hq, ha.pages]
    exact h.inside q hq
  · rw [heq q hq]
    exact ha.keep _ (h.used q hq)
  · rw [heq q hq, heq r hr]
    exact h.distinct q hq r hr hne

theorem MapInv.addTable (h : MapInv ⟨s, mapped⟩) (ha : Allocated s.pmm ptr p') (hptr : ptr ≠ 0)
    (hp : ¬ Present (s.pdEntry d)) : MapInv ⟨s.addTable p' d ptr, mapped⟩ :=
  h.of_same ha (h.ok.addTable ha hptr hp) fun _ hq hqp => pte_addTable_of_present h.ok.toTablesOk ha hptr hp hq hqp

theorem MapInv.putPage (h : MapInv ⟨s, mapped⟩) (ha : Allocated s.pmm ptr p') (hptr : ptr ≠ 0) (hpage : page < 2 ^ 20)
    (hp : Present (s.pdEntry (page / 1024))) (hnew : ¬ Present (pte s page)) :
    MapInv ⟨s.putPage p' page ptr, page :: mapped⟩ := by
  have hold : MapInv ⟨s.putPage p' page ptr, mapped⟩ := h.of_same ha (h.ok.putPage ha hptr hpage hp hnew)
    fun _ hq hqp => pte_putPage_of_ne h.ok hpage hp hnew p' ptr hq hqp
  have hpte := pte_putPage h.ok.toTablesOk hpage hp hnew p' ptr
  have hframe : entryBase (pte (s.putPage p' page ptr) page) = ptr := by
    rw [hpte, entryBase_or_flags, ha.aligned]
  -- the new frame was free, and those of the mapped pages were used
  have hfresh : ∀ q ∈ mapped, entryBase (pte (s.putPage p' page ptr) q) ≠ ptr := by
    intro q hq heq
    have hsame := pte_putPage_of_ne h.ok hpage hp hnew p' ptr (h.present q hq).1 (h.present q hq).2
    have hbit := h.used q hq
    dsimp only at hbit
    rw [← hsame, heq, ha.fresh hptr] at hbit
    cases hbit
  refine ⟨hold.ok, fun q hq => ?_, fun q hq => ?_, fun q hq => ?_, fun q hq r hr hne => ?_⟩
  · rcases List.mem_cons.mp hq with rfl | hq
    · exact ⟨hpage, by rw [hpte]; exact present_or_flags ptr⟩
    · exact hold.present q hq
  · rcases List.mem_cons.mp hq with rfl | hq
    · dsimp only
      rw [hframe, show (s.putPage p' q ptr).pmm.numOfPages = s.pmm.numOfPages from ha.pages]
      exact ha.inside hptr
    · exact hold.inside q hq
  · rcases List.mem_cons.mp hq with rfl | hq
    · dsimp only
      rw [hframe]
      exact ha.taken hptr
    · exact hold.used q hq
  · rcases List.mem_cons.mp hq with rfl | hq' <;> rcases List.mem_cons.mp hr with rfl | hr'
    · exact absurd rfl hne
    · dsimp only
      rw [hframe]
      exact (hfresh r hr').symm
    · dsimp only
      rw [hframe]
      exact hfresh q hq'
    · exact hold.distinct q hq' r hr' hne

theorem not_starves_succ (hn : ¬ starves (n + 1) p = true) (ha : Allocated p ptr p') :
    ptr ≠ 0 ∧ ¬ starves n p' = true := by
  obtain ⟨reads, hcall⟩ := ha.call
  rw [starves, hcall] at hn
  simpa using hn

/-- The table of a call that is not starved; what is left of the frames that it needs. -/
theorem MapInv.gets (h : MapInv ⟨s, mapped⟩) (hg : Gets s d s₁)
    (hn : ¬ starves (n + if Present (s.pdEntry d) then 0 else 1) s.pmm = true) :
    MapInv ⟨s₁, mapped⟩ ∧ ¬ starves n s₁.pmm = true := by
  cases hg with
  | present hp =>
    rw [if_pos hp] at hn
    exact ⟨h, hn⟩
  | absent hp ha =>
    rw [if_neg hp] at hn
    obtain ⟨hptr, hn⟩ := not_starves_succ hn ha
    exact ⟨h.addTable ha hptr hp, hn⟩

/-- **One call** that is not starved. -/
theorem MapInv.step {c c' : MapCfg} (h : MapInv c) {op : PagingOp} (haddr : op.address < 2 ^ 32)
    (hstarved : ¬ Starved c.tables op) (hstep : mapStep c op = some c') : MapInv c' := by
  obtain ⟨s, mapped⟩ := c
  obtain ⟨⟨found, s'⟩, hcall, rfl⟩ := Option.map_eq_some_iff.mp hstep
  cases op with
  | getPt addr flag =>
    obtain ⟨⟨r, s₁⟩, hr, hv⟩ := Option.map_eq_some_iff.mp hcall
    cases hv
    change MapInv ⟨s₁, mapped⟩
    cases flag with
    | noAlloc =>
      rw [pageGetPt] at hr
      by_cases hp : Present (s.pdEntry (pageGetPdIndex addr))
      · rw [if_pos hp] at hr
        cases hr
        exact h
      · rw [if_neg hp, if_pos rfl] at hr
        cases hr
        exact h
    | pageAlloc =>
      obtain ⟨-, hg⟩ := pageGetPt_spec h.ok.toTablesOk hr
      refine (h.gets (n := 0) hg fun hs => hstarved ?_).1
      rw [Starved, framesNeeded]
      simpa using hs
  | getPtEntry addr flag =>
    dsimp only [PagingOp.address] at haddr
    obtain ⟨⟨r, s₁⟩, hr, hv⟩ := Option.map_eq_some_iff.mp hcall
    cases hv
    obtain ⟨s₂, hg, hcases⟩ := pageGetPtEntry_spec h.ok.toTablesOk hr
    obtain ⟨h₂, hleft⟩ := h.gets hg hstarved
    have hsame : Mapped s addr ↔ Present (pte s₂ (addr / 4096)) := by
      rw [Mapped, hg.pte_eq h.ok.toTablesOk (by omega) (div_page_div_table addr)]
    rcases hcases with ⟨hp, -, rfl⟩ | ⟨hp, rfl, -, rfl⟩ | ⟨hp, rfl, -, ptr, p', ha, rfl⟩
    · cases flag with
      | noAlloc => exact h₂
      | pageAlloc =>
        rw [mappedAfter, if_pos (hsame.mpr hp)]
        exact h₂
    · exact h₂
    · have hn : ¬ Mapped s addr := mt hsame.mp hp
      rw [if_neg (by simp [hn])] at hleft
      rw [mappedAfter, if_neg hn]
      have htable : Present (s₂.pdEntry (addr / 4096 / 1024)) := by
        rw [div_page_div_table]
        exact hg.isPresent h.ok.toTablesOk
      exact h₂.putPage ha (not_starves_succ hleft ha).1 (by omega) htable hp

/-- Calls that are not starved. -/
def MapMove (c : MapCfg) (op : PagingOp) (c' : MapCfg) : Prop := op.address < 2 ^ 32 ∧ mapStep c op = some c'

/-- **Frames are not shared** in a run without starved calls, and the calls that follow it are right exactly when they
are not starved. -/
theorem frames_not_shared {c : MapCfg} {ops : List PagingOp} (hs : Ok s)
    (hrun : Run (fun c op c' => MapMove c op c' ∧ ¬ Starved c.tables op) ⟨s, []⟩ ops c) :
    (∀ q ∈ c.mapped, Present (pte c.tables q)) ∧
      (∀ q ∈ c.mapped, ∀ r ∈ c.mapped, q ≠ r → entryBase (pte c.tables q) ≠ entryBase (pte c.tables r)) ∧
      ∀ op : PagingOp, op.address < 2 ^ 32 → (CallOk c.tables op ↔ ¬ Starved c.tables op) := by
  have hinv : MapInv c := by
    refine hrun.invariant (fun c op c' hc hmove => hc.step hmove.1.1 hmove.2 hmove.1.2) ?_
    exact ⟨hs, List.forall_mem_nil _, List.forall_mem_nil _, List.forall_mem_nil _, List.forall_mem_nil _⟩
  exact ⟨fun q hq => (hinv.present q hq).2, hinv.distinct, fun op haddr => callOk_iff hinv.ok.toTablesOk haddr⟩

/-! ## Examples -/

theorem emptySpace_ok {pmm : PmmState} (hpages : pmm.numOfPages ≤ 1024) (hlast : LastOk pmm) : Ok (emptySpace pmm) := by
  have hentry : ∀ d, (emptySpace pmm).pdEntry d =
      if d = 1023 then 1024 * 4096 ||| presentReadWriteUser else 0 := fun d => by
    unfold Paging.pdEntry emptySpace
    simp
  have honly : ∀ d, Present ((emptySpace pmm).pdEntry d) → d = 1023 := fun d hp => by
    by_contra hne
    rw [hentry, if_neg hne] at hp
    exact absurd hp (by decide)
  have hbase : (emptySpace pmm).base 1023 = 1024 * 4096 := by
    rw [Paging.base, hentry, if_pos rfl, entryBase_or_flags]
    decide
  refine ⟨⟨?_, hbase, show 1024 * 4096 ≠ 0 by decide, hpages.trans (by decide), hlast, fun d _ hp _ hlt => ?_,
    fun d _ e _ hd he _ => ?_⟩,
    fun d _ hp => ?_⟩
  · rw [hentry, if_pos rfl]
    exact present_or_flags _
  · obtain rfl := honly d hp
    rw [hbase] at hlt
    change 1024 * 4096 / 4096 < pmm.numOfPages at hlt
    omega
  · exact .inl ((honly d hd).trans (honly e he).symm)
  · obtain rfl := honly d hp
    rw [hbase]
    decide

/-- Eight free frames. -/
def freePmm : PmmState := ⟨fun b => if b = 3 then 0 else 0xFF, 32, 0⟩

theorem run_of_mapStep {c c' : MapCfg} {ops : List PagingOp}
    (h : ops.foldlM (fun c op => if op.address < 2 ^ 32 ∧ ¬ Starved c.tables op then mapStep c op else none) c =
      some c') :
    Run (fun c op c' => MapMove c op c' ∧ ¬ Starved c.tables op) c ops c' := by
  refine run_of_foldlM (fun c op c' e => ?_) h
  by_cases hop : op.address < 2 ^ 32 ∧ ¬ Starved c.tables op
  · rw [if_pos hop] at e
    exact ⟨⟨hop.1, e⟩, hop.2⟩
  · rw [if_neg hop] at e
    cases e

/-- Two calls that map two pages. -/
def twoPages : List PagingOp := [.getPtEntry 0x400000 .pageAlloc, .getPtEntry 0x401000 .pageAlloc]

theorem frames_not_shared_two : ∃ c, Run (fun c op c' => MapMove c op c' ∧ ¬ Starved c.tables op)
    ⟨emptySpace freePmm, []⟩ twoPages c ∧ c.mapped = [0x401, 0x400] ∧
    entryBase (pte c.tables 0x400) ≠ entryBase (pte c.tables 0x401) := by
  have heval : (twoPages.foldlM (fun c op => if op.address < 2 ^ 32 ∧ ¬ Starved c.tables op then mapStep c op else none)
      ⟨emptySpace freePmm, []⟩).map MapCfg.mapped = some [0x401, 0x400] := by decide +kernel
  obtain ⟨c, hc, hmapped⟩ := Option.map_eq_some_iff.mp heval
  have hrun := run_of_mapStep hc
  refine ⟨c, hrun, hmapped, ?_⟩
  exact (frames_not_shared (emptySpace_ok (by decide) (.inl (by decide))) hrun).2.1 0x400 (by simp [hmapped]) 0x401
    (by simp [hmapped]) (by decide)

/-- With no free frame both calls return a pointer, and both pages are mapped to frame 0. -/
theorem frame_zero_shared : ¬ CallOk (emptySpace (fullPmm 0)) (.getPtEntry 0x400000 .pageAlloc) ∧
    ∃ c₁ c, MapMove ⟨emptySpace (fullPmm 0), []⟩ (.getPtEntry 0x400000 .pageAlloc) c₁ ∧
      MapMove c₁ (.getPtEntry 0x401000 .pageAlloc) c ∧ c.mapped = [0x401, 0x400] ∧
      Present (pte c.tables 0x400) ∧ Present (pte c.tables 0x401) ∧
      entryBase (pte c.tables 0x400) = entryBase (pte c.tables 0x401) := by
  have hok : Ok (emptySpace (fullPmm 0)) := emptySpace_ok (show 32 ≤ 1024 by decide) (.inl (show 0 < 32 by decide))
  refine ⟨fun hc => (callOk_iff hok.toTablesOk (by decide)).mp hc (by decide +kernel), ?_⟩
  have heval : ((mapStep ⟨emptySpace (fullPmm 0), []⟩ (.getPtEntry 0x400000 .pageAlloc)).bind fun c =>
      (mapStep c (.getPtEntry 0x401000 .pageAlloc)).map fun c => (c.mapped, pte c.tables 0x400, pte c.tables 0x401)) =
      some ([0x401, 0x400], 7, 7) := by decide +kernel
  obtain ⟨c₁, h₁, h⟩ := Option.bind_eq_some_iff.mp heval
  obtain ⟨c, h₂, hv⟩ := Option.map_eq_some_iff.mp h
  simp only [Prod.mk.injEq] at hv
  refine ⟨c₁, c, ⟨by decide, h₁⟩, ⟨by decide, h₂⟩, hv.1, ?_, ?_, ?_⟩
  · rw [hv.2.1]
    decide
  · rw [hv.2.2]
    decide
  · rw [hv.2.1, hv.2.2]

end BulbOS.Page
