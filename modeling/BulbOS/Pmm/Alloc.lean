import BulbOS.Lib.Run
import BulbOS.Pmm.Search

/-!
# Runs of the physical page allocator

When the number of pages is a multiple of 32 the search of `pmm_alloc` reads nothing but the bitmap. A failed search
leaves `BIT32_MAX` in `last_alloc`, and the next search starts there, outside the bitmap.

* `WholeWords`: such a bitmap; `pmmAlloc_full`, `pmmAlloc_free`: what `pmm_alloc` does with it;
* `AllocOk`: what a call of `pmm_alloc` owes its caller;
* **`pmmAlloc_ok_of_run`**: it is met in every run that does not allocate after a `NULL`;
* `pmmAlloc_after_null`: it is not met after one.
-/

namespace BulbOS.Pmm

open KLib

variable {s s' : PmmState} {start k d fuel last : ℕ}

/-! ## Bitmaps of whole words -/

/-- The bitmap is made of whole words, and every frame has a 32-bit address. -/
structure WholeWords (s : PmmState) : Prop where
  pos : 0 < s.numOfPages
  le : s.numOfPages ≤ 2 ^ 20
  whole : s.numOfPages % 32 = 0

theorem WholeWords.padded (h : WholeWords s) : Padded s := fun i hi hdiv => by
  have hw := h.whole
  have hp := h.pos
  exact absurd hdiv (by omega)

theorem WholeWords.inWords_lt (h : WholeWords s) {reads : List ℕ} (hr : InWords s reads) :
    ∀ b ∈ reads, b < bitmapSize s.numOfPages := by
  intro b hb
  obtain ⟨page, hp, hmem⟩ := hr b hb
  obtain ⟨i, hi, rfl⟩ := List.mem_map.mp hmem
  have hi' := List.mem_range.mp hi
  have hw := h.whole
  unfold pmmGetDword bitmapSize
  rw [Nat.shiftRight_eq_div_pow]
  omega

/-- **`pmm_alloc` with no free page.** -/
theorem pmmAlloc_full (h : WholeWords s) (hlast : s.lastAlloc < s.numOfPages)
    (hfull : ∀ i < s.numOfPages, getBit s.memBitmap i = true) :
    ∃ reads, pmmAlloc s = some (0, { s with lastAlloc := bit32Max }, reads) ∧
      ∀ b ∈ reads, b < bitmapSize s.numOfPages := by
  obtain ⟨reads, hrun, hreads⟩ := pmmSearchFreePage_full h.padded h.le hlast hfull
  exact ⟨reads, by simp [pmmAlloc, hrun], h.inWords_lt hreads⟩

/-- **`pmm_alloc` with a free page.** -/
theorem pmmAlloc_free (h : WholeWords s) (hlast : s.lastAlloc < s.numOfPages) {page : ℕ}
    (hpage : page < s.numOfPages) (hfree : getBit s.memBitmap page = false) :
    ∃ i reads, pmmAlloc s = some (i * pageFrameSize,
        { s with lastAlloc := i, memBitmap := setBit s.memBitmap i }, reads) ∧
      i < s.numOfPages ∧ getBit s.memBitmap i = false ∧ ∀ b ∈ reads, b < bitmapSize s.numOfPages := by
  obtain ⟨i, reads, hrun, hi, hclear, hreads⟩ := pmmSearchFreePage_free h.le hlast hpage hfree
  have hle := h.le
  have hmax : i ≠ bit32Max := by unfold bit32Max; omega
  have haddr : u32 (i * pageFrameSize) = i * pageFrameSize :=
    u32_of_lt (by unfold pageFrameSize; omega)
  exact ⟨i, reads, by simp [pmmAlloc, hrun, hmax, haddr], hi, hclear, h.inWords_lt hreads⟩

/-! ## Any call -/

theorem pmmAdd_lt {n value next : ℕ} (h : pmmAdd n last value = some next) : next < n := by
  unfold pmmAdd at h
  by_cases hn : n = 0
  · rw [if_pos hn] at h
    cases h
  · rw [if_neg hn, Option.some.injEq] at h
    rw [← h]
    exact Nat.mod_lt _ (Nat.pos_of_ne_zero hn)

theorem pmmSearchDword_range {found : ℕ} {reads : List ℕ}
    (h : pmmSearchDword s start fuel last = some (some found, reads)) : found = last ∨ found < s.numOfPages := by
  induction fuel generalizing last reads with
  | zero => cases h
  | succ fuel ih =>
    by_cases hfull : FullDword s last
    · obtain ⟨next, hadd, h⟩ := Option.bind_eq_some_iff.mp ((if_pos hfull).symm.trans h)
      by_cases hback : next = start
      · rw [if_pos hback] at h
        cases h
      · rw [if_neg hback] at h
        obtain ⟨⟨r, reads'⟩, hrec, h⟩ := Option.bind_eq_some_iff.mp h
        cases h
        rcases ih hrec with rfl | hlt
        · exact .inr (pmmAdd_lt hadd)
        · exact .inr hlt
    · rw [pmmSearchDword_stop hfull] at h
      cases h
      exact .inl rfl

theorem pmmSearchBit_range {found : ℕ} {reads : List ℕ} (h : pmmSearchBit s fuel last = some (found, reads)) :
    getBit s.memBitmap found = false ∧ (found = last ∨ found < s.numOfPages) := by
  induction fuel generalizing last reads with
  | zero => cases h
  | succ fuel ih =>
    rw [pmmSearchBit] at h
    by_cases hset : getBit s.memBitmap last = true
    · rw [if_pos hset] at h
      obtain ⟨next, hadd, h⟩ := Option.bind_eq_some_iff.mp h
      obtain ⟨⟨r, reads'⟩, hrec, h⟩ := Option.bind_eq_some_iff.mp h
      cases h
      obtain ⟨hclear, rfl | hlt⟩ := ih hrec
      · exact ⟨hclear, .inr (pmmAdd_lt hadd)⟩
      · exact ⟨hclear, .inr hlt⟩
    · rw [if_neg hset] at h
      cases h
      exact ⟨Bool.eq_false_of_not_eq_true hset, .inl rfl⟩

/-- `last_alloc` is a page, or what a failed search leaves. -/
def LastOk (s : PmmState) : Prop := s.lastAlloc < s.numOfPages ∨ s.lastAlloc = bit32Max

/-- **Any call of `pmm_alloc` that returns**: a page that was free, or `NULL` and the bitmap as it was. -/
theorem pmmAlloc_spec (hle : s.numOfPages ≤ 2 ^ 20) (hlast : LastOk s) {ptr : ℕ} {reads : List ℕ}
    (h : pmmAlloc s = some (ptr, s', reads)) : s'.numOfPages = s.numOfPages ∧ LastOk s' ∧
      (ptr = 0 ∧ s'.memBitmap = s.memBitmap ∨ ∃ i < s.numOfPages, ptr = i * pageFrameSize ∧
        getBit s.memBitmap i = false ∧ s'.memBitmap = setBit s.memBitmap i) := by
  obtain ⟨⟨found, reads₁⟩, hsearch, h⟩ := Option.bind_eq_some_iff.mp h
  dsimp only at h
  by_cases hmax : found = bit32Max
  · rw [if_pos hmax] at h
    cases h
    exact ⟨rfl, .inr hmax, .inl ⟨rfl, rfl⟩⟩
  · rw [if_neg hmax] at h
    cases h
    obtain ⟨⟨next, reads₂⟩, hdword, hsearch⟩ := Option.bind_eq_some_iff.mp hsearch
    cases next with
    | none =>
      cases hsearch
      exact absurd rfl hmax
    | some page =>
      obtain ⟨⟨_, reads₃⟩, hbit, hsearch⟩ := Option.bind_eq_some_iff.mp hsearch
      cases hsearch
      obtain ⟨hclear, hrange⟩ := pmmSearchBit_range hbit
      have hi : found < s.numOfPages := by
        have hpage := pmmSearchDword_range hdword
        unfold LastOk at hlast
        omega
      refine ⟨rfl, .inl hi, .inr ⟨found, hi, u32_of_lt ?_, hclear, rfl⟩⟩
      unfold pageFrameSize
      omega

/-! ## Runs -/

/-- The allocator and the pages handed out and not yet freed. -/
structure PmmCfg where
  pmm : PmmState
  live : List ℕ

inductive PmmOp
  | alloc
  | free (page : ℕ)
  deriving DecidableEq

/-- Only pages handed out are freed. -/
def PmmOp.Legal (c : PmmCfg) : PmmOp → Prop
  | .alloc => True
  | .free page => page ∈ c.live

instance (c : PmmCfg) (op : PmmOp) : Decidable (op.Legal c) := by
  cases op <;> unfold PmmOp.Legal <;> infer_instance

def pmmStep (c : PmmCfg) : PmmOp → Option PmmCfg
  | .alloc => do
    let (ptr, s, _) ← pmmAlloc c.pmm
    return ⟨s, if ptr = 0 then c.live else ptr :: c.live⟩
  | .free page => some ⟨pmmFree c.pmm page, c.live.erase page⟩

/-- A legal call and the state it returns in. -/
def PmmMove (c : PmmCfg) (op : PmmOp) (c' : PmmCfg) : Prop := op.Legal c ∧ pmmStep c op = some c'

/-- What `pmm_alloc` owes its caller: it returns, it reads only the bitmap, and it returns `NULL` only
when every page is used, or else a page that was free, which is then the only one it marks used. -/
def AllocOk (s : PmmState) : Prop :=
  ∃ ptr s' reads, pmmAlloc s = some (ptr, s', reads) ∧ (∀ b ∈ reads, b < bitmapSize s.numOfPages) ∧
    (ptr = 0 → ∀ i < s.numOfPages, getBit s.memBitmap i = true) ∧
    (ptr ≠ 0 → ∃ i < s.numOfPages, ptr = i * pageFrameSize ∧ getBit s.memBitmap i = false ∧
      ∀ j, getBit s'.memBitmap j = (decide (i = j) || getBit s.memBitmap j))

/-- Page 0 is never free, and the pages handed out are not page 0. -/
structure PmmInv (c : PmmCfg) : Prop where
  words : WholeWords c.pmm
  last : c.pmm.lastAlloc < c.pmm.numOfPages ∨ c.pmm.lastAlloc = bit32Max
  zero : getBit c.pmm.memBitmap 0 = true
  live : ∀ p ∈ c.live, ∃ i, 0 < i ∧ i < c.pmm.numOfPages ∧ p = i * pageFrameSize

variable {c c' : PmmCfg}

theorem PmmInv.exists_pos (h : PmmInv c) {i : ℕ} (hi : getBit c.pmm.memBitmap i = false) : 0 < i := by
  refine Nat.pos_of_ne_zero fun h₀ => ?_
  rw [h₀, h.zero] at hi
  cases hi

theorem PmmInv.allocOk (h : PmmInv c) (hlast : c.pmm.lastAlloc ≠ bit32Max) : AllocOk c.pmm := by
  have hlt := h.last.resolve_right hlast
  by_cases hfull : ∀ i < c.pmm.numOfPages, getBit c.pmm.memBitmap i = true
  · obtain ⟨reads, hrun, hreads⟩ := pmmAlloc_full h.words hlt hfull
    exact ⟨_, _, reads, hrun, hreads, fun _ => hfull, fun hne => absurd rfl hne⟩
  · push Not at hfull
    obtain ⟨page, hpage, hfree⟩ := hfull
    obtain ⟨i, reads, hrun, hi, hclear, hreads⟩ :=
      pmmAlloc_free h.words hlt hpage (Bool.eq_false_of_not_eq_true hfree)
    have hpos := h.exists_pos hclear
    refine ⟨_, _, reads, hrun, hreads, fun h₀ => ?_, fun _ => ⟨i, hi, rfl, hclear, fun j => ?_⟩⟩
    · unfold pageFrameSize at h₀
      omega
    · exact getBit_setBit _ i j

theorem PmmInv.alloc (h : PmmInv c) (hlast : c.pmm.lastAlloc ≠ bit32Max)
    (hs : pmmStep c .alloc = some c') : PmmInv c' := by
  have hlt := h.last.resolve_right hlast
  by_cases hfull : ∀ i < c.pmm.numOfPages, getBit c.pmm.memBitmap i = true
  · obtain ⟨reads, hrun, _⟩ := pmmAlloc_full h.words hlt hfull
    simp only [pmmStep, hrun, Option.bind_eq_bind, Option.bind_some, Option.pure_def,
      Option.some.injEq] at hs
    subst hs
    exact ⟨⟨h.words.pos, h.words.le, h.words.whole⟩, .inr rfl, h.zero, h.live⟩
  · push Not at hfull
    obtain ⟨page, hpage, hfree⟩ := hfull
    obtain ⟨i, reads, hrun, hi, hclear, _⟩ :=
      pmmAlloc_free h.words hlt hpage (Bool.eq_false_of_not_eq_true hfree)
    have hpos := h.exists_pos hclear
    have hptr : i * pageFrameSize ≠ 0 := by unfold pageFrameSize; omega
    simp only [pmmStep, hrun, Option.bind_eq_bind, Option.bind_some, Option.pure_def,
      Option.some.injEq, if_neg hptr] at hs
    subst hs
    refine ⟨⟨h.words.pos, h.words.le, h.words.whole⟩, .inl hi, ?_, fun p hp => ?_⟩
    · rw [getBit_setBit, h.zero, Bool.or_true]
    · rcases List.mem_cons.mp hp with rfl | hp
      · exact ⟨i, hpos, hi, rfl⟩
      · exact h.live p hp

theorem PmmInv.free (h : PmmInv c) {page : ℕ} (hp : page ∈ c.live)
    (hs : pmmStep c (.free page) = some c') : PmmInv c' := by
  obtain ⟨i, hpos, hi, rfl⟩ := h.live page hp
  simp only [pmmStep, Option.some.injEq] at hs
  subst hs
  have hdiv : i * pageFrameSize / pageFrameSize = i := Nat.mul_div_cancel i (by decide)
  refine ⟨⟨h.words.pos, h.words.le, h.words.whole⟩, h.last, ?_, fun p hp => ?_⟩
  · unfold pmmFree
    rw [hdiv, getBit_clearBit, h.zero, decide_eq_false (by omega)]
    rfl
  · exact h.live p (List.mem_of_mem_erase hp)

theorem lastAlloc_pmmInit {info : MultibootInfo} {kernelStart kernelEnd : ℕ} {mem : Mem}
    (h : pmmInit info kernelStart kernelEnd mem = some s) : s.lastAlloc = 0 := by
  simp only [pmmInit, Option.bind_eq_bind, Option.pure_def, Option.bind_eq_some_iff,
    Option.some.injEq] at h
  obtain ⟨_, _, _, _, _, _, rfl⟩ := h
  rfl

/-- **The allocator over whole runs.** From every state `pmm_init` leaves with a free page, with whole
words in the bitmap and page 0 used, as long as nothing is allocated after a `NULL`. -/
theorem pmmAlloc_ok_of_run {info : MultibootInfo} {kernelStart kernelEnd : ℕ} {mem : Mem}
    {s₀ : PmmState} (hboot : pmmInit info kernelStart kernelEnd mem = some s₀)
    (hfree : ∃ i < s₀.numOfPages, getBit s₀.memBitmap i = false)
    (hwhole : s₀.numOfPages % 32 = 0) (hle : s₀.numOfPages ≤ 2 ^ 20)
    (hzero : getBit s₀.memBitmap 0 = true) {ops : List PmmOp} {c : PmmCfg} (h : Run
      (fun c op c' => PmmMove c op c' ∧ (op = .alloc → c.pmm.lastAlloc ≠ bit32Max)) ⟨s₀, []⟩ ops c)
    (hnext : c.pmm.lastAlloc ≠ bit32Max) : AllocOk c.pmm := by
  obtain ⟨i, hi, _⟩ := hfree
  have hpos : 0 < s₀.numOfPages := by omega
  have hlast : s₀.lastAlloc < s₀.numOfPages := by rwa [lastAlloc_pmmInit hboot]
  have hinv : PmmInv c := by
    refine h.invariant ?_ ⟨⟨hpos, hle, hwhole⟩, .inl hlast, hzero, List.forall_mem_nil _⟩
    rintro c op c' hc ⟨⟨hop, hs⟩, hcond⟩
    cases op with
    | alloc => exact hc.alloc (hcond rfl) hs
    | free page => exact hc.free hop hs
  exact hinv.allocOk hnext

/-- Perform the calls in order; `none` if one is not legal or does not return. -/
def pmmExec (c : PmmCfg) (ops : List PmmOp) : Option PmmCfg :=
  ops.foldlM (fun c op => if op.Legal c then pmmStep c op else none) c

theorem run_of_pmmExec {ops : List PmmOp} (h : pmmExec c ops = some c') : Run PmmMove c ops c' := by
  refine run_of_foldlM (fun c op c' e => ?_) h
  by_cases hop : op.Legal c
  · rw [if_pos hop] at e; exact ⟨hop, e⟩
  · rw [if_neg hop] at e; cases e

/-- 288 pages, of which the last two are free after boot. -/
def demoInfo : MultibootInfo := ⟨65, 128, 24, fun _ => ⟨0x11E000, 0, 0, 0, 1⟩⟩

/-- The allocator that `pmm_init` sets up for `demoInfo`. -/
def demoBoot : Option PmmState := pmmInit demoInfo 0x100000 0xC0110000 fun _ => 0

theorem pmmAlloc_ok_of_run_demo : ∃ s₀ c, demoBoot = some s₀ ∧ PmmMove ⟨s₀, []⟩ .alloc c ∧
    AllocOk c.pmm := by
  have hboot : demoBoot.map (fun s => (s.numOfPages, s.lastAlloc, getBit s.memBitmap 0,
      getBit s.memBitmap 287)) = some (288, 0, true, false) := by decide +kernel
  have hstep : (demoBoot.bind fun s => (pmmStep ⟨s, []⟩ .alloc).map fun c => c.pmm.lastAlloc) =
      some 286 := by decide +kernel
  obtain ⟨s₀, hs₀, hv⟩ := Option.map_eq_some_iff.mp hboot
  simp only [Prod.mk.injEq] at hv
  rw [hs₀, Option.bind_some] at hstep
  obtain ⟨c, hc, hlast⟩ := Option.map_eq_some_iff.mp hstep
  have hmove : PmmMove ⟨s₀, []⟩ .alloc c := ⟨trivial, hc⟩
  refine ⟨s₀, c, hs₀, hmove, pmmAlloc_ok_of_run hs₀ ⟨287, by omega, hv.2.2.2⟩ (by rw [hv.1])
    (by rw [hv.1]; decide) hv.2.2.1 (.single ⟨hmove, fun _ => ?_⟩) ?_⟩
  · change s₀.lastAlloc ≠ bit32Max
    rw [hv.2.1]
    decide
  · rw [hlast]
    decide

/-- **After a `NULL`** the search starts outside the bitmap: a page has been freed since, and
`pmm_alloc` returns `NULL` again. -/
theorem pmmAlloc_after_null : ∃ s₀ c, demoBoot = some s₀ ∧
    (∃ i < s₀.numOfPages, getBit s₀.memBitmap i = false) ∧
    Run PmmMove ⟨s₀, []⟩ [.alloc, .alloc, .alloc, .free (286 * pageFrameSize)] c ∧ ¬ AllocOk c.pmm := by
  have hboot : demoBoot.map (fun s => (s.numOfPages, getBit s.memBitmap 287)) = some (288, false) := by
    decide +kernel
  have hrun : (demoBoot.bind fun s => (pmmExec ⟨s, []⟩
      [.alloc, .alloc, .alloc, .free (286 * pageFrameSize)]).map fun c => (c.pmm.numOfPages,
        getBit c.pmm.memBitmap 286, (pmmAlloc c.pmm).map Prod.fst)) = some (288, false, some 0) := by
    decide +kernel
  obtain ⟨s₀, hs₀, hv⟩ := Option.map_eq_some_iff.mp hboot
  simp only [Prod.mk.injEq] at hv
  rw [hs₀, Option.bind_some] at hrun
  obtain ⟨c, hc, hw⟩ := Option.map_eq_some_iff.mp hrun
  simp only [Prod.mk.injEq] at hw
  refine ⟨s₀, c, hs₀, ⟨287, by omega, hv.2⟩, run_of_pmmExec hc, ?_⟩
  rintro ⟨ptr, s', reads, halloc, -, hnull, -⟩
  rw [halloc, Option.map_some, Option.some.injEq] at hw
  have hset := hnull hw.2.2 286 (by omega)
  rw [hw.2.1] at hset
  cases hset

end BulbOS.Pmm
