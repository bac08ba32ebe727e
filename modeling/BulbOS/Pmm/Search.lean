import BulbOS.Lib.Stride
import BulbOS.Pmm.Model

/-!
# The search for a free page

The first loop goes around the pages in steps of 32, and the number of pages need not be a multiple of 32.

* `pmmSearchDword_found`, `pmmSearchDword_none`, `pmmSearchBit_found`: where the two loops stop;
* `exists_scanPos`: every word is visited before the first loop is back at its start;
* `Padded`: the bits behind the last page are set in its word;
* `pmmSearchFreePage_free`, `pmmSearchFreePage_full`: what the search returns;
* **`pmm_search_covers`**: it finds a free page if there is one.
-/

namespace BulbOS.Pmm

open KLib

variable {s : PmmState} {start k d fuel last : ℕ}

/-! ## The search -/

/-- The index the first loop is at after `k` rounds. -/
def scanPos (n start k : ℕ) : ℕ := (start + 32 * k) % n

/-- The word of a page has no free page. -/
def FullDword (s : PmmState) (page : ℕ) : Prop := load32 s.memBitmap (pmmGetDword page) = bit32Max

theorem pmmAdd_eq {n value : ℕ} (hn : 0 < n) (hlt : last + value < 2 ^ 32) :
    pmmAdd n last value = some ((last + value) % n) := by
  rw [pmmAdd, if_neg (by omega), u32_of_lt hlt]

theorem pmmAdd_scanPos {n : ℕ} (hn : 0 < n) (hle : n ≤ 2 ^ 20) :
    pmmAdd n (scanPos n start k) 32 = some (scanPos n start (k + 1)) := by
  have hlt : scanPos n start k < n := Nat.mod_lt _ hn
  rw [pmmAdd_eq hn (by omega)]
  unfold scanPos
  rw [Nat.mod_add_mod, Nat.mul_succ, Nat.add_assoc]

theorem pmmSearchDword_stop (h : ¬ FullDword s last) :
    pmmSearchDword s start (fuel + 1) last = some (some last, dwordBytes last) :=
  if_neg h

theorem pmmSearchDword_next (h : FullDword s last) {next : ℕ}
    (hadd : pmmAdd s.numOfPages last 32 = some next) (hne : next ≠ start) {r : Option ℕ} {reads : List ℕ}
    (hrun : pmmSearchDword s start fuel next = some (r, reads)) :
    pmmSearchDword s start (fuel + 1) last = some (r, dwordBytes last ++ reads) := by
  refine (if_pos h).trans ?_
  simp [hadd, hne, hrun]

theorem pmmSearchDword_back (h : FullDword s last) (hadd : pmmAdd s.numOfPages last 32 = some start) :
    pmmSearchDword s start (fuel + 1) last = some (none, dwordBytes last) := by
  refine (if_pos h).trans ?_
  simp [hadd]

/-- The bytes of words of the bitmap. -/
def InWords (s : PmmState) (reads : List ℕ) : Prop :=
  ∀ b ∈ reads, ∃ page < s.numOfPages, b ∈ dwordBytes page

theorem inWords_scanPos (hn : 0 < s.numOfPages) :
    InWords s (dwordBytes (scanPos s.numOfPages start k)) :=
  fun _ hb => ⟨_, Nat.mod_lt _ hn, hb⟩

theorem InWords.append {l l' : List ℕ} (h : InWords s l) (h' : InWords s l') : InWords s (l ++ l') := by
  intro b hb
  rcases List.mem_append.mp hb with hb | hb
  · exact h b hb
  · exact h' b hb

theorem div_mem_dwordBytes (page : ℕ) : page / 8 ∈ dwordBytes page :=
  List.mem_map.mpr ⟨page % 32 / 8, List.mem_range.mpr (by omega), by unfold pmmGetDword; omega⟩

theorem pmmSearchDword_found (hn : 0 < s.numOfPages) (hle : s.numOfPages ≤ 2 ^ 20)
    (hfull : ∀ e < d, FullDword s (scanPos s.numOfPages start (k + e)))
    (hstop : ¬ FullDword s (scanPos s.numOfPages start (k + d)))
    (hne : ∀ e < d, scanPos s.numOfPages start (k + e + 1) ≠ start) (hfuel : d < fuel) :
    ∃ reads, pmmSearchDword s start fuel (scanPos s.numOfPages start k) =
      some (some (scanPos s.numOfPages start (k + d)), reads) ∧ InWords s reads := by
  induction d generalizing k fuel with
  | zero =>
    obtain ⟨fuel, rfl⟩ := Nat.exists_eq_succ_of_ne_zero (by omega : fuel ≠ 0)
    exact ⟨_, pmmSearchDword_stop hstop, inWords_scanPos hn⟩
  | succ d ih =>
    obtain ⟨fuel, rfl⟩ := Nat.exists_eq_succ_of_ne_zero (by omega : fuel ≠ 0)
    have hshift : ∀ e, k + 1 + e = k + (e + 1) := fun e => by omega
    obtain ⟨reads, hrun, hreads⟩ := ih (k := k + 1)
      (fun e he => by rw [hshift]; exact hfull (e + 1) (by omega)) (by rwa [hshift])
      (fun e he => by rw [hshift]; exact hne (e + 1) (by omega)) (show d < fuel by omega)
    rw [hshift] at hrun
    exact ⟨_, pmmSearchDword_next (hfull 0 (by omega)) (pmmAdd_scanPos hn hle) (hne 0 (by omega)) hrun,
      (inWords_scanPos hn).append hreads⟩

theorem pmmSearchDword_none (hn : 0 < s.numOfPages) (hle : s.numOfPages ≤ 2 ^ 20)
    (hfull : ∀ e ≤ d, FullDword s (scanPos s.numOfPages start (k + e)))
    (hne : ∀ e < d, scanPos s.numOfPages start (k + e + 1) ≠ start)
    (hback : scanPos s.numOfPages start (k + d + 1) = start) (hfuel : d < fuel) :
    ∃ reads, pmmSearchDword s start fuel (scanPos s.numOfPages start k) = some (none, reads) ∧
      InWords s reads := by
  induction d generalizing k fuel with
  | zero =>
    obtain ⟨fuel, rfl⟩ := Nat.exists_eq_succ_of_ne_zero (by omega : fuel ≠ 0)
    refine ⟨_, pmmSearchDword_back (hfull 0 le_rfl) ?_, inWords_scanPos hn⟩
    exact (pmmAdd_scanPos hn hle).trans (congrArg some hback)
  | succ d ih =>
    obtain ⟨fuel, rfl⟩ := Nat.exists_eq_succ_of_ne_zero (by omega : fuel ≠ 0)
    have hshift : ∀ e, k + 1 + e = k + (e + 1) := fun e => by omega
    obtain ⟨reads, hrun, hreads⟩ := ih (k := k + 1)
      (fun e he => by rw [hshift]; exact hfull (e + 1) (by omega))
      (fun e he => by rw [hshift]; exact hne (e + 1) (by omega)) (by rwa [hshift])
      (show d < fuel by omega)
    exact ⟨_, pmmSearchDword_next (hfull 0 (by omega)) (pmmAdd_scanPos hn hle) (hne 0 (by omega)) hrun,
      (inWords_scanPos hn).append hreads⟩

theorem pmmSearchBit_found (hn : 0 < s.numOfPages) (hle : s.numOfPages ≤ 2 ^ 20)
    (hset : ∀ e < d, getBit s.memBitmap ((last + e) % s.numOfPages) = true)
    (hclear : getBit s.memBitmap ((last + d) % s.numOfPages) = false) (hfuel : d < fuel) :
    ∃ reads, pmmSearchBit s fuel (last % s.numOfPages) = some ((last + d) % s.numOfPages, reads) ∧
      ∀ b ∈ reads, ∃ page < s.numOfPages, b = page / 8 := by
  induction d generalizing last fuel with
  | zero =>
    obtain ⟨fuel, rfl⟩ := Nat.exists_eq_succ_of_ne_zero (by omega : fuel ≠ 0)
    rw [Nat.add_zero] at hclear ⊢
    refine ⟨[last % s.numOfPages / 8], by simp [pmmSearchBit, hclear], fun b hb => ?_⟩
    exact ⟨_, Nat.mod_lt _ hn, List.mem_singleton.mp hb⟩
  | succ d ih =>
    obtain ⟨fuel, rfl⟩ := Nat.exists_eq_succ_of_ne_zero (by omega : fuel ≠ 0)
    have hshift : ∀ e, last + 1 + e = last + (e + 1) := fun e => by omega
    obtain ⟨reads, hrun, hreads⟩ := @ih fuel (last + 1)
      (fun e he => by rw [hshift]; exact hset (e + 1) (by omega)) (by rwa [hshift]) (by omega)
    have hfst : getBit s.memBitmap (last % s.numOfPages) = true := hset 0 (by omega)
    have hlt := Nat.mod_lt last hn
    rw [hshift] at hrun
    refine ⟨last % s.numOfPages / 8 :: reads, ?_, fun b hb => ?_⟩
    · rw [pmmSearchBit, if_pos hfst, pmmAdd_eq hn (by omega), Nat.mod_add_mod]
      simp [hrun]
    · rcases List.mem_cons.mp hb with rfl | hb
      · exact ⟨_, hlt, rfl⟩
      · exact hreads b hb

/-! ## The whole search -/

theorem fullDword_iff {page : ℕ} :
    FullDword s page ↔ ∀ j < 32, getBit s.memBitmap (32 * (page / 32) + j) = true := by
  unfold FullDword pmmGetDword bit32Max
  rw [load32_eq_max_iff, show 8 * (4 * (page / 32)) = 32 * (page / 32) by omega]

/-- **Every word is visited** before the first loop is back at `start`, after at most as many rounds as there are
pages. -/
theorem exists_scanPos (hstart : start < s.numOfPages) : ∃ p, 0 < p ∧ p ≤ s.numOfPages ∧
    scanPos s.numOfPages start p = start ∧ (∀ e, 0 < e → e < p → scanPos s.numOfPages start e ≠ start) ∧
    ∀ page < s.numOfPages, ∃ d < p, scanPos s.numOfPages start d / 32 = page / 32 := by
  obtain ⟨p, hp, hle, hback, hne⟩ := exists_period (c := 32) hstart
  exact ⟨p, hp, hle, hback, hne, fun page hpage => exists_stride_block (by decide) hp hback hpage⟩

/-- The bits behind the last page are set in its word. -/
def Padded (s : PmmState) : Prop :=
  ∀ i, s.numOfPages ≤ i → i / 32 = (s.numOfPages - 1) / 32 → getBit s.memBitmap i = true

theorem Padded.fullDword (h : Padded s) (hfull : ∀ i < s.numOfPages, getBit s.memBitmap i = true) {page : ℕ}
    (hpage : page < s.numOfPages) : FullDword s page := by
  refine fullDword_iff.mpr fun j hj => ?_
  rcases Nat.lt_or_ge (32 * (page / 32) + j) s.numOfPages with hlt | hge
  · exact hfull _ hlt
  · exact h _ hge (by omega)

/-- **The search with no free page.** -/
theorem pmmSearchFreePage_full (h : Padded s) (hle : s.numOfPages ≤ 2 ^ 20) (hlast : last < s.numOfPages)
    (hfull : ∀ i < s.numOfPages, getBit s.memBitmap i = true) :
    ∃ reads, pmmSearchFreePage s last = some (bit32Max, reads) ∧ InWords s reads := by
  have hn : 0 < s.numOfPages := by omega
  obtain ⟨p, hp, hpn, hback, hne, -⟩ := exists_scanPos hlast
  obtain ⟨d, rfl⟩ : ∃ d, p = d + 1 := ⟨p - 1, by omega⟩
  obtain ⟨reads, hrun, hreads⟩ := pmmSearchDword_none (k := 0) (d := d) hn hle
    (fun e _ => h.fullDword hfull (stride_lt hn 32 last (0 + e))) (fun e he => hne (0 + e + 1) (by omega) (by omega))
    (by rw [Nat.zero_add]; exact hback) (show d < s.numOfPages + 2 by omega)
  rw [show scanPos s.numOfPages last 0 = last from stride_zero hlast] at hrun
  exact ⟨reads, by simp [pmmSearchFreePage, hrun], hreads⟩

/-- **The search with a free page.** The second loop may leave the word that the first one found. -/
theorem pmmSearchFreePage_free (hle : s.numOfPages ≤ 2 ^ 20) (hlast : last < s.numOfPages) {page : ℕ}
    (hpage : page < s.numOfPages) (hfree : getBit s.memBitmap page = false) :
    ∃ i reads, pmmSearchFreePage s last = some (i, reads) ∧ i < s.numOfPages ∧ getBit s.memBitmap i = false ∧
      InWords s reads := by
  have hn : 0 < s.numOfPages := by omega
  obtain ⟨p, -, hpn, -, hne, hvisit⟩ := exists_scanPos hlast
  -- the first loop stops at the word of the page, or before
  obtain ⟨d, hd, hpos⟩ := hvisit page hpage
  have hopen : ¬ FullDword s (scanPos s.numOfPages last d) := fun hc => by
    have := fullDword_iff.mp hc (page % 32) (by omega)
    rw [hpos, Nat.div_add_mod, hfree] at this
    cases this
  obtain ⟨e, hed, hstop, hbefore⟩ := exists_first
    (p := fun d => ¬ FullDword s (scanPos s.numOfPages last d)) hopen
  obtain ⟨reads, hrun, hreads⟩ := pmmSearchDword_found (k := 0) hn hle
    (fun f hf => by rw [Nat.zero_add]; exact not_not.mp (hbefore f hf)) (by rwa [Nat.zero_add])
    (fun f hf => hne (0 + f + 1) (by omega) (by omega)) (show e < s.numOfPages + 2 by omega)
  rw [show scanPos s.numOfPages last 0 = last from stride_zero hlast, Nat.zero_add] at hrun
  -- and the second one at the page, or before
  set q := scanPos s.numOfPages last e with hq
  have hqlt : q < s.numOfPages := Nat.mod_lt _ hn
  obtain ⟨d₂, hd₂, hpos₂⟩ := exists_offset hn q hpage
  obtain ⟨e₂, hle₂, hclear, hset⟩ := exists_first
    (p := fun d => getBit s.memBitmap ((q + d) % s.numOfPages) = false) (hpos₂ ▸ hfree)
  obtain ⟨reads', hrun', hreads'⟩ := pmmSearchBit_found hn hle
    (fun f hf => Bool.eq_true_of_not_eq_false (hset f hf)) hclear (show e₂ < s.numOfPages + 2 by omega)
  rw [Nat.mod_eq_of_lt hqlt] at hrun'
  refine ⟨(q + e₂) % s.numOfPages, reads ++ reads', ?_, Nat.mod_lt _ hn, hclear, hreads.append fun b hb => ?_⟩
  · simp [pmmSearchFreePage, hrun, hrun']
  · obtain ⟨i, hi, rfl⟩ := hreads' b hb
    exact ⟨i, hi, div_mem_dwordBytes i⟩

variable (s last) in
/-- **The search covers every page.** -/
theorem pmm_search_covers (hle : s.numOfPages ≤ 2 ^ 20) (hlast : last < s.numOfPages) (hpad : Padded s) :
    ∃ i reads, pmmSearchFreePage s last = some (i, reads) ∧
      (i = bit32Max ↔ ∀ j < s.numOfPages, getBit s.memBitmap j = true) ∧
      (i ≠ bit32Max → i < s.numOfPages ∧ getBit s.memBitmap i = false) := by
  by_cases hfull : ∀ j < s.numOfPages, getBit s.memBitmap j = true
  · obtain ⟨reads, hrun, -⟩ := pmmSearchFreePage_full hpad hle hlast hfull
    exact ⟨_, reads, hrun, iff_of_true rfl hfull, fun h => absurd rfl h⟩
  · obtain ⟨page, hpage, hfree⟩ : ∃ page < s.numOfPages, ¬ getBit s.memBitmap page = true := by
      push Not at hfull
      simpa using hfull
    obtain ⟨i, reads, hrun, hi, hclear, -⟩ :=
      pmmSearchFreePage_free hle hlast hpage (Bool.eq_false_of_not_eq_true hfree)
    refine ⟨i, reads, hrun, iff_of_false ?_ hfull, fun _ => ⟨hi, hclear⟩⟩
    unfold bit32Max
    omega

/-- 40 pages, the last of them free; the search starts at page 5. -/
theorem pmm_search_covers_forty : ∃ i reads,
    pmmSearchFreePage ⟨fun b => if b = 4 then 0x7F else 0xFF, 40, 0⟩ 5 = some (i, reads) ∧
      (i = bit32Max ↔ ∀ j < 40, getBit (fun b => if b = 4 then 0x7F else 0xFF) j = true) ∧
      (i ≠ bit32Max → i < 40 ∧ getBit (fun b => if b = 4 then 0x7F else 0xFF) i = false) :=
  pmm_search_covers ⟨fun b => if b = 4 then 0x7F else 0xFF, 40, 0⟩ 5 (by decide) (by decide) fun i hi hdiv => by
    have hbyte : i / 8 ≠ 4 := by
      dsimp only at hi
      omega
    have hones : ∀ j < 8, Nat.testBit 255 j = true := by decide
    simpa [getBit, hbyte] using hones (i % 8) (Nat.mod_lt i (by decide))

end BulbOS.Pmm
