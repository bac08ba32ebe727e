import BulbOS.Page.Identity

/-!
# The neighbours of an identity mapping

The last index of a piece is that of its exclusive end. When the end is on a page boundary, the page behind the
range is written too. A range that reaches the recursive slot writes the directory itself, from the entry at the
index of its start on.

* `KeepsOthers`: the entries of all other pages are kept;
* `Near`: the invariant of the loop, with the tables that had to be put into frame 0;
* **`keepsOthers_iff`**: the ranges with no such end that do not reach the entries of other tables.
-/

namespace BulbOS.Page

open KLib Pmm

variable {s s₀ s₁ s' : Paging} {a d k addr size page E : ℕ}

/-- The page at `RECURSIVE_INDEX` of a table of the range that has to be created. -/
def NewSlot (s : Paging) (addr size page : ℕ) : Prop :=
  ∃ d, page = slotPage d ∧ ¬ Present (s.pdEntry d) ∧ addr / 2 ^ 22 ≤ d ∧ d * 2 ^ 22 < addr + size

/-- Every page outside the range keeps its entry, in every directory. Where a table is created, the entry of the
page that is its window is the new entry of the directory. -/
def KeepsOthers (addr size : ℕ) : Prop := ∀ s, Ok s → ¬ Stuck s.pmm → ∃ s', pageIdentityMap s addr size = some s' ∧
  ∀ page < 2 ^ 20, ¬ Meets addr size page → pte s' page = pte s page ∨ NewSlot s addr size page

/-- What is kept up to table `k`. -/
structure Near (s₀ : Paging) (addr size k : ℕ) (s : Paging) : Prop where
  ok : TablesOk s
  entries : ∀ d < 1024, s.pdEntry d = s₀.pdEntry d ∨ ¬ Present (s₀.pdEntry d) ∧ addr / 2 ^ 22 ≤ d ∧ d < k
  keep : ∀ page < 2 ^ 20, ¬ Meets addr size page → pte s page = pte s₀ page ∨ NewSlot s₀ addr size page

theorem Near.zero (h : Near s₀ addr size k s) (h₀ : Ok s₀) (hd : d < 1024) (hp : Present (s.pdEntry d))
    (hz : s.base d = 0) : ¬ Present (s₀.pdEntry d) ∧ addr / 2 ^ 22 ≤ d ∧ d < k := by
  refine (h.entries d hd).resolve_left fun heq => h₀.base_ne d hd (heq ▸ hp) ?_
  rw [Paging.base, ← heq]
  exact hz

theorem Near.gets (h : Near s₀ addr size (a / 2 ^ 22) s) (h₀ : Ok s₀) (ha : addr ≤ a) (hlt : a < addr + size)
    (hE : addr + size < 2 ^ 32) (hg : Gets s (a / 2 ^ 22) s₁) : Near s₀ addr size (a / 2 ^ 22 + 1) s₁ := by
  have hok := hg.ok h.ok
  cases hg with
  | present hp =>
    exact ⟨hok, fun d hd => (h.entries d hd).imp_right fun ⟨hp, hle, hlt⟩ => ⟨hp, hle, by omega⟩, h.keep⟩
  | absent hp halloc =>
    have hentry := (h.entries (a / 2 ^ 22) (by omega)).resolve_right fun hc => by omega
    refine ⟨hok, fun d hd => ?_, fun page hpage hout => ?_⟩
    · rw [pdEntry_addTable (h.ok.dir_ne_new halloc)]
      by_cases hda : d = a / 2 ^ 22
      · refine .inr ⟨?_, by omega, by omega⟩
        rw [hda, ← hentry]
        exact hp
      · rw [if_neg hda]
        exact (h.entries d hd).imp_right fun ⟨hp, hle, hlt⟩ => ⟨hp, hle, by omega⟩
    · by_cases hslot : page = slotPage (a / 2 ^ 22)
      · exact .inr ⟨a / 2 ^ 22, hslot, by rwa [← hentry], by omega, by omega⟩
      · rcases pte_addTable h.ok halloc hp hpage hslot with heq | ⟨-, hpz, hz, heq⟩
        · rw [heq]
          exact h.keep page hpage hout
        · rw [heq, pte, if_neg (h.zero h₀ (by omega) hpz hz).1]
          exact .inl rfl

/-- Entries of a table other than the directory: those written are of pages in the range. -/
theorem Near.fill (h : Near s₀ addr size (a / 2 ^ 22 + 1) s) (h₀ : Ok s₀) (ha : PieceAt addr a) (hlt : a < addr + size)
    (hd : a / 2 ^ 22 < 1023) (hp : Present (s.pdEntry (a / 2 ^ 22))) {n : ℕ}
    (hin : ∀ y, addr / 4096 % 1024 ≤ y → y < addr / 4096 % 1024 + n → y < 1024 →
      (a / 2 ^ 22 * 1024 + y) * 4096 < addr + size) :
    Near s₀ addr size (a / 2 ^ 22 + 1) (s.fill (s.base (a / 2 ^ 22)) (addr / 4096 % 1024) n a) := by
  refine ⟨h.ok.fill hd hp _ _ _, fun d hd' => ?_, fun page hpage hout => ?_⟩
  · rw [pdEntry_fill h.ok hd hp]
    exact h.entries d hd'
  · rw [pte_fill h.ok hd hp, if_neg]
    · exact h.keep page hpage hout
    · rintro ⟨hpp, hbase, hlow, hhigh⟩
      have hle := ha.le
      have hindex := ha.index
      have hend := hin _ hlow hhigh (Nat.mod_lt page (by decide))
      have hsplit : page = page / 1024 * 1024 + page % 1024 := by omega
      have hmeets : page / 1024 = a / 2 ^ 22 ∨ addr / 2 ^ 22 ≤ page / 1024 ∧ page / 1024 < a / 2 ^ 22 → False := by
        intro htable
        refine hout ⟨?_, ?_⟩
        · rcases htable with htable | htable
          · rwa [hsplit, htable]
          · exact (show page * 4096 ≤ a by omega).trans_lt hlt
        · omega
      rcases h.ok.inj _ (by omega) _ (by omega) hpp hp hbase with htable | hz
      · exact hmeets (.inl htable)
      · -- both tables are in frame 0, and the other one was filled before
        have hnew := h.zero h₀ (by omega) hpp hz
        exact hmeets (by omega)

/-- The range has no page boundary at its end that is written, and reaches the recursive slot, if at all, where the
tables whose entries it overwrites are in the range, and ends before the last page. -/
structure EndsWell (addr size : ℕ) : Prop where
  edge : (addr + size) % 4096 = 0 → (addr + size) / 4096 % 1024 ≤ addr / 4096 % 1024
  slot : 0xFFC00000 + addr / 4096 % 1024 * 4096 < addr + size → addr / 4096 ≤ addr / 4096 % 1024 * 1024
  last : EndsBeforeLast addr size

/-- The last piece is in the table of the end, or it ends where the next table starts. -/
theorem PieceAt.last_table (ha : PieceAt addr a) (hlt : a < E) (hle : E ≤ a + maxSize a) :
    E / 2 ^ 22 = a / 2 ^ 22 ∨ E / 2 ^ 22 = a / 2 ^ 22 + 1 ∧ E / 4096 % 1024 ≤ addr / 4096 % 1024 := by
  have hindex := ha.index
  rw [maxSize_eq] at hle
  omega

theorem EndsWell.last_in (h : EndsWell addr size) (ha : PieceAt addr a) (hlt : a < addr + size)
    (hle : addr + size ≤ a + maxSize a) {y : ℕ} (hlow : addr / 4096 % 1024 ≤ y)
    (hhigh : y < addr / 4096 % 1024 + ((addr + size) / 4096 % 1024 + 1 - addr / 4096 % 1024)) :
    (a / 2 ^ 22 * 1024 + y) * 4096 < addr + size := by
  have hindex := ha.index
  have hedge := h.edge
  rcases ha.last_table hlt hle with htable | ⟨-, hend⟩
  · by_cases haligned : (addr + size) % 4096 = 0
    · exact (show (a / 2 ^ 22 * 1024 + y) * 4096 ≤ a by have := hedge haligned; omega).trans_lt hlt
    · have hend : a / 2 ^ 22 * 1024 + y ≤ (addr + size) / 4096 := by omega
      omega
  · exact (show (a / 2 ^ 22 * 1024 + y) * 4096 ≤ a by omega).trans_lt hlt

theorem Near.fill_slot (h : Near s₀ addr size (a / 2 ^ 22 + 1) s) (hE : addr + size < 2 ^ 32) (hw : EndsWell addr size)
    (ha : PieceAt addr a) (hlt : a < addr + size) (hle : addr + size ≤ a + maxSize a) (hd : a / 2 ^ 22 = 1023)
    (hpage : page < 2 ^ 20) (hout : ¬ Meets addr size page) :
    pte (s.fill (s.base (a / 2 ^ 22)) (addr / 4096 % 1024)
      ((addr + size) / 4096 % 1024 + 1 - addr / 4096 % 1024) a) page = pte s page := by
  have hindex := ha.index
  have hslot : addr / 4096 ≤ addr / 4096 % 1024 * 1024 := hw.slot (by omega)
  have hbefore : addr < (page + 1) * 4096 → addr + size ≤ page * 4096 := fun hlow => by
    by_contra hhigh
    exact hout ⟨by omega, hlow⟩
  -- an entry of the directory that is written is that of a table in the range
  have hentry : ¬ (addr / 4096 % 1024 ≤ page / 1024 ∧ page / 1024 < addr / 4096 % 1024 +
      ((addr + size) / 4096 % 1024 + 1 - addr / 4096 % 1024)) := by
    rintro ⟨hlow, hhigh⟩
    have hend := hbefore (by omega)
    have hin := hw.last_in ha hlt hle hlow hhigh
    rw [hd] at hin
    omega
  have hbase : s.base (a / 2 ^ 22) = s.dir := by
    rw [hd]
    exact h.ok.self
  rw [hbase]
  have hpd : (s.fill s.dir (addr / 4096 % 1024) ((addr + size) / 4096 % 1024 + 1 - addr / 4096 % 1024) a).pdEntry
      (page / 1024) = s.pdEntry (page / 1024) := if_neg fun hc => hentry hc.2
  unfold pte
  rw [Paging.base, hpd]
  by_cases hp : Present (s.pdEntry (page / 1024))
  · rw [if_pos hp, if_pos hp, frames_fill, if_neg]
    · rfl
    · rintro ⟨hdir, hlow, hhigh⟩
      have hlast : ¬ page / 1024 < 1023 := fun hlt => h.ok.base_ne_dir hlt hp hdir
      have hend := hbefore (by omega)
      have hin := hw.last_in ha hlt hle hlow hhigh
      rw [hd] at hin
      omega
  · rw [if_neg hp, if_neg hp]

/-- **The neighbours are kept.** -/
theorem keepsOthers_of_endsWell (hsize : 0 < size) (hE : addr + size < 2 ^ 32) (hw : EndsWell addr size) :
    KeepsOthers addr size := by
  intro s hs hstuck
  obtain ⟨s', hs'⟩ := pageIdentityMap_returns hs.toTablesOk hE hw.last hstuck
  refine ⟨s', hs', fun page hpage hout => ?_⟩
  refine pageIdentityMap_rule (P := fun a => Near s addr size (a / 2 ^ 22))
    (Q := fun s' => pte s' page = pte s page ∨ NewSlot s addr size page) hsize hE (fun a s h => h.ok)
    ⟨hs.toTablesOk, fun d _ => .inl rfl, fun page _ _ => .inl rfl⟩ ?_ ?_ hs'
  · intro a t t₁ ha hcut ht hg
    have hlt : a < addr + size := by
      rw [maxSize_eq] at hcut
      omega
    have hnext : (a + maxSize a) / 2 ^ 22 = a / 2 ^ 22 + 1 := by
      rw [maxSize_eq]
      omega
    rw [hnext]
    refine (ht.gets hs ha.le hlt hE hg).fill hs ha hlt ?_ (hg.isPresent ht.ok) fun y hlow hhigh _ => ?_
    · rw [maxSize_eq] at hcut
      omega
    · have hindex := ha.index
      exact (show (a / 2 ^ 22 * 1024 + y) * 4096 ≤ a by omega).trans_lt hlt
  · intro a t t₁ ha hlt hle ht hg _
    have ht₁ := ht.gets hs ha.le hlt hE hg
    by_cases hd : a / 2 ^ 22 < 1023
    · exact (ht₁.fill hs ha hlt hd (hg.isPresent ht.ok) fun y hlow hhigh _ =>
        hw.last_in ha hlt hle hlow hhigh).keep page hpage hout
    · rw [ht₁.fill_slot hE hw ha hlt hle (by omega) hpage hout]
      exact ht₁.keep page hpage hout

/-! ## Neighbours that are not kept -/

theorem fullSpace_pte_ne_zero (hpage : page < 2 ^ 20) : pte fullSpace page ≠ 0 := by
  by_cases hlast : page < 1023 * 1024
  · rw [fullSpace_pte hlast]
    decide
  · have hdir : (page / 1024 + 1) * 4096 = 1024 * 4096 := by omega
    rw [pte, if_pos (fullSpace_present _), fullSpace_base, hdir, fullSpace_dir, or_flags]
    omega

/-- A table whose entry in the directory is overwritten leads behind the directory, where there is nothing. -/
theorem Unmoved.pte_overwritten (h : Unmoved s) {i n v : ℕ} (hv : u32 (a + pageFrameSize * (page / 1024 - i)) = v)
    (hbehind : 1025 * 4096 ≤ v) (hlow : i ≤ page / 1024) (hhigh : page / 1024 < i + n) :
    pte (s.fill s.dir i n a) page = 0 := by
  have hentry : (s.fill s.dir i n a).pdEntry (page / 1024) = v ||| presentReadWriteUser := by
    rw [← hv]
    exact if_pos ⟨rfl, hlow, hhigh⟩
  have hbase : 1025 * 4096 ≤ entryBase v := by
    unfold entryBase pageFrameSize
    omega
  have hdir := h.dir
  rw [pte, Paging.base, hentry, if_pos (present_or_flags v), entryBase_or_flags, frames_fill, if_neg (by omega),
    h.behind _ (by omega)]
  unfold fullSpace
  dsimp only
  rw [if_neg (by omega), if_neg (by omega)]

/-- The page behind an end on a page boundary, when it is written. -/
theorem fullSpace_pte_edge (hsize : 0 < size) (hE : addr + size < 2 ^ 32) (halign : (addr + size) % 4096 = 0)
    (hedge : addr / 4096 % 1024 < (addr + size) / 4096 % 1024) (h : pageIdentityMap fullSpace addr size = some s') :
    pte s' ((addr + size) / 4096) ≠ pte fullSpace ((addr + size) / 4096) := by
  refine fullSpace_rule (P := fun _ _ => True)
    (Q := fun s' => pte s' ((addr + size) / 4096) ≠ pte fullSpace ((addr + size) / 4096)) hsize hE trivial
    (fun _ _ _ _ _ _ => trivial) ?_ h
  intro a s ha hlt hle hun _ _
  have hindex := ha.index
  have htable : (addr + size) / 2 ^ 22 = a / 2 ^ 22 := by
    have := ha.last_table hlt hle
    omega
  have hlow := hun.base
  by_cases hd : a / 2 ^ 22 < 1023
  · rw [hun.pte_fill hd, if_pos (by omega), fullSpace_pte (by omega), or_flags]
    omega
  · have hd : a / 2 ^ 22 = 1023 := by omega
    have hlast : (addr + size) / 4096 / 1024 = 1023 := by omega
    rw [hd, show s.base 1023 = s.dir from hun.ok.self]
    by_cases hslot : (addr + size) / 4096 % 1024 = 1023
    · -- the last entry of the directory is overwritten
      have hv : a + 4096 * (1023 - addr / 4096 % 1024) < 2 ^ 32 := by omega
      rw [hun.pte_overwritten (v := a + 4096 * (1023 - addr / 4096 % 1024)) ?_ (by omega) (by omega) (by omega)]
      · exact (fullSpace_pte_ne_zero (by omega)).symm
      · rw [hlast]
        exact u32_of_lt hv
    · have hentry : (s.fill s.dir (addr / 4096 % 1024) ((addr + size) / 4096 % 1024 + 1 - addr / 4096 % 1024) a).pdEntry
          1023 = fullSpace.pdEntry 1023 := (if_neg (by omega)).trans (hun.pdEntry 1023)
      have hv : a + 4096 * ((addr + size) / 4096 % 1024 - addr / 4096 % 1024) < 2 ^ 32 := by omega
      rw [pte, pte, hlast, Paging.base, hentry, if_pos (fullSpace_present 1023), if_pos (fullSpace_present 1023),
        show entryBase (fullSpace.pdEntry 1023) = 1024 * 4096 from fullSpace_base 1023, frames_fill,
        if_pos ⟨hun.dir.symm, by omega, by omega⟩,
        show fullSpace.base 1023 = 1024 * 4096 from fullSpace_base 1023, fullSpace_dir, pageFrameSize, u32_of_lt hv,
          or_flags, or_flags]
      omega

/-- The first page of the table whose entry in the directory is the first that is overwritten. -/
theorem fullSpace_pte_slot (hsize : 0 < size) (hE : addr + size < 2 ^ 32)
    (hslot : 0xFFC00000 + addr / 4096 % 1024 * 4096 < addr + size) (h : pageIdentityMap fullSpace addr size = some s') :
    pte s' (addr / 4096 % 1024 * 1024) ≠ pte fullSpace (addr / 4096 % 1024 * 1024) := by
  refine fullSpace_rule (P := fun _ _ => True)
    (Q := fun s' => pte s' (addr / 4096 % 1024 * 1024) ≠ pte fullSpace (addr / 4096 % 1024 * 1024)) hsize hE trivial
    (fun _ _ _ _ _ _ => trivial) ?_ h
  intro a s ha hlt hle hun _ _
  have hindex := ha.index
  have hd : a / 2 ^ 22 = 1023 := by
    rw [maxSize_eq] at hle
    omega
  have htable : addr / 4096 % 1024 * 1024 / 1024 = addr / 4096 % 1024 := Nat.mul_div_cancel _ (by decide)
  rw [hd, show s.base 1023 = s.dir from hun.ok.self, hun.pte_overwritten (v := a) ?_ (by omega) (by omega) (by omega)]
  · exact (fullSpace_pte_ne_zero (by omega)).symm
  · rw [htable, Nat.sub_self, Nat.mul_zero, Nat.add_zero]
    exact u32_of_lt (by omega)

theorem fullSpace_returns (hsize : 0 < size) (hE : addr + size < 2 ^ 32)
    (h : pageIdentityMap fullSpace addr size = some s') : EndsBeforeLast addr size := by
  refine fullSpace_rule (P := fun _ _ => True) (Q := fun _ => EndsBeforeLast addr size) hsize hE trivial
    (fun _ _ _ _ _ _ => trivial) ?_ h
  intro a s ha hlt hle _ _ hwrap hslot
  have hindex := ha.index
  rw [maxSize_eq] at hle
  omega

/-- **Identity mapping keeps its neighbours** exactly when its range ends well. -/
theorem keepsOthers_iff (hsize : 0 < size) (hE : addr + size < 2 ^ 32) :
    KeepsOthers addr size ↔ EndsWell addr size := by
  refine ⟨fun hkeeps => ?_, keepsOthers_of_endsWell hsize hE⟩
  obtain ⟨s', hs', hkeep⟩ := hkeeps fullSpace fullSpace_ok fullPmm_not_stuck
  have hsame : ∀ page < 2 ^ 20, ¬ Meets addr size page → pte s' page = pte fullSpace page := fun page hpage hout =>
    (hkeep page hpage hout).resolve_right fun ⟨d, _, hnew, _⟩ => hnew (fullSpace_present d)
  refine ⟨fun halign => ?_, fun hslot => ?_, fullSpace_returns hsize hE hs'⟩
  · by_contra hedge
    refine fullSpace_pte_edge hsize hE halign (by omega) hs' (hsame _ (by omega) fun hm => ?_)
    have := hm.1
    omega
  · by_contra hin
    refine fullSpace_pte_slot hsize hE hslot hs' (hsame _ (by omega) fun hm => ?_)
    have := hm.2
    omega

/-- The registers of the local APIC, which end inside a page. -/
theorem keepsOthers_iff_lapic : KeepsOthers 0xFEE00000 0x400 :=
  (keepsOthers_iff (by decide) (by decide)).mpr ⟨by decide, by decide, fun _ => by decide⟩

/-- One whole page: the page behind it is mapped too. -/
theorem one_page_overwrites_next : ¬ KeepsOthers 0x400000 0x1000 := by
  intro hkeeps
  obtain ⟨s', hs', hkeep⟩ := hkeeps fullSpace fullSpace_ok fullPmm_not_stuck
  have hout : ¬ Meets 0x400000 0x1000 0x401 := fun hm => absurd hm.1 (by decide)
  rcases hkeep 0x401 (by decide) hout with heq | ⟨d, _, hnew, _⟩
  · exact fullSpace_pte_edge (by decide) (by decide) (by decide) (by decide) hs' heq
  · exact hnew (fullSpace_present d)

end BulbOS.Page
