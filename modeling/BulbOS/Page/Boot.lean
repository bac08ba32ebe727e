import BulbOS.Page.Aliasing

/-!
# The tables that `page_init` leaves

`boot.S` has mapped the kernel at 3 GiB with one table; `page_init` adds the recursive slot and the lower memory.

* `Kept`, `Boot`: the directory and the bitmap before the call;
* `booted`, `pageInit_eq`: the call in closed form; `Boot.table`: the tables after it;
* **`pageInit_start`**: the kernel's own pages are as `Start` wants them.
-/

namespace BulbOS.Page

open KLib Pmm

variable {s : Paging} {pageTable1 t d q : ℕ}

/-! ## Before the call -/

/-- A frame of the memory that is not free. -/
def Kept (p : PmmState) (frame : ℕ) : Prop :=
  frame / 4096 < p.numOfPages ∧ getBit p.memBitmap (frame / 4096) = true

/-- Only the kernel's table is present, and `page_table1` is the empty frame `t`. The frames that hold a table, that the
kernel's table maps or that `page_init` maps (up to the one at `UPPER_MEMORY_START`) are not free. -/
structure Boot (s : Paging) (t : ℕ) : Prop where
  pages : s.pmm.numOfPages ≤ 2 ^ 20
  last : LastOk s.pmm
  only : ∀ d < 1024, Present (s.pdEntry d) → d = 768
  aligned : 4096 ∣ s.dir ∧ 4096 ∣ t
  nonzero : s.dir ≠ 0 ∧ t ≠ 0 ∧ s.base 768 ≠ 0
  apart : s.dir ≠ t ∧ s.base 768 ≠ t ∧ s.base 768 ≠ s.dir
  kept : Kept s.pmm s.dir ∧ Kept s.pmm t ∧ Kept s.pmm (s.base 768)
  mapped : ∀ i < 1024, Present (s.frames (s.base 768) i) → Kept s.pmm (entryBase (s.frames (s.base 768) i))
  lower : ∀ i ≤ 256, Kept s.pmm (i * 4096)
  empty : ∀ i, s.frames t i = 0

/-! ## The call -/

/-- The state after `page_init`, with `page_table1` in frame `t`. -/
def booted (s : Paging) (t : ℕ) : Paging := (pdAddTable (pdAddTable s 1023 s.dir) 0 t).fill t 0 257 0

theorem pageInit_eq (h : pageTable1 + 4096 ≤ 2 ^ 32) :
    pageInit s pageTable1 = some (booted s (pageTable1 - kernelOffset)) := by
  have hfill := identityPteLoop_fill (s := pdAddTable (pdAddTable s 1023 s.dir) 0 (pageTable1 - kernelOffset))
    0 (fun _ => pageTable1 - kernelOffset) (fun _ _ => rfl) (show 0 < 0 + 257 by decide)
    (show pageTable1 + 4 * (0 + 257) < 2 ^ 32 by omega) (Nat.zero_add _) (show 257 < numOfEntries + 1 by decide)
  rw [fill_zero] at hfill
  exact hfill

theorem frames_booted (s : Paging) (t g j : ℕ) : (booted s t).frames g j =
    if g = t ∧ j < 257 then u32 (4096 * j) ||| presentReadWriteUser
    else if g = s.dir ∧ j = 0 then t ||| presentReadWriteUser
    else if g = s.dir ∧ j = 1023 then s.dir ||| presentReadWriteUser else s.frames g j := by
  rw [booted, frames_fill, pdAddTable, pdAddTable, Paging.frames_write, Paging.frames_write, Nat.sub_zero, Nat.zero_add,
    Nat.zero_add]
  exact if_congr (by simp) rfl rfl

theorem Boot.pdEntry (h : Boot s t) (d : ℕ) : (booted s t).pdEntry d =
    if d = 0 then t ||| presentReadWriteUser else if d = 1023 then s.dir ||| presentReadWriteUser else s.pdEntry d := by
  rw [Paging.pdEntry, frames_booted, if_neg fun hc => h.apart.1 hc.1]
  exact if_congr (and_iff_right rfl) rfl (if_congr (and_iff_right rfl) rfl rfl)

theorem entryBase_of_dvd (h : 4096 ∣ t) : entryBase (t ||| presentReadWriteUser) = t := by
  rw [entryBase_or_flags, entryBase]
  exact Nat.div_mul_cancel h

/-- **The tables after the call**: `page_table1`, the kernel's table and the directory. -/
theorem Boot.table (h : Boot s t) (hd : d < 1024) (hp : Present ((booted s t).pdEntry d)) :
    d = 0 ∧ (booted s t).base d = t ∨ d = 768 ∧ (booted s t).base d = s.base 768 ∨
      d = 1023 ∧ (booted s t).base d = s.dir := by
  rw [Paging.base, h.pdEntry] at *
  by_cases hzero : d = 0
  · rw [if_pos hzero]
    exact .inl ⟨hzero, entryBase_of_dvd h.aligned.2⟩
  · rw [if_neg hzero] at hp ⊢
    by_cases hlast : d = 1023
    · rw [if_pos hlast]
      exact .inr (.inr ⟨hlast, entryBase_of_dvd h.aligned.1⟩)
    · rw [if_neg hlast] at hp ⊢
      obtain rfl := h.only d hd hp
      exact .inr (.inl ⟨rfl, rfl⟩)

theorem Boot.table_kept (h : Boot s t) (hd : d < 1024) (hp : Present ((booted s t).pdEntry d)) :
    Kept s.pmm ((booted s t).base d) ∧ (booted s t).base d ≠ 0 := by
  obtain ⟨hdir, ht, hbase⟩ := h.kept
  obtain ⟨hdir', ht', hbase'⟩ := h.nonzero
  rcases h.table hd hp with ⟨-, heq⟩ | ⟨-, heq⟩ | ⟨-, heq⟩ <;> rw [heq]
  · exact ⟨ht, ht'⟩
  · exact ⟨hbase, hbase'⟩
  · exact ⟨hdir, hdir'⟩

theorem Boot.table_inj (h : Boot s t) {e : ℕ} (hd : d < 1024) (he : e < 1024) (hpd : Present ((booted s t).pdEntry d))
    (hpe : Present ((booted s t).pdEntry e)) (heq : (booted s t).base d = (booted s t).base e) : d = e := by
  obtain ⟨hdir, hbase, hbase'⟩ := h.apart
  rcases h.table hd hpd with ⟨hd, h₁⟩ | ⟨hd, h₁⟩ | ⟨hd, h₁⟩ <;>
    rcases h.table he hpe with ⟨he, h₂⟩ | ⟨he, h₂⟩ | ⟨he, h₂⟩ <;> rw [h₁, h₂] at heq
  · exact hd.trans he.symm
  · exact absurd heq.symm hbase
  · exact absurd heq.symm hdir
  · exact absurd heq hbase
  · exact hd.trans he.symm
  · exact absurd heq hbase'
  · exact absurd heq hdir
  · exact absurd heq.symm hbase'
  · exact hd.trans he.symm

theorem Boot.page_kept (h : Boot s t) (hq : q < windowStart) (hp : Present (pte (booted s t) q)) :
    Kept s.pmm (frameOf (booted s t) q) := by
  unfold windowStart at hq
  obtain ⟨-, hbase, hbase'⟩ := h.apart
  have htable : Present ((booted s t).pdEntry (q / 1024)) := by
    by_contra hnot
    rw [pte, if_neg hnot] at hp
    exact absurd hp (by decide)
  rw [frameOf]
  rw [pte, if_pos htable] at hp ⊢
  rcases h.table (show q / 1024 < 1024 by omega) htable with ⟨hzero, heq⟩ | ⟨-, heq⟩ | ⟨hlast, -⟩
  · rw [heq, frames_booted] at hp ⊢
    by_cases hlow : q % 1024 < 257
    · rw [if_pos ⟨rfl, hlow⟩, u32_of_lt (by omega), entryBase_of_dvd (Nat.dvd_mul_right _ _), Nat.mul_comm]
      exact h.lower _ (by omega)
    · rw [if_neg fun hc => hlow hc.2, if_neg fun hc => h.apart.1 hc.1.symm, if_neg fun hc => h.apart.1 hc.1.symm,
        h.empty] at hp
      exact absurd hp (by decide)
  · rw [heq, frames_booted, if_neg fun hc => hbase hc.1, if_neg fun hc => hbase' hc.1, if_neg fun hc => hbase' hc.1]
      at hp ⊢
    exact h.mapped _ (Nat.mod_lt _ (by decide)) hp
  · omega

/-- **`page_init` leaves the kernel's own pages** in frames that are not free, and the tables in order. -/
theorem pageInit_start (h : Boot s (pageTable1 - kernelOffset)) (hlt : pageTable1 + 4096 ≤ 2 ^ 32) :
    ∃ s', pageInit s pageTable1 = some s' ∧ Start s' := by
  refine ⟨_, pageInit_eq hlt, ⟨⟨⟨?_, ?_, h.nonzero.1, h.pages, h.last, fun d hd hp _ _ => (h.table_kept hd hp).1.2,
    fun d hd e he hpd hpe heq => .inl (h.table_inj hd he hpd hpe heq)⟩, fun d hd hp => (h.table_kept hd hp).2⟩,
    fun q hq hp => h.page_kept hq hp, fun d hd hp => (h.table_kept hd hp).1.1⟩⟩
  · rw [h.pdEntry, if_neg (by decide), if_pos rfl]
    exact present_or_flags _
  · rw [Paging.base, h.pdEntry, if_neg (by decide), if_pos rfl]
    exact entryBase_of_dvd h.aligned.1

end BulbOS.Page
