import BulbOS.Ide.Program
import Mathlib.Data.List.Basic

/-!
# The descriptors of a request (`ide_fill_prd_table`)

* `ideFillLoop_diverges`: when the loop does not end; else its code is that of `ideFillLoop_chunks`;
* `fillExec`: the code with the caller's buffer; `Filled`, `foldl_chunks`: what the loop leaves;
* `memExec`, `Laid`: the same in one memory, with `ide_mem_buffer` 1 KiB behind `prd_table`; **`Laid.foldl`**: inside
  the table, the two agree;
* `Covers`: what the descriptors should be; **`fill_covers_iff`**: for which sizes they are.
-/

namespace BulbOS.Ide

open KLib

variable {src m m' : Mem} {s s' : IdeState} {size start count fuel p k n j t device : ℕ} {isWrite : Bool}
  {code : List Instr}

/-! ## The loop -/

/-- A longer request that 1024 does not divide is never done. -/
theorem ideFillLoop_diverges (hlong : 1024 < size) (hdvd : ¬ 1024 ∣ size) (fuel count : ℕ)
    (hstart : 1024 ∣ start) (hs : start < 2 ^ 32) : ideFillLoop size isWrite fuel start count = none := by
  induction fuel generalizing start count with
  | zero => rfl
  | succ fuel ih =>
    have hmore : sub32 size start ≠ 0 := by
      unfold sub32
      omega
    have hnext : 1024 ∣ u32 (start + 1024) := by
      unfold u32
      omega
    rw [ideFillLoop, if_neg hmore, if_pos hlong]
    dsimp only
    rw [ih _ hnext (u32_lt _)]
    rfl

/-! ## What it leaves -/

/-- An access, with the buffer that the caller gave. -/
def fillExec (t : ℕ) (src : Mem) (s : IdeState) : Instr → IdeState
  | .fill addr i => { s with memBuffer := Function.update s.memBuffer addr (src i) }
  | i => ideExec t s i

theorem foldl_fill (a b n : ℕ) : ((List.range n).map fun i => Instr.fill (a + i) (b + i)).foldl (fillExec t src) s =
    { s with memBuffer := fun x => if a ≤ x ∧ x < a + n then src (b + (x - a)) else s.memBuffer x } := by
  induction n with
  | zero =>
    have hsame : (fun x => if a ≤ x ∧ x < a + 0 then src (b + (x - a)) else s.memBuffer x) = s.memBuffer :=
      funext fun x => if_neg (by omega)
    rw [hsame]
    rfl
  | succ n ih =>
    rw [List.range_succ, List.map_append, List.foldl_append, ih]
    change IdeState.mk _ _ (Function.update _ (a + n) (src (b + n))) _ _ _ = _
    congr 1
    funext x
    by_cases hx : x = a + n
    · subst hx
      rw [Function.update_self, if_pos (by omega), Nat.add_sub_cancel_left]
    · rw [Function.update_of_ne hx]
      exact if_congr (by omega) rfl rfl

/-- The first `k` rounds, of `p` bytes each. -/
structure Filled (p : ℕ) (isWrite : Bool) (src : Mem) (s s' : IdeState) (k : ℕ) : Prop where
  prd : ∀ i, s'.prdTable i = if i < k then ⟨1024 * i, p, 0⟩ else s.prdTable i
  bytes : isWrite = true → ∀ j < k, ∀ i < p, s'.memBuffer (1024 * j + i) = src (p * j + i)
  same : isWrite = false → s'.memBuffer = s.memBuffer

theorem foldl_prdEntry (hp : p ≤ 1024) : (ideSetPrdEntry j p).foldl (fillExec t src) s =
    { s with prdTable := Function.update s.prdTable j ⟨1024 * j, p, 0⟩ } := by
  have hcount : (if p = 64 * 1024 then 0 else p % 2 ^ 16) = p := by
    rw [if_neg (by omega), Nat.mod_eq_of_lt (by omega)]
  simp only [ideSetPrdEntry, List.foldl_cons, List.foldl_nil, fillExec, ideExec, IdeState.setPrd,
    Function.update_self, Function.update_idem, hcount]

theorem Filled.round (h : Filled p isWrite src s s' k) (hp : p ≤ 1024) :
    Filled p isWrite src s ((chunkCode p isWrite k).foldl (fillExec t src) s') (k + 1) := by
  have hprd : ∀ i, Function.update s'.prdTable k ⟨1024 * k, p, 0⟩ i =
      if i < k + 1 then ⟨1024 * i, p, 0⟩ else s.prdTable i := by
    intro i
    by_cases hi : i = k
    · subst hi
      rw [Function.update_self, if_pos (Nat.lt_succ_self i)]
    · rw [Function.update_of_ne hi, h.prd i]
      exact if_congr (by omega) rfl rfl
  rw [chunkCode, List.foldl_append, foldl_prdEntry hp]
  cases isWrite with
  | false => exact ⟨hprd, fun hw => (by cases hw), h.same⟩
  | true =>
    rw [if_pos rfl, foldl_fill]
    refine ⟨hprd, fun _ j hj i hi => ?_, fun hw => (by cases hw)⟩
    change (if 1024 * k ≤ 1024 * j + i ∧ 1024 * j + i < 1024 * k + p then _ else s'.memBuffer (1024 * j + i)) = _
    by_cases hjk : j = k
    · subst hjk
      rw [if_pos (by omega), Nat.add_sub_cancel_left]
    · rw [if_neg (by omega)]
      exact h.bytes rfl j (by omega) i hi

theorem foldl_chunks (hp : p ≤ 1024) (k : ℕ) :
    Filled p isWrite src s (((List.range k).flatMap (chunkCode p isWrite)).foldl (fillExec t src) s) k := by
  induction k with
  | zero => exact ⟨fun i => rfl, fun _ j hj => absurd hj (Nat.not_lt_zero j), fun _ => rfl⟩
  | succ k ih =>
    rw [List.range_succ, List.flatMap_append, List.foldl_append, List.flatMap_singleton]
    exact ih.round hp

/-! ## One memory -/

/-- Descriptor `i` of the table at the start of a memory. -/
def entryAt (m : Mem) (i : ℕ) : PrdEntry := ⟨load32 m (8 * i), load16 m (8 * i + 4), load16 m (8 * i + 6)⟩

def setEntry (m : Mem) (i : ℕ) (e : PrdEntry) : Mem :=
  store16 (store16 (store32 m (8 * i) e.physAddr) (8 * i + 4) e.byteCount) (8 * i + 6) e.reserved

/-- `boot.S` reserves 1 KiB for `prd_table`, and then 4 KiB for `ide_mem_buffer`. -/
def bufferStart : ℕ := 1024

/-- An access, in the memory from `prd_table` on. -/
def memExec (src : Mem) (m : Mem) : Instr → Mem
  | .prd i f => setEntry m i (f (entryAt m i))
  | .fill addr i => Function.update m (bufferStart + addr) (src i)
  | _ => m

/-- The values that the fields hold. -/
structure PrdEntry.Fits (e : PrdEntry) : Prop where
  physAddr : e.physAddr < 2 ^ 32
  byteCount : e.byteCount < 2 ^ 16
  reserved : e.reserved < 2 ^ 16

/-- Descriptors are written inside the table, with values that fit. -/
def Instr.Inside : Instr → Prop
  | .prd i f => i < prdCount ∧ ∀ e : PrdEntry, e.Fits → (f e).Fits
  | _ => True

/-- The memory holds the table and the buffers. -/
structure Laid (m : Mem) (s : IdeState) : Prop where
  table : ∀ i < prdCount, entryAt m i = s.prdTable i
  buffer : ∀ x, m (bufferStart + x) = s.memBuffer x

theorem load16_lt (m : Mem) (a : ℕ) : load16 m a < 2 ^ 16 := by
  have h₀ := (m a).toNat_lt
  have h₁ := (m (a + 1)).toNat_lt
  unfold load16
  omega

theorem entryAt_fits (m : Mem) (i : ℕ) : (entryAt m i).Fits := ⟨load32_lt m _, load16_lt m _, load16_lt m _⟩

theorem entryAt_congr (h : ∀ x, x < bufferStart → m x = m' x) (hn : n < prdCount) : entryAt m n = entryAt m' n := by
  unfold bufferStart at h
  unfold prdCount at hn
  rw [entryAt, entryAt, load32_congr fun x _ _ => h x (by omega), load16_congr fun x _ _ => h x (by omega),
    load16_congr fun x _ _ => h x (by omega)]

theorem entryAt_setEntry {e : PrdEntry} (he : e.Fits) (i j : ℕ) :
    entryAt (setEntry m j e) i = if i = j then e else entryAt m i := by
  unfold setEntry
  by_cases hij : i = j
  · subst hij
    rw [if_pos rfl, entryAt, load32_store16_of_disjoint _ _ (by omega), load32_store16_of_disjoint _ _ (by omega),
      load32_store32, load16_store16_of_disjoint _ _ (by omega), load16_store16, load16_store16,
      u32_of_lt he.physAddr, Nat.mod_eq_of_lt he.byteCount, Nat.mod_eq_of_lt he.reserved]
  · rw [if_neg hij, entryAt, entryAt, load32_store16_of_disjoint _ _ (by omega),
      load32_store16_of_disjoint _ _ (by omega), load32_store32_of_disjoint _ _ (by omega),
      load16_store16_of_disjoint _ _ (by omega), load16_store16_of_disjoint _ _ (by omega),
      load16_store32_of_disjoint _ _ (by omega), load16_store16_of_disjoint _ _ (by omega),
      load16_store16_of_disjoint _ _ (by omega), load16_store32_of_disjoint _ _ (by omega)]

theorem setEntry_of_outside (e : PrdEntry) {i x : ℕ} (h : 8 * i + 8 ≤ x) : setEntry m i e x = m x := by
  unfold setEntry
  rw [store16_of_outside _ _ (by omega), store16_of_outside _ _ (by omega), store32_of_outside _ _ (by omega)]

theorem Laid.exec (h : Laid m s) {i : Instr} (hi : i.Inside) : Laid (memExec src m i) (fillExec t src s i) := by
  cases i with
  | prd i f =>
    obtain ⟨hlt, hfits⟩ := hi
    have hentry := h.table i hlt
    refine ⟨fun j hj => ?_, fun x => ?_⟩
    · rw [memExec, entryAt_setEntry (hfits _ (entryAt_fits m i)), hentry]
      change _ = Function.update s.prdTable i (f (s.prdTable i)) j
      by_cases hji : j = i
      · rw [if_pos hji, hji, Function.update_self]
      · rw [if_neg hji, Function.update_of_ne hji]
        exact h.table j hj
    · unfold prdCount at hlt
      rw [memExec, setEntry_of_outside _ (by unfold bufferStart; omega)]
      exact h.buffer x
  | fill addr i =>
    refine ⟨fun j hj => ?_, fun x => ?_⟩
    · rw [memExec, ← entryAt_congr (m := m) (fun x hx => ?_) hj]
      · exact h.table j hj
      · exact (Function.update_of_ne (by omega) ..).symm
    · change Function.update m (bufferStart + addr) (src i) (bufferStart + x) =
        Function.update s.memBuffer addr (src i) x
      by_cases hx : x = addr
      · rw [hx, Function.update_self, Function.update_self]
      · rw [Function.update_of_ne (by omega), Function.update_of_ne hx]
        exact h.buffer x
  | request | prdt | write | poll | sleep | block | copy | valid => exact ⟨h.table, h.buffer⟩

/-- **The two arrays** are the two parts of the memory, as long as the descriptors are inside the table. -/
theorem Laid.foldl (h : Laid m s) {code : List Instr} (hcode : ∀ i ∈ code, i.Inside) :
    Laid (code.foldl (memExec src) m) (code.foldl (fillExec t src) s) := by
  induction code generalizing m s with
  | nil => exact h
  | cons i code ih =>
    exact ih (h.exec (hcode i List.mem_cons_self)) fun j hj => hcode j (List.mem_cons_of_mem i hj)

/-! ## Every request -/

/-- The `count` descriptors written say where the `size` bytes are: in the bounce buffers, in order. -/
structure Covers (size : ℕ) (isWrite : Bool) (src : Mem) (m m' : Mem) (count : ℕ) : Prop where
  sum : ((List.range count).map fun i => (entryAt m' i).byteCount).sum = size
  small : ∀ i < count, (entryAt m' i).byteCount ≤ 1024
  mark : ∀ i < count, (entryAt m' i).reserved.testBit 15 = true ↔ i + 1 = count
  others : ∀ i, count ≤ i → i < prdCount → entryAt m' i = entryAt m i
  buffers : ∀ i < count, (entryAt m' i).physAddr = 1024 * i
  bytes : isWrite = true → ((List.range count).flatMap fun i =>
    (List.range (entryAt m' i).byteCount).map fun j => m' (bufferStart + ((entryAt m' i).physAddr + j))) =
      (List.range size).map src
  same : isWrite = false → ∀ x, m' (bufferStart + x) = m (bufferStart + x)

/-- The function ends, the descriptors cover the request, and only its bytes are read. -/
def FillOk (device size : ℕ) (isWrite : Bool) (src m : Mem) : Prop :=
  ∃ code count, ideFillPrdTable device size isWrite = some code ∧
    Covers size isWrite src m (code.foldl (memExec src) m) count ∧
    ∀ addr i, .fill addr i ∈ code → i < size

theorem flatMap_chunks (p k : ℕ) (src : Mem) :
    ((List.range k).flatMap fun i => (List.range p).map fun j => src (p * i + j)) = (List.range (p * k)).map src := by
  induction k with
  | zero => rfl
  | succ k ih =>
    rw [List.range_succ, List.flatMap_append, ih, Nat.mul_succ, List.range_add, List.map_append, List.map_map,
      List.flatMap_singleton]
    rfl

theorem Filled.covers (h : Filled p isWrite src s s' k) (hk : 0 < k) (hle : k ≤ prdCount) (hp : p ≤ 1024)
    {s₂ : IdeState}
    (htable : s₂.prdTable = Function.update s'.prdTable (k - 1)
      { s'.prdTable (k - 1) with reserved := (s'.prdTable (k - 1)).reserved ||| 1 <<< 15 })
    (hmem : s₂.memBuffer = s'.memBuffer) (hm : Laid m s) (hm' : Laid m' s₂) : Covers (p * k) isWrite src m m' k := by
  have hprd : ∀ i < k, entryAt m' i = ⟨1024 * i, p, if i + 1 = k then 1 <<< 15 else 0⟩ := by
    intro i hi
    rw [hm'.table i (by omega), htable]
    exact prd_marked hk (fun j hj => by rw [h.prd, if_pos hj]) hi
  have hcount : ∀ i ∈ List.range k, (entryAt m' i).byteCount = p := fun i hi => by
    rw [hprd i (List.mem_range.mp hi)]
  refine ⟨?_, fun i hi => ?_, fun i hi => ?_, fun i hi hlt => ?_, fun i hi => by rw [hprd i hi], fun hw => ?_,
    fun hw x => ?_⟩
  · rw [List.map_congr_left hcount, List.map_const', List.length_range, List.sum_replicate_nat, Nat.mul_comm]
  · rw [hcount i (List.mem_range.mpr hi)]
    exact hp
  · rw [hprd i hi]
    by_cases hlast : i + 1 = k
    · rw [if_pos hlast]
      exact iff_of_true (show (1 <<< 15).testBit 15 = true by decide) hlast
    · rw [if_neg hlast]
      exact iff_of_false (show ¬ Nat.testBit 0 15 = true by decide) hlast
  · rw [hm'.table i hlt, hm.table i hlt, htable, Function.update_of_ne (by omega), h.prd, if_neg (by omega)]
  · rw [← flatMap_chunks]
    refine List.flatMap_congr fun i hi => ?_
    rw [hprd i (List.mem_range.mp hi)]
    refine List.map_congr_left fun j hj => ?_
    rw [hm'.buffer, hmem]
    exact h.bytes hw i (List.mem_range.mp hi) j (List.mem_range.mp hj)
  · rw [hm'.buffer, hm.buffer, hmem, h.same hw]

/-- The rounds of a request: all of its bytes at once, or 1024 each. -/
theorem exists_rounds (hpos : 1 ≤ size) (hok : size ≤ 1024 ∨ 1024 ∣ size) : ∃ p k,
    (if size > 1024 then 1024 else size) = p ∧ 0 < p ∧ p ≤ 1024 ∧ size = p * k ∧ 0 < k := by
  by_cases hlong : size > 1024
  · obtain ⟨k, rfl⟩ := hok.resolve_left (by omega)
    exact ⟨1024, k, if_pos hlong, by decide, le_rfl, rfl, by omega⟩
  · exact ⟨size, 1, if_neg hlong, by omega, by omega, by omega, Nat.one_pos⟩

/-- The code of a request that ends after `k` rounds. -/
def fillCode (device p k : ℕ) (isWrite : Bool) : List Instr :=
  .prdt (deviceChannel device) :: ((List.range k).flatMap (chunkCode p isWrite) ++
    [.prd (k - 1) fun e => { e with reserved := e.reserved ||| 1 <<< 15 },
      .write (deviceChannel device) .busCom (if isWrite then 1 <<< 3 else 0),
      .write (deviceChannel device) .busCom 1])

theorem ideFillPrdTable_eq (device : ℕ) (isWrite : Bool) (hp : (if size > 1024 then 1024 else size) = p)
    (hpos : 0 < p) (hsize : size = p * k) (hlt : size < 2 ^ 32) :
    ideFillPrdTable device size isWrite = some (fillCode device p k isWrite) := by
  have hk : k < 2 ^ 32 := (Nat.le_mul_of_pos_left k hpos).trans_lt (hsize ▸ hlt)
  have hloop := @ideFillLoop_chunks k size (2 ^ 32) p 0 k isWrite hp hpos hsize hlt (Nat.zero_add k) hk
  rw [Nat.mul_zero, ← List.range_eq_range'] at hloop
  rw [ideFillPrdTable, hloop]
  rfl

theorem ideFillPrdTable_none (device : ℕ) (isWrite : Bool) (hbad : ¬ (size ≤ 1024 ∨ 1024 ∣ size)) :
    ideFillPrdTable device size isWrite = none := by
  rw [not_or, not_le] at hbad
  rw [ideFillPrdTable, ideFillLoop_diverges hbad.1 hbad.2 _ _ (Nat.dvd_zero _) (by decide)]
  rfl

theorem mem_fillCode_fill {addr i : ℕ} : Instr.fill addr i ∈ fillCode device p k isWrite ↔
    isWrite = true ∧ ∃ j < k, ∃ m < p, addr = 1024 * j + m ∧ i = p * j + m := by
  cases isWrite with
  | false => simp [fillCode, chunkCode, ideSetPrdEntry]
  | true =>
    simp only [fillCode, chunkCode, ideSetPrdEntry, List.mem_cons, List.mem_append, List.mem_flatMap, List.mem_range,
      List.mem_map, List.not_mem_nil, reduceCtorEq, or_false, false_or, if_true, Instr.fill.injEq, true_and]
    constructor
    · rintro ⟨j, hj, m, hm, rfl, rfl⟩
      exact ⟨j, hj, m, hm, rfl, rfl⟩
    · rintro ⟨j, hj, m, hm, rfl, rfl⟩
      exact ⟨j, hj, m, hm, rfl, rfl⟩

theorem inside_of_mem_fillCode {i : ℕ} {f : PrdEntry → PrdEntry} (hk : 0 < k) (hp : p ≤ 1024)
    (h : Instr.prd i f ∈ fillCode device p k isWrite) : i < k ∧
    (k ≤ prdCount → ∀ e : PrdEntry, e.Fits → (f e).Fits) := by
  rcases List.mem_cons.mp h with h | h
  · cases h
  rcases List.mem_append.mp h with h | h
  · obtain ⟨j, hj, h⟩ := List.mem_flatMap.mp h
    have hj := List.mem_range.mp hj
    have hentry : Instr.prd i f ∈ ideSetPrdEntry j p := by
      rw [chunkCode, List.mem_append] at h
      refine h.resolve_right fun hfill => ?_
      cases isWrite with
      | false => cases hfill
      | true =>
        obtain ⟨m, -, hm⟩ := List.mem_map.mp hfill
        cases hm
    simp only [ideSetPrdEntry, List.mem_cons, Instr.prd.injEq, List.not_mem_nil, or_false] at hentry
    unfold prdCount
    rcases hentry with ⟨rfl, rfl⟩ | ⟨rfl, rfl⟩ | ⟨rfl, rfl⟩
    · exact ⟨hj, fun hle e he => ⟨show 1024 * i < 2 ^ 32 by omega, he.byteCount, he.reserved⟩⟩
    · refine ⟨hj, fun _ e he => ⟨he.physAddr, ?_, he.reserved⟩⟩
      change (if p = 64 * 1024 then 0 else p % 2 ^ 16) < 2 ^ 16
      rw [if_neg (by omega)]
      exact Nat.mod_lt _ (by decide)
    · exact ⟨hj, fun _ e he => ⟨he.physAddr, he.byteCount, Nat.two_pow_pos 16⟩⟩
  · simp only [List.mem_cons, Instr.prd.injEq, reduceCtorEq, List.not_mem_nil, or_false] at h
    obtain ⟨rfl, rfl⟩ := h
    exact ⟨by omega, fun _ e he => ⟨he.physAddr, he.byteCount, Nat.or_lt_two_pow he.reserved (by decide)⟩⟩

theorem fillCode_inside (hk : 0 < k) (hle : k ≤ prdCount) (hp : p ≤ 1024) :
    ∀ i ∈ fillCode device p k isWrite, i.Inside := by
  intro i hi
  cases i with
  | prd i f =>
    obtain ⟨hlt, hfits⟩ := inside_of_mem_fillCode hk hp hi
    exact ⟨hlt.trans_le hle, hfits hle⟩
  | request | prdt | write | poll | sleep | fill | block | copy | valid => trivial

/-- The parts of the memory as arrays. -/
def laidOut (m : Mem) : IdeState :=
  ⟨fun _ => ⟨fun _ => 0, fun _ => 0, 0, 0, false, false, []⟩, entryAt m, fun x => m (bufferStart + x), 0, 0,
    fun _ _ => 0⟩

theorem laid_laidOut (m : Mem) : Laid m (laidOut m) := ⟨fun _ _ => rfl, fun _ => rfl⟩

theorem fillOk_of_rounds (device : ℕ) (isWrite : Bool) (src m : Mem) (hsize : size = p * k) (hlt : size < 2 ^ 32)
    (hp : (if size > 1024 then 1024 else size) = p) (hp0 : 0 < p) (hp1 : p ≤ 1024) (hk : 0 < k) (hle : k ≤ prdCount) :
    FillOk device size isWrite src m := by
  refine ⟨_, k, ideFillPrdTable_eq device isWrite hp hp0 hsize hlt, ?_, fun addr i hi => ?_⟩
  · have hrounds := @foldl_chunks src (ideExec 0 (laidOut m) (.prdt (deviceChannel device))) p 0 isWrite hp1 k
    have hfilled : Filled p isWrite src (laidOut m) _ k := ⟨hrounds.prd, hrounds.bytes, hrounds.same⟩
    have hlaid : Laid ((fillCode device p k isWrite).foldl (memExec src) m)
        ((fillCode device p k isWrite).foldl (fillExec 0 src) (laidOut m)) :=
      (laid_laidOut m).foldl (fillCode_inside hk hle hp1)
    rw [hsize]
    refine hfilled.covers hk hle hp1 ?_ ?_ (laid_laidOut m) hlaid
    · rw [fillCode, List.foldl_cons, List.foldl_append]
      rfl
    · rw [fillCode, List.foldl_cons, List.foldl_append]
      rfl
  · obtain ⟨-, j, hj, m, hm, -, rfl⟩ := mem_fillCode_fill.mp hi
    calc p * j + m < p * j + p := Nat.add_lt_add_left hm _
      _ = p * (j + 1) := (Nat.mul_succ p j).symm
      _ ≤ p * k := Nat.mul_le_mul_left p hj
      _ = size := hsize.symm

/-- What it writes is in the table and in `ide_mem_buffer`, which have 1 KiB and 4 KiB. -/
def Reserved (device size : ℕ) (isWrite : Bool) : Prop :=
  ∀ code, ideFillPrdTable device size isWrite = some code →
    (∀ i f, .prd i f ∈ code → i < prdCount) ∧ ∀ addr i, .fill addr i ∈ code → addr < 4 * 1024

/-- One round does at most 1024 bytes, and more than one round does 1024 each time. -/
theorem rounds_le_iff {b : ℕ} (hp : (if size > 1024 then 1024 else size) = p) (hp0 : 0 < p) (hsize : size = p * k)
    (hb : 0 < b) : k ≤ b ↔ size ≤ b * 1024 := by
  by_cases hlong : size > 1024
  · rw [if_pos hlong] at hp
    subst hp
    omega
  · rw [if_neg hlong] at hp
    subst hp
    have hone : k = 1 := Nat.eq_of_mul_eq_mul_left hp0 (by omega)
    omega

theorem reserved_iff (device : ℕ) (isWrite : Bool) (hp : (if size > 1024 then 1024 else size) = p) (hp0 : 0 < p)
    (hp1 : p ≤ 1024) (hsize : size = p * k) (hk : 0 < k) (hlt : size < 2 ^ 32) :
    Reserved device size isWrite ↔ size ≤ if isWrite then 4 * 1024 else prdCount * 1024 := by
  have hcode := ideFillPrdTable_eq device isWrite hp hp0 hsize hlt
  have hmark : Instr.prd (k - 1) (fun e => { e with reserved := e.reserved ||| 1 <<< 15 }) ∈
      fillCode device p k isWrite :=
    List.mem_cons_of_mem _ (List.mem_append_right _ List.mem_cons_self)
  have hrounds : ∀ b, 0 < b → (k ≤ b ↔ size ≤ b * 1024) := fun b => rounds_le_iff hp hp0 hsize
  constructor
  · intro h
    obtain ⟨htable, hbuffer⟩ := h _ hcode
    have hk' := htable _ _ hmark
    cases isWrite with
    | false =>
      rw [if_neg Bool.false_ne_true]
      exact (hrounds prdCount (by decide)).mp (by omega)
    | true =>
      rw [if_pos rfl]
      have hlast := hbuffer _ _ (mem_fillCode_fill.mpr ⟨rfl, k - 1, by omega, 0, hp0, rfl, rfl⟩)
      exact (hrounds 4 (by decide)).mp (by omega)
  · intro h code hcode'
    obtain rfl := Option.some.inj (hcode.symm.trans hcode')
    have hk' : k ≤ prdCount := by
      refine (hrounds prdCount (by decide)).mpr (h.trans ?_)
      cases isWrite <;> decide
    refine ⟨fun i f hi => (inside_of_mem_fillCode hk hp1 hi).1.trans_le hk', fun addr i hi => ?_⟩
    obtain ⟨rfl, j, hj, m, hm, rfl, -⟩ := mem_fillCode_fill.mp hi
    rw [if_pos rfl] at h
    have hk4 := (hrounds 4 (by decide)).mpr h
    omega

/-- **The descriptors** cover exactly the request, and they and the bounce buffers are inside the memory reserved for
them, for the sizes up to 1024 and their multiples, up to that memory. -/
theorem fill_covers_iff (device : ℕ) (isWrite : Bool) (src m : Mem) (hpos : 1 ≤ size) (hlt : size < 2 ^ 32) :
    FillOk device size isWrite src m ∧ Reserved device size isWrite ↔
      (size ≤ 1024 ∨ 1024 ∣ size) ∧ size ≤ if isWrite then 4 * 1024 else prdCount * 1024 := by
  constructor
  · rintro ⟨⟨code, count, hcode, -⟩, hres⟩
    have hok : size ≤ 1024 ∨ 1024 ∣ size := by
      by_contra hbad
      rw [ideFillPrdTable_none device isWrite hbad] at hcode
      cases hcode
    obtain ⟨p, k, hp, hp0, hp1, hsize, hk⟩ := exists_rounds hpos hok
    exact ⟨hok, (reserved_iff device isWrite hp hp0 hp1 hsize hk hlt).mp hres⟩
  · rintro ⟨hok, hle⟩
    obtain ⟨p, k, hp, hp0, hp1, hsize, hk⟩ := exists_rounds hpos hok
    have hk' : k ≤ prdCount := by
      refine (rounds_le_iff hp hp0 hsize (by decide)).mpr (hle.trans ?_)
      cases isWrite <;> decide
    exact ⟨fillOk_of_rounds device isWrite src m hsize hlt hp hp0 hp1 hk hk',
      (reserved_iff device isWrite hp hp0 hp1 hsize hk hlt).mpr hle⟩

theorem fill_covers_block : FillOk 0 1024 true (fun _ => 7) (fun _ => 0) ∧ Reserved 0 1024 true :=
  (fill_covers_iff 0 true _ _ (by decide) (by decide)).mpr ⟨.inl le_rfl, by decide⟩

/-- 1536 bytes: `start` passes `size`, and the loop does not end. -/
theorem fill_1536_diverges : ideFillPrdTable 0 1536 true = none ∧ ¬ FillOk 0 1536 true (fun _ => 7) (fun _ => 0) := by
  have hnone : ideFillPrdTable 0 1536 true = none := ideFillPrdTable_none 0 true (by decide)
  refine ⟨hnone, ?_⟩
  rintro ⟨code, count, hcode, -⟩
  rw [hnone] at hcode
  cases hcode

end BulbOS.Ide
