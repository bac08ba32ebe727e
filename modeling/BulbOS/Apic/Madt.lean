import BulbOS.Lib.Bytes
import Mathlib.Data.List.GetD
import Mathlib.Data.List.Nodup
import Mathlib.Data.List.Perm.Basic
import Mathlib.Logic.Function.Basic
import Mathlib.Tactic.Common

/-!
# The records of the MADT (`madt_parse` of `kernel/int/apic.c`)

The lines printed and the page tables are left out. `kmalloc` is not expected to fail.

* `madtStep`, `madtLoop`, `madtParse`: the code, on the bytes of the table;
* `MadtRecord`, `MadtIn`: the table as a list of records; `madtParse_eq`: the code goes over them;
* `foldl_before`, `foldl_after`: the records before and after the one of the I/O APIC;
* **`madt_order_iff`**: when the order of the records does not matter.
-/

namespace BulbOS.Apic

open KLib

/-- The static variables that `madt_parse` sets. A word of `ioapic_mapping` is unsigned: `-1` is `2 ^ 32 - 1`. -/
structure ApicState where
  processorId : UInt8
  ioapicAddr : ℕ
  lapicAddr : ℕ
  maxIrqs : ℕ
  /-- `none` for `NULL`. -/
  ioapicMapping : Option (ℕ → ℕ)
  /-- The stores through `NULL`, the last one first: the index and the value. -/
  nullStores : List (ℕ × ℕ)

/-- What the version register of the I/O APIC at an address holds, and what is in the memory from `kmalloc`. -/
structure Hardware where
  version : ℕ → ℕ
  fresh : ℕ → ℕ

def madtTypeLapic : UInt8 := 0
def madtTypeIoapic : UInt8 := 1
def madtTypeIoapicOverride : UInt8 := 2

/-- `sizeof(madt_header_t)`; `length` is at 4 and `lapic_addr` at 36. -/
def sizeofMadtHeader : ℕ := 44

variable (hw : Hardware)

/-- The record at `madtRecord`. The line that is printed for it is left out: it names the type from an array of ten
names, so that the source reads behind the array for a type from 10 on. -/
def madtStep (mem : Mem) (s : ApicState) (madtRecord : ℕ) : ApicState :=
  if mem madtRecord = madtTypeLapic then { s with processorId := mem (madtRecord + 2) }
  else if mem madtRecord = madtTypeIoapic then
    let ioapicAddr := load32 mem (madtRecord + 4)
    let maxIrqs := hw.version ioapicAddr / 2 ^ 16 + 1
    { s with
      ioapicAddr := ioapicAddr
      maxIrqs := maxIrqs
      ioapicMapping := some fun i => if i < maxIrqs then 2 ^ 32 - 1 else hw.fresh i }
  else if mem madtRecord = madtTypeIoapicOverride then
    let irqSource := (mem (madtRecord + 3)).toNat
    let globalInt := load32 mem (madtRecord + 4)
    match s.ioapicMapping with
    | none => { s with nullStores := (irqSource, globalInt) :: s.nullStores }
    | some mapping => { s with ioapicMapping := some (Function.update mapping irqSource globalInt) }
  else s

/-- `none` if the loop does not end. -/
def madtLoop (mem : Mem) (madtEnd : ℕ) : ℕ → ApicState → ℕ → Option ApicState
  | 0, _, _ => none
  | fuel + 1, s, madtEntry =>
    if madtEntry < madtEnd then
      madtLoop mem madtEnd fuel (madtStep hw mem s madtEntry) (u32 (madtEntry + (mem (madtEntry + 1)).toNat))
    else some s

/-- The table that `rsdt_get_entry("APIC")` gives is at `madtHeader`. -/
def madtParse (mem : Mem) (madtHeader : ℕ) (s : ApicState) : Option ApicState :=
  let s := { s with lapicAddr := load32 mem (madtHeader + 36) }
  let length := load32 mem (madtHeader + 4)
  madtLoop hw mem (u32 (madtHeader + length)) (length + 1) s (u32 (madtHeader + sizeofMadtHeader))

/-! ## Tables -/

/-- The bytes of a record that the code reads: its header, `processor_id`, `ioapic_addr`, and `global_int`. -/
def recordRead (type : UInt8) : ℕ :=
  if type = madtTypeLapic then 3 else if type = madtTypeIoapic then 8
  else if type = madtTypeIoapicOverride then 8 else 2

/-- A record: its length is that of its bytes, and they have the fields that the code reads. -/
structure MadtRecord where
  bytes : List UInt8
  length_eq : (bytes.getD 1 0).toNat = bytes.length
  read_le : recordRead (bytes.getD 0 0) ≤ bytes.length

namespace MadtRecord

variable (r : MadtRecord)

/-- The bytes, as a memory. -/
def mem : Mem := fun i => r.bytes.getD i 0

def type : UInt8 := r.mem 0

/-- The fields of `int_over_record_t`. -/
def irqSource : ℕ := (r.mem 3).toNat

def globalInt : ℕ := load32 r.mem 4

/-- What the code does for the record. -/
def parse (s : ApicState) : ApicState := madtStep hw r.mem s 0

def isLapic : Bool := r.type = madtTypeLapic

def isIoapic : Bool := r.type = madtTypeIoapic

def isOverride : Bool := r.type = madtTypeIoapicOverride

end MadtRecord

/-- The table at `madtHeader` has the records. -/
structure MadtIn (mem : Mem) (madtHeader lapicAddr : ℕ) (records : List MadtRecord) : Prop where
  addr : load32 mem (madtHeader + 36) = lapicAddr
  length : load32 mem (madtHeader + 4) = sizeofMadtHeader + (records.flatMap MadtRecord.bytes).length
  bytes : ∀ i < (records.flatMap MadtRecord.bytes).length,
    mem (madtHeader + sizeofMadtHeader + i) = (records.flatMap MadtRecord.bytes).getD i 0
  low : madtHeader + sizeofMadtHeader + (records.flatMap MadtRecord.bytes).length < 2 ^ 32

variable {hw} {mem : Mem} {s : ApicState} {r : MadtRecord} {records L L' : List MadtRecord}
  {a fuel madtHeader lapicAddr : ℕ}

theorem recordRead_ge (type : UInt8) : 2 ≤ recordRead type := by
  unfold recordRead
  split_ifs <;> decide

theorem MadtRecord.two_le (r : MadtRecord) : 2 ≤ r.bytes.length := (recordRead_ge _).trans r.read_le

theorem MadtRecord.read (r : MadtRecord) {type : UInt8} (h : r.mem 0 = type) : recordRead type ≤ r.bytes.length :=
  h ▸ r.read_le

theorem madtStep_eq (h : ∀ i < r.bytes.length, mem (a + i) = r.mem i) (s : ApicState) :
    madtStep hw mem s a = r.parse hw s := by
  have htwo := r.two_le
  have htype : mem a = r.mem 0 := h 0 (by omega)
  have hword : 8 ≤ r.bytes.length → load32 mem (a + 4) = load32 r.mem 4 := fun hlen =>
    load32_shift fun i hi => by rw [Nat.add_assoc, h _ (by omega)]
  unfold MadtRecord.parse madtStep
  rw [htype]
  simp only [Nat.zero_add]
  by_cases h0 : r.mem 0 = madtTypeLapic
  · have hlen : 3 ≤ r.bytes.length := r.read h0
    rw [if_pos h0, if_pos h0, h 2 (by omega)]
  rw [if_neg h0, if_neg h0]
  by_cases h1 : r.mem 0 = madtTypeIoapic
  · have hlen : 8 ≤ r.bytes.length := r.read h1
    rw [if_pos h1, if_pos h1, hword hlen]
  rw [if_neg h1, if_neg h1]
  by_cases h2 : r.mem 0 = madtTypeIoapicOverride
  · have hlen : 8 ≤ r.bytes.length := r.read h2
    rw [if_pos h2, if_pos h2, hword hlen, h 3 (by omega)]
  · rw [if_neg h2, if_neg h2]

theorem madtLoop_eq (hbytes : ∀ i < (records.flatMap MadtRecord.bytes).length,
      mem (a + i) = (records.flatMap MadtRecord.bytes).getD i 0)
    (hlow : a + (records.flatMap MadtRecord.bytes).length < 2 ^ 32) (hfuel : records.length < fuel) (s : ApicState) :
    madtLoop hw mem (a + (records.flatMap MadtRecord.bytes).length) fuel s a =
      some (records.foldl (fun s r => r.parse hw s) s) := by
  induction records generalizing a fuel s with
  | nil =>
    obtain ⟨fuel, rfl⟩ := Nat.exists_eq_add_one.mpr hfuel
    exact if_neg (lt_irrefl a)
  | cons r records ih =>
    obtain ⟨fuel, rfl⟩ := Nat.exists_eq_add_one.mpr (Nat.zero_lt_of_lt hfuel)
    rw [List.flatMap_cons] at hbytes hlow ⊢
    rw [List.length_append] at hbytes hlow ⊢
    rw [List.length_cons] at hfuel
    have htwo := r.two_le
    have hhead : ∀ i < r.bytes.length, mem (a + i) = r.mem i := fun i hi => by
      rw [hbytes i (by omega), List.getD_append _ _ _ _ hi]
      rfl
    have hlen : (mem (a + 1)).toNat = r.bytes.length := by
      rw [hhead 1 (by omega)]
      exact r.length_eq
    rw [madtLoop, if_pos (by omega), madtStep_eq hhead, hlen, u32_of_lt (by omega), ← Nat.add_assoc]
    refine ih (fun i hi => ?_) (by omega) (by omega) _
    rw [Nat.add_assoc, hbytes _ (by omega), List.getD_append_right _ _ _ _ (by omega), Nat.add_sub_cancel_left]

theorem length_le_bytes (records : List MadtRecord) :
    records.length ≤ (records.flatMap MadtRecord.bytes).length := by
  induction records with
  | nil => exact le_rfl
  | cons r records ih =>
    have htwo := r.two_le
    rw [List.flatMap_cons, List.length_append, List.length_cons]
    omega

/-- **The code** goes over the records. -/
theorem madtParse_eq (h : MadtIn mem madtHeader lapicAddr records) (s : ApicState) :
    madtParse hw mem madtHeader s =
      some (records.foldl (fun s r => r.parse hw s) { s with lapicAddr := lapicAddr }) := by
  have hlow := h.low
  have hcount := length_le_bytes records
  unfold madtParse
  dsimp only
  rw [h.addr, h.length, u32_of_lt (by omega), u32_of_lt (by omega), ← Nat.add_assoc]
  exact madtLoop_eq h.bytes h.low (by omega) _

/-! ## The order of the records -/

variable {io : MadtRecord} {mapping : ℕ → ℕ}

/-- The table of the I/O APIC, before any override. -/
def MadtRecord.emptyMapping (hw : Hardware) (r : MadtRecord) (i : ℕ) : ℕ :=
  if i < hw.version (load32 r.mem 4) / 2 ^ 16 + 1 then 2 ^ 32 - 1 else hw.fresh i

/-- The table is created. -/
def MadtRecord.create (hw : Hardware) (r : MadtRecord) (s : ApicState) : ApicState :=
  { s with
    ioapicAddr := load32 r.mem 4
    maxIrqs := hw.version (load32 r.mem 4) / 2 ^ 16 + 1
    ioapicMapping := some (r.emptyMapping hw) }

/-- An override is stored. -/
def MadtRecord.store (r : MadtRecord) (s : ApicState) : ApicState :=
  match s.ioapicMapping with
  | none => { s with nullStores := (r.irqSource, r.globalInt) :: s.nullStores }
  | some mapping => { s with ioapicMapping := some (Function.update mapping r.irqSource r.globalInt) }

theorem parse_cases (hw : Hardware) (r : MadtRecord) (s : ApicState) :
    (r.isLapic = true ∧ r.isIoapic = false ∧ r.isOverride = false ∧
        r.parse hw s = { s with processorId := r.mem 2 }) ∨
      (r.isLapic = false ∧ r.isIoapic = true ∧ r.isOverride = false ∧ r.parse hw s = r.create hw s) ∨
      (r.isLapic = false ∧ r.isIoapic = false ∧ r.isOverride = true ∧ r.parse hw s = r.store s) ∨
      r.isLapic = false ∧ r.isIoapic = false ∧ r.isOverride = false ∧ r.parse hw s = s := by
  unfold MadtRecord.isLapic MadtRecord.isIoapic MadtRecord.isOverride MadtRecord.type
  by_cases h0 : r.mem 0 = madtTypeLapic
  · refine .inl ⟨decide_eq_true h0, ?_, ?_, if_pos h0⟩
    · rw [h0]
      rfl
    · rw [h0]
      rfl
  by_cases h1 : r.mem 0 = madtTypeIoapic
  · refine .inr (.inl ⟨decide_eq_false h0, decide_eq_true h1, ?_, (if_neg h0).trans (if_pos h1)⟩)
    rw [h1]
    rfl
  by_cases h2 : r.mem 0 = madtTypeIoapicOverride
  · exact .inr (.inr (.inl ⟨decide_eq_false h0, decide_eq_false h1, decide_eq_true h2,
      (if_neg h0).trans ((if_neg h1).trans (if_pos h2))⟩))
  · exact .inr (.inr (.inr ⟨decide_eq_false h0, decide_eq_false h1, decide_eq_false h2,
      (if_neg h0).trans ((if_neg h1).trans (if_neg h2))⟩))

theorem store_other (r : MadtRecord) (s : ApicState) :
    (r.store s).processorId = s.processorId ∧ (r.store s).lapicAddr = s.lapicAddr := by
  unfold MadtRecord.store
  cases s.ioapicMapping <;> exact ⟨rfl, rfl⟩

theorem parse_processorId (s : ApicState) :
    (r.parse hw s).processorId = if r.isLapic = true then r.mem 2 else s.processorId := by
  rcases parse_cases hw r s with ⟨hl, -, -, he⟩ | ⟨hl, -, -, he⟩ | ⟨hl, -, -, he⟩ | ⟨hl, -, -, he⟩ <;> rw [he, hl]
  · rfl
  · rfl
  · exact (store_other r s).1
  · rfl

/-- Only the records of local APICs matter for `processor_id`. -/
theorem foldl_processorId (L : List MadtRecord) (s : ApicState) :
    (L.foldl (fun s r => r.parse hw s) s).processorId =
      (L.filter MadtRecord.isLapic).foldl (fun _ r => r.mem 2) s.processorId := by
  induction L generalizing s with
  | nil => rfl
  | cons r L ih =>
    rw [List.foldl_cons, ih, parse_processorId]
    cases h : r.isLapic with
    | false => rw [if_neg Bool.false_ne_true, List.filter_cons_of_neg (by rw [h]; exact Bool.false_ne_true)]
    | true => rw [if_pos rfl, List.filter_cons_of_pos h, List.foldl_cons]

theorem parse_lapicAddr (s : ApicState) : (r.parse hw s).lapicAddr = s.lapicAddr := by
  rcases parse_cases hw r s with ⟨-, -, -, he⟩ | ⟨-, -, -, he⟩ | ⟨-, -, -, he⟩ | ⟨-, -, -, he⟩
  · rw [he]
  · rw [he]
    rfl
  · rw [he]
    exact (store_other r s).2
  · rw [he]

theorem foldl_lapicAddr (L : List MadtRecord) (s : ApicState) :
    (L.foldl (fun s r => r.parse hw s) s).lapicAddr = s.lapicAddr := by
  induction L generalizing s with
  | nil => rfl
  | cons r L ih => rw [List.foldl_cons, ih, parse_lapicAddr]

/-- Before the record of the I/O APIC an override is stored through `NULL`. -/
theorem foldl_before (hw : Hardware) (h : ∀ r ∈ L, r.isIoapic = false) (hnull : s.ioapicMapping = none) :
    (L.foldl (fun s r => r.parse hw s) s).ioapicMapping = none ∧
      (L.foldl (fun s r => r.parse hw s) s).nullStores.length =
        s.nullStores.length + (L.filter MadtRecord.isOverride).length := by
  induction L generalizing s with
  | nil => exact ⟨hnull, rfl⟩
  | cons r L ih =>
    have hrest := fun r' hr' => h r' (List.mem_cons_of_mem r hr')
    rw [List.foldl_cons]
    rcases parse_cases hw r s with ⟨-, -, hov, he⟩ | ⟨-, hio, -, he⟩ | ⟨-, -, hov, he⟩ | ⟨-, -, hov, he⟩
    · rw [he, List.filter_cons_of_neg (by rw [hov]; exact Bool.false_ne_true)]
      exact ih hrest hnull
    · rw [h r List.mem_cons_self] at hio
      cases hio
    · have hstore : r.store s = { s with nullStores := (r.irqSource, r.globalInt) :: s.nullStores } := by
        rw [MadtRecord.store, hnull]
      obtain ⟨hnone, hlen⟩ := ih hrest (show (r.store s).ioapicMapping = none by rw [hstore]; exact hnull)
      rw [he, List.filter_cons_of_pos hov, hlen, hstore, List.length_cons, List.length_cons]
      exact ⟨hstore ▸ hnone, by omega⟩
    · rw [he, List.filter_cons_of_neg (by rw [hov]; exact Bool.false_ne_true)]
      exact ih hrest hnull

theorem foldl_after (hw : Hardware) (h : ∀ r ∈ L, r.isIoapic = false) (hmap : s.ioapicMapping = some mapping) :
    (L.foldl (fun s r => r.parse hw s) s).ioapicMapping = some ((L.filter MadtRecord.isOverride).foldl
        (fun m r => Function.update m r.irqSource r.globalInt) mapping) ∧
      (L.foldl (fun s r => r.parse hw s) s).ioapicAddr = s.ioapicAddr ∧
      (L.foldl (fun s r => r.parse hw s) s).maxIrqs = s.maxIrqs ∧
      (L.foldl (fun s r => r.parse hw s) s).nullStores = s.nullStores := by
  induction L generalizing s mapping with
  | nil => exact ⟨hmap, rfl, rfl, rfl⟩
  | cons r L ih =>
    have hrest := fun r' hr' => h r' (List.mem_cons_of_mem r hr')
    rw [List.foldl_cons]
    rcases parse_cases hw r s with ⟨-, -, hov, he⟩ | ⟨-, hio, -, he⟩ | ⟨-, -, hov, he⟩ | ⟨-, -, hov, he⟩
    · rw [he, List.filter_cons_of_neg (by rw [hov]; exact Bool.false_ne_true)]
      exact ih hrest hmap
    · rw [h r List.mem_cons_self] at hio
      cases hio
    · have hstore : r.store s = { s with
          ioapicMapping := some (Function.update mapping r.irqSource r.globalInt) } := by
        rw [MadtRecord.store, hmap]
      rw [he, List.filter_cons_of_pos hov, List.foldl_cons, hstore]
      exact ih hrest rfl
    · rw [he, List.filter_cons_of_neg (by rw [hov]; exact Bool.false_ne_true)]
      exact ih hrest hmap

/-- One I/O APIC, and overrides of different interrupts that it has. -/
structure MadtOk (hw : Hardware) (L : List MadtRecord) : Prop where
  one : ∃ io, L.filter MadtRecord.isIoapic = [io] ∧
    ∀ r ∈ L, r.isOverride = true → r.irqSource < hw.version (load32 io.mem 4) / 2 ^ 16 + 1
  distinct : ((L.filter MadtRecord.isOverride).map MadtRecord.irqSource).Nodup

/-- No override comes before the record of the I/O APIC. -/
def IoapicFirst (L : List MadtRecord) : Prop := L.Pairwise fun r r' => ¬ (r.isOverride = true ∧ r'.isIoapic = true)

/-- The same outcome. -/
structure SameOutcome (s t : ApicState) : Prop where
  lapicAddr : s.lapicAddr = t.lapicAddr
  processorId : s.processorId = t.processorId
  ioapicAddr : s.ioapicAddr = t.ioapicAddr
  maxIrqs : s.maxIrqs = t.maxIrqs
  ioapicMapping : s.ioapicMapping = t.ioapicMapping

theorem ioapicFirst_iff {pre post : List MadtRecord} (hpre : ∀ r ∈ pre, r.isIoapic = false)
    (hio : io.isIoapic = true) (hpost : ∀ r ∈ post, r.isIoapic = false) :
    IoapicFirst (pre ++ io :: post) ↔ pre.filter MadtRecord.isOverride = [] := by
  have hplain : ∀ {L : List MadtRecord} {r : MadtRecord}, (∀ r ∈ L, r.isIoapic = false) → ∀ r' ∈ L,
      ¬ (r.isOverride = true ∧ r'.isIoapic = true) := fun hL r' hr' h => by
    rw [hL r' hr'] at h
    exact Bool.false_ne_true h.2
  have hpair : ∀ {L : List MadtRecord}, (∀ r ∈ L, r.isIoapic = false) → IoapicFirst L := fun hL =>
    List.pairwise_of_forall_mem_list fun _ _ r' hr' => hplain hL r' hr'
  rw [IoapicFirst, List.pairwise_append, List.filter_eq_nil_iff]
  constructor
  · rintro ⟨-, -, hcross⟩ r hr hov
    exact hcross r hr io List.mem_cons_self ⟨hov, hio⟩
  · intro hnone
    refine ⟨hpair hpre, List.pairwise_cons.mpr ⟨hplain hpost, hpair hpost⟩, fun r hr r' hr' h => hnone r hr h.1⟩

/-- The outcome of a table with the record `io` of the I/O APIC. -/
theorem foldl_spec (hw : Hardware) (hio : L.filter MadtRecord.isIoapic = [io]) (hnull : s.ioapicMapping = none)
    (hclean : s.nullStores = []) {t : ApicState} (ht : L.foldl (fun s r => r.parse hw s) s = t) :
    (t.nullStores = [] ↔ IoapicFirst L) ∧ t.ioapicAddr = load32 io.mem 4 ∧
      t.maxIrqs = hw.version (load32 io.mem 4) / 2 ^ 16 + 1 ∧
      (IoapicFirst L → t.ioapicMapping = some ((L.filter MadtRecord.isOverride).foldl
        (fun m r => Function.update m r.irqSource r.globalInt) (io.emptyMapping hw))) := by
  obtain ⟨pre, post, rfl, hpre, hself, hpost⟩ := List.filter_eq_cons_iff.mp hio
  have hpre' : ∀ r ∈ pre, r.isIoapic = false := fun r hr => Bool.eq_false_iff.mpr (hpre r hr)
  have hpost' : ∀ r ∈ post, r.isIoapic = false := fun r hr =>
    Bool.eq_false_iff.mpr (List.filter_eq_nil_iff.mp hpost r hr)
  obtain ⟨-, hlen⟩ := foldl_before hw hpre' hnull
  rw [hclean, List.length_nil, Nat.zero_add] at hlen
  rw [List.foldl_append, List.foldl_cons] at ht
  set s₁ := pre.foldl (fun s r => r.parse hw s) s
  have hself' : io.isOverride = false ∧ io.parse hw s₁ = io.create hw s₁ := by
    rcases parse_cases hw io s₁ with ⟨-, h, -, -⟩ | ⟨-, -, hov, he⟩ | ⟨-, h, -, -⟩ | ⟨-, h, -, -⟩
    · rw [hself] at h
      cases h
    · exact ⟨hov, he⟩
    · rw [hself] at h
      cases h
    · rw [hself] at h
      cases h
  rw [hself'.2] at ht
  have hcreated : (io.create hw s₁).ioapicMapping = some (io.emptyMapping hw) := rfl
  obtain ⟨hmap, haddr, hmax, hstores⟩ := foldl_after hw hpost' hcreated
  rw [ht] at hmap haddr hmax hstores
  have hfirst := ioapicFirst_iff hpre' hself hpost'
  refine ⟨?_, haddr, hmax, fun h => ?_⟩
  · rw [hfirst, hstores, ← List.length_eq_zero_iff, ← List.length_eq_zero_iff]
    exact iff_of_eq (congrArg (· = 0) hlen)
  · rw [hmap, List.filter_append, hfirst.mp h, List.nil_append,
      List.filter_cons_of_neg (by rw [hself'.1]; exact Bool.false_ne_true)]

/-- Overrides of different interrupts can be stored in any order. -/
theorem foldl_update_perm {M M' : List MadtRecord} (h : M.Perm M') (hd : (M.map MadtRecord.irqSource).Nodup)
    (m : ℕ → ℕ) : M.foldl (fun m r => Function.update m r.irqSource r.globalInt) m =
      M'.foldl (fun m r => Function.update m r.irqSource r.globalInt) m := by
  refine h.foldl_eq' (fun x hx y hy z => ?_) m
  by_cases he : x.irqSource = y.irqSource
  · rw [List.inj_on_of_nodup_map hd hx hy he]
  · exact Function.update_comm he _ _ _

/-- **The order of the records** does not matter, and nothing is stored through `NULL`, exactly when the record of
the I/O APIC comes before every override. -/
theorem madt_order_iff {mem' : Mem} {madtHeader' : ℕ} (hok : MadtOk hw L) (hperm : L.Perm L')
    (hlapic : L.filter MadtRecord.isLapic = L'.filter MadtRecord.isLapic) (hin : MadtIn mem madtHeader lapicAddr L)
    (hin' : MadtIn mem' madtHeader' lapicAddr L') (hnull : s.ioapicMapping = none) (hclean : s.nullStores = []) :
    ∃ t t', madtParse hw mem madtHeader s = some t ∧ madtParse hw mem' madtHeader' s = some t' ∧
      (SameOutcome t t' ∧ t.nullStores = [] ∧ t'.nullStores = [] ↔ IoapicFirst L ∧ IoapicFirst L') := by
  obtain ⟨io, hio, -⟩ := hok.one
  have hio' : L'.filter MadtRecord.isIoapic = [io] :=
    List.perm_singleton.mp ((hperm.filter MadtRecord.isIoapic).symm.trans (hio ▸ List.Perm.refl _))
  refine ⟨_, _, madtParse_eq hin s, madtParse_eq hin' s, ?_⟩
  have hnull' : ({ s with lapicAddr := lapicAddr } : ApicState).ioapicMapping = none := hnull
  obtain ⟨hstores, haddr, hmax, hmap⟩ := foldl_spec hw hio hnull' hclean rfl
  obtain ⟨hstores', haddr', hmax', hmap'⟩ := foldl_spec hw hio' hnull' hclean rfl
  constructor
  · rintro ⟨-, h, h'⟩
    exact ⟨hstores.mp h, hstores'.mp h'⟩
  · rintro ⟨h, h'⟩
    refine ⟨⟨?_, ?_, haddr.trans haddr'.symm, hmax.trans hmax'.symm, ?_⟩, hstores.mpr h, hstores'.mpr h'⟩
    · rw [foldl_lapicAddr, foldl_lapicAddr]
    · rw [foldl_processorId, foldl_processorId, hlapic]
    · rw [hmap h, hmap' h', foldl_update_perm (hperm.filter _) hok.distinct]

/-! ## Tables in memory -/

def lapicRecord : MadtRecord := ⟨[0, 8, 1, 1, 1, 0, 0, 0], by decide, by decide⟩

def ioapicRecord : MadtRecord := ⟨[1, 12, 2, 0, 0, 0, 192, 254, 0, 0, 0, 0], by decide, by decide⟩

/-- The interrupt 0 of the ISA bus is interrupt 2. -/
def overrideRecord : MadtRecord := ⟨[2, 10, 0, 0, 2, 0, 0, 0, 0, 0], by decide, by decide⟩

/-- A table at 64, with the local APICs at `0xFEE00000`. -/
def madtAt (L : List MadtRecord) : Mem := fun x =>
  ([65, 80, 73, 67, UInt8.ofNat (44 + (L.flatMap MadtRecord.bytes).length), 0, 0, 0] ++ List.replicate 28 0 ++
    [0, 0, 224, 254, 1, 0, 0, 0] ++ L.flatMap MadtRecord.bytes).getD (x - 64) 0

def demoHardware : Hardware := ⟨fun _ => 0x170011, fun _ => 0⟩

def demoApic : ApicState := ⟨0, 0, 0, 0, none, []⟩

theorem madt_order_swap : ∃ t t',
    madtParse demoHardware (madtAt [lapicRecord, ioapicRecord, overrideRecord]) 64 demoApic = some t ∧
      madtParse demoHardware (madtAt [ioapicRecord, overrideRecord, lapicRecord]) 64 demoApic = some t' ∧
      SameOutcome t t' ∧ t.nullStores = [] ∧ t'.nullStores = [] := by
  have hok : MadtOk demoHardware [lapicRecord, ioapicRecord, overrideRecord] :=
    ⟨⟨ioapicRecord, rfl, by decide⟩, by decide⟩
  have hperm : [lapicRecord, ioapicRecord, overrideRecord].Perm [ioapicRecord, overrideRecord, lapicRecord] :=
    @List.perm_append_comm _ [lapicRecord] [ioapicRecord, overrideRecord]
  have hin : MadtIn (madtAt [lapicRecord, ioapicRecord, overrideRecord]) 64 0xFEE00000
      [lapicRecord, ioapicRecord, overrideRecord] := ⟨by decide, by decide, by decide, by decide⟩
  have hin' : MadtIn (madtAt [ioapicRecord, overrideRecord, lapicRecord]) 64 0xFEE00000
      [ioapicRecord, overrideRecord, lapicRecord] := ⟨by decide, by decide, by decide, by decide⟩
  obtain ⟨t, t', ht, ht', hiff⟩ := madt_order_iff hok hperm rfl hin hin'
    (show demoApic.ioapicMapping = none from rfl) rfl
  exact ⟨t, t', ht, ht', hiff.mpr ⟨by unfold IoapicFirst; decide, by unfold IoapicFirst; decide⟩⟩

/-- An override before the I/O APIC is stored through `NULL`, and it is not in the table then. -/
theorem madt_override_lost :
    MadtIn (madtAt [overrideRecord, ioapicRecord]) 64 0xFEE00000 [overrideRecord, ioapicRecord] ∧
      MadtIn (madtAt [ioapicRecord, overrideRecord]) 64 0xFEE00000 [ioapicRecord, overrideRecord] ∧
      ∃ t t', madtParse demoHardware (madtAt [overrideRecord, ioapicRecord]) 64 demoApic = some t ∧
        madtParse demoHardware (madtAt [ioapicRecord, overrideRecord]) 64 demoApic = some t' ∧
        t.nullStores = [(0, 2)] ∧ t.ioapicMapping.map (· 0) = some (2 ^ 32 - 1) ∧
        t'.ioapicMapping.map (· 0) = some 2 :=
  ⟨⟨by decide, by decide, by decide, by decide⟩, ⟨by decide, by decide, by decide, by decide⟩, _, _, rfl, rfl, rfl,
    rfl, rfl⟩

end BulbOS.Apic
