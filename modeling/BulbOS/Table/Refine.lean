import BulbOS.Lib.Probe
import BulbOS.Lib.Run
import BulbOS.Table.Model

/-!
# A hash table is a finite map

Runs of `ht_get`, `ht_set` and `ht_remove` on a table without `HT_RESIZE`, where `ht_set` is called
for a key that `ht_get` reports absent, as the caches of the kernel do.

* `TableInv`: the table stores the map `m`, its probe sequences are whole, and its load leaves an
  empty slot;
* `TableInv.get`, `TableInv.set`, `TableInv.remove`: what one call returns;
* **`hashTable_refines_map`**: every run of a table is a run of the map `MapStep`.
-/

namespace BulbOS.Table

open KLib

set_option linter.unusedSectionVars false

variable {κ ν : Type} [DecidableEq κ] [HashKey κ] {t t' : HashTable κ ν} {m m' : κ → Option ν} {k : κ}

/-- What a probe sees of an entry. -/
def slotOf (e : HashEntry κ ν) : Slot κ :=
  match e.state with
  | .empty => .empty
  | .tombstone => .dead
  | .valid => .used e.key

/-- The slots of a table. -/
def HashTable.slots (t : HashTable κ ν) : ℕ → Slot κ := slotOf ∘ t.entries

theorem slotOf_eq_empty {e : HashEntry κ ν} : slotOf e = .empty ↔ e.state = .empty := by
  unfold slotOf; cases e.state <;> simp

theorem slotOf_eq_used {e : HashEntry κ ν} : slotOf e = .used k ↔ e.state = .valid ∧ e.key = k := by
  unfold slotOf; cases e.state <;> simp

theorem slotOf_entry (t : HashTable κ ν) (index : ℕ) :
    slotOf (t.entry index) = t.slots (index % t.capacity) := rfl

theorem slots_setEntry (t : HashTable κ ν) (index : ℕ) (e : HashEntry κ ν) :
    (t.setEntry index e).slots = Function.update t.slots (index % t.capacity) (slotOf e) :=
  Function.comp_update ..

theorem stopFind_iff {e : HashEntry κ ν} :
    stopFind k e = true ↔ slotOf e = .empty ∨ slotOf e = .used k := by
  simp [stopFind, slotOf_eq_empty, slotOf_eq_used]

theorem stopSlot_iff {e : HashEntry κ ν} :
    stopSlot k e = true ↔ (∀ k', slotOf e ≠ .used k') ∨ slotOf e = .used k := by
  unfold stopSlot slotOf; cases e.state <;> simp

theorem home_lt (t : HashTable κ ν) (k : κ) : t.home k < t.capacity := Nat.mod_lt _ t.capacity.2.1

/-- **A probe loop** returns the first index that stops it. -/
theorem htProbe_eq {stop : HashEntry κ ν → Bool} {d fuel index : ℕ}
    (hstop : stop (t.entry (index + d)) = true)
    (hbefore : ∀ e < d, ¬ stop (t.entry (index + e)) = true) (hfuel : d < fuel)
    (hlt : index + d < 2 ^ 32) : htProbe t stop fuel index = some (index + d) := by
  induction d generalizing fuel index with
  | zero =>
    obtain ⟨fuel, rfl⟩ := Nat.exists_eq_succ_of_ne_zero (by omega : fuel ≠ 0)
    rw [Nat.add_zero] at hstop ⊢
    rw [htProbe, if_pos hstop]
  | succ d ih =>
    obtain ⟨fuel, rfl⟩ := Nat.exists_eq_succ_of_ne_zero (by omega : fuel ≠ 0)
    have hnext : index + (d + 1) = index + 1 + d := by omega
    have hfirst : ¬ stop (t.entry index) = true := hbefore 0 (by omega)
    rw [htProbe, if_neg hfirst, u32_of_lt (by omega), hnext]
    refine ih (hnext ▸ hstop) (fun e he => ?_) (by omega) (by omega)
    rw [show index + 1 + e = index + (e + 1) by omega]
    exact hbefore (e + 1) (by omega)

/-- The table `t` stores the map `m`. -/
structure TableInv (t : HashTable κ ν) (m : κ → Option ν) : Prop where
  probing : Probing t.capacity t.home t.slots
  size_eq : t.size = occupied t.capacity t.slots
  large : 5 ≤ (t.capacity : ℕ)
  load : t.maxLoad ≤ 75
  fit : t.size * 100 ≤ t.capacity * t.maxLoad + 100
  fixed : t.resize = false
  stored : ∀ k v, m k = some v ↔
    ∃ i < (t.capacity : ℕ), t.slots i = .used k ∧ (t.entries i).value = some v
  nonnull : ∀ i < (t.capacity : ℕ), ∀ k, t.slots i = .used k → (t.entries i).value ≠ none

theorem TableInv.size_lt (h : TableInv t m) : t.size < t.capacity := by
  have h₁ := h.fit
  have h₂ := h.large
  have h₃ := Nat.mul_le_mul_left (t.capacity : ℕ) h.load
  omega

theorem TableInv.eq_none_iff (h : TableInv t m) :
    m k = none ↔ ∀ i < (t.capacity : ℕ), t.slots i ≠ .used k := by
  constructor
  · intro hk i hi hu
    obtain ⟨v, hv⟩ := Option.ne_none_iff_exists'.mp (h.nonnull i hi k hu)
    rw [(h.stored k v).mpr ⟨i, hi, hu, hv⟩] at hk
    cases hk
  · intro habs
    by_contra hk
    obtain ⟨v, hv⟩ := Option.ne_none_iff_exists'.mp hk
    obtain ⟨i, hi, hu, _⟩ := (h.stored k v).mp hv
    exact habs i hi hu

theorem TableInv.eq_value (h : TableInv t m) {i : ℕ} (hi : i < t.capacity) (hu : t.slots i = .used k) :
    m k = (t.entries i).value := by
  obtain ⟨v, hv⟩ := Option.ne_none_iff_exists'.mp (h.nonnull i hi k hu)
  rw [hv]
  exact (h.stored k v).mpr ⟨i, hi, hu, hv⟩

/-- A loop that stops at empty entries stops if there is one, at a first offset below the capacity. -/
theorem exists_probe {j : ℕ} (hj : j < t.capacity) (he : t.slots j = .empty) (k : κ) {stop : HashEntry κ ν → Bool}
    (hstop : ∀ e, slotOf e = .empty → stop e = true) :
    ∃ d < (t.capacity : ℕ), htProbe t stop (t.capacity + 1) (t.home k) = some (t.home k + d) ∧
      stop (t.entry (t.home k + d)) = true ∧ ∀ e < d, ¬ stop (t.entry (t.home k + e)) = true := by
  obtain ⟨d, hd, rfl⟩ := exists_offset t.capacity.2.1 (t.home k) hj
  obtain ⟨e, hle, hp, hbefore⟩ := exists_first (p := fun d => stop (t.entry (t.home k + d)) = true)
    (hstop _ he)
  have hhome := home_lt t k
  have hcap := t.capacity.2.2
  exact ⟨e, by omega, htProbe_eq hp hbefore (by omega) (by omega), hp, hbefore⟩

theorem TableInv.probe (h : TableInv t m) (k : κ) {stop : HashEntry κ ν → Bool}
    (hstop : ∀ e, slotOf e = .empty → stop e = true) :
    ∃ d < (t.capacity : ℕ), htProbe t stop (t.capacity + 1) (t.home k) = some (t.home k + d) ∧
      stop (t.entry (t.home k + d)) = true ∧ ∀ e < d, ¬ stop (t.entry (t.home k + e)) = true := by
  obtain ⟨j, hj, he⟩ := exists_empty (h.size_eq ▸ h.size_lt)
  exact exists_probe hj he k hstop

/-- **The search of `ht_get` and `ht_remove`** stops at the key, or proves it absent. -/
theorem TableInv.find (h : TableInv t m) (k : κ) :
    ∃ d < (t.capacity : ℕ), htProbe t (stopFind k) (t.capacity + 1) (t.home k) = some (t.home k + d) ∧
      (slotOf (t.entry (t.home k + d)) = .empty ∧ m k = none ∨
        slotOf (t.entry (t.home k + d)) = .used k) := by
  obtain ⟨d, hd, hrun, hstop, hbefore⟩ := h.probe k fun _ he => stopFind_iff.mpr (.inl he)
  refine ⟨d, hd, hrun, ?_⟩
  rcases stopFind_iff.mp hstop with he | hu
  · refine .inl ⟨he, h.eq_none_iff.mpr (h.probing.absent he fun e hlt hu => ?_)⟩
    exact hbefore e hlt (stopFind_iff.mpr (.inr hu))
  · exact .inr hu

/-- **`ht_get`** returns the value of the key. -/
theorem TableInv.get (h : TableInv t m) (k : κ) : htGet t k = some (m k) := by
  obtain ⟨d, hd, hrun, hres⟩ := h.find k
  simp only [htGet, hrun]
  rcases hres with ⟨he, hm⟩ | hu
  · simp [slotOf_eq_empty.mp he, hm]
  · have hs := (slotOf_eq_used.mp hu).1
    have hv : m k = (t.entry (t.home k + d)).value := h.eq_value (Nat.mod_lt _ t.capacity.2.1) hu
    simp [hs, hv]

theorem TableInv.stored_put (h : TableInv t m) (hk : m k = none) {j : ℕ} (hj : j < t.capacity)
    (hfree : ∀ k', t.slots j ≠ .used k') (v : ν) (k' : κ) (v' : ν) :
    Function.update m k (some v) k' = some v' ↔ ∃ i < (t.capacity : ℕ),
      Function.update t.slots j (.used k) i = .used k' ∧
        (Function.update t.entries j ⟨k, some v, .valid⟩ i).value = some v' := by
  constructor
  · intro hm
    by_cases hkk : k' = k
    · subst hkk
      exact ⟨j, hj, Function.update_self .., by simpa using hm⟩
    · rw [Function.update_of_ne hkk] at hm
      obtain ⟨i, hi, hu, hv⟩ := (h.stored k' v').mp hm
      have hij : i ≠ j := fun e => hfree k' (e ▸ hu)
      exact ⟨i, hi, by rwa [Function.update_of_ne hij], by rwa [Function.update_of_ne hij]⟩
  · rintro ⟨i, hi, hu, hv⟩
    by_cases hij : i = j
    · subst hij
      rw [Function.update_self, Slot.used.injEq] at hu
      subst hu
      simpa using hv
    · rw [Function.update_of_ne hij] at hu hv
      have hkk : k' ≠ k := fun e => h.eq_none_iff.mp hk i hi (e ▸ hu)
      rw [Function.update_of_ne hkk]
      exact (h.stored k' v').mpr ⟨i, hi, hu, hv⟩

theorem TableInv.stored_drop (h : TableInv t m) {j : ℕ} (hj : j < t.capacity)
    (hu : t.slots j = .used k) {e : HashEntry κ ν} (he : ∀ k', slotOf e ≠ .used k') (k' : κ) (v' : ν) :
    Function.update m k none k' = some v' ↔ ∃ i < (t.capacity : ℕ),
      Function.update t.slots j (slotOf e) i = .used k' ∧
        (Function.update t.entries j e i).value = some v' := by
  constructor
  · intro hm
    have hkk : k' ≠ k := by
      rintro rfl
      rw [Function.update_self] at hm
      cases hm
    rw [Function.update_of_ne hkk] at hm
    obtain ⟨i, hi, hu', hv⟩ := (h.stored k' v').mp hm
    have hij : i ≠ j := by
      rintro rfl
      rw [hu, Slot.used.injEq] at hu'
      exact hkk hu'.symm
    exact ⟨i, hi, by rwa [Function.update_of_ne hij], by rwa [Function.update_of_ne hij]⟩
  · rintro ⟨i, hi, hu', hv⟩
    have hij : i ≠ j := by
      rintro rfl
      exact he k' (by rwa [Function.update_self] at hu')
    rw [Function.update_of_ne hij] at hu' hv
    have hkk : k' ≠ k := by
      rintro rfl
      exact hij (h.probing.unique i hi j hj k' hu' hu)
    rw [Function.update_of_ne hkk]
    exact (h.stored k' v').mpr ⟨i, hi, hu', hv⟩

/-- Values stay non-`NULL` when the entry written has one, or is not valid. -/
theorem TableInv.nonnull_update (h : TableInv t m) {j : ℕ} {e : HashEntry κ ν}
    (he : ∀ k, slotOf e = .used k → e.value ≠ none) :
    ∀ i < (t.capacity : ℕ), ∀ k, Function.update t.slots j (slotOf e) i = .used k →
      (Function.update t.entries j e i).value ≠ none := by
  intro i hi k hu
  by_cases hij : i = j
  · subst hij
    rw [Function.update_self] at hu ⊢
    exact he k hu
  · rw [Function.update_of_ne hij] at hu ⊢
    exact h.nonnull i hi k hu

/-- The table after `ht_set` wrote the entry `index`, counting it if it was empty. -/
theorem TableInv.put_slot (h : TableInv t m) (hk : m k = none)
    (hroom : t.size * 100 ≤ t.capacity * t.maxLoad) {d : ℕ} (hd : d < t.capacity)
    (hfree : ∀ k', t.slots ((t.home k + d) % t.capacity) ≠ .used k')
    (hbefore : ∀ e < d, t.slots ((t.home k + e) % t.capacity) ≠ .empty) (v : ν) {n : ℕ}
    (hn : n = occupied t.capacity (Function.update t.slots ((t.home k + d) % t.capacity) (.used k)))
    (hle : n ≤ t.size + 1) :
    TableInv { t.setEntry (t.home k + d) ⟨k, some v, .valid⟩ with size := n }
      (Function.update m k (some v)) := by
  have hj := Nat.mod_lt (t.home k + d) t.capacity.2.1
  have hs : slotOf (⟨k, some v, .valid⟩ : HashEntry κ ν) = .used k := rfl
  constructor
  · change Probing t.capacity t.home (t.setEntry _ _).slots
    rw [slots_setEntry, hs]
    exact h.probing.insert (h.eq_none_iff.mp hk) hd hbefore
  · change n = occupied t.capacity (t.setEntry _ _).slots
    rw [slots_setEntry, hs, hn]
  · exact h.large
  · exact h.load
  · change n * 100 ≤ t.capacity * t.maxLoad + 100
    omega
  · exact h.fixed
  · intro k' v'
    change _ ↔ ∃ i < (t.capacity : ℕ), (t.setEntry _ _).slots i = _ ∧ _
    rw [slots_setEntry, hs]
    exact h.stored_put hk hj hfree v k' v'
  · change ∀ i < (t.capacity : ℕ), ∀ k', (t.setEntry _ _).slots i = _ → _
    rw [slots_setEntry]
    exact h.nonnull_update fun _ _ => by simp

theorem TableInv.overloaded_iff (h : TableInv t m) :
    t.Overloaded ↔ t.capacity * t.maxLoad < t.size * 100 := by
  have h₁ := h.size_lt
  have h₂ := t.capacity.2.2
  have h₃ := Nat.mul_le_mul h₂ h.load
  unfold HashTable.Overloaded
  rw [u32_of_lt (by omega), u32_of_lt (by omega), gt_iff_lt]

theorem TableInv.free_slot (h : TableInv t m) (hk : m k = none) :
    ∃ d < (t.capacity : ℕ), htProbe t (stopSlot k) (t.capacity + 1) (t.home k) = some (t.home k + d) ∧
      (∀ k', slotOf (t.entry (t.home k + d)) ≠ .used k') ∧
      ∀ e < d, t.slots ((t.home k + e) % t.capacity) ≠ .empty := by
  obtain ⟨d, hd, hrun, hstop, hb⟩ := h.probe k fun _ he =>
    stopSlot_iff.mpr (.inl fun k' hu => by rw [he] at hu; cases hu)
  have hj := Nat.mod_lt (t.home k + d) t.capacity.2.1
  refine ⟨d, hd, hrun, ?_, fun e he hemp => ?_⟩
  · rcases stopSlot_iff.mp hstop with hf | hu
    · exact hf
    · exact absurd hu (h.eq_none_iff.mp hk _ hj)
  · refine hb e he (stopSlot_iff.mpr (.inl fun k' hu => ?_))
    rw [slotOf_entry, hemp] at hu
    cases hu

/-- `ht_set` of an absent key fills an entry that was not valid. -/
theorem TableInv.put_entries {v : ν} (h : TableInv t m) (hk : m k = none) (hput : htPut t k (some v) = some t') :
    ∃ index, htProbe t (stopSlot k) (t.capacity + 1) (t.home k) = some index ∧ (t.entry index).state ≠ .valid ∧
      t'.capacity = t.capacity ∧ t'.entries = Function.update t.entries (index % t.capacity) ⟨k, some v, .valid⟩ := by
  obtain ⟨d, -, hrun, hfree, -⟩ := h.free_slot hk
  have hstate : (t.entry (t.home k + d)).state ≠ .valid := fun hst => hfree _ (slotOf_eq_used.mpr ⟨hst, rfl⟩)
  refine ⟨_, hrun, hstate, ?_⟩
  rw [htPut, hrun] at hput
  obtain rfl := Option.some.inj hput
  split
  · rename_i hst
    exact absurd hst hstate
  · exact ⟨rfl, rfl⟩
  · exact ⟨rfl, rfl⟩

/-- **`ht_set` of an absent key** below the load limit stores it. -/
theorem TableInv.put (h : TableInv t m) (hk : m k = none)
    (hroom : t.size * 100 ≤ t.capacity * t.maxLoad) (v : ν) :
    ∃ t', htPut t k (some v) = some t' ∧ TableInv t' (Function.update m k (some v)) := by
  obtain ⟨d, hd, hrun, hfree, hbefore⟩ := h.free_slot hk
  have hj := Nat.mod_lt (t.home k + d) t.capacity.2.1
  have hput := fun n => h.put_slot hk hroom hd hfree hbefore v (n := n)
  simp only [htPut, hrun]
  cases hst : (t.entry (t.home k + d)).state with
  | valid => exact absurd (slotOf_eq_used.mpr ⟨hst, rfl⟩) (hfree _)
  | empty =>
    have hemp : t.slots ((t.home k + d) % t.capacity) = .empty := slotOf_eq_empty.mpr hst
    have hsz := occupied_fill hj hemp (by simp : Slot.used k ≠ .empty)
    have hlt := h.size_lt
    have hcap := t.capacity.2.2
    refine ⟨{ t.setEntry (t.home k + d) ⟨k, some v, .valid⟩ with size := u32 (t.size + 1) },
      by simp [hst], hput _ ?_ ?_⟩
    · rw [hsz, ← h.size_eq, u32_of_lt (by omega)]
    · rw [u32_of_lt (by omega)]
  | tombstone =>
    have hne : t.slots ((t.home k + d) % t.capacity) ≠ .empty := fun e => by
      rw [← slotOf_entry, slotOf_eq_empty, hst] at e
      cases e
    refine ⟨t.setEntry (t.home k + d) ⟨k, some v, .valid⟩, by simp [hst], hput t.size ?_ (by omega)⟩
    rw [occupied_update_same hne (by simp), h.size_eq]

theorem htProbe_stop {stop : HashEntry κ ν → Bool} {fuel i index : ℕ} (h : htProbe t stop fuel i = some index) :
    stop (t.entry index) = true := by
  induction fuel generalizing i with
  | zero => cases h
  | succ fuel ih =>
    rw [htProbe] at h
    split_ifs at h with hstop
    · cases h
      exact hstop
    · exact ih h

/-- **`ht_set` of a key** that it finds replaces the value. -/
theorem TableInv.overwrite {index : ℕ} (h : TableInv t m)
    (hrun : htProbe t (stopSlot k) (t.capacity + 1) (t.home k) = some index)
    (hst : (t.entry index).state = .valid) (v : ν) :
    ∃ t', htPut t k (some v) = some t' ∧ TableInv t' (Function.update m k (some v)) := by
  have hj := Nat.mod_lt index t.capacity.2.1
  have hu : t.slots (index % t.capacity) = .used k := by
    have hstop := htProbe_stop hrun
    rw [stopSlot, hst] at hstop
    have hkey : (t.entry index).key = k := by simpa using hstop
    exact slotOf_eq_used.mpr ⟨hst, hkey⟩
  let e : HashEntry κ ν := { t.entry index with value := some v }
  have he : slotOf e = t.slots (index % t.capacity) := rfl
  have hslots : (t.setEntry index e).slots = t.slots := by
    rw [slots_setEntry, he, Function.update_eq_self]
  have hput : htPut t k (some v) = some (t.setEntry index e) := by
    rw [htPut, hrun]
    simp [hst, e]
  refine ⟨_, hput, ⟨?_, ?_, h.large, h.load, h.fit, h.fixed, fun k' v' => ?_, ?_⟩⟩
  · rw [hslots]
    exact h.probing
  · rw [hslots]
    exact h.size_eq
  · rw [hslots]
    change _ ↔ ∃ i < (t.capacity : ℕ), t.slots i = .used k' ∧
      (Function.update t.entries (index % t.capacity) e i).value = some v'
    by_cases hk : k' = k
    · subst hk
      rw [Function.update_self, Option.some.injEq]
      constructor
      · rintro rfl
        exact ⟨_, hj, hu, by rw [Function.update_self]⟩
      · rintro ⟨i, hi, hui, hv⟩
        rw [h.probing.unique i hi _ hj k' hui hu, Function.update_self] at hv
        exact Option.some.inj hv
    · rw [Function.update_of_ne hk, h.stored]
      refine exists_congr fun i => and_congr_right fun hi => and_congr_right fun hui => ?_
      have hij : i ≠ index % t.capacity := by
        rintro rfl
        rw [hu, Slot.used.injEq] at hui
        exact hk hui.symm
      rw [Function.update_of_ne hij]
  · have hnull := h.nonnull_update (j := index % t.capacity) (e := e) fun _ _ => Option.some_ne_none v
    rw [he, Function.update_eq_self] at hnull
    rw [hslots]
    exact hnull

/-- **`ht_set` of an absent key** stores it, or returns `-1` and changes nothing. -/
theorem TableInv.set (h : TableInv t m) (hk : m k = none) (fresh : ℕ → ℕ → HashEntry κ ν) (v : ν) :
    htSet fresh t k (some v) = some (-1, t) ∨
      ∃ t', htSet fresh t k (some v) = some (0, t') ∧ TableInv t' (Function.update m k (some v)) := by
  unfold htSet htSetDepth
  by_cases hov : t.Overloaded
  · left
    rw [if_pos hov, h.fixed]
    rfl
  · right
    rw [h.overloaded_iff] at hov
    obtain ⟨t', hput, hinv⟩ := h.put hk (by omega) v
    rw [if_neg (by rwa [h.overloaded_iff]), hput]
    exact ⟨t', rfl, hinv⟩

/-- The table after `ht_remove` gave up the entry of the key. -/
theorem TableInv.drop_slot (h : TableInv t m) {index : ℕ}
    (hu : t.slots (index % t.capacity) = .used k) {e : HashEntry κ ν} (he : ∀ k', slotOf e ≠ .used k')
    {n : ℕ} (hp : Probing t.capacity t.home (Function.update t.slots (index % t.capacity) (slotOf e)))
    (hn : n = occupied t.capacity (Function.update t.slots (index % t.capacity) (slotOf e)))
    (hle : n ≤ t.size) :
    TableInv { t.setEntry index e with size := n } (Function.update m k none) := by
  have hj := Nat.mod_lt index t.capacity.2.1
  constructor
  · change Probing t.capacity t.home (t.setEntry _ _).slots
    rwa [slots_setEntry]
  · change n = occupied t.capacity (t.setEntry _ _).slots
    rwa [slots_setEntry]
  · exact h.large
  · exact h.load
  · change n * 100 ≤ t.capacity * t.maxLoad + 100
    have := h.fit
    omega
  · exact h.fixed
  · intro k' v'
    change _ ↔ ∃ i < (t.capacity : ℕ), (t.setEntry _ _).slots i = _ ∧ _
    rw [slots_setEntry]
    exact h.stored_drop hj hu he k' v'
  · change ∀ i < (t.capacity : ℕ), ∀ k', (t.setEntry _ _).slots i = _ → _
    rw [slots_setEntry]
    exact h.nonnull_update fun k' hk' => absurd hk' (he k')

/-- **`ht_remove` of a stored key** returns `0` and gives it up. -/
theorem TableInv.remove_mem (h : TableInv t m) (hk : m k ≠ none) :
    ∃ t', htRemove t k = some (0, t') ∧ TableInv t' (Function.update m k none) := by
  obtain ⟨d, hd, hrun, hres⟩ := h.find k
  have hu : slotOf (t.entry (t.home k + d)) = .used k := hres.resolve_left fun hc => hk hc.2
  have hne : t.slots ((t.home k + d) % t.capacity) ≠ .empty := by
    rw [← slotOf_entry, hu]
    simp
  have hj := Nat.mod_lt (t.home k + d) t.capacity.2.1
  have hhome := home_lt t k
  have hcap := t.capacity.2.2
  have hst := (slotOf_eq_used.mp hu).1
  have hsz := h.size_lt
  simp only [htRemove, hrun]
  by_cases hnext : (t.entry (u32 (t.home k + d + 1))).state = .empty
  · have hsucc : t.slots (((t.home k + d) % t.capacity + 1) % t.capacity) = .empty := by
      rw [Nat.mod_add_mod, ← slotOf_entry, ← u32_of_lt (by omega : t.home k + d + 1 < 2 ^ 32)]
      exact slotOf_eq_empty.mpr hnext
    have hclear := occupied_clear hj hne
    rw [← h.size_eq] at hclear
    let e : HashEntry κ ν := ⟨HashKey.zero, (t.entry (t.home k + d)).value, .empty⟩
    refine ⟨{ t.setEntry (t.home k + d) e with size := sub32 t.size 1 }, by simp [hst, hnext, e],
      h.drop_slot hu (by simp [slotOf, e]) (h.probing.clear hsucc) ?_ ?_⟩
    · rw [sub32_of_le (by omega) (by omega)]
      change t.size - 1 = occupied t.capacity (Function.update t.slots _ .empty)
      omega
    · rw [sub32_of_le (by omega) (by omega)]
      omega
  · let e : HashEntry κ ν := ⟨HashKey.zero, (t.entry (t.home k + d)).value, .tombstone⟩
    refine ⟨t.setEntry (t.home k + d) e, by simp [hst, hnext, e],
      h.drop_slot (n := t.size) hu (by simp [slotOf, e]) (h.probing.bury _) ?_ le_rfl⟩
    exact h.size_eq.trans (occupied_update_same hne (by simp [slotOf, e])).symm

/-- **`ht_remove` of an absent key** returns `-1` and changes nothing. -/
theorem TableInv.remove_absent (h : TableInv t m) (hk : m k = none) :
    htRemove t k = some (-1, t) := by
  obtain ⟨d, hd, hrun, hres⟩ := h.find k
  have he : slotOf (t.entry (t.home k + d)) = .empty := by
    rcases hres with ⟨he, _⟩ | hu
    · exact he
    · exact absurd hu (h.eq_none_iff.mp hk _ (Nat.mod_lt _ t.capacity.2.1))
  simp [htRemove, hrun, slotOf_eq_empty.mp he]

/-! ## Runs -/

/-- A call and what it returned. -/
inductive TableCall (κ ν : Type)
  | get (k : κ) (value : Option ν)
  | set (k : κ) (v : ν) (ret : Int)
  | remove (k : κ) (ret : Int)

/-- The calls of the code; `ht_set` only for a key that `ht_get` reports absent. -/
inductive TableStep (fresh : ℕ → ℕ → HashEntry κ ν) :
    HashTable κ ν → TableCall κ ν → HashTable κ ν → Prop
  | get {t : HashTable κ ν} {k : κ} {x : Option ν} (h : htGet t k = some x) :
      TableStep fresh t (.get k x) t
  | set {t t' : HashTable κ ν} {k : κ} {v : ν} {r : Int} (habs : htGet t k = some none)
      (h : htSet fresh t k (some v) = some (r, t')) : TableStep fresh t (.set k v r) t'
  | remove {t t' : HashTable κ ν} {k : κ} {r : Int} (h : htRemove t k = some (r, t')) :
      TableStep fresh t (.remove k r) t'

/-- The calls of a finite map that may refuse to store. -/
inductive MapStep : (κ → Option ν) → TableCall κ ν → (κ → Option ν) → Prop
  | get (m : κ → Option ν) (k : κ) : MapStep m (.get k (m k)) m
  | set {m : κ → Option ν} {k : κ} (h : m k = none) (v : ν) :
      MapStep m (.set k v 0) (Function.update m k (some v))
  | full {m : κ → Option ν} {k : κ} (h : m k = none) (v : ν) : MapStep m (.set k v (-1)) m
  | remove {m : κ → Option ν} {k : κ} (h : m k ≠ none) :
      MapStep m (.remove k 0) (Function.update m k none)
  | absent {m : κ → Option ν} {k : κ} (h : m k = none) : MapStep m (.remove k (-1)) m

theorem TableInv.step {fresh : ℕ → ℕ → HashEntry κ ν} {call : TableCall κ ν} (h : TableInv t m)
    (hs : TableStep fresh t call t') : ∃ m', MapStep m call m' ∧ TableInv t' m' := by
  cases hs with
  | get hg =>
    rw [h.get, Option.some.injEq] at hg
    exact ⟨m, hg ▸ .get m _, h⟩
  | @set _ k v r habs hset =>
    have hk : m k = none := by rwa [h.get, Option.some.injEq] at habs
    rcases h.set hk fresh v with hfull | ⟨t₁, hok, hinv⟩
    · rw [hfull, Option.some.injEq, Prod.mk.injEq] at hset
      obtain ⟨rfl, rfl⟩ := hset
      exact ⟨m, .full hk v, h⟩
    · rw [hok, Option.some.injEq, Prod.mk.injEq] at hset
      obtain ⟨rfl, rfl⟩ := hset
      exact ⟨_, .set hk v, hinv⟩
  | @remove _ k r hrem =>
    by_cases hk : m k = none
    · rw [h.remove_absent hk, Option.some.injEq, Prod.mk.injEq] at hrem
      obtain ⟨rfl, rfl⟩ := hrem
      exact ⟨m, .absent hk, h⟩
    · obtain ⟨t₁, hok, hinv⟩ := h.remove_mem hk
      rw [hok, Option.some.injEq, Prod.mk.injEq] at hrem
      obtain ⟨rfl, rfl⟩ := hrem
      exact ⟨_, .remove hk, hinv⟩

theorem tableInv_empty (hlarge : 5 ≤ (t.capacity : ℕ)) (hload : t.maxLoad ≤ 75)
    (hfixed : t.resize = false) (hsize : t.size = 0)
    (hempty : ∀ i < (t.capacity : ℕ), (t.entries i).state = .empty) : TableInv t fun _ => none := by
  have hs : ∀ i < (t.capacity : ℕ), t.slots i = .empty := fun i hi => slotOf_eq_empty.mpr (hempty i hi)
  refine ⟨probing_empty hs, ?_, hlarge, hload, by omega, hfixed, ?_, ?_⟩
  · rw [occupied_empty hs, hsize]
  · intro k v
    refine ⟨fun h => (by cases h), ?_⟩
    rintro ⟨i, hi, hu, _⟩
    rw [hs i hi] at hu
    cases hu
  · intro i hi k hu
    rw [hs i hi] at hu
    cases hu

/-- **A hash table is a finite map.** Every run from an empty table is, call by call, a run of the
map; after it every call returns, and the calls that return `-1` change nothing. -/
theorem hashTable_refines_map (fresh : ℕ → ℕ → HashEntry UInt64 ν) {t₀ t : HashTable UInt64 ν}
    (hlarge : 5 ≤ (t₀.capacity : ℕ)) (hload : t₀.maxLoad ≤ 75) (hfixed : t₀.resize = false)
    (hsize : t₀.size = 0) (hempty : ∀ i < (t₀.capacity : ℕ), (t₀.entries i).state = .empty)
    {calls : List (TableCall UInt64 ν)} (h : Run (TableStep fresh) t₀ calls t) :
    ∃ m, Run MapStep (fun _ => none) calls m ∧
      (∀ k, htGet t k = some (m k)) ∧
      (∀ k v, m k = none → htSet fresh t k (some v) = some (-1, t) ∨
        ∃ t', htSet fresh t k (some v) = some (0, t')) ∧
      (∀ k, m k ≠ none → ∃ t', htRemove t k = some (0, t')) ∧
      ∀ k, m k = none → htRemove t k = some (-1, t) := by
  have hsim : ∀ (t : HashTable UInt64 ν) m call t', TableInv t m → TableStep fresh t call t' →
      ∃ m', MapStep m call m' ∧ TableInv t' m' := fun _ _ _ _ hinv hs => hinv.step hs
  obtain ⟨m, hrun, hinv⟩ := h.simulate hsim (tableInv_empty hlarge hload hfixed hsize hempty)
  refine ⟨m, hrun, hinv.get, fun k v hk => ?_, fun k hk => ?_, fun k hk => hinv.remove_absent hk⟩
  · rcases hinv.set hk fresh v with hfull | ⟨t', hok, _⟩
    · exact .inl hfull
    · exact .inr ⟨t', hok⟩
  · obtain ⟨t', hok, _⟩ := hinv.remove_mem hk
    exact ⟨t', hok⟩

/-- The table `bio_init` creates, before anything is cached. -/
def emptyTable : HashTable UInt64 ℕ := ⟨fun _ => ⟨0, none, .empty⟩, demoCapacity, 0, 75, false⟩

theorem hashTable_refines_map_demo : ∃ t m,
    Run (TableStep fun _ => emptyTable.entries) emptyTable [.set 3 8 0, .remove 4 (-1)] t ∧
      Run MapStep (fun _ => none) [.set 3 8 0, .remove 4 (-1)] m ∧ ∀ k, htGet t k = some (m k) := by
  have hset : (htSet (fun _ => emptyTable.entries) emptyTable 3 (some 8)).map Prod.fst = some 0 := by
    decide +kernel
  have hrem : ((htSet (fun _ => emptyTable.entries) emptyTable 3 (some 8)).bind
      fun r => (htRemove r.2 4).map Prod.fst) = some (-1) := by decide +kernel
  obtain ⟨⟨_, t₁⟩, h₁, rfl⟩ := Option.map_eq_some_iff.mp hset
  rw [h₁, Option.bind_some] at hrem
  obtain ⟨⟨_, t₂⟩, h₂, rfl⟩ := Option.map_eq_some_iff.mp hrem
  have hrun : Run (TableStep fun _ => emptyTable.entries) emptyTable [.set 3 8 0, .remove 4 (-1)] t₂ :=
    .cons (.set (by decide +kernel) h₁) (.single (.remove h₂))
  obtain ⟨m, hm, hget, _⟩ := hashTable_refines_map _ (by decide) (by decide) rfl rfl
    (fun _ _ => rfl) hrun
  exact ⟨t₂, m, hrun, hm, hget⟩

end BulbOS.Table
