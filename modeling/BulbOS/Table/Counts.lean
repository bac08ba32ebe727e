import BulbOS.Table.Resize

/-!
# The size of a table that does not grow

`size` counts tombstones too, so that a table may be full of them. Runs of `ht_set` and `ht_remove` on a table without
`HT_RESIZE`, with any keys: stored keys are set again, buried keys are stored twice, absent keys are removed.

* `Counted`: what every call keeps; `Counted.size_lt`, `Counted.size_le`: the bounds on `size`;
* `HasEmpty.get`, `HasEmpty.set`, `HasEmpty.remove`: with an empty entry every probe loop stops;
* **`probe_loops_stop`**: so that all calls return, in every run.
-/

namespace BulbOS.Table

open KLib

set_option linter.unusedSectionVars false

variable {κ ν : Type} [DecidableEq κ] [HashKey κ] {t t' : HashTable κ ν} {k : κ} {v : Option ν}

/-! ## Calls that return -/

theorem HasEmpty.exists_index (h : HasEmpty t) (k : κ) {stop : HashEntry κ ν → Bool}
    (hstop : ∀ e, slotOf e = .empty → stop e = true) :
    ∃ index, htProbe t stop (t.capacity + 1) (t.home k) = some index := by
  obtain ⟨j, hj, he⟩ := h
  obtain ⟨d, -, hrun, -⟩ := exists_probe hj he k hstop
  exact ⟨_, hrun⟩

theorem stopFind_of_empty (k : κ) (e : HashEntry κ ν) (he : slotOf e = .empty) : stopFind k e = true :=
  stopFind_iff.mpr (.inl he)

theorem stopSlot_of_empty (k : κ) (e : HashEntry κ ν) (he : slotOf e = .empty) : stopSlot k e = true :=
  stopSlot_iff.mpr (.inl fun k' hu => Slot.used_ne_empty k' (hu.symm.trans he))

theorem HasEmpty.get (h : HasEmpty t) (k : κ) : ∃ r, htGet t k = some r := by
  obtain ⟨index, hrun⟩ := h.exists_index k (stopFind_of_empty k)
  exact ⟨_, by rw [htGet, hrun]; rfl⟩

theorem HasEmpty.put (h : HasEmpty t) (k : κ) (v : Option ν) : ∃ t', htPut t k v = some t' := by
  obtain ⟨index, hrun⟩ := h.exists_index k (stopSlot_of_empty k)
  exact ⟨_, by rw [htPut, hrun]; rfl⟩

theorem HasEmpty.remove (h : HasEmpty t) (k : κ) : ∃ r t', htRemove t k = some (r, t') := by
  obtain ⟨index, hrun⟩ := h.exists_index k (stopFind_of_empty k)
  simp only [htRemove, hrun, Option.bind_eq_bind, Option.bind_some]
  split_ifs
  · exact ⟨_, _, rfl⟩
  · exact ⟨_, _, rfl⟩
  · exact ⟨_, _, rfl⟩

theorem htSet_fixed (hfixed : t.resize = false) (fresh : ℕ → ℕ → HashEntry κ ν) (k : κ) (v : Option ν) :
    htSet fresh t k v = if t.Overloaded then some (-1, t) else (htPut t k v).map fun t' => (0, t') := by
  unfold htSet htSetDepth
  rw [hfixed, if_neg Bool.false_ne_true]
  cases htPut t k v <;> rfl

/-- **`ht_set`** returns. -/
theorem HasEmpty.set (h : HasEmpty t) (hfixed : t.resize = false) (fresh : ℕ → ℕ → HashEntry κ ν) (k : κ)
    (v : Option ν) : ∃ r t', htSet fresh t k v = some (r, t') := by
  obtain ⟨t', hput⟩ := h.put k v
  rw [htSet_fixed hfixed, hput]
  split_ifs
  · exact ⟨_, _, rfl⟩
  · exact ⟨_, _, rfl⟩

theorem HasEmpty.call (h : HasEmpty t) (hfixed : t.resize = false) (op : TableOp κ ν) :
    ∃ r t', tableDo t op = some (r, t') := by
  cases op with
  | set k v fresh => exact h.set hfixed fresh k v
  | remove k => exact h.remove k

/-! ## The load -/

/-- The load check has passed before the last key was stored. -/
structure Counted (t : HashTable κ ν) : Prop where
  chained : Chained t
  fixed : t.resize = false
  large : 5 ≤ (t.capacity : ℕ)
  load : t.maxLoad ≤ 75
  fit : t.size * 100 ≤ t.capacity * t.maxLoad + 100

theorem Counted.size_le (h : Counted t) : t.size ≤ t.capacity * t.maxLoad / 100 + 1 := by
  have hfit := h.fit
  omega

theorem Counted.size_lt (h : Counted t) : t.size < t.capacity := by
  have hfit := h.fit
  have hlarge := h.large
  have hmul := Nat.mul_le_mul_left (t.capacity : ℕ) h.load
  omega

theorem Counted.hasEmpty (h : Counted t) : HasEmpty t := exists_empty (h.chained.size_eq ▸ h.size_lt)

theorem Counted.not_overloaded (h : Counted t) : ¬ t.Overloaded ↔ t.size * 100 ≤ t.capacity * t.maxLoad := by
  have hsize := h.size_lt
  have hcap := t.capacity.2.2
  have hmul : (t.capacity : ℕ) * t.maxLoad ≤ 311 * 75 := Nat.mul_le_mul hcap h.load
  unfold HashTable.Overloaded
  rw [u32_of_lt (by omega), u32_of_lt (by omega), not_lt]

/-- **Every call** leaves room. -/
theorem Counted.step {op : TableOp κ ν} {r : Int} (h : Counted t) (hs : tableDo t op = some (r, t')) : Counted t' := by
  have hfit := h.fit
  cases op with
  | remove k =>
    have hchained := h.chained.remove hs
    obtain ⟨entries, n, rfl, hn⟩ := h.chained.size_remove hs
    refine ⟨hchained, h.fixed, h.large, h.load, ?_⟩
    change n * 100 ≤ t.capacity * t.maxLoad + 100
    omega
  | set k v fresh =>
    change htSet fresh t k v = some (r, t') at hs
    rw [htSet_fixed h.fixed] at hs
    by_cases hover : t.Overloaded
    · rw [if_pos hover] at hs
      cases hs
      exact h
    · rw [if_neg hover] at hs
      obtain ⟨s, hput, hs⟩ := Option.map_eq_some_iff.mp hs
      obtain rfl : s = t' := (Prod.mk.inj hs).2
      have hroom := h.not_overloaded.mp hover
      have hchained := h.chained.put hput
      obtain ⟨entries, n, rfl, hn⟩ := htPut_shape hput
      refine ⟨hchained, h.fixed, h.large, h.load, ?_⟩
      change n * 100 ≤ t.capacity * t.maxLoad + 100
      omega

theorem counted_empty (hlarge : 5 ≤ (t.capacity : ℕ)) (hload : t.maxLoad ≤ 75) (hfixed : t.resize = false)
    (hsize : t.size = 0) (hempty : ∀ i < (t.capacity : ℕ), (t.entries i).state = .empty) : Counted t := by
  have hinv := tableInv_empty hlarge hload hfixed hsize hempty
  exact ⟨⟨hinv.probing.reach, hinv.size_eq⟩, hfixed, hlarge, hload, hinv.fit⟩

/-! ## Runs -/

/-- Perform the calls in order; `none` if one does not return. -/
def tableRun (t : HashTable κ ν) (ops : List (TableOp κ ν)) : Option (HashTable κ ν) :=
  ops.foldlM (fun t op => (tableDo t op).map Prod.snd) t

/-- **A run** returns. -/
theorem Counted.run (h : Counted t) (ops : List (TableOp κ ν)) : ∃ t', tableRun t ops = some t' ∧ Counted t' := by
  induction ops generalizing t with
  | nil => exact ⟨t, rfl, h⟩
  | cons op ops ih =>
    obtain ⟨r, s, hs⟩ := h.hasEmpty.call h.fixed op
    obtain ⟨t', hrun, ht'⟩ := ih (h.step hs)
    refine ⟨t', ?_, ht'⟩
    rw [tableRun, List.foldlM_cons, hs]
    exact hrun

/-- **The probe loops stop**: after every sequence of calls from an empty table. -/
theorem probe_loops_stop {t₀ : HashTable κ ν} (hlarge : 5 ≤ (t₀.capacity : ℕ)) (hload : t₀.maxLoad ≤ 75)
    (hfixed : t₀.resize = false) (hsize : t₀.size = 0)
    (hempty : ∀ i < (t₀.capacity : ℕ), (t₀.entries i).state = .empty) (ops : List (TableOp κ ν)) :
    ∃ t, tableRun t₀ ops = some t ∧ t.size = occupied t.capacity t.slots ∧
      t.size ≤ t.capacity * t.maxLoad / 100 + 1 ∧ t.size < t.capacity ∧
      ∀ k, (∃ r, htGet t k = some r) ∧ (∀ fresh v, ∃ r t', htSet fresh t k v = some (r, t')) ∧
        ∃ r t', htRemove t k = some (r, t') := by
  obtain ⟨t, hrun, h⟩ := (counted_empty hlarge hload hfixed hsize hempty).run ops
  refine ⟨t, hrun, h.chained.size_eq, h.size_le, h.size_lt, fun k => ⟨h.hasEmpty.get k, fun fresh v => ?_, ?_⟩⟩
  · exact h.hasEmpty.set h.fixed fresh k v
  · exact h.hasEmpty.remove k

/-- The keys of `collidingOps`, in a table of five entries. -/
theorem probe_loops_stop_colliding : ∃ t, tableRun fiveEntries collidingOps = some t ∧
    t.size = occupied t.capacity t.slots ∧ t.size ≤ t.capacity * t.maxLoad / 100 + 1 ∧ t.size < t.capacity ∧
      ∀ k, (∃ r, htGet t k = some r) ∧ (∀ fresh v, ∃ r t', htSet fresh t k v = some (r, t')) ∧
        ∃ r t', htRemove t k = some (r, t') :=
  probe_loops_stop (by decide) (by decide) rfl rfl (fun _ _ => rfl) collidingOps

end BulbOS.Table
