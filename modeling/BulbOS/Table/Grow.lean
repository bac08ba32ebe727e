import BulbOS.Table.Resize

/-!
# Tables that no key is removed from

A table that grows when it is loaded, with the values of `ext2_parse_dir`: 75 entries of 100 are used at most. As long
as nothing is removed from it and the arrays that it grows into are cleared, it is the map of what was stored.

* `Growing`: what every `ht_set` of such a table keeps; `Growing.get`: `ht_get` returns;
* **`Growing.set`**: a new key is stored, and every other key has the value that it had.
-/

namespace BulbOS.Table

open KLib

set_option linter.unusedSectionVars false

variable {κ ν : Type} [DecidableEq κ] [HashKey κ] {fresh : ℕ → ℕ → HashEntry κ ν} {t t' : HashTable κ ν} {k k' : κ}
  {v : Option ν}

/-- Nothing was removed, and the load check has passed. -/
structure Growing (t : HashTable κ ν) : Prop where
  young : Young t
  fits : Fits t
  load : t.maxLoad ≤ 75
  five : 5 ≤ (t.capacity : ℕ)

theorem Growing.size_lt (h : Growing t) : t.size < t.capacity := by
  have hfit := h.fits.fit
  have hmul := Nat.mul_le_mul_left (t.capacity : ℕ) h.load
  have hfive := h.five
  omega

theorem Growing.hasEmpty (h : Growing t) : HasEmpty t := exists_empty (h.young.chained.size_eq ▸ h.size_lt)

/-- **`ht_get`** returns the value of the entry that holds the key, or `NULL` if there is none. -/
theorem Growing.get_cases (h : Growing t) (k : κ) :
    (∃ i < (t.capacity : ℕ), t.slots i = .used k ∧ htGet t k = some (t.entries i).value) ∨
      (∀ i < (t.capacity : ℕ), t.slots i ≠ .used k) ∧ htGet t k = some none := by
  by_cases hk : ∃ i < (t.capacity : ℕ), t.slots i = .used k
  · obtain ⟨i, hi, hik⟩ := hk
    exact .inl ⟨i, hi, hik, htGet_stored h.young.chained.reach h.young.noDuplicates hi hik⟩
  · push Not at hk
    exact .inr ⟨hk, htGet_absent h.hasEmpty hk⟩

theorem Growing.get (h : Growing t) (k : κ) : ∃ r, htGet t k = some r := by
  rcases h.get_cases k with ⟨i, -, -, hget⟩ | ⟨-, hget⟩
  · exact ⟨_, hget⟩
  · exact ⟨_, hget⟩

theorem Growing.put_other (h : Growing t) (h' : Growing t') (hput : htPut t k v = some t') (hne : k' ≠ k) :
    htGet t' k' = htGet t k' := by
  obtain ⟨d, hd, n, hbefore, rfl, hcases⟩ := htPut_write hput
  let j := (t.home k + d) % t.capacity
  have hslots : ∀ i, i ≠ j → slotOf (Function.update t.entries j ⟨k, v, .valid⟩ i) = t.slots i := fun i hi => by
    rw [Function.update_of_ne hi]
    rfl
  have hself : slotOf (Function.update t.entries j ⟨k, v, .valid⟩ j) = .used k := by
    rw [Function.update_self]
    rfl
  have hslot : t.slots j ≠ .used k' := by
    rcases hcases with ⟨hslot, -⟩ | ⟨hslot, -⟩ | ⟨hslot, -⟩
    · exact fun e => hne (Slot.used.inj (e.symm.trans hslot))
    · exact fun e => Slot.used_ne_empty k' (e.symm.trans hslot)
    · exact fun e => Slot.used_ne_dead k' (e.symm.trans hslot)
  rcases h.get_cases k' with ⟨i, hi, hik, hget⟩ | ⟨habs, hget⟩
  · have hij : i ≠ j := fun e => hslot (e ▸ hik)
    rw [hget, htGet_stored h'.young.chained.reach h'.young.noDuplicates hi ((hslots i hij).trans hik)]
    exact congrArg (fun e : HashEntry κ ν => some e.value) (Function.update_of_ne hij ..)
  · rw [hget]
    refine htGet_absent h'.hasEmpty fun i hi hik => ?_
    by_cases hij : i = j
    · subst hij
      exact hne (Slot.used.inj (hik.symm.trans hself))
    · exact habs i hi ((hslots i hij).symm.trans hik)

/-- A cleared array has room for the keys of a table that is resized. -/
theorem Growing.receives {capacity : Capacity} (h : Growing t) (hcap : 2 * (t.capacity : ℕ) < capacity)
    (hclear : Clear fresh) (k : κ) : Receives t (fresh 9) capacity k := by
  have hempty : ∀ i < (capacity : ℕ), (fresh 9 i).state = .empty := fun i hi => hclear 9 i (hi.trans_le capacity.2.2)
  refine ⟨fun i hi hv => ?_, fun i hi => hempty i (fill_lt capacity.2.1 (fun _ hj => absurd hj List.not_mem_nil) i hi),
    fun _ => ?_⟩
  · rw [hempty i hi] at hv
    cases hv
  · have hkeys := length_validKeys_le h.young.chained
    have hlen : (newSlots t (fresh 9) capacity k).length ≤ t.validKeys.length + 1 := by
      unfold newSlots HashTable.keysWith
      rw [length_fill, List.length_append]
      split_ifs <;> simp
    have hsize := h.size_lt
    obtain ⟨i, hi, hfree⟩ : ∃ i < (capacity : ℕ), i ∉ newSlots t (fresh 9) capacity k := by
      by_contra hall
      push Not at hall
      have hsub : List.range capacity ⊆ newSlots t (fresh 9) capacity k := fun i hi => hall i (List.mem_range.mp hi)
      have hle := (List.nodup_range.subperm hsub).length_le
      rw [List.length_range] at hle
      omega
    exact ⟨i, hi, hfree, hempty i hi⟩

/-- **`ht_set` of a new key**: it is stored, and the others stay. -/
theorem Growing.set {v : ν} {r : Int} (h : Growing t) (hclear : t.Overloaded → Clear fresh)
    (hset : htSet fresh t k (some v) = some (r, t')) :
    Growing t' ∧ htGet t' k = some (some v) ∧ ∀ k' ≠ k, htGet t' k' = htGet t k' := by
  have hmove : AnyMove t (.set k (some v) fresh) t' := ⟨hclear, r, hset⟩
  have hfits : Fits t' := h.fits.step hmove
  by_cases hover : t.Overloaded
  · have hyoung : Young t' := young_setDepth (hclear hover) h.young hset
    have hset' := hset
    rw [htSet_resize h.fits hover, htResize_eq] at hset
    obtain ⟨s, hmoves, hset⟩ := Option.bind_eq_some_iff.mp hset
    obtain ⟨capacity, hprime, hmoves⟩ := Option.bind_eq_some_iff.mp hmoves
    obtain ⟨t'', hput, hset⟩ := Option.bind_eq_some_iff.mp hset
    cases hset
    have hcap := Fits.double_lt hprime
    have hr := h.receives hcap (hclear hover) k
    obtain ⟨t₁, hset₁, hget, hgets, -⟩ :=
      resized_of_receives h.fits h.young.noDuplicates hover hprime hr (some v)
    obtain rfl : t₁ = t' := (Prod.mk.inj (Option.some.inj (hset₁.symm.trans hset'))).2
    obtain ⟨-, entries, n, rfl, -⟩ := fold_invariant (I := fun _ => True) (fun _ _ _ _ _ _ => trivial) trivial
      (h.fits.light hcap) (Nat.zero_add _).le hmoves
    obtain ⟨entries', n', rfl, -⟩ := htPut_shape hput
    have hfive := h.five
    refine ⟨⟨hyoung, hfits, h.load, ?_⟩, hget, fun k' hne => ?_⟩
    · change 5 ≤ (capacity : ℕ)
      omega
    · obtain ⟨r, hr⟩ := h.get k'
      rw [hr]
      exact hgets k' hne r hr
  · rw [htSet_eq, if_neg hover] at hset
    obtain ⟨t'', hput, hset⟩ := Option.bind_eq_some_iff.mp hset
    cases hset
    have hshape := htPut_shape hput
    have hgrow : Growing t' := by
      obtain ⟨entries, n, rfl, -⟩ := hshape
      exact ⟨h.young.put hput, hfits, h.load, h.five⟩
    exact ⟨hgrow, htGet_put hput, fun k' hne => h.put_other hgrow hput hne⟩

end BulbOS.Table
