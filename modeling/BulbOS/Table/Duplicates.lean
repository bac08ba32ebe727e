import BulbOS.Lib.Stop
import BulbOS.Table.Refine

/-!
# Keys that are stored twice

`ht_set` stops at the first entry that is not valid, and the key may be stored behind it: it is then stored twice, and
`ht_remove` gives up one of the two. Runs of `ht_set` and `ht_remove` on any table, `ht_set` for stored keys included.

* `Chained`: what every call keeps, whatever the keys; `htPut_cases`, `htRemove_cases`: what a call can do;
* `Buried`: the key is stored behind a tombstone; `Chained.put_noDuplicates`: such a `ht_set`, and no other, stores
  twice;
* **`no_duplicates_run`**: no key is stored twice while no `ht_set` is for a buried key.
-/

namespace BulbOS.Table

open KLib

set_option linter.unusedSectionVars false

variable {κ ν : Type} [DecidableEq κ] [HashKey κ] {t t' : HashTable κ ν} {k : κ} {v : Option ν}

/-! ## What a call can do -/

/-- A probe loop that ends went past entries that do not stop it. -/
theorem htProbe_cases {stop : HashEntry κ ν → Bool} {fuel i index : ℕ} (hlt : i + fuel ≤ 2 ^ 32)
    (h : htProbe t stop fuel i = some index) : ∃ d < fuel, index = i + d ∧ stop (t.entry (i + d)) = true ∧
      ∀ e < d, ¬stop (t.entry (i + e)) = true := by
  induction fuel generalizing i with
  | zero => cases h
  | succ fuel ih =>
    rw [htProbe] at h
    split_ifs at h with hstop
    · cases h
      exact ⟨0, Nat.succ_pos _, rfl, hstop, fun e he => absurd he (Nat.not_lt_zero e)⟩
    · cases fuel with
      | zero => cases h
      | succ fuel =>
        rw [u32_of_lt (by omega)] at h
        obtain ⟨d, hd, rfl, hend, hbefore⟩ := ih (by omega) h
        have hnext : ∀ e, i + 1 + e = i + (e + 1) := fun e => by omega
        refine ⟨d + 1, by omega, hnext d, hnext d ▸ hend, fun e he => ?_⟩
        cases e with
        | zero => exact hstop
        | succ e => exact hnext e ▸ hbefore e (by omega)

/-- The same, from the home of a key: it ends before it comes round. -/
theorem htProbe_home {stop : HashEntry κ ν → Bool} {index : ℕ}
    (h : htProbe t stop (t.capacity + 1) (t.home k) = some index) : ∃ d < (t.capacity : ℕ), index = t.home k + d ∧
      stop (t.entry (t.home k + d)) = true ∧ ∀ e < d, ¬stop (t.entry (t.home k + e)) = true := by
  have hhome := home_lt t k
  have hcap := t.capacity.2.2
  obtain ⟨d, hd, hindex, hstop, hbefore⟩ := htProbe_cases (by omega) h
  refine ⟨d, ?_, hindex, hstop, hbefore⟩
  by_contra hge
  obtain rfl : d = t.capacity := by omega
  refine hbefore 0 t.capacity.2.1 ?_
  rw [HashTable.entry, Nat.add_mod_right] at hstop
  exact hstop

/-- What `ht_set` does once the load is checked: the entry of the key, or the first one that is not valid. -/
theorem htPut_cases (h : htPut t k v = some t') : ∃ d < (t.capacity : ℕ),
    (∀ e < d, ∃ k' ≠ k, t.slots ((t.home k + e) % t.capacity) = .used k') ∧
    (t.slots ((t.home k + d) % t.capacity) = .used k ∧
        t' = t.setEntry (t.home k + d) { t.entry (t.home k + d) with value := v } ∨
      t.slots ((t.home k + d) % t.capacity) = .empty ∧
        t' = { t.setEntry (t.home k + d) ⟨k, v, .valid⟩ with size := u32 (t.size + 1) } ∨
      t.slots ((t.home k + d) % t.capacity) = .dead ∧ t' = t.setEntry (t.home k + d) ⟨k, v, .valid⟩) := by
  unfold htPut at h
  obtain ⟨index, hprobe, h⟩ := Option.bind_eq_some_iff.mp h
  obtain ⟨d, hd, rfl, hstop, hbefore⟩ := htProbe_home hprobe
  refine ⟨d, hd, fun e he => ?_, ?_⟩
  · have hgo := mt stopSlot_iff.mpr (hbefore e he)
    push Not at hgo
    obtain ⟨⟨k', hk'⟩, hne⟩ := hgo
    refine ⟨k', fun hkk => hne (hkk ▸ hk'), hk'⟩
  · have ht' := Option.some.inj h
    cases hst : (t.entry (t.home k + d)).state with
    | valid =>
      have hkey : slotOf (t.entry (t.home k + d)) = .used k := by
        refine (stopSlot_iff.mp hstop).resolve_left fun hnone => hnone (t.entry (t.home k + d)).key ?_
        exact slotOf_eq_used.mpr ⟨hst, rfl⟩
      rw [hst] at ht'
      exact .inl ⟨hkey, ht'.symm⟩
    | empty =>
      rw [hst] at ht'
      exact .inr (.inl ⟨slotOf_eq_empty.mpr hst, ht'.symm⟩)
    | tombstone =>
      have hdead : slotOf (t.entry (t.home k + d)) = .dead := by
        unfold slotOf
        rw [hst]
      rw [hst] at ht'
      exact .inr (.inr ⟨hdead, ht'.symm⟩)

/-- What `ht_remove` does: nothing if it meets an empty entry first, else it gives up the first entry of the key. -/
theorem htRemove_cases {r : Int} (h : htRemove t k = some (r, t')) : ∃ d < (t.capacity : ℕ),
    (∀ e < d, t.slots ((t.home k + e) % t.capacity) ≠ .empty ∧ t.slots ((t.home k + e) % t.capacity) ≠ .used k) ∧
    (t.slots ((t.home k + d) % t.capacity) = .empty ∧ t' = t ∨
      t.slots ((t.home k + d) % t.capacity) = .used k ∧
        (t.slots ((t.home k + d + 1) % t.capacity) = .empty ∧
            t' = { t.setEntry (t.home k + d) { t.entry (t.home k + d) with key := HashKey.zero, state := .empty } with
              size := sub32 t.size 1 } ∨
          t.slots ((t.home k + d + 1) % t.capacity) ≠ .empty ∧
            t' = t.setEntry (t.home k + d)
              { t.entry (t.home k + d) with key := HashKey.zero, state := .tombstone })) := by
  unfold htRemove at h
  obtain ⟨index, hprobe, h⟩ := Option.bind_eq_some_iff.mp h
  obtain ⟨d, hd, rfl, hstop, hbefore⟩ := htProbe_home hprobe
  have hhome := home_lt t k
  have hcap := t.capacity.2.2
  refine ⟨d, hd, fun e he => not_or.mp fun hor => hbefore e he (stopFind_iff.mpr hor), ?_⟩
  rw [u32_of_lt (by omega)] at h
  dsimp only at h
  rcases stopFind_iff.mp hstop with hempty | hused
  · rw [if_pos (slotOf_eq_empty.mp hempty)] at h
    exact .inl ⟨hempty, (Prod.mk.inj (Option.some.inj h)).2.symm⟩
  · have hvalid := (slotOf_eq_used.mp hused).1
    rw [if_neg fun hempty => HashState.noConfusion (hvalid.symm.trans hempty)] at h
    refine .inr ⟨hused, ?_⟩
    split_ifs at h with hnext
    · exact .inl ⟨slotOf_eq_empty.mpr hnext, (Prod.mk.inj (Option.some.inj h)).2.symm⟩
    · exact .inr ⟨mt slotOf_eq_empty.mp hnext, (Prod.mk.inj (Option.some.inj h)).2.symm⟩

/-! ## What `ht_get` returns -/

/-- `ht_get` stops at the first entry that is empty or holds the key. -/
theorem htGet_eq {d : ℕ} (hd : d < t.capacity)
    (hbefore : ∀ e < d, t.slots ((t.home k + e) % t.capacity) ≠ .empty ∧
      t.slots ((t.home k + e) % t.capacity) ≠ .used k)
    (hstop : t.slots ((t.home k + d) % t.capacity) = .empty ∨ t.slots ((t.home k + d) % t.capacity) = .used k) :
    htGet t k = some (if (t.entry (t.home k + d)).state = .empty then none else (t.entry (t.home k + d)).value) := by
  have hhome := home_lt t k
  have hcap := t.capacity.2.2
  have hprobe : htProbe t (stopFind k) (t.capacity + 1) (t.home k) = some (t.home k + d) :=
    htProbe_eq (stopFind_iff.mpr hstop) (fun e he hs => (stopFind_iff.mp hs).elim (hbefore e he).1 (hbefore e he).2)
      (by omega) (by omega)
  rw [htGet, hprobe]
  rfl

theorem htGet_used {d : ℕ} (hd : d < t.capacity)
    (hbefore : ∀ e < d, t.slots ((t.home k + e) % t.capacity) ≠ .empty ∧
      t.slots ((t.home k + e) % t.capacity) ≠ .used k)
    (hused : t.slots ((t.home k + d) % t.capacity) = .used k) :
    htGet t k = some (t.entries ((t.home k + d) % t.capacity)).value := by
  have hvalid : (t.entry (t.home k + d)).state = .valid := (slotOf_eq_used.mp hused).1
  rw [htGet_eq hd hbefore (.inr hused), hvalid, if_neg (by decide)]
  rfl

theorem htGet_empty {d : ℕ} (hd : d < t.capacity)
    (hbefore : ∀ e < d, t.slots ((t.home k + e) % t.capacity) ≠ .empty ∧
      t.slots ((t.home k + e) % t.capacity) ≠ .used k)
    (hempty : t.slots ((t.home k + d) % t.capacity) = .empty) : htGet t k = some none := by
  have hstate : (t.entry (t.home k + d)).state = .empty := slotOf_eq_empty.mp hempty
  rw [htGet_eq hd hbefore (.inl hempty), hstate, if_pos rfl]

/-- An entry is empty. -/
def HasEmpty (t : HashTable κ ν) : Prop := ∃ i < (t.capacity : ℕ), t.slots i = .empty

/-- A key that is not stored, in a table with an empty entry. -/
theorem htGet_absent (h : HasEmpty t) (habs : ∀ i < (t.capacity : ℕ), t.slots i ≠ .used k) : htGet t k = some none := by
  obtain ⟨j, hj, hempty⟩ := h
  obtain ⟨d, hd, rfl⟩ := exists_offset t.capacity.2.1 (t.home k) hj
  obtain ⟨e, hle, he, hfirst⟩ := exists_first (p := fun d => t.slots ((t.home k + d) % t.capacity) = .empty) hempty
  exact htGet_empty (by omega) (fun f hf => ⟨hfirst f hf, habs _ (Nat.mod_lt _ t.capacity.2.1)⟩) he

/-- In a full table `ht_get` of a key that is not stored does not return. -/
theorem htGet_full (h : ¬HasEmpty t) (habs : ∀ i < (t.capacity : ℕ), t.slots i ≠ .used k) : htGet t k = none := by
  unfold htGet
  cases hprobe : htProbe t (stopFind k) (t.capacity + 1) (t.home k) with
  | none => rfl
  | some index =>
    obtain ⟨d, -, -, hstop, -⟩ := htProbe_home hprobe
    have hlt := Nat.mod_lt (t.home k + d) t.capacity.2.1
    rcases stopFind_iff.mp hstop with hempty | hused
    · exact absurd ⟨_, hlt, hempty⟩ h
    · exact absurd hused (habs _ hlt)

/-- **`ht_get` right after `ht_set`** returns the value, whatever the table holds. -/
theorem htGet_put (h : htPut t k v = some t') : htGet t' k = some v := by
  obtain ⟨d, hd, hbefore, hcases⟩ := htPut_cases h
  have hput : ∀ e : HashEntry κ ν, slotOf e = .used k → e.value = v → ∀ n,
      htGet { t.setEntry (t.home k + d) e with size := n } k = some v := by
    intro e hslot hvalue n
    have hslots : ({ t.setEntry (t.home k + d) e with size := n } : HashTable κ ν).slots =
      Function.update t.slots ((t.home k + d) % t.capacity) (.used k) := hslot ▸ slots_setEntry t _ e
    have hget := htGet_used (t := { t.setEntry (t.home k + d) e with size := n }) (k := k) hd (fun f hf => ?_) ?_
    · refine hget.trans (congrArg some ?_)
      change (Function.update t.entries ((t.home k + d) % t.capacity) e ((t.home k + d) % t.capacity)).value = v
      rw [Function.update_self, hvalue]
    · obtain ⟨k', hne, hk'⟩ := hbefore f hf
      have hpos : (t.home k + f) % t.capacity ≠ (t.home k + d) % t.capacity := by
        intro e
        have := Nat.ModEq.eq_of_lt_of_lt (Nat.ModEq.add_left_cancel' (t.home k) e) (by omega) hd
        omega
      rw [hslots]
      change Function.update t.slots _ _ ((t.home k + f) % t.capacity) ≠ _ ∧
        Function.update t.slots _ _ ((t.home k + f) % t.capacity) ≠ _
      rw [Function.update_of_ne hpos, hk']
      exact ⟨Slot.used_ne_empty k', fun e => hne (Slot.used.inj e)⟩
    · rw [hslots]
      exact Function.update_self ..
  rcases hcases with ⟨hused, rfl⟩ | ⟨-, rfl⟩ | ⟨-, rfl⟩
  · exact hput { t.entry (t.home k + d) with value := v } hused rfl t.size
  · exact hput _ rfl rfl _
  · exact hput _ rfl rfl t.size

/-! ## What every call keeps -/

theorem slotOf_valid (k : κ) (v : Option ν) : slotOf (⟨k, v, .valid⟩ : HashEntry κ ν) = .used k := rfl

/-- Every entry of a key can be reached from its home, and `size` counts the entries that are not empty. -/
structure Chained (t : HashTable κ ν) : Prop where
  reach : Reach t.capacity t.home t.slots
  size_eq : t.size = occupied t.capacity t.slots

/-- The slots after `ht_set`: one of them holds the key, the one that was found. -/
theorem htPut_slots (h : htPut t k v = some t') : ∃ d < (t.capacity : ℕ),
    (∀ e < d, ∃ k' ≠ k, t.slots ((t.home k + e) % t.capacity) = .used k') ∧
    (∀ k', t.slots ((t.home k + d) % t.capacity) = .used k' → k' = k) ∧
    t' = { t with entries := t'.entries, size := t'.size } ∧
    t'.slots = Function.update t.slots ((t.home k + d) % t.capacity) (.used k) := by
  obtain ⟨d, hd, hbefore, hcases⟩ := htPut_cases h
  refine ⟨d, hd, hbefore, ?_⟩
  rcases hcases with ⟨hslot, rfl⟩ | ⟨hslot, rfl⟩ | ⟨hslot, rfl⟩
  · refine ⟨fun k' hk' => (Slot.used.inj (hslot.symm.trans hk')).symm, rfl, ?_⟩
    rw [slots_setEntry]
    exact congrArg (Function.update t.slots _) hslot
  · exact ⟨fun k' hk' => absurd (hk'.symm.trans hslot) (Slot.used_ne_empty k'), rfl, slots_setEntry ..⟩
  · exact ⟨fun k' hk' => absurd (hk'.symm.trans hslot) (Slot.used_ne_dead k'), rfl, slots_setEntry ..⟩

theorem Chained.put_size (h : Chained t) (hput : htPut t k v = some t') : t'.size = occupied t.capacity t'.slots := by
  obtain ⟨d, hd, -, hcases⟩ := htPut_cases hput
  have hlt := Nat.mod_lt (t.home k + d) t.capacity.2.1
  have hcap := t.capacity.2.2
  have hle : t.size ≤ t.capacity := h.size_eq ▸ occupied_le
  rcases hcases with ⟨hslot, rfl⟩ | ⟨hslot, rfl⟩ | ⟨hslot, rfl⟩
  · rw [slots_setEntry, occupied_update_same (hslot ▸ Slot.used_ne_empty k)]
    · exact h.size_eq
    · exact fun e => Slot.used_ne_empty k (hslot.symm.trans e)
  · change u32 (t.size + 1) = occupied t.capacity (t.setEntry _ _).slots
    rw [slots_setEntry, slotOf_valid, occupied_fill hlt hslot (Slot.used_ne_empty k), u32_of_lt (by omega), h.size_eq]
  · rw [slots_setEntry, slotOf_valid, occupied_update_same (hslot ▸ Slot.dead_ne_empty) (Slot.used_ne_empty k)]
    exact h.size_eq

theorem Chained.put (h : Chained t) (hput : htPut t k v = some t') : Chained t' := by
  have hsize := h.put_size hput
  obtain ⟨d, hd, hbefore, -, heq, hslots⟩ := htPut_slots hput
  rw [heq] at hsize ⊢
  refine ⟨?_, hsize⟩
  change Reach t.capacity t.home t'.slots
  rw [hslots]
  refine h.reach.insert hd fun e he => ?_
  obtain ⟨k', -, hk'⟩ := hbefore e he
  rw [hk']
  exact Slot.used_ne_empty k'

theorem htRemove_slots {r : Int} (h : htRemove t k = some (r, t')) :
    (t' = t ∧ HasEmpty t ∧ htGet t k = some none) ∨ ∃ j < (t.capacity : ℕ), t.slots j = .used k ∧
      ∃ entries n, t' = { t with entries := entries, size := n } ∧
    (t.slots ((j + 1) % t.capacity) = .empty ∧ slotOf ∘ entries = Function.update t.slots j .empty ∧
        n = sub32 t.size 1 ∨
      t.slots ((j + 1) % t.capacity) ≠ .empty ∧ slotOf ∘ entries = Function.update t.slots j .dead ∧
        n = t.size) := by
  obtain ⟨d, hd, hbefore, ⟨hempty, ht'⟩ | ⟨hused, hcases⟩⟩ := htRemove_cases h
  · exact .inl ⟨ht', ⟨_, Nat.mod_lt _ t.capacity.2.1, hempty⟩, htGet_empty hd hbefore hempty⟩
  · refine .inr ⟨_, Nat.mod_lt _ t.capacity.2.1, hused, ?_⟩
    rcases hcases with ⟨hnext, ht'⟩ | ⟨hnext, ht'⟩
    · exact ⟨_, _, ht', .inl ⟨by rwa [Nat.mod_add_mod], slots_setEntry .., rfl⟩⟩
    · exact ⟨_, _, ht', .inr ⟨by rwa [Nat.mod_add_mod], slots_setEntry .., rfl⟩⟩

theorem Chained.remove {r : Int} (h : Chained t) (hrem : htRemove t k = some (r, t')) : Chained t' := by
  rcases htRemove_slots hrem with ⟨rfl, -⟩ | ⟨j, hj, hused, entries, n, rfl, hcases⟩
  · exact h
  have hne : t.slots j ≠ .empty := hused ▸ Slot.used_ne_empty k
  rcases hcases with ⟨hnext, hslots, hn⟩ | ⟨-, hslots, hn⟩
  · have hclear := occupied_clear hj hne
    have hle : t.size ≤ t.capacity := h.size_eq ▸ occupied_le
    have hcap := t.capacity.2.2
    refine ⟨?_, ?_⟩
    · change Reach t.capacity t.home (slotOf ∘ entries)
      rw [hslots]
      exact h.reach.clear hnext
    · change n = occupied t.capacity (slotOf ∘ entries)
      rw [hslots, hn, sub32_of_le (by rw [h.size_eq]; omega) (by omega), h.size_eq]
      omega
  · refine ⟨?_, ?_⟩
    · change Reach t.capacity t.home (slotOf ∘ entries)
      rw [hslots]
      exact h.reach.bury j
    · change n = occupied t.capacity (slotOf ∘ entries)
      rw [hslots, hn, occupied_update_same hne Slot.dead_ne_empty]
      exact h.size_eq

/-! ## Keys that are stored twice -/

/-- At most one valid entry holds a key. -/
def NoDuplicates (t : HashTable κ ν) : Prop :=
  ∀ i < (t.capacity : ℕ), ∀ j < (t.capacity : ℕ), ∀ k, t.slots i = .used k → t.slots j = .used k → i = j

/-- The key is stored behind a tombstone. -/
def Buried (t : HashTable κ ν) (k : κ) : Prop :=
  ∃ e < (t.capacity : ℕ), t.slots ((t.home k + e) % t.capacity) = .used k ∧
    ∃ d < e, t.slots ((t.home k + d) % t.capacity) = .dead

theorem offset_inj {C home d e : ℕ} (hd : d < C) (he : e < C) (h : (home + d) % C = (home + e) % C) : d = e :=
  Nat.ModEq.eq_of_lt_of_lt (Nat.ModEq.add_left_cancel' home h) hd he

/-- **`ht_set` stores a key twice** exactly if it was buried. -/
theorem Chained.put_noDuplicates (h : Chained t) (hno : NoDuplicates t) (hput : htPut t k v = some t') :
    NoDuplicates t' ↔ ¬Buried t k := by
  obtain ⟨d, hd, hbefore, hkey, heq, hslots⟩ := htPut_slots hput
  have hcap : (t'.capacity : ℕ) = t.capacity := by rw [heq]
  have hlt := Nat.mod_lt (t.home k + d) t.capacity.2.1
  have hself : t'.slots ((t.home k + d) % t.capacity) = .used k := by rw [hslots, Function.update_self]
  have hother : ∀ i, i ≠ (t.home k + d) % t.capacity → t'.slots i = t.slots i := fun i hi => by
    rw [hslots, Function.update_of_ne hi]
  constructor
  · rintro hno' ⟨e, he, hused, f, hfe, hdead⟩
    -- the search stops before it gets to the key, and a second entry is written there
    have hde : d ≤ f := by
      by_contra hlt'
      obtain ⟨k', -, hk'⟩ := hbefore f (by omega)
      exact Slot.used_ne_dead k' (hk'.symm.trans hdead)
    have hpos : (t.home k + e) % t.capacity ≠ (t.home k + d) % t.capacity := fun hpos => by
      have := offset_inj he hd hpos
      omega
    have hlt' := Nat.mod_lt (t.home k + e) t.capacity.2.1
    refine hpos (hno' _ (hcap ▸ hlt') _ (hcap ▸ hlt) k ?_ hself)
    rw [hother _ hpos, hused]
  · intro hnot i hi j hj k' hik hjk
    rw [hcap] at hi hj
    -- a stored key is the one that the search found
    have hfound : ∀ i < (t.capacity : ℕ), t.slots i = .used k → i = (t.home k + d) % t.capacity := by
      intro i hi hused
      obtain ⟨e, he, rfl, hreach⟩ := h.reach i hi k hused
      rcases lt_trichotomy e d with hlt' | rfl | hgt
      · obtain ⟨k'', hne, hk''⟩ := hbefore e hlt'
        exact absurd (Slot.used.inj (hk''.symm.trans hused)) hne
      · rfl
      · cases hslot : t.slots ((t.home k + d) % t.capacity) with
        | empty => exact absurd hslot (hreach d hgt)
        | dead => exact absurd ⟨e, he, hused, d, hgt, hslot⟩ hnot
        | used k'' =>
          rw [hkey k'' hslot] at hslot
          exact hno _ (Nat.mod_lt _ t.capacity.2.1) _ hlt k hused hslot
    by_cases hi' : i = (t.home k + d) % t.capacity <;> by_cases hj' : j = (t.home k + d) % t.capacity
    · exact hi'.trans hj'.symm
    · rw [hi', hself] at hik
      rw [hother j hj', ← Slot.used.inj hik] at hjk
      exact absurd (hfound j hj hjk) hj'
    · rw [hj', hself] at hjk
      rw [hother i hi', ← Slot.used.inj hjk] at hik
      exact absurd (hfound i hi hik) hi'
    · rw [hother i hi'] at hik
      rw [hother j hj'] at hjk
      exact hno i hi j hj k' hik hjk

theorem NoDuplicates.remove {r : Int} (h : NoDuplicates t) (hrem : htRemove t k = some (r, t')) : NoDuplicates t' := by
  rcases htRemove_slots hrem with ⟨rfl, -⟩ | ⟨j, hj, -, entries, n, rfl, hcases⟩
  · exact h
  obtain ⟨x, hx, hslots⟩ : ∃ x, (∀ k', x ≠ .used k') ∧ slotOf ∘ entries = Function.update t.slots j x := by
    rcases hcases with ⟨-, hslots, -⟩ | ⟨-, hslots, -⟩
    · exact ⟨.empty, fun k' => (Slot.used_ne_empty k').symm, hslots⟩
    · exact ⟨.dead, fun k' => (Slot.used_ne_dead k').symm, hslots⟩
  have hkept : ∀ i k', (slotOf ∘ entries) i = .used k' → t.slots i = .used k' := fun i k' hi => by
    by_cases hij : i = j
    · rw [hslots, hij, Function.update_self] at hi
      exact absurd hi (hx k')
    · rwa [hslots, Function.update_of_ne hij] at hi
  intro a ha b hb k' hak hbk
  exact h a ha b hb k' (hkept a k' hak) (hkept b k' hbk)

/-- An absent key is reported absent exactly if the table is not full. -/
theorem htGet_absent_iff (habs : ∀ i < (t.capacity : ℕ), t.slots i ≠ .used k) : htGet t k = some none ↔ HasEmpty t := by
  constructor
  · intro hget
    by_contra hfull
    rw [htGet_full hfull habs] at hget
    cases hget
  · intro hempty
    exact htGet_absent hempty habs

/-- **`ht_get` right after `ht_remove`** returns `NULL` exactly if the table was not full. -/
theorem htGet_remove {r : Int} (hno : NoDuplicates t) (hrem : htRemove t k = some (r, t')) :
    htGet t' k = some none ↔ HasEmpty t := by
  rcases htRemove_slots hrem with ⟨rfl, hempty, hget⟩ | ⟨j, hj, hused, entries, n, rfl, hcases⟩
  · exact iff_of_true hget hempty
  have habs : ∀ x, (∀ k', x ≠ Slot.used k') → slotOf ∘ entries = Function.update t.slots j x →
      ∀ i < (t.capacity : ℕ), (slotOf ∘ entries) i ≠ .used k := by
    intro x hx hslots i hi hik
    by_cases hij : i = j
    · rw [hslots, hij, Function.update_self] at hik
      exact hx k hik
    · rw [hslots, Function.update_of_ne hij] at hik
      exact hij (hno i hi j hj k hik hused)
  rcases hcases with ⟨hnext, hslots, -⟩ | ⟨-, hslots, -⟩
  · refine (htGet_absent_iff (habs .empty (fun k' => (Slot.used_ne_empty k').symm) hslots)).trans (iff_of_true ?_ ?_)
    · exact ⟨j, hj, (congrFun hslots j).trans (Function.update_self ..)⟩
    · exact ⟨_, Nat.mod_lt _ t.capacity.2.1, hnext⟩
  · refine (htGet_absent_iff (habs .dead (fun k' => (Slot.used_ne_dead k').symm) hslots)).trans ?_
    refine exists_congr fun i => and_congr_right fun hi => ?_
    change (slotOf ∘ entries) i = .empty ↔ t.slots i = .empty
    rw [hslots]
    by_cases hij : i = j
    · rw [hij, Function.update_self, hused]
      exact iff_of_false Slot.dead_ne_empty (Slot.used_ne_empty k)
    · rw [Function.update_of_ne hij]

/-! ## Tables without tombstones -/

/-- A table that no key was removed from. -/
structure Young (t : HashTable κ ν) : Prop where
  chained : Chained t
  noDuplicates : NoDuplicates t
  noDead : ∀ i < (t.capacity : ℕ), t.slots i ≠ .dead

theorem Young.not_buried (h : Young t) (k : κ) : ¬Buried t k := by
  rintro ⟨e, -, -, d, -, hdead⟩
  exact h.noDead _ (Nat.mod_lt _ t.capacity.2.1) hdead

theorem Young.put (h : Young t) (hput : htPut t k v = some t') : Young t' := by
  refine ⟨h.chained.put hput, (h.chained.put_noDuplicates h.noDuplicates hput).mpr (h.not_buried k), ?_⟩
  obtain ⟨d, -, -, -, heq, hslots⟩ := htPut_slots hput
  have hcap : (t'.capacity : ℕ) = t.capacity := by rw [heq]
  intro i hi
  rw [hcap] at hi
  by_cases hij : i = (t.home k + d) % t.capacity
  · rw [hslots, hij, Function.update_self]
    exact Slot.used_ne_dead k
  · rw [hslots, Function.update_of_ne hij]
    exact h.noDead i hi

theorem young_empty (hsize : t.size = 0) (hempty : ∀ i < (t.capacity : ℕ), (t.entries i).state = .empty) : Young t := by
  have hs : ∀ i < (t.capacity : ℕ), t.slots i = .empty := fun i hi => slotOf_eq_empty.mpr (hempty i hi)
  have hp : Probing t.capacity t.home t.slots := probing_empty hs
  refine ⟨⟨hp.reach, hsize.trans (occupied_empty hs).symm⟩, hp.unique, fun i hi => ?_⟩
  rw [hs i hi]
  exact Slot.dead_ne_empty.symm

/-- The arrays that `kmalloc` returns are cleared; a table has at most 311 entries. -/
def Clear (fresh : ℕ → ℕ → HashEntry κ ν) : Prop := ∀ depth, ∀ i < 311, (fresh depth i).state = .empty

/-- What `ht_resize` builds with a `ht_set` that keeps tables young, whatever was in the old one. -/
theorem htResize_young {set : HashTable κ ν → κ → Option ν → Option (Int × HashTable κ ν)} {new : ℕ → HashEntry κ ν}
    (hset : ∀ t k v r t', Young t → set t k v = some (r, t') → Young t') (hnew : ∀ i < 311, (new i).state = .empty)
    (h : htResize set new t = some t') : Young t' := by
  unfold htResize at h
  obtain ⟨capacity, -, h⟩ := Option.bind_eq_some_iff.mp h
  refine (run_of_foldlM (fun _ _ _ => id) h).invariant (I := Young) (fun t₁ i t₂ hyoung hs => ?_) ?_
  · split_ifs at hs
    · obtain ⟨⟨r, t₃⟩, hset₃, rfl⟩ := Option.map_eq_some_iff.mp hs
      exact hset _ _ _ _ _ hyoung hset₃
    · cases hs
      exact hyoung
  · exact young_empty rfl fun i hi => hnew i (hi.trans_le capacity.2.2)

theorem young_setDepth {fresh : ℕ → ℕ → HashEntry κ ν} (hclear : Clear fresh) {depth : ℕ} {r : Int} (h : Young t)
    (hs : htSetDepth fresh depth t k v = some (r, t')) : Young t' := by
  induction depth generalizing t k v r t' with
  | zero => cases hs
  | succ depth ih =>
    rw [htSetDepth] at hs
    split_ifs at hs with hover hresize
    · obtain ⟨t₁, hsize, hs⟩ := Option.bind_eq_some_iff.mp hs
      obtain ⟨t₂, hput, hs⟩ := Option.bind_eq_some_iff.mp hs
      cases hs
      exact (htResize_young (fun _ _ _ _ _ h₁ h₂ => ih h₁ h₂) (hclear depth) hsize).put hput
    · cases hs
      exact h
    · obtain ⟨t₁, hput, hs⟩ := Option.bind_eq_some_iff.mp hs
      cases hs
      exact h.put hput

theorem htSet_eq (fresh : ℕ → ℕ → HashEntry κ ν) (t : HashTable κ ν) (k : κ) (v : Option ν) : htSet fresh t k v =
    if t.Overloaded then
      if t.resize then do
        let t' ← htResize (htSetDepth fresh 9) (fresh 9) t
        let t'' ← htPut t' k v
        return (0, t'')
      else some (-1, t)
    else do
      let t' ← htPut t k v
      return (0, t') := rfl

/-! ## Runs -/

inductive TableOp (κ ν : Type)
  /-- `fresh` is what `kmalloc` returns, should the table be resized. -/
  | set (k : κ) (v : Option ν) (fresh : ℕ → ℕ → HashEntry κ ν)
  | remove (k : κ)

def tableDo (t : HashTable κ ν) : TableOp κ ν → Option (Int × HashTable κ ν)
  | .set k v fresh => htSet fresh t k v
  | .remove k => htRemove t k

/-- A key that is set is not buried; a table is resized into a cleared array. -/
def TableOp.Ok (t : HashTable κ ν) : TableOp κ ν → Prop
  | .set k _ fresh => if t.Overloaded then t.resize = true → Clear fresh else ¬Buried t k
  | .remove _ => True

def KeyMove (t : HashTable κ ν) (op : TableOp κ ν) (t' : HashTable κ ν) : Prop :=
  op.Ok t ∧ ∃ r, tableDo t op = some (r, t')

/-- **One call** stores no key twice. -/
theorem keyMove_keeps {op : TableOp κ ν} (h : Chained t ∧ NoDuplicates t) (hs : KeyMove t op t') :
    Chained t' ∧ NoDuplicates t' := by
  obtain ⟨hok, r, hs⟩ := hs
  cases op with
  | remove k => exact ⟨h.1.remove hs, h.2.remove hs⟩
  | set k v fresh =>
    simp only [TableOp.Ok] at hok
    simp only [tableDo, htSet_eq] at hs
    split_ifs at hs hok with hover hresize
    · obtain ⟨t₁, hsize, hs⟩ := Option.bind_eq_some_iff.mp hs
      obtain ⟨t₂, hput, hs⟩ := Option.bind_eq_some_iff.mp hs
      cases hs
      have hclear := hok hresize
      have hyoung := (htResize_young (fun _ _ _ _ _ h₁ h₂ => young_setDepth hclear h₁ h₂) (hclear 9) hsize).put hput
      exact ⟨hyoung.chained, hyoung.noDuplicates⟩
    · cases hs
      exact h
    · obtain ⟨t₁, hput, hs⟩ := Option.bind_eq_some_iff.mp hs
      cases hs
      exact ⟨h.1.put hput, (h.1.put_noDuplicates h.2 hput).mpr hok⟩

theorem htGet_set {fresh : ℕ → ℕ → HashEntry κ ν} (h : htSet fresh t k v = some (0, t')) : htGet t' k = some v := by
  rw [htSet_eq] at h
  split_ifs at h with hover hresize
  · obtain ⟨t₁, -, h⟩ := Option.bind_eq_some_iff.mp h
    obtain ⟨t₂, hput, h⟩ := Option.bind_eq_some_iff.mp h
    cases h
    exact htGet_put hput
  · cases h
  · obtain ⟨t₁, hput, h⟩ := Option.bind_eq_some_iff.mp h
    cases h
    exact htGet_put hput

theorem htCreate_young {maxSize maxLoad : ℕ} {resize : Bool} (h : htCreate maxSize maxLoad resize = some t) :
    Young t := by
  unfold htCreate at h
  split_ifs at h
  obtain ⟨capacity, -, h⟩ := Option.bind_eq_some_iff.mp h
  cases h
  exact young_empty rfl fun _ _ => rfl

/-- **No key is stored twice** while no key is set that is buried; `ht_set` then still gives every key its value, and
`ht_remove` takes it unless the table is full. -/
theorem no_duplicates_run {maxSize maxLoad : ℕ} {resize : Bool} {t₀ t : HashTable κ ν}
    (h₀ : htCreate maxSize maxLoad resize = some t₀) {ops : List (TableOp κ ν)} (h : Run KeyMove t₀ ops t) :
    NoDuplicates t ∧
      (∀ fresh k v t', htSet fresh t k v = some (0, t') → htGet t' k = some v) ∧
      (∀ k r t', htRemove t k = some (r, t') → (htGet t' k = some none ↔ HasEmpty t)) ∧
      ∀ k v t', htPut t k v = some t' → (NoDuplicates t' ↔ ¬Buried t k) := by
  have hyoung := htCreate_young h₀
  obtain ⟨hchained, hno⟩ := h.invariant (I := fun t => Chained t ∧ NoDuplicates t)
    (fun _ _ _ hi hs => keyMove_keeps hi hs)
    ⟨hyoung.chained, hyoung.noDuplicates⟩
  exact ⟨hno, fun fresh k v t' => htGet_set, fun k r t' => htGet_remove hno, fun k v t' =>
    hchained.put_noDuplicates hno⟩

/-- A table of five entries. -/
def fiveEntries : HashTable UInt64 ℕ := ⟨fun _ => ⟨0, none, .empty⟩, ⟨5, by decide⟩, 0, 75, false⟩

theorem htCreate_fiveEntries : htCreate 3 75 false = some fiveEntries := rfl

/-- No array is allocated. -/
def noArrays : ℕ → ℕ → HashEntry UInt64 ℕ := fun _ _ => ⟨0, none, .empty⟩

/-- The keys `0`, `4` and `5` all belong in the first entry; `0` is removed while the next entry is in use. -/
def collidingOps : List (TableOp UInt64 ℕ) :=
  [.set 0 (some 10) noArrays, .set 4 (some 20) noArrays, .set 5 (some 30) noArrays, .remove 0]

instance (t : HashTable UInt64 ℕ) (k : UInt64) : Decidable (Buried t k) :=
  inferInstanceAs (Decidable (∃ e < (t.capacity : ℕ), t.slots ((t.home k + e) % t.capacity) = .used k ∧
    ∃ d < e, t.slots ((t.home k + d) % t.capacity) = .dead))

/-- A call that meets the condition and needs no array. -/
def TableOp.Plain (t : HashTable UInt64 ℕ) : TableOp UInt64 ℕ → Bool
  | .set k _ _ => !decide t.Overloaded && !decide (Buried t k)
  | .remove _ => true

/-- The table after a call that returns. -/
def tableStep (t : HashTable UInt64 ℕ) (op : TableOp UInt64 ℕ) : Except Unit (HashTable UInt64 ℕ) :=
  match tableDo t op with
  | some (_, t') => .ok t'
  | none => .error ()

theorem keyMove_of_plain {t t' : HashTable UInt64 ℕ} {op : TableOp UInt64 ℕ} (hplain : op.Plain t = true)
    (hs : tableStep t op = .ok t') : KeyMove t op t' := by
  have hdo : ∃ r, tableDo t op = some (r, t') := by
    unfold tableStep at hs
    split at hs
    · rename_i r t₁ hdo
      cases hs
      exact ⟨r, hdo⟩
    · cases hs
  refine ⟨?_, hdo⟩
  cases op with
  | remove k => trivial
  | set k v fresh =>
    simp only [TableOp.Plain, Bool.and_eq_true, Bool.not_eq_true', decide_eq_false_iff_not] at hplain
    simp only [TableOp.Ok, if_neg hplain.1]
    exact hplain.2

/-- The key `4` behind the tombstone is buried; `6` is not. -/
theorem no_duplicates_run_colliding : ∃ t, Run KeyMove fiveEntries collidingOps t ∧ NoDuplicates t ∧ ¬Buried t 6 ∧
    ∀ v t', htPut t 6 v = some t' → NoDuplicates t' := by
  obtain ⟨t, hrun, hp⟩ := exists_run (fun t (op : TableOp UInt64 ℕ) => op.Plain t = true) tableStep fiveEntries
    collidingOps (fun t => !decide (Buried t 6)) (by decide +kernel)
  have hrun := hrun.mono fun _ _ _ h => keyMove_of_plain h.1 h.2
  have hnot : ¬Buried t 6 := by simpa using hp
  obtain ⟨hno, -, -, hput⟩ := no_duplicates_run htCreate_fiveEntries hrun
  exact ⟨t, hrun, hno, hnot, fun v t' h => (hput 6 v t' h).mpr hnot⟩

/-- The buried key `5` is set again: two entries hold it, and after its removal `ht_get` returns the old value. -/
theorem buried_key_set : ∃ t t' t'', Run KeyMove fiveEntries collidingOps t ∧
    htSet noArrays t 5 (some 40) = some (0, t') ∧
    ¬NoDuplicates t' ∧ htRemove t' 5 = some (0, t'') ∧ htGet t'' 5 = some (some 30) := by
  obtain ⟨t, hrun, hp⟩ := exists_run (fun t (op : TableOp UInt64 ℕ) => op.Plain t = true) tableStep fiveEntries
    collidingOps (fun t => ((htSet noArrays t 5 (some 40)).any fun p => p.1 = 0 ∧
      p.2.slots 0 = .used 5 ∧ p.2.slots 2 = .used 5 ∧ (p.2.capacity : ℕ) = 5 ∧
      (htRemove p.2 5).any fun q => q.1 = 0 ∧ htGet q.2 5 = some (some 30))) (by decide +kernel)
  have hrun := hrun.mono fun _ _ _ h => keyMove_of_plain h.1 h.2
  obtain ⟨⟨r, t'⟩, hset, hp⟩ := (Option.any_eq_true _ _).mp hp
  obtain ⟨rfl, h₀, h₂, hcap, hp⟩ := of_decide_eq_true hp
  obtain ⟨⟨r, t''⟩, hrem, hp⟩ := (Option.any_eq_true _ _).mp hp
  obtain ⟨rfl, hget⟩ := of_decide_eq_true hp
  refine ⟨t, t', t'', hrun, hset, fun hno => ?_, hrem, hget⟩
  have hcap : (t'.capacity : ℕ) = 5 := hcap
  exact absurd (hno 0 (by omega) 2 (by omega) 5 h₀ h₂) (by decide)

end BulbOS.Table
