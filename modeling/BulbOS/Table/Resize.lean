import BulbOS.Table.Duplicates

/-!
# Resizing a hash table

`ht_resize` moves the entries with `ht_set` into an array from `kmalloc`, which it does not clear: what the array
happens to hold decides every probe.

* `htPut_write`: the one entry that `ht_set` writes; `Slack`: more valid entries than `size` says, which no call mends;
* `Moved`: the table while entries are moved, as long as they go to empty entries; `move_spec`: all of them;
* `Receives`: what the new array must hold;
* **`resize_iff`**: the table is as it should be exactly if the new array does.
-/

namespace BulbOS.Table

open KLib

set_option linter.unusedSectionVars false

variable {κ ν : Type} [DecidableEq κ] [HashKey κ] {t t' : HashTable κ ν} {k : κ} {v : Option ν}

/-! ## Valid entries -/

/-- The number of valid entries. -/
def HashTable.validCount (t : HashTable κ ν) : ℕ :=
  ((Finset.range t.capacity).filter fun i => (t.entries i).state = .valid).card

/-- The one entry that `ht_set` writes, and when it counts it. -/
theorem htPut_write (h : htPut t k v = some t') : ∃ d < (t.capacity : ℕ), ∃ n,
    (∀ e < d, ∃ k' ≠ k, t.slots ((t.home k + e) % t.capacity) = .used k') ∧
    t' = { t with entries := Function.update t.entries ((t.home k + d) % t.capacity) ⟨k, v, .valid⟩, size := n } ∧
    (t.slots ((t.home k + d) % t.capacity) = .used k ∧ n = t.size ∨
      t.slots ((t.home k + d) % t.capacity) = .empty ∧ n = u32 (t.size + 1) ∨
      t.slots ((t.home k + d) % t.capacity) = .dead ∧ n = t.size) := by
  obtain ⟨d, hd, hbefore, ⟨hslot, ht'⟩ | ⟨hslot, ht'⟩ | ⟨hslot, ht'⟩⟩ := htPut_cases h
  · refine ⟨d, hd, t.size, hbefore, ht'.trans ?_, .inl ⟨hslot, rfl⟩⟩
    obtain ⟨hstate, hkey⟩ := slotOf_eq_used.mp hslot
    have hentry : ({ t.entry (t.home k + d) with value := v } : HashEntry κ ν) = ⟨k, v, .valid⟩ := by
      rw [HashEntry.mk.injEq]
      exact ⟨hkey, rfl, hstate⟩
    exact congrArg (fun e => t.setEntry (t.home k + d) e) hentry
  · exact ⟨d, hd, u32 (t.size + 1), hbefore, ht', .inr (.inl ⟨hslot, rfl⟩)⟩
  · exact ⟨d, hd, t.size, hbefore, ht', .inr (.inr ⟨hslot, rfl⟩)⟩

theorem state_valid_iff {i : ℕ} : (t.entries i).state = .valid ↔ ∃ k, t.slots i = .used k := by
  constructor
  · intro h
    exact ⟨_, slotOf_eq_used.mpr ⟨h, rfl⟩⟩
  · rintro ⟨k, hk⟩
    exact (slotOf_eq_used.mp hk).1

theorem not_valid_of_empty {i : ℕ} (h : t.slots i = .empty) : (t.entries i).state ≠ .valid := fun hv => by
  obtain ⟨k, hk⟩ := state_valid_iff.mp hv
  exact Slot.used_ne_empty k (hk.symm.trans h)

theorem not_valid_of_dead {i : ℕ} (h : t.slots i = .dead) : (t.entries i).state ≠ .valid := fun hv => by
  obtain ⟨k, hk⟩ := state_valid_iff.mp hv
  exact Slot.used_ne_dead k (hk.symm.trans h)

theorem validCount_le : t.validCount ≤ t.capacity :=
  (Finset.card_filter_le _ _).trans (Finset.card_range _).le

theorem validCount_update {p n : ℕ} {e : HashEntry κ ν} (hp : p < t.capacity) (he : e.state = .valid) :
    ({ t with entries := Function.update t.entries p e, size := n } : HashTable κ ν).validCount =
      if (t.entries p).state = .valid then t.validCount else t.validCount + 1 := by
  unfold HashTable.validCount
  dsimp only
  split_ifs with hvalid
  · congr 1
    refine Finset.filter_congr fun i _ => ?_
    by_cases hi : i = p
    · rw [hi, Function.update_self]
      exact iff_of_true he hvalid
    · rw [Function.update_of_ne hi]
  · rw [← Finset.card_insert_of_notMem (a := p) (by simp [hvalid])]
    congr 1
    ext i
    by_cases hi : i = p
    · simp [hi, he, hp]
    · simp [hi]

/-- More valid entries than `size` says. -/
def Slack (t : HashTable κ ν) : Prop := t.size < t.validCount

theorem Slack.put (h : Slack t) (hput : htPut t k v = some t') : Slack t' := by
  obtain ⟨d, -, n, -, rfl, hcases⟩ := htPut_write hput
  have hlt := Nat.mod_lt (t.home k + d) t.capacity.2.1
  have hle : t.validCount ≤ t.capacity := validCount_le
  have hcap := t.capacity.2.2
  unfold Slack at h ⊢
  rw [validCount_update hlt rfl]
  dsimp only
  rcases hcases with ⟨hslot, hn⟩ | ⟨hslot, hn⟩ | ⟨hslot, hn⟩
  · rw [if_pos (state_valid_iff.mpr ⟨k, hslot⟩), hn]
    exact h
  · rw [if_neg (not_valid_of_empty hslot), hn, u32_of_lt (by omega)]
    omega
  · rw [if_neg (not_valid_of_dead hslot), hn]
    omega

theorem htPut_exists {j : ℕ} (hj : j < t.capacity) (hfree : ∀ k', t.slots j ≠ .used k') (k : κ) (v : Option ν) :
    ∃ t', htPut t k v = some t' := by
  obtain ⟨d, hd, rfl⟩ := exists_offset t.capacity.2.1 (t.home k) hj
  obtain ⟨e, hle, he, hfirst⟩ := exists_first (p := fun d => stopSlot k (t.entry (t.home k + d)) = true)
    (stopSlot_iff.mpr (.inl hfree))
  have hhome := home_lt t k
  have hcap := t.capacity.2.2
  have hprobe : htProbe t (stopSlot k) (t.capacity + 1) (t.home k) = some (t.home k + e) :=
    htProbe_eq he hfirst (by omega) (by omega)
  unfold htPut
  rw [hprobe]
  exact ⟨_, rfl⟩

/-! ## Entries on the move -/

variable {new : ℕ → HashEntry κ ν} {val : κ → Option ν} {ks : List κ} {taken : List ℕ}

/-- The keys `ks`, with the values `val`, were moved to the entries `taken`, all of which were empty. -/
structure Moved (new : ℕ → HashEntry κ ν) (val : κ → Option ν) (ks : List κ) (taken : List ℕ) (t : HashTable κ ν) :
    Prop where
  used : ∀ i < (t.capacity : ℕ), i ∈ taken ↔ ∃ k, t.slots i = .used k
  lt : ∀ i ∈ taken, i < (t.capacity : ℕ)
  nodup : taken.Nodup
  rest : ∀ i, i ∉ taken → t.entries i = new i
  empty : ∀ i ∈ taken, (new i).state = .empty
  unique : NoDuplicates t
  dense : ∀ j < (t.capacity : ℕ), ∀ k, t.slots j = .used k →
    ∃ d < (t.capacity : ℕ), (t.home k + d) % t.capacity = j ∧ ∀ e < d, (t.home k + e) % t.capacity ∈ taken
  stored : ∀ k ∈ ks, ∃ i < (t.capacity : ℕ), t.slots i = .used k ∧ (t.entries i).value = val k
  only : ∀ i < (t.capacity : ℕ), ∀ k, t.slots i = .used k → k ∈ ks
  size : t.size = taken.length

theorem Moved.validCount (h : Moved new val ks taken t) : t.validCount = t.size := by
  have hset : (Finset.range t.capacity).filter (fun i => (t.entries i).state = .valid) = taken.toFinset := by
    ext i
    rw [Finset.mem_filter, Finset.mem_range, List.mem_toFinset, state_valid_iff]
    constructor
    · rintro ⟨hi, hk⟩
      exact (h.used i hi).mpr hk
    · intro hi
      exact ⟨h.lt i hi, (h.used i (h.lt i hi)).mp hi⟩
  rw [HashTable.validCount, hset, List.toFinset_card_of_nodup h.nodup, h.size]

theorem Moved.put_slot (h : Moved new val ks taken t) (hk : k ∉ ks) (hput : htPut t k v = some t') :
    ∃ d < (t.capacity : ℕ), ∃ n, firstFree t.capacity (t.home k) taken = (t.home k + d) % t.capacity ∧
      (t.home k + d) % t.capacity ∉ taken ∧ (∀ e < d, (t.home k + e) % t.capacity ∈ taken) ∧
      t' = { t with entries := Function.update t.entries ((t.home k + d) % t.capacity) ⟨k, v, .valid⟩, size := n } ∧
      ((new ((t.home k + d) % t.capacity)).state = .empty ∧ n = u32 (t.size + 1) ∨
        (new ((t.home k + d) % t.capacity)).state ≠ .empty ∧ n = t.size) := by
  obtain ⟨d, hd, n, hbefore, ht', hcases⟩ := htPut_write hput
  have hlt := Nat.mod_lt (t.home k + d) t.capacity.2.1
  have hbefore' : ∀ e < d, (t.home k + e) % t.capacity ∈ taken := fun e he => by
    obtain ⟨k', -, hk'⟩ := hbefore e he
    exact (h.used _ (Nat.mod_lt _ t.capacity.2.1)).mpr ⟨k', hk'⟩
  have hfree : (t.home k + d) % t.capacity ∉ taken := fun hmem => by
    obtain ⟨k', hk'⟩ := (h.used _ hlt).mp hmem
    rcases hcases with ⟨hslot, -⟩ | ⟨hslot, -⟩ | ⟨hslot, -⟩
    · exact hk (h.only _ hlt k hslot)
    · exact Slot.used_ne_empty k' (hk'.symm.trans hslot)
    · exact Slot.used_ne_dead k' (hk'.symm.trans hslot)
  refine ⟨d, hd, n, firstFree_eq hd hfree hbefore', hfree, hbefore', ht', ?_⟩
  rw [← h.rest _ hfree]
  rcases hcases with ⟨hslot, -⟩ | ⟨hslot, hn⟩ | ⟨hslot, hn⟩
  · exact absurd (h.only _ hlt k hslot) hk
  · exact .inl ⟨slotOf_eq_empty.mp hslot, hn⟩
  · exact .inr ⟨fun hempty => Slot.dead_ne_empty (hslot.symm.trans (slotOf_eq_empty.mpr hempty)), hn⟩

/-- **A key goes to an empty entry.** -/
theorem Moved.put (h : Moved new val ks taken t) (hk : k ∉ ks) (hput : htPut t k (val k) = some t')
    (hempty : (new (firstFree t.capacity (t.home k) taken)).state = .empty) :
    Moved new val (ks ++ [k]) (firstFree t.capacity (t.home k) taken :: taken) t' := by
  obtain ⟨d, hd, n, hfirst, hfree, hbefore, rfl, hcases⟩ := h.put_slot hk hput
  rw [hfirst] at hempty ⊢
  have hn : n = u32 (t.size + 1) := hcases.elim And.right fun hne => absurd hempty hne.1
  generalize hp : (t.home k + d) % t.capacity = p at *
  have hlt : p < t.capacity := hp ▸ Nat.mod_lt _ t.capacity.2.1
  have hentry := Function.update_self p (⟨k, val k, .valid⟩ : HashEntry κ ν) t.entries
  have hself : ({ t with entries := Function.update t.entries p ⟨k, val k, .valid⟩, size := n } :
    HashTable κ ν).slots p =
      .used k := congrArg slotOf hentry
  have hother : ∀ i, i ≠ p →
      ({ t with entries := Function.update t.entries p ⟨k, val k, .valid⟩, size := n } : HashTable κ ν).slots i =
        t.slots i := fun i hi => congrArg slotOf (Function.update_of_ne hi ..)
  have hnew : ∀ i < (t.capacity : ℕ), t.slots i ≠ .used k := fun i hi hik => hk (h.only i hi k hik)
  have htaken : ∀ i ∈ taken, i ≠ p := fun i hi e => hfree (e ▸ hi)
  constructor
  case used =>
    intro i hi
    by_cases hip : i = p
    · rw [hip, hself]
      exact iff_of_true List.mem_cons_self ⟨k, rfl⟩
    · rw [hother i hip, List.mem_cons, ← h.used i hi]
      exact or_iff_right hip
  case lt =>
    intro i hi
    exact (List.mem_cons.mp hi).elim (fun e => e ▸ hlt) (h.lt i)
  case nodup => exact List.nodup_cons.mpr ⟨hfree, h.nodup⟩
  case rest =>
    intro i hi
    obtain ⟨hip, hi⟩ := not_or.mp (mt List.mem_cons.mpr hi)
    exact (Function.update_of_ne hip ..).trans (h.rest i hi)
  case empty =>
    intro i hi
    exact (List.mem_cons.mp hi).elim (fun e => e ▸ hempty) (h.empty i)
  case unique =>
    intro i hi j hj k' hik hjk
    by_cases hip : i = p <;> by_cases hjp : j = p
    · exact hip.trans hjp.symm
    · rw [hip, hself] at hik
      rw [hother j hjp, ← Slot.used.inj hik] at hjk
      exact absurd hjk (hnew j hj)
    · rw [hjp, hself] at hjk
      rw [hother i hip, ← Slot.used.inj hjk] at hik
      exact absurd hik (hnew i hi)
    · rw [hother i hip] at hik
      rw [hother j hjp] at hjk
      exact h.unique i hi j hj k' hik hjk
  case dense =>
    intro j hj k' hjk
    by_cases hjp : j = p
    · rw [hjp, hself] at hjk
      rw [hjp, ← Slot.used.inj hjk]
      exact ⟨d, hd, hp, fun e he => List.mem_cons_of_mem p (hbefore e he)⟩
    · rw [hother j hjp] at hjk
      obtain ⟨e, he, hpos, hmem⟩ := h.dense j hj k' hjk
      exact ⟨e, he, hpos, fun f hf => List.mem_cons_of_mem p (hmem f hf)⟩
  case stored =>
    intro k' hk'
    rcases List.mem_append.mp hk' with hmem | hmem
    · obtain ⟨i, hi, hik, hvalue⟩ := h.stored k' hmem
      have hip : i ≠ p := htaken i ((h.used i hi).mpr ⟨k', hik⟩)
      refine ⟨i, hi, (hother i hip).trans hik, ?_⟩
      exact (congrArg HashEntry.value (Function.update_of_ne hip ..)).trans hvalue
    · obtain rfl := List.mem_singleton.mp hmem
      exact ⟨p, hlt, hself, congrArg HashEntry.value hentry⟩
  case only =>
    intro i hi k' hik
    by_cases hip : i = p
    · rw [hip, hself] at hik
      exact List.mem_append_right ks (Slot.used.inj hik ▸ List.mem_singleton_self k)
    · rw [hother i hip] at hik
      exact List.mem_append_left [k] (h.only i hi k' hik)
  case size =>
    have hle : t.size ≤ t.capacity := h.validCount ▸ validCount_le
    have hcap := t.capacity.2.2
    change n = taken.length + 1
    rw [hn, u32_of_lt (by omega), h.size]

theorem Moved.put_slack (h : Moved new val ks taken t) (hk : k ∉ ks) (hput : htPut t k v = some t')
    (hne : (new (firstFree t.capacity (t.home k) taken)).state ≠ .empty) : Slack t' := by
  obtain ⟨d, hd, n, hfirst, hfree, -, rfl, hcases⟩ := h.put_slot hk hput
  rw [hfirst] at hne
  have hn : n = t.size := hcases.elim (fun hempty => absurd hempty.1 hne) And.right
  have hlt := Nat.mod_lt (t.home k + d) t.capacity.2.1
  have hvalid : ¬(t.entries ((t.home k + d) % t.capacity)).state = .valid := fun hv =>
    hfree ((h.used _ hlt).mpr (state_valid_iff.mp hv))
  unfold Slack
  rw [validCount_update hlt rfl, if_neg hvalid, h.validCount]
  change n < t.size + 1
  omega

theorem Moved.put_exists (h : Moved new val ks taken t) (hlen : taken.length < t.capacity) (k : κ) (v : Option ν) :
    ∃ t', htPut t k v = some t' := by
  obtain ⟨j, hj, hfree⟩ : ∃ j < (t.capacity : ℕ), j ∉ taken := by
    by_contra hall
    push Not at hall
    have hsub : Finset.range t.capacity ⊆ taken.toFinset := fun j hj =>
      List.mem_toFinset.mpr (hall j (Finset.mem_range.mp hj))
    have hcard := Finset.card_le_card hsub
    rw [Finset.card_range, List.toFinset_card_of_nodup h.nodup] at hcard
    omega
  exact htPut_exists hj (fun k' hk' => hfree ((h.used j hj).mpr ⟨k', hk'⟩)) k v

theorem Moved.congr {val' : κ → Option ν} (h : Moved new val ks taken t) (hval : ∀ k ∈ ks, val' k = val k) :
    Moved new val' ks taken t := by
  refine { h with stored := fun k hk => ?_ }
  obtain ⟨i, hi, hik, hvalue⟩ := h.stored k hk
  exact ⟨i, hi, hik, hvalue.trans (hval k hk).symm⟩

theorem Moved.put_found (h : Moved new val ks taken t) (hk : k ∈ ks) (hput : htPut t k v = some t') :
    ∃ p < (t.capacity : ℕ), t.slots p = .used k ∧
      t' = { t with entries := Function.update t.entries p ⟨k, v, .valid⟩, size := t.size } := by
  obtain ⟨d, hd, n, hbefore, ht', hcases⟩ := htPut_write hput
  have hlt := Nat.mod_lt (t.home k + d) t.capacity.2.1
  obtain ⟨i, hi, hik, -⟩ := h.stored k hk
  obtain ⟨e, he, rfl, htaken⟩ := h.dense i hi k hik
  have hused : t.slots ((t.home k + d) % t.capacity) = .used k := by
    rcases lt_trichotomy e d with hlt' | rfl | hgt
    · obtain ⟨k', hne, hk'⟩ := hbefore e hlt'
      exact absurd (Slot.used.inj (hk'.symm.trans hik)) hne
    · exact hik
    · obtain ⟨k', hk'⟩ := (h.used _ hlt).mp (htaken d hgt)
      rcases hcases with ⟨hslot, -⟩ | ⟨hslot, -⟩ | ⟨hslot, -⟩
      · exact hslot
      · exact absurd (hk'.symm.trans hslot) (Slot.used_ne_empty k')
      · exact absurd (hk'.symm.trans hslot) (Slot.used_ne_dead k')
  have hn : n = t.size := by
    rcases hcases with ⟨-, hn⟩ | ⟨hslot, -⟩ | ⟨-, hn⟩
    · exact hn
    · exact absurd (hused.symm.trans hslot) (Slot.used_ne_empty k)
    · exact hn
  exact ⟨_, hlt, hused, hn ▸ ht'⟩

/-- **A key that was moved** gets a new value. -/
theorem Moved.overwrite (h : Moved new val ks taken t) (hk : k ∈ ks) (hput : htPut t k v = some t') :
    Moved new (Function.update val k v) ks taken t' := by
  obtain ⟨p, hp, hused, rfl⟩ := h.put_found hk hput
  have hslots : ({ t with entries := Function.update t.entries p ⟨k, v, .valid⟩, size := t.size } :
    HashTable κ ν).slots =
      t.slots := by
    refine (Function.comp_update ..).trans ?_
    rw [slotOf_valid, ← hused]
    exact Function.update_eq_self ..
  have hmem : p ∈ taken := (h.used p hp).mpr ⟨k, hused⟩
  constructor
  case used =>
    rw [hslots]
    exact h.used
  case lt => exact h.lt
  case nodup => exact h.nodup
  case rest =>
    intro i hi
    have hip : i ≠ p := fun e => hi (e ▸ hmem)
    exact (Function.update_of_ne hip ..).trans (h.rest i hi)
  case empty => exact h.empty
  case unique =>
    unfold NoDuplicates
    rw [hslots]
    exact h.unique
  case dense =>
    rw [hslots]
    exact h.dense
  case only =>
    rw [hslots]
    exact h.only
  case size => exact h.size
  case stored =>
    intro k' hk'
    rw [hslots]
    obtain ⟨i, hi, hik, hvalue⟩ := h.stored k' hk'
    refine ⟨i, hi, hik, ?_⟩
    change (Function.update t.entries p ⟨k, v, .valid⟩ i).value = _
    by_cases hkk : k' = k
    · have hip : i = p := h.unique i hi p hp k (hkk ▸ hik) hused
      rw [hip, hkk, Function.update_self, Function.update_self]
    · have hip : i ≠ p := fun e => hkk (Slot.used.inj (hik.symm.trans (e ▸ hused)))
      rw [Function.update_of_ne hip, Function.update_of_ne hkk]
      exact hvalue

/-! ## All entries -/

/-- The keys of the valid entries among `l`. -/
def HashTable.keysAt (t : HashTable κ ν) (l : List ℕ) : List κ :=
  (l.filter fun i => (t.entries i).state = .valid).map fun i => (t.entries i).key

theorem keysAt_cons_valid {i : ℕ} {l : List ℕ} (h : (t.entries i).state = .valid) :
    t.keysAt (i :: l) = (t.entries i).key :: t.keysAt l := by
  simp [HashTable.keysAt, h]

theorem keysAt_cons_other {i : ℕ} {l : List ℕ} (h : ¬(t.entries i).state = .valid) :
    t.keysAt (i :: l) = t.keysAt l := by
  simp [HashTable.keysAt, h]

/-- The load check passes below `b` entries. -/
def Light (b : ℕ) (t : HashTable κ ν) : Prop := ∀ n < b, u32 (n * 100) ≤ u32 (t.capacity * t.maxLoad)

/-- A round of `ht_resize`. -/
def moveEntry (fresh : ℕ → ℕ → HashEntry κ ν) (t s : HashTable κ ν) (i : ℕ) : Option (HashTable κ ν) :=
  if (t.entries i).state = .valid then (htSetDepth fresh 9 s (t.entries i).key (t.entries i).value).map Prod.snd
  else some s

variable {fresh : ℕ → ℕ → HashEntry κ ν} {s s' : HashTable κ ν} {l : List ℕ} {b i : ℕ}

theorem moveEntry_other (h : ¬(t.entries i).state = .valid) : moveEntry fresh t s i = some s := if_neg h

theorem moveEntry_valid (h : (t.entries i).state = .valid) (hload : ¬s.Overloaded) :
    moveEntry fresh t s i = htPut s (t.entries i).key (t.entries i).value := by
  have hset : htSetDepth fresh 9 s (t.entries i).key (t.entries i).value =
      (htPut s (t.entries i).key (t.entries i).value).bind fun s' => some (0, s') := if_neg hload
  rw [moveEntry, if_pos h, hset]
  cases htPut s (t.entries i).key (t.entries i).value <;> rfl

/-- One more key is moved: only the entries and `size` change, the latter by at most one. -/
theorem htPut_shape (h : htPut s k v = some s') : ∃ entries n, s' = { s with entries := entries, size := n } ∧
    n ≤ s.size + 1 := by
  obtain ⟨d, -, n, -, hs', hn⟩ := htPut_write h
  refine ⟨_, n, hs', ?_⟩
  rcases hn with ⟨-, hn⟩ | ⟨-, hn⟩ | ⟨-, hn⟩
  · omega
  · exact hn ▸ Nat.mod_le _ _
  · omega

/-- What every `ht_set` of `ht_resize` keeps holds after it; `size` counts at most the keys that were moved. -/
theorem fold_invariant {I : HashTable κ ν → Prop} (hput : ∀ s k v s', I s → htPut s k v = some s' → I s') (h : I s)
    (hlight : Light b s) (hsize : s.size + (t.keysAt l).length ≤ b)
    (hfold : l.foldlM (moveEntry fresh t) s = some s') :
    I s' ∧ ∃ entries n, s' = { s with entries := entries, size := n } ∧ n ≤ s.size + (t.keysAt l).length := by
  induction l generalizing s with
  | nil =>
    cases hfold
    exact ⟨h, _, _, rfl, Nat.le_add_right ..⟩
  | cons i l ih =>
    rw [List.foldlM_cons] at hfold
    obtain ⟨s₁, hstep, hfold⟩ := Option.bind_eq_some_iff.mp hfold
    by_cases hvalid : (t.entries i).state = .valid
    · rw [keysAt_cons_valid hvalid, List.length_cons] at hsize ⊢
      have hload : ¬s.Overloaded := not_lt.mpr (hlight s.size (by omega))
      rw [moveEntry_valid hvalid hload] at hstep
      have hnext := hput _ _ _ _ h hstep
      obtain ⟨entries, n, rfl, hle⟩ := htPut_shape hstep
      obtain ⟨hI, entries', n', rfl, hle'⟩ := ih hnext hlight (show n + (t.keysAt l).length ≤ b by omega) hfold
      refine ⟨hI, entries', n', rfl, ?_⟩
      have hle' : n' ≤ n + (t.keysAt l).length := hle'
      omega
    · rw [moveEntry_other hvalid] at hstep
      cases hstep
      rw [keysAt_cons_other hvalid] at hsize ⊢
      exact ih h hlight hsize hfold

/-- **All entries are moved**, if the entries that they go to are empty; if one is not, it shows. -/
theorem move_spec (h : Moved new val ks taken s) (hlight : Light b s) (hb : b ≤ s.capacity)
    (hsize : taken.length + (t.keysAt l).length ≤ b)
    (hval : ∀ i ∈ l, (t.entries i).state = .valid → val (t.entries i).key = (t.entries i).value)
    (hnodup : (t.keysAt l).Nodup) (hdisj : ∀ k ∈ t.keysAt l, k ∉ ks) :
    ((∀ j ∈ fill s.capacity s.home (t.keysAt l) taken, (new j).state = .empty) →
      ∃ entries n, l.foldlM (moveEntry fresh t) s = some { s with entries := entries, size := n } ∧
        Moved new val (ks ++ t.keysAt l) (fill s.capacity s.home (t.keysAt l) taken)
          { s with entries := entries, size := n }) ∧
    ∀ s', l.foldlM (moveEntry fresh t) s = some s' → ¬Slack s' →
      ∀ j ∈ fill s.capacity s.home (t.keysAt l) taken, (new j).state = .empty := by
  induction l generalizing s ks taken with
  | nil =>
    refine ⟨fun _ => ⟨s.entries, s.size, rfl, ?_⟩, fun s' _ _ => h.empty⟩
    rw [HashTable.keysAt, List.filter_nil, List.map_nil, List.append_nil]
    exact h
  | cons i l ih =>
    rw [List.foldlM_cons]
    by_cases hvalid : (t.entries i).state = .valid
    · rw [keysAt_cons_valid hvalid] at hsize hnodup hdisj ⊢
      rw [List.length_cons] at hsize
      obtain ⟨hfresh, hnodup⟩ := List.nodup_cons.mp hnodup
      have hload : ¬s.Overloaded := not_lt.mpr (hlight s.size (by rw [h.size]; omega))
      have hk := hdisj _ List.mem_cons_self
      have hv := hval i List.mem_cons_self hvalid
      obtain ⟨s₁, hput⟩ := h.put_exists (by omega) (t.entries i).key (t.entries i).value
      rw [moveEntry_valid hvalid hload, hput]
      by_cases hempty : (new (firstFree s.capacity (s.home (t.entries i).key) taken)).state = .empty
      · -- the entry goes to an empty one, and the rest follows
        have hmoved := h.put hk (by rwa [hv]) hempty
        obtain ⟨d, -, n, -, rfl, -⟩ := htPut_write hput
        have hnext := ih hmoved hlight hb (by rw [List.length_cons]; omega)
          (fun j hj => hval j (List.mem_cons_of_mem i hj)) hnodup fun k hkl hks => ?_
        · rw [List.append_assoc, List.singleton_append] at hnext
          exact hnext
        · rcases List.mem_append.mp hks with hmem | hmem
          · exact hdisj k (List.mem_cons_of_mem _ hkl) hmem
          · exact hfresh (List.mem_singleton.mp hmem ▸ hkl)
      · -- it is not counted, and that stays so
        have hslack := h.put_slack hk hput hempty
        have hmem : firstFree s.capacity (s.home (t.entries i).key) taken ∈
            fill s.capacity s.home (t.keysAt l) (firstFree s.capacity (s.home (t.entries i).key) taken :: taken) :=
          mem_fill List.mem_cons_self
        refine ⟨fun hall => absurd (hall _ hmem) hempty, fun s' hfold hno => ?_⟩
        obtain ⟨entries, n, rfl, hle⟩ := htPut_shape hput
        have hsize' : n + (t.keysAt l).length ≤ b := by
          rw [h.size] at hle
          omega
        exact absurd (fold_invariant (fun _ _ _ _ hs => hs.put) hslack hlight hsize' hfold).1 hno
    · rw [keysAt_cons_other hvalid] at hsize hnodup hdisj ⊢
      rw [moveEntry_other hvalid]
      exact ih h hlight hb hsize (fun j hj => hval j (List.mem_cons_of_mem i hj)) hnodup hdisj

/-! ## The old table -/

theorem htGet_stored (h : Reach t.capacity t.home t.slots) (hno : NoDuplicates t) (hi : i < t.capacity)
    (hik : t.slots i = .used k) : htGet t k = some (t.entries i).value := by
  obtain ⟨d, hd, rfl, hreach⟩ := h i hi k hik
  refine htGet_used hd (fun e he => ⟨hreach e he, fun hused => ?_⟩) hik
  have := offset_inj (he.trans hd) hd (hno _ (Nat.mod_lt _ t.capacity.2.1) _ hi k hused hik)
  omega

theorem Moved.get (h : Moved new val ks taken t) (hk : k ∈ ks) : htGet t k = some (val k) := by
  obtain ⟨i, hi, hik, hvalue⟩ := h.stored k hk
  rw [← hvalue]
  refine htGet_stored (fun j hj k' hjk => ?_) h.unique hi hik
  obtain ⟨d, hd, hpos, htaken⟩ := h.dense j hj k' hjk
  refine ⟨d, hd, hpos, fun e he hempty => ?_⟩
  obtain ⟨k'', hk''⟩ := (h.used _ (Nat.mod_lt _ t.capacity.2.1)).mp (htaken e he)
  exact Slot.used_ne_empty k'' (hk''.symm.trans hempty)

theorem Moved.hasEmpty_iff (h : Moved new val ks taken t) :
    HasEmpty t ↔ ∃ i < (t.capacity : ℕ), i ∉ taken ∧ (new i).state = .empty := by
  refine exists_congr fun i => and_congr_right fun hi => ?_
  constructor
  · intro hempty
    have hnot : i ∉ taken := fun hmem => by
      obtain ⟨k, hk⟩ := (h.used i hi).mp hmem
      exact Slot.used_ne_empty k (hk.symm.trans hempty)
    exact ⟨hnot, h.rest i hnot ▸ slotOf_eq_empty.mp hempty⟩
  · rintro ⟨hnot, hempty⟩
    exact slotOf_eq_empty.mpr (h.rest i hnot ▸ hempty)

/-- The keys of the valid entries, as `ht_resize` meets them. -/
def HashTable.validKeys (t : HashTable κ ν) : List κ := t.keysAt (List.range t.capacity)

theorem mem_validKeys : k ∈ t.validKeys ↔ ∃ i < (t.capacity : ℕ), t.slots i = .used k := by
  unfold HashTable.validKeys HashTable.keysAt
  simp only [List.mem_map, List.mem_filter, List.mem_range, decide_eq_true_eq]
  constructor
  · rintro ⟨i, ⟨hi, hvalid⟩, hkey⟩
    exact ⟨i, hi, slotOf_eq_used.mpr ⟨hvalid, hkey⟩⟩
  · rintro ⟨i, hi, hik⟩
    obtain ⟨hvalid, hkey⟩ := slotOf_eq_used.mp hik
    exact ⟨i, ⟨hi, hvalid⟩, hkey⟩

theorem validKeys_nodup (h : NoDuplicates t) : t.validKeys.Nodup := by
  refine List.Nodup.map_on (fun i hi j hj hkey => ?_) (List.nodup_range.filter _)
  obtain ⟨hi, hvi⟩ := List.mem_filter.mp hi
  obtain ⟨hj, hvj⟩ := List.mem_filter.mp hj
  have hik : t.slots i = .used (t.entries i).key := slotOf_eq_used.mpr ⟨of_decide_eq_true hvi, rfl⟩
  have hjk : t.slots j = .used (t.entries i).key := slotOf_eq_used.mpr ⟨of_decide_eq_true hvj, hkey.symm⟩
  exact h i (List.mem_range.mp hi) j (List.mem_range.mp hj) _ hik hjk

theorem length_validKeys_le (h : Chained t) : t.validKeys.length ≤ t.size := by
  have hlen : t.validKeys.length = ((Finset.range t.capacity).filter fun i => (t.entries i).state = .valid).card := by
    unfold HashTable.validKeys HashTable.keysAt
    rw [List.length_map]
    rfl
  rw [hlen, h.size_eq]
  refine card_le_occupied fun i hi => ?_
  obtain ⟨hi, hvalid⟩ := Finset.mem_filter.mp hi
  exact ⟨Finset.mem_range.mp hi, fun hempty => not_valid_of_empty hempty hvalid⟩

/-- What `ht_get` returns, or `NULL`. -/
def HashTable.valueOf (t : HashTable κ ν) (k : κ) : Option ν := (htGet t k).getD none

/-- The new table of `ht_resize`. -/
def HashTable.into (t : HashTable κ ν) (new : ℕ → HashEntry κ ν) (capacity : Capacity) : HashTable κ ν :=
  { t with entries := new, capacity := capacity, size := 0 }

theorem moved_nil {capacity : Capacity} (h : ∀ i < (capacity : ℕ), (new i).state ≠ .valid) :
    Moved new val [] [] (t.into new capacity) := by
  have hslots : ∀ i < (capacity : ℕ), ∀ k, (t.into new capacity).slots i ≠ .used k := fun i hi k hk =>
    h i hi (slotOf_eq_used.mp hk).1
  constructor
  case used => exact fun i hi => iff_of_false List.not_mem_nil fun ⟨k, hk⟩ => hslots i hi k hk
  case lt => exact fun i hi => absurd hi List.not_mem_nil
  case nodup => exact List.nodup_nil
  case rest => exact fun i _ => rfl
  case empty => exact fun i hi => absurd hi List.not_mem_nil
  case unique => exact fun i hi j _ k hk _ => absurd hk (hslots i hi k)
  case dense => exact fun j hj k hk => absurd hk (hslots j hj k)
  case stored => exact fun k hk => absurd hk List.not_mem_nil
  case only => exact fun i hi k hk => absurd hk (hslots i hi k)
  case size => rfl

theorem slack_nil {capacity : Capacity} (hi : i < capacity) (h : (new i).state = .valid) :
    Slack (t.into new capacity) :=
  Finset.card_pos.mpr ⟨i, Finset.mem_filter.mpr ⟨Finset.mem_range.mpr hi, h⟩⟩

/-! ## One `ht_set` that resizes -/

/-- The keys that the new table gets, in their order. -/
def HashTable.keysWith (t : HashTable κ ν) (k : κ) : List κ := t.validKeys ++ if k ∈ t.validKeys then [] else [k]

/-- The entries of the new table that they go to. -/
def newSlots (t : HashTable κ ν) (new : ℕ → HashEntry κ ν) (capacity : Capacity) (k : κ) : List ℕ :=
  fill capacity (t.into new capacity).home (t.keysWith k) []

/-- What the array must hold: nothing valid, empty entries where the keys go, and one more. -/
structure Receives (t : HashTable κ ν) (new : ℕ → HashEntry κ ν) (capacity : Capacity) (k : κ) : Prop where
  invalid : ∀ i < (capacity : ℕ), (new i).state ≠ .valid
  empty : ∀ i ∈ newSlots t new capacity k, (new i).state = .empty
  spare : HasEmpty t → ∃ i < (capacity : ℕ), i ∉ newSlots t new capacity k ∧ (new i).state = .empty

/-- What a `ht_set` that resizes should do. -/
def Resized (fresh : ℕ → ℕ → HashEntry κ ν) (t : HashTable κ ν) (k : κ) (v : Option ν) : Prop :=
  ∃ t', htSet fresh t k v = some (0, t') ∧ htGet t' k = some v ∧
    (∀ k' ≠ k, ∀ r, htGet t k' = some r → htGet t' k' = some r) ∧ t'.size = t'.validCount

/-- A table whose load check passed when its last key was stored. -/
structure Fits (t : HashTable κ ν) : Prop where
  chained : Chained t
  resize : t.resize = true
  fit : t.size * 100 ≤ t.capacity * t.maxLoad + 100
  two : 2 ≤ (t.capacity : ℕ)
  load : 34 ≤ t.maxLoad
  bound : t.maxLoad < 2 ^ 23

theorem htFindPrime_lt {n : ℕ} {capacity : Capacity} (h : htFindPrime n = some capacity) : n < capacity := by
  unfold htFindPrime at h
  split at h
  · rename_i p hp
    cases h
    simpa using List.find?_some hp
  · cases h

theorem Fits.double_lt {capacity : Capacity} (h : htFindPrime (u32 (t.capacity * 2)) = some capacity) :
    2 * (t.capacity : ℕ) < capacity := by
  have hlt := htFindPrime_lt h
  have hcap := t.capacity.2.2
  rw [u32_of_lt (by omega)] at hlt
  omega

theorem Fits.light {capacity : Capacity} (h : Fits t) (hcap : 2 * (t.capacity : ℕ) < capacity) :
    Light t.validKeys.length (t.into new capacity) := by
  intro n hn
  have hlen := length_validKeys_le h.chained
  have hfit := h.fit
  have hmul : (t.capacity : ℕ) * t.maxLoad ≤ capacity * t.maxLoad := Nat.mul_le_mul_right _ (by omega)
  have hmul' : (capacity : ℕ) * t.maxLoad ≤ 311 * 2 ^ 23 := Nat.mul_le_mul capacity.2.2 h.bound.le
  have hsize : t.size ≤ t.capacity := h.chained.size_eq ▸ occupied_le
  have hold := t.capacity.2.2
  change u32 (n * 100) ≤ u32 (capacity * t.maxLoad)
  rw [u32_of_lt (by omega), u32_of_lt (by omega)]
  omega

theorem htResize_eq : htResize (htSetDepth fresh 9) (fresh 9) t = (htFindPrime (u32 (t.capacity * 2))).bind
    fun capacity =>
    (List.range t.capacity).foldlM (moveEntry fresh t) (t.into (fresh 9) capacity) := rfl

theorem htSet_resize (h : Fits t) (hover : t.Overloaded) : htSet fresh t k v =
    (htResize (htSetDepth fresh 9) (fresh 9) t).bind fun t' => (htPut t' k v).bind fun t'' => some (0, t'') := by
  rw [htSet_eq, if_pos hover, if_pos h.resize]
  rfl

/-- The moves of `ht_resize` into an array with nothing valid. -/
theorem Fits.move {capacity : Capacity} (fresh : ℕ → ℕ → HashEntry κ ν) (h : Fits t) (hno : NoDuplicates t)
    (hcap : 2 * (t.capacity : ℕ) < capacity)
    (hnew : ∀ i < (capacity : ℕ), (new i).state ≠ .valid) :
    ((∀ j ∈ fill capacity (t.into new capacity).home t.validKeys [], (new j).state = .empty) →
      ∃ entries n, (List.range t.capacity).foldlM (moveEntry fresh t) (t.into new capacity) =
          some { t.into new capacity with entries := entries, size := n } ∧
        Moved new t.valueOf t.validKeys (fill capacity (t.into new capacity).home t.validKeys [])
          { t.into new capacity with entries := entries, size := n }) ∧
    ∀ s', (List.range t.capacity).foldlM (moveEntry fresh t) (t.into new capacity) = some s' → ¬Slack s' →
      ∀ j ∈ fill capacity (t.into new capacity).home t.validKeys [], (new j).state = .empty := by
  have hlen := length_validKeys_le h.chained
  have hsize : t.size ≤ t.capacity := h.chained.size_eq ▸ occupied_le
  refine move_spec (moved_nil hnew) (h.light hcap) (show t.validKeys.length ≤ capacity by omega) ?_ ?_
    (validKeys_nodup hno) fun _ _ => List.not_mem_nil
  · rw [List.length_nil, Nat.zero_add]
    rfl
  · intro i hi hvalid
    have hik : t.slots i = .used (t.entries i).key := slotOf_eq_used.mpr ⟨hvalid, rfl⟩
    rw [HashTable.valueOf, htGet_stored h.chained.reach hno (List.mem_range.mp hi) hik, Option.getD_some]

theorem moved_last {capacity : Capacity} {entries : ℕ → HashEntry κ ν} {n : ℕ}
    (h : Moved new t.valueOf t.validKeys (fill capacity (t.into new capacity).home t.validKeys [])
      { t.into new capacity with entries := entries, size := n })
    (hput : htPut { t.into new capacity with entries := entries, size := n } k v = some t')
    (hempty : k ∉ t.validKeys → (new (firstFree capacity ((t.into new capacity).home k)
      (fill capacity (t.into new capacity).home t.validKeys []))).state = .empty) :
    Moved new (Function.update t.valueOf k v) (t.keysWith k) (newSlots t new capacity k) t' := by
  unfold HashTable.keysWith newSlots HashTable.keysWith
  rw [fill_append]
  split_ifs with hk
  · rw [List.append_nil]
    exact h.overwrite hk hput
  · have hval : ∀ k' ∈ t.validKeys, Function.update t.valueOf k v k' = t.valueOf k' := fun k' hk' => by
      have hne : k' ≠ k := fun e => hk (e ▸ hk')
      rw [Function.update_of_ne hne]
    have hself : Function.update t.valueOf k v k = v := Function.update_self ..
    exact (h.congr hval).put hk (by rwa [hself]) (hempty hk)

theorem answers_of_moved {capacity : Capacity}
    (hmoved : Moved new (Function.update t.valueOf k v) (t.keysWith k) (newSlots t new capacity k) t')
    (hspare : HasEmpty t → HasEmpty t') {k' : κ} (hne : k' ≠ k) {r : Option ν} (hget : htGet t k' = some r) :
    htGet t' k' = some r := by
  by_cases hk' : k' ∈ t.validKeys
  · have hmem : k' ∈ t.keysWith k := List.mem_append_left _ hk'
    rw [hmoved.get hmem, Function.update_of_ne hne, HashTable.valueOf, hget, Option.getD_some]
  · have habs : ∀ i < (t.capacity : ℕ), t.slots i ≠ .used k' := fun i hi hik => hk' (mem_validKeys.mpr ⟨i, hi, hik⟩)
    have hempty : HasEmpty t := by
      by_contra hfull
      rw [htGet_full hfull habs] at hget
      cases hget
    rw [htGet_absent hempty habs] at hget
    rw [← hget]
    refine htGet_absent (hspare hempty) fun i hi hik => ?_
    rcases List.mem_append.mp (hmoved.only i hi k' hik) with hmem | hmem
    · exact hk' hmem
    · split_ifs at hmem
      · exact List.not_mem_nil hmem
      · exact hne (List.mem_singleton.mp hmem)

/-- There are more keys than a table has entries. -/
class ManyKeys (κ : Type) : Prop where
  exists_notMem : ∀ l : List κ, l.length ≤ 312 → ∃ k, k ∉ l

theorem manyKeys_of_injOn {f : ℕ → κ} (hf : Set.InjOn f (Finset.range 313)) : ManyKeys κ where
  exists_notMem l hl := by
    by_contra hall
    push Not at hall
    have hsub : (Finset.range 313).image f ⊆ l.toFinset := fun k _ => List.mem_toFinset.mpr (hall k)
    have hcard := (Finset.card_le_card hsub).trans l.toFinset_card_le
    rw [Finset.card_image_of_injOn hf, Finset.card_range] at hcard
    omega

instance : ManyKeys UInt64 := by
  refine manyKeys_of_injOn (f := UInt64.ofNat) fun a ha b hb hab => ?_
  have ha := Finset.mem_range.mp (Finset.mem_coe.mp ha)
  have hb := Finset.mem_range.mp (Finset.mem_coe.mp hb)
  have hsize : UInt64.size = 2 ^ 64 := rfl
  have := congrArg UInt64.toNat hab
  rw [UInt64.toNat_ofNat_of_lt' (by omega), UInt64.toNat_ofNat_of_lt' (by omega)] at this
  exact this

instance : ManyKeys (List UInt8) := by
  refine manyKeys_of_injOn (f := fun n => List.replicate n 1) fun a _ b _ hab => ?_
  simpa using congrArg List.length hab

theorem resized_of_receives {capacity : Capacity} (h : Fits t) (hno : NoDuplicates t) (hover : t.Overloaded)
    (hprime : htFindPrime (u32 (t.capacity * 2)) = some capacity) (hr : Receives t (fresh 9) capacity k)
    (v : Option ν) :
    Resized fresh t k v := by
  have hcap := Fits.double_lt hprime
  have hslots := hr.empty
  unfold newSlots HashTable.keysWith at hslots
  rw [fill_append] at hslots
  obtain ⟨entries, n, hfold, hmoved⟩ := (h.move fresh hno hcap hr.invalid).1 fun j hj => hslots j (mem_fill hj)
  have hlen : (fill capacity (t.into (fresh 9) capacity).home t.validKeys []).length < capacity := by
    have hle := length_validKeys_le h.chained
    have hsize : t.size ≤ t.capacity := h.chained.size_eq ▸ occupied_le
    rw [length_fill, List.length_nil]
    omega
  obtain ⟨t', hput⟩ := hmoved.put_exists hlen k v
  have hlast := moved_last hmoved hput fun hk => hslots _ (by rw [if_neg hk]; exact List.mem_cons_self)
  refine ⟨t', ?_, htGet_put hput, fun k' hne r hget => answers_of_moved hlast (fun hempty => ?_) hne hget,
    hlast.validCount.symm⟩
  · rw [htSet_resize h hover, htResize_eq, hprime, Option.bind_some, hfold, Option.bind_some, hput]
    rfl
  · obtain ⟨entries', n', rfl, -⟩ := htPut_shape hput
    exact hlast.hasEmpty_iff.mpr (hr.spare hempty)

theorem receives_of_resized [ManyKeys κ] (h : Fits t) (hno : NoDuplicates t) (hover : t.Overloaded)
    (hres : Resized fresh t k v) :
    ∃ capacity, htFindPrime (u32 (t.capacity * 2)) = some capacity ∧ Receives t (fresh 9) capacity k := by
  obtain ⟨t', hset, -, hgets, hcount⟩ := hres
  rw [htSet_resize h hover, htResize_eq] at hset
  obtain ⟨s, hmoves, hset⟩ := Option.bind_eq_some_iff.mp hset
  obtain ⟨capacity, hprime, hmoves⟩ := Option.bind_eq_some_iff.mp hmoves
  obtain ⟨t'', hput, hset⟩ := Option.bind_eq_some_iff.mp hset
  obtain rfl : t'' = t' := (Prod.mk.inj (Option.some.inj hset)).2
  have hcap := Fits.double_lt hprime
  -- nothing that is not counted can have been there at any time
  have hnoslack : ¬Slack s := fun hslack => (hslack.put hput).ne hcount
  have hinvalid : ∀ i < (capacity : ℕ), (fresh 9 i).state ≠ .valid := fun i hi hvalid =>
    hnoslack (fold_invariant (fun _ _ _ _ hs => hs.put) (slack_nil hi hvalid) (h.light hcap)
      (Nat.zero_add _).le hmoves).1
  have hmove := h.move fresh hno hcap hinvalid
  have hempty := hmove.2 s hmoves hnoslack
  obtain ⟨entries, n, hfold, hmoved⟩ := hmove.1 hempty
  obtain rfl := Option.some.inj (hmoves.symm.trans hfold)
  have hfirst : k ∉ t.validKeys → (fresh 9 (firstFree capacity ((t.into (fresh 9) capacity).home k)
      (fill capacity (t.into (fresh 9) capacity).home t.validKeys []))).state = .empty := by
    intro hk
    by_contra hne
    exact (hmoved.put_slack hk hput hne).ne hcount
  have hlast := moved_last hmoved hput hfirst
  refine ⟨capacity, hprime, hinvalid, hlast.empty, fun hasEmpty => ?_⟩
  -- a key that neither table holds
  have hle := length_validKeys_le h.chained
  have hsize : t.size ≤ t.capacity := h.chained.size_eq ▸ occupied_le
  have hold := t.capacity.2.2
  obtain ⟨k', hk'⟩ := ManyKeys.exists_notMem (k :: t.validKeys) (by rw [List.length_cons]; omega)
  obtain ⟨hne, hk'⟩ := not_or.mp (mt List.mem_cons.mpr hk')
  have habs : ∀ i < (t.capacity : ℕ), t.slots i ≠ .used k' := fun i hi hik => hk' (mem_validKeys.mpr ⟨i, hi, hik⟩)
  have hget := hgets k' hne none (htGet_absent hasEmpty habs)
  have habs' : ∀ i < (t''.capacity : ℕ), t''.slots i ≠ .used k' := fun i hi hik => by
    rcases List.mem_append.mp (hlast.only i hi k' hik) with hmem | hmem
    · exact hk' hmem
    · split_ifs at hmem
      · exact List.not_mem_nil hmem
      · exact hne (List.mem_singleton.mp hmem)
  have hleft := (htGet_absent_iff habs').mp hget
  obtain ⟨entries', n', rfl, -⟩ := htPut_shape hput
  exact hlast.hasEmpty_iff.mp hleft

/-! ## Runs -/

/-- A table that is resized gets a cleared array. -/
def TableOp.Cleared (t : HashTable κ ν) : TableOp κ ν → Prop
  | .set _ _ fresh => t.Overloaded → Clear fresh
  | .remove _ => True

def AnyMove (t : HashTable κ ν) (op : TableOp κ ν) (t' : HashTable κ ν) : Prop :=
  op.Cleared t ∧ ∃ r, tableDo t op = some (r, t')

theorem htFindPrime_two {n : ℕ} {capacity : Capacity} (h : htFindPrime n = some capacity) : 2 ≤ (capacity : ℕ) := by
  have htwo : ∀ p ∈ primeNumbers, 2 ≤ p := by decide
  unfold htFindPrime at h
  split at h
  · rename_i p hp
    cases h
    exact htwo p (List.mem_of_find?_eq_some hp)
  · cases h

theorem htCreate_fits {maxSize maxLoad : ℕ} (h : htCreate maxSize maxLoad true = some t) (hload : 34 ≤ maxLoad)
    (hbound : maxLoad < 2 ^ 23) : Fits t := by
  have hyoung := htCreate_young h
  unfold htCreate at h
  split_ifs at h
  obtain ⟨capacity, hprime, h⟩ := Option.bind_eq_some_iff.mp h
  cases h
  exact ⟨hyoung.chained, rfl, Nat.zero_le _, htFindPrime_two hprime, hload, hbound⟩

/-- **`ht_remove`** does not add to `size`. -/
theorem Chained.size_remove {r : Int} (h : Chained t) (hrem : htRemove t k = some (r, t')) :
    ∃ entries n, t' = { t with entries := entries, size := n } ∧ n ≤ t.size := by
  rcases htRemove_slots hrem with ⟨rfl, -⟩ | ⟨j, hj, hused, entries, n, rfl, hcases⟩
  · exact ⟨_, _, rfl, le_rfl⟩
  have hsize : t.size ≤ t.capacity := h.size_eq ▸ occupied_le
  have hcap := t.capacity.2.2
  refine ⟨entries, n, rfl, ?_⟩
  rcases hcases with ⟨-, -, hn⟩ | ⟨-, -, hn⟩
  · have hpos := occupied_clear hj (hused ▸ Slot.used_ne_empty k : t.slots j ≠ .empty)
    rw [← h.size_eq] at hpos
    rw [hn, sub32_of_le (by omega) (by omega)]
    omega
  · exact hn.le

theorem Fits.size_remove {r : Int} (h : Fits t) (hrem : htRemove t k = some (r, t')) : Fits t' := by
  have hchained := h.chained.remove hrem
  obtain ⟨entries, n, rfl, hle⟩ := h.chained.size_remove hrem
  refine ⟨hchained, h.resize, ?_, h.two, h.load, h.bound⟩
  have hfit := h.fit
  change n * 100 ≤ t.capacity * t.maxLoad + 100
  omega

theorem Fits.not_overloaded (h : Fits t) : ¬t.Overloaded ↔ t.size * 100 ≤ t.capacity * t.maxLoad := by
  have hsize : t.size ≤ t.capacity := h.chained.size_eq ▸ occupied_le
  have hcap := t.capacity.2.2
  have hmul : (t.capacity : ℕ) * t.maxLoad ≤ 311 * 2 ^ 23 := Nat.mul_le_mul hcap h.bound.le
  unfold HashTable.Overloaded
  rw [u32_of_lt (by omega), u32_of_lt (by omega), not_lt]

/-- **Every call** leaves a table whose load check had passed. -/
theorem Fits.step {op : TableOp κ ν} (h : Fits t) (hs : AnyMove t op t') : Fits t' := by
  obtain ⟨hclear, r, hs⟩ := hs
  cases op with
  | remove k => exact h.size_remove hs
  | set k v fresh =>
    simp only [tableDo] at hs
    by_cases hover : t.Overloaded
    · have hclear := hclear hover
      rw [htSet_resize h hover] at hs
      obtain ⟨s, hresize, hs⟩ := Option.bind_eq_some_iff.mp hs
      obtain ⟨s', hput, hs⟩ := Option.bind_eq_some_iff.mp hs
      obtain rfl : s' = t' := (Prod.mk.inj (Option.some.inj hs)).2
      have hyoung := htResize_young (fun _ _ _ _ _ h₁ h₂ => young_setDepth hclear h₁ h₂) (hclear 9) hresize
      have hchained := hyoung.chained.put hput
      rw [htResize_eq] at hresize
      obtain ⟨capacity, hprime, hresize⟩ := Option.bind_eq_some_iff.mp hresize
      have hcap := Fits.double_lt hprime
      obtain ⟨-, entries, n, rfl, hn⟩ := fold_invariant (I := fun _ => True) (fun _ _ _ _ _ _ => trivial) trivial
        (h.light hcap) (Nat.zero_add _).le hresize
      obtain ⟨entries', n', rfl, hn'⟩ := htPut_shape hput
      refine ⟨hchained, h.resize, ?_, htFindPrime_two hprime, h.load, h.bound⟩
      -- the capacity more than doubles, so that there is room for the new key
      have hlen := length_validKeys_le h.chained
      have hfit := h.fit
      have hmul : ((t.capacity : ℕ) + (t.capacity + 1)) * t.maxLoad ≤ capacity * t.maxLoad :=
        Nat.mul_le_mul_right _ (by omega)
      have hroom : 3 * 34 ≤ ((t.capacity : ℕ) + 1) * t.maxLoad := Nat.mul_le_mul (Nat.succ_le_succ h.two) h.load
      rw [Nat.add_mul] at hmul
      have hn : n ≤ 0 + t.validKeys.length := hn
      have hn' : n' ≤ n + 1 := hn'
      change n' * 100 ≤ capacity * t.maxLoad + 100
      omega
    · rw [htSet_eq, if_neg hover] at hs
      obtain ⟨s, hput, hs⟩ := Option.bind_eq_some_iff.mp hs
      obtain rfl : s = t' := (Prod.mk.inj (Option.some.inj hs)).2
      have hchained := h.chained.put hput
      have hfit := h.not_overloaded.mp hover
      obtain ⟨entries, n, rfl, hn⟩ := htPut_shape hput
      refine ⟨hchained, h.resize, ?_, h.two, h.load, h.bound⟩
      change n * 100 ≤ t.capacity * t.maxLoad + 100
      omega

/-- **A `ht_set` that resizes keeps the map** exactly if there is a larger capacity, and the new array holds nothing
valid, empty entries where the keys go and, unless the old table was full, one more. -/
theorem resize_iff [ManyKeys κ] {maxSize maxLoad : ℕ} (hload : 34 ≤ maxLoad) (hbound : maxLoad < 2 ^ 23)
    {t₀ t : HashTable κ ν} (h₀ : htCreate maxSize maxLoad true = some t₀) {ops : List (TableOp κ ν)}
    (h : Run AnyMove t₀ ops t) (hno : NoDuplicates t) (hover : t.Overloaded) (fresh : ℕ → ℕ → HashEntry κ ν) (k : κ)
    (v : Option ν) : Resized fresh t k v ↔
      ∃ capacity, htFindPrime (u32 (t.capacity * 2)) = some capacity ∧ Receives t (fresh 9) capacity k := by
  have hfits : Fits t := h.invariant (fun _ _ _ hi hs => hi.step hs) (htCreate_fits h₀ hload hbound)
  constructor
  · exact receives_of_resized hfits hno hover
  · rintro ⟨capacity, hprime, hr⟩
    exact resized_of_receives hfits hno hover hprime hr v

/-- A table of five entries that grows. -/
def growing : HashTable UInt64 ℕ := { fiveEntries with resize := true }

theorem htCreate_growing : htCreate 3 75 true = some growing := rfl

/-- Four keys, after which the load check fails. -/
def fourKeys : List (TableOp UInt64 ℕ) :=
  [.set 1 (some 10) noArrays, .set 2 (some 20) noArrays, .set 3 (some 30) noArrays, .set 4 (some 40) noArrays]

/-- The capacity after 5. -/
def eleven : Capacity := ⟨11, by decide⟩

theorem anyMove_of_plain {t t' : HashTable UInt64 ℕ} {op : TableOp UInt64 ℕ} (hplain : op.Plain t = true)
    (hs : tableStep t op = .ok t') : AnyMove t op t' := by
  refine ⟨?_, (keyMove_of_plain hplain hs).2⟩
  cases op with
  | remove k => trivial
  | set k v fresh =>
    simp only [TableOp.Plain, Bool.and_eq_true, Bool.not_eq_true', decide_eq_false_iff_not] at hplain
    exact fun hover => absurd hover hplain.1

theorem exists_fourKeys : ∃ t, Run AnyMove growing fourKeys t ∧ NoDuplicates t ∧ t.Overloaded ∧
    htFindPrime (u32 (t.capacity * 2)) = some eleven ∧ ∃ i < 11, i ∉ newSlots t (noArrays 9) eleven 9 := by
  obtain ⟨t, hrun, hp⟩ := exists_run (fun t (op : TableOp UInt64 ℕ) => op.Plain t = true) tableStep growing fourKeys
    (fun t => decide t.Overloaded && decide (htFindPrime (u32 (t.capacity * 2)) = some eleven) &&
      (List.range 11).any fun i => decide (i ∉ newSlots t (noArrays 9) eleven 9)) (by decide +kernel)
  have hyoung := htCreate_young htCreate_growing
  have hkeep := hrun.invariant (I := fun t => Chained t ∧ NoDuplicates t)
    (fun _ _ _ hi hs => keyMove_keeps hi (keyMove_of_plain hs.1 hs.2)) ⟨hyoung.chained, hyoung.noDuplicates⟩
  simp only [Bool.and_eq_true, decide_eq_true_eq, List.any_eq_true, List.mem_range] at hp
  exact ⟨t, hrun.mono fun _ _ _ h => anyMove_of_plain h.1 h.2, hkeep.2, hp.1.1, hp.1.2, hp.2⟩

/-- A fifth key, with a cleared array. -/
theorem resize_iff_fourKeys : ∃ t, Run AnyMove growing fourKeys t ∧ NoDuplicates t ∧ t.Overloaded ∧
    Resized noArrays t 9 (some 90) := by
  obtain ⟨t, hrun, hno, hover, hprime, hspare⟩ := exists_fourKeys
  refine ⟨t, hrun, hno, hover, ?_⟩
  refine (resize_iff (by decide) (by decide) htCreate_growing hrun hno hover _ _ _).mpr ⟨eleven, hprime, ?_⟩
  refine ⟨fun i _ => HashState.noConfusion, fun i _ => rfl, fun _ => ?_⟩
  obtain ⟨i, hi, hfree⟩ := hspare
  exact ⟨i, hi, hfree, rfl⟩

/-- An array that happens to hold a valid entry. -/
def usedArray : ℕ → ℕ → HashEntry UInt64 ℕ := fun _ i => if i = 3 then ⟨77, some 5, .valid⟩ else ⟨0, none, .empty⟩

/-- A fifth key, with that array. -/
theorem resize_keeps_garbage : ∃ t, Run AnyMove growing fourKeys t ∧ NoDuplicates t ∧ t.Overloaded ∧
    ¬Resized usedArray t 9 (some 90) := by
  obtain ⟨t, hrun, hno, hover, hprime, -⟩ := exists_fourKeys
  refine ⟨t, hrun, hno, hover, fun hres => ?_⟩
  have hfits : Fits t := hrun.invariant (fun _ _ _ hi hs => hi.step hs)
    (htCreate_fits htCreate_growing (by decide) (by decide))
  obtain ⟨capacity, hcap, hr⟩ := receives_of_resized hfits hno hover hres
  obtain rfl := Option.some.inj (hprime.symm.trans hcap)
  exact hr.invalid 3 (by decide) rfl

end BulbOS.Table
