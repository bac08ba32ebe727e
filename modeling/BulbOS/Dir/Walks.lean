import BulbOS.Dentry.Model
import BulbOS.Dir.Model
import Mathlib.Combinatorics.Pigeonhole

/-!
# Walks over any content

`ext2_parse_dir` and `ext2_link` go from record to record by the `size` that the disk gives, in 32 bits, for as
long as the offset is below the size of the directory.

* `nextRec`: the offset of the next record; `linkLoop`: the records that the loop of `ext2_link` comes to;
* `dirEntries_eq`: the loop of `ext2_parse_dir` comes to the same records;
* `linkLoop_eq_some`: the loop ends at the first offset that is not below the size;
* **`walks_end_iff`**: when both loops end and read only records inside the directory.
-/

namespace BulbOS.Dir

open KLib Dentry

variable {m : Mem} {size fuel i : ℕ} {os : List ℕ}

def nextRec (m : Mem) (i : ℕ) : ℕ := u32 (i + recSize m i)

/-- The loop of `ext2_link`: the records that `last` points to, if the loop ends. -/
def linkLoop (m : Mem) (size : ℕ) : ℕ → ℕ → Option (List ℕ)
  | 0, _ => none
  | fuel + 1, i => if i < size then (linkLoop m size fuel (nextRec m i)).map (i :: ·) else some []

theorem dirEntries_eq (m : Mem) (size fuel i : ℕ) :
    dirEntries m size fuel i = (linkLoop m size fuel i).map (List.map (entryAt m)) := by
  induction fuel generalizing i with
  | zero => rfl
  | succ fuel ih =>
    rw [dirEntries, linkLoop]
    by_cases hi : i < size
    · rw [if_pos hi, if_pos hi]
      change (dirEntries m size fuel (nextRec m i) >>= _) = _
      rw [ih]
      cases linkLoop m size fuel (nextRec m i) with
      | none => rfl
      | some os => rfl
    · rw [if_neg hi, if_neg hi]
      rfl

/-- The loop ends at the first offset that is not below `size`. -/
theorem linkLoop_eq_some : linkLoop m size fuel i = some os ↔ ∃ n < fuel, size ≤ (nextRec m)^[n] i ∧
    (∀ j < n, (nextRec m)^[j] i < size) ∧ os = (List.range n).map fun j => (nextRec m)^[j] i := by
  induction fuel generalizing i os with
  | zero => simp [linkLoop]
  | succ fuel ih =>
    rw [linkLoop]
    by_cases hi : i < size
    · rw [if_pos hi, Option.map_eq_some_iff]
      constructor
      · rintro ⟨os', hos', rfl⟩
        obtain ⟨n, hn, hend, hbelow, rfl⟩ := ih.mp hos'
        refine ⟨n + 1, by omega, hend, fun j hj => ?_, ?_⟩
        · cases j with
          | zero => exact hi
          | succ j => exact hbelow j (by omega)
        · rw [List.range_succ_eq_map, List.map_cons, List.map_map]
          rfl
      · rintro ⟨n, hn, hend, hbelow, rfl⟩
        cases n with
        | zero =>
          have hend' : size ≤ i := hend
          omega
        | succ n =>
          refine ⟨_, ih.mpr ⟨n, by omega, hend, fun j hj => hbelow (j + 1) (by omega), rfl⟩, ?_⟩
          rw [List.range_succ_eq_map, List.map_cons, List.map_map]
          rfl
    · rw [if_neg hi, Option.some.injEq]
      constructor
      · rintro rfl
        exact ⟨0, by omega, Nat.le_of_not_lt hi, fun j hj => absurd hj (Nat.not_lt_zero j), rfl⟩
      · rintro ⟨n, -, -, hbelow, rfl⟩
        cases n with
        | zero => rfl
        | succ n => exact absurd (hbelow 0 (Nat.succ_pos n)) hi

/-- Both loops end, and the headers and names that they read lie inside the directory. -/
structure WalksInside (m : Mem) (size : ℕ) : Prop where
  parse : ∃ fuel es, dirEntries m size fuel 0 = some es ∧ ∀ e ∈ es, e.offset + 8 + e.name.length ≤ size
  link : ∃ fuel os, linkLoop m size fuel 0 = some os ∧ ∀ o ∈ os, o + 8 ≤ size

/-- The header and the name of every record that is reached lie inside the directory, and none is reached twice. -/
def Sound (m : Mem) (size : ℕ) : Prop :=
  ∀ k, (∀ j ≤ k, (nextRec m)^[j] 0 < size) →
    (nextRec m)^[k] 0 + 8 + recLength m ((nextRec m)^[k] 0) ≤ size ∧
      ∀ j < k, (nextRec m)^[j] 0 ≠ (nextRec m)^[k] 0

theorem entryAt_name (m : Mem) (i : ℕ) : (entryAt m i).name.length = recLength m i := by
  rw [entryAt, List.length_map, List.length_range]
  rfl

/-- A record that is reached twice is reached again and again. -/
theorem WalksInside.sound (h : WalksInside m size) : Sound m size := by
  intro k hk
  obtain ⟨fuel, es, hes, hin⟩ := h.parse
  rw [dirEntries_eq, Option.map_eq_some_iff] at hes
  obtain ⟨os, hos, rfl⟩ := hes
  obtain ⟨n, -, hend, hbelow, rfl⟩ := linkLoop_eq_some.mp hos
  have hkn : k < n := by
    by_contra hle
    have := hk n (by omega)
    omega
  constructor
  · have hmem := hin (entryAt m ((nextRec m)^[k] 0))
      (List.mem_map_of_mem (List.mem_map.mpr ⟨k, List.mem_range.mpr hkn, rfl⟩))
    rw [entryAt_name] at hmem
    exact hmem
  · intro j hj heq
    have hperiod : (nextRec m)^[n - k + j] 0 = (nextRec m)^[n] 0 := by
      rw [Function.iterate_add_apply, heq, ← Function.iterate_add_apply, Nat.sub_add_cancel hkn.le]
    have := hbelow (n - k + j) (by omega)
    omega

theorem Sound.ends (h : Sound m size) : ∃ n, size ≤ (nextRec m)^[n] 0 := by
  by_contra hne
  rw [not_exists] at hne
  have hlt : ∀ k, (nextRec m)^[k] 0 < size := fun k => Nat.lt_of_not_le (hne k)
  obtain ⟨j, -, k, -, hjk, heq⟩ := Finset.exists_ne_map_eq_of_card_lt_of_maps_to
    (show (Finset.range size).card < (Finset.range (size + 1)).card by simp)
    (fun k _ => Finset.mem_coe.mpr (Finset.mem_range.mpr (hlt k)))
  rcases Nat.lt_or_gt_of_ne hjk with hj | hj
  · exact (h k fun j _ => hlt j).2 j hj heq
  · exact (h j fun k _ => hlt k).2 k hj heq.symm

theorem Sound.walksInside (h : Sound m size) : WalksInside m size := by
  obtain ⟨n, hend, hmin⟩ : ∃ n, size ≤ (nextRec m)^[n] 0 ∧ ∀ j < n, (nextRec m)^[j] 0 < size :=
    ⟨Nat.find h.ends, Nat.find_spec h.ends, fun j hj => Nat.lt_of_not_le (Nat.find_min h.ends hj)⟩
  have hloop : linkLoop m size (n + 1) 0 = some ((List.range n).map fun j => (nextRec m)^[j] 0) :=
    linkLoop_eq_some.mpr ⟨n, Nat.lt_succ_self n, hend, hmin, rfl⟩
  have hin : ∀ o ∈ (List.range n).map fun j => (nextRec m)^[j] 0, o + 8 + recLength m o ≤ size := by
    intro o ho
    obtain ⟨k, hk, rfl⟩ := List.mem_map.mp ho
    exact (h k fun j hj => hmin j (by have := List.mem_range.mp hk; omega)).1
  refine ⟨⟨n + 1, _, by rw [dirEntries_eq, hloop]; rfl, fun e he => ?_⟩, ⟨n + 1, _, hloop, fun o ho => ?_⟩⟩
  · obtain ⟨o, ho, rfl⟩ := List.mem_map.mp he
    rw [entryAt_name]
    exact hin o ho
  · have := hin o ho
    omega

/-- **Directory walks** end and stay inside exactly if the records that are reached do, and none is reached twice. -/
theorem walks_end_iff (m : Mem) (size : ℕ) : WalksInside m size ↔ Sound m size :=
  ⟨WalksInside.sound, Sound.walksInside⟩

/-- A block of zeros: a record of size 0 is followed by itself. -/
theorem zero_record_repeats : ¬ WalksInside (fun _ => 0) 1024 := by
  intro h
  have hfix : ∀ k, (nextRec fun _ => 0)^[k] 0 = 0 := fun k => Function.iterate_fixed rfl k
  have hne := (h.sound 1 fun j _ => by rw [hfix]; decide).2 0 Nat.zero_lt_one
  rw [hfix, hfix] at hne
  exact hne rfl

end BulbOS.Dir
