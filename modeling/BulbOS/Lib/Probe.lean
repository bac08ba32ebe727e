import Mathlib.Data.Finset.Card
import Mathlib.Logic.Function.Basic
import Mathlib.Order.Interval.Finset.Nat

/-!
# Linear probing

An open-addressing table of `C` slots, each empty, dead (a tombstone) or used by a key. A key `k`
is looked for at the positions `(h k + d) % C`, `d = 0, 1, …`, up to the first empty slot.
`Probing` is what makes that search exact: no key is stored twice, and between the home position of
a stored key and its slot there is no empty slot.

* `Probing.insert`, `Probing.bury`, `Probing.clear`: the three ways a slot changes; `Reach` is the part of it that
  stands even when keys are stored twice;
* `exists_first`: a search that must stop stops at a first position;
* `occupied`: the number of slots that are not empty, and how it changes;
* `fill`: the slots that keys stored one after the other take.
-/

namespace KLib

variable {κ : Type}

/-- A slot: never used, deleted, or holding a key. -/
inductive Slot (κ : Type) where
  | empty
  | dead
  | used (k : κ)
  deriving DecidableEq

theorem Slot.used_ne_empty (k : κ) : Slot.used k ≠ .empty := fun e => by cases e

theorem Slot.used_ne_dead (k : κ) : Slot.used k ≠ .dead := fun e => by cases e

theorem Slot.dead_ne_empty : (Slot.dead : Slot κ) ≠ .empty := fun e => by cases e

/-- No key twice, and no empty slot between a key's home and its slot. -/
structure Probing (C : ℕ) (h : κ → ℕ) (s : ℕ → Slot κ) : Prop where
  unique : ∀ i < C, ∀ j < C, ∀ k, s i = .used k → s j = .used k → i = j
  reach : ∀ j < C, ∀ k, s j = .used k →
    ∃ d < C, (h k + d) % C = j ∧ ∀ e < d, s ((h k + e) % C) ≠ .empty

variable {C : ℕ} {h : κ → ℕ} {s : ℕ → Slot κ}

/-- No empty slot between a key's home and its slots. -/
def Reach (C : ℕ) (h : κ → ℕ) (s : ℕ → Slot κ) : Prop :=
  ∀ j < C, ∀ k, s j = .used k → ∃ d < C, (h k + d) % C = j ∧ ∀ e < d, s ((h k + e) % C) ≠ .empty

theorem probing_empty (hs : ∀ i < C, s i = .empty) : Probing C h s where
  unique i hi _ _ _ hk _ := by rw [hs i hi] at hk; cases hk
  reach j hj _ hk := by rw [hs j hj] at hk; cases hk

/-- From any home position every slot is met within `C` steps. -/
theorem exists_offset (hC : 0 < C) (home : ℕ) {j : ℕ} (hj : j < C) : ∃ d < C, (home + d) % C = j := by
  have hlt := Nat.mod_lt home hC
  by_cases hle : home % C ≤ j
  · refine ⟨j - home % C, by omega, ?_⟩
    rw [Nat.add_mod, Nat.mod_eq_of_lt (by omega : j - home % C < C),
      Nat.mod_eq_of_lt (by omega)]
    omega
  · refine ⟨j + C - home % C, by omega, ?_⟩
    rw [Nat.add_mod, Nat.mod_eq_of_lt (by omega : j + C - home % C < C),
      show home % C + (j + C - home % C) = j + C by omega, Nat.add_mod_right,
      Nat.mod_eq_of_lt hj]

theorem exists_first {p : ℕ → Prop} {d : ℕ} (hd : p d) : ∃ e ≤ d, p e ∧ ∀ f < e, ¬ p f := by
  classical
  exact ⟨Nat.find ⟨d, hd⟩, Nat.find_min' _ hd, Nat.find_spec ⟨d, hd⟩, fun f hf => Nat.find_min _ hf⟩

/-- A search for `k` that meets no slot used by `k` before an empty one proves `k` absent. -/
theorem Probing.absent (hp : Probing C h s) {k : κ} {d : ℕ} (hd : s ((h k + d) % C) = .empty)
    (hbefore : ∀ e < d, s ((h k + e) % C) ≠ .used k) : ∀ j < C, s j ≠ .used k := by
  intro j hj hk
  obtain ⟨e, _, rfl, hne⟩ := hp.reach j hj k hk
  rcases lt_trichotomy e d with hlt | rfl | hgt
  · exact hbefore e hlt hk
  · rw [hd] at hk; cases hk
  · exact hne d hgt hd

theorem Reach.insert (hp : Reach C h s) {k : κ} {d : ℕ} (hd : d < C)
    (hbefore : ∀ e < d, s ((h k + e) % C) ≠ .empty) :
    Reach C h (Function.update s ((h k + d) % C) (.used k)) := by
  intro j hj k' hk'
  have hkeep : ∀ i, s i ≠ .empty → Function.update s ((h k + d) % C) (.used k) i ≠ .empty := by
    intro i hi
    by_cases hi' : i = (h k + d) % C
    · rw [hi', Function.update_self]; simp
    · rwa [Function.update_of_ne hi']
  by_cases hj' : j = (h k + d) % C
  · rw [hj', Function.update_self, Slot.used.injEq] at hk'
    subst hk'
    exact ⟨d, hd, hj'.symm, fun e he => hkeep _ (hbefore e he)⟩
  · rw [Function.update_of_ne hj'] at hk'
    obtain ⟨e, he, hpos, hne⟩ := hp j hj k' hk'
    exact ⟨e, he, hpos, fun f hf => hkeep _ (hne f hf)⟩

/-- **Storing a key** in a slot of its probe sequence before which there is no empty one. -/
theorem Probing.insert (hp : Probing C h s) {k : κ} (habs : ∀ j < C, s j ≠ .used k) {d : ℕ}
    (hd : d < C) (hbefore : ∀ e < d, s ((h k + e) % C) ≠ .empty) :
    Probing C h (Function.update s ((h k + d) % C) (.used k)) where
  unique i hi j hj k' h₁ h₂ := by
    by_cases hi' : i = (h k + d) % C <;> by_cases hj' : j = (h k + d) % C
    · rw [hi', hj']
    · rw [hi', Function.update_self, Slot.used.injEq] at h₁
      rw [Function.update_of_ne hj', ← h₁] at h₂
      exact absurd h₂ (habs j hj)
    · rw [hj', Function.update_self, Slot.used.injEq] at h₂
      rw [Function.update_of_ne hi', ← h₂] at h₁
      exact absurd h₁ (habs i hi)
    · rw [Function.update_of_ne hi'] at h₁
      rw [Function.update_of_ne hj'] at h₂
      exact hp.unique i hi j hj k' h₁ h₂
  reach := Reach.insert hp.reach hd hbefore

/-- A slot that loses its key keeps `unique`, whatever it becomes. -/
theorem Probing.unique_update (hp : Probing C h s) (i : ℕ) {x : Slot κ} (hx : ∀ k, x ≠ .used k) :
    ∀ a < C, ∀ b < C, ∀ k, Function.update s i x a = .used k → Function.update s i x b = .used k →
      a = b := by
  intro a ha b hb k h₁ h₂
  have hai : a ≠ i := fun e => hx k (by rwa [e, Function.update_self] at h₁)
  have hbi : b ≠ i := fun e => hx k (by rwa [e, Function.update_self] at h₂)
  rw [Function.update_of_ne hai] at h₁
  rw [Function.update_of_ne hbi] at h₂
  exact hp.unique a ha b hb k h₁ h₂

theorem Reach.bury (hp : Reach C h s) (i : ℕ) : Reach C h (Function.update s i .dead) := by
  intro j hj k hk
  have hji : j ≠ i := fun e => by rw [e, Function.update_self] at hk; cases hk
  rw [Function.update_of_ne hji] at hk
  obtain ⟨d, hd, hpos, hne⟩ := hp j hj k hk
  refine ⟨d, hd, hpos, fun e he => ?_⟩
  by_cases hi : (h k + e) % C = i
  · rw [hi, Function.update_self]; simp
  · rw [Function.update_of_ne hi]; exact hne e he

/-- **Leaving a tombstone.** -/
theorem Probing.bury (hp : Probing C h s) (i : ℕ) : Probing C h (Function.update s i .dead) where
  unique := hp.unique_update i fun _ => by simp
  reach := Reach.bury hp.reach i

theorem Reach.clear (hp : Reach C h s) {i : ℕ} (hnext : s ((i + 1) % C) = .empty) :
    Reach C h (Function.update s i .empty) := by
  intro j hj k hk
  have hji : j ≠ i := fun e => by rw [e, Function.update_self] at hk; cases hk
  rw [Function.update_of_ne hji] at hk
  obtain ⟨d, hd, hpos, hne⟩ := hp j hj k hk
  refine ⟨d, hd, hpos, fun e he => ?_⟩
  have hi : (h k + e) % C ≠ i := by
    intro hi
    have hsucc : (h k + (e + 1)) % C = (i + 1) % C := by
      rw [← Nat.add_assoc, Nat.add_mod, hi, Nat.add_mod i 1, ← hi, Nat.mod_mod]
    rcases Nat.lt_or_ge (e + 1) d with hlt | hge
    · exact hne (e + 1) hlt (by rw [hsucc, hnext])
    · rw [← hpos, show d = e + 1 by omega, hsucc, hnext] at hk
      cases hk
  rw [Function.update_of_ne hi]
  exact hne e he

/-- **Emptying a slot whose successor is empty** cuts no probe sequence: one that went through the
slot would have met the empty successor. -/
theorem Probing.clear (hp : Probing C h s) {i : ℕ} (hnext : s ((i + 1) % C) = .empty) :
    Probing C h (Function.update s i .empty) where
  unique := hp.unique_update i fun _ => by simp
  reach := Reach.clear hp.reach hnext

/-! ## Occupied slots -/

open Classical in
/-- The number of slots that are not empty. -/
noncomputable def occupied (C : ℕ) (s : ℕ → Slot κ) : ℕ :=
  ((Finset.range C).filter fun i => s i ≠ .empty).card

theorem occupied_empty (hs : ∀ i < C, s i = .empty) : occupied C s = 0 := by
  classical
  unfold occupied
  rw [Finset.card_eq_zero, Finset.filter_eq_empty_iff]
  intro i hi
  simpa using hs i (Finset.mem_range.mp hi)

theorem occupied_le : occupied C s ≤ C := by
  classical
  unfold occupied
  exact (Finset.card_filter_le _ _).trans (Finset.card_range C).le

theorem card_le_occupied {A : Finset ℕ} (h : ∀ i ∈ A, i < C ∧ s i ≠ .empty) : A.card ≤ occupied C s := by
  classical
  unfold occupied
  refine Finset.card_le_card fun i hi => ?_
  obtain ⟨hlt, hne⟩ := h i hi
  exact Finset.mem_filter.mpr ⟨Finset.mem_range.mpr hlt, hne⟩

theorem exists_empty (hocc : occupied C s < C) : ∃ j < C, s j = .empty := by
  classical
  by_contra hc
  push Not at hc
  refine absurd hocc (not_lt.mpr ?_)
  unfold occupied
  rw [Finset.filter_true_of_mem fun i hi => hc i (Finset.mem_range.mp hi), Finset.card_range]

theorem occupied_update_same {i : ℕ} {x : Slot κ} (hi : s i ≠ .empty) (hx : x ≠ .empty) :
    occupied C (Function.update s i x) = occupied C s := by
  classical
  unfold occupied
  congr 1
  refine Finset.filter_congr fun j _ => ?_
  by_cases hj : j = i
  · rw [hj, Function.update_self]; simp [hi, hx]
  · rw [Function.update_of_ne hj]

theorem occupied_fill {i : ℕ} (hiC : i < C) {x : Slot κ} (hi : s i = .empty) (hx : x ≠ .empty) :
    occupied C (Function.update s i x) = occupied C s + 1 := by
  classical
  unfold occupied
  rw [← Finset.card_insert_of_notMem (a := i) (by simp [hi])]
  congr 1
  ext j
  by_cases hj : j = i
  · simp [hj, hx, hiC]
  · simp [hj]

theorem occupied_clear {i : ℕ} (hiC : i < C) (hi : s i ≠ .empty) :
    occupied C (Function.update s i .empty) + 1 = occupied C s := by
  have := occupied_fill (s := Function.update s i .empty) hiC (Function.update_self ..) hi
  rwa [Function.update_idem, Function.update_eq_self, eq_comm] at this

/-! ## Keys stored one after the other -/

/-- The first slot from `home` on that is not taken. -/
def firstFree (C home : ℕ) (taken : List ℕ) : ℕ :=
  (home + ((List.range C).find? fun d => (home + d) % C ∉ taken).getD 0) % C

theorem firstFree_eq {home d : ℕ} {taken : List ℕ} (hd : d < C) (hfree : (home + d) % C ∉ taken)
    (hbefore : ∀ e < d, (home + e) % C ∈ taken) : firstFree C home taken = (home + d) % C := by
  have hfind : (List.range C).find? (fun d => (home + d) % C ∉ taken) = some d := by
    refine List.find?_range_eq_some.mpr ⟨decide_eq_true hfree, List.mem_range.mpr hd, fun e he => ?_⟩
    simpa using hbefore e he
  rw [firstFree, hfind, Option.getD_some]

/-- The slots that are taken once the keys are stored in turn. -/
def fill (C : ℕ) (h : κ → ℕ) : List κ → List ℕ → List ℕ
  | [], taken => taken
  | k :: ks, taken => fill C h ks (firstFree C (h k) taken :: taken)

theorem mem_fill {ks : List κ} {taken : List ℕ} {i : ℕ} (hi : i ∈ taken) : i ∈ fill C h ks taken := by
  induction ks generalizing taken with
  | nil => exact hi
  | cons k ks ih => exact ih (List.mem_cons_of_mem _ hi)

theorem length_fill (ks : List κ) (taken : List ℕ) : (fill C h ks taken).length = ks.length + taken.length := by
  induction ks generalizing taken with
  | nil => exact (Nat.zero_add _).symm
  | cons k ks ih =>
    rw [fill, ih, List.length_cons, List.length_cons]
    omega

theorem fill_lt (hC : 0 < C) {ks : List κ} {taken : List ℕ} (htaken : ∀ i ∈ taken, i < C) :
    ∀ i ∈ fill C h ks taken, i < C := by
  induction ks generalizing taken with
  | nil => exact htaken
  | cons k ks ih => exact ih (List.forall_mem_cons.mpr ⟨Nat.mod_lt _ hC, htaken⟩)

theorem fill_append (ks ks' : List κ) (taken : List ℕ) :
    fill C h (ks ++ ks') taken = fill C h ks' (fill C h ks taken) := by
  induction ks generalizing taken with
  | nil => rfl
  | cons k ks ih => exact ih _

end KLib
