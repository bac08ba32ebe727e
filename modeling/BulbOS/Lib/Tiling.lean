import Mathlib.Data.List.Perm.Basic
import Mathlib.Data.List.Pairwise

/-!
# Tilings of an interval

`Tiles gs lo hi` says that every point of `[lo, hi)` lies in exactly one interval of the list `gs`
and every other point in none. Counting makes the operations on tilings local: an interval may be
split, two neighbours joined, the list permuted, a new interval added at the end.

* `Tiles.pairwise`, `Tiles.mem_iff`: the intervals are disjoint and cover `[lo, hi)`;
* `Tiles.perm`, `tiles_split`, `Tiles.extend`.
-/

namespace KLib

/-- Each point of `[lo, hi)` lies in exactly one interval of the list, every other point in none. -/
def Tiles (gs : List (ℕ × ℕ)) (lo hi : ℕ) : Prop :=
  ∀ x, gs.countP (fun g => g.1 ≤ x ∧ x < g.2) = if lo ≤ x ∧ x < hi then 1 else 0

theorem tiles_singleton (lo hi : ℕ) : Tiles [(lo, hi)] lo hi := fun x => by
  simp [List.countP_cons]

theorem Tiles.perm {gs gs' : List (ℕ × ℕ)} {lo hi : ℕ} (h : Tiles gs lo hi) (hp : gs.Perm gs') :
    Tiles gs' lo hi := fun x => by rw [← hp.countP_eq]; exact h x

theorem tiles_split {gs : List (ℕ × ℕ)} {a b c lo hi : ℕ} (h₁ : a ≤ b) (h₂ : b ≤ c) :
    Tiles ((a, b) :: (b, c) :: gs) lo hi ↔ Tiles ((a, c) :: gs) lo hi := by
  refine forall_congr' fun x => ?_
  simp only [List.countP_cons, decide_eq_true_eq]
  have hcut : (if b ≤ x ∧ x < c then 1 else 0) + (if a ≤ x ∧ x < b then 1 else 0) =
      if a ≤ x ∧ x < c then 1 else 0 := by split_ifs <;> omega
  rw [Nat.add_assoc, hcut]

theorem Tiles.extend {gs : List (ℕ × ℕ)} {lo mid hi : ℕ} (h : Tiles gs lo mid) (h₁ : lo ≤ mid)
    (h₂ : mid ≤ hi) : Tiles ((mid, hi) :: gs) lo hi := fun x => by
  have := h x
  simp only [List.countP_cons, decide_eq_true_eq]
  split_ifs at this ⊢ <;> omega

theorem Tiles.mem_iff {gs : List (ℕ × ℕ)} {lo hi : ℕ} (h : Tiles gs lo hi) (x : ℕ) :
    lo ≤ x ∧ x < hi ↔ ∃ g ∈ gs, g.1 ≤ x ∧ x < g.2 := by
  have hx := h x
  have hpos : 0 < gs.countP (fun g => g.1 ≤ x ∧ x < g.2) ↔ ∃ g ∈ gs, g.1 ≤ x ∧ x < g.2 := by
    simp [List.countP_pos_iff]
  rw [← hpos, hx]
  split_ifs with hc <;> simp [hc]

theorem Tiles.bounds {gs : List (ℕ × ℕ)} {lo hi : ℕ} (h : Tiles gs lo hi) {g : ℕ × ℕ} (hg : g ∈ gs)
    (hne : g.1 < g.2) : lo ≤ g.1 ∧ g.2 ≤ hi := by
  have h₁ := (h.mem_iff g.1).mpr ⟨g, hg, Nat.le_refl _, hne⟩
  have h₂ := (h.mem_iff (g.2 - 1)).mpr ⟨g, hg, by omega, by omega⟩
  omega

/-- The first interval of a tiling is disjoint from every other one. -/
theorem Tiles.disjoint_head {gs : List (ℕ × ℕ)} {g g' : ℕ × ℕ} {lo hi : ℕ}
    (h : Tiles (g :: gs) lo hi) (hg : g' ∈ gs) (hne : g.1 < g.2) (hne' : g'.1 < g'.2) :
    g.2 ≤ g'.1 ∨ g'.2 ≤ g.1 := by
  by_contra hc
  -- the larger of the two left ends would be counted twice
  obtain ⟨x, h₁, h₂, h₃, h₄⟩ : ∃ x, g.1 ≤ x ∧ x < g.2 ∧ g'.1 ≤ x ∧ x < g'.2 :=
    ⟨max g.1 g'.1, by omega, by omega, by omega, by omega⟩
  have hx := h x
  have hpos : 0 < gs.countP (fun q => q.1 ≤ x ∧ x < q.2) :=
    List.countP_pos_iff.mpr ⟨g', hg, by simp [h₃, h₄]⟩
  rw [List.countP_cons, if_pos (by simp [h₁, h₂])] at hx
  split_ifs at hx; omega

theorem Tiles.pairwise {gs : List (ℕ × ℕ)} {lo hi : ℕ} (h : Tiles gs lo hi)
    (hne : ∀ g ∈ gs, g.1 < g.2) : gs.Pairwise fun g g' => g.2 ≤ g'.1 ∨ g'.2 ≤ g.1 := by
  refine List.pairwise_iff_forall_sublist.mpr fun {g g'} hs => ?_
  have hg : g ∈ gs := hs.subset (by simp)
  obtain ⟨r, hr⟩ := hs.exists_perm_append
  have ht : Tiles (g :: (g' :: r)) lo hi := h.perm hr
  exact ht.disjoint_head List.mem_cons_self (hne g hg) (hne g' (hs.subset (by simp)))

end KLib
