import Mathlib.Data.List.Basic

/-!
# A count of the threads inside

`Holder n inside`: at most one thread is inside, and `n` is their number.

* `Holder.keep`, `Holder.enter`, `Holder.leave`: a thread stays where it is, enters or leaves.
-/

namespace KLib

variable {T : Type} {n : ℕ} {inside inside' : T → Prop} {t : T}

/-- No thread is inside and the count is 0, or one is and the count is 1. -/
inductive Holder (n : ℕ) (inside : T → Prop) : Prop
  | free (h : n = 0) (hnone : ∀ t, ¬ inside t)
  | held (t : T) (h : n = 1) (ht : inside t) (hone : ∀ t', inside t' → t' = t)

theorem Holder.keep (h : Holder n inside) (hall : ∀ t, inside' t ↔ inside t) : Holder n inside' := by
  cases h with
  | free h hnone => exact .free h fun t ht => hnone t ((hall t).mp ht)
  | held t h ht hone => exact .held t h ((hall t).mpr ht) fun t' ht' => hone t' ((hall t').mp ht')

theorem Holder.enter (h : Holder n inside) (hn : n < 1) (ht : inside' t)
    (hother : ∀ t', t' ≠ t → (inside' t' ↔ inside t')) : Holder 1 inside' := by
  cases h with
  | held t₀ h => omega
  | free h hnone =>
    refine .held t rfl ht fun t' ht' => ?_
    by_contra hne
    exact hnone t' ((hother t' hne).mp ht')

theorem Holder.leave (h : Holder n inside) (ht : inside t) (ht' : ¬ inside' t)
    (hother : ∀ t', t' ≠ t → (inside' t' ↔ inside t')) : Holder 0 inside' := by
  cases h with
  | free h hnone => exact absurd ht (hnone t)
  | held t₀ h _ hone =>
    obtain rfl := hone t ht
    refine .free rfl fun t' hin => ?_
    by_cases e : t' = t
    · exact ht' (e ▸ hin)
    · exact e (hone t' ((hother t' e).mp hin))

theorem Holder.count (h : Holder n inside) (ht : inside t) : n = 1 := by
  cases h with
  | free h hnone => exact absurd ht (hnone t)
  | held t₀ h => exact h

theorem Holder.eq {t' : T} (h : Holder n inside) (ht : inside t) (ht' : inside t') : t = t' := by
  cases h with
  | free h hnone => exact absurd ht (hnone t)
  | held t₀ h _ hone => rw [hone t ht, hone t' ht']

end KLib
