import Mathlib.Data.List.Basic
import Mathlib.Data.List.Count
import Mathlib.Data.Nat.Notation

/-!
# Sending the head of a queue until it is acknowledged

Elements are accepted in order and numbered; the first `gone` of them have left. The log has every transmission,
with the number of the element. Only the first element that has not left is sent, at most `N` times.

* `firstSent`: the elements in the order of their first transmissions;
* `Resent`: the log of such a sender; `Resent.accept`, `Resent.send`, `Resent.leave`: what it can do;
* **`Resent.first_prefix`**, **`Resent.count_le`**: first transmissions are in order, and none is sent too often.
-/

namespace KLib

variable {α : Type} {N gone t : ℕ} {accepted : List α} {sent : List (ℕ × α)} {x : α}

/-- The transmissions of elements that are not in `seen` and were not sent before. -/
def firstSent (seen : List ℕ) : List (ℕ × α) → List α
  | [] => []
  | (i, x) :: l => if i ∈ seen then firstSent seen l else x :: firstSent (i :: seen) l

/-- How often element `i` was sent. -/
def timesSent (sent : List (ℕ × α)) (i : ℕ) : ℕ := (sent.map Prod.fst).count i

theorem firstSent_snoc (seen : List ℕ) (sent : List (ℕ × α)) (i : ℕ) (x : α) :
    firstSent seen (sent ++ [(i, x)]) =
      if i ∈ seen ∨ i ∈ sent.map Prod.fst then firstSent seen sent else firstSent seen sent ++ [x] := by
  induction sent generalizing seen with
  | nil => simp [firstSent]
  | cons p l ih =>
    obtain ⟨j, y⟩ := p
    rw [List.cons_append, firstSent, firstSent]
    by_cases hj : j ∈ seen
    · rw [if_pos hj, if_pos hj, ih]
      refine if_congr ?_ rfl rfl
      rw [List.map_cons, List.mem_cons]
      constructor
      · exact Or.imp_right .inr
      · rintro (h | rfl | h)
        · exact .inl h
        · exact .inl hj
        · exact .inr h
    · rw [if_neg hj, if_neg hj, ih]
      simp only [List.map_cons, List.mem_cons]
      by_cases h : i ∈ seen ∨ i = j ∨ i ∈ l.map Prod.fst
      · rw [if_pos h, if_pos (by tauto)]
      · rw [if_neg h, if_neg (by tauto), List.cons_append]

theorem timesSent_snoc (sent : List (ℕ × α)) (i j : ℕ) (x : α) :
    timesSent (sent ++ [(i, x)]) j = timesSent sent j + if i = j then 1 else 0 := by
  simp [timesSent, List.count_append, List.count_singleton]

/-- The element at the head has been sent `t` times, and those that have left at least once. -/
structure Resent (N : ℕ) (accepted : List α) (sent : List (ℕ × α)) (gone t : ℕ) : Prop where
  le : gone + min t 1 ≤ accepted.length
  first : firstSent [] sent = accepted.take (gone + min t 1)
  past : ∀ i < gone, 0 < timesSent sent i ∧ timesSent sent i ≤ N
  now : timesSent sent gone = t
  future : ∀ i, gone < i → timesSent sent i = 0

theorem resent_nil : Resent N ([] : List α) [] 0 0 := by
  refine ⟨Nat.le_refl 0, rfl, fun i hi => absurd hi (Nat.not_lt_zero i), rfl, fun _ _ => rfl⟩

theorem Resent.accept (h : Resent N accepted sent gone t) (x : α) : Resent N (accepted ++ [x]) sent gone t := by
  refine ⟨?_, ?_, h.past, h.now, h.future⟩
  · rw [List.length_append]
    exact Nat.le_trans h.le (Nat.le_add_right _ _)
  · rw [h.first, List.take_append_of_le_length h.le]

theorem mem_sent_iff (i : ℕ) : i ∈ sent.map Prod.fst ↔ 0 < timesSent sent i := List.count_pos_iff.symm

/-- **Sending** the head, for the first time or again. -/
theorem Resent.send (h : Resent N accepted sent gone t) (hx : accepted[gone]? = some x) :
    Resent N accepted (sent ++ [(gone, x)]) gone (t + 1) := by
  obtain ⟨hlt, hget⟩ := List.getElem?_eq_some_iff.mp hx
  refine ⟨by omega, ?_, fun i hi => ?_, ?_, fun i hi => ?_⟩
  · rw [firstSent_snoc, h.first]
    by_cases ht : t = 0
    · rw [if_neg, ht, ← hget]
      · exact (List.take_succ_eq_append_getElem hlt).symm
      · rw [mem_sent_iff, h.now, ht]
        simp
    · rw [if_pos]
      · congr 1
        omega
      · rw [mem_sent_iff, h.now]
        exact .inr (Nat.pos_of_ne_zero ht)
  · rw [timesSent_snoc, if_neg (by omega)]
    exact h.past i hi
  · rw [timesSent_snoc, if_pos rfl, h.now]
  · rw [timesSent_snoc, if_neg (by omega)]
    exact h.future i hi

/-- **The head leaves** after it was sent. -/
theorem Resent.leave (h : Resent N accepted sent gone t) (h₀ : 0 < t) (hle : t ≤ N) :
    Resent N accepted sent (gone + 1) 0 := by
  have hmin : min t 1 = 1 := by omega
  have hl := h.le
  have hfirst := h.first
  rw [hmin] at hl hfirst
  refine ⟨hl, hfirst, fun i hi => ?_, h.future (gone + 1) (by omega), fun i hi => h.future i (by omega)⟩
  rcases Nat.lt_succ_iff_lt_or_eq.mp hi with hi | rfl
  · exact h.past i hi
  · rw [h.now]
    exact ⟨h₀, hle⟩

/-- **First transmissions** are in the order of acceptance, without gaps. -/
theorem Resent.first_prefix (h : Resent N accepted sent gone t) : firstSent [] sent <+: accepted := by
  rw [h.first]
  exact List.take_prefix _ _

/-- **No element is sent too often.** -/
theorem Resent.count_le (h : Resent N accepted sent gone t) (hle : t ≤ N) (i : ℕ) : timesSent sent i ≤ N := by
  rcases Nat.lt_trichotomy i gone with hi | rfl | hi
  · exact (h.past i hi).2
  · rw [h.now]
    exact hle
  · rw [h.future i hi]
    exact Nat.zero_le N

end KLib
