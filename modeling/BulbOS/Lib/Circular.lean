import Mathlib.Data.List.Basic
import Mathlib.Logic.Function.Basic
import Mathlib.Data.Nat.Notation

/-!
# Circular buffers with a head and a size

The `size` elements of a buffer of `N` cells, from cell `head` on, in a circle.

* `circular_push`: a new last element;
* `circular_pop`: the first element and the others.
-/

namespace KLib

variable {α : Type} {N head size : ℕ} {buf : ℕ → α}

/-- The elements in order. -/
def circular (buf : ℕ → α) (N head size : ℕ) : List α := (List.range size).map fun i => buf ((head + i) % N)

@[simp] theorem circular_length : (circular buf N head size).length = size := by simp [circular]

theorem circular_cell_ne {i j : ℕ} (hij : i < j) (hj : j < N) : (head + i) % N ≠ (head + j) % N := by
  intro he
  have hdvd : N ∣ head + j - (head + i) := Nat.dvd_of_mod_eq_zero (Nat.sub_mod_eq_zero_of_mod_eq he.symm)
  have hle := Nat.le_of_dvd (by omega) hdvd
  omega

/-- **A new last element**, in the first cell that is free. -/
theorem circular_push (hroom : size < N) (x : α) :
    circular (Function.update buf ((head + size) % N) x) N head (size + 1) = circular buf N head size ++ [x] := by
  unfold circular
  rw [List.range_succ, List.map_append, List.map_singleton, Function.update_self]
  congr 1
  refine List.map_congr_left fun i hi => ?_
  rw [Function.update_of_ne (circular_cell_ne (List.mem_range.mp hi) hroom)]

/-- **The first element and the others.** -/
theorem circular_pop (hhead : head < N) :
    circular buf N head (size + 1) = buf head :: circular buf N ((head + 1) % N) size := by
  unfold circular
  rw [List.range_succ_eq_map, List.map_cons, List.map_map, Nat.add_zero, Nat.mod_eq_of_lt hhead]
  congr 1
  refine List.map_congr_left fun i _ => ?_
  rw [Function.comp_apply, Nat.mod_add_mod, Nat.succ_eq_add_one, Nat.add_assoc, Nat.add_comm 1 i]

end KLib
