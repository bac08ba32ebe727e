import BulbOS.Lib.Bytes
import Mathlib.Data.List.Basic
import Mathlib.Logic.Function.Basic

/-!
# Ring buffers with free-running 32-bit counters

A ring of `N` cells, `N` a divisor of `2 ^ 32`, holds the elements `stored` and not yet `taken`. The
two counters count them modulo `2 ^ 32` and are never reset; a cell is a counter modulo `N`.

* `Ring.full_iff`, `Ring.empty_iff`, `Ring.count`: what comparing the counters says;
* `Ring.push`, `Ring.pop`: the two operations;
* `Ring.push_position`, `Ring.pop_position`: the positions used by the two operations are themselves a queue.
-/

namespace KLib

variable {α : Type} {N : ℕ} {buf : ℕ → α} {bRead bWrite : ℕ} {stored taken : List α}

/-- The ring holds what is stored and not taken. -/
structure Ring (N : ℕ) (buf : ℕ → α) (bRead bWrite : ℕ) (stored taken : List α) : Prop where
  dvd : N ∣ 2 ^ 32
  lt : N < 2 ^ 32
  le : stored.length ≤ taken.length + N
  pre : taken <+: stored
  write : bWrite = stored.length % 2 ^ 32
  read : bRead = taken.length % 2 ^ 32
  data : ∀ j, taken.length ≤ j → j < stored.length → stored[j]? = some (buf (j % N))

theorem ring_nil (buf : ℕ → α) (hdvd : N ∣ 2 ^ 32) (hlt : N < 2 ^ 32) : Ring N buf 0 0 [] [] where
  dvd := hdvd
  lt := hlt
  le := Nat.zero_le _
  pre := List.prefix_rfl
  write := rfl
  read := rfl
  data _ _ hj := absurd hj (Nat.not_lt_zero _)

theorem Ring.full_iff (h : Ring N buf bRead bWrite stored taken) :
    bWrite = u32 (bRead + N) ↔ stored.length = taken.length + N := by
  have hle := h.pre.length_le
  have h₁ := h.le
  have h₂ := h.lt
  rw [h.write, h.read, u32]
  omega

theorem Ring.empty_iff (h : Ring N buf bRead bWrite stored taken) :
    bRead = bWrite ↔ taken.length = stored.length := by
  have hle := h.pre.length_le
  have h₁ := h.le
  have h₂ := h.lt
  rw [h.write, h.read]
  omega

theorem Ring.count (h : Ring N buf bRead bWrite stored taken) :
    sub32 bWrite bRead = stored.length - taken.length := by
  have hle := h.pre.length_le
  have h₁ := h.le
  have h₂ := h.lt
  rw [h.write, h.read, sub32]
  omega

/-- **Storing** an element in the cell of the write counter. -/
theorem Ring.push (h : Ring N buf bRead bWrite stored taken)
    (hroom : stored.length < taken.length + N) (x : α) :
    Ring N (Function.update buf (bWrite % N) x) bRead (u32 (bWrite + 1)) (stored ++ [x]) taken where
  dvd := h.dvd
  lt := h.lt
  le := by rw [List.length_append, List.length_singleton]; omega
  pre := h.pre.trans (List.prefix_append _ _)
  write := by rw [h.write, u32, Nat.mod_add_mod, List.length_append, List.length_singleton]
  read := h.read
  data j hj hlt := by
    have hw : bWrite % N = stored.length % N := by rw [h.write, Nat.mod_mod_of_dvd _ h.dvd]
    rw [List.length_append, List.length_singleton] at hlt
    by_cases hlast : j = stored.length
    · rw [hw, hlast, Function.update_self, List.getElem?_concat_length]
    · have hne : j % N ≠ bWrite % N := by
        -- two positions less than `N` apart share no cell
        rw [hw]
        intro he
        have hmod := Nat.sub_mod_eq_zero_of_mod_eq he.symm
        have hdvd := Nat.le_of_dvd (by omega) (Nat.dvd_of_mod_eq_zero hmod)
        omega
      rw [Function.update_of_ne hne, List.getElem?_append_left (by omega)]
      exact h.data j hj (by omega)

/-- **Taking** the element in the cell of the read counter. -/
theorem Ring.pop (h : Ring N buf bRead bWrite stored taken) (hne : taken.length < stored.length) :
    Ring N buf (u32 (bRead + 1)) bWrite stored (taken ++ [buf (bRead % N)]) where
  dvd := h.dvd
  lt := h.lt
  le := by
    have := h.le
    rw [List.length_append, List.length_singleton]
    omega
  pre := by
    have hr : bRead % N = taken.length % N := by rw [h.read, Nat.mod_mod_of_dvd _ h.dvd]
    have hget := h.data taken.length le_rfl hne
    rw [← hr] at hget
    obtain ⟨rest, hrest⟩ := h.pre
    rw [← hrest, List.getElem?_append_right le_rfl, Nat.sub_self] at hget
    cases rest with
    | nil => cases hget
    | cons y rest =>
      rw [List.getElem?_cons_zero, Option.some.injEq] at hget
      exact ⟨rest, by rw [← hrest, hget, List.append_assoc, List.singleton_append]⟩
  write := h.write
  read := by rw [h.read, u32, Nat.mod_add_mod, List.length_append, List.length_singleton]
  data j hj hlt := by
    rw [List.length_append, List.length_singleton] at hj
    exact h.data j (by omega) hlt

section Positions

variable {bRead bWrite : ℕ} {stores takes : List ℕ}

theorem Ring.push_position (h : Ring N id bRead bWrite stores takes) (hroom : bWrite ≠ u32 (bRead + N)) :
    Ring N id bRead (u32 (bWrite + 1)) (stores ++ [bWrite % N]) takes := by
  have hlt : stores.length < takes.length + N := by
    have hle := h.le
    have := (not_congr h.full_iff).mp hroom
    omega
  have hpush := h.push hlt (bWrite % N)
  rwa [show Function.update id (bWrite % N) (bWrite % N) = id from Function.update_eq_self _ _] at hpush

theorem Ring.pop_position (h : Ring N id bRead bWrite stores takes) (hne : bRead ≠ bWrite) :
    Ring N id (u32 (bRead + 1)) bWrite stores (takes ++ [bRead % N]) := by
  have hlt : takes.length < stores.length := by
    have hle := h.pre.length_le
    have := (not_congr h.empty_iff).mp hne
    omega
  exact h.pop hlt

end Positions

end KLib
