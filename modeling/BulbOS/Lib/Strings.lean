import BulbOS.Lib.Bytes
import Mathlib.Data.List.Basic
import Mathlib.Logic.Function.Basic

/-!
# Byte strings in a memory

* `storeBytes`: a string stored at an address, without a NUL; `update_storeBytes`, `storeBytes_concat`,
  `storeBytes_cons`: one byte at a time;
* `bytesFrom`: the bytes from an address on; `bytesFrom_storeBytes`: what is stored is read;
* `StringAt`: a string with its NUL; `StringAt.head`, `StringAt.tail`: its first byte and the rest; `StringAt.unique`: a
  memory has one string at an address.
-/

namespace KLib

variable {m : Mem} {a n : ℕ} {s s' : List UInt8} {c : UInt8}

def storeBytes (m : Mem) (a : ℕ) (s : List UInt8) : Mem := fun x =>
  if a ≤ x ∧ x < a + s.length then s.getD (x - a) 0 else m x

def bytesFrom (m : Mem) (a n : ℕ) : List UInt8 := (List.range n).map fun i => m (a + i)

theorem storeBytes_nil : storeBytes m a [] = m := by
  funext x
  exact if_neg (by rw [List.length_nil]; omega)

theorem storeBytes_singleton : storeBytes m a [c] = Function.update m a c := by
  funext x
  by_cases hx : x = a
  · subst hx
    rw [Function.update_self, storeBytes, List.length_singleton, if_pos (by omega), Nat.sub_self]
    rfl
  · rw [Function.update_of_ne hx, storeBytes, List.length_singleton, if_neg (by omega)]

theorem storeBytes_of_outside {x : ℕ} (h : x < a ∨ a + s.length ≤ x) : storeBytes m a s x = m x :=
  if_neg (by omega)

theorem storeBytes_inside {i : ℕ} (h : i < s.length) : storeBytes m a s (a + i) = s[i] := by
  rw [storeBytes, if_pos (by omega), Nat.add_sub_cancel_left, List.getD_eq_getElem?_getD, List.getElem?_eq_getElem h,
    Option.getD_some]

theorem update_storeBytes : Function.update (storeBytes m a s) (a + s.length) c = storeBytes m a (s ++ [c]) := by
  funext x
  have hlen : (s ++ [c]).length = s.length + 1 := List.length_append
  by_cases hlast : x = a + s.length
  · subst hlast
    rw [Function.update_self, storeBytes_inside (by omega), List.getElem_concat_length rfl]
  · rw [Function.update_of_ne hlast]
    by_cases hin : a ≤ x ∧ x < a + s.length
    · obtain ⟨i, rfl⟩ := Nat.exists_eq_add_of_le hin.1
      rw [storeBytes_inside (by omega), storeBytes_inside (by omega), List.getElem_append_left (by omega)]
    · rw [storeBytes_of_outside (by omega), storeBytes_of_outside (by omega)]

theorem storeBytes_concat : storeBytes (Function.update m (a + s.length) c) a s = storeBytes m a (s ++ [c]) := by
  rw [← update_storeBytes]
  funext x
  by_cases hlast : x = a + s.length
  · subst hlast
    rw [storeBytes_of_outside (.inr le_rfl), Function.update_self, Function.update_self]
  · rw [Function.update_of_ne hlast]
    by_cases hin : a ≤ x ∧ x < a + s.length
    · obtain ⟨i, rfl⟩ := Nat.exists_eq_add_of_le hin.1
      rw [storeBytes_inside (by omega), storeBytes_inside (by omega)]
    · rw [storeBytes_of_outside (by omega), storeBytes_of_outside (by omega), Function.update_of_ne hlast]

theorem storeBytes_cons : storeBytes (Function.update m a c) (a + 1) s = storeBytes m a (c :: s) := by
  funext x
  have hlen : (c :: s).length = s.length + 1 := List.length_cons
  rcases Nat.lt_trichotomy x a with hlt | rfl | hgt
  · rw [storeBytes_of_outside (.inl (by omega)), storeBytes_of_outside (.inl hlt), Function.update_of_ne hlt.ne]
  · rw [storeBytes_of_outside (.inl (Nat.lt_succ_self x)), Function.update_self]
    exact (storeBytes_inside (s := c :: s) (i := 0) (by omega)).symm
  · obtain ⟨i, rfl⟩ := Nat.exists_eq_add_of_lt hgt
    by_cases hi : i < s.length
    · rw [show a + i + 1 = a + 1 + i by omega, storeBytes_inside hi, show a + 1 + i = a + (i + 1) by omega,
        storeBytes_inside (by omega), List.getElem_cons_succ]
    · rw [storeBytes_of_outside (by omega), storeBytes_of_outside (by omega), Function.update_of_ne (by omega)]

@[simp] theorem length_bytesFrom : (bytesFrom m a n).length = n := by simp [bytesFrom]

theorem bytesFrom_eq (hlen : s.length = n) (h : ∀ i (hi : i < s.length), m (a + i) = s[i]) : bytesFrom m a n = s := by
  subst hlen
  refine List.ext_getElem length_bytesFrom fun i h₁ h₂ => ?_
  simpa [bytesFrom] using h i h₂

/-- **What is stored is read**, also a part of it. -/
theorem bytesFrom_storeBytes (h : n ≤ s.length) : bytesFrom (storeBytes m a s) a n = s.take n := by
  refine bytesFrom_eq (List.length_take_of_le h) fun i hi => ?_
  rw [List.length_take_of_le h] at hi
  rw [storeBytes_inside (by omega), List.getElem_take]

/-- The string and its NUL. -/
structure StringAt (m : Mem) (a : ℕ) (s : List UInt8) : Prop where
  chars : ∀ i (h : i < s.length), m (a + i) = s[i]
  noNul : 0 ∉ s
  nul : m (a + s.length) = 0

theorem stringAt_storeBytes (h : 0 ∉ s) : StringAt (storeBytes m a (s ++ [0])) a s where
  chars i hi := by
    rw [storeBytes_inside (by rw [List.length_append]; omega), List.getElem_append_left hi]
  noNul := h
  nul := by
    rw [storeBytes_inside (by rw [List.length_append, List.length_singleton]; omega), List.getElem_concat_length rfl]

theorem StringAt.head (h : StringAt m a (c :: s)) : m a = c ∧ c ≠ 0 :=
  ⟨h.chars 0 (Nat.succ_pos _), fun e => h.noNul (e ▸ List.mem_cons_self)⟩

theorem StringAt.tail (h : StringAt m a (c :: s)) : StringAt m (a + 1) s where
  chars i hi := by
    rw [show a + 1 + i = a + (i + 1) by omega, h.chars (i + 1) (Nat.succ_lt_succ hi), List.getElem_cons_succ]
  noNul := fun h₀ => h.noNul (List.mem_cons_of_mem c h₀)
  nul := by
    rw [show a + 1 + s.length = a + (c :: s).length by rw [List.length_cons]; omega]
    exact h.nul

theorem bytesFrom_succ (m : Mem) (a n : ℕ) : bytesFrom m a (n + 1) = m a :: bytesFrom m (a + 1) n := by
  rw [bytesFrom, List.range_succ_eq_map, List.map_cons, List.map_map, Nat.add_zero, bytesFrom]
  congr 1
  refine List.map_congr_left fun i _ => ?_
  change m (a + (i + 1)) = m (a + 1 + i)
  congr 1
  omega

theorem StringAt.drop (h : StringAt m a s) (hn : n ≤ s.length) : StringAt m (a + n) (s.drop n) := by
  induction n generalizing a s with
  | zero => exact h
  | succ n ih =>
    obtain ⟨c, rest, rfl⟩ := List.exists_cons_of_length_pos (Nat.zero_lt_of_lt hn)
    rw [show a + (n + 1) = a + 1 + n by omega, List.drop_succ_cons]
    exact ih h.tail (Nat.le_of_succ_le_succ hn)

/-- A comparison with the start of a string stops at its NUL. -/
theorem StringAt.bytesFrom_eq_iff (h : StringAt m a s) (hs : 0 ∉ s') :
    bytesFrom m a s'.length = s' ↔ s' <+: s := by
  induction s' generalizing a s with
  | nil => exact iff_of_true rfl List.nil_prefix
  | cons c s' ih =>
    rw [List.length_cons, bytesFrom_succ, List.cons.injEq]
    cases s with
    | nil =>
      have hnul : m a = 0 := h.nul
      refine iff_of_false (fun he => hs ?_) fun hp => absurd (List.prefix_nil.mp hp) (List.cons_ne_nil c s')
      rw [← he.1, hnul]
      exact List.mem_cons_self
    | cons d s =>
      rw [h.head.1, ih h.tail fun h₀ => hs (List.mem_cons_of_mem c h₀), List.cons_prefix_cons]
      exact and_congr_left' eq_comm

theorem StringAt.nul_iff (h : StringAt m a s) (hn : n ≤ s.length) : m (a + n) = 0 ↔ s.length = n := by
  constructor
  · intro h₀
    by_contra hne
    have hlt : n < s.length := by omega
    rw [h.chars n hlt] at h₀
    exact h.noNul (h₀ ▸ List.getElem_mem hlt)
  · rintro rfl
    exact h.nul

theorem StringAt.length_le (h : StringAt m a s) (h' : StringAt m a s') : s'.length ≤ s.length := by
  by_contra hlt
  have hchar := h'.chars s.length (by omega)
  rw [h.nul] at hchar
  exact h'.noNul (hchar ▸ List.getElem_mem _)

theorem StringAt.unique (h : StringAt m a s) (h' : StringAt m a s') : s = s' :=
  List.ext_getElem (le_antisymm (h'.length_le h) (h.length_le h')) fun i h₁ h₂ =>
    (h.chars i h₁).symm.trans (h'.chars i h₂)

end KLib
