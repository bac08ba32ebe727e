import BulbOS.Lib.Bytes
import Mathlib.Logic.Function.Basic

/-!
# `memmove` (`libc-src/string/memmove.c`)

* `memmove`: the two loops, upwards or downwards;
* `moved`: the memory in which a part of the destination has been copied; `copyUp_eq`, `copyDown_eq`: each loop only
  reads bytes of the source that it has not overwritten yet;
* **`memmove_overlap`**: the destination holds what the source held, for every overlap.
-/

namespace BulbOS.Libc

open KLib

variable {m : Mem} {dst src size : ℕ}

/-- `dst[i] = src[i]`. -/
def copyByte (dst src : ℕ) (m : Mem) (i : ℕ) : Mem := Function.update m (dst + i) (m (src + i))

/-- `for (i = 0; i < size; i++)`. -/
def copyUp (dst src : ℕ) (m : Mem) : ℕ → Mem
  | 0 => m
  | i + 1 => copyByte dst src (copyUp dst src m i) i

/-- `for (i = size; i != 0; i--)`, with `i - 1` as the index. -/
def copyDown (dst src : ℕ) : Mem → ℕ → Mem
  | m, 0 => m
  | m, i + 1 => copyDown dst src (copyByte dst src m i) i

/-- The memory and the pointer returned; the two regions lie in memory, so no address wraps. -/
def memmove (m : Mem) (dst src size : ℕ) : Mem × ℕ :=
  if dst < src then (copyUp dst src m size, dst) else (copyDown dst src m size, dst)

/-- The bytes `lo` to `hi - 1` of the destination are those of the source in `m`. -/
def moved (m : Mem) (dst src lo hi : ℕ) : Mem := fun a =>
  if dst + lo ≤ a ∧ a < dst + hi then m (src + (a - dst)) else m a

theorem moved_inside {lo hi i : ℕ} (hlo : lo ≤ i) (hhi : i < hi) : moved m dst src lo hi (dst + i) = m (src + i) := by
  rw [moved, if_pos (by omega), Nat.add_sub_cancel_left]

theorem moved_outside {lo hi a : ℕ} (h : a < dst + lo ∨ dst + hi ≤ a) : moved m dst src lo hi a = m a :=
  if_neg (by omega)

theorem moved_empty (n : ℕ) : moved m dst src n n = m := by
  funext a
  exact moved_outside (by omega)

/-- **Upwards**: the source is above the part of the destination that is written. -/
theorem copyUp_eq (h : dst < src) (n : ℕ) : copyUp dst src m n = moved m dst src 0 n := by
  induction n with
  | zero => exact (moved_empty 0).symm
  | succ n ih =>
    have hread : moved m dst src 0 n (src + n) = m (src + n) := moved_outside (.inr (by omega))
    rw [copyUp, ih, copyByte, hread]
    funext a
    by_cases ha : a = dst + n
    · subst ha
      rw [Function.update_self, moved_inside (Nat.zero_le n) n.lt_succ_self]
    · rw [Function.update_of_ne ha]
      by_cases hin : dst ≤ a ∧ a < dst + n
      · obtain ⟨i, rfl⟩ := Nat.exists_eq_add_of_le hin.1
        rw [moved_inside (Nat.zero_le i) (by omega), moved_inside (Nat.zero_le i) (by omega)]
      · rw [moved_outside (by omega), moved_outside (by omega)]

/-- **Downwards**: the source is below the part of the destination that is written, or the same. -/
theorem copyDown_eq (h : src ≤ dst) {n size : ℕ} (hn : n ≤ size) :
    copyDown dst src (moved m dst src n size) n = moved m dst src 0 size := by
  induction n with
  | zero => rfl
  | succ n ih =>
    have hread : moved m dst src (n + 1) size (src + n) = m (src + n) := moved_outside (.inl (by omega))
    have hbyte : copyByte dst src (moved m dst src (n + 1) size) n = moved m dst src n size := by
      rw [copyByte, hread]
      funext a
      by_cases ha : a = dst + n
      · subst ha
        rw [Function.update_self, moved_inside le_rfl (by omega)]
      · rw [Function.update_of_ne ha]
        by_cases hin : dst + n < a ∧ a < dst + size
        · obtain ⟨i, rfl⟩ := Nat.exists_eq_add_of_le (show dst ≤ a by omega)
          rw [moved_inside (by omega) (by omega), moved_inside (by omega) (by omega)]
        · rw [moved_outside (by omega), moved_outside (by omega)]
    rw [copyDown, hbyte]
    exact ih (by omega)

theorem memmove_eq (m : Mem) (dst src size : ℕ) : memmove m dst src size = (moved m dst src 0 size, dst) := by
  unfold memmove
  split_ifs with h
  · rw [copyUp_eq h]
  · have hdown := copyDown_eq (m := m) (not_lt.mp h) (le_refl size)
    rw [moved_empty] at hdown
    rw [hdown]

/-- **Every overlap**: the destination holds the bytes that the source held, and no other byte has changed. -/
theorem memmove_overlap (m : Mem) (dst src size : ℕ) :
    (∀ i < size, (memmove m dst src size).1 (dst + i) = m (src + i)) ∧
      (∀ a, a < dst ∨ dst + size ≤ a → (memmove m dst src size).1 a = m a) ∧ (memmove m dst src size).2 = dst := by
  rw [memmove_eq]
  exact ⟨fun i hi => moved_inside (Nat.zero_le i) hi, fun a ha => moved_outside (by omega), rfl⟩

end BulbOS.Libc
