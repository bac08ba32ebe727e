import BulbOS.Lib.Strings
import Mathlib.Data.Int.Notation

/-!
# `strlen`, `memcmp` and `strcmp` (`libc-src/string/strlen.c`, `libc-src/string/memcmp.c`)

Each argument is an address in a memory of its own.

* `strlen`: `none` when no byte of the memory is NUL; `strlen_eq`: the length of a string;
* `order`: the result for two lists of bytes, in lexicographic order; **`memcmp_order`**: regions of one size;
* **`strcmp_eq`**: two strings of one length are compared, others are not.
-/

namespace BulbOS.Libc

open KLib

variable {m m' : Mem} {a b size : ℕ} {s t : List UInt8}

/-! ## The loops -/

/-- `while (str[len])`. -/
def strlenLoop (m : Mem) (str : ℕ) : ℕ → ℕ → Option ℕ
  | 0, _ => none
  | fuel + 1, len => if m (str + len) = 0 then some len else strlenLoop m str fuel (len + 1)

def strlen (m : Mem) (str : ℕ) : Option ℕ := strlenLoop m str (2 ^ 32) 0

/-- The loop from `i` on, with `n` bytes to go. -/
def memcmpLoop (m : Mem) (a : ℕ) (m' : Mem) (b : ℕ) : ℕ → ℕ → ℤ
  | 0, _ => 0
  | n + 1, i =>
    if m (a + i) < m' (b + i) then -1
    else if m' (b + i) < m (a + i) then 1
    else memcmpLoop m a m' b n (i + 1)

def memcmp (m : Mem) (a : ℕ) (m' : Mem) (b size : ℕ) : ℤ := memcmpLoop m a m' b size 0

/-- `for (i = 0; a[i]; i++)`. -/
def strcmpLoop (m : Mem) (a : ℕ) (m' : Mem) (b : ℕ) : ℕ → ℕ → Option ℤ
  | 0, _ => none
  | fuel + 1, i =>
    if m (a + i) = 0 then some 0
    else if m (a + i) < m' (b + i) then some (-1)
    else if m' (b + i) < m (a + i) then some 1
    else strcmpLoop m a m' b fuel (i + 1)

def strcmp (m : Mem) (a : ℕ) (m' : Mem) (b : ℕ) : Option ℤ := do
  if (← strlen m a) ≠ (← strlen m' b) then return 1
  strcmpLoop m a m' b (2 ^ 32) 0

/-! ## Strings -/

theorem strlenLoop_eq {fuel len : ℕ} (h : StringAt m (a + len) s) (hf : s.length < fuel) :
    strlenLoop m a fuel len = some (len + s.length) := by
  induction s generalizing fuel len with
  | nil =>
    obtain ⟨fuel, rfl⟩ := Nat.exists_eq_add_one_of_ne_zero (Nat.ne_of_gt hf)
    exact if_pos h.nul
  | cons c s ih =>
    obtain ⟨fuel, rfl⟩ := Nat.exists_eq_add_one_of_ne_zero (Nat.ne_of_gt (Nat.zero_lt_of_lt hf))
    rw [List.length_cons] at hf
    rw [strlenLoop, if_neg (by rw [h.head.1]; exact h.head.2), ih h.tail (by omega), List.length_cons]
    congr 1
    omega

/-- **`strlen`** of a string. -/
theorem strlen_eq (h : StringAt m a s) (hlen : s.length < 2 ^ 32) : strlen m a = some s.length := by
  rw [strlen, strlenLoop_eq h hlen, Nat.zero_add]

/-! ## Comparisons -/

/-- The result for two lists of bytes. -/
def order (s t : List UInt8) : ℤ := if s < t then -1 else if t < s then 1 else 0

theorem order_self (s : List UInt8) : order s s = 0 := by
  rw [order, if_neg (List.lt_irrefl s), if_neg (List.lt_irrefl s)]

theorem order_cons (c d : UInt8) (s t : List UInt8) :
    order (c :: s) (d :: t) = if c < d then -1 else if d < c then 1 else order s t := by
  unfold order
  simp only [List.cons_lt_cons_iff]
  by_cases hlt : c < d
  · simp [hlt]
  by_cases hgt : d < c
  · simp [hlt, hgt, UInt8.ne_of_lt hgt |>.symm]
  · have he : c = d := UInt8.le_antisymm (UInt8.not_lt.mp hgt) (UInt8.not_lt.mp hlt)
    simp [he]

theorem order_eq_zero_iff : order s t = 0 ↔ s = t := by
  induction s generalizing t with
  | nil => cases t <;> simp [order]
  | cons c s ih =>
    cases t with
    | nil => simp [order]
    | cons d t =>
      rw [order_cons, List.cons.injEq, ← ih]
      by_cases hlt : c < d
      · simp [hlt, UInt8.ne_of_lt hlt]
      by_cases hgt : d < c
      · simp [hlt, hgt, UInt8.ne_of_lt hgt |>.symm]
      · have he : c = d := UInt8.le_antisymm (UInt8.not_lt.mp hgt) (UInt8.not_lt.mp hlt)
        simp [he]

theorem memcmpLoop_eq (n i : ℕ) : memcmpLoop m a m' b n i = order (bytesFrom m (a + i) n) (bytesFrom m' (b + i) n) := by
  induction n generalizing i with
  | zero => exact (order_self []).symm
  | succ n ih => rw [memcmpLoop, bytesFrom_succ, bytesFrom_succ, order_cons, ih, Nat.add_assoc, Nat.add_assoc]

/-- **`memcmp`** is the lexicographic order. -/
theorem memcmp_order (m : Mem) (a : ℕ) (m' : Mem) (b size : ℕ) :
    memcmp m a m' b size = order (bytesFrom m a size) (bytesFrom m' b size) :=
  memcmpLoop_eq size 0

theorem strcmpLoop_eq {fuel i : ℕ} (hs : StringAt m (a + i) s) (ht : StringAt m' (b + i) t)
    (hlen : s.length = t.length) (hf : s.length < fuel) : strcmpLoop m a m' b fuel i = some (order s t) := by
  induction s generalizing fuel i t with
  | nil =>
    obtain ⟨fuel, rfl⟩ := Nat.exists_eq_add_one_of_ne_zero (Nat.ne_of_gt hf)
    rw [List.eq_nil_of_length_eq_zero hlen.symm, order_self]
    exact if_pos hs.nul
  | cons c s ih =>
    obtain ⟨fuel, rfl⟩ := Nat.exists_eq_add_one_of_ne_zero (Nat.ne_of_gt (Nat.zero_lt_of_lt hf))
    obtain ⟨d, t, rfl⟩ := List.exists_cons_of_length_pos (l := t) (by rw [← hlen, List.length_cons]; omega)
    rw [List.length_cons] at hf
    have hrest : strcmpLoop m a m' b fuel (i + 1) = some (order s t) :=
      ih hs.tail ht.tail (Nat.succ.inj hlen) (by omega)
    rw [strcmpLoop, hs.head.1, ht.head.1, if_neg hs.head.2, hrest, order_cons]
    split_ifs <;> rfl

/-- **`strcmp`** compares strings of one length; of others it says `1`, whatever their order. -/
theorem strcmp_eq (hs : StringAt m a s) (ht : StringAt m' b t) (hslen : s.length < 2 ^ 32) (htlen : t.length < 2 ^ 32) :
    strcmp m a m' b = some (if s.length = t.length then order s t else 1) := by
  unfold strcmp
  rw [strlen_eq hs hslen, strlen_eq ht htlen]
  dsimp only [Option.bind_eq_bind, Option.bind_some]
  by_cases hlen : s.length = t.length
  · rw [if_neg (not_not.mpr hlen), if_pos hlen]
    exact strcmpLoop_eq hs ht hlen hslen
  · rw [if_pos hlen, if_neg hlen]
    rfl

theorem strcmp_eq_lengths :
    strcmp (storeBytes (fun _ => 0) 8 [97, 98, 0]) 8 (storeBytes (fun _ => 0) 8 [98, 0]) 8 = some 1 ∧
      strcmp (storeBytes (fun _ => 0) 8 [97, 98, 0]) 8 (storeBytes (fun _ => 0) 8 [97, 99, 0]) 8 = some (-1) :=
  ⟨strcmp_eq (stringAt_storeBytes (s := [97, 98]) (by decide)) (stringAt_storeBytes (s := [98]) (by decide))
      (by decide) (by decide),
    strcmp_eq (stringAt_storeBytes (s := [97, 98]) (by decide)) (stringAt_storeBytes (s := [97, 99]) (by decide))
      (by decide) (by decide)⟩

end BulbOS.Libc
