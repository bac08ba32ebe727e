import Mathlib.Data.Nat.Digits.Lemmas

/-!
# Numerals in a base up to 36

The digits are the characters `0` to `9` and `a` to `z`.

* `readNumeral`: the value of a string in a base, if all of its characters are digits of the base;
* `numeral`: the string of a value; **`readNumeral_numeral`**: it reads back; `numeral_head`: it has no leading zero.
-/

namespace KLib

variable {base n d : ℕ} {s : List UInt8} {ds : List ℕ}

/-- The character of a digit. -/
def digitByte (d : ℕ) : UInt8 := if d < 10 then UInt8.ofNat (48 + d) else UInt8.ofNat (87 + d)

/-- The digit of a character. -/
def digitOf (c : UInt8) : Option ℕ :=
  if 48 ≤ c.toNat ∧ c.toNat ≤ 57 then some (c.toNat - 48)
  else if 97 ≤ c.toNat ∧ c.toNat ≤ 122 then some (c.toNat - 87)
  else none

/-- One more character of a string with the value `n`. -/
def readDigit (base n : ℕ) (c : UInt8) : Option ℕ :=
  (digitOf c).bind fun d => if d < base then some (base * n + d) else none

def readNumeral (base : ℕ) (s : List UInt8) : Option ℕ := s.foldlM (readDigit base) 0

def numeral (base n : ℕ) : List UInt8 := if n = 0 then [48] else (Nat.digits base n).reverse.map digitByte

theorem digitByte_toNat (h : d < 36) : (digitByte d).toNat = if d < 10 then 48 + d else 87 + d := by
  unfold digitByte
  split_ifs
  · exact UInt8.toNat_ofNat_of_lt' (show 48 + d < 256 by omega)
  · exact UInt8.toNat_ofNat_of_lt' (show 87 + d < 256 by omega)

theorem digitOf_digitByte (h : d < 36) : digitOf (digitByte d) = some d := by
  rw [digitOf, digitByte_toNat h]
  by_cases h10 : d < 10
  · rw [if_pos h10, if_pos (by omega), Nat.add_sub_cancel_left]
  · rw [if_neg h10, if_neg (by omega), if_pos (by omega), Nat.add_sub_cancel_left]

theorem digitByte_ne_zero (h : d < 36) : digitByte d ≠ 0 := by
  intro h0
  have hn := digitByte_toNat h
  rw [h0] at hn
  change 0 = _ at hn
  split_ifs at hn <;> omega

theorem digitByte_eq_zeroChar (h : d < 36) (hd : digitByte d = 48) : d = 0 := by
  have hn := digitByte_toNat h
  rw [hd] at hn
  change 48 = _ at hn
  split_ifs at hn <;> omega

theorem readNumeral_concat (c : UInt8) : readNumeral base (s ++ [c]) = (readNumeral base s).bind
    fun n => readDigit base n c := by
  rw [readNumeral, List.foldlM_append]
  simp only [List.foldlM_cons, List.foldlM_nil, bind_pure]
  rfl

/-- Digits, the least significant one first, are read as their value. -/
theorem readNumeral_digits (hbase : base ≤ 36) (h : ∀ d ∈ ds, d < base) :
    readNumeral base (ds.reverse.map digitByte) = some (Nat.ofDigits base ds) := by
  induction ds with
  | nil => rfl
  | cons d ds ih =>
    have hd := h d List.mem_cons_self
    rw [List.reverse_cons, List.map_append, List.map_singleton, readNumeral_concat,
      ih fun d hd => h d (List.mem_cons_of_mem _ hd), Option.bind_some, readDigit, digitOf_digitByte (by omega),
      Option.bind_some, if_pos hd, Nat.ofDigits_cons, Nat.add_comm]

/-- **A numeral reads back.** -/
theorem readNumeral_numeral (h2 : 2 ≤ base) (h36 : base ≤ 36) (n : ℕ) : readNumeral base (numeral base n) = some n := by
  unfold numeral
  split_ifs with h0
  · rw [h0]
    exact readNumeral_digits h36 (show ∀ d ∈ [0], d < base by simp; omega)
  · rw [readNumeral_digits h36 fun d hd => Nat.digits_lt_base (by omega) hd, Nat.ofDigits_digits]

theorem zero_notMem_numeral (h2 : 2 ≤ base) (h36 : base ≤ 36) (n : ℕ) : 0 ∉ numeral base n := by
  unfold numeral
  split_ifs with h0
  · decide
  · intro hmem
    obtain ⟨d, hd, he⟩ := List.mem_map.mp hmem
    have hlt := Nat.digits_lt_base (by omega) (List.mem_reverse.mp hd)
    exact digitByte_ne_zero (by omega) he

/-- **No leading zero**, but for the value 0. -/
theorem numeral_head (h2 : 2 ≤ base) (h36 : base ≤ 36) (hn : n ≠ 0) : (numeral base n).head? ≠ some 48 := by
  rw [numeral, if_neg hn, List.head?_map, List.head?_reverse]
  intro h
  obtain ⟨d, hd, he⟩ := Option.map_eq_some_iff.mp h
  have hlt := Nat.digits_lt_base (by omega) (List.mem_of_getLast? hd)
  rw [List.getLast?_eq_getLast_of_ne_nil (Nat.digits_ne_nil_iff_ne_zero.mpr hn), Option.some.injEq] at hd
  exact Nat.getLast_digit_ne_zero base hn (hd.trans (digitByte_eq_zeroChar (by omega) he))

theorem length_numeral_pos (base n : ℕ) : 0 < (numeral base n).length := by
  unfold numeral
  split_ifs with h0
  · exact Nat.one_pos
  · rw [List.length_map, List.length_reverse]
    exact List.length_pos_iff.mpr (Nat.digits_ne_nil_iff_ne_zero.mpr h0)

end KLib
