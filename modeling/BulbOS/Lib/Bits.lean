import BulbOS.Lib.Bytes
import Mathlib.Data.Nat.Bitwise
import Mathlib.Logic.Function.Basic
import Mathlib.Tactic.IntervalCases

/-!
# Bitmaps in a byte memory

Bit `i` of a bitmap is bit `i % 8` of byte `i / 8`.

* `getBit`, `setBit`, `clearBit`, and what one of them leaves of the others;
* `load32_eq_max_iff`: a word is all ones exactly when its 32 bits are set;
* `pack_inj`: two 32-bit values in one 64-bit word.
-/

namespace KLib

def getBit (m : Mem) (i : ℕ) : Bool := (m (i / 8)).toNat.testBit (i % 8)

def setBit (m : Mem) (i : ℕ) : Mem :=
  Function.update m (i / 8) (m (i / 8) ||| 1 <<< UInt8.ofNat (i % 8))

def clearBit (m : Mem) (i : ℕ) : Mem :=
  Function.update m (i / 8) (m (i / 8) &&& ~~~(1 <<< UInt8.ofNat (i % 8)))

theorem testBit_one_shiftLeft {i j : ℕ} (hi : i < 8) (hj : j < 8) :
    ((1 : UInt8) <<< UInt8.ofNat i).toBitVec.getLsbD j = decide (i = j) := by
  interval_cases i <;> interval_cases j <;> decide

theorem testBit_or_bit (x : UInt8) {i j : ℕ} (hi : i < 8) (hj : j < 8) :
    (x ||| 1 <<< UInt8.ofNat i).toNat.testBit j = (decide (i = j) || x.toNat.testBit j) := by
  change (x ||| 1 <<< UInt8.ofNat i).toBitVec.getLsbD j = (decide (i = j) || x.toBitVec.getLsbD j)
  rw [UInt8.toBitVec_or, BitVec.getLsbD_or, testBit_one_shiftLeft hi hj, Bool.or_comm]

theorem testBit_and_not_bit (x : UInt8) {i j : ℕ} (hi : i < 8) (hj : j < 8) :
    (x &&& ~~~(1 <<< UInt8.ofNat i)).toNat.testBit j = (!decide (i = j) && x.toNat.testBit j) := by
  change (x &&& ~~~(1 <<< UInt8.ofNat i)).toBitVec.getLsbD j =
    (!decide (i = j) && x.toBitVec.getLsbD j)
  rw [UInt8.toBitVec_and, UInt8.toBitVec_not, BitVec.getLsbD_and, BitVec.getLsbD_not,
    testBit_one_shiftLeft hi hj, decide_eq_true hj, Bool.true_and, Bool.and_comm]

@[simp] theorem getBit_setBit (m : Mem) (i j : ℕ) :
    getBit (setBit m i) j = (decide (i = j) || getBit m j) := by
  unfold getBit setBit
  by_cases hb : j / 8 = i / 8
  · rw [hb, Function.update_self, testBit_or_bit _ (Nat.mod_lt _ (by decide)) (Nat.mod_lt _ (by decide))]
    congr 1
    rw [decide_eq_decide]
    omega
  · rw [Function.update_of_ne hb, decide_eq_false (by omega), Bool.false_or]

@[simp] theorem getBit_clearBit (m : Mem) (i j : ℕ) :
    getBit (clearBit m i) j = (!decide (i = j) && getBit m j) := by
  unfold getBit clearBit
  by_cases hb : j / 8 = i / 8
  · rw [hb, Function.update_self,
      testBit_and_not_bit _ (Nat.mod_lt _ (by decide)) (Nat.mod_lt _ (by decide))]
    congr 2
    rw [decide_eq_decide]
    omega
  · rw [Function.update_of_ne hb, decide_eq_false (by omega), Bool.not_false, Bool.true_and]

theorem byte_eq_max_iff (x : UInt8) : x.toNat = 255 ↔ ∀ j < 8, x.toNat.testBit j = true := by
  constructor
  · intro h j hj
    rw [h]
    interval_cases j <;> decide
  · intro h
    refine Nat.eq_of_testBit_eq fun j => ?_
    by_cases hj : j < 8
    · rw [h j hj]
      interval_cases j <;> decide
    · rw [Nat.testBit_lt_two_pow, Nat.testBit_lt_two_pow]
      · exact lt_of_lt_of_le (by decide) (Nat.pow_le_pow_right (by decide) (by omega : 8 ≤ j))
      · exact x.toNat_lt.trans_le (Nat.pow_le_pow_right (by decide) (by omega : 8 ≤ j))

theorem load32_eq_max_iff (m : Mem) (a : ℕ) :
    load32 m a = 2 ^ 32 - 1 ↔ ∀ j < 32, getBit m (8 * a + j) = true := by
  have hbytes : load32 m a = 2 ^ 32 - 1 ↔ ∀ b < 4, (m (a + b)).toNat = 255 := by
    have h₀ := (m a).toNat_lt
    have h₁ := (m (a + 1)).toNat_lt
    have h₂ := (m (a + 2)).toNat_lt
    have h₃ := (m (a + 3)).toNat_lt
    unfold load32
    constructor
    · intro h b hb
      interval_cases b
      · rw [Nat.add_zero]
        omega
      all_goals omega
    · intro h
      have := h 0 (by omega)
      have := h 1 (by omega)
      have := h 2 (by omega)
      have := h 3 (by omega)
      simp only [Nat.add_zero] at *
      omega
  rw [hbytes]
  constructor
  · intro h j hj
    have := (byte_eq_max_iff _).mp (h (j / 8) (by omega)) (j % 8) (by omega)
    rwa [getBit, show (8 * a + j) / 8 = a + j / 8 by omega, show (8 * a + j) % 8 = j % 8 by omega]
  · intro h b hb
    refine (byte_eq_max_iff _).mpr fun j hj => ?_
    have := h (8 * b + j) (by omega)
    rwa [getBit, show (8 * a + (8 * b + j)) / 8 = a + b by omega,
      show (8 * a + (8 * b + j)) % 8 = j by omega] at this

theorem pack_toNat {a b : ℕ} (ha : a < 2 ^ 32) (hb : b < 2 ^ 32) :
    (UInt64.ofNat a <<< 32 ||| UInt64.ofNat b).toNat = a * 2 ^ 32 + b := by
  rw [UInt64.toNat_or, UInt64.toNat_shiftLeft, UInt64.toNat_ofNat', UInt64.toNat_ofNat']
  change (a % 2 ^ 64) <<< 32 % 2 ^ 64 ||| b % 2 ^ 64 = _
  rw [Nat.mod_eq_of_lt (show a < 2 ^ 64 by omega), Nat.mod_eq_of_lt (show b < 2 ^ 64 by omega),
    Nat.shiftLeft_eq, Nat.mod_eq_of_lt (show a * 2 ^ 32 < 2 ^ 64 by omega), ← Nat.shiftLeft_eq,
    ← Nat.shiftLeft_add_eq_or_of_lt hb, Nat.shiftLeft_eq]

theorem pack_inj {a b a' b' : ℕ} (ha : a < 2 ^ 32) (hb : b < 2 ^ 32) (ha' : a' < 2 ^ 32) (hb' : b' < 2 ^ 32)
    (h : UInt64.ofNat a <<< 32 ||| UInt64.ofNat b = UInt64.ofNat a' <<< 32 ||| UInt64.ofNat b') :
    a = a' ∧ b = b' := by
  have he := congrArg UInt64.toNat h
  rw [pack_toNat ha hb, pack_toNat ha' hb'] at he
  omega

end KLib
