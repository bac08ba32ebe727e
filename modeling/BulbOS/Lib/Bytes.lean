import Mathlib.Data.Nat.ModEq

/-!
# Byte memories with 32-bit little-endian words

* `Mem`, `load32`, `store32`, `load16`, `store16`;
* `load32_store32`: a word just stored is read back; `load32_store32_of_disjoint` and
  `store32_of_outside`: a store changes only its own four bytes; the same for half words;
* `load32_shift`, `load32_congr`: a load reads only four bytes.
-/

namespace KLib

/-- A byte-addressed memory. -/
abbrev Mem := ℕ → UInt8

/-- Truncation to an unsigned 32-bit value. -/
def u32 (n : ℕ) : ℕ := n % 2 ^ 32

/-- Subtraction of unsigned 32-bit values. -/
def sub32 (a b : ℕ) : ℕ := (a + (2 ^ 32 - b)) % 2 ^ 32

/-- The word at address `a`. -/
def load32 (m : Mem) (a : ℕ) : ℕ :=
  (m a).toNat + 2 ^ 8 * (m (a + 1)).toNat + 2 ^ 16 * (m (a + 2)).toNat + 2 ^ 24 * (m (a + 3)).toNat

/-- Store the low 32 bits of `v` at address `a`. -/
def store32 (m : Mem) (a v : ℕ) : Mem := fun x =>
  if a ≤ x ∧ x < a + 4 then UInt8.ofNat (v / 2 ^ (8 * (x - a))) else m x

/-- The half word at address `a`. -/
def load16 (m : Mem) (a : ℕ) : ℕ := (m a).toNat + 2 ^ 8 * (m (a + 1)).toNat

/-- Store the low 16 bits of `v` at address `a`. -/
def store16 (m : Mem) (a v : ℕ) : Mem := fun x =>
  if a ≤ x ∧ x < a + 2 then UInt8.ofNat (v / 2 ^ (8 * (x - a))) else m x

theorem u32_of_lt {n : ℕ} (h : n < 2 ^ 32) : u32 n = n := Nat.mod_eq_of_lt h

theorem u32_lt (n : ℕ) : u32 n < 2 ^ 32 := Nat.mod_lt _ (Nat.two_pow_pos 32)

theorem u32_add_left (a b : ℕ) : u32 (u32 a + b) = u32 (a + b) := Nat.mod_add_mod a (2 ^ 32) b

theorem u32_add_inj {x a b : ℕ} (ha : a < 2 ^ 32) (hb : b < 2 ^ 32) (h : u32 (x + a) = u32 (x + b)) : a = b := by
  have hmod : a ≡ b [MOD 2 ^ 32] := Nat.ModEq.add_left_cancel' x h
  rwa [Nat.ModEq, Nat.mod_eq_of_lt ha, Nat.mod_eq_of_lt hb] at hmod

theorem sub32_of_le {a b : ℕ} (h : b ≤ a) (ha : a < 2 ^ 32) : sub32 a b = a - b := by
  unfold sub32
  rw [show a + (2 ^ 32 - b) = a - b + 2 ^ 32 by omega, Nat.add_mod_right]
  exact Nat.mod_eq_of_lt (by omega)

theorem load32_lt (m : Mem) (a : ℕ) : load32 m a < 2 ^ 32 := by
  have h₀ := (m a).toNat_lt
  have h₁ := (m (a + 1)).toNat_lt
  have h₂ := (m (a + 2)).toNat_lt
  have h₃ := (m (a + 3)).toNat_lt
  unfold load32
  omega

theorem load32_shift {m m' : Mem} {a b : ℕ} (h : ∀ i < 4, m (a + i) = m' (b + i)) : load32 m a = load32 m' b := by
  have h₀ : m a = m' b := h 0 (by decide)
  unfold load32
  rw [h₀, h 1 (by decide), h 2 (by decide), h 3 (by decide)]

theorem load32_congr {m m' : Mem} {a : ℕ} (h : ∀ x, a ≤ x → x < a + 4 → m x = m' x) :
    load32 m a = load32 m' a :=
  load32_shift fun _ hi => h _ (Nat.le_add_right _ _) (Nat.add_lt_add_left hi _)

theorem store32_of_outside (m : Mem) {a x : ℕ} (v : ℕ) (h : x < a ∨ a + 4 ≤ x) :
    store32 m a v x = m x := by
  unfold store32
  rw [if_neg (by omega)]

theorem store32_inside (m : Mem) {a i : ℕ} (v : ℕ) (hi : i < 4) :
    store32 m a v (a + i) = UInt8.ofNat (v / 2 ^ (8 * i)) := by
  unfold store32
  rw [if_pos ⟨by omega, by omega⟩, Nat.add_sub_cancel_left]

@[simp] theorem load32_store32 (m : Mem) (a v : ℕ) : load32 (store32 m a v) a = u32 v := by
  have h₀ : store32 m a v a = UInt8.ofNat (v / 2 ^ (8 * 0)) := store32_inside m v (show 0 < 4 by decide)
  unfold load32 u32
  rw [h₀, store32_inside m v (show 1 < 4 by decide), store32_inside m v (show 2 < 4 by decide),
    store32_inside m v (show 3 < 4 by decide), UInt8.toNat_ofNat', UInt8.toNat_ofNat', UInt8.toNat_ofNat',
      UInt8.toNat_ofNat']
  omega

theorem load32_store32_of_disjoint (m : Mem) {a b : ℕ} (v : ℕ) (h : b + 4 ≤ a ∨ a + 4 ≤ b) :
    load32 (store32 m a v) b = load32 m b :=
  load32_congr fun x _ _ => store32_of_outside m v (by omega)

/-- A word stored `r` bytes before another one sets its lower `4 - r` bytes. -/
theorem load32_store32_before (m : Mem) {a r v : ℕ} (hr : r < 4) (hra : r ≤ a) (hv : v < 2 ^ 32) :
    load32 (store32 m (a - r) v) a =
      v / 2 ^ (8 * r) + load32 m a / 2 ^ (8 * (4 - r)) * 2 ^ (8 * (4 - r)) := by
  have h₀ := (m a).toNat_lt
  have h₁ := (m (a + 1)).toNat_lt
  have h₂ := (m (a + 2)).toNat_lt
  have h₃ := (m (a + 3)).toNat_lt
  have hbyte : ∀ i < 4, (store32 m (a - r) v (a + i)).toNat =
      if r + i < 4 then v / 2 ^ (8 * (r + i)) % 256 else (m (a + i)).toNat := by
    intro i hi
    by_cases hin : r + i < 4
    · rw [if_pos hin, show a + i = a - r + (r + i) by omega, store32_inside m v hin, UInt8.toNat_ofNat']
    · rw [if_neg hin, store32_of_outside m v (by omega)]
  have hb₀ := hbyte 0 (by decide)
  rw [Nat.add_zero] at hb₀
  unfold load32
  rw [hb₀, hbyte 1 (by decide), hbyte 2 (by decide), hbyte 3 (by decide)]
  obtain rfl | rfl | rfl | rfl : r = 0 ∨ r = 1 ∨ r = 2 ∨ r = 3 := by omega
  all_goals
    simp only [Nat.reduceAdd, Nat.reduceLT, Nat.reduceMul, Nat.reduceSub, Nat.reducePow, ↓reduceIte]
    omega

theorem load16_congr {m m' : Mem} {a : ℕ} (h : ∀ x, a ≤ x → x < a + 2 → m x = m' x) :
    load16 m a = load16 m' a := by
  unfold load16
  rw [h a (by omega) (by omega), h (a + 1) (by omega) (by omega)]

theorem store16_of_outside (m : Mem) {a x : ℕ} (v : ℕ) (h : x < a ∨ a + 2 ≤ x) :
    store16 m a v x = m x := by
  unfold store16
  rw [if_neg (by omega)]

@[simp] theorem load16_store16 (m : Mem) (a v : ℕ) : load16 (store16 m a v) a = v % 2 ^ 16 := by
  have h₀ : store16 m a v a = UInt8.ofNat v := by
    unfold store16
    rw [if_pos ⟨by omega, by omega⟩, Nat.sub_self, Nat.mul_zero, Nat.pow_zero, Nat.div_one]
  have h₁ : store16 m a v (a + 1) = UInt8.ofNat (v / 2 ^ 8) := by
    unfold store16
    rw [if_pos ⟨by omega, by omega⟩, Nat.add_sub_cancel_left]
  unfold load16
  rw [h₀, h₁, UInt8.toNat_ofNat', UInt8.toNat_ofNat']
  omega

theorem load16_store32_of_disjoint (m : Mem) {a b : ℕ} (v : ℕ) (h : b + 2 ≤ a ∨ a + 4 ≤ b) :
    load16 (store32 m a v) b = load16 m b :=
  load16_congr fun x _ _ => store32_of_outside m v (by omega)

theorem load32_store16_of_disjoint (m : Mem) {a b : ℕ} (v : ℕ) (h : b + 4 ≤ a ∨ a + 2 ≤ b) :
    load32 (store16 m a v) b = load32 m b :=
  load32_congr fun x _ _ => store16_of_outside m v (by omega)

theorem load16_store16_of_disjoint (m : Mem) {a b : ℕ} (v : ℕ) (h : b + 2 ≤ a ∨ a + 2 ≤ b) :
    load16 (store16 m a v) b = load16 m b :=
  load16_congr fun x _ _ => store16_of_outside m v (by omega)

end KLib
