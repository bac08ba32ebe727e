import BulbOS.Lib.Numeral
import BulbOS.Lib.Strings

/-!
# Numbers as strings (`libc-src/string/itoa.c`)

Both functions count the digits in one loop and store them in a second one, from the last to the first. An `int` wraps
around at 32 bits; `none` is a call that does not return, because it divides by zero or its loop does not end.

* `countDigits`, `fillDigits`: the two loops; `Yields`: the characters that a value gives one after the other;
* `Divides`: a value that stands for a number, and is divided by the base; `Divides.yields`: its characters are digits;
* **`uitoa_decodes`**: every value and every base from 2 to 36;
* **`itoa_decodes_iff`**: every value but the most negative one.
-/

namespace BulbOS.Libc

open KLib

/-- The character of `int digit`. -/
def digitChar (digit : Int32) : UInt8 :=
  if digit > 9 then (digit - 10 + 97).toUInt32.toUInt8 else (digit + 48).toUInt32.toUInt8

section Loops

variable {α : Type} [DecidableEq α] [OfNat α 0]

/-- `while (tmp != 0) { ++len; tmp /= base; }`. -/
def countDigits (next : α → α) : ℕ → α → ℕ → Option ℕ
  | 0, _, _ => none
  | fuel + 1, tmp, len => if tmp = 0 then some len else countDigits next fuel (next tmp) (len + 1)

/-- `while (value != 0) { str[index--] = …; value /= base; }`. -/
def fillDigits (char : α → UInt8) (next : α → α) (str : ℕ) : ℕ → α → ℤ → Mem → Option Mem
  | 0, _, _, _ => none
  | fuel + 1, value, index, m =>
    if value = 0 then some m
    else fillDigits char next str fuel (next value) (index - 1) (Function.update m (str + index).toNat (char value))

end Loops

/-- `tmp` is an `int` and `base` unsigned, so `tmp /= base` is an unsigned division. -/
def uitoa (m : Mem) (str : ℕ) (value base : UInt32) : Option (Mem × ℕ) := do
  if value = 0 then return (Function.update (Function.update m str 48) (str + 1) 0, 1)
  else if base = 0 then none
  else
    let len ← countDigits (fun tmp => (tmp.toUInt32 / base).toInt32) 33 value.toInt32 0
    let m ← fillDigits (fun value => digitChar (value % base).toInt32) (· / base) str 33 value (len - 1) m
    return (Function.update m (str + len) 0, len)

/-- `value - (value * 2)` is computed with 32 bits. -/
def itoa (m : Mem) (str : ℕ) (value base : Int32) : Option (Mem × ℕ) := do
  if value = 0 then return (Function.update (Function.update m str 48) (str + 1) 0, 1)
  else if base = 0 then none
  else
    let (m, len, value) :=
      if value < 0 then (Function.update m str 45, 1, value - value * 2) else (m, 0, value)
    let (m, len) :=
      if base = 16 then (Function.update (Function.update m (str + len) 48) (str + len + 1) 120, len + 2)
      else (m, len)
    let len ← countDigits (· / base) 33 value len
    let m ← fillDigits (fun value => digitChar (value % base)) (· / base) str 33 value (len - 1) m
    return (Function.update m (str + len) 0, len)

/-! ## The loops -/

section Loops

variable {α : Type} [DecidableEq α] [OfNat α 0] {char : α → UInt8} {next : α → α} {value : α} {s : List UInt8}
  {fuel : ℕ}

/-- `value` gives the characters of `s`, the last one first, and is zero then. -/
def Yields (char : α → UInt8) (next : α → α) : α → List UInt8 → Prop
  | value, [] => value = 0
  | value, c :: s => value ≠ 0 ∧ char value = c ∧ Yields char next (next value) s

theorem countDigits_eq (len : ℕ) (h : Yields char next value s) (hfuel : s.length < fuel) :
    countDigits next fuel value len = some (len + s.length) := by
  induction s generalizing value fuel len with
  | nil =>
    obtain ⟨fuel, rfl⟩ := Nat.exists_eq_succ_of_ne_zero (by omega : fuel ≠ 0)
    exact if_pos h
  | cons c s ih =>
    obtain ⟨fuel, rfl⟩ := Nat.exists_eq_succ_of_ne_zero (by omega : fuel ≠ 0)
    obtain ⟨hne, -, hnext⟩ := h
    rw [List.length_cons] at hfuel ⊢
    rw [countDigits, if_neg hne, ih _ hnext (by omega), Nat.add_assoc, Nat.add_comm 1]

theorem fillDigits_eq (m : Mem) (str off : ℕ) (h : Yields char next value s) (hfuel : s.length < fuel) :
    fillDigits char next str fuel value ((off + s.length : ℕ) - 1) m = some (storeBytes m (str + off) s.reverse) := by
  induction s generalizing value fuel m with
  | nil =>
    obtain ⟨fuel, rfl⟩ := Nat.exists_eq_succ_of_ne_zero (by omega : fuel ≠ 0)
    rw [List.reverse_nil, storeBytes_nil]
    exact if_pos h
  | cons c s ih =>
    obtain ⟨fuel, rfl⟩ := Nat.exists_eq_succ_of_ne_zero (by omega : fuel ≠ 0)
    obtain ⟨hne, rfl, hnext⟩ := h
    rw [List.length_cons] at hfuel ⊢
    have hplace : ((str : ℤ) + ((off + (s.length + 1) : ℕ) - 1)).toNat = str + off + s.reverse.length := by
      rw [List.length_reverse]
      omega
    have hindex : ((off + (s.length + 1) : ℕ) : ℤ) - 1 - 1 = (off + s.length : ℕ) - 1 := by omega
    rw [fillDigits, if_neg hne, hindex, ih _ hnext (by omega), hplace, storeBytes_concat, List.reverse_cons]

theorem fillDigits_nul (m : Mem) (str off : ℕ) (h : Yields char next value s) (hfuel : s.length < fuel) :
    ((fillDigits char next str fuel value ((off + s.length : ℕ) - 1) m).bind fun m =>
        some (Function.update m (str + (off + s.length)) 0, off + s.length)) =
      some (storeBytes m (str + off) (s.reverse ++ [0]), off + s.length) := by
  rw [fillDigits_eq m str off h hfuel, Option.bind_some, ← Nat.add_assoc, show s.length = s.reverse.length
    from List.length_reverse.symm,
    update_storeBytes]

/-- `value` stands for the number `n`, and so do the values that it is divided into. -/
structure Divides (base : ℕ) (next : α → α) (R : α → ℕ → Prop) : Prop where
  zero : ∀ x n, R x n → (x = 0 ↔ n = 0)
  next : ∀ x n, R x n → R (next x) (n / base)

omit [DecidableEq α] in
/-- **The digits** of a number, the last one first. -/
theorem Divides.yields {base n : ℕ} {R : α → ℕ → Prop} (hbase : 1 < base) (hd : Divides base next R)
    (hchar : ∀ x n, R x n → char x = digitByte (n % base)) (h : R value n) :
    Yields char next value ((Nat.digits base n).map digitByte) := by
  induction n using Nat.strongRecOn generalizing value with
  | ind n ih =>
    by_cases hn : n = 0
    · rw [hn, Nat.digits_zero]
      exact (hd.zero _ _ h).mpr hn
    · rw [Nat.digits_def' hbase (Nat.pos_of_ne_zero hn)]
      exact ⟨fun e => hn ((hd.zero _ _ h).mp e), hchar _ _ h,
        ih _ (Nat.div_lt_self (Nat.pos_of_ne_zero hn) hbase) (hd.next _ _ h)⟩

end Loops

theorem digitChar_eq : ∀ d < 36, digitChar (Int32.ofNat d) = digitByte d := by decide

theorem length_digits_lt {base n : ℕ} (hbase : 1 < base) (hn : n < 2 ^ 32) : (Nat.digits base n).length < 33 := by
  refine Nat.lt_succ_of_le ((Nat.digits_length_le_iff hbase n).mpr ?_)
  exact hn.trans_le (Nat.pow_le_pow_left hbase 32)

/-! ## Unsigned numbers -/

section Unsigned

variable {base : UInt32}

theorem divides_unsigned : Divides base.toNat (· / base) fun x n => x.toNat = n where
  zero x n h := by rw [← h, ← UInt32.toNat_inj]; rfl
  next x n h := by rw [UInt32.toNat_div, h]

theorem divides_mixed :
    Divides base.toNat (fun tmp : Int32 => (tmp.toUInt32 / base).toInt32) fun x n => x.toUInt32.toNat = n where
  zero x n h := by
    rw [← h]
    constructor
    · rintro rfl
      rfl
    · intro h0
      have hx : x.toUInt32 = 0 := UInt32.toNat_inj.mp h0
      rw [← Int32.toInt32_toUInt32 x, hx]
      rfl
  next x n h := by rw [UInt32.toUInt32_toInt32, UInt32.toNat_div, h]

theorem digitChar_unsigned (h2 : 2 ≤ base.toNat) (h36 : base.toNat ≤ 36) (x : UInt32) (n : ℕ) (h : x.toNat = n) :
    digitChar (x % base).toInt32 = digitByte (n % base.toNat) := by
  have hlt := Nat.mod_lt n (by omega : 0 < base.toNat)
  have hmod : (x % base).toNat = n % base.toNat := by rw [UInt32.toNat_mod, h]
  have hint : (x % base).toInt32 = Int32.ofNat (x % base).toNat := by
    conv_lhs => rw [← UInt32.ofNat_toNat (x := x % base)]
    rfl
  rw [hint, hmod, digitChar_eq _ (by omega)]

/-- **`uitoa`** writes the numeral of the value. -/
theorem uitoa_eq (m : Mem) (str : ℕ) (value : UInt32) (h2 : 2 ≤ base.toNat) (h36 : base.toNat ≤ 36) :
    uitoa m str value base = some (storeBytes m str (numeral base.toNat value.toNat ++ [0]),
      (numeral base.toNat value.toNat).length) := by
  unfold uitoa
  by_cases h0 : value = 0
  · rw [if_pos h0, h0, ← storeBytes_singleton (c := 48)]
    exact congrArg (fun m => some (m, 1)) (update_storeBytes (s := [48]))
  · have hbase : base ≠ 0 := by
      rintro rfl
      exact absurd h2 (by decide)
    have hval : value.toNat ≠ 0 := fun e => h0 (UInt32.toNat_inj.mp e)
    have hlen := length_digits_lt h2 value.toNat_lt
    let s := (Nat.digits base.toNat value.toNat).map digitByte
    have hcount : Yields (fun x : Int32 => digitByte (x.toUInt32.toNat % base.toNat)) _ value.toInt32 s :=
      divides_mixed.yields h2 (fun x n h => by rw [h]) rfl
    have hfill : Yields _ _ value s := divides_unsigned.yields h2 (digitChar_unsigned h2 h36) rfl
    have hlt : s.length < 33 := by rwa [List.length_map]
    have hnum : numeral base.toNat value.toNat = s.reverse := by rw [numeral, if_neg hval, List.map_reverse]
    have hrun := fillDigits_nul m str 0 hfill hlt
    rw [Nat.zero_add, Nat.add_zero] at hrun
    simp only [if_neg h0, if_neg hbase, countDigits_eq 0 hcount hlt, Option.bind_eq_bind, Option.bind_some, hnum,
      List.length_reverse, Nat.zero_add, Option.pure_def]
    exact hrun

/-- The string is a numeral of `n` without a leading zero. -/
structure Renders (base : ℕ) (s : List UInt8) (n : ℕ) : Prop where
  nonempty : s ≠ []
  noZero : s.head? = some 48 → s = [48]
  value : readNumeral base s = some n

theorem renders_numeral {base : ℕ} (h2 : 2 ≤ base) (h36 : base ≤ 36) (n : ℕ) : Renders base (numeral base n) n where
  nonempty := List.length_pos_iff.mp (length_numeral_pos base n)
  noZero h := by
    by_cases hn : n = 0
    · rw [hn]
      rfl
    · exact absurd h (numeral_head h2 h36 hn)
  value := readNumeral_numeral h2 h36 n

/-- **Every value and base**: `uitoa` writes a string whose length it returns and whose digits have the value. -/
theorem uitoa_decodes (m : Mem) (str : ℕ) (value base : UInt32) (h2 : 2 ≤ base.toNat) (h36 : base.toNat ≤ 36) :
    ∃ m' s, uitoa m str value base = some (m', s.length) ∧ StringAt m' str s ∧ Renders base.toNat s value.toNat :=
  ⟨_, _, uitoa_eq m str value h2 h36, stringAt_storeBytes (zero_notMem_numeral h2 h36 _), renders_numeral h2 h36 _⟩

theorem uitoa_decodes_max : ∃ m' s, uitoa (fun _ => 7) 100 0xFFFFFFFF 36 = some (m', s.length) ∧
    StringAt m' 100 s ∧ Renders 36 s 0xFFFFFFFF :=
  uitoa_decodes (fun _ => 7) 100 0xFFFFFFFF 36 (by decide) (by decide)

end Unsigned

/-! ## Signed numbers -/

/-- An optional sign and a decimal numeral. -/
def RendersInt (s : List UInt8) (z : ℤ) : Prop :=
  ∃ ds n, Renders 10 ds n ∧ (s = ds ∧ z = n ∨ s = 45 :: ds ∧ z = -n)

theorem divides_signed : Divides 10 (· / (10 : Int32)) fun x n => x.toInt = n where
  zero x n h := by
    rw [← Int32.toInt_inj, h]
    exact Int.natCast_eq_zero
  next x n h := by
    rw [Int32.toInt_div_of_ne_right _ _ (by decide), h]
    rfl

theorem digitChar_signed (x : Int32) (n : ℕ) (h : x.toInt = n) : digitChar (x % 10) = digitByte (n % 10) := by
  have hlt := Nat.mod_lt n (by decide : 0 < 10)
  rw [← digitChar_eq _ (by omega)]
  congr 1
  rw [← Int32.toInt_inj, Int32.toInt_mod, h, Int32.toInt_ofNat_of_lt (by omega)]
  rfl

theorem toInt_negated {value : Int32} (h : value ≠ Int32.minValue) : (value - value * 2).toInt = -value.toInt := by
  have hneg : value - value * 2 = -value := by grind
  have hmin : value.toInt ≠ -2 ^ 31 := fun e => h (Int32.toInt_inj.mp e)
  have hle := value.le_toInt
  have hlt := value.toInt_lt
  rw [hneg, Int32.toInt_neg]
  exact Int.bmod_eq_of_le (by omega) (by omega)

/-- The two loops and the NUL in base 10, behind a prefix of `off` bytes. -/
def decimal (m : Mem) (str off : ℕ) (value : Int32) : Option (Mem × ℕ) :=
  (countDigits (· / (10 : Int32)) 33 value off).bind fun len =>
    (fillDigits (fun value => digitChar (value % 10)) (· / (10 : Int32)) str 33 value (len - 1) m).bind fun m =>
      some (Function.update m (str + len) 0, len)

theorem itoa_ten (m : Mem) (str : ℕ) {value : Int32} (h : value ≠ 0) : itoa m str value 10 =
    if value < 0 then decimal (Function.update m str 45) str 1 (value - value * 2) else decimal m str 0 value := by
  simp only [itoa, if_neg h, if_neg (show (10 : Int32) ≠ 0 by decide), if_neg (show (10 : Int32) ≠ 16 by decide)]
  split_ifs <;> rfl

theorem decimal_eq (m : Mem) (str off : ℕ) {value : Int32} {s : List UInt8}
    (h : Yields (fun value => digitChar (value % 10)) (· / (10 : Int32)) value s) (hlt : s.length < 33) :
    decimal m str off value = some (storeBytes m (str + off) (s.reverse ++ [0]), off + s.length) := by
  rw [decimal, countDigits_eq off h hlt, Option.bind_some, fillDigits_nul m str off h hlt]

theorem decimal_pos (m : Mem) (str off : ℕ) {value : Int32} (h : 0 < value.toInt) : decimal m str off value =
    some (storeBytes m (str + off) (numeral 10 value.toInt.toNat ++ [0]),
      off + (numeral 10 value.toInt.toNat).length) := by
  have hval : value.toInt = value.toInt.toNat := (Int.toNat_of_nonneg h.le).symm
  have hlt : ((Nat.digits 10 value.toInt.toNat).map digitByte).length < 33 := by
    rw [List.length_map]
    refine length_digits_lt (by decide) ?_
    have := value.toInt_lt
    omega
  rw [decimal_eq m str off (divides_signed.yields (by decide) digitChar_signed hval) hlt, numeral, if_neg (by omega),
    List.map_reverse, List.length_reverse]

theorem itoa_zero (m : Mem) (str : ℕ) : itoa m str 0 10 = some (storeBytes m str [48, 0], 1) := by
  rw [itoa, if_pos rfl, ← storeBytes_singleton (c := 48)]
  exact congrArg (fun m => some (m, 1)) (update_storeBytes (s := [48]))

theorem itoa_pos (m : Mem) (str : ℕ) {value : Int32} (h : 0 < value.toInt) : itoa m str value 10 =
    some (storeBytes m str (numeral 10 value.toInt.toNat ++ [0]), (numeral 10 value.toInt.toNat).length) := by
  have h0 : value ≠ 0 := fun e => by rw [e] at h; exact absurd h (by decide)
  have hlt : ¬ value < 0 := fun hlt => absurd (Int32.lt_iff_toInt_lt.mp hlt) (not_lt.mpr h.le)
  rw [itoa_ten m str h0, if_neg hlt, decimal_pos m str 0 h, Nat.zero_add, Nat.add_zero]

theorem itoa_neg (m : Mem) (str : ℕ) {value : Int32} (h : value.toInt < 0) (hmin : value ≠ Int32.minValue) :
    itoa m str value 10 = some (storeBytes m str (45 :: numeral 10 (-value.toInt).toNat ++ [0]),
      (45 :: numeral 10 (-value.toInt).toNat).length) := by
  have h0 : value ≠ 0 := fun e => by rw [e] at h; exact absurd h (by decide)
  have hneg := toInt_negated hmin
  rw [itoa_ten m str h0, if_pos (Int32.lt_iff_toInt_lt.mpr h), decimal_pos _ _ _ (by omega), hneg, storeBytes_cons,
    Nat.add_comm 1]
  rfl

/-- What the most negative value gives: a sign, and characters that are no digits. -/
def minString : List UInt8 := [45, 46, 47, 44, 41, 44, 40, 45, 42, 44, 40]

theorem itoa_min (m : Mem) (str : ℕ) :
    itoa m str Int32.minValue 10 = some (storeBytes m str (minString ++ [0]), minString.length) := by
  have hyields : Yields (fun value => digitChar (value % 10)) (· / (10 : Int32)) (Int32.minValue - Int32.minValue * 2)
      [40, 44, 42, 45, 40, 44, 41, 44, 47, 46] := by
    simp only [Yields]
    decide
  rw [itoa_ten m str (by decide), if_pos (by decide), decimal_eq _ _ _ hyields (by decide), storeBytes_cons]
  rfl

theorem not_rendersInt_min (z : ℤ) : ¬ RendersInt minString z := by
  rintro ⟨ds, n, h, ⟨rfl, -⟩ | ⟨hs, -⟩⟩
  · exact Option.some_ne_none n (h.value.symm.trans (show readNumeral 10 minString = none by decide))
  · obtain rfl := (List.cons.inj hs).2
    exact Option.some_ne_none n (h.value.symm.trans (show readNumeral 10 minString.tail = none by decide))

/-- **Every value but the most negative one** is written as a decimal numeral. -/
theorem itoa_decodes_iff (m : Mem) (str : ℕ) (value : Int32) :
    (∃ m' s, itoa m str value 10 = some (m', s.length) ∧ StringAt m' str s ∧ RendersInt s value.toInt) ↔
      value ≠ Int32.minValue := by
  constructor
  · rintro ⟨m', s, hs, hat, hrenders⟩ rfl
    rw [itoa_min, Option.some.injEq, Prod.mk.injEq] at hs
    obtain ⟨rfl, -⟩ := hs
    rw [hat.unique (stringAt_storeBytes (s := minString) (by decide))] at hrenders
    exact not_rendersInt_min _ hrenders
  · intro hmin
    rcases lt_trichotomy value.toInt 0 with hneg | h0 | hpos
    · have hrenders : Renders 10 _ _ := renders_numeral (by decide) (by decide) (-value.toInt).toNat
      refine ⟨_, _, itoa_neg m str hneg hmin, stringAt_storeBytes ?_, _, _, hrenders, .inr ⟨rfl, by omega⟩⟩
      rw [List.mem_cons, not_or]
      exact ⟨by decide, zero_notMem_numeral (by decide) (by decide) _⟩
    · obtain rfl : value = 0 := Int32.toInt_inj.mp h0
      exact ⟨_, [48], itoa_zero m str, stringAt_storeBytes (s := [48]) (by decide), [48], 0,
        renders_numeral (by decide) (by decide) 0, .inl ⟨rfl, rfl⟩⟩
    · have hrenders : Renders 10 _ _ := renders_numeral (by decide) (by decide) value.toInt.toNat
      exact ⟨_, _, itoa_pos m str hpos, stringAt_storeBytes (zero_notMem_numeral (by decide) (by decide) _), _, _,
        hrenders, .inl ⟨rfl, by omega⟩⟩

/-- The most negative value gives `-./,),(-*,(`. -/
theorem itoa_min_garbled : ∃ m', itoa (fun _ => 0) 0 Int32.minValue 10 = some (m', 11) ∧ m' 1 = 46 ∧
    ¬ ∃ s, StringAt m' 0 s ∧ RendersInt s Int32.minValue.toInt := by
  refine ⟨_, itoa_min _ _, by decide, ?_⟩
  rintro ⟨s, hat, hrenders⟩
  rw [hat.unique (stringAt_storeBytes (s := minString) (by decide))] at hrenders
  exact not_rendersInt_min _ hrenders

end BulbOS.Libc
