import Mathlib.Tactic.Common
import Mathlib.Tactic.IntervalCases

/-!
# The epoch time (`kernel/drivers/rtc.c`)

* `rtcConvertMonthToDays`, `rtcConvertDateToTime`: the conversion, in unsigned 32-bit arithmetic;
* `DateT.seconds`: the seconds since 1970 in the Gregorian calendar;
* `years_eq`, `months_eq`: the days before a year and before a month, as the code computes them;
* `rtcConvertDateToTime_adds`: the epoch time; **`epoch_differs_iff`**: when two of them differ by the right number.
-/

namespace BulbOS.Rtc

def secondsInMinute : UInt32 := 60
def secondsInHour : UInt32 := secondsInMinute * 60
def secondsInDay : UInt32 := secondsInHour * 24
def secondsInYear : UInt32 := secondsInDay * 365

/-- `date_t`. -/
structure DateT where
  second : UInt8
  minute : UInt8
  hour : UInt8
  day : UInt8
  month : UInt8
  year : UInt32
  century : UInt8

/-- The value of `initial_epoch_time` at the start. -/
def initialEpochTime : UInt32 := 4

def daysInMonth : List UInt32 := [31, 28, 31, 30, 31, 30, 31, 31, 30, 31, 30, 31]

def rtcConvertMonthToDays (month : UInt8) : UInt32 :=
  (List.range (month.toNat - 1)).foldl (fun days i => days + daysInMonth.getD i 0) 0

/-- The new `initial_epoch_time`. -/
def rtcConvertDateToTime (initialEpochTime : UInt32) (initialDate : DateT) : UInt32 :=
  let t := initialEpochTime + initialDate.second.toUInt32
  let t := t + initialDate.minute.toUInt32 * secondsInMinute
  let t := t + initialDate.hour.toUInt32 * secondsInHour
  let tmYday := initialDate.day.toUInt32 + rtcConvertMonthToDays initialDate.month - 1
  let t := t + tmYday * secondsInDay
  let tmYear := initialDate.century.toUInt32 * 100 + initialDate.year - 1900
  let t := t + (tmYear - 70) * secondsInYear
  let t := t + (tmYear - 69) / 4 * secondsInDay
  let t := t - (tmYear - 1) / 100 * secondsInDay
  t + (tmYear + 299) / 400 * secondsInDay

/-! ## The calendar -/

def isLeap (y : ℕ) : Prop := 4 ∣ y ∧ (¬ 100 ∣ y ∨ 400 ∣ y)

instance (y : ℕ) : Decidable (isLeap y) := inferInstanceAs (Decidable (_ ∧ _))

def yearLength (y : ℕ) : ℕ := if isLeap y then 366 else 365

def monthLength (y m : ℕ) : ℕ :=
  if m = 2 then if isLeap y then 29 else 28 else if m ∈ [4, 6, 9, 11] then 30 else 31

def DateT.fullYear (d : DateT) : ℕ := 100 * d.century.toNat + d.year.toNat

/-- The days from 1 January 1970 on: of the years, of the months, and of the month. -/
def DateT.days (d : DateT) : ℕ :=
  ((List.range (d.fullYear - 1970)).map fun k => yearLength (1970 + k)).sum +
    ((List.range (d.month.toNat - 1)).map fun k => monthLength d.fullYear (k + 1)).sum + (d.day.toNat - 1)

def DateT.seconds (d : DateT) : ℕ :=
  86400 * d.days + 3600 * d.hour.toNat + 60 * d.minute.toNat + d.second.toNat

/-- A date from 1970 to 2099, without leap seconds. -/
structure DateT.Valid (d : DateT) : Prop where
  year : 1970 ≤ d.fullYear ∧ d.fullYear ≤ 2099
  month : 1 ≤ d.month.toNat ∧ d.month.toNat ≤ 12
  day : 1 ≤ d.day.toNat ∧ d.day.toNat ≤ monthLength d.fullYear d.month.toNat
  hour : d.hour.toNat < 24
  minute : d.minute.toNat < 60
  second : d.second.toNat < 60

/-- After the end of February of a leap year. -/
def DateT.Late (d : DateT) : Prop := isLeap d.fullYear ∧ 3 ≤ d.month.toNat

instance (d : DateT) : Decidable d.Late := inferInstanceAs (Decidable (_ ∧ _))

variable {d d₁ d₂ : DateT} {e t v : UInt32} {n k : ℕ}

theorem yearLength_eq (y : ℕ) : yearLength y + (if 100 ∣ y then 1 else 0) =
    365 + (if 4 ∣ y then 1 else 0) + if 400 ∣ y then 1 else 0 := by
  have hcent : 100 ∣ y → 4 ∣ y := (show 4 ∣ 100 by decide).trans
  have hquad : 400 ∣ y → 100 ∣ y := (show 100 ∣ 400 by decide).trans
  unfold yearLength isLeap
  by_cases h4 : 4 ∣ y
  · by_cases h100 : 100 ∣ y
    · by_cases h400 : 400 ∣ y <;> simp [h4, h100, h400]
    · simp [h4, h100, mt hquad h100]
  · simp [h4, mt hcent h4, mt hquad (mt hcent h4)]

theorem years_eq (n : ℕ) : ((List.range n).map fun k => yearLength (1970 + k)).sum + (n + 69) / 100 =
    365 * n + (n + 1) / 4 + (n + 369) / 400 := by
  induction n with
  | zero => rfl
  | succ n ih =>
    have hlen := yearLength_eq (1970 + n)
    have hfour : (n + 1 + 1) / 4 = (n + 1) / 4 + if 4 ∣ 1970 + n then 1 else 0 := by split_ifs <;> omega
    have hcent : (n + 1 + 69) / 100 = (n + 69) / 100 + if 100 ∣ 1970 + n then 1 else 0 := by split_ifs <;> omega
    have hquad : (n + 1 + 369) / 400 = (n + 369) / 400 + if 400 ∣ 1970 + n then 1 else 0 := by split_ifs <;> omega
    rw [List.range_succ, List.map_append, List.sum_append, List.map_singleton, List.sum_singleton, hfour, hcent, hquad]
    generalize (if 4 ∣ 1970 + n then 1 else 0) = four at *
    generalize (if 100 ∣ 1970 + n then 1 else 0) = cent at *
    generalize (if 400 ∣ 1970 + n then 1 else 0) = quad at *
    omega

theorem months_eq (y : ℕ) {month : UInt8} (h : 1 ≤ month.toNat ∧ month.toNat ≤ 12) :
    ((List.range (month.toNat - 1)).map fun k => monthLength y (k + 1)).sum =
      (rtcConvertMonthToDays month).toNat + if isLeap y ∧ 3 ≤ month.toNat then 1 else 0 := by
  unfold rtcConvertMonthToDays monthLength
  obtain ⟨h₁, h₂⟩ := h
  generalize month.toNat = m at h₁ h₂
  by_cases hl : isLeap y
  · simp only [hl, if_true, true_and]
    interval_cases m <;> decide
  · simp only [hl, if_false, false_and]
    interval_cases m <;> decide

theorem days_eq (h : d.Valid) :
    d.days = ((List.range (d.fullYear - 1970)).map fun k => yearLength (1970 + k)).sum +
      ((rtcConvertMonthToDays d.month).toNat + if d.Late then 1 else 0) + (d.day.toNat - 1) := by
  unfold DateT.days
  rw [months_eq d.fullYear h.month]
  rfl

/-! ## The conversion -/

/-- A sum of 32 bits that started at `e`. -/
def Adds (e t : UInt32) (n : ℕ) : Prop := t.toNat = (e.toNat + n) % 2 ^ 32

theorem Adds.add (h : Adds e t n) (hv : v.toNat = k) : Adds e (t + v) (n + k) := by
  unfold Adds at *
  rw [UInt32.toNat_add, h, hv]
  omega

theorem Adds.sub (h : Adds e t n) (hv : v.toNat = k) (hk : k ≤ n) : Adds e (t - v) (n - k) := by
  have hlt := v.toNat_lt
  unfold Adds at *
  rw [UInt32.toNat_sub, h, hv]
  omega

theorem months_le {month : UInt8} (h : month.toNat ≤ 12) : (rtcConvertMonthToDays month).toNat ≤ 334 := by
  unfold rtcConvertMonthToDays
  generalize month.toNat = m at h
  interval_cases m <;> decide

theorem mul_day {a : UInt32} (ha : a.toNat = n) (hn : n ≤ 365) : (a * secondsInDay).toNat = 86400 * n := by
  rw [UInt32.toNat_mul, ha]
  change n * 86400 % 2 ^ 32 = _
  omega

theorem year_terms {tmYear : UInt32} (h : tmYear.toNat = n + 70) (hn : n < 130) :
    ((tmYear - 70) * secondsInYear).toNat = 31536000 * n ∧
      ((tmYear - 69) / 4 * secondsInDay).toNat = 86400 * ((n + 1) / 4) ∧
      ((tmYear - 1) / 100 * secondsInDay).toNat = 86400 * ((n + 69) / 100) ∧
      ((tmYear + 299) / 400 * secondsInDay).toNat = 86400 * ((n + 369) / 400) := by
  have hsub : ∀ {a : UInt32} {m : ℕ}, a.toNat = m → m ≤ n + 70 → (tmYear - a).toNat = n + 70 - m := by
    intro a m ha hm
    rw [UInt32.toNat_sub_of_le _ _ (UInt32.le_iff_toNat_le.mpr (by omega)), h, ha]
  have hadd : (tmYear + 299).toNat = n + 369 := by
    rw [UInt32.toNat_add, h]
    exact Nat.mod_eq_of_lt (show n + 70 + 299 < 2 ^ 32 by omega)
  refine ⟨?_, mul_day ?_ (by omega), mul_day ?_ (by omega), mul_day ?_ (by omega)⟩
  · rw [UInt32.toNat_mul, @hsub _ 70 rfl (by omega)]
    change (n + 70 - 70) * 31536000 % 2 ^ 32 = _
    omega
  · rw [UInt32.toNat_div, @hsub _ 69 rfl (by omega)]
    change (n + 70 - 69) / 4 = _
    omega
  · rw [UInt32.toNat_div, @hsub _ 1 rfl (by omega)]
    change (n + 70 - 1) / 100 = _
    omega
  · rw [UInt32.toNat_div, hadd]
    rfl

theorem time_terms (h : d.Valid) : (d.minute.toUInt32 * secondsInMinute).toNat = 60 * d.minute.toNat ∧
    (d.hour.toUInt32 * secondsInHour).toNat = 3600 * d.hour.toNat := by
  have hm := h.minute
  have hh := h.hour
  rw [UInt32.toNat_mul, UInt32.toNat_mul, UInt8.toNat_toUInt32, UInt8.toNat_toUInt32]
  change d.minute.toNat * 60 % 2 ^ 32 = _ ∧ d.hour.toNat * 3600 % 2 ^ 32 = _
  omega

theorem monthLength_le (y m : ℕ) : monthLength y m ≤ 31 := by
  unfold monthLength
  split_ifs <;> omega

theorem day_term (h : d.Valid) : ((d.day.toUInt32 + rtcConvertMonthToDays d.month - 1) * secondsInDay).toNat =
    86400 * (d.day.toNat - 1 + (rtcConvertMonthToDays d.month).toNat) := by
  have hday := h.day
  have hlen := monthLength_le d.fullYear d.month.toNat
  have hle := months_le h.month.2
  refine mul_day ?_ (by omega)
  rw [UInt32.toNat_sub, UInt32.toNat_add, UInt8.toNat_toUInt32]
  change (2 ^ 32 - 1 + _ % 2 ^ 32) % 2 ^ 32 = _
  omega

theorem tmYear_toNat (hn : d.fullYear = 1970 + n) (hlt : n < 130) :
    (d.century.toUInt32 * 100 + d.year - 1900).toNat = n + 70 := by
  rw [UInt32.toNat_sub, UInt32.toNat_add, UInt32.toNat_mul, UInt8.toNat_toUInt32]
  change (2 ^ 32 - 1900 + (d.century.toNat * 100 % 2 ^ 32 + d.year.toNat) % 2 ^ 32) % 2 ^ 32 = _
  unfold DateT.fullYear at hn
  omega

/-- **What the code computes** is one day less than it should be for the late dates. -/
theorem rtcConvertDateToTime_adds (e : UInt32) (h : d.Valid) :
    Adds e (rtcConvertDateToTime e d) (d.seconds - if d.Late then 86400 else 0) := by
  obtain ⟨n, hn⟩ : ∃ n, d.fullYear = 1970 + n := Nat.exists_eq_add_of_le h.year.1
  have hlt : n < 130 := by
    have := h.year.2
    omega
  obtain ⟨h70, h69, h1, h299⟩ := year_terms (tmYear_toNat hn hlt) hlt
  obtain ⟨hminute, hhour⟩ := time_terms h
  have hstart : Adds e e 0 := (Nat.mod_eq_of_lt e.toNat_lt).symm
  have hsum := (((((((hstart.add (UInt8.toNat_toUInt32 d.second)).add hminute).add hhour).add (day_term h)).add
    h70).add h69).sub h1 (by omega)).add h299
  have hyears := years_eq n
  unfold DateT.seconds
  rw [days_eq h, show d.fullYear - 1970 = n by omega]
  refine Eq.mp (congrArg (Adds e _) ?_) hsum
  by_cases hlate : d.Late
  · rw [if_pos hlate, if_pos hlate]
    omega
  · rw [if_neg hlate, if_neg hlate]
    omega

/-- The epoch time passes `2 ^ 32`. -/
def Wraps (e : UInt32) (d : DateT) : Prop := 2 ^ 32 ≤ e.toNat + (d.seconds - if d.Late then 86400 else 0)

theorem seconds_lt (h : d.Valid) : d.seconds + 86400 < 2 ^ 32 := by
  have hyear := h.year
  have hday := h.day.2
  have hlen := monthLength_le d.fullYear d.month.toNat
  have hyears := years_eq (d.fullYear - 1970)
  have hle := months_le h.month.2
  have hhour := h.hour
  have hminute := h.minute
  have hsecond := h.second
  have hlate : (if d.Late then 1 else 0) ≤ 1 := by split_ifs <;> decide
  unfold DateT.seconds
  rw [days_eq h]
  omega

theorem late_le (h : d.Valid) : (if d.Late then 86400 else 0) ≤ d.seconds := by
  by_cases hl : d.Late
  · rw [if_pos hl, DateT.seconds, days_eq h, if_pos hl]
    omega
  · rw [if_neg hl]
    exact Nat.zero_le _

/-- From the value at the start no epoch time passes `2 ^ 32`. -/
theorem not_wraps_start (h : d.Valid) : ¬ Wraps initialEpochTime d := by
  have hlt := seconds_lt h
  unfold Wraps
  change ¬ 2 ^ 32 ≤ 4 + _
  omega

/-- **Two epoch times** differ by the seconds between the dates exactly when both dates are late in a leap year or
none is, and both epoch times pass `2 ^ 32` or none does. -/
theorem epoch_differs_iff (e : UInt32) (h₁ : d₁.Valid) (h₂ : d₂.Valid) :
    ((rtcConvertDateToTime e d₂).toNat : ℤ) - (rtcConvertDateToTime e d₁).toNat = (d₂.seconds : ℤ) - d₁.seconds ↔
      (d₁.Late ↔ d₂.Late) ∧ (Wraps e d₁ ↔ Wraps e d₂) := by
  have hlt₁ := seconds_lt h₁
  have hlt₂ := seconds_lt h₂
  have hle₁ := late_le h₁
  have hle₂ := late_le h₂
  have he := e.toNat_lt
  have ha₁ := rtcConvertDateToTime_adds e h₁
  have ha₂ := rtcConvertDateToTime_adds e h₂
  unfold Adds at ha₁ ha₂
  unfold Wraps
  rw [ha₁, ha₂]
  clear ha₁ ha₂
  by_cases hl₁ : d₁.Late
  · rw [if_pos hl₁] at hle₁ ⊢
    by_cases hl₂ : d₂.Late
    · rw [if_pos hl₂] at hle₂ ⊢
      simp only [hl₁, hl₂, true_and]
      omega
    · rw [if_neg hl₂] at hle₂ ⊢
      simp only [hl₁, hl₂, iff_false, not_true, false_and, iff_false]
      omega
  · rw [if_neg hl₁] at hle₁ ⊢
    by_cases hl₂ : d₂.Late
    · rw [if_pos hl₂] at hle₂ ⊢
      simp only [hl₁, hl₂, iff_true, false_and, iff_false]
      omega
    · rw [if_neg hl₂] at hle₂ ⊢
      simp only [hl₁, hl₂, true_and]
      omega

/-- Noon of 28 February 2001 and of the day after it. -/
def february2001 : DateT := ⟨0, 0, 12, 28, 2, 1, 20⟩
def march2001 : DateT := ⟨0, 0, 12, 1, 3, 1, 20⟩

theorem epoch_differs_day :
    ((rtcConvertDateToTime 4 march2001).toNat : ℤ) - (rtcConvertDateToTime 4 february2001).toNat =
      (march2001.seconds : ℤ) - february2001.seconds := by
  have hvalid₁ : february2001.Valid := ⟨by decide, by decide, by decide, by decide, by decide, by decide⟩
  have hvalid₂ : march2001.Valid := ⟨by decide, by decide, by decide, by decide, by decide, by decide⟩
  exact (epoch_differs_iff 4 hvalid₁ hvalid₂).mpr
    ⟨by decide, iff_of_false (not_wraps_start hvalid₁) (not_wraps_start hvalid₂)⟩

/-- 29 February 1972 and 1 March 1972 get the same epoch time. -/
theorem epoch_march_1972 : DateT.Valid ⟨0, 0, 0, 29, 2, 72, 19⟩ ∧ DateT.Valid ⟨0, 0, 0, 1, 3, 72, 19⟩ ∧
    rtcConvertDateToTime initialEpochTime ⟨0, 0, 0, 29, 2, 72, 19⟩ =
      rtcConvertDateToTime initialEpochTime ⟨0, 0, 0, 1, 3, 72, 19⟩ ∧
    (⟨0, 0, 0, 1, 3, 72, 19⟩ : DateT).seconds = (⟨0, 0, 0, 29, 2, 72, 19⟩ : DateT).seconds + 86400 :=
  ⟨⟨by decide, by decide, by decide, by decide, by decide, by decide⟩,
    ⟨by decide, by decide, by decide, by decide, by decide, by decide⟩, by decide, by decide⟩

end BulbOS.Rtc
