import BulbOS.Lib.Probe
import Mathlib.Data.Nat.ModEq

/-!
# Walks around a circle

`n` places in a circle, and steps of `c` places, also when `c` does not divide `n`.

* `stride`: where the walk is after `k` steps;
* `exists_period`: it comes back to its start within `n` steps; `stride_mod`: and then goes round again;
* `exists_stride_eq`: it meets every place that is congruent to the start modulo `gcd c n`;
* **`exists_stride_block`**: so it meets every block of `c` places, also the last one, which may be shorter.
-/

namespace KLib

def stride (n c start k : ℕ) : ℕ := (start + c * k) % n

variable {n c start p x : ℕ}

theorem stride_lt (hn : 0 < n) (c start k : ℕ) : stride n c start k < n := Nat.mod_lt _ hn

theorem stride_zero (h : start < n) : stride n c start 0 = start := Nat.mod_eq_of_lt h

theorem stride_stride (j k : ℕ) : stride n c (stride n c start j) k = stride n c start (j + k) := by
  unfold stride
  rw [Nat.mod_add_mod, Nat.mul_add, Nat.add_assoc]

theorem exists_period (hstart : start < n) :
    ∃ p, 0 < p ∧ p ≤ n ∧ stride n c start p = start ∧ ∀ e, 0 < e → e < p → stride n c start e ≠ start := by
  have hround : stride n c start n = start := by
    unfold stride
    rw [Nat.add_mul_mod_self_right, Nat.mod_eq_of_lt hstart]
  obtain ⟨p, hle, ⟨hpos, hback⟩, hfirst⟩ :=
    exists_first (p := fun k => 0 < k ∧ stride n c start k = start) ⟨by omega, hround⟩
  exact ⟨p, hpos, hle, hback, fun e he hlt h => hfirst e hlt ⟨he, h⟩⟩

theorem stride_mod (hback : stride n c start p = start) (k : ℕ) : stride n c start (k % p) = stride n c start k := by
  induction k using Nat.strong_induction_on with
  | _ k ih =>
    rcases Nat.lt_or_ge k p with hlt | hge
    · rw [Nat.mod_eq_of_lt hlt]
    · rcases Nat.eq_zero_or_pos p with rfl | hp
      · rw [Nat.mod_zero]
      · rw [Nat.mod_eq_sub_mod hge, ih (k - p) (by omega)]
        conv_lhs => rw [← hback, stride_stride]
        rw [Nat.add_sub_cancel' hge]

theorem exists_stride_eq (hc : 0 < c) (hx : x < n) (h : x ≡ start [MOD Nat.gcd c n]) :
    ∃ k, stride n c start k = x := by
  obtain ⟨z, hz, hzx⟩ := Nat.chineseRemainder' (n := c) (m := n) h.symm
  -- far enough round to be behind the start
  obtain ⟨k, hk⟩ : c ∣ z + c * n * start - start := by
    have hmod : z + c * n * start ≡ start [MOD c] := by
      rw [Nat.mul_assoc]
      exact (Nat.add_mul_mod_self_left z c _).trans hz
    refine (Nat.modEq_iff_dvd' ?_).mp hmod.symm
    have : start ≤ c * n * start := Nat.le_mul_of_pos_left _ (Nat.mul_pos hc (by omega))
    omega
  have hle : start ≤ c * n * start := Nat.le_mul_of_pos_left _ (Nat.mul_pos hc (by omega))
  refine ⟨k, ?_⟩
  calc stride n c start k = (z + c * n * start) % n := by
        rw [stride, ← hk]
        congr 1
        omega
    _ = z % n := by rw [Nat.mul_right_comm, Nat.add_mul_mod_self_right]
    _ = x := by rw [show z % n = x % n from hzx, Nat.mod_eq_of_lt hx]

/-- **Every block** is met, and within the period. -/
theorem exists_stride_block (hc : 0 < c) (hp : 0 < p) (hback : stride n c start p = start) (hx : x < n) :
    ∃ k < p, stride n c start k / c = x / c := by
  have hdvd : Nat.gcd c n ∣ c := Nat.gcd_dvd_left c n
  have hgc : Nat.gcd c n ≤ c := Nat.le_of_dvd hc hdvd
  have hlt : start % Nat.gcd c n < Nat.gcd c n := Nat.mod_lt _ (Nat.gcd_pos_of_pos_left n hc)
  have hbase : c * (x / c) ≤ x := Nat.mul_div_le x c
  -- the place in the block with the residue of the start
  have hy : c * (x / c) + start % Nat.gcd c n < n := by
    have hrest : Nat.gcd c n ∣ n - c * (x / c) := Nat.dvd_sub (Nat.gcd_dvd_right c n) (hdvd.mul_right _)
    have := Nat.le_of_dvd (by omega) hrest
    omega
  have hmod : c * (x / c) + start % Nat.gcd c n ≡ start [MOD Nat.gcd c n] := by
    obtain ⟨q, hq⟩ := hdvd.mul_right (x / c)
    rw [hq, Nat.ModEq, Nat.mul_add_mod, Nat.mod_mod]
  obtain ⟨k, hk⟩ := exists_stride_eq hc hy hmod
  refine ⟨k % p, Nat.mod_lt k hp, ?_⟩
  rw [stride_mod hback, hk, Nat.mul_add_div hc, Nat.div_eq_of_lt (hlt.trans_le hgc), Nat.add_zero]

end KLib
