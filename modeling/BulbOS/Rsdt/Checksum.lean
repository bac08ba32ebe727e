import BulbOS.Lib.Bytes
import Mathlib.Algebra.BigOperators.Group.List.Basic
import Mathlib.Algebra.Ring.Parity
import Mathlib.Tactic.Common

/-!
# The checksums of the ACPI tables (`rsdp_checksum`, `rsdt_checksum` of `drivers/rsdt.c`)

* `sumLoop`, `rsdpChecksum`, `rsdtChecksum`: the code, on the bytes of the descriptor and of the table;
* `byteSum`: the sum of the bytes as a number; `toNat_sumLoop`: the loop adds them up, modulo 256;
* `rsdtChecksum_eq_one_iff`, `rsdpChecksum_eq_one_iff`: what each of them tests;
* **`rsdp_checksum_exact_iff`**: when the test of the descriptor is the one its format asks for.
-/

namespace BulbOS.Rsdt

open KLib

/-- `for (; start < end; ++start) sum += *start` with `n` bytes from `start` to `end`: `sum` and `start` behind it. -/
def sumLoop (mem : Mem) : ℕ → ℕ → UInt8 → UInt8 × ℕ
  | 0, start, sum => (sum, start)
  | n + 1, start, sum => sumLoop mem n (start + 1) (sum + mem start)

/-- `sizeof(rsdp_descriptor_t)`. -/
def sizeofRsdpDescriptor : ℕ := 20

/-- `sizeof(rsdp20_descriptor_t)`. -/
def sizeofRsdp20Descriptor : ℕ := 36

def rsdpChecksum (mem : Mem) (rsdpDescriptor : ℕ) (version : UInt8) : UInt8 :=
  let (sum, start) := sumLoop mem sizeofRsdpDescriptor rsdpDescriptor 0
  if version = 0 ∨ sum &&& 1 ≠ 0 then ~~~sum &&& 1
  else
    let (sum, _) := sumLoop mem (sizeofRsdp20Descriptor - sizeofRsdpDescriptor) start 0
    ~~~sum &&& 1

/-- The table is at `rsdt`; `length` of its header is at 4. -/
def rsdtChecksum (mem : Mem) (rsdt : ℕ) : UInt8 :=
  let (sum, _) := sumLoop mem (load32 mem (rsdt + 4)) rsdt 0
  if sum = 0 then 1 else 0

/-! ## The loop -/

/-- The sum of the `n` bytes at `a`. -/
def byteSum (mem : Mem) (a n : ℕ) : ℕ := ((List.range n).map fun i => (mem (a + i)).toNat).sum

variable {mem : Mem} {a n k : ℕ} {sum version : UInt8}

theorem byteSum_succ (mem : Mem) (a n : ℕ) : byteSum mem a (n + 1) = (mem a).toNat + byteSum mem (a + 1) n := by
  rw [byteSum, List.range_succ_eq_map, List.map_cons, List.sum_cons, List.map_map, byteSum]
  refine congrArg (fun l => (mem a).toNat + List.sum l) (List.map_congr_left fun i _ => ?_)
  exact congrArg (fun x => (mem x).toNat) (by omega)

theorem byteSum_add (mem : Mem) (a n k : ℕ) : byteSum mem a (n + k) = byteSum mem a n + byteSum mem (a + n) k := by
  induction n generalizing a with
  | zero => rw [Nat.zero_add, Nat.add_zero]; exact (Nat.zero_add _).symm
  | succ n ih =>
    rw [Nat.add_right_comm, byteSum_succ, byteSum_succ, ih, Nat.add_assoc (mem a).toNat, Nat.add_assoc a,
      Nat.add_comm 1 n]

theorem sumLoop_snd (mem : Mem) (n a : ℕ) (sum : UInt8) : (sumLoop mem n a sum).2 = a + n := by
  induction n generalizing a sum with
  | zero => rfl
  | succ n ih => rw [sumLoop, ih, Nat.add_right_comm, Nat.add_assoc]

/-- **The loop** adds the bytes up, modulo 256. -/
theorem toNat_sumLoop (mem : Mem) (n a : ℕ) (sum : UInt8) :
    (sumLoop mem n a sum).1.toNat = (sum.toNat + byteSum mem a n) % 256 := by
  induction n generalizing a sum with
  | zero => exact (Nat.mod_eq_of_lt sum.toNat_lt).symm
  | succ n ih =>
    rw [sumLoop, ih, UInt8.toNat_add, byteSum_succ]
    omega

theorem toNat_sumLoop_zero (mem : Mem) (n a : ℕ) : (sumLoop mem n a 0).1.toNat = byteSum mem a n % 256 := by
  rw [toNat_sumLoop, UInt8.toNat_zero, Nat.zero_add]

/-! ## The two tests -/

theorem rsdtChecksum_eq_one_iff {rsdt : ℕ} :
    rsdtChecksum mem rsdt = 1 ↔ 256 ∣ byteSum mem rsdt (load32 mem (rsdt + 4)) := by
  have hsum := toNat_sumLoop_zero mem (load32 mem (rsdt + 4)) rsdt
  rw [rsdtChecksum]
  dsimp only
  by_cases hzero : (sumLoop mem (load32 mem (rsdt + 4)) rsdt 0).1 = 0
  · rw [if_pos hzero]
    rw [hzero] at hsum
    exact iff_of_true rfl (Nat.dvd_of_mod_eq_zero hsum.symm)
  · rw [if_neg hzero]
    refine iff_of_false (by decide) fun hdvd => hzero (UInt8.toNat.inj ?_)
    rw [hsum, Nat.mod_eq_zero_of_dvd hdvd]
    rfl

theorem and_one_ne_zero (sum : UInt8) : sum &&& 1 ≠ 0 ↔ sum.toNat % 2 = 1 := by
  rw [ne_eq, ← UInt8.toNat_inj, UInt8.toNat_and]
  change ¬ sum.toNat &&& 1 = 0 ↔ _
  rw [Nat.and_one_is_mod]
  omega

theorem not_and_one_eq_one (sum : UInt8) : ~~~sum &&& 1 = 1 ↔ sum.toNat % 2 = 0 := by
  have hlt := sum.toNat_lt
  rw [← UInt8.toNat_inj, UInt8.toNat_and, UInt8.toNat_not]
  change 255 - sum.toNat &&& 1 = 1 ↔ _
  rw [Nat.and_one_is_mod]
  omega

/-- **The descriptor's sums** only have to be even. -/
theorem rsdpChecksum_eq_one_iff : rsdpChecksum mem a version = 1 ↔
    Even (byteSum mem a 20) ∧ (version ≠ 0 → Even (byteSum mem (a + 20) 16)) := by
  have hfirst := toNat_sumLoop_zero mem sizeofRsdpDescriptor a
  have hsecond := toNat_sumLoop_zero mem 16 (a + 20)
  have hstart := sumLoop_snd mem sizeofRsdpDescriptor a 0
  rw [sizeofRsdpDescriptor] at hfirst hstart
  rw [rsdpChecksum]
  simp only [sizeofRsdpDescriptor, sizeofRsdp20Descriptor, hstart, Nat.reduceSub, and_one_ne_zero,
    Nat.even_iff]
  by_cases hversion : version = 0
  · rw [if_pos (.inl hversion), not_and_one_eq_one, hfirst]
    simp only [hversion, ne_eq, not_true_eq_false, false_imp_iff, and_true]
    omega
  · by_cases hodd : (sumLoop mem 20 a 0).1.toNat % 2 = 1
    · rw [if_pos (.inr hodd), not_and_one_eq_one]
      refine iff_of_false (by omega) fun h => ?_
      have := h.1
      omega
    · rw [if_neg (by tauto), not_and_one_eq_one, hsecond]
      simp only [hversion, ne_eq, not_false_eq_true, true_imp_iff]
      omega

variable (mem a version) in
/-- **The descriptor's test** is that both sums are 0 modulo 256, when a sum that it looks at is odd or when both are
such multiples. -/
theorem rsdp_checksum_exact_iff :
    (rsdpChecksum mem a version = 1 ↔ 256 ∣ byteSum mem a 20 ∧ (version ≠ 0 → 256 ∣ byteSum mem a 36)) ↔
      (Odd (byteSum mem a 20) ∨ version ≠ 0 ∧ Odd (byteSum mem (a + 20) 16)) ∨
        (256 ∣ byteSum mem a 20 ∧ (version ≠ 0 → 256 ∣ byteSum mem (a + 20) 16)) := by
  have hadd : byteSum mem a 36 = byteSum mem a 20 + byteSum mem (a + 20) 16 := byteSum_add mem a 20 16
  rw [rsdpChecksum_eq_one_iff, hadd, Nat.even_iff, Nat.even_iff, Nat.odd_iff, Nat.odd_iff]
  by_cases hversion : version = 0
  · simp only [hversion, ne_eq, not_true_eq_false, false_imp_iff, and_true, false_and, or_false]
    omega
  · simp only [hversion, ne_eq, not_false_eq_true, true_imp_iff, true_and]
    omega

/-- The signature, a checksum byte and zeros: the bytes sum to 2 modulo 256. -/
def evenDescriptor : Mem := fun x => [82, 83, 68, 32, 80, 84, 82, 32, 227].getD x 0

theorem rsdp_checksum_even : ¬ (rsdpChecksum evenDescriptor 0 0 = 1 ↔
    256 ∣ byteSum evenDescriptor 0 20 ∧ ((0 : UInt8) ≠ 0 → 256 ∣ byteSum evenDescriptor 0 36)) := by
  decide

end BulbOS.Rsdt
