import Mathlib

/-!
# Machine words read as natural numbers

A C expression over `uint64_t` is kept as an expression over `UInt64`. The facts
here rewrite its comparisons, masks and roundings into natural-number arithmetic,
where linear arithmetic closes the remaining goals.
-/

namespace Mcsos.WordArithmetic

theorem toNat_sub_one_of_two_pow (m : UInt64) (k : ℕ) (hm : m.toNat = 2 ^ k) :
    (m - 1).toNat = 2 ^ k - 1 := by
  have hle : (1 : UInt64) ≤ m := by
    rw [UInt64.le_iff_toNat_le, hm]
    exact Nat.one_le_two_pow
  rw [UInt64.toNat_sub_of_le _ _ hle, hm]
  rfl

theorem testBit_not (x : UInt64) (i : ℕ) :
    (~~~x).toNat.testBit i = (decide (i < 64) && !x.toNat.testBit i) := by
  change (~~~x).toBitVec.getLsbD i = (decide (i < 64) && !x.toBitVec.getLsbD i)
  simp only [UInt64.toBitVec_not, BitVec.getLsbD_not]

theorem testBit_high (x : UInt64) {i : ℕ} (hi : 64 ≤ i) : x.toNat.testBit i = false :=
  Nat.testBit_lt_two_pow
    (lt_of_lt_of_le x.toNat_lt (Nat.pow_le_pow_right (by norm_num) hi))

/-- `value & (align - 1)` keeps the remainder modulo a power of two. -/
theorem toNat_and_low (x m : UInt64) (k : ℕ) (hm : m.toNat = 2 ^ k) :
    (x &&& (m - 1)).toNat = x.toNat % 2 ^ k := by
  rw [UInt64.toNat_and, toNat_sub_one_of_two_pow m k hm, Nat.and_two_pow_sub_one_eq_mod]

theorem toNat_and_not_low (x m : UInt64) (k : ℕ) (hm : m.toNat = 2 ^ k) :
    (x &&& ~~~(m - 1)).toNat = x.toNat / 2 ^ k * 2 ^ k := by
  apply Nat.eq_of_testBit_eq
  intro i
  rw [UInt64.toNat_and, Nat.testBit_and, testBit_not, toNat_sub_one_of_two_pow m k hm,
    Nat.testBit_two_pow_sub_one, Nat.testBit_mul_two_pow, Nat.testBit_div_two_pow]
  by_cases hik : k ≤ i
  · have hadd : i - k + k = i := by omega
    by_cases hi : i < 64
    · simp [hik, hi, hadd]
    · simp [testBit_high x (not_lt.mp hi), hadd]
  · have hlt : i < k := by omega
    simp [hik, hlt]

theorem toNat_add_of_lt (a b : UInt64) (h : a.toNat + b.toNat < 2 ^ 64) :
    (a + b).toNat = a.toNat + b.toNat := by
  rw [UInt64.toNat_add, Nat.mod_eq_of_lt h]

theorem toNat_mul_of_lt (a b : UInt64) (h : a.toNat * b.toNat < 2 ^ 64) :
    (a * b).toNat = a.toNat * b.toNat := by
  rw [UInt64.toNat_mul, Nat.mod_eq_of_lt h]

theorem toNat_ofNat_of_lt {n : ℕ} (h : n < 2 ^ 64) : (UInt64.ofNat n).toNat = n := by
  rw [UInt64.toNat_ofNat', Nat.mod_eq_of_lt h]

theorem eq_of_toNat_eq {a b : UInt64} (h : a.toNat = b.toNat) : a = b :=
  UInt64.toNat_inj.mp h

theorem eq_zero_iff (a : UInt64) : a = 0 ↔ a.toNat = 0 := by
  rw [← UInt64.toNat_inj]
  rfl

theorem or_and_distrib (a b c : UInt64) : (a ||| b) &&& c = (a &&& c) ||| (b &&& c) := by
  apply eq_of_toNat_eq
  simp only [UInt64.toNat_and, UInt64.toNat_or]
  exact Nat.and_or_distrib_right _ _ _

theorem and_or_and_not (x m : UInt64) : (x &&& m) ||| (x &&& ~~~m) = x := by
  apply UInt64.eq_of_toBitVec_eq
  rw [UInt64.toBitVec_or, UInt64.toBitVec_and, UInt64.toBitVec_and, UInt64.toBitVec_not]
  ext i hi
  simp only [BitVec.getElem_or, BitVec.getElem_and, BitVec.getElem_not]
  cases x.toBitVec[i] <;> cases m.toBitVec[i] <;> rfl

theorem toNat_shift_and_low (x shift m : UInt64) (k : ℕ) (hm : m.toNat = 2 ^ k)
    (hshift : shift.toNat < 64) :
    ((x >>> shift) &&& (m - 1)).toNat = x.toNat / 2 ^ shift.toNat % 2 ^ k := by
  rw [toNat_and_low _ m k hm, UInt64.toNat_shiftRight, Nat.mod_eq_of_lt hshift,
    Nat.shiftRight_eq_div_pow]

theorem toNat_shift_or (x shift low : UInt64) (hshift : shift.toNat < 64)
    (hx : x.toNat * 2 ^ shift.toNat < 2 ^ 64) (hlow : low.toNat < 2 ^ shift.toNat) :
    ((x <<< shift) ||| low).toNat = x.toNat * 2 ^ shift.toNat + low.toNat := by
  have hmove : (x <<< shift).toNat = x.toNat <<< shift.toNat := by
    rw [UInt64.toNat_shiftLeft, Nat.mod_eq_of_lt hshift, Nat.shiftLeft_eq, Nat.mod_eq_of_lt hx]
  rw [UInt64.toNat_or, hmove, ← Nat.shiftLeft_add_eq_or_of_lt hlow, Nat.shiftLeft_eq]

end Mcsos.WordArithmetic
