import Mathlib

/-!
# Bits stored in a list of bytes

Bit `i` of a table is bit `i % 8` of byte `i / 8`. A read-modify-write of one byte
with a one-bit mask changes that bit of the table and no other.
-/

namespace Mcsos.BitTable

def bit (table : List UInt8) (i : ℕ) : Bool := (table.getD (i / 8) 0).toNat.testBit (i % 8)

theorem toNat_mask (k : UInt8) (hk : k.toNat < 8) : ((1 : UInt8) <<< k).toNat = 2 ^ k.toNat := by
  rw [UInt8.toNat_shiftLeft, Nat.mod_eq_of_lt hk, Nat.shiftLeft_eq]
  have hlt : 2 ^ k.toNat < 2 ^ 8 := Nat.pow_lt_pow_right (by norm_num) hk
  simpa using hlt

theorem testBit_or_mask (b k : UInt8) (hk : k.toNat < 8) (i : ℕ) :
    (b ||| (1 <<< k)).toNat.testBit i = (b.toNat.testBit i || decide (k.toNat = i)) := by
  rw [UInt8.toNat_or, Nat.testBit_or, toNat_mask k hk, Nat.testBit_two_pow]

theorem testBit_and_not_mask (b k : UInt8) (hk : k.toNat < 8) {i : ℕ} (hi : i < 8) :
    (b &&& ~~~(1 <<< k)).toNat.testBit i = (b.toNat.testBit i && !decide (k.toNat = i)) := by
  have hnot : (~~~((1 : UInt8) <<< k)).toNat.testBit i = !((1 : UInt8) <<< k).toNat.testBit i := by
    change (~~~((1 : UInt8) <<< k)).toBitVec.getLsbD i = !((1 : UInt8) <<< k).toBitVec.getLsbD i
    simp only [UInt8.toBitVec_not, BitVec.getLsbD_not, hi, decide_true, Bool.true_and]
  rw [UInt8.toNat_and, Nat.testBit_and, hnot, toNat_mask k hk, Nat.testBit_two_pow]

theorem and_mask_ne_zero (b k : UInt8) (hk : k.toNat < 8) :
    decide (b &&& (1 <<< k) ≠ 0) = b.toNat.testBit k.toNat := by
  have hv : (b &&& (1 <<< k)).toNat = b.toNat &&& 2 ^ k.toNat := by
    rw [UInt8.toNat_and, toNat_mask k hk]
  have hz : b &&& (1 <<< k) = 0 ↔ (b &&& (1 <<< k)).toNat = 0 := by
    rw [← UInt8.toNat_inj]
    rfl
  rw [Nat.and_two_pow] at hv
  cases h : b.toNat.testBit k.toNat with
  | false =>
    rw [h] at hv
    simp [hz, hv]
  | true =>
    rw [h] at hv
    simp [hz, hv]

theorem bit_of_getElem? {table : List UInt8} {b : UInt8} {i : ℕ} (h : table[i / 8]? = some b) :
    bit table i = b.toNat.testBit (i % 8) := by
  simp [bit, h]

theorem bit_set_same_byte {table : List UInt8} {n : ℕ} (hn : n < table.length) (b : UInt8)
    {j : ℕ} (hj : j / 8 = n) : bit (table.set n b) j = b.toNat.testBit (j % 8) := by
  apply bit_of_getElem?
  rw [hj, List.getElem?_set_self hn]

theorem bit_set_other_byte (table : List UInt8) (n : ℕ) (b : UInt8) {j : ℕ} (hj : j / 8 ≠ n) :
    bit (table.set n b) j = bit table j := by
  simp only [bit, List.getD_eq_getElem?_getD, List.getElem?_set_ne (Ne.symm hj)]

theorem bit_set_or_mask {table : List UInt8} {i : ℕ} {b k : UInt8}
    (hb : table[i / 8]? = some b) (hk : k.toNat = i % 8) (j : ℕ) :
    bit (table.set (i / 8) (b ||| (1 <<< k))) j = (bit table j || decide (j = i)) := by
  have hlen : i / 8 < table.length := (List.getElem?_eq_some_iff.mp hb).1
  by_cases hj : j / 8 = i / 8
  · rw [bit_set_same_byte hlen _ hj, testBit_or_mask _ _ (by omega), bit_of_getElem? (hj ▸ hb), hk]
    have hiff : i % 8 = j % 8 ↔ j = i := by omega
    simp only [hiff]
  · have hne : j ≠ i := by rintro rfl; exact hj rfl
    rw [bit_set_other_byte _ _ _ hj]
    simp [hne]

theorem bit_set_and_not_mask {table : List UInt8} {i : ℕ} {b k : UInt8}
    (hb : table[i / 8]? = some b) (hk : k.toNat = i % 8) (j : ℕ) :
    bit (table.set (i / 8) (b &&& ~~~(1 <<< k))) j = (bit table j && !decide (j = i)) := by
  have hlen : i / 8 < table.length := (List.getElem?_eq_some_iff.mp hb).1
  by_cases hj : j / 8 = i / 8
  · rw [bit_set_same_byte hlen _ hj, testBit_and_not_mask _ _ (by omega) (by omega),
      bit_of_getElem? (hj ▸ hb), hk]
    have hiff : i % 8 = j % 8 ↔ j = i := by omega
    simp only [hiff]
  · have hne : j ≠ i := by rintro rfl; exact hj rfl
    rw [bit_set_other_byte _ _ _ hj]
    simp [hne]

theorem take_eq_of_bits {s t : List UInt8} {n : ℕ} (hs : n ≤ s.length) (ht : n ≤ t.length)
    (h : ∀ i < 8 * n, bit s i = bit t i) : s.take n = t.take n := by
  apply List.ext_getElem
  · simp only [List.length_take]
    omega
  · intro i hi _
    have hin : i < n := lt_of_lt_of_le hi (List.length_take_le n s)
    simp only [List.getElem_take]
    apply UInt8.toNat_inj.mp
    apply Nat.eq_of_testBit_eq
    intro k
    by_cases hk : k < 8
    · have hbyte : (8 * i + k) / 8 = i := by omega
      have hbit := h (8 * i + k) (by omega)
      rw [bit_of_getElem? (b := s[i]) (by rw [hbyte]; exact List.getElem?_eq_getElem _),
        bit_of_getElem? (b := t[i]) (by rw [hbyte]; exact List.getElem?_eq_getElem _)] at hbit
      rwa [show (8 * i + k) % 8 = k by omega] at hbit
    · have hpow : 2 ^ 8 ≤ 2 ^ k := Nat.pow_le_pow_right (by norm_num) (by omega)
      rw [Nat.testBit_lt_two_pow (lt_of_lt_of_le s[i].toNat_lt hpow),
        Nat.testBit_lt_two_pow (lt_of_lt_of_le t[i].toNat_lt hpow)]

end Mcsos.BitTable
