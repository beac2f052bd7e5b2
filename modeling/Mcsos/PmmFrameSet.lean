import Mcsos.WordArithmetic
import Mcsos.BitTable
import Mcsos.PmmState

/-!
# The set of free frames behind the bitmap

`Represents pmm F` says that a state stores the finite set `F` of free frame numbers:
the bitmap, both counters and the search hint agree with `F`. Every marking operation of
the allocator is shown to be an operation on `F`, together with the bookkeeping it does
on the remaining fields.
-/

namespace Mcsos.Pmm
open BoundedLoop BitTable WordArithmetic

theorem pmmPageSize_toNat : pmmPageSize.toNat = 4096 := rfl

theorem alignDown_toNat (v : UInt64) : (alignDown v pmmPageSize).toNat = v.toNat / 4096 * 4096 :=
  toNat_and_not_low v pmmPageSize 12 rfl

theorem alignUp_toNat (v : UInt64) :
    (alignUp v pmmPageSize).toNat = (v.toNat + 4095) % 2 ^ 64 / 4096 * 4096 := by
  have hadd : (v + pmmPageSize - 1).toNat = (v.toNat + 4095) % 2 ^ 64 := by
    rw [UInt64.toNat_sub, UInt64.toNat_add, pmmPageSize_toNat, UInt64.toNat_one]
    omega
  rw [alignUp, toNat_and_not_low _ pmmPageSize 12 rfl, hadd]
  rfl

theorem checkedAddU64_eq (a b : UInt64) :
    checkedAddU64 a b = if a.toNat + b.toNat < 2 ^ 64 then some (a + b) else none := by
  have ha := a.toNat_lt
  have hle : a ≤ 0xffffffffffffffff := by
    rw [UInt64.le_iff_toNat_le]
    change a.toNat ≤ 18446744073709551615
    omega
  have hsub : (0xffffffffffffffff - a).toNat = 18446744073709551615 - a.toNat := by
    rw [UInt64.toNat_sub_of_le _ _ hle]
    rfl
  by_cases h : a.toNat + b.toNat < 2 ^ 64
  · have hno : ¬ 0xffffffffffffffff - a < b := by
      rw [UInt64.lt_iff_toNat_lt, hsub]
      omega
    simp only [checkedAddU64, hno, h, ↓reduceIte]
  · have hyes : 0xffffffffffffffff - a < b := by
      rw [UInt64.lt_iff_toNat_lt, hsub]
      omega
    simp only [checkedAddU64, hyes, h, ↓reduceIte]

theorem aligned_iff (v : UInt64) : v &&& (pmmPageSize - 1) = 0 ↔ v.toNat % 4096 = 0 := by
  rw [eq_zero_iff, toNat_and_low v pmmPageSize 12 rfl]
  rfl

theorem byteIndex_toNat (i : UInt64) : (i >>> 3).toNat = i.toNat / 8 := by
  rw [UInt64.toNat_shiftRight]
  exact Nat.shiftRight_eq_div_pow i.toNat 3

theorem bitIndex_toNat (i : UInt64) : (i &&& 7).toUInt8.toNat = i.toNat % 8 := by
  have hand : (i &&& 7).toNat = i.toNat % 8 := toNat_and_low i 8 3 rfl
  rw [UInt64.toNat_toUInt8, hand]
  omega

theorem bitmapTest_eq {bitmap : List UInt8} {i : UInt64} (h : i.toNat / 8 < bitmap.length) :
    bitmapTest bitmap i = some (bit bitmap i.toNat) := by
  have hb := List.getElem?_eq_getElem h
  have hk : (i &&& 7).toUInt8.toNat < 8 := by
    rw [bitIndex_toNat]
    omega
  simp only [bitmapTest, byteIndex_toNat, hb]
  change some _ = _
  rw [and_mask_ne_zero _ _ hk, bitIndex_toNat, bit_of_getElem? hb]

theorem bitmapSet_eq {bitmap : List UInt8} {i : UInt64} (h : i.toNat / 8 < bitmap.length) :
    ∃ t, bitmapSet bitmap i = some t ∧ t.length = bitmap.length ∧
      ∀ j, bit t j = (bit bitmap j || decide (j = i.toNat)) := by
  have hb := List.getElem?_eq_getElem h
  refine ⟨_, by simp only [bitmapSet, byteIndex_toNat, hb]; rfl, List.length_set, fun j => ?_⟩
  exact bit_set_or_mask hb (bitIndex_toNat i) j

theorem bitmapClear_eq {bitmap : List UInt8} {i : UInt64} (h : i.toNat / 8 < bitmap.length) :
    ∃ t, bitmapClear bitmap i = some t ∧ t.length = bitmap.length ∧
      ∀ j, bit t j = (bit bitmap j && !decide (j = i.toNat)) := by
  have hb := List.getElem?_eq_getElem h
  refine ⟨_, by simp only [bitmapClear, byteIndex_toNat, hb]; rfl, List.length_set, fun j => ?_⟩
  exact bit_set_and_not_mask hb (bitIndex_toNat i) j

def freeSet (pmm : PmmState) : Finset ℕ :=
  (Finset.range pmm.frameCount.toNat).filter (fun f => bit pmm.bitmap f = false)

structure Represents (pmm : PmmState) (F : Finset ℕ) : Prop where
  phys : pmm.maxPhys.toNat = 4096 * pmm.frameCount.toNat
  bytes : pmm.bitmapBytes.toNat = (pmm.frameCount.toNat + 7) / 8
  stored : pmm.bitmapBytes.toNat ≤ pmm.bitmap.length
  mem_iff : ∀ f, f ∈ F ↔ f < pmm.frameCount.toNat ∧ bit pmm.bitmap f = false
  padding : ∀ i, pmm.frameCount.toNat ≤ i → i < 8 * pmm.bitmapBytes.toNat →
    bit pmm.bitmap i = true
  free_count : pmm.freeFrames.toNat = F.card
  used_count : pmm.usedFrames.toNat = pmm.frameCount.toNat - F.card
  hint_le : pmm.nextHint.toNat ≤ pmm.frameCount.toNat
  hint_low : ∀ f ∈ F, pmm.nextHint.toNat ≤ f

structure SameShape (p q : PmmState) : Prop where
  bytes : q.bitmapBytes = p.bitmapBytes
  phys : q.maxPhys = p.maxPhys
  count : q.frameCount = p.frameCount
  init : q.initialized = p.initialized

theorem SameShape.refl (p : PmmState) : SameShape p p := ⟨rfl, rfl, rfl, rfl⟩

theorem SameShape.trans {p q r : PmmState} (h : SameShape p q) (k : SameShape q r) :
    SameShape p r :=
  ⟨k.bytes.trans h.bytes, k.phys.trans h.phys, k.count.trans h.count, k.init.trans h.init⟩

theorem Represents.eq_freeSet {pmm : PmmState} {F : Finset ℕ} (h : Represents pmm F) :
    F = freeSet pmm := by
  ext f
  simp [h.mem_iff, freeSet]

/-- Two states agree in every field that initialisation reports and in every byte of
the bitmap proper. -/
structure Agree (p q : PmmState) : Prop where
  bytes : q.bitmapBytes = p.bitmapBytes
  phys : q.maxPhys = p.maxPhys
  count : q.frameCount = p.frameCount
  free : q.freeFrames = p.freeFrames
  used : q.usedFrames = p.usedFrames
  reserved : q.reservedFrames = p.reservedFrames
  ignored : q.ignoredFrames = p.ignoredFrames
  hint : q.nextHint = p.nextHint
  init : q.initialized = p.initialized
  bitmap : q.bitmap.take p.bitmapBytes.toNat = p.bitmap.take p.bitmapBytes.toNat

theorem Represents.subset_range {pmm : PmmState} {F : Finset ℕ} (h : Represents pmm F) :
    F ⊆ Finset.range pmm.frameCount.toNat := by
  intro f hf
  exact Finset.mem_range.mpr ((h.mem_iff f).mp hf).1

theorem Represents.card_le {pmm : PmmState} {F : Finset ℕ} (h : Represents pmm F) :
    F.card ≤ pmm.frameCount.toNat := by
  simpa using Finset.card_le_card h.subset_range

theorem Represents.count_lt {pmm : PmmState} {F : Finset ℕ} (h : Represents pmm F) :
    pmm.frameCount.toNat < 2 ^ 52 := by
  have hp := h.phys
  have hlt := pmm.maxPhys.toNat_lt
  omega

theorem Represents.byte_lt {pmm : PmmState} {F : Finset ℕ} (h : Represents pmm F) {f : ℕ}
    (hf : f < pmm.frameCount.toNat) : f / 8 < pmm.bitmap.length := by
  have hb := h.bytes
  have hs := h.stored
  omega

theorem Represents.bit_eq {pmm : PmmState} {F : Finset ℕ} (h : Represents pmm F) {i : ℕ}
    (hi : i < 8 * pmm.bitmapBytes.toNat) : bit pmm.bitmap i = decide (i ∉ F) := by
  have hmem := h.mem_iff i
  by_cases hlt : i < pmm.frameCount.toNat
  · cases hb : bit pmm.bitmap i <;> simp [hmem, hlt, hb]
  · rw [h.padding i (by omega) hi]
    simp [hmem, hlt]

theorem Represents.count_eq {p q : PmmState} {F G : Finset ℕ} (hp : Represents p F)
    (hq : Represents q G) (h : q.maxPhys = p.maxPhys) : q.frameCount = p.frameCount := by
  apply eq_of_toNat_eq
  have hp' := hp.phys
  have hq' := hq.phys
  rw [h] at hq'
  omega

theorem Represents.agree {p q : PmmState} {F : Finset ℕ} (hp : Represents p F)
    (hq : Represents q F) (hphys : q.maxPhys = p.maxPhys)
    (hres : q.reservedFrames = p.reservedFrames) (hign : q.ignoredFrames = p.ignoredFrames)
    (hhint : q.nextHint = p.nextHint) (hinit : q.initialized = p.initialized) : Agree p q := by
  have hcount := hp.count_eq hq hphys
  have hbytes : q.bitmapBytes = p.bitmapBytes := by
    apply eq_of_toNat_eq
    rw [hp.bytes, hq.bytes, hcount]
  have hstored := hq.stored
  rw [hbytes] at hstored
  constructor
  case bytes => exact hbytes
  case phys => exact hphys
  case count => exact hcount
  case free => exact eq_of_toNat_eq (hq.free_count.trans hp.free_count.symm)
  case used =>
    apply eq_of_toNat_eq
    rw [hp.used_count, hq.used_count, hcount]
  case reserved => exact hres
  case ignored => exact hign
  case hint => exact hhint
  case init => exact hinit
  case bitmap =>
    apply take_eq_of_bits hstored hp.stored
    intro i hi
    rw [hp.bit_eq hi, hq.bit_eq (by rwa [hbytes])]

@[simp] theorem Checked.assert_of {asserted : Bool} {c : Prop} [Decidable c] (h : c) :
    Checked.assert asserted c = some () := if_neg (fun hfail => hfail.2 h)

theorem Represents.inBitmap {pmm : PmmState} {F : Finset ℕ} (h : Represents pmm F) {f : UInt64}
    (hf : f.toNat < pmm.frameCount.toNat) : f >>> 3 < pmm.bitmapBytes := by
  have hbytes := h.bytes
  rw [UInt64.lt_iff_toNat_lt, byteIndex_toNat]
  omega

theorem Represents.test {pmm : PmmState} {F : Finset ℕ} (h : Represents pmm F) {f : UInt64}
    (hf : f.toNat < pmm.frameCount.toNat) (asserted : Bool) :
    Checked.bitmapTest asserted pmm f = some (decide (f.toNat ∉ F)) := by
  rw [Checked.bitmapTest, Checked.assert_of (h.inBitmap hf)]
  refine (bitmapTest_eq (h.byte_lt hf)).trans ?_
  cases hb : bit pmm.bitmap f.toNat <;> simp [h.mem_iff, hf, hb]

theorem toNat_sub_one {a : UInt64} (h : 0 < a.toNat) : (a - 1).toNat = a.toNat - 1 := by
  have hone : (1 : UInt64) ≤ a := UInt64.le_iff_toNat_le.mpr h
  exact UInt64.toNat_sub_of_le _ _ hone

theorem Represents.used_pos {p : PmmState} {F : Finset ℕ} (h : Represents p F) {f : ℕ}
    (hf : f < p.frameCount.toNat) (hmem : f ∉ F) : 0 < p.usedFrames.toNat := by
  have hsub : insert f F ⊆ Finset.range p.frameCount.toNat :=
    Finset.insert_subset (Finset.mem_range.mpr hf) h.subset_range
  have hcard := Finset.card_le_card hsub
  rw [Finset.card_insert_of_notMem hmem, Finset.card_range] at hcard
  have hused := h.used_count
  omega

theorem Represents.insertFrame {p : PmmState} {F : Finset ℕ} (h : Represents p F) {f : UInt64}
    (hf : f.toNat < p.frameCount.toNat) (hmem : f.toNat ∉ F) {t : List UInt8}
    (hlen : t.length = p.bitmap.length)
    (hbit : ∀ j, bit t j = (bit p.bitmap j && !decide (j = f.toNat))) :
    Represents
      { p with
        bitmap := t
        freeFrames := p.freeFrames + 1
        usedFrames := p.usedFrames - 1
        nextHint := if f < p.nextHint then f else p.nextHint }
      (insert f.toNat F) := by
  have hpos := h.used_pos hf hmem
  have hused := h.used_count
  have hfree := h.free_count
  have hlt := h.count_lt
  have hcard := Finset.card_insert_of_notMem hmem
  constructor
  case phys => exact h.phys
  case bytes => exact h.bytes
  case stored => exact hlen ▸ h.stored
  case mem_iff =>
    intro g
    simp only [Finset.mem_insert, hbit, h.mem_iff, Bool.and_eq_false_iff, Bool.not_eq_false',
      decide_eq_true_eq]
    constructor
    · rintro (rfl | ⟨hg, hb⟩)
      · exact ⟨hf, Or.inr rfl⟩
      · exact ⟨hg, Or.inl hb⟩
    · rintro ⟨hg, hb | rfl⟩
      · exact Or.inr ⟨hg, hb⟩
      · exact Or.inl rfl
  case padding =>
    intro i hi hi'
    have hne : i ≠ f.toNat := by rintro rfl; exact absurd hf (not_lt.mpr hi)
    simp only [hbit, h.padding i hi hi', hne, decide_false, Bool.not_false, Bool.and_true]
  case free_count =>
    rw [hcard, ← hfree]
    exact toNat_add_of_lt p.freeFrames 1 (by change p.freeFrames.toNat + 1 < 2 ^ 64; omega)
  case used_count =>
    change (p.usedFrames - 1).toNat = p.frameCount.toNat - _
    rw [toNat_sub_one hpos, hcard]
    omega
  case hint_le =>
    have hhint := h.hint_le
    dsimp only
    split_ifs <;> omega
  case hint_low =>
    simp only [Finset.mem_insert, UInt64.lt_iff_toNat_lt]
    rintro g (rfl | hg)
    · split_ifs <;> omega
    · have hlow := h.hint_low g hg
      split_ifs <;> omega

theorem markFrameFree_spec {p : PmmState} {F : Finset ℕ} (h : Represents p F) {f : UInt64}
    (hf : f.toNat < p.frameCount.toNat) :
    ∃ q, (∀ asserted, Checked.markFrameFree asserted p f = some q) ∧
      Represents q (insert f.toNat F) ∧ SameShape p q ∧
      q.reservedFrames = p.reservedFrames ∧ q.ignoredFrames = p.ignoredFrames ∧
      q.nextHint ≤ p.nextHint := by
  have hge : ¬ f ≥ p.frameCount := by
    rw [ge_iff_le, UInt64.le_iff_toNat_le]
    omega
  by_cases hmem : f.toNat ∈ F
  · refine ⟨p, ?_, by rwa [Finset.insert_eq_of_mem hmem], SameShape.refl p, rfl, rfl,
      UInt64.le_refl _⟩
    simp [Checked.markFrameFree, hge, h.test hf, hmem]
  · obtain ⟨t, ht, hlen, hbit⟩ := bitmapClear_eq (h.byte_lt hf)
    have hpos : p.usedFrames > 0 := UInt64.lt_iff_toNat_lt.mpr (h.used_pos hf hmem)
    have hclear : ∀ asserted, Checked.bitmapClear asserted p f = some t := by
      simp [Checked.bitmapClear, h.inBitmap hf, ht]
    have heq : ∀ asserted, Checked.markFrameFree asserted p f = some { p with
        bitmap := t
        freeFrames := p.freeFrames + 1
        usedFrames := p.usedFrames - 1
        nextHint := if f < p.nextHint then f else p.nextHint } := by
      simp [Checked.markFrameFree, hge, h.test hf, hmem, hclear, hpos]
    refine ⟨_, heq, h.insertFrame hf hmem hlen hbit, ⟨rfl, rfl, rfl, rfl⟩, rfl, rfl, ?_⟩
    dsimp only
    split_ifs with hlow
    · exact UInt64.le_of_lt hlow
    · exact UInt64.le_refl _

theorem Represents.free_pos {p : PmmState} {F : Finset ℕ} (h : Represents p F) {f : ℕ}
    (hmem : f ∈ F) : 0 < p.freeFrames.toNat := by
  rw [h.free_count]
  exact Finset.card_pos.mpr ⟨f, hmem⟩

theorem Represents.eraseFrame {p : PmmState} {F : Finset ℕ} (h : Represents p F) {f : UInt64}
    (hmem : f.toNat ∈ F) {t : List UInt8} (hlen : t.length = p.bitmap.length)
    (hbit : ∀ j, bit t j = (bit p.bitmap j || decide (j = f.toNat))) :
    Represents
      { p with
        bitmap := t
        freeFrames := p.freeFrames - 1
        usedFrames := p.usedFrames + 1 }
      (F.erase f.toNat) := by
  have hpos := h.free_pos hmem
  have hused := h.used_count
  have hfree := h.free_count
  have hle := h.card_le
  have hlt := h.count_lt
  have hcard := Finset.card_erase_of_mem hmem
  constructor
  case phys => exact h.phys
  case bytes => exact h.bytes
  case stored => exact hlen ▸ h.stored
  case mem_iff =>
    intro g
    simp only [Finset.mem_erase, hbit, h.mem_iff, Bool.or_eq_false_iff, decide_eq_false_iff_not]
    tauto
  case padding =>
    intro i hi hi'
    simp only [hbit, h.padding i hi hi', Bool.true_or]
  case free_count =>
    rw [hcard, ← hfree]
    exact toNat_sub_one hpos
  case used_count =>
    change (p.usedFrames + 1).toNat = p.frameCount.toNat - _
    have hsum : p.usedFrames.toNat + (1 : UInt64).toNat < 2 ^ 64 := by
      change p.usedFrames.toNat + 1 < 2 ^ 64
      omega
    rw [toNat_add_of_lt _ _ hsum, hcard]
    change p.usedFrames.toNat + 1 = _
    omega
  case hint_le => exact h.hint_le
  case hint_low => exact fun g hg => h.hint_low g (Finset.mem_of_mem_erase hg)

theorem markFrameUsed_spec {p : PmmState} {F : Finset ℕ} (h : Represents p F) {f : UInt64}
    (hf : f.toNat < p.frameCount.toNat) :
    ∃ q, (∀ asserted, Checked.markFrameUsed asserted p f = some q) ∧
      Represents q (F.erase f.toNat) ∧ SameShape p q ∧
      q.reservedFrames = p.reservedFrames ∧ q.ignoredFrames = p.ignoredFrames ∧
      q.nextHint = p.nextHint := by
  have hge : ¬ f ≥ p.frameCount := by
    rw [ge_iff_le, UInt64.le_iff_toNat_le]
    omega
  by_cases hmem : f.toNat ∈ F
  · obtain ⟨t, ht, hlen, hbit⟩ := bitmapSet_eq (h.byte_lt hf)
    have hpos : p.freeFrames > 0 := UInt64.lt_iff_toNat_lt.mpr (h.free_pos hmem)
    have hset : ∀ asserted, Checked.bitmapSet asserted p f = some t := by
      simp [Checked.bitmapSet, h.inBitmap hf, ht]
    have heq : ∀ asserted, Checked.markFrameUsed asserted p f = some { p with
        bitmap := t
        freeFrames := p.freeFrames - 1
        usedFrames := p.usedFrames + 1 } := by
      simp [Checked.markFrameUsed, hge, h.test hf, hmem, hset, hpos]
    exact ⟨_, heq, h.eraseFrame hmem hlen hbit, ⟨rfl, rfl, rfl, rfl⟩, rfl, rfl, rfl⟩
  · refine ⟨p, ?_, by rwa [Finset.erase_eq_of_notMem hmem], SameShape.refl p, rfl, rfl, rfl⟩
    simp [Checked.markFrameUsed, hge, h.test hf, hmem]

end Mcsos.Pmm
