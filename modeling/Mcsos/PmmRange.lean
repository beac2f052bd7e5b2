import Mcsos.PmmFrameSet

/-!
# Page-rounded ranges

A usable range frees the frames it contains entirely, a reserved range uses up every
frame it touches, both clamped at `max_phys`. `freeSpan` and `usedSpan` are the frame
numbers that the 64-bit roundings of `mark_range_free` and `mark_range_used` select,
wrap-around included; the loops are shown to add or remove exactly these frames.
-/

namespace Mcsos.Pmm
open BoundedLoop BitTable WordArithmetic

def freeSpan (frameCount base length : ℕ) : Finset ℕ :=
  if length = 0 ∨ 2 ^ 64 ≤ base + length then ∅
  else Finset.Ico ((base + 4095) % 2 ^ 64 / 4096) (min ((base + length) / 4096) frameCount)

def usedSpan (frameCount base length : ℕ) : Finset ℕ :=
  if length = 0 ∨ 2 ^ 64 ≤ base + length then ∅
  else Finset.Ico (base / 4096) (min ((base + length + 4095) % 2 ^ 64 / 4096) frameCount)

/-- The frames of a usable range above `max_phys`, counted only when the range starts
below it. -/
def ignoredSpan (frameCount base length : ℕ) : ℕ :=
  if length = 0 ∨ 2 ^ 64 ≤ base + length then 0
  else if (base + 4095) % 2 ^ 64 / 4096 < frameCount then (base + length) / 4096 - frameCount
  else 0

theorem page_toNat (addr : UInt64) : (addr / pmmPageSize).toNat = addr.toNat / 4096 := by
  rw [UInt64.toNat_div]
  rfl

theorem nextPage_toNat {addr : UInt64} (h : addr.toNat + 4096 < 2 ^ 64) :
    (addr + pmmPageSize).toNat = addr.toNat + 4096 :=
  toNat_add_of_lt addr pmmPageSize h

theorem union_Ico_succ (F : Finset ℕ) {i k : ℕ} (h : i ≤ k) :
    F ∪ Finset.Ico i (k + 1) = insert k (F ∪ Finset.Ico i k) := by
  ext x
  simp only [Finset.mem_union, Finset.mem_insert, Finset.mem_Ico]
  by_cases hx : x ∈ F
  · simp [hx]
  · simp only [hx, false_or]
    omega

theorem sdiff_Ico_succ (F : Finset ℕ) {i k : ℕ} (h : i ≤ k) :
    F \ Finset.Ico i (k + 1) = (F \ Finset.Ico i k).erase k := by
  ext x
  simp only [Finset.mem_sdiff, Finset.mem_erase, Finset.mem_Ico]
  by_cases hx : x ∈ F
  · simp only [hx, true_and]
    omega
  · simp [hx]

theorem card_inter_Ico_succ (F : Finset ℕ) {i k : ℕ} (h : i ≤ k) :
    (F ∩ Finset.Ico i (k + 1)).card = (F ∩ Finset.Ico i k).card + if k ∈ F then 1 else 0 := by
  rw [← Finset.insert_Ico_right_eq_Ico_add_one h]
  split_ifs with hk
  · rw [Finset.inter_insert_of_mem hk, Finset.card_insert_of_notMem (by simp)]
  · rw [Finset.inter_insert_of_notMem hk, Nat.add_zero]

theorem Represents.withReserved {p : PmmState} {F : Finset ℕ} (h : Represents p F) (n : UInt64) :
    Represents { p with reservedFrames := n } F :=
  ⟨h.phys, h.bytes, h.stored, h.mem_iff, h.padding, h.free_count, h.used_count, h.hint_le,
    h.hint_low⟩

theorem Represents.withIgnored {p : PmmState} {F : Finset ℕ} (h : Represents p F) (n : UInt64) :
    Represents { p with ignoredFrames := n } F :=
  ⟨h.phys, h.bytes, h.stored, h.mem_iff, h.padding, h.free_count, h.used_count, h.hint_le,
    h.hint_low⟩

/-- A loop over the pages from `start` to `stop`, with a property of the pages done so far. -/
theorem pageLoop_total {σ : Type} {body : Bool → σ × UInt64 → Option (Control (σ × UInt64) σ)}
    (I : ℕ → σ → Prop) {start stop : UInt64} {i j : ℕ} (hstart : start.toNat = 4096 * i)
    (hstop : stop.toNat = 4096 * j) (hij : i ≤ j) (hj : j < 2 ^ 52)
    (hstep : ∀ {k : ℕ} {s : σ} {a : UInt64}, i ≤ k → k < j → (a / pmmPageSize).toNat = k →
      a < stop → a < a + pmmPageSize → I k s →
      ∃ r, (∀ asserted, body asserted (s, a) = some (.next (r, a + pmmPageSize))) ∧ I (k + 1) r)
    (hdone : ∀ {s : σ} {a : UInt64}, ¬ a < stop →
      ∀ asserted, body asserted (s, a) = some (.done s))
    {s : σ} (hs : I i s) :
    ∃ r, (∀ asserted, loop (body asserted) wordFuel (s, start) = some r) ∧ I j r := by
  apply loop_total_family (fun s => ∃ k, i ≤ k ∧ k ≤ j ∧ s.2.toNat = 4096 * k ∧ I k s.1) _
    (fun s => stop.toNat - s.2.toNat)
  · rintro ⟨s, a⟩ ⟨k, hik, hkj, hak, hI⟩
    simp only at hak hI
    by_cases hcond : a < stop
    · right
      have hkj' : k < j := by
        rw [UInt64.lt_iff_toNat_lt] at hcond
        omega
      have hpage : (a / pmmPageSize).toNat = k := by
        rw [page_toNat]
        omega
      have hnext : (a + pmmPageSize).toNat = 4096 * (k + 1) := by
        rw [nextPage_toNat (by omega)]
        omega
      have hwrap : a < a + pmmPageSize := UInt64.lt_iff_toNat_lt.mpr (by omega)
      obtain ⟨r, hr, hI'⟩ := hstep hik hkj' hpage hcond hwrap hI
      refine ⟨_, hr, ⟨k + 1, by omega, by omega, hnext, hI'⟩, ?_⟩
      simp only [hnext]
      omega
    · left
      have hk : k = j := by
        rw [UInt64.lt_iff_toNat_lt] at hcond
        omega
      exact ⟨s, hdone hcond, hk ▸ hI⟩
  · exact ⟨i, le_rfl, hij, hstart, hs⟩
  · have hword := stop.toNat_lt
    simp only [wordFuel]
    omega

theorem freeRange_loop {p : PmmState} {F : Finset ℕ} (h : Represents p F) {addr stop : UInt64}
    {i j : ℕ} (haddr : addr.toNat = 4096 * i) (hstop : stop.toNat = 4096 * j) (hij : i ≤ j)
    (hj : j ≤ p.frameCount.toNat) :
    ∃ q, (∀ asserted, loop (Checked.freeRangeBody asserted stop) wordFuel (p, addr) = some q) ∧
      Represents q (F ∪ Finset.Ico i j) ∧ SameShape p q ∧
      q.reservedFrames = p.reservedFrames ∧ q.ignoredFrames = p.ignoredFrames ∧
      q.nextHint ≤ p.nextHint := by
  apply pageLoop_total (fun k q => Represents q (F ∪ Finset.Ico i k) ∧ SameShape p q ∧
    q.reservedFrames = p.reservedFrames ∧ q.ignoredFrames = p.ignoredFrames ∧
    q.nextHint ≤ p.nextHint) haddr hstop hij (hj.trans_lt h.count_lt)
  · rintro k r a hik hkj hpage hcond hwrap ⟨hr, hshape, hres, hign, hhint⟩
    have hin : (a / pmmPageSize).toNat < r.frameCount.toNat := by
      rw [hshape.count, hpage]
      omega
    obtain ⟨q, hq, hrep, hsh, hqr, hqi, hqh⟩ := markFrameFree_spec hr hin
    refine ⟨q, by simp [Checked.freeRangeBody, hcond, hq, hwrap], ?_, hshape.trans hsh,
      hqr.trans hres, hqi.trans hign, UInt64.le_trans hqh hhint⟩
    rw [union_Ico_succ F hik, ← hpage]
    exact hpage ▸ hrep
  · intro r a hcond
    simp [Checked.freeRangeBody, hcond]
  · exact ⟨by simpa using h, SameShape.refl p, rfl, rfl, UInt64.le_refl _⟩

theorem usedRange_loop {p : PmmState} {F : Finset ℕ} (h : Represents p F) {addr stop : UInt64}
    {i j : ℕ} (haddr : addr.toNat = 4096 * i) (hstop : stop.toNat = 4096 * j) (hij : i ≤ j)
    (hj : j ≤ p.frameCount.toNat) :
    ∃ q, (∀ asserted, loop (Checked.usedRangeBody asserted stop) wordFuel (p, addr) = some q) ∧
      Represents q (F \ Finset.Ico i j) ∧ SameShape p q ∧
      q.reservedFrames = p.reservedFrames + UInt64.ofNat (F ∩ Finset.Ico i j).card ∧
      q.ignoredFrames = p.ignoredFrames ∧ q.nextHint = p.nextHint := by
  apply pageLoop_total (fun k q => Represents q (F \ Finset.Ico i k) ∧ SameShape p q ∧
    q.reservedFrames = p.reservedFrames + UInt64.ofNat (F ∩ Finset.Ico i k).card ∧
    q.ignoredFrames = p.ignoredFrames ∧ q.nextHint = p.nextHint) haddr hstop hij
    (hj.trans_lt h.count_lt)
  · rintro k r a hik hkj hpage hcond hwrap ⟨hr, hshape, hres, hign, hhint⟩
    have hin : (a / pmmPageSize).toNat < r.frameCount.toNat := by
      rw [hshape.count, hpage]
      omega
    have hmem : (a / pmmPageSize).toNat ∈ F \ Finset.Ico i k ↔ k ∈ F := by
      simp [hpage]
    obtain ⟨q, hq, hrep, hsh, hqr, hqi, hqh⟩ := markFrameUsed_spec hr hin
    have hrep' : Represents q (F \ Finset.Ico i (k + 1)) := by
      rw [sdiff_Ico_succ F hik]
      exact hpage ▸ hrep
    have hstep : ∀ asserted, Checked.usedRangeBody asserted stop (r, a) = some (.next
        (if k ∈ F then { q with reservedFrames := q.reservedFrames + 1 } else q,
          a + pmmPageSize)) := by
      intro asserted
      simp only [Checked.usedRangeBody, hcond, ↓reduceIte, hr.test hin, hq, hmem,
        Checked.assert_of hwrap]
      by_cases hk : k ∈ F <;> simp [hk]
    refine ⟨_, hstep, ?_⟩
    rw [card_inter_Ico_succ F hik]
    split_ifs with hk
    · have hsh' := hshape.trans hsh
      refine ⟨hrep'.withReserved _, ⟨hsh'.bytes, hsh'.phys, hsh'.count, hsh'.init⟩, ?_,
        hqi.trans hign, hqh.trans hhint⟩
      simp only [hqr, hres, UInt64.ofNat_add]
      exact UInt64.add_assoc _ _ _
    · exact ⟨hrep', hshape.trans hsh, by simp only [Nat.add_zero, hqr, hres], hqi.trans hign,
        hqh.trans hhint⟩
  · intro r a hcond
    simp [Checked.usedRangeBody, hcond]
  · exact ⟨by simpa using h, SameShape.refl p, by simp, rfl, rfl⟩

theorem clamp_pages {α : Type} {start stop limit : UInt64} {i j n : ℕ}
    (hstart : start.toNat = 4096 * i) (hstop : stop.toNat = 4096 * j)
    (hlimit : limit.toNat = 4096 * n) (x y z : α) :
    (if stop ≤ start then x else if start ≥ limit then x else if stop > limit then y else z) =
      if j ≤ i ∨ n ≤ i then x else if n < j then y else z := by
  have hempty : stop ≤ start ↔ j ≤ i := by
    rw [UInt64.le_iff_toNat_le]
    omega
  have habove : start ≥ limit ↔ n ≤ i := by
    rw [ge_iff_le, UInt64.le_iff_toNat_le]
    omega
  have hclamp : stop > limit ↔ n < j := by
    rw [gt_iff_lt, UInt64.lt_iff_toNat_lt]
    omega
  simp only [hempty, habove, hclamp]
  split_ifs <;> first | rfl | omega

theorem markRangeFree_spec {p : PmmState} {F : Finset ℕ} (h : Represents p F)
    (base length : UInt64) :
    ∃ q, (∀ asserted, Checked.markRangeFree asserted p base length = some q) ∧
      Represents q (F ∪ freeSpan p.frameCount.toNat base.toNat length.toNat) ∧ SameShape p q ∧
      q.reservedFrames = p.reservedFrames ∧
      q.ignoredFrames = p.ignoredFrames +
        UInt64.ofNat (ignoredSpan p.frameCount.toNat base.toNat length.toNat) ∧
      q.nextHint ≤ p.nextHint := by
  -- every early return leaves the state alone and selects no frame
  have skip (hF : freeSpan p.frameCount.toNat base.toNat length.toNat = ∅)
      (hI : ignoredSpan p.frameCount.toNat base.toNat length.toNat = 0)
      (hr : ∀ asserted, Checked.markRangeFree asserted p base length = some p) :
      ∃ q, (∀ asserted, Checked.markRangeFree asserted p base length = some q) ∧
        Represents q (F ∪ freeSpan p.frameCount.toNat base.toNat length.toNat) ∧ SameShape p q ∧
        q.reservedFrames = p.reservedFrames ∧
        q.ignoredFrames = p.ignoredFrames +
          UInt64.ofNat (ignoredSpan p.frameCount.toNat base.toNat length.toNat) ∧
        q.nextHint ≤ p.nextHint :=
    ⟨p, hr, by simpa [hF] using h, SameShape.refl p, rfl, by simp [hI], UInt64.le_refl _⟩
  by_cases hzero : length = 0
  · exact skip (by simp [freeSpan, hzero]) (by simp [ignoredSpan, hzero])
      (by simp [Checked.markRangeFree, hzero])
  have hlen : length.toNat ≠ 0 := by rwa [Ne, ← eq_zero_iff]
  by_cases hover : base.toNat + length.toNat < 2 ^ 64
  swap
  · have hle : 2 ^ 64 ≤ base.toNat + length.toNat := by omega
    exact skip (by rw [freeSpan, if_pos (Or.inr hle)]) (by rw [ignoredSpan, if_pos (Or.inr hle)])
      (by simp only [Checked.markRangeFree, hzero, checkedAddU64_eq, hover, ↓reduceIte,
        implies_true])
  have hcond : ¬ (length.toNat = 0 ∨ 2 ^ 64 ≤ base.toNat + length.toNat) := by omega
  have hstart := (alignUp_toNat base).trans (Nat.mul_comm _ _)
  have hstop := (alignDown_toNat (base + length)).trans (Nat.mul_comm _ _)
  rw [toNat_add_of_lt base length hover] at hstop
  rw [freeSpan, ignoredSpan, if_neg hcond, if_neg hcond] at skip ⊢
  set i := (base.toNat + 4095) % 2 ^ 64 / 4096
  set j := (base.toNat + length.toNat) / 4096
  have hunfold : ∀ asserted, Checked.markRangeFree asserted p base length =
      if j ≤ i ∨ p.frameCount.toNat ≤ i then some p
      else if p.frameCount.toNat < j then
        loop (Checked.freeRangeBody asserted p.maxPhys) wordFuel
          ({ p with ignoredFrames := p.ignoredFrames +
            (alignDown (base + length) pmmPageSize - p.maxPhys) / pmmPageSize },
            alignUp base pmmPageSize)
      else loop (Checked.freeRangeBody asserted (alignDown (base + length) pmmPageSize)) wordFuel
        (p, alignUp base pmmPageSize) := by
    intro asserted
    simp only [Checked.markRangeFree, hzero, checkedAddU64_eq, hover, ↓reduceIte]
    exact clamp_pages hstart hstop h.phys _ _ _
  by_cases hnone : j ≤ i ∨ p.frameCount.toNat ≤ i
  · refine skip (Finset.Ico_eq_empty (by omega)) ?_
      (fun asserted => by rw [hunfold, if_pos hnone])
    split_ifs <;> omega
  have hbelow : i < p.frameCount.toNat := by omega
  simp only [hunfold, if_neg hnone, if_pos hbelow]
  by_cases hclamp : p.frameCount.toNat < j
  · have hdiff : (alignDown (base + length) pmmPageSize - p.maxPhys) / pmmPageSize =
        UInt64.ofNat (j - p.frameCount.toNat) := by
      have hle : p.maxPhys ≤ alignDown (base + length) pmmPageSize := by
        rw [UInt64.le_iff_toNat_le, hstop, h.phys]
        omega
      apply eq_of_toNat_eq
      rw [page_toNat, UInt64.toNat_sub_of_le _ _ hle, hstop, h.phys,
        toNat_ofNat_of_lt (by omega)]
      omega
    simp only [if_pos hclamp, hdiff, min_eq_right hclamp.le]
    obtain ⟨q, hq, hrep, hsh, hres, hign, hhint⟩ := freeRange_loop
      (h.withIgnored (p.ignoredFrames + UInt64.ofNat (j - p.frameCount.toNat))) hstart h.phys
      (by omega) le_rfl
    exact ⟨q, hq, hrep, ⟨hsh.bytes, hsh.phys, hsh.count, hsh.init⟩, hres, hign, hhint⟩
  · simp only [if_neg hclamp, min_eq_left (not_lt.mp hclamp),
      Nat.sub_eq_zero_of_le (not_lt.mp hclamp)]
    obtain ⟨q, hq, hrep, hsh, hres, hign, hhint⟩ :=
      freeRange_loop h hstart hstop (by omega) (by omega)
    exact ⟨q, hq, hrep, hsh, hres, by simpa using hign, hhint⟩

theorem markRangeUsed_spec {p : PmmState} {F : Finset ℕ} (h : Represents p F)
    (base length : UInt64) :
    ∃ q, (∀ asserted, Checked.markRangeUsed asserted p base length = some q) ∧
      Represents q (F \ usedSpan p.frameCount.toNat base.toNat length.toNat) ∧ SameShape p q ∧
      q.reservedFrames = p.reservedFrames +
        UInt64.ofNat (F ∩ usedSpan p.frameCount.toNat base.toNat length.toNat).card ∧
      q.ignoredFrames = p.ignoredFrames ∧ q.nextHint = p.nextHint := by
  have skip (hF : usedSpan p.frameCount.toNat base.toNat length.toNat = ∅)
      (hr : ∀ asserted, Checked.markRangeUsed asserted p base length = some p) :
      ∃ q, (∀ asserted, Checked.markRangeUsed asserted p base length = some q) ∧
        Represents q (F \ usedSpan p.frameCount.toNat base.toNat length.toNat) ∧ SameShape p q ∧
        q.reservedFrames = p.reservedFrames +
          UInt64.ofNat (F ∩ usedSpan p.frameCount.toNat base.toNat length.toNat).card ∧
        q.ignoredFrames = p.ignoredFrames ∧ q.nextHint = p.nextHint :=
    ⟨p, hr, by simpa [hF] using h, SameShape.refl p, by simp [hF], rfl, rfl⟩
  by_cases hzero : length = 0
  · exact skip (by simp [usedSpan, hzero]) (by simp [Checked.markRangeUsed, hzero])
  have hlen : length.toNat ≠ 0 := by rwa [Ne, ← eq_zero_iff]
  by_cases hover : base.toNat + length.toNat < 2 ^ 64
  swap
  · have hle : 2 ^ 64 ≤ base.toNat + length.toNat := by omega
    exact skip (by rw [usedSpan, if_pos (Or.inr hle)])
      (by simp only [Checked.markRangeUsed, hzero, checkedAddU64_eq, hover, ↓reduceIte,
        implies_true])
  have hcond : ¬ (length.toNat = 0 ∨ 2 ^ 64 ≤ base.toNat + length.toNat) := by omega
  have hstart := (alignDown_toNat base).trans (Nat.mul_comm _ _)
  have hstop := (alignUp_toNat (base + length)).trans (Nat.mul_comm _ _)
  rw [toNat_add_of_lt base length hover] at hstop
  rw [usedSpan, if_neg hcond] at skip ⊢
  set i := base.toNat / 4096
  set j := (base.toNat + length.toNat + 4095) % 2 ^ 64 / 4096
  have hunfold : ∀ asserted, Checked.markRangeUsed asserted p base length =
      if j ≤ i ∨ p.frameCount.toNat ≤ i then some p
      else if p.frameCount.toNat < j then
        loop (Checked.usedRangeBody asserted p.maxPhys) wordFuel (p, alignDown base pmmPageSize)
      else loop (Checked.usedRangeBody asserted (alignUp (base + length) pmmPageSize)) wordFuel
        (p, alignDown base pmmPageSize) := by
    intro asserted
    simp only [Checked.markRangeUsed, hzero, checkedAddU64_eq, hover, ↓reduceIte]
    exact clamp_pages hstart hstop h.phys _ _ _
  by_cases hnone : j ≤ i ∨ p.frameCount.toNat ≤ i
  · exact skip (Finset.Ico_eq_empty (by omega)) (fun asserted => by rw [hunfold, if_pos hnone])
  simp only [hunfold, if_neg hnone]
  by_cases hclamp : p.frameCount.toNat < j
  · simp only [if_pos hclamp, min_eq_right hclamp.le]
    exact usedRange_loop h hstart h.phys (by omega) le_rfl
  · simp only [if_neg hclamp, min_eq_left (not_lt.mp hclamp)]
    exact usedRange_loop h hstart hstop (by omega) (by omega)

end Mcsos.Pmm
