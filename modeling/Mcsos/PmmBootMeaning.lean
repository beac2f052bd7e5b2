import Mcsos.PmmBootMap

/-!
# The boot map in bytes

The free frames after initialisation, described by the bytes of pages and regions:
a frame is free when its page lies in one usable region, meets no other region and is
not frame 0. The order of the regions does not matter; their granularity matters only to
the count of ignored frames.
-/

namespace Mcsos.Pmm
open BoundedLoop BitTable WordArithmetic

def pageBytes (f : ℕ) : Set ℕ := Set.Ico (4096 * f) (4096 * f + 4096)

def rangeBytes (base length : UInt64) : Set ℕ := Set.Ico base.toNat (base.toNat + length.toNat)

def BootMemRegion.bytes (r : BootMemRegion) : Set ℕ := rangeBytes r.base r.length

def Fits (base length : UInt64) : Prop := base.toNat + length.toNat ≤ 2 ^ 64 - 4096

theorem page_subset_iff (f : ℕ) (base length : UInt64) :
    pageBytes f ⊆ rangeBytes base length ↔
      base.toNat ≤ 4096 * f ∧ 4096 * f + 4096 ≤ base.toNat + length.toNat := by
  rw [pageBytes, rangeBytes, Set.Ico_subset_Ico_iff (by omega)]

theorem page_disjoint_iff (f : ℕ) (base length : UInt64) :
    Disjoint (pageBytes f) (rangeBytes base length) ↔
      length.toNat = 0 ∨ 4096 * f + 4096 ≤ base.toNat ∨
        base.toNat + length.toNat ≤ 4096 * f := by
  rw [pageBytes, rangeBytes, Set.Ico_disjoint_Ico]
  omega

theorem mem_freeSpan_iff {n f : ℕ} {base length : UInt64} (h : Fits base length) :
    f ∈ freeSpan n base.toNat length.toNat ↔ f < n ∧ pageBytes f ⊆ rangeBytes base length := by
  rw [page_subset_iff]
  unfold Fits at h
  unfold freeSpan
  split_ifs with hc
  · simp only [Finset.notMem_empty, false_iff]
    omega
  · rw [Finset.mem_Ico, lt_min_iff]
    omega

theorem mem_usedSpan_iff {n f : ℕ} {base length : UInt64} (h : Fits base length) :
    f ∈ usedSpan n base.toNat length.toNat ↔
      f < n ∧ ¬ Disjoint (pageBytes f) (rangeBytes base length) := by
  rw [page_disjoint_iff]
  unfold Fits at h
  unfold usedSpan
  split_ifs with hc
  · simp only [Finset.notMem_empty, false_iff]
    omega
  · rw [Finset.mem_Ico, lt_min_iff]
    omega

theorem mem_bootSet_iff {n f : ℕ} {regions : List BootMemRegion}
    (hfit : ∀ r ∈ regions, Fits r.base r.length) :
    f ∈ bootSet n regions ↔ f < n ∧ f ≠ 0 ∧
      (∃ r ∈ regions, r.type = bootMemUsable ∧ pageBytes f ⊆ r.bytes) ∧
      ∀ r ∈ regions, r.type ≠ bootMemUsable → Disjoint (pageBytes f) r.bytes := by
  have hzero : f ∈ usedSpan n 0 4096 ↔ f < n ∧ f = 0 := by
    rw [usedSpan, if_neg (by norm_num), Finset.mem_Ico, lt_min_iff]
    norm_num
    exact And.comm
  simp only [bootSet, Finset.mem_sdiff, mem_freeSpans, mem_usedSpans, hzero, not_exists, not_and]
  constructor
  · rintro ⟨⟨⟨r, hr, hu, hf⟩, hne⟩, hused⟩
    obtain ⟨hlt, hsub⟩ := (mem_freeSpan_iff (hfit r hr)).mp hf
    refine ⟨hlt, hne hlt, ⟨r, hr, hu, hsub⟩, fun s hs hs' => ?_⟩
    by_contra hmeet
    exact hused s hs hs' ((mem_usedSpan_iff (hfit s hs)).mpr ⟨hlt, hmeet⟩)
  · rintro ⟨hlt, hne, ⟨r, hr, hu, hsub⟩, hdis⟩
    refine ⟨⟨⟨r, hr, hu, (mem_freeSpan_iff (hfit r hr)).mpr ⟨hlt, hsub⟩⟩, fun _ => hne⟩, ?_⟩
    intro s hs hs' hmem
    exact ((mem_usedSpan_iff (hfit s hs)).mp hmem).2 (hdis s hs hs')

theorem pmmIsFrameFree_eq {p : PmmState} {F : Finset ℕ} (h : Represents p F)
    (hinit : p.initialized = true) (a : UInt64) (asserted : Bool) :
    Checked.pmmIsFrameFree asserted p a =
      some (decide (a.toNat % 4096 = 0 ∧ a.toNat / 4096 ∈ F)) := by
  have hphys := h.phys
  by_cases hbad : a &&& (pmmPageSize - 1) ≠ 0 ∨ a ≥ p.maxPhys
  · have hno : ¬ (a.toNat % 4096 = 0 ∧ a.toNat / 4096 ∈ F) := by
      rintro ⟨halign, hmem⟩
      have hlt := ((h.mem_iff _).mp hmem).1
      rw [Ne, aligned_iff, ge_iff_le, UInt64.le_iff_toNat_le] at hbad
      omega
    simp [Checked.pmmIsFrameFree, hinit, hbad, hno]
  · have hgood := hbad
    rw [not_or, not_not, aligned_iff, ge_iff_le, UInt64.le_iff_toNat_le] at hgood
    have htest := h.test (f := a / pmmPageSize) (by rw [page_toNat]; omega) asserted
    rw [page_toNat] at htest
    simp only [Checked.pmmIsFrameFree, hinit, hbad, htest, hgood.1]
    simp

def frameIsFree (p : PmmState) (f : ℕ) : Prop :=
  pmmIsFrameFree p (UInt64.ofNat (4096 * f)) = some true

instance (p : PmmState) : DecidablePred (frameIsFree p) := fun f =>
  inferInstanceAs (Decidable (pmmIsFrameFree p (UInt64.ofNat (4096 * f)) = some true))

theorem frameIsFree_iff {p : PmmState} {F : Finset ℕ} (h : Represents p F)
    (hinit : p.initialized = true) {f : ℕ} (hf : f < p.frameCount.toNat) :
    frameIsFree p f ↔ f ∈ F := by
  have hcount := h.count_lt
  rw [frameIsFree, pmmIsFrameFree, pmmIsFrameFree_eq h hinit, toNat_ofNat_of_lt (by omega)]
  have hdiv : 4096 * f / 4096 = f := by omega
  simp [hdiv]

/-- After a successful initialisation a managed frame is free exactly when it is not
frame 0, its page lies in a single usable region, and no byte of it belongs to another
region; both counters are exact. -/
theorem boot_map_exact {pmm p : PmmState} {regions : List BootMemRegion} {storage : List UInt8}
    {storageBytes maxPhysBytes : UInt64} (hstore : storageBytes.toNat ≤ storage.length)
    (hfit : ∀ r ∈ regions, r.base.toNat + r.length.toNat ≤ 2 ^ 64 - 4096)
    (hinit : pmmInitFromMap pmm (some regions) (some storage) storageBytes maxPhysBytes =
      some (true, p)) :
    (∀ f < p.frameCount.toNat, frameIsFree p f ↔ f ≠ 0 ∧
      (∃ r ∈ regions, r.type = bootMemUsable ∧ pageBytes f ⊆ r.bytes) ∧
      ∀ r ∈ regions, r.type ≠ bootMemUsable → ∀ a ∈ pageBytes f, a ∉ r.bytes) ∧
    p.frameCount.toNat = maxPhysBytes.toNat / 4096 ∧
    p.freeFrames.toNat =
      ((Finset.range p.frameCount.toNat).filter (fun f => frameIsFree p f)).card ∧
    p.usedFrames.toNat =
      ((Finset.range p.frameCount.toNat).filter (fun f => ¬ frameIsFree p f)).card := by
  obtain ⟨rs, hrs, hb⟩ := booted_of_init
    (fun bytes hbytes => by cases hbytes; exact hstore) hinit
  cases hrs
  have hset : (Finset.range p.frameCount.toNat).filter (fun f => frameIsFree p f) =
      bootSet p.frameCount.toNat regions := by
    ext f
    rw [Finset.mem_filter, Finset.mem_range]
    constructor
    · rintro ⟨hf, hfree⟩
      exact (frameIsFree_iff hb.rep hb.init hf).mp hfree
    · intro hf
      have hlt := ((hb.rep.mem_iff f).mp hf).1
      exact ⟨hlt, (frameIsFree_iff hb.rep hb.init hlt).mpr hf⟩
  refine ⟨fun f hf => ?_, ?_, ?_, ?_⟩
  · rw [frameIsFree_iff hb.rep hb.init hf, mem_bootSet_iff hfit]
    simp only [hf, true_and, Set.disjoint_left]
  · have hphys := hb.rep.phys
    rw [hb.phys] at hphys
    omega
  · rw [hset, hb.rep.free_count]
  · have hsplit := Finset.card_filter_add_card_filter_not
      (s := Finset.range p.frameCount.toNat) (frameIsFree p)
    rw [hset, Finset.card_range] at hsplit
    rw [hb.rep.used_count]
    omega

def sampleMap : List BootMemRegion := [⟨0, 0x4000, 1⟩, ⟨0x2000, 0x1000, 2⟩]

def sampleState : PmmState :=
  { bitmap := [0xf5], bitmapBytes := 1, maxPhys := 0x4000, frameCount := 4, freeFrames := 2,
    usedFrames := 2, reservedFrames := 2, ignoredFrames := 0, nextHint := 0, initialized := true }

theorem sample_boots :
    pmmInitFromMap pmmZeroState (some sampleMap) (some [0]) 1 0x4000 =
      some (true, sampleState) := by
  decide +kernel

theorem boot_map_exact_sample :
    pmmInitFromMap pmmZeroState (some sampleMap) (some [0]) 1 0x4000 = some (true, sampleState) ∧
    (frameIsFree sampleState 1 ↔ 1 ≠ 0 ∧
      (∃ r ∈ sampleMap, r.type = bootMemUsable ∧ pageBytes 1 ⊆ r.bytes) ∧
      ∀ r ∈ sampleMap, r.type ≠ bootMemUsable → ∀ a ∈ pageBytes 1, a ∉ r.bytes) ∧
    frameIsFree sampleState 1 ∧ ¬ frameIsFree sampleState 2 := by
  have hfit : ∀ r ∈ sampleMap, r.base.toNat + r.length.toNat ≤ 2 ^ 64 - 4096 := by
    decide
  have h := boot_map_exact (by decide) hfit sample_boots
  exact ⟨sample_boots, h.1 1 (by decide), by decide +kernel, by decide +kernel⟩

/-- A map accepted in one order is accepted in every order, and boots into the same
state whatever the storage held before. -/
theorem boot_map_order_independent {pmm pmm' p : PmmState} {regions regions' : List BootMemRegion}
    {storage storage' : List UInt8} {storageBytes maxPhysBytes : UInt64}
    (hperm : regions.Perm regions') (hstore : storageBytes.toNat ≤ storage.length)
    (hstore' : storageBytes.toNat ≤ storage'.length)
    (hinit : pmmInitFromMap pmm (some regions) (some storage) storageBytes maxPhysBytes =
      some (true, p)) :
    ∃ q, pmmInitFromMap pmm' (some regions') (some storage') storageBytes maxPhysBytes =
      some (true, q) ∧ Agree p q := by
  obtain ⟨rs, hrs, hp⟩ := booted_of_init
    (fun bytes hbytes => by cases hbytes; exact hstore) hinit
  cases hrs
  obtain ⟨q, hq, hbq⟩ :=
    pmmInitFromMap_of_accepted pmm' hstore' ((accepted_of_init hinit).perm hperm)
  exact ⟨q, hq false, hp.agree hbq hperm⟩

theorem boot_map_order_independent_sample :
    pmmInitFromMap pmmZeroState (some sampleMap) (some [0]) 1 0x4000 = some (true, sampleState) ∧
    ∃ q, pmmInitFromMap sampleState (some sampleMap.reverse) (some [0x5a, 7]) 1 0x4000 =
      some (true, q) ∧ Agree sampleState q :=
  ⟨sample_boots, boot_map_order_independent (List.reverse_perm _).symm (by decide) (by decide)
    sample_boots⟩

theorem freeSpan_inside {n : ℕ} {base length : UInt64}
    (h : base.toNat ≤ 2 ^ 64 - 4096 ∨ length = 0) :
    ∀ f ∈ freeSpan n base.toNat length.toNat, pageBytes f ⊆ rangeBytes base length := by
  intro f hf
  rw [page_subset_iff]
  rw [eq_zero_iff] at h
  unfold freeSpan at hf
  split_ifs at hf with hc
  · simp at hf
  · rw [Finset.mem_Ico, lt_min_iff] at hf
    omega

theorem freeSpan_wrapped {n : ℕ} {base length : UInt64} (hn : n < 2 ^ 52)
    (hsum : base.toNat + length.toNat < 2 ^ 64) (hbase : 2 ^ 64 - 4096 < base.toNat)
    (hlen : length ≠ 0) : freeSpan n base.toNat length.toNat = Finset.range n := by
  rw [Ne, eq_zero_iff] at hlen
  ext f
  rw [freeSpan, if_neg (by omega), Finset.mem_Ico, lt_min_iff, Finset.mem_range]
  omega

def FreesOnlyInside (p q : PmmState) (base length : UInt64) : Prop :=
  ∀ f < 8 * p.bitmapBytes.toNat, bit p.bitmap f = true → bit q.bitmap f = false →
    pageBytes f ⊆ rangeBytes base length

theorem freesOnlyInside_iff {p q : PmmState} {F : Finset ℕ} {base length : UInt64}
    (h : Represents p F) (hbytes : q.bitmapBytes = p.bitmapBytes)
    (hq : Represents q (F ∪ freeSpan p.frameCount.toNat base.toNat length.toNat)) :
    FreesOnlyInside p q base length ↔
      ∀ f ∈ freeSpan p.frameCount.toNat base.toNat length.toNat, f ∉ F →
        pageBytes f ⊆ rangeBytes base length := by
  have hp := h.bytes
  constructor
  · intro hin f hf hnew
    have hlt := (hq.mem_iff f).mp (Finset.mem_union_right _ hf)
    have hcount : q.frameCount.toNat ≤ 8 * p.bitmapBytes.toNat := by
      have hqb := hq.bytes
      rw [hbytes] at hqb
      omega
    have hbit : f < 8 * p.bitmapBytes.toNat := by omega
    apply hin f hbit
    · simpa [h.bit_eq hbit] using hnew
    · exact hlt.2
  · intro hin f hbit hused hfree
    rw [h.bit_eq hbit, decide_eq_true_eq] at hused
    rw [hq.bit_eq (by rwa [hbytes]), decide_eq_false_iff_not, not_not, Finset.mem_union] at hfree
    exact hin f (hfree.resolve_left hused) hused

/-- While a usable region is processed, only bits of pages inside it are cleared, unless it
starts in the last page of the address space: then every managed frame is freed. -/
theorem usable_region_frees_inside_iff {p : PmmState} {F : Finset ℕ} (h : Represents p F)
    {base length : UInt64} (hsum : base.toNat + length.toNat < 2 ^ 64) :
    ∃ q, markRangeFree p base length = some q ∧
      (FreesOnlyInside p q base length ↔ base.toNat ≤ 2 ^ 64 - 4096 ∨ length = 0 ∨
        ∀ f < p.frameCount.toNat, bit p.bitmap f = false) := by
  obtain ⟨q, hq, hrep, hsh, -⟩ := markRangeFree_spec h base length
  refine ⟨q, hq false, ?_⟩
  rw [freesOnlyInside_iff h hsh.bytes hrep]
  by_cases hcond : base.toNat ≤ 2 ^ 64 - 4096 ∨ length = 0
  · simp only [← or_assoc, hcond, true_or, iff_true]
    exact fun f hf _ => freeSpan_inside hcond f hf
  · rw [not_or, not_le] at hcond
    have hcount := h.count_lt
    rw [freeSpan_wrapped hcount hsum hcond.1 hcond.2]
    constructor
    · intro hin
      refine Or.inr (Or.inr fun f hf => ((h.mem_iff f).mp ?_).2)
      by_contra hused
      have hsub := hin f (Finset.mem_range.mpr hf) hused
      rw [page_subset_iff] at hsub
      omega
    · intro hfree f hf hused
      rcases hfree with hle | hz | hfree
      · exact absurd hle (not_le.mpr hcond.1)
      · exact absurd hz hcond.2
      · have hlt := Finset.mem_range.mp hf
        exact absurd ((h.mem_iff f).mpr ⟨hlt, hfree f hlt⟩) hused

theorem blank_four_represents : Represents (blankState [0xff] 1 0x4000 4) ∅ := by
  apply blank_represents
  · decide
  · decide
  · decide
  · decide

theorem usable_region_frees_inside_iff_sample :
    Represents (blankState [0xff] 1 0x4000 4) ∅ ∧
    ∃ q, markRangeFree (blankState [0xff] 1 0x4000 4) 0x1800 0x2000 = some q ∧
      (FreesOnlyInside (blankState [0xff] 1 0x4000 4) q 0x1800 0x2000 ↔
        (0x1800 : UInt64).toNat ≤ 2 ^ 64 - 4096 ∨ (0x2000 : UInt64) = 0 ∨
          ∀ f < (4 : UInt64).toNat, bit [0xff] f = false) :=
  ⟨blank_four_represents, usable_region_frees_inside_iff blank_four_represents (by decide)⟩

def wrappedState : PmmState :=
  -- The state in which a map with one usable byte in the last page of the address space boots:
  -- every managed frame except frame 0 is free.
  { sampleState with
    bitmap := [0xf1], freeFrames := 3, usedFrames := 1, reservedFrames := 1,
    ignoredFrames := 0xffffffffffffb }

def wrappedRegion : PmmState :=
  { blankState [0xf0] 1 0x4000 4 with
    freeFrames := 4, usedFrames := 0, ignoredFrames := 0xffffffffffffb }

theorem usable_region_frees_outside :
    (0xfffffffffffff001 : UInt64).toNat + (1 : UInt64).toNat < 2 ^ 64 ∧
    markRangeFree (blankState [0xff] 1 0x4000 4) 0xfffffffffffff001 1 =
      some wrappedRegion ∧
    ¬ FreesOnlyInside (blankState [0xff] 1 0x4000 4) wrappedRegion 0xfffffffffffff001 1 ∧
    pmmInitFromMap pmmZeroState (some [⟨0xfffffffffffff001, 1, 1⟩]) (some [0]) 1 0x4000 =
      some (true, wrappedState) ∧ frameIsFree wrappedState 1 := by
  refine ⟨by decide, by decide +kernel, ?_, by decide +kernel, by decide +kernel⟩
  intro h
  have hsub := h 1 (by decide) (by decide) (by decide)
  rw [page_subset_iff] at hsub
  exact absurd hsub (by decide)

section Splitting

def BootMemRegion.splitAt (r : BootMemRegion) (cut : UInt64) : List BootMemRegion :=
  [⟨r.base, cut - r.base, r.type⟩, ⟨cut, r.base + r.length - cut, r.type⟩]

structure CutsInside (r : BootMemRegion) (cut : UInt64) : Prop where
  aligned : cut.toNat % 4096 = 0
  low : r.base.toNat < cut.toNat
  high : cut.toNat < r.base.toNat + r.length.toNat

variable {r : BootMemRegion} {cut : UInt64}

theorem CutsInside.lengths (h : CutsInside r cut) (hfit : Fits r.base r.length) :
    (cut - r.base).toNat = cut.toNat - r.base.toNat ∧
      (r.base + r.length - cut).toNat = r.base.toNat + r.length.toNat - cut.toNat := by
  have hlow := h.low
  have hhigh := h.high
  unfold Fits at hfit
  have hlast := toNat_add_of_lt r.base r.length (by omega)
  constructor
  · exact UInt64.toNat_sub_of_le _ _ (UInt64.le_iff_toNat_le.mpr (by omega))
  · rw [UInt64.toNat_sub_of_le _ _ (UInt64.le_iff_toNat_le.mpr (by omega)), hlast]

theorem CutsInside.freeSpans_eq (h : CutsInside r cut) (hfit : Fits r.base r.length) (n : ℕ) :
    freeSpans n (r.splitAt cut) = freeSpans n [r] := by
  obtain ⟨hfirst, hsecond⟩ := h.lengths hfit
  have haligned := h.aligned
  have hlow := h.low
  have hhigh := h.high
  unfold Fits at hfit
  simp only [freeSpans, BootMemRegion.splitAt, hfirst, hsecond]
  split_ifs with husable
  · simp only [Finset.union_empty]
    rw [freeSpan, freeSpan, freeSpan, if_neg (by omega), if_neg (by omega), if_neg (by omega)]
    ext f
    simp only [Finset.mem_union, Finset.mem_Ico, lt_min_iff]
    omega
  · simp only [Finset.union_empty]

theorem CutsInside.usedSpans_eq (h : CutsInside r cut) (hfit : Fits r.base r.length) (n : ℕ) :
    usedSpans n (r.splitAt cut) = usedSpans n [r] := by
  obtain ⟨hfirst, hsecond⟩ := h.lengths hfit
  have haligned := h.aligned
  have hlow := h.low
  have hhigh := h.high
  unfold Fits at hfit
  simp only [usedSpans, BootMemRegion.splitAt, hfirst, hsecond]
  split_ifs with husable
  · simp only [Finset.union_empty]
    rw [usedSpan, usedSpan, usedSpan, if_neg (by omega), if_neg (by omega), if_neg (by omega)]
    ext f
    simp only [Finset.mem_union, Finset.mem_Ico, lt_min_iff]
    omega
  · simp only [Finset.union_empty]

theorem ignoredSpan_of_fits {n base length : ℕ} (hlength : length ≠ 0)
    (hfit : base + length ≤ 2 ^ 64 - 4096) :
    ignoredSpan n base length =
      if (base + 4095) / 4096 < n then (base + length) / 4096 - n else 0 := by
  rw [ignoredSpan, if_neg (by omega), Nat.mod_eq_of_lt (by omega)]

theorem CutsInside.ignoredSpans_eq (h : CutsInside r cut) (hfit : Fits r.base r.length) (n : ℕ) :
    ignoredSpans n [r] = ignoredSpans n (r.splitAt cut) +
      if r.type = bootMemUsable ∧ 4096 * n ≤ cut.toNat ∧ r.base.toNat + 4096 ≤ 4096 * n then
        (r.base.toNat + r.length.toNat - cut.toNat) / 4096
      else 0 := by
  obtain ⟨hfirst, hsecond⟩ := h.lengths hfit
  have haligned := h.aligned
  have hlow := h.low
  have hhigh := h.high
  unfold Fits at hfit
  simp only [ignoredSpans, BootMemRegion.splitAt, hfirst, hsecond]
  by_cases husable : r.type = bootMemUsable
  · simp only [husable, if_true, true_and]
    rw [ignoredSpan_of_fits (by omega) (by omega), ignoredSpan_of_fits (by omega) (by omega),
      ignoredSpan_of_fits (by omega) (by omega)]
    split_ifs <;> omega
  · simp only [husable, if_false, false_and]

end Splitting

theorem ofNat_add_eq_iff {a b : ℕ} (hb : b < 2 ^ 64) :
    UInt64.ofNat a = UInt64.ofNat (a + b) ↔ b = 0 := by
  rw [← UInt64.toNat_inj, UInt64.toNat_ofNat', UInt64.toNat_ofNat']
  omega

/-- A region of an accepted map is cut in two at a page boundary. The states differ at most in
the count of ignored frames, and they agree unless a usable region that has a page boundary
below `max_phys` is cut at or above `max_phys` with a whole page behind the cut. -/
theorem split_region_agree_iff {pmm p : PmmState} {pre post : List BootMemRegion}
    {r : BootMemRegion} {storage : List UInt8} {storageBytes maxPhysBytes cut : UInt64}
    (hstore : storageBytes.toNat ≤ storage.length)
    (hfit : ∀ s ∈ pre ++ r :: post, s.base.toNat + s.length.toNat ≤ 2 ^ 64 - 4096)
    (hinit : pmmInitFromMap pmm (some (pre ++ r :: post)) (some storage) storageBytes
      maxPhysBytes = some (true, p))
    (hcut : CutsInside r cut) :
    ∃ q, pmmInitFromMap pmm (some (pre ++ (r.splitAt cut ++ post))) (some storage) storageBytes
        maxPhysBytes = some (true, q) ∧
      Agree p { q with ignoredFrames := p.ignoredFrames } ∧
      (Agree p q ↔ r.type ≠ bootMemUsable ∨ cut < maxPhysBytes ∨
        maxPhysBytes.toNat < r.base.toNat + 4096 ∨
        r.base.toNat + r.length.toNat < cut.toNat + 4096) := by
  obtain ⟨rs, hrs, hp⟩ := booted_of_init
    (fun bytes hbytes => by cases hbytes; exact hstore) hinit
  cases hrs
  have hr : Fits r.base r.length := hfit r (by simp)
  have haccepted := accepted_of_init hinit
  obtain ⟨q, hq, hbq⟩ := pmmInitFromMap_of_accepted pmm hstore
    (⟨by simp [BootMemRegion.splitAt], haccepted.positive, haccepted.aligned, haccepted.room⟩ :
      Accepted (pre ++ (r.splitAt cut ++ post)) storageBytes maxPhysBytes)
  have hcons : pre ++ r :: post = pre ++ ([r] ++ post) := rfl
  have hfree : ∀ n, freeSpans n (pre ++ (r.splitAt cut ++ post)) =
      freeSpans n (pre ++ r :: post) := by
    intro n
    simp only [hcons, freeSpans_append, hcut.freeSpans_eq hr]
  have hused : ∀ n, usedSpans n (pre ++ (r.splitAt cut ++ post)) =
      usedSpans n (pre ++ r :: post) := by
    intro n
    simp only [hcons, usedSpans_append, hcut.usedSpans_eq hr]
  have hexcept := hp.agree_except_ignored hbq hfree hused
  refine ⟨q, hq false, hexcept, ?_⟩
  have hcount := hp.rep.count_eq hbq.rep (hbq.phys.trans hp.phys.symm)
  have hphys := hp.rep.phys
  rw [hp.phys] at hphys
  set n := p.frameCount.toNat with hn
  set lost := if r.type = bootMemUsable ∧ 4096 * n ≤ cut.toNat ∧
      r.base.toNat + 4096 ≤ 4096 * n then
    (r.base.toNat + r.length.toNat - cut.toNat) / 4096 else 0 with hlost
  -- the whole region counts what the pieces count and the frames that are lost
  have hsum : ignoredSpans n (pre ++ r :: post) =
      ignoredSpans n (pre ++ (r.splitAt cut ++ post)) + lost := by
    simp only [hcons, ignoredSpans_append, hcut.ignoredSpans_eq hr n, ← hlost]
    omega
  have hsmall : lost < 2 ^ 64 := by
    have hword := hr
    unfold Fits at hword
    split_ifs at hlost <;> omega
  rw [hexcept.iff_ignored, hbq.ignored, hp.ignored, hcount, ← hn, hsum, ofNat_add_eq_iff hsmall]
  have hhigh := hcut.high
  rw [UInt64.lt_iff_toNat_lt]
  by_cases husable : r.type = bootMemUsable
  · simp only [husable, true_and] at hlost
    simp only [husable, ne_eq, not_true_eq_false, false_or]
    split_ifs at hlost <;> omega
  · simp only [husable, false_and, if_false] at hlost
    simp only [hlost, husable, ne_eq, not_false_eq_true, true_or]

def fourFrameMap : List BootMemRegion := [⟨0, 0x6000, 1⟩, ⟨0x2000, 0x1000, 2⟩]

theorem split_region_agree_iff_sample :
    ∃ p q, pmmInitFromMap pmmZeroState (some fourFrameMap) (some [0]) 1 0x4000 =
        some (true, p) ∧
      pmmInitFromMap pmmZeroState
        (some [⟨0, 0x3000, 1⟩, ⟨0x3000, 0x3000, 1⟩, ⟨0x2000, 0x1000, 2⟩]) (some [0]) 1 0x4000 =
        some (true, q) ∧ Agree p q := by
  have hinit : pmmInitFromMap pmmZeroState (some fourFrameMap) (some [0]) 1 0x4000 =
      some (true, { sampleState with ignoredFrames := 2 }) := by
    decide +kernel
  obtain ⟨q, hq, -, hagree⟩ := @split_region_agree_iff _ _ [] _ _ _ _ _ _ (by decide)
    (by decide) hinit (⟨by decide, by decide, by decide⟩ : CutsInside ⟨0, 0x6000, 1⟩ 0x3000)
  exact ⟨_, q, hinit, hq, hagree.mpr (Or.inr (Or.inl (by decide)))⟩

def reachingState : PmmState :=
  { sampleState with
    bitmap := [0xf1], freeFrames := 3, usedFrames := 1, reservedFrames := 0, ignoredFrames := 4 }

theorem split_region_loses_ignored :
    pmmInitFromMap pmmZeroState (some [⟨0x1000, 0x7000, 1⟩]) (some [0]) 1 0x4000 =
      some (true, reachingState) ∧
    BootMemRegion.splitAt ⟨0x1000, 0x7000, 1⟩ 0x4000 = [⟨0x1000, 0x3000, 1⟩, ⟨0x4000, 0x4000, 1⟩] ∧
    CutsInside ⟨0x1000, 0x7000, 1⟩ 0x4000 ∧
    pmmInitFromMap pmmZeroState (some [⟨0x1000, 0x3000, 1⟩, ⟨0x4000, 0x4000, 1⟩]) (some [0]) 1
      0x4000 = some (true, { reachingState with ignoredFrames := 0 }) ∧
    ¬ Agree reachingState { reachingState with ignoredFrames := 0 } := by
  refine ⟨by decide +kernel, by decide, ⟨by decide, by decide, by decide⟩, by decide +kernel, ?_⟩
  intro h
  exact absurd h.ignored (by decide)

end Mcsos.Pmm
