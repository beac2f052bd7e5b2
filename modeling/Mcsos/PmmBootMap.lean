import Mcsos.PmmRange

/-!
# What a boot map means

Initialisation marks every frame used, frees the pages contained in a usable region,
and then takes back frame 0 and every page touched by another region. The set of free
frames it leaves is computed here as a set expression over the region list, and then
read in terms of the bytes of pages and regions.
-/

namespace Mcsos.Pmm
open BoundedLoop BitTable WordArithmetic

def freeSpans (n : ℕ) : List BootMemRegion → Finset ℕ
  | [] => ∅
  | r :: rs =>
      (if r.type = bootMemUsable then freeSpan n r.base.toNat r.length.toNat else ∅) ∪
        freeSpans n rs

def usedSpans (n : ℕ) : List BootMemRegion → Finset ℕ
  | [] => ∅
  | r :: rs =>
      (if r.type ≠ bootMemUsable then usedSpan n r.base.toNat r.length.toNat else ∅) ∪
        usedSpans n rs

def ignoredSpans (n : ℕ) : List BootMemRegion → ℕ
  | [] => 0
  | r :: rs =>
      (if r.type = bootMemUsable then ignoredSpan n r.base.toNat r.length.toNat else 0) +
        ignoredSpans n rs

/-- The frames that initialisation leaves free. -/
def bootSet (n : ℕ) (regions : List BootMemRegion) : Finset ℕ :=
  (freeSpans n regions \ usedSpan n 0 4096) \ usedSpans n regions

theorem mem_freeSpans {n f : ℕ} {rs : List BootMemRegion} :
    f ∈ freeSpans n rs ↔
      ∃ r ∈ rs, r.type = bootMemUsable ∧ f ∈ freeSpan n r.base.toNat r.length.toNat := by
  induction rs with
  | nil => simp [freeSpans]
  | cons r rs ih =>
    by_cases h : r.type = bootMemUsable <;> simp [freeSpans, h, ih]

theorem mem_usedSpans {n f : ℕ} {rs : List BootMemRegion} :
    f ∈ usedSpans n rs ↔
      ∃ r ∈ rs, r.type ≠ bootMemUsable ∧ f ∈ usedSpan n r.base.toNat r.length.toNat := by
  induction rs with
  | nil => simp [usedSpans]
  | cons r rs ih =>
    by_cases h : r.type = bootMemUsable <;> simp [usedSpans, h, ih]

theorem freeSpans_append (n : ℕ) (rs rs' : List BootMemRegion) :
    freeSpans n (rs ++ rs') = freeSpans n rs ∪ freeSpans n rs' := by
  induction rs with
  | nil => simp [freeSpans]
  | cons r rs ih => rw [List.cons_append, freeSpans, freeSpans, ih, Finset.union_assoc]

theorem usedSpans_append (n : ℕ) (rs rs' : List BootMemRegion) :
    usedSpans n (rs ++ rs') = usedSpans n rs ∪ usedSpans n rs' := by
  induction rs with
  | nil => simp [usedSpans]
  | cons r rs ih => rw [List.cons_append, usedSpans, usedSpans, ih, Finset.union_assoc]

theorem ignoredSpans_append (n : ℕ) (rs rs' : List BootMemRegion) :
    ignoredSpans n (rs ++ rs') = ignoredSpans n rs + ignoredSpans n rs' := by
  induction rs with
  | nil => simp [ignoredSpans]
  | cons r rs ih => rw [List.cons_append, ignoredSpans, ignoredSpans, ih, Nat.add_assoc]

theorem freeSpans_perm (n : ℕ) {rs rs' : List BootMemRegion} (h : rs.Perm rs') :
    freeSpans n rs' = freeSpans n rs := by
  ext f
  simp only [mem_freeSpans, h.mem_iff]

theorem usedSpans_perm (n : ℕ) {rs rs' : List BootMemRegion} (h : rs.Perm rs') :
    usedSpans n rs' = usedSpans n rs := by
  ext f
  simp only [mem_usedSpans, h.mem_iff]

theorem ignoredSpans_perm (n : ℕ) {rs rs' : List BootMemRegion} (h : rs.Perm rs') :
    ignoredSpans n rs' = ignoredSpans n rs := by
  induction h with
  | nil => rfl
  | cons r _ ih => simp only [ignoredSpans, ih]
  | swap r r' rs => simp only [ignoredSpans, Nat.add_left_comm]
  | trans _ _ ih ih' => exact ih'.trans ih

theorem freeRegions_spec {p : PmmState} {F : Finset ℕ} (h : Represents p F)
    (rs : List BootMemRegion) :
    ∃ q, (∀ asserted, Checked.freeRegions asserted p rs = some q) ∧
      Represents q (F ∪ freeSpans p.frameCount.toNat rs) ∧ SameShape p q ∧
      q.reservedFrames = p.reservedFrames ∧
      q.ignoredFrames = p.ignoredFrames + UInt64.ofNat (ignoredSpans p.frameCount.toNat rs) ∧
      q.nextHint ≤ p.nextHint := by
  induction rs generalizing p F with
  | nil =>
    exact ⟨p, fun _ => rfl, by simpa [freeSpans] using h, SameShape.refl p, rfl,
      by simp [ignoredSpans], UInt64.le_refl _⟩
  | cons r rs ih =>
    by_cases hu : r.type = bootMemUsable
    · obtain ⟨q, hq, hrep, hsh, hres, hign, hhint⟩ := markRangeFree_spec h r.base r.length
      obtain ⟨t, ht, hrep', hsh', hres', hign', hhint'⟩ := ih hrep
      rw [hsh.count] at hrep' hign'
      refine ⟨t, by simp [Checked.freeRegions, hu, hq, ht], ?_, hsh.trans hsh',
        hres'.trans hres, ?_, UInt64.le_trans hhint' hhint⟩
      · simpa only [freeSpans, hu, ↓reduceIte, Finset.union_assoc] using hrep'
      · rw [hign', hign, ignoredSpans, if_pos hu, UInt64.ofNat_add, UInt64.add_assoc]
    · obtain ⟨t, ht, hrep', hsh', hres', hign', hhint'⟩ := ih h
      exact ⟨t, by simp [Checked.freeRegions, hu, ht], by simpa [freeSpans, hu] using hrep', hsh',
        hres', by simpa [ignoredSpans, hu] using hign', hhint'⟩

theorem useRegions_spec {p : PmmState} {F : Finset ℕ} (h : Represents p F)
    (rs : List BootMemRegion) :
    ∃ q, (∀ asserted, Checked.useRegions asserted p rs = some q) ∧
      Represents q (F \ usedSpans p.frameCount.toNat rs) ∧ SameShape p q ∧ q.reservedFrames =
        p.reservedFrames + UInt64.ofNat (F ∩ usedSpans p.frameCount.toNat rs).card ∧
      q.ignoredFrames = p.ignoredFrames ∧ q.nextHint = p.nextHint := by
  induction rs generalizing p F with
  | nil =>
    exact ⟨p, fun _ => rfl, by simpa [usedSpans] using h, SameShape.refl p, by simp [usedSpans],
      rfl, rfl⟩
  | cons r rs ih =>
    by_cases hu : r.type = bootMemUsable
    · obtain ⟨t, ht, hrep', hsh', hres', hign', hhint'⟩ := ih h
      exact ⟨t, by simp [Checked.useRegions, hu, ht], by simpa [usedSpans, hu] using hrep', hsh',
        by simpa [usedSpans, hu] using hres', hign', hhint'⟩
    · obtain ⟨q, hq, hrep, hsh, hres, hign, hhint⟩ := markRangeUsed_spec h r.base r.length
      obtain ⟨t, ht, hrep', hsh', hres', hign', hhint'⟩ := ih hrep
      rw [hsh.count] at hrep' hres'
      set A := usedSpan p.frameCount.toNat r.base.toNat r.length.toNat with hA
      set B := usedSpans p.frameCount.toNat rs with hB
      have hspan : usedSpans p.frameCount.toNat (r :: rs) = A ∪ B := by
        simp only [usedSpans, ne_eq, hu, not_false_eq_true, ↓reduceIte, hA, hB]
      -- each newly taken frame is counted once, by the first region that touches it
      have hcard : (F ∩ (A ∪ B)).card = (F ∩ A).card + ((F \ A) ∩ B).card := by
        rw [← Finset.card_union_of_disjoint]
        · congr 1
          ext x
          simp only [Finset.mem_inter, Finset.mem_union, Finset.mem_sdiff]
          tauto
        · rw [Finset.disjoint_left]
          intro x hx hy
          simp only [Finset.mem_inter, Finset.mem_sdiff] at hx hy
          exact hy.1.2 hx.2
      refine ⟨t, by simp [Checked.useRegions, hu, hq, ht], ?_, hsh.trans hsh', ?_, hign'.trans hign,
        hhint'.trans hhint⟩
      · rw [hspan, ← Finset.sup_eq_union, ← sdiff_sdiff_left]
        exact hrep'
      · rw [hres', hres, hspan, hcard, UInt64.ofNat_add, UInt64.add_assoc]

theorem fill_loop (storage : List UInt8) (count : UInt64) (h : count.toNat ≤ storage.length) :
    ∃ t, (∀ asserted, loop (Checked.fillBody asserted count) wordFuel (storage, 0) = some t) ∧
      t.length = storage.length ∧ ∀ i < count.toNat, t[i]? = some 0xff := by
  let I : List UInt8 × UInt64 → Prop := fun s => s.2.toNat ≤ count.toNat ∧
    s.1.length = storage.length ∧ ∀ i < s.2.toNat, s.1[i]? = some 0xff
  apply loop_total_family I _ (fun s => count.toNat - s.2.toNat)
  · rintro ⟨t, k⟩ ⟨hk, hlen, hff⟩
    simp only at hk hlen hff
    by_cases hcond : k < count
    · right
      have hlt : k.toNat < count.toNat := UInt64.lt_iff_toNat_lt.mp hcond
      have hword := count.toNat_lt
      have hnext : (k + 1).toNat = k.toNat + 1 := toNat_add_of_lt k 1 (by
        change k.toNat + 1 < 2 ^ 64
        omega)
      have hin : k.toNat < t.length := by omega
      have hwrap : k < k + 1 := UInt64.lt_iff_toNat_lt.mpr (by omega)
      refine ⟨(t.set k.toNat 0xff, k + 1), by simp [Checked.fillBody, hcond, hin, hwrap],
        ⟨?_, ?_, ?_⟩, ?_⟩
      · simp only [hnext]
        omega
      · simpa using hlen
      · intro i hi
        simp only [hnext] at hi
        by_cases hik : i = k.toNat
        · subst hik
          exact List.getElem?_set_self hin
        · rw [List.getElem?_set_ne (Ne.symm hik)]
          exact hff i (by omega)
      · simp only [hnext]
        omega
    · left
      have hge : count.toNat ≤ k.toNat := by
        rw [UInt64.lt_iff_toNat_lt] at hcond
        omega
      exact ⟨t, by simp [Checked.fillBody, hcond], hlen, fun i hi => hff i (by omega)⟩
  · exact ⟨Nat.zero_le _, rfl, fun i hi => absurd hi (Nat.not_lt_zero i)⟩
  · have hword := count.toNat_lt
    simp only [wordFuel]
    omega

theorem bit_of_ff {t : List UInt8} {n i : ℕ} (h : ∀ i < n, t[i]? = some 0xff) (hi : i < 8 * n) :
    bit t i = true := by
  rw [bit_of_getElem? (h (i / 8) (by omega))]
  have hlt : i % 8 < 8 := Nat.mod_lt i (by norm_num)
  generalize i % 8 = k at hlt
  interval_cases k <;> rfl

theorem blank_represents {storage : List UInt8} {frameCount bytes maxPhys : UInt64}
    (hphys : maxPhys.toNat = 4096 * frameCount.toNat)
    (hbytes : bytes.toNat = (frameCount.toNat + 7) / 8) (hstore : bytes.toNat ≤ storage.length)
    (hff : ∀ i < bytes.toNat, storage[i]? = some 0xff) :
    Represents (blankState storage bytes maxPhys frameCount) ∅ := by
  constructor
  case phys => exact hphys
  case bytes => exact hbytes
  case stored => exact hstore
  case mem_iff =>
    intro f
    simp only [Finset.notMem_empty, false_iff, not_and, Bool.not_eq_false]
    intro hf
    change f < frameCount.toNat at hf
    exact bit_of_ff hff (by omega)
  case padding => exact fun i _ hi => bit_of_ff hff hi
  case free_count => rfl
  case used_count => rfl
  case hint_le => exact Nat.zero_le _
  case hint_low => simp

structure Accepted (regions : List BootMemRegion) (storageBytes maxPhysBytes : UInt64) : Prop where
  nonempty : regions ≠ []
  positive : maxPhysBytes.toNat ≠ 0
  aligned : maxPhysBytes.toNat % 4096 = 0
  room : (maxPhysBytes.toNat / 4096 + 7) / 8 ≤ storageBytes.toNat

structure Booted (regions : List BootMemRegion) (maxPhysBytes : UInt64) (p : PmmState) : Prop where
  rep : Represents p (bootSet p.frameCount.toNat regions)
  init : p.initialized = true
  phys : p.maxPhys = maxPhysBytes
  reserved : p.reservedFrames =
    UInt64.ofNat (freeSpans p.frameCount.toNat regions ∩ usedSpan p.frameCount.toNat 0 4096).card +
    UInt64.ofNat ((freeSpans p.frameCount.toNat regions \ usedSpan p.frameCount.toNat 0 4096) ∩
      usedSpans p.frameCount.toNat regions).card
  ignored : p.ignoredFrames = UInt64.ofNat (ignoredSpans p.frameCount.toNat regions)
  hint : p.nextHint = 0

theorem pmmInitFromMap_of_accepted (pmm : PmmState) {regions : List BootMemRegion}
    {storage : List UInt8} {storageBytes maxPhysBytes : UInt64}
    (hstore : storageBytes.toNat ≤ storage.length)
    (h : Accepted regions storageBytes maxPhysBytes) :
    ∃ p, (∀ asserted, Checked.pmmInitFromMap asserted pmm (some regions) (some storage)
      storageBytes maxPhysBytes = some (true, p)) ∧ Booted regions maxPhysBytes p := by
  have hword := maxPhysBytes.toNat_lt
  have hne : ¬ (maxPhysBytes = 0 ∨ maxPhysBytes &&& (pmmPageSize - 1) ≠ 0) := by
    rw [eq_zero_iff, Ne, aligned_iff]
    exact not_or.mpr ⟨h.positive, not_not.mpr h.aligned⟩
  have hcount := page_toNat maxPhysBytes
  set n := maxPhysBytes / pmmPageSize with hn
  have hreq : ((n + 7) / 8).toNat = (n.toNat + 7) / 8 := by
    rw [UInt64.toNat_div, toNat_add_of_lt n 7 (by change n.toNat + 7 < 2 ^ 64; omega)]
    rfl
  have hroom : ¬ storageBytes < (n + 7) / 8 := by
    rw [UInt64.lt_iff_toNat_lt, hreq]
    have := h.room
    omega
  have hbytes : ((n + 7) / 8).toNat ≤ storage.length := by
    rw [UInt64.lt_iff_toNat_lt] at hroom
    omega
  obtain ⟨t, ht, hlen, hff⟩ := fill_loop storage ((n + 7) / 8) hbytes
  have hphys : maxPhysBytes.toNat = 4096 * n.toNat := by
    have := h.aligned
    omega
  have hblank := blank_represents hphys hreq (hlen ▸ hbytes) hff
  obtain ⟨p₁, h₁, r₁, s₁, res₁, ign₁, hint₁⟩ := freeRegions_spec hblank regions
  obtain ⟨p₂, h₂, r₂, s₂, res₂, ign₂, hint₂⟩ := markRangeUsed_spec r₁ 0 pmmPageSize
  obtain ⟨p₃, h₃, r₃, s₃, res₃, ign₃, hint₃⟩ := useRegions_spec r₂ regions
  have c₁ : p₁.frameCount = n := s₁.count
  have c₂ : p₂.frameCount = n := s₂.count.trans c₁
  have c₃ : p₃.frameCount = n := s₃.count.trans c₂
  have hz : (0 : UInt64).toNat = 0 := rfl
  simp only [Finset.empty_union, c₁, c₂, hz, pmmPageSize_toNat] at r₁ r₂ r₃ res₂ res₃ ign₁
  refine ⟨{ p₃ with initialized := true }, ?_, ?_⟩
  · intro asserted
    simp only [Checked.pmmInitFromMap, h.nonempty, hne, ← hn, hroom, ↓reduceIte, ht]
    simp [h₁, h₂, h₃]
  · constructor
    case rep =>
      have hrep : Represents p₃ (bootSet p₃.frameCount.toNat regions) := by
        rw [c₃]
        exact r₃
      exact ⟨hrep.phys, hrep.bytes, hrep.stored, hrep.mem_iff, hrep.padding, hrep.free_count,
        hrep.used_count, hrep.hint_le, hrep.hint_low⟩
    case init => rfl
    case phys => exact s₃.phys.trans (s₂.phys.trans s₁.phys)
    case reserved =>
      simp only [c₃]
      rw [res₃, res₂, res₁]
      simp [blankState, pmmZeroState]
    case ignored =>
      simp only [c₃]
      rw [ign₃, ign₂, ign₁]
      simp [blankState, pmmZeroState]
    case hint =>
      apply eq_of_toNat_eq
      have hle := UInt64.le_iff_toNat_le.mp hint₁
      simp only [hint₃, hint₂]
      exact Nat.le_zero.mp hle

theorem Accepted.perm {rs rs' : List BootMemRegion} {storageBytes maxPhysBytes : UInt64}
    (h : Accepted rs storageBytes maxPhysBytes) (hperm : rs.Perm rs') :
    Accepted rs' storageBytes maxPhysBytes :=
  ⟨fun hnil => h.nonempty (List.perm_nil.mp (hnil ▸ hperm)), h.positive, h.aligned, h.room⟩

theorem Booted.agree_except_ignored {rs rs' : List BootMemRegion} {maxPhysBytes : UInt64}
    {p q : PmmState} (hp : Booted rs maxPhysBytes p) (hq : Booted rs' maxPhysBytes q)
    (hfree : ∀ n, freeSpans n rs' = freeSpans n rs)
    (hused : ∀ n, usedSpans n rs' = usedSpans n rs) :
    Agree p { q with ignoredFrames := p.ignoredFrames } := by
  have hphys : q.maxPhys = p.maxPhys := hq.phys.trans hp.phys.symm
  have hcount := hp.rep.count_eq hq.rep hphys
  have hrep := hq.rep
  have hres := hq.reserved
  simp only [bootSet, hcount, hfree, hused] at hrep hres
  exact hp.rep.agree (hrep.withIgnored _) hphys (hres.trans hp.reserved.symm) rfl
    (hq.hint.trans hp.hint.symm) (hq.init.trans hp.init.symm)

theorem Agree.iff_ignored {p q : PmmState}
    (h : Agree p { q with ignoredFrames := p.ignoredFrames }) :
    Agree p q ↔ q.ignoredFrames = p.ignoredFrames := by
  constructor
  · exact Agree.ignored
  · intro heq
    rw [← heq] at h
    exact h

theorem Booted.agree {rs rs' : List BootMemRegion} {maxPhysBytes : UInt64} {p q : PmmState}
    (hp : Booted rs maxPhysBytes p) (hq : Booted rs' maxPhysBytes q) (hperm : rs.Perm rs') :
    Agree p q := by
  have hexcept := hp.agree_except_ignored hq (fun n => freeSpans_perm n hperm)
    (fun n => usedSpans_perm n hperm)
  have hcount := hp.rep.count_eq hq.rep (hq.phys.trans hp.phys.symm)
  rw [hexcept.iff_ignored, hp.ignored, hq.ignored, hcount, ignoredSpans_perm _ hperm]

theorem accepted_of_checks {regions : List BootMemRegion} {storageBytes maxPhysBytes : UInt64}
    (hnil : regions ≠ [])
    (hbad : ¬ (maxPhysBytes = 0 ∨ maxPhysBytes &&& (pmmPageSize - 1) ≠ 0))
    (hroom : ¬ storageBytes < (maxPhysBytes / pmmPageSize + 7) / 8) :
    Accepted regions storageBytes maxPhysBytes := by
  rw [not_or, eq_zero_iff, not_not, aligned_iff] at hbad
  refine ⟨hnil, hbad.1, hbad.2, ?_⟩
  have hword := maxPhysBytes.toNat_lt
  rw [UInt64.lt_iff_toNat_lt, UInt64.toNat_div, UInt64.toNat_add, page_toNat] at hroom
  change ¬ storageBytes.toNat < (maxPhysBytes.toNat / 4096 + 7) % 2 ^ 64 / 8 at hroom
  omega

theorem accepted_of_init {pmm p : PmmState} {regions : List BootMemRegion} {storage : List UInt8}
    {storageBytes maxPhysBytes : UInt64}
    (hinit : pmmInitFromMap pmm (some regions) (some storage) storageBytes maxPhysBytes =
      some (true, p)) : Accepted regions storageBytes maxPhysBytes := by
  simp only [Checked.pmmInitFromMap] at hinit
  split_ifs at hinit with hnil hbad hroom
  · simp at hinit
  · simp at hinit
  · simp at hinit
  · exact accepted_of_checks hnil hbad hroom

theorem booted_of_init {pmm p : PmmState} {regions : Option (List BootMemRegion)}
    {storage : Option (List UInt8)} {storageBytes maxPhysBytes : UInt64}
    (hstore : ∀ bytes, storage = some bytes → storageBytes.toNat ≤ bytes.length)
    (hinit : pmmInitFromMap pmm regions storage storageBytes maxPhysBytes = some (true, p)) :
    ∃ rs, regions = some rs ∧ Booted rs maxPhysBytes p := by
  rcases regions with _ | rs
  · simp [Checked.pmmInitFromMap] at hinit
  rcases storage with _ | bytes
  · simp [Checked.pmmInitFromMap] at hinit
  obtain ⟨q, hq, hb⟩ := pmmInitFromMap_of_accepted pmm (hstore bytes rfl) (accepted_of_init hinit)
  rw [pmmInitFromMap, hq] at hinit
  simp only [Option.some.injEq, Prod.mk.injEq, true_and] at hinit
  exact ⟨rs, rfl, hinit ▸ hb⟩

end Mcsos.Pmm
