import Mcsos.StepRun
import Mcsos.PmmBootMeaning

/-!
# The allocator refines a set of free frames

The abstract allocator holds one finite set of free frame numbers. It hands out the
least one, takes a frame back only if it is aligned, nonzero, managed and not free, and
drops the frames of a reserved range. Every call of the bitmap allocator gives the same
result and keeps the two related, so all runs observe the same values.
-/

namespace Mcsos.Pmm
open BoundedLoop BitTable WordArithmetic StepRun

inductive PmmCall where
  | allocFrame
  | freeFrame (physAddr : UInt64)
  | reserveRange (base length : UInt64)
  | isFrameFree (physAddr : UInt64)
  | freeCount
  | usedCount
deriving DecidableEq

inductive PmmResult where
  | addr (a : UInt64)
  | flag (b : Bool)
  | count (n : UInt64)
deriving DecidableEq

def Checked.pmmStep (asserted : Bool) (p : PmmState) : PmmCall → Option (PmmState × PmmResult)
  | .allocFrame => (Checked.pmmAllocFrame asserted p).map fun r => (r.2, .addr r.1)
  | .freeFrame a => (Checked.pmmFreeFrame asserted p a).map fun r => (r.2, .flag r.1)
  | .reserveRange base length =>
      (Checked.pmmReserveRange asserted p base length).map fun r => (r.2, .flag r.1)
  | .isFrameFree a => (Checked.pmmIsFrameFree asserted p a).map fun r => (p, .flag r)
  | .freeCount => some (p, .count (pmmFreeCount p))
  | .usedCount => some (p, .count (pmmUsedCount p))

abbrev pmmStep : PmmState → PmmCall → Option (PmmState × PmmResult) := Checked.pmmStep false

/-- The abstract allocator: a set of free frames below a fixed bound. -/
structure FrameSet where
  count : ℕ
  free : Finset ℕ
  below : ∀ f ∈ free, f < count

namespace FrameSet

def alloc (s : FrameSet) : FrameSet × UInt64 :=
  if h : s.free.Nonempty then
    ({ s with
        free := s.free.erase (s.free.min' h)
        below := fun f hf => s.below f (Finset.mem_of_mem_erase hf) },
      UInt64.ofNat (4096 * s.free.min' h))
  else (s, pmmInvalidFrame)

def Returnable (s : FrameSet) (a : UInt64) : Prop :=
  a.toNat % 4096 = 0 ∧ a.toNat ≠ 0 ∧ a.toNat < 4096 * s.count ∧ a.toNat / 4096 ∉ s.free

instance (s : FrameSet) (a : UInt64) : Decidable (s.Returnable a) :=
  inferInstanceAs (Decidable (_ ∧ _ ∧ _ ∧ _))

def giveBack (s : FrameSet) (a : UInt64) : FrameSet × Bool :=
  if h : s.Returnable a then
    ({ s with
        free := insert (a.toNat / 4096) s.free
        below := by
          intro f hf
          rcases Finset.mem_insert.mp hf with rfl | hf
          · have := h.2.2.1
            omega
          · exact s.below f hf }, true)
  else (s, false)

def reserve (s : FrameSet) (base length : UInt64) : FrameSet × Bool :=
  ({ s with
      free := s.free \ usedSpan s.count base.toNat length.toNat
      below := fun f hf => s.below f (Finset.mem_sdiff.mp hf).1 }, decide (length ≠ 0))

def isFree (s : FrameSet) (a : UInt64) : Bool :=
  decide (a.toNat % 4096 = 0 ∧ a.toNat / 4096 ∈ s.free)

def step (s : FrameSet) : PmmCall → FrameSet × PmmResult
  | .allocFrame => (s.alloc.1, .addr s.alloc.2)
  | .freeFrame a => ((s.giveBack a).1, .flag (s.giveBack a).2)
  | .reserveRange base length => ((s.reserve base length).1, .flag (s.reserve base length).2)
  | .isFrameFree a => (s, .flag (s.isFree a))
  | .freeCount => (s, .count (UInt64.ofNat s.free.card))
  | .usedCount => (s, .count (UInt64.ofNat (s.count - s.free.card)))

theorem step_count (s : FrameSet) (c : PmmCall) : (s.step c).1.count = s.count := by
  cases c with
  | allocFrame =>
    simp only [step, alloc]
    split_ifs <;> rfl
  | freeFrame a =>
    simp only [step, giveBack]
    split_ifs <;> rfl
  | reserveRange base length => rfl
  | isFrameFree a => rfl
  | freeCount => rfl
  | usedCount => rfl

theorem runTotal_count (s : FrameSet) (calls : List PmmCall) :
    (runTotal step s calls).1.count = s.count := by
  induction calls generalizing s with
  | nil => rfl
  | cons c calls ih => exact (ih _).trans (step_count s c)

end FrameSet

structure Refines (p : PmmState) (s : FrameSet) : Prop where
  init : p.initialized = true
  count : p.frameCount.toNat = s.count
  rep : Represents p s.free

theorem scan_loop {p : PmmState} {F : Finset ℕ} (h : Represents p F) (start : UInt64)
    {limit : UInt64} (hlimit : limit.toNat ≤ p.frameCount.toNat) :
    ∃ r, (∀ asserted, loop (Checked.scanBody asserted p limit) wordFuel start = some r) ∧
      match r with
      | some f => f.toNat ∈ F ∧ ∀ g ∈ F, start.toNat ≤ g → f.toNat ≤ g
      | none => ∀ g ∈ F, start.toNat ≤ g → limit.toNat ≤ g := by
  -- invariant: no free frame between the start and the current one
  let I : UInt64 → Prop := fun k =>
    start.toNat ≤ k.toNat ∧ ∀ g ∈ F, start.toNat ≤ g → k.toNat ≤ g
  apply loop_total_family I _ (fun k => limit.toNat - k.toNat)
  · rintro k ⟨hk, hlow⟩
    by_cases hcond : k < limit
    · have hlt : k.toNat < limit.toNat := UInt64.lt_iff_toNat_lt.mp hcond
      have htest := h.test (f := k) (by omega)
      by_cases hmem : k.toNat ∈ F
      · exact Or.inl ⟨some k, by simp [Checked.scanBody, hcond, htest, hmem], hmem, hlow⟩
      · right
        have hword := limit.toNat_lt
        have hnext : (k + 1).toNat = k.toNat + 1 := toNat_add_of_lt k 1 (by
          change k.toNat + 1 < 2 ^ 64
          omega)
        have hwrap : k < k + 1 := UInt64.lt_iff_toNat_lt.mpr (by omega)
        refine ⟨k + 1, by simp [Checked.scanBody, hcond, htest, hmem, hwrap],
          ⟨by omega, fun g hg hs => ?_⟩, by omega⟩
        have hle := hlow g hg hs
        have hne : k.toNat ≠ g := by rintro rfl; exact hmem hg
        omega
    · left
      have hge : limit.toNat ≤ k.toNat := by
        rw [UInt64.lt_iff_toNat_lt] at hcond
        omega
      exact ⟨none, by simp [Checked.scanBody, hcond], fun g hg hs => hge.trans (hlow g hg hs)⟩
  · exact ⟨le_rfl, fun g _ hs => hs⟩
  · have hword := limit.toNat_lt
    simp only [wordFuel]
    omega

theorem takeFrame_spec {p : PmmState} {F : Finset ℕ} (h : Represents p F) {f : UInt64}
    (hmem : f.toNat ∈ F) (hleast : ∀ g ∈ F, f.toNat ≤ g) :
    ∃ q, (∀ asserted,
        Checked.takeFrame asserted p f = some (UInt64.ofNat (4096 * f.toNat), q)) ∧
      Represents q (F.erase f.toNat) ∧ SameShape p q := by
  have hf := ((h.mem_iff _).mp hmem).1
  have hcount := h.count_lt
  obtain ⟨q, hq, hrep, hsh, hres, hign, hhint⟩ := markFrameUsed_spec h hf
  have hc : q.frameCount.toNat = p.frameCount.toNat := by rw [hsh.count]
  have haddr : f * pmmPageSize = UInt64.ofNat (4096 * f.toNat) := by
    apply eq_of_toNat_eq
    rw [toNat_mul_of_lt f pmmPageSize (by rw [pmmPageSize_toNat]; omega),
      toNat_ofNat_of_lt (by omega), pmmPageSize_toNat, Nat.mul_comm]
  have hnext : (f + 1).toNat = f.toNat + 1 := toNat_add_of_lt f 1 (by
    change f.toNat + 1 < 2 ^ 64
    omega)
  refine ⟨{ q with nextHint := f + 1 }, by simp [Checked.takeFrame, hq, haddr], ?_,
    ⟨hsh.bytes, hsh.phys, hsh.count, hsh.init⟩⟩
  refine ⟨hrep.phys, hrep.bytes, hrep.stored, hrep.mem_iff, hrep.padding, hrep.free_count,
    hrep.used_count, ?_, ?_⟩
  · simp only [hnext]
    omega
  · intro g hg
    have hle := hleast g (Finset.mem_of_mem_erase hg)
    have hne := (Finset.mem_erase.mp hg).1
    simp only [hnext]
    omega

theorem allocFrame_refines {p : PmmState} {s : FrameSet} (h : Refines p s) :
    ∃ q, (∀ asserted, Checked.pmmAllocFrame asserted p = some (s.alloc.2, q)) ∧
      Refines q s.alloc.1 := by
  have hfree := h.rep.free_count
  by_cases hne : s.free.Nonempty
  · have hpos := Finset.card_pos.mpr hne
    have hnz : ¬ p.freeFrames = 0 := by
      rw [eq_zero_iff]
      omega
    have hmin := Finset.min'_mem s.free hne
    obtain ⟨r, hr, hspec⟩ := scan_loop h.rep p.nextHint (le_refl p.frameCount.toNat)
    -- nothing below the hint is free, so the first search already meets the least free frame
    cases r with
    | none =>
      have hge := hspec _ hmin (h.rep.hint_low _ hmin)
      have hlt := ((h.rep.mem_iff _).mp hmin).1
      omega
    | some f =>
      obtain ⟨hf, hleast⟩ := hspec
      have hleast' : ∀ g ∈ s.free, f.toNat ≤ g := fun g hg => hleast g hg (h.rep.hint_low g hg)
      have heq : s.free.min' hne = f.toNat :=
        le_antisymm (Finset.min'_le _ _ hf) (hleast' _ hmin)
      obtain ⟨q, hq, hrep, hsh⟩ := takeFrame_spec h.rep hf hleast'
      refine ⟨q, ?_, ?_⟩
      · simp [Checked.pmmAllocFrame, h.init, hnz, hr, hq, FrameSet.alloc, hne, heq]
      · simp only [FrameSet.alloc, hne, ↓reduceDIte, heq]
        exact ⟨hsh.init.trans h.init, by rw [hsh.count]; exact h.count, hrep⟩
  · have hempty : s.free = ∅ := Finset.not_nonempty_iff_eq_empty.mp hne
    have hz : p.freeFrames = 0 := by
      rw [eq_zero_iff, hfree, hempty, Finset.card_empty]
    refine ⟨p, ?_, ?_⟩
    · simp [Checked.pmmAllocFrame, h.init, hz, FrameSet.alloc, hempty]
    · simpa only [FrameSet.alloc, hne, ↓reduceDIte] using h

theorem freeFrame_refines {p : PmmState} {s : FrameSet} (h : Refines p s) (a : UInt64) :
    ∃ q, (∀ asserted, Checked.pmmFreeFrame asserted p a = some ((s.giveBack a).2, q)) ∧
      Refines q (s.giveBack a).1 := by
  have hphys := h.rep.phys
  have hcount := h.count
  by_cases hbad : a &&& (pmmPageSize - 1) ≠ 0 ∨ a = 0 ∨ a ≥ p.maxPhys
  · have hno : ¬ s.Returnable a := by
      rintro ⟨halign, hne, hlt, -⟩
      rw [Ne, aligned_iff, eq_zero_iff, ge_iff_le, UInt64.le_iff_toNat_le] at hbad
      omega
    refine ⟨p, by simp [Checked.pmmFreeFrame, h.init, hbad, FrameSet.giveBack, hno], ?_⟩
    simpa only [FrameSet.giveBack, hno, ↓reduceDIte] using h
  · have hgood := hbad
    rw [not_or, not_or, not_not, aligned_iff, eq_zero_iff, ge_iff_le, UInt64.le_iff_toNat_le]
      at hgood
    have hpage := page_toNat a
    have hlt : (a / pmmPageSize).toNat < p.frameCount.toNat := by omega
    have htest := h.rep.test hlt
    by_cases hmem : a.toNat / 4096 ∈ s.free
    · have hno : ¬ s.Returnable a := fun hr => hr.2.2.2 hmem
      refine ⟨p, ?_, by simpa only [FrameSet.giveBack, hno, ↓reduceDIte] using h⟩
      simp [Checked.pmmFreeFrame, h.init, hbad, htest, hpage, hmem, FrameSet.giveBack, hno]
    · have hyes : s.Returnable a := ⟨hgood.1, hgood.2.1, by omega, hmem⟩
      obtain ⟨q, hq, hrep, hsh, -⟩ := markFrameFree_spec h.rep hlt
      rw [hpage] at hrep htest
      refine ⟨q, ?_, ?_⟩
      · simp [Checked.pmmFreeFrame, h.init, hbad, htest, hmem, hq, FrameSet.giveBack, hyes]
      simp only [FrameSet.giveBack, hyes, ↓reduceDIte]
      exact ⟨hsh.init.trans h.init, by rw [hsh.count]; exact h.count, hrep⟩

theorem reserveRange_refines {p : PmmState} {s : FrameSet} (h : Refines p s)
    (base length : UInt64) :
    ∃ q, (∀ asserted, Checked.pmmReserveRange asserted p base length =
        some ((s.reserve base length).2, q)) ∧
      Refines q (s.reserve base length).1 := by
  by_cases hz : length = 0
  · refine ⟨p, by simp [Checked.pmmReserveRange, h.init, hz, FrameSet.reserve], h.init, h.count, ?_⟩
    simpa [FrameSet.reserve, usedSpan, hz] using h.rep
  · obtain ⟨q, hq, hrep, hsh, -⟩ := markRangeUsed_spec h.rep base length
    rw [h.count] at hrep
    refine ⟨q, by simp [Checked.pmmReserveRange, h.init, hz, hq, FrameSet.reserve],
      hsh.init.trans h.init, by rw [hsh.count]; exact h.count, hrep⟩

theorem Checked.pmmStep_refines {p : PmmState} {s : FrameSet} (h : Refines p s) (c : PmmCall) :
    ∃ q, (∀ asserted, Checked.pmmStep asserted p c = some (q, (s.step c).2)) ∧
      Refines q (s.step c).1 := by
  cases c with
  | allocFrame =>
    obtain ⟨q, hq, hR⟩ := allocFrame_refines h
    exact ⟨q, by simp [Checked.pmmStep, hq, FrameSet.step], hR⟩
  | freeFrame a =>
    obtain ⟨q, hq, hR⟩ := freeFrame_refines h a
    exact ⟨q, by simp [Checked.pmmStep, hq, FrameSet.step], hR⟩
  | reserveRange base length =>
    obtain ⟨q, hq, hR⟩ := reserveRange_refines h base length
    exact ⟨q, by simp [Checked.pmmStep, hq, FrameSet.step], hR⟩
  | isFrameFree a =>
    refine ⟨p, ?_, h⟩
    simp [Checked.pmmStep, pmmIsFrameFree_eq h.rep h.init, FrameSet.step, FrameSet.isFree]
  | freeCount =>
    refine ⟨p, ?_, h⟩
    have heq : p.freeFrames = UInt64.ofNat s.free.card := by
      apply eq_of_toNat_eq
      rw [h.rep.free_count, toNat_ofNat_of_lt]
      have := h.rep.card_le
      have := h.rep.count_lt
      omega
    simp only [Checked.pmmStep, pmmFreeCount, heq, FrameSet.step, implies_true]
  | usedCount =>
    refine ⟨p, ?_, h⟩
    have heq : p.usedFrames = UInt64.ofNat (s.count - s.free.card) := by
      apply eq_of_toNat_eq
      rw [h.rep.used_count, h.count, toNat_ofNat_of_lt]
      have := h.count
      have := h.rep.count_lt
      omega
    simp only [Checked.pmmStep, pmmUsedCount, heq, FrameSet.step, implies_true]

theorem pmmStep_refines (p : PmmState) (s : FrameSet) (c : PmmCall) (h : Refines p s) :
    ∃ q, pmmStep p c = some (q, (s.step c).2) ∧ Refines q (s.step c).1 := by
  obtain ⟨q, hq, hR⟩ := Checked.pmmStep_refines h c
  exact ⟨q, hq false, hR⟩

def bootFrameSet (p : PmmState) : FrameSet :=
  ⟨p.frameCount.toNat, freeSet p, fun _ hf => Finset.mem_range.mp (Finset.mem_filter.mp hf).1⟩

theorem refines_of_init {pmm p : PmmState} {regions : Option (List BootMemRegion)}
    {storage : Option (List UInt8)} {storageBytes maxPhysBytes : UInt64}
    (hstore : ∀ bytes, storage = some bytes → storageBytes.toNat ≤ bytes.length)
    (hinit : pmmInitFromMap pmm regions storage storageBytes maxPhysBytes = some (true, p)) :
    Refines p (bootFrameSet p) := by
  obtain ⟨rs, -, hb⟩ := booted_of_init hstore hinit
  refine ⟨hb.init, rfl, ?_⟩
  change Represents p (freeSet p)
  rw [← hb.rep.eq_freeSet]
  exact hb.rep

/-- Every run of calls after a successful initialisation observes exactly what the
abstract allocator observes, and the two stay related. -/
theorem pmm_refines_frameSet {pmm p : PmmState} {regions : Option (List BootMemRegion)}
    {storage : Option (List UInt8)} {storageBytes maxPhysBytes : UInt64}
    (hstore : ∀ bytes, storage = some bytes → storageBytes.toNat ≤ bytes.length)
    (hinit : pmmInitFromMap pmm regions storage storageBytes maxPhysBytes = some (true, p)) :
    4096 * (bootFrameSet p).count = maxPhysBytes.toNat ∧
    ∀ calls, ∃ q,
      run pmmStep p calls = some (q, (runTotal FrameSet.step (bootFrameSet p) calls).2) ∧
      Refines q (runTotal FrameSet.step (bootFrameSet p) calls).1 := by
  have hR := refines_of_init hstore hinit
  refine ⟨?_, fun calls => run_refines Refines pmmStep_refines hR calls⟩
  obtain ⟨rs, -, hb⟩ := booted_of_init hstore hinit
  rw [← hb.phys, hb.rep.phys]
  rfl

theorem pmm_refines_frameSet_sample :
    4096 * (bootFrameSet sampleState).count = 0x4000 ∧
    ∃ q, run pmmStep sampleState [.allocFrame, .freeFrame 0x1000, .freeCount] =
        some (q, (runTotal FrameSet.step (bootFrameSet sampleState)
          [.allocFrame, .freeFrame 0x1000, .freeCount]).2) ∧
      Refines q (runTotal FrameSet.step (bootFrameSet sampleState)
        [.allocFrame, .freeFrame 0x1000, .freeCount]).1 :=
  have h := pmm_refines_frameSet (by rintro bytes h; cases h; decide) sample_boots
  ⟨h.1, h.2 _⟩

end Mcsos.Pmm
