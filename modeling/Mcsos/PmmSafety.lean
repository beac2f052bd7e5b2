import Mcsos.PmmRefinement

/-!
# The assertions of the frame allocator hold

Every bitmap access stays below `bitmap_bytes`, no loop counter wraps and no decrement meets a
zero counter: with assertions turned on the functions return what they return without. The
specifications of the functions hold for both settings, so only the refused initialisations and
the runs remain.
-/

namespace Mcsos.Pmm.Checked
open BoundedLoop BitTable WordArithmetic StepRun

theorem pmmInitFromMap_returns (pmm : PmmState) (regions : Option (List BootMemRegion))
    {storage : Option (List UInt8)} {storageBytes : UInt64} (maxPhysBytes : UInt64)
    (hstore : ∀ bytes, storage = some bytes → storageBytes.toNat ≤ bytes.length) :
    ∃ accepted p, ∀ asserted,
      pmmInitFromMap asserted pmm regions storage storageBytes maxPhysBytes =
        some (accepted, p) := by
  cases regions with
  | none => exact ⟨false, pmm, fun _ => rfl⟩
  | some rs =>
    cases storage with
    | none => exact ⟨false, pmm, fun _ => rfl⟩
    | some bytes =>
      by_cases haccepted : Accepted rs storageBytes maxPhysBytes
      · obtain ⟨p, hp, -⟩ := pmmInitFromMap_of_accepted pmm (hstore bytes rfl) haccepted
        exact ⟨true, p, hp⟩
      · refine ⟨false, pmm, fun asserted => ?_⟩
        simp only [pmmInitFromMap]
        split_ifs with hnil hbad hroom
        · rfl
        · rfl
        · rfl
        · exact absurd (accepted_of_checks hnil hbad hroom) haccepted

theorem run_eq {p : PmmState} {s : FrameSet} (h : Refines p s) (calls : List PmmCall) :
    run (pmmStep true) p calls = run Pmm.pmmStep p calls := by
  apply run_congr_on (fun q => ∃ t, Refines q t) _ _ ⟨s, h⟩
  · intro q c hq
    obtain ⟨t, ht⟩ := hq
    obtain ⟨q', hstep, -⟩ := pmmStep_refines ht c
    rw [hstep, Pmm.pmmStep, hstep]
  · intro q c q' r hq hstep
    obtain ⟨t, ht⟩ := hq
    obtain ⟨q'', hstep', hR⟩ := pmmStep_refines ht c
    rw [Pmm.pmmStep, hstep'] at hstep
    cases hstep
    exact ⟨_, hR⟩

/-- Initialisation with any arguments, and every run of calls after an accepted one, pass all
assertions: every bitmap access stays inside the bitmap, no loop counter wraps and no decrement
meets a zero counter. The bits behind the last frame stay set. -/
theorem allocator_stays_in_bounds (pmm : PmmState) (regions : Option (List BootMemRegion))
    {storage : Option (List UInt8)} {storageBytes : UInt64} (maxPhysBytes : UInt64)
    (hstore : ∀ bytes, storage = some bytes → storageBytes.toNat ≤ bytes.length) :
    ∃ accepted p,
      Pmm.pmmInitFromMap pmm regions storage storageBytes maxPhysBytes = some (accepted, p) ∧
      pmmInitFromMap true pmm regions storage storageBytes maxPhysBytes = some (accepted, p) ∧
      (accepted = true → p.bitmapBytes ≤ storageBytes ∧ ∀ calls, ∃ q results,
        run Pmm.pmmStep p calls = some (q, results) ∧
        run (pmmStep true) p calls = some (q, results) ∧ q.bitmapBytes = p.bitmapBytes ∧
        q.frameCount.toNat = maxPhysBytes.toNat / 4096 ∧
        ∀ i, q.frameCount.toNat ≤ i → i < 8 * q.bitmapBytes.toNat → bit q.bitmap i = true) := by
  obtain ⟨accepted, p, hboth⟩ := pmmInitFromMap_returns pmm regions maxPhysBytes hstore
  have hinit : Pmm.pmmInitFromMap pmm regions storage storageBytes maxPhysBytes =
    some (accepted, p) := hboth false
  refine ⟨accepted, p, hinit, hboth true, fun haccepted => ?_⟩
  subst haccepted
  have hrefines := refines_of_init hstore hinit
  obtain ⟨rs, rfl, hb⟩ := booted_of_init hstore hinit
  have hcount : p.frameCount.toNat = maxPhysBytes.toNat / 4096 := by
    have hphys := hb.rep.phys
    rw [hb.phys] at hphys
    omega
  constructor
  · obtain ⟨bytes, rfl⟩ : ∃ bytes, storage = some bytes := by
      cases storage with
      | none => cases hinit
      | some bytes => exact ⟨bytes, rfl⟩
    have hroom := (accepted_of_init hinit).room
    rw [UInt64.le_iff_toNat_le, hb.rep.bytes, hcount]
    exact hroom
  · intro calls
    obtain ⟨q, hrun, hq⟩ := run_refines Refines Pmm.pmmStep_refines hrefines calls
    have hsame := hq.count
    rw [FrameSet.runTotal_count] at hsame
    have hqcount : q.frameCount.toNat = p.frameCount.toNat := hsame
    refine ⟨q, _, hrun, (run_eq hrefines calls).trans hrun, ?_, hqcount.trans hcount,
      hq.rep.padding⟩
    apply eq_of_toNat_eq
    rw [hq.rep.bytes, hb.rep.bytes, hqcount]

theorem sample_stored : ∀ bytes, some [(0 : UInt8)] = some bytes →
    (1 : UInt64).toNat ≤ bytes.length := by
  intro bytes h
  cases h
  decide

theorem allocator_stays_in_bounds_sample :
    Pmm.pmmInitFromMap pmmZeroState (some sampleMap) (some [0]) 1 0x4000 =
      some (true, sampleState) ∧
    ∃ q results, run (pmmStep true) sampleState [.allocFrame, .freeFrame 0xffffffffffffffff,
        .reserveRange 0xfffffffffffff001 0xffe, .freeFrame 0x2000, .isFrameFree 0x3000] =
        some (q, results) ∧ bit q.bitmap 7 = true := by
  obtain ⟨accepted, p, hinit, -, hruns⟩ := allocator_stays_in_bounds pmmZeroState
    (some sampleMap) 0x4000 sample_stored
  rw [sample_boots] at hinit
  cases hinit
  obtain ⟨q, results, -, hrun, hbytes, hcount, hpadding⟩ := (hruns rfl).2
    [.allocFrame, .freeFrame 0xffffffffffffffff, .reserveRange 0xfffffffffffff001 0xffe,
      .freeFrame 0x2000, .isFrameFree 0x3000]
  refine ⟨sample_boots, q, results, hrun, hpadding 7 ?_ ?_⟩
  · rw [hcount]
    decide
  · rw [hbytes]
    decide

end Mcsos.Pmm.Checked
