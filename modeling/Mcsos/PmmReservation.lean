import Mcsos.PmmRefinement

/-!
# Reserved frames and the frames that callers give back

One bit per frame encodes allocated, reserved and absent alike, and `pmm_free_frame`
accepts every used frame. A caller that gives back a frame it does not own therefore
makes a reserved frame allocatable. As long as no call gives back a withheld frame, no
withheld frame is ever handed out.
-/

namespace Mcsos.Pmm
open BoundedLoop BitTable WordArithmetic StepRun

def Withheld (regions : List BootMemRegion) (calls : List PmmCall) (f : ℕ) : Prop :=
  -- After `calls`, frame `f` meets a region that is not usable, lies in no usable region, or meets
  -- a range reserved by an earlier call.
  (∃ r ∈ regions, r.type ≠ bootMemUsable ∧ ¬ Disjoint (pageBytes f) r.bytes) ∨
  (∀ r ∈ regions, r.type = bootMemUsable → ¬ pageBytes f ⊆ r.bytes) ∨
  ∃ base length, PmmCall.reserveRange base length ∈ calls ∧
    ¬ Disjoint (pageBytes f) (rangeBytes base length)

def HandsOutNoWithheld (regions : List BootMemRegion) (p : PmmState) (calls : List PmmCall) :
    Prop :=
  ∀ q results a q', run pmmStep p calls = some (q, results) →
    pmmAllocFrame q = some (a, q') → a ≠ pmmInvalidFrame →
    ¬ Withheld regions calls (a.toNat / 4096)

def GivesBackNoWithheld (regions : List BootMemRegion) (maxPhys : ℕ) (calls : List PmmCall) :
    Prop :=
  ∀ before a after, calls = before ++ PmmCall.freeFrame a :: after →
    a.toNat % 4096 = 0 → a.toNat ≠ 0 → a.toNat < maxPhys →
    ¬ Withheld regions before (a.toNat / 4096)

theorem Withheld.append {regions : List BootMemRegion} {calls : List PmmCall} {c : PmmCall}
    {f : ℕ} (h : Withheld regions (calls ++ [c]) f) :
    Withheld regions calls f ∨ ∃ base length, c = .reserveRange base length ∧
      ¬ Disjoint (pageBytes f) (rangeBytes base length) := by
  rcases h with h | h | ⟨base, length, hmem, hmeet⟩
  · exact Or.inl (Or.inl h)
  · exact Or.inl (Or.inr (Or.inl h))
  · rcases List.mem_append.mp hmem with hmem | hmem
    · exact Or.inl (Or.inr (Or.inr ⟨base, length, hmem, hmeet⟩))
    · exact Or.inr ⟨base, length, (List.mem_singleton.mp hmem).symm, hmeet⟩

theorem step_clear {regions : List BootMemRegion} {before : List PmmCall} {c : PmmCall}
    {s : FrameSet} (hclear : ∀ f ∈ s.free, ¬ Withheld regions before f)
    (hfit : ∀ base length, c = .reserveRange base length → Fits base length)
    (hgive : ∀ a, c = .freeFrame a → a.toNat % 4096 = 0 → a.toNat ≠ 0 →
      a.toNat < 4096 * s.count → ¬ Withheld regions before (a.toNat / 4096)) :
    ∀ f ∈ (s.step c).1.free, ¬ Withheld regions (before ++ [c]) f := by
  intro f hf hw
  have old : f ∈ s.free → (∀ base length, c ≠ .reserveRange base length) → False := by
    intro hmem hc
    rcases hw.append with hw | ⟨base, length, hcall, -⟩
    · exact hclear f hmem hw
    · exact hc base length hcall
  cases c with
  | allocFrame =>
    refine old ?_ (fun _ _ => PmmCall.noConfusion)
    simp only [FrameSet.step, FrameSet.alloc] at hf
    split_ifs at hf
    · exact Finset.mem_of_mem_erase hf
    · exact hf
  | freeFrame a =>
    simp only [FrameSet.step, FrameSet.giveBack] at hf
    split_ifs at hf with hr
    · rcases Finset.mem_insert.mp hf with rfl | hf
      · rcases hw.append with hw | ⟨base, length, hcall, -⟩
        · exact hgive a rfl hr.1 hr.2.1 hr.2.2.1 hw
        · exact PmmCall.noConfusion hcall
      · exact old hf (fun _ _ => PmmCall.noConfusion)
    · exact old hf (fun _ _ => PmmCall.noConfusion)
  | reserveRange base length =>
    simp only [FrameSet.step, FrameSet.reserve, Finset.mem_sdiff] at hf
    rcases hw.append with hw | ⟨base', length', hcall, hmeet⟩
    · exact hclear f hf.1 hw
    · cases hcall
      exact hf.2 ((mem_usedSpan_iff (hfit base length rfl)).mpr ⟨s.below f hf.1, hmeet⟩)
  | isFrameFree a => exact old hf (fun _ _ => PmmCall.noConfusion)
  | freeCount => exact old hf (fun _ _ => PmmCall.noConfusion)
  | usedCount => exact old hf (fun _ _ => PmmCall.noConfusion)

theorem run_clear {regions : List BootMemRegion} {calls : List PmmCall}
    {before : List PmmCall} {s : FrameSet}
    (hclear : ∀ f ∈ s.free, ¬ Withheld regions before f)
    (hfit : ∀ base length, PmmCall.reserveRange base length ∈ calls → Fits base length)
    (hgive : ∀ pre a post, calls = pre ++ PmmCall.freeFrame a :: post →
      a.toNat % 4096 = 0 → a.toNat ≠ 0 → a.toNat < 4096 * s.count →
      ¬ Withheld regions (before ++ pre) (a.toNat / 4096)) :
    ∀ f ∈ (runTotal FrameSet.step s calls).1.free, ¬ Withheld regions (before ++ calls) f := by
  induction calls generalizing s before with
  | nil => simpa only [runTotal, List.append_nil] using hclear
  | cons c calls ih =>
    have hstep := step_clear (c := c) hclear
      (fun base length hc => hfit base length (by simp [hc]))
      (fun a hc h₁ h₂ h₃ => by
        simpa using hgive [] a calls (by simp [hc]) h₁ h₂ h₃)
    have hrest := ih hstep
      (fun base length hc => hfit base length (List.mem_cons_of_mem _ hc))
      (fun pre a post hc h₁ h₂ h₃ => by
        rw [FrameSet.step_count] at h₃
        simpa using hgive (c :: pre) a post (by simp [hc]) h₁ h₂ h₃)
    simpa only [runTotal, List.append_assoc, List.singleton_append] using hrest

/-- In every run whose calls give back no withheld frame, no withheld frame is handed
out. -/
theorem reserved_never_handed_out {pmm p : PmmState} {regions : List BootMemRegion}
    {storage : List UInt8} {storageBytes maxPhysBytes : UInt64}
    (hstore : storageBytes.toNat ≤ storage.length)
    (hfit : ∀ r ∈ regions, Fits r.base r.length)
    (hinit : pmmInitFromMap pmm (some regions) (some storage) storageBytes maxPhysBytes =
      some (true, p)) {calls : List PmmCall}
    (hranges : ∀ base length, PmmCall.reserveRange base length ∈ calls → Fits base length)
    (hgive : GivesBackNoWithheld regions maxPhysBytes.toNat calls) :
    HandsOutNoWithheld regions p calls := by
  have hst : ∀ bytes, some storage = some bytes → storageBytes.toNat ≤ bytes.length := by
    rintro bytes ⟨rfl⟩
    exact hstore
  obtain ⟨rs, hrs, hb⟩ := booted_of_init hst hinit
  cases hrs
  have hR := refines_of_init hst hinit
  have hset : (bootFrameSet p).free = bootSet p.frameCount.toNat regions :=
    hb.rep.eq_freeSet.symm
  have hphys : 4096 * (bootFrameSet p).count = maxPhysBytes.toNat := by
    rw [← hb.phys, hb.rep.phys]
    rfl
  have hstart : ∀ f ∈ (bootFrameSet p).free, ¬ Withheld regions [] f := by
    intro f hf hw
    rw [hset, mem_bootSet_iff hfit] at hf
    obtain ⟨-, -, ⟨r, hr, hu, hsub⟩, hdis⟩ := hf
    rcases hw with ⟨r', hr', hu', hmeet⟩ | hno | ⟨base, length, hmem, -⟩
    · exact hmeet (hdis r' hr' hu')
    · exact hno r hr hu hsub
    · simp at hmem
  have hend := run_clear hstart hranges (fun pre a post hc h₁ h₂ h₃ => by
    simpa using hgive pre a post hc h₁ h₂ (hphys ▸ h₃))
  obtain ⟨q₀, hrun, hR'⟩ := run_refines Refines pmmStep_refines hR calls
  intro q results a q' hq ha hne
  rw [hrun] at hq
  simp only [Option.some.injEq, Prod.mk.injEq] at hq
  obtain ⟨rfl, -⟩ := hq
  obtain ⟨q₁, hq₁, -⟩ := allocFrame_refines hR'
  rw [pmmAllocFrame, hq₁] at ha
  simp only [Option.some.injEq, Prod.mk.injEq] at ha
  obtain ⟨rfl, -⟩ := ha
  set s := (runTotal FrameSet.step (bootFrameSet p) calls).1 with hs
  by_cases hnonempty : s.free.Nonempty
  · have hmin := Finset.min'_mem s.free hnonempty
    have hlt := ((hR'.rep.mem_iff _).mp hmin).1
    have hcount := hR'.rep.count_lt
    have haddr : s.alloc.2.toNat / 4096 = s.free.min' hnonempty := by
      simp only [FrameSet.alloc, hnonempty, ↓reduceDIte]
      rw [toNat_ofNat_of_lt (by omega)]
      omega
    rw [haddr]
    simpa using hend _ hmin
  · simp [FrameSet.alloc, hnonempty] at hne

theorem reserved_never_handed_out_sample :
    HandsOutNoWithheld sampleMap sampleState
      [.allocFrame, .freeFrame 0x1000, .reserveRange 0x3000 0x1000] := by
  have hstore : (1 : UInt64).toNat ≤ ([0] : List UInt8).length := by decide
  refine reserved_never_handed_out hstore ?_ sample_boots ?_ ?_
  · intro r hr
    simp only [sampleMap, List.mem_cons, List.not_mem_nil, or_false] at hr
    rcases hr with rfl | rfl <;> (unfold Fits; decide)
  · intro base length h
    simp only [List.mem_cons, reduceCtorEq, PmmCall.reserveRange.injEq, List.not_mem_nil,
      or_false, false_or] at h
    obtain ⟨rfl, rfl⟩ := h
    unfold Fits
    decide
  · intro before a after hcalls _ _ _
    -- the only frame given back is frame 1, which was just handed out
    have hback : before = [.allocFrame] ∧ a = 0x1000 := by
      rcases before with _ | ⟨b₁, _ | ⟨b₂, _ | ⟨b₃, _ | ⟨b₄, rest⟩⟩⟩⟩ <;> simp_all
    obtain ⟨rfl, rfl⟩ := hback
    have hpage : (0x1000 : UInt64).toNat / 4096 = 1 := by decide
    rw [hpage]
    rintro (⟨r, hr, hu, hmeet⟩ | hno | ⟨base, length, hmem, -⟩)
    · simp only [sampleMap, List.mem_cons, List.not_mem_nil, or_false] at hr
      rcases hr with rfl | rfl
      · exact hu rfl
      · exact hmeet ((page_disjoint_iff _ _ _).mpr (by decide))
    · exact hno ⟨0, 0x4000, 1⟩ (by simp [sampleMap]) rfl ((page_subset_iff _ _ _).mpr (by decide))
    · simp at hmem

theorem reserved_frame_handed_out :
    pmmInitFromMap pmmZeroState (some sampleMap) (some [0]) 1 0x4000 = some (true, sampleState) ∧
    (∀ r ∈ sampleMap, Fits r.base r.length) ∧
    ¬ HandsOutNoWithheld sampleMap sampleState [.freeFrame 0x2000, .allocFrame] := by
  -- Frame 2 of the sample map is reserved; a caller gives it back and the second allocation hands
  -- it out.
  refine ⟨sample_boots, ?_, ?_⟩
  · intro r hr
    simp only [sampleMap, List.mem_cons, List.not_mem_nil, or_false] at hr
    rcases hr with rfl | rfl <;> (unfold Fits; decide)
  · intro h
    have hrun : run pmmStep sampleState [.freeFrame 0x2000, .allocFrame] =
        some ({ sampleState with bitmap := [0xf3], nextHint := 2 },
          [.flag true, .addr 0x1000]) := by decide +kernel
    have halloc : pmmAllocFrame { sampleState with bitmap := [0xf3], nextHint := 2 } =
        some (0x2000, { sampleState with
          bitmap := [0xf7], freeFrames := 1, usedFrames := 3, nextHint := 3 }) := by
      decide +kernel
    refine h _ _ _ _ hrun halloc (by decide) (Or.inl ⟨⟨0x2000, 0x1000, 2⟩, ?_, by decide, ?_⟩)
    · simp [sampleMap]
    · rw [BootMemRegion.bytes, page_disjoint_iff]
      decide

instance (f : ℕ) (base length : UInt64) :
    Decidable (Disjoint (pageBytes f) (rangeBytes base length)) :=
  decidable_of_iff _ (page_disjoint_iff f base length).symm

def freeTouched (p : PmmState) (base length : UInt64) : Finset ℕ :=
  (Finset.range p.frameCount.toNat).filter fun f =>
    bit p.bitmap f = false ∧ ¬ Disjoint (pageBytes f) (rangeBytes base length)

structure Reserved (p q : PmmState) (base length : UInt64) : Prop where
  touched : ∀ f < p.frameCount.toNat, ¬ Disjoint (pageBytes f) (rangeBytes base length) →
    bit q.bitmap f = true
  others : ∀ f < p.frameCount.toNat, Disjoint (pageBytes f) (rangeBytes base length) →
    bit q.bitmap f = bit p.bitmap f
  free : q.freeFrames.toNat + (freeTouched p base length).card = p.freeFrames.toNat
  used : q.usedFrames.toNat = p.usedFrames.toNat + (freeTouched p base length).card

theorem usedSpan_of_not_fits (n : ℕ) {base length : UInt64} (h : ¬ Fits base length) :
    usedSpan n base.toNat length.toNat = ∅ := by
  unfold Fits at h
  unfold usedSpan
  split_ifs with hc
  · rfl
  · apply Finset.Ico_eq_empty
    rw [not_lt, min_le_iff]
    omega

theorem reserved_of_span {p q : PmmState} {F S : Finset ℕ} {base length : UInt64}
    (hp : Represents p F) (hq : Represents q (F \ S)) (hsh : SameShape p q)
    (hS : ∀ f ∈ F, f ∈ S ↔ ¬ Disjoint (pageBytes f) (rangeBytes base length)) :
    Reserved p q base length := by
  have hbytes := hp.bytes
  have hset : freeTouched p base length = F ∩ S := by
    ext f
    have hmem := hp.mem_iff f
    simp only [freeTouched, Finset.mem_filter, Finset.mem_range, Finset.mem_inter]
    rw [← and_assoc, ← hmem]
    exact and_congr_right fun hf => (hS f hf).symm
  have hcard := Finset.card_inter_add_card_sdiff F S
  have hle := hp.card_le
  have hbit (f : ℕ) (hf : f < p.frameCount.toNat) : bit q.bitmap f = decide (f ∉ F \ S) :=
    hq.bit_eq (by rw [hsh.bytes]; omega)
  constructor
  case touched =>
    intro f hf hmeet
    rw [hbit f hf, decide_eq_true_eq, Finset.mem_sdiff]
    exact fun h => h.2 ((hS f h.1).mpr hmeet)
  case others =>
    intro f hf hdis
    rw [hbit f hf, hp.bit_eq (by omega), decide_eq_decide, not_iff_not, Finset.mem_sdiff]
    exact and_iff_left_of_imp fun h hs => (hS f h).mp hs hdis
  case free =>
    rw [hq.free_count, hp.free_count, hset]
    omega
  case used =>
    rw [hq.used_count, hp.used_count, hset, hsh.count]
    omega

/-- A reported reservation of a range is real exactly when the page-rounded end of the
range fits in 64 bits, or every managed frame with a byte in it was used already. -/
theorem reported_reservation_iff {p : PmmState} {F : Finset ℕ} (h : Represents p F)
    (hinit : p.initialized = true) (base length : UInt64) :
    ∃ reported q, pmmReserveRange p base length = some (reported, q) ∧
      (reported = true → (Reserved p q base length ↔
        base.toNat + length.toNat ≤ 2 ^ 64 - 4096 ∨
        ∀ f < p.frameCount.toNat, ¬ Disjoint (pageBytes f) (rangeBytes base length) →
          bit p.bitmap f = true)) := by
  by_cases hz : length = 0
  · exact ⟨false, p, by simp [Checked.pmmReserveRange, hinit, hz], fun h => absurd h (by decide)⟩
  obtain ⟨q, hq, hrep, hsh, -⟩ := markRangeUsed_spec h base length
  refine ⟨true, q, by simp [Checked.pmmReserveRange, hinit, hz, hq], fun _ => ?_⟩
  by_cases hfit : Fits base length
  · have hreal : Reserved p q base length := by
      apply reserved_of_span h hrep hsh
      intro f hf
      rw [mem_usedSpan_iff hfit, and_iff_right ((h.mem_iff f).mp hf).1]
    exact iff_of_true hreal (Or.inl hfit)
  rw [usedSpan_of_not_fits _ hfit] at hrep
  constructor
  · intro hreal
    refine Or.inr fun f hf hmeet => ?_
    by_contra hfree
    rw [Bool.not_eq_true] at hfree
    have hmem := (h.mem_iff f).mpr ⟨hf, hfree⟩
    have hstill := ((hrep.mem_iff f).mp (by simpa using hmem)).2
    rw [hreal.touched f hf hmeet] at hstill
    exact Bool.noConfusion hstill
  · intro hcond
    apply reserved_of_span h hrep hsh
    intro f hf
    have hmem := (h.mem_iff f).mp hf
    refine iff_of_false (Finset.notMem_empty f) fun hmeet => ?_
    have hused := (hcond.resolve_left hfit) f hmem.1 hmeet
    rw [hmem.2] at hused
    exact Bool.noConfusion hused

theorem sampleState_represents : Represents sampleState (freeSet sampleState) :=
  (refines_of_init (by rintro bytes h; cases h; decide) sample_boots).rep

theorem reported_reservation_iff_sample :
    ∃ reported q, pmmReserveRange sampleState 0x1800 0x1000 = some (reported, q) ∧
      (reported = true → (Reserved sampleState q 0x1800 0x1000 ↔
        (0x1800 : UInt64).toNat + (0x1000 : UInt64).toNat ≤ 2 ^ 64 - 4096 ∨
        ∀ f < sampleState.frameCount.toNat, ¬ Disjoint (pageBytes f) (rangeBytes 0x1800 0x1000) →
          bit sampleState.bitmap f = true)) :=
  reported_reservation_iff sampleState_represents rfl 0x1800 0x1000

theorem reported_reservation_missed :
    pmmReserveRange sampleState 0x1000 0xffffffffffffefff = some (true, sampleState) ∧
    ¬ Disjoint (pageBytes 1) (rangeBytes 0x1000 0xffffffffffffefff) ∧
    frameIsFree sampleState 1 ∧ ¬ Reserved sampleState sampleState 0x1000 0xffffffffffffefff := by
  -- Frame 1 of the sample state is free. A range from there to the end of the address space is
  -- reported as reserved, and the state is the same as before.
  have hmeet : ¬ Disjoint (pageBytes 1) (rangeBytes 0x1000 0xffffffffffffefff) := by decide
  refine ⟨by decide +kernel, hmeet, by decide +kernel, fun h => ?_⟩
  exact absurd (h.touched 1 (by decide) hmeet) (by decide)

end Mcsos.Pmm
