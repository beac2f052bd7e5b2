import Mcsos.VmmSpaces
import Mcsos.VmmTlb

/-!
# Address spaces and the TLB

Several address spaces on one CPU. The CPU walks and caches the tables of the active space, the
one whose root is in `cr3`. Loading `cr3` drops the cached entries, except the global ones if
`cr4` says so. A call may be made on any space, active or not, and the CPU may fill the cache at
any moment of it.
-/

namespace Mcsos.Vmm
open RadixTree StepRun

variable {ι V γ : Type}

structure SpaceCpu (ι V γ : Type) where
  active : ι
  cpu : Cpu V γ

inductive SpaceEvent (ι : Type)
  | call (i : ι) (c : CpuCall)
  | writeCr3 (i : ι)

/-- A cached entry outlives a load of `cr3` if it is global and `cr4.pge` is set. -/
def outlives (pge : Bool) (entry : UInt64) : Bool :=
  pge && decide (entry &&& vmmPteGlobal ≠ 0)

def seenFrom (spaces : ι → VmmSpace V γ) (active i : ι) : VmmSpace V γ :=
  -- The CPU walks the root of the active space while a call uses the callbacks of its own.
  { spaces i with rootPaddr := (spaces active).rootPaddr }

def vmmWriteCr3 (pge : Bool) (s : SpaceCpu ι V γ) (i : ι) : SpaceCpu ι V γ :=
  ⟨i, { s.cpu with tlb := s.cpu.tlb.filter (fun p => outlives pge p.2) }⟩

def callOn [DecidableEq V] (spaces : ι → VmmSpace V γ) (virt : UInt64 → V)
    (s : SpaceCpu ι V γ) (i : ι) (c : CpuCall) : Cpu V γ :=
  let m : Machine V γ := { s.cpu.machine with trace := [] }
  (interleave c.fills (callActions (spaces i) s.cpu.machine c.call)).foldl
    (CpuEvent.apply (seenFrom spaces s.active i) virt) { s.cpu with machine := m }

def spaceCpuStep [DecidableEq V] (spaces : ι → VmmSpace V γ) (virt : UInt64 → V) (pge : Bool)
    (s : SpaceCpu ι V γ) : SpaceEvent ι → SpaceCpu ι V γ × Option VmmReply
  | .call i c =>
      ({ s with cpu := callOn spaces virt s i c },
        some (vmmStep (spaces i) s.cpu.machine c.call).2)
  | .writeCr3 i => (vmmWriteCr3 pge s i, none)

def Coherent (spaces : ι → VmmSpace V γ) (virt : UInt64 → V) (pge : Bool)
    (s : SpaceCpu ι V γ) : Prop :=
  ∀ p ∈ s.cpu.tlb, outlives pge p.2 = false →
    walkedEntry (spaces s.active).rootPaddr virt s.cpu.machine.tables p.1 = some p.2

def Cpu.only (Q : UInt64 → Bool) (s : Cpu V γ) : Cpu V γ :=
  { s with tlb := s.tlb.filter (fun p => Q p.2) }

section Fills

theorem Action.flush_filter (a : Action V) (tlb : List (Page × UInt64)) (Q : UInt64 → Bool) :
    a.flush (tlb.filter (fun p => Q p.2)) = (a.flush tlb).filter (fun p => Q p.2) := by
  cases a with
  | invlpg vaddr => exact List.filter_comm ..
  | callAlloc => rfl
  | callFree paddr => rfl
  | store table index entry => rfl

variable [DecidableEq V] (space : VmmSpace V γ) (virt : UInt64 → V)

theorem exists_fewer_fills (Q : UInt64 → Bool) (es : List (CpuEvent V)) (s : Cpu V γ) :
    ∃ es' : List (CpuEvent V), es'.filterMap CpuEvent.action? = es.filterMap CpuEvent.action? ∧
      es'.foldl (CpuEvent.apply space virt) (s.only Q) =
        (es.foldl (CpuEvent.apply space virt) s).only Q := by
  induction es generalizing s with
  | nil => exact ⟨[], rfl, rfl⟩
  | cons e es ih =>
    obtain ⟨es', hactions, hrun⟩ := ih (e.apply space virt s)
    cases e with
    | act a =>
      refine ⟨.act a :: es', congrArg (a :: ·) hactions, ?_⟩
      rw [List.foldl_cons, List.foldl_cons, ← hrun]
      congr 1
      exact congrArg (Cpu.mk _) (a.flush_filter s.tlb Q)
    | fill v =>
      cases hwalk : walkedEntry space.rootPaddr virt s.machine.tables v with
      | none =>
        have hfill : (CpuEvent.fill v).apply space virt s = s := by
          simp only [CpuEvent.apply, hwalk]
        rw [hfill] at hrun
        refine ⟨es', hactions, ?_⟩
        rw [List.foldl_cons, hfill]
        exact hrun
      | some entry =>
        have hfill : (CpuEvent.fill v).apply space virt s =
            { s with tlb := (v, entry) :: s.tlb } := by
          simp only [CpuEvent.apply, hwalk]
        rw [List.foldl_cons]
        rw [hfill] at hrun ⊢
        by_cases hQ : Q entry = true
        · refine ⟨.fill v :: es', hactions, ?_⟩
          have honly : (CpuEvent.fill v).apply space virt (s.only Q) =
              Cpu.only Q { s with tlb := (v, entry) :: s.tlb } := by
            simp only [CpuEvent.apply, Cpu.only, hwalk, List.filter_cons, hQ, if_true]
          rw [List.foldl_cons, honly]
          exact hrun
        · refine ⟨es', hactions, ?_⟩
          have honly : s.only Q = Cpu.only Q { s with tlb := (v, entry) :: s.tlb } := by
            simp only [Cpu.only, List.filter_cons, hQ, if_false, Bool.false_eq_true]
          rw [honly]
          exact hrun

end Fills

section Spaces

variable {spaces : ι → VmmSpace V γ} {virt : UInt64 → V} {handed : γ → Set UInt64}
  {held : ι → Set UInt64} {s : SpaceCpu ι V γ}

theorem coherent_iff (pge : Bool) (s : SpaceCpu ι V γ) :
    Coherent spaces virt pge s ↔
      Fresh (spaces s.active).rootPaddr virt (s.cpu.only (fun e => !outlives pge e)) := by
  simp only [Coherent, Fresh, Cpu.only, List.mem_filter, Bool.not_eq_true', and_imp]

theorem coherent_writeCr3 (pge : Bool) (s : SpaceCpu ι V γ) (i : ι) :
    Coherent spaces virt pge (vmmWriteCr3 pge s i) := by
  intro p hp hdropped
  have hkept := (List.mem_filter.mp hp).2
  rw [hdropped] at hkept
  exact absurd hkept Bool.false_ne_true

variable [DecidableEq V]

theorem apply_seenFrom (active i : ι) (m : Machine V γ) (a : Action V) :
    a.apply (seenFrom spaces active i) m = a.apply (spaces i) m := by
  cases a <;> rfl

theorem actionStep_seenFrom (active i : ι) :
    actionStep (seenFrom spaces active i) = actionStep (spaces i) := by
  funext m a
  rw [actionStep, actionStep, apply_seenFrom]

theorem callOn_machine (s : SpaceCpu ι V γ) (i : ι) (c : CpuCall) :
    (callOn spaces virt s i c).machine = (vmmStep (spaces i) s.cpu.machine c.call).1 := by
  rw [callOn, machine_interleave, perform, actionStep_seenFrom]
  exact perform_callActions s.cpu.machine c.call

theorem Isolated.kept_elsewhere (laws : SharedLaws spaces virt handed) {m : Machine V γ}
    (h : Isolated spaces virt handed held m) {active i : ι} (hne : i ≠ active) (c : VmmCall) :
    AlongTotal (actionStep (spaces i)) (ActionKept (seenFrom spaces active i) virt)
      { m with trace := [] } (callActions (spaces i) m c) := by
  have haside := h.aside laws hne
  have halong : AlongTotal (actionStep (spaces i))
      (ActionAside (spaces i) virt handed (held i) (tableFrames spaces held active))
      { m with trace := [] } (callActions (spaces i) m c) := by
    cases c with
    | map vaddr paddr flags =>
      rw [callActions_map]
      exact haside.mapPage (laws.record i) (h.owned i) vaddr paddr flags
    | unmap vaddr =>
      rw [callActions_unmap]
      exact haside.unmapPage (laws.record i) (h.owned i) vaddr
    | query vaddr out => exact True.intro
  have hstart : FramesKept virt (tableFrames spaces held active) m { m with trace := [] } :=
    fun _ _ => rfl
  refine AlongTotal.of_invariant (FramesKept virt (tableFrames spaces held active) m) ?_ hstart
    halong
  intro m' a hsame hact
  refine ⟨?_, hsame.trans hact.2⟩
  have htree := (h.owned active).tree.congr (subset_refl _) hsame
  intro p k hvisited _
  obtain ⟨ρ, hρ, hreach⟩ := hvisited
  rw [seenFrom, htree.reach_walkLink hρ] at hreach
  have hin : p ∈ tableFrames spaces held active := (htree.frames ρ p hρ hreach).imp_right And.right
  rw [apply_seenFrom, hact.2 p hin]

theorem Fresh.elsewhere (laws : SharedLaws spaces virt handed)
    (hiso : Isolated spaces virt handed held s.cpu.machine)
    (h : Fresh (spaces s.active).rootPaddr virt s.cpu) {i : ι} (hne : i ≠ s.active)
    (c : CpuCall) : Fresh (spaces s.active).rootPaddr virt (callOn spaces virt s i c) := by
  have hkept := hiso.kept_elsewhere laws hne c.call
  rw [← actionStep_seenFrom s.active i] at hkept
  have hstart : Fresh (seenFrom spaces s.active i).rootPaddr virt
      { s.cpu with machine := { s.cpu.machine with trace := [] } } := h
  exact hstart.interleave c.fills hkept

theorem Fresh.callOn (laws : SharedLaws spaces virt handed)
    (hiso : Isolated spaces virt handed held s.cpu.machine)
    (h : Fresh (spaces s.active).rootPaddr virt s.cpu) (i : ι) (c : CpuCall) :
    Fresh (spaces s.active).rootPaddr virt (callOn spaces virt s i c) := by
  by_cases hsame : i = s.active
  · subst hsame
    exact h.step (laws.record s.active) (hiso.owned s.active) c
  · exact h.elsewhere laws hiso hsame c

theorem callOn_only (spaces : ι → VmmSpace V γ) (virt : UInt64 → V) (Q : UInt64 → Bool)
    (s : SpaceCpu ι V γ) (i : ι) (c : CpuCall) :
    ∃ fills, (callOn spaces virt s i c).only Q =
      callOn spaces virt { s with cpu := s.cpu.only Q } i ⟨c.call, fills⟩ := by
  obtain ⟨es, hactions, hrun⟩ := exists_fewer_fills (seenFrom spaces s.active i) virt Q
    (interleave c.fills (callActions (spaces i) s.cpu.machine c.call))
    { s.cpu with machine := { s.cpu.machine with trace := [] } }
  rw [(interleave_iff _ _).mpr ⟨c.fills, rfl⟩] at hactions
  obtain ⟨fills, hfills⟩ := (interleave_iff _ _).mp hactions
  use fills
  rw [callOn, ← hrun, ← hfills]
  rfl

theorem Coherent.call (laws : SharedLaws spaces virt handed) {pge : Bool}
    (hiso : Isolated spaces virt handed held s.cpu.machine) (h : Coherent spaces virt pge s)
    (i : ι) (c : CpuCall) :
    Coherent spaces virt pge { s with cpu := callOn spaces virt s i c } := by
  rw [coherent_iff] at h ⊢
  obtain ⟨fills, honly⟩ := callOn_only spaces virt (fun e => !outlives pge e) s i c
  rw [honly]
  exact Fresh.callOn laws (s := { s with cpu := s.cpu.only (fun e => !outlives pge e) }) hiso h i
    ⟨c.call, fills⟩

end Spaces

/-- From zeroed roots and an empty TLB: whatever calls are made on whatever spaces, whenever
another space is made active and whatever the CPU caches, no entry that a load of `cr3` drops is
ever stale. Without `cr4.pge` that is every entry. -/
theorem tlb_coherent_across_spaces [DecidableEq ι] [DecidableEq V] {spaces : ι → VmmSpace V γ}
    {virt : UInt64 → V} {handed : γ → Set UInt64} (laws : SharedLaws spaces virt handed)
    (hinj : Function.Injective fun i => (spaces i).rootPaddr) (m : Machine V γ)
    (hroots : ∀ i, (spaces i).rootPaddr ∈ handed m.ctx)
    (hzero : ∀ i k, m.tables (virt (spaces i).rootPaddr) k = 0) (pge : Bool) (active : ι)
    (events : List (SpaceEvent ι)) :
    Always (spaceCpuStep spaces virt pge) (Coherent spaces virt pge) ⟨active, ⟨m, []⟩⟩ events := by
  rw [always_iff_along (fun s => ∃ held, Isolated spaces virt handed held s.cpu.machine) _
    (fun _ _ => True) (fun _ _ => True)]
  · exact AlongTotal.trivial _ _ _
  · intro s e hs _
    obtain ⟨held, hiso⟩ := hs
    cases e with
    | call i c =>
      use holdAt held i (vmmStep (spaces i) s.cpu.machine c.call).2
      change Isolated spaces virt handed _ (callOn spaces virt s i c).machine
      rw [callOn_machine]
      exact (hiso.step laws i c.call).1
    | writeCr3 i => exact ⟨held, hiso⟩
  · intro s e hs hcoherent _
    obtain ⟨held, hiso⟩ := hs
    refine iff_of_true ?_ True.intro
    cases e with
    | call i c => exact hcoherent.call laws hiso i c
    | writeCr3 i => exact coherent_writeCr3 pge s i
  · exact ⟨_, isolated_of_zeroed_roots hinj hroots hzero⟩
  · exact fun p hp => absurd hp List.not_mem_nil
  · exact AlongTotal.trivial _ _ _

def switchingEvents : List (SpaceEvent Bool) :=
  [.call false ⟨.map lowerPage.1 0x7000 2, [[], [lowerPage]]⟩,
    .call true ⟨.map lowerPage.1 0x8000 2, [[lowerPage]]⟩, .writeCr3 true,
    .call false ⟨.unmap lowerPage.1, [[lowerPage]]⟩, .writeCr3 false]

theorem tlb_coherent_across_spaces_pair :
    Always (spaceCpuStep pairSpaces id true) (Coherent pairSpaces id true)
      ⟨false, ⟨pairMachine, []⟩⟩ switchingEvents :=
  tlb_coherent_across_spaces pair_laws (by decide) pairMachine
    (fun second => by cases second <;> simp [pairSpaces, pairHanded])
    (fun second k => by cases second <;> rfl) true false switchingEvents

end Mcsos.Vmm
