import Mcsos.VmmRights

/-!
# The TLB of the CPU

The CPU may walk the tables and cache the leaf entry of a page at any moment, also between two
writes of a call; `invlpg` drops a page from the cache. A cached pair is stale if the walk of
its page no longer ends in this entry. `vmm_map_page` keeps every walk, and `vmm_unmap_page`
cuts one walk and then invalidates its page.
-/

namespace Mcsos.Vmm
open RadixTree StepRun WordArithmetic

variable {V γ : Type}

structure Cpu (V γ : Type) where
  machine : Machine V γ
  tlb : List (Page × UInt64)

def walkedEntry (root : UInt64) (virt : UInt64 → V) (tables : Tables V) (v : Page) :
    Option UInt64 :=
  (pageWalk root virt tables v.1).bind (fun w => w.entries.getLast?)

inductive CpuEvent (V : Type)
  | fill (v : Page)
  | act (a : Action V)

def Action.flush (tlb : List (Page × UInt64)) : Action V → List (Page × UInt64)
  | .invlpg vaddr => tlb.filter (fun p => p.1.1 ≠ vaddr &&& ~~~(vmmPageSize - 1))
  | _ => tlb

def CpuEvent.apply [DecidableEq V] (space : VmmSpace V γ) (virt : UInt64 → V) (s : Cpu V γ) :
    CpuEvent V → Cpu V γ
  | .fill v =>
      match walkedEntry space.rootPaddr virt s.machine.tables v with
      | none => s
      | some e => { s with tlb := (v, e) :: s.tlb }
  | .act a => ⟨a.apply space s.machine, a.flush s.tlb⟩

def CpuEvent.action? : CpuEvent V → Option (Action V)
  | .fill _ => none
  | .act a => some a

/-- The actions in order; `fills` lists the pages that are cached before each of them, and what
is left over is cached after the last one. -/
def interleave : List (List Page) → List (Action V) → List (CpuEvent V)
  | fills, [] => fills.flatten.map .fill
  | [], a :: as => .act a :: interleave [] as
  | pages :: fills, a :: as => pages.map .fill ++ .act a :: interleave fills as

/-- The actions of a call, in the order in which it has recorded them. -/
def callActions [DecidableEq V] (space : VmmSpace V γ) (m : Machine V γ) (c : VmmCall) :
    List (Action V) :=
  (vmmStep space m c).1.actions

structure CpuCall where
  call : VmmCall
  fills : List (List Page)

def cpuStep [DecidableEq V] (space : VmmSpace V γ) (virt : UInt64 → V) (s : Cpu V γ)
    (c : CpuCall) : Cpu V γ × VmmReply :=
  let m : Machine V γ := { s.machine with trace := [] }
  ((interleave c.fills (callActions space s.machine c.call)).foldl (CpuEvent.apply space virt)
      { s with machine := m },
    (vmmStep space s.machine c.call).2)

def Fresh (root : UInt64) (virt : UInt64 → V) (s : Cpu V γ) : Prop :=
  ∀ p ∈ s.tlb, walkedEntry root virt s.machine.tables p.1 = some p.2

def FreshExcept (root : UInt64) (virt : UInt64 → V) (v : Page) (s : Cpu V γ) : Prop :=
  ∀ p ∈ s.tlb, p.1 ≠ v → walkedEntry root virt s.machine.tables p.1 = some p.2

section Interleavings

theorem interleave_nil (fills : List (List Page)) :
    interleave fills ([] : List (Action V)) = fills.flatten.map .fill := by
  rw [interleave]

theorem interleave_cons (fills : List (List Page)) (a : Action V) (as : List (Action V)) :
    ∃ (pages : List Page) (rest : List (List Page)), interleave fills (a :: as) =
      pages.map CpuEvent.fill ++ .act a :: interleave rest as := by
  cases fills with
  | nil => exact ⟨[], [], rfl⟩
  | cons pages fills => exact ⟨pages, fills, rfl⟩

theorem filterMap_fills (pages : List Page) :
    (pages.map CpuEvent.fill).filterMap (CpuEvent.action? (V := V)) = [] := by
  induction pages with
  | nil => rfl
  | cons v pages ih => exact ih

theorem interleave_iff (es : List (CpuEvent V)) (as : List (Action V)) :
    es.filterMap CpuEvent.action? = as ↔ ∃ fills, interleave fills as = es := by
  constructor
  · intro h
    subst h
    induction es with
    | nil => exact ⟨[], rfl⟩
    | cons e es ih =>
      obtain ⟨fills, hfills⟩ := ih
      cases e with
      | act a =>
        use [] :: fills
        exact congrArg (CpuEvent.act a :: ·) hfills
      | fill v =>
        change ∃ fills', interleave fills' (es.filterMap CpuEvent.action?) = .fill v :: es
        generalize es.filterMap CpuEvent.action? = as at *
        cases as with
        | nil =>
          use [v] :: fills
          rw [interleave_nil] at hfills ⊢
          exact congrArg (CpuEvent.fill v :: ·) hfills
        | cons a as =>
          obtain ⟨pages, rest, hsplit⟩ := interleave_cons fills a as
          use (v :: pages) :: rest
          rw [← hfills, hsplit]
          rfl
  · intro h
    obtain ⟨fills, rfl⟩ := h
    induction as generalizing fills with
    | nil =>
      rw [interleave_nil]
      exact filterMap_fills _
    | cons a as ih =>
      obtain ⟨pages, rest, hsplit⟩ := interleave_cons fills a as
      rw [hsplit, List.filterMap_append, filterMap_fills, List.nil_append]
      exact congrArg (a :: ·) (ih rest)

end Interleavings

section Events

theorem mem_of_mem_flush {a : Action V} {tlb : List (Page × UInt64)} {p : Page × UInt64}
    (hp : p ∈ a.flush tlb) : p ∈ tlb := by
  cases a with
  | invlpg vaddr => exact List.mem_of_mem_filter hp
  | callAlloc => exact hp
  | callFree paddr => exact hp
  | store table index entry => exact hp

theorem Kept.walkedEntry_eq_some {root : UInt64} {virt : UInt64 → V} {tables tables' : Tables V}
    (h : Kept root virt tables tables') {v : Page} {e : UInt64}
    (he : walkedEntry root virt tables v = some e) : walkedEntry root virt tables' v = some e := by
  obtain ⟨w, hw, hlast⟩ := Option.bind_eq_some_iff.mp he
  rw [walkedEntry, h.pageWalk_eq_some hw]
  exact hlast

variable [DecidableEq V] {space : VmmSpace V γ} {virt : UInt64 → V} {s : Cpu V γ}

theorem CpuEvent.machine_fill (v : Page) :
    ((CpuEvent.fill v).apply space virt s).machine = s.machine := by
  simp only [CpuEvent.apply]
  split
  · rfl
  · rfl

theorem CpuEvent.mem_fill {v : Page} {p : Page × UInt64}
    (hp : p ∈ ((CpuEvent.fill v).apply space virt s).tlb) :
    p ∈ s.tlb ∨ walkedEntry space.rootPaddr virt s.machine.tables p.1 = some p.2 := by
  simp only [CpuEvent.apply] at hp
  split at hp
  · exact Or.inl hp
  · rename_i e he
    rcases List.mem_cons.mp hp with rfl | hp
    · exact Or.inr he
    · exact Or.inl hp

theorem fills_spec (space : VmmSpace V γ) (virt : UInt64 → V) (s : Cpu V γ)
    (pages : List Page) :
    ((pages.map CpuEvent.fill).foldl (CpuEvent.apply space virt) s).machine = s.machine ∧
      ∀ p ∈ ((pages.map CpuEvent.fill).foldl (CpuEvent.apply space virt) s).tlb,
        p ∈ s.tlb ∨ walkedEntry space.rootPaddr virt s.machine.tables p.1 = some p.2 := by
  induction pages generalizing s with
  | nil => exact ⟨rfl, fun p hp => Or.inl hp⟩
  | cons v pages ih =>
    obtain ⟨hmachine, htlb⟩ := ih (s := (CpuEvent.fill v).apply space virt s)
    rw [CpuEvent.machine_fill] at hmachine htlb
    use hmachine
    intro p hp
    rcases htlb p hp with hold | hnew
    · exact CpuEvent.mem_fill hold
    · exact Or.inr hnew

theorem Fresh.fills (h : Fresh space.rootPaddr virt s) (pages : List Page) :
    Fresh space.rootPaddr virt
      ((pages.map CpuEvent.fill).foldl (CpuEvent.apply space virt) s) := by
  obtain ⟨hmachine, htlb⟩ := fills_spec space virt s pages
  intro p hp
  rw [hmachine]
  exact (htlb p hp).elim (h p) id

theorem FreshExcept.fills {v : Page} (h : FreshExcept space.rootPaddr virt v s)
    (pages : List Page) :
    FreshExcept space.rootPaddr virt v
      ((pages.map CpuEvent.fill).foldl (CpuEvent.apply space virt) s) := by
  obtain ⟨hmachine, htlb⟩ := fills_spec space virt s pages
  intro p hp hne
  rw [hmachine]
  exact (htlb p hp).elim (fun hold => h p hold hne) id

theorem machine_interleave (fills : List (List Page)) (as : List (Action V)) :
    ((interleave fills as).foldl (CpuEvent.apply space virt) s).machine =
      perform space s.machine as := by
  induction as generalizing fills s with
  | nil =>
    rw [interleave_nil]
    exact (fills_spec space virt s _).1
  | cons a as ih =>
    obtain ⟨pages, rest, hsplit⟩ := interleave_cons fills a as
    rw [hsplit, List.foldl_append, List.foldl_cons, ih, perform_cons]
    simp only [CpuEvent.apply, (fills_spec space virt s pages).1]

theorem Fresh.act (h : Fresh space.rootPaddr virt s) {a : Action V}
    (ha : ActionKept space virt s.machine a) :
    Fresh space.rootPaddr virt ((CpuEvent.act a).apply space virt s) :=
  fun p hp => ha.walkedEntry_eq_some (h p (mem_of_mem_flush hp))

theorem Fresh.interleave (h : Fresh space.rootPaddr virt s) (fills : List (List Page))
    {as : List (Action V)}
    (has : AlongTotal (actionStep space) (ActionKept space virt) s.machine as) :
    Fresh space.rootPaddr virt
      ((interleave fills as).foldl (CpuEvent.apply space virt) s) := by
  induction as generalizing fills s with
  | nil =>
    rw [interleave_nil]
    exact h.fills _
  | cons a as ih =>
    obtain ⟨pages, rest, hsplit⟩ := interleave_cons fills a as
    rw [hsplit, List.foldl_append, List.foldl_cons]
    have hmachine := (fills_spec space virt s pages).1
    apply ih
    · apply (h.fills pages).act
      rw [hmachine]
      exact has.1
    · simp only [CpuEvent.apply, hmachine]
      exact has.2

theorem page_and_not_low (v : Page) : v.1 &&& ~~~(vmmPageSize - 1) = v.1 := by
  apply eq_of_toNat_eq
  have haligned := (vmmIsAligned4k_iff v.1).mp v.2.2
  rw [toNat_and_not_low v.1 vmmPageSize 12 rfl]
  omega

theorem FreshExcept.invlpg {v : Page} (h : FreshExcept space.rootPaddr virt v s) :
    Fresh space.rootPaddr virt ((CpuEvent.act (.invlpg v.1)).apply space virt s) := by
  intro p hp
  obtain ⟨hmem, hne⟩ := List.mem_filter.mp hp
  rw [page_and_not_low, decide_eq_true_eq] at hne
  exact h p hmem (fun heq => hne (congrArg Subtype.val heq))

end Events

section Trees

variable {root : UInt64} {virt : UInt64 → V} {H : Set UInt64} {tables : Tables V}

theorem Tree.walkedEntry_eq (h : Tree root virt H tables) (v : Page) :
    walkedEntry root virt tables v =
      (translate root virt tables v).map (fun a => a.1 ||| a.2) := by
  rcases h.pageWalk_cases v with ⟨hw, hv⟩ | ⟨g₁, g₂, g₃, e, a, -, -, -, hw, hv⟩
  · rw [walkedEntry, hw, hv]
    rfl
  · rw [walkedEntry, hw, hv, Option.map_some, and_or_and_not]
    rfl

end Trees

section Calls

variable [DecidableEq V] {space : VmmSpace V γ} {virt : UInt64 → V} {handed : γ → Set UInt64}
  {start : Set UInt64} {s : Cpu V γ}

theorem callActions_map (m : Machine V γ) (vaddr paddr flags : UInt64) :
    callActions space m (.map vaddr paddr flags) =
      mapActions space { m with trace := [] } vaddr paddr flags :=
  (records_mapPage space { m with trace := [] } vaddr paddr flags).actions

theorem callActions_unmap (m : Machine V γ) (vaddr : UInt64) :
    callActions space m (.unmap vaddr) = unmapActions space { m with trace := [] } vaddr :=
  (records_unmapPage space { m with trace := [] } vaddr).actions

theorem perform_callActions (m : Machine V γ) (c : VmmCall) :
    perform space { m with trace := [] } (callActions space m c) = (vmmStep space m c).1 := by
  cases c with
  | map vaddr paddr flags =>
    rw [callActions_map]
    exact (records_mapPage _ _ _ _ _).perform
  | unmap vaddr =>
    rw [callActions_unmap]
    exact (records_unmapPage _ _ _).perform
  | query vaddr out => rfl

theorem cpuStep_machine (s : Cpu V γ) (c : CpuCall) :
    (cpuStep space virt s c).1.machine = (vmmStep space s.machine c.call).1 := by
  simp only [cpuStep, machine_interleave]
  exact perform_callActions s.machine c.call

theorem Fresh.clear (laws : RecordLaws space virt handed)
    (howned : Owned space virt handed start s.machine) (h : Fresh space.rootPaddr virt s)
    {v : Page} {p : UInt64}
    (hp : reach (link virt s.machine.tables) space.rootPaddr v.path = some p) :
    FreshExcept space.rootPaddr virt v
      ((CpuEvent.act (.store (virt p) (idxPt v.1) 0)).apply space virt s) := by
  obtain ⟨howned', hpages⟩ := howned.storeLeaf laws hp 0
  intro q hq hne
  have hold := h q hq
  rw [howned.tree.walkedEntry_eq] at hold
  have hsame := congrFun hpages q.1
  rw [Function.update_of_ne hne] at hsame
  change walkedEntry _ _ (s.machine.store (virt p) (idxPt v.1) 0).tables q.1 = _
  rw [howned'.tree.walkedEntry_eq]
  rw [pages, pages] at hsame
  rw [hsame, hold]

theorem Fresh.unmap (laws : RecordLaws space virt handed)
    (howned : Owned space virt handed start s.machine) (h : Fresh space.rootPaddr virt s)
    (fills : List (List Page)) (vaddr : UInt64) :
    Fresh space.rootPaddr virt
      ((Vmm.interleave fills (unmapActions space s.machine vaddr)).foldl
        (CpuEvent.apply space virt) s) := by
  rw [unmapActions]
  split_ifs with hbad
  · exact h.interleave fills True.intro
  simp only [not_or, Bool.not_eq_false] at hbad
  obtain ⟨v, rfl⟩ : ∃ v : Page, v.1 = vaddr := ⟨⟨vaddr, hbad.1, hbad.2⟩, rfl⟩
  cases hfind : findPageTable space s.machine v.1 with
  | error rc => exact h.interleave fills True.intro
  | ok pt =>
    obtain ⟨g, rfl, hg⟩ := laws.findPageTable_eq_ok hfind
    dsimp only
    split_ifs with hpresent
    · exact h.interleave fills True.intro
    obtain ⟨pages₁, rest₁, hsplit₁⟩ := interleave_cons fills
      (Action.store (virt g) (idxPt v.1) 0) [.invlpg v.1]
    obtain ⟨pages₂, rest₂, hsplit₂⟩ := interleave_cons rest₁ (Action.invlpg (V := V) v.1) []
    rw [hsplit₁, hsplit₂, interleave_nil, List.foldl_append, List.foldl_cons, List.foldl_append,
      List.foldl_cons]
    have hmachine := (fills_spec space virt s pages₁).1
    have hcleared := (h.fills pages₁).clear laws (hmachine.symm ▸ howned) (hmachine.symm ▸ hg)
    exact (hcleared.fills pages₂).invlpg.fills _

theorem Fresh.step (laws : RecordLaws space virt handed)
    (howned : Owned space virt handed start { s.machine with trace := [] })
    (h : Fresh space.rootPaddr virt s) (c : CpuCall) :
    Fresh space.rootPaddr virt (cpuStep space virt s c).1 := by
  have hstart : Fresh space.rootPaddr virt { s with machine := { s.machine with trace := [] } } :=
    h
  obtain ⟨call, fills⟩ := c
  simp only [cpuStep]
  cases call with
  | map vaddr paddr flags =>
    rw [callActions_map]
    apply hstart.interleave
    exact laws.mapActions_kept (laws.mapSound howned.recorded ⟨vaddr, paddr, flags⟩)
  | unmap vaddr =>
    rw [callActions_unmap]
    exact hstart.unmap laws howned fills vaddr
  | query vaddr out => exact hstart.interleave fills True.intro

end Calls

/-- From a zeroed root and an empty TLB, and however the CPU fills it, no call leaves a stale
entry behind. -/
theorem tlb_never_stale [DecidableEq V] {space : VmmSpace V γ} {virt : UInt64 → V}
    {handed : γ → Set UInt64} (laws : RecordLaws space virt handed) (m : Machine V γ)
    (hzero : ∀ i, m.tables (virt space.rootPaddr) i = 0) (calls : List CpuCall) :
    Always (cpuStep space virt) (Fresh space.rootPaddr virt) ⟨m, []⟩ calls := by
  rw [always_iff_along
    (fun s => ∃ start, Owned space virt handed start { s.machine with trace := [] }) _
    (fun _ _ => True) (fun _ _ => True)]
  · exact AlongTotal.trivial _ _ _
  · intro s c hs _
    obtain ⟨start, howned⟩ := hs
    rw [cpuStep_machine]
    exact ⟨_, (howned.step laws c.call).1.restart⟩
  · intro s c hs hfresh _
    obtain ⟨start, howned⟩ := hs
    exact iff_of_true (hfresh.step laws howned c) True.intro
  · exact ⟨∅, (owned_of_zeroed_root handed hzero).1⟩
  · exact fun p hp => absurd hp List.not_mem_nil
  · exact AlongTotal.trivial _ _ _

def tlbCalls : List CpuCall :=
  [⟨.map 0x400000 0x5000 2, [[⟨0x400000, by decide⟩]]⟩,
    ⟨.map 0x401000 0x6000 0, [[⟨0x400000, by decide⟩]]⟩,
    ⟨.query 0x400000 none, [[⟨0x401000, by decide⟩, ⟨0x402000, by decide⟩]]⟩,
    ⟨.unmap 0x400000, [[], [⟨0x400000, by decide⟩, ⟨0x401000, by decide⟩]]⟩]

theorem tlb_never_stale_sample :
    Always (cpuStep sampleSpace id) (Fresh 0x1000 id) ⟨sampleMachine, []⟩ tlbCalls ∧
    (runTotal (cpuStep sampleSpace id) ⟨sampleMachine, []⟩ (tlbCalls.take 3)).1.tlb.map
      (fun p => (p.1.1, p.2)) = [(0x401000, 0x6001), (0x400000, 0x5003)] ∧
    (runTotal (cpuStep sampleSpace id) ⟨sampleMachine, []⟩ tlbCalls).1.tlb.map
      (fun p => (p.1.1, p.2)) = [(0x401000, 0x6001), (0x401000, 0x6001)] := by
  refine ⟨?_, ?_, ?_⟩
  · exact tlb_never_stale sample_record sampleMachine (fun _ => rfl) tlbCalls
  · decide +kernel
  · decide +kernel

end Mcsos.Vmm
