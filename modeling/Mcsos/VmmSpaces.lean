import Mcsos.VmmOwnership

/-!
# Address spaces over one frame allocator

Address spaces with different roots may share their callbacks, and with them the allocator. A
call on one space writes to the tables of this space and to frames that nobody used, so every
other space keeps its tables and its pages. The answers to an interleaving of calls are those of
independent page maps.
-/

namespace Mcsos.Vmm
open RadixTree StepRun

variable {V γ : Type}

/-- Frames in use that do not belong to the space. -/
structure Aside (space : VmmSpace V γ) (handed : γ → Set UInt64) (start S : Set UInt64)
    (m : Machine V γ) : Prop where
  frames : ∀ q ∈ S, Frame q
  record : insert space.rootPaddr S ⊆ handed m.ctx
  root : space.rootPaddr ∉ S
  held : Disjoint (m.held start) S

def FramesKept (virt : UInt64 → V) (S : Set UInt64) (m m' : Machine V γ) : Prop :=
  ∀ q ∈ S, m'.tables (virt q) = m.tables (virt q)

theorem FramesKept.trans {virt : UInt64 → V} {S : Set UInt64} {m m' m'' : Machine V γ}
    (h : FramesKept virt S m m') (h' : FramesKept virt S m' m'') : FramesKept virt S m m'' :=
  fun q hq => (h' q hq).trans (h q hq)

section Levels

variable {space : VmmSpace V γ} {virt : UInt64 → V} {handed : γ → Set UInt64}
  {start S : Set UInt64} {m m₁ : Machine V γ} {p c : UInt64} {π : List (Fin 512)}
  {alloc : Tables V → γ → UInt64 × Tables V × γ}

theorem Aside.isFrame (hS : Aside space handed start S m) {q : UInt64} (hq : q ∈ S) :
    space.IsFrame q :=
  Or.inr (hS.frames q hq)

theorem Aside.mem_handed (hS : Aside space handed start S m) {q : UInt64} (hq : q ∈ S) :
    q ∈ handed m.ctx :=
  hS.record (Set.mem_insert_of_mem _ hq)

theorem Aside.not_reached (hS : Aside space handed start S m)
    (h : Owned space virt handed start m) (hπ : π.length ≤ 3)
    (hp : reach (link virt m.tables) space.rootPaddr π = some p) : p ∉ S := by
  intro hin
  rcases h.tree.frames π p hπ hp with heq | ⟨-, hheld⟩
  · exact hS.root (heq ▸ hin)
  · exact Set.disjoint_left.mp hS.held hheld hin

theorem Aside.callAlloc (laws : RecordLaws space virt handed)
    (hS : Aside space handed start S m) (halloc : space.allocFrame = some alloc)
    (hcall : m.callAlloc alloc = (c, m₁)) :
    Aside space handed start S m₁ ∧ FramesKept virt S m m₁ := by
  obtain ⟨-, hkeep⟩ := laws.answer halloc hcall
  have hheld : Disjoint (m₁.held start) S := by
    rw [Machine.held_callAlloc hcall, hold]
    split_ifs with hinvalid
    · exact hS.held
    · obtain ⟨-, -, hfresh, -⟩ := laws.fresh_frame halloc hcall hinvalid
      exact Set.disjoint_insert_left.mpr ⟨fun hin => hfresh (hS.mem_handed hin), hS.held⟩
  constructor
  · exact ⟨hS.frames, hS.record.trans (laws.handed_subset halloc hcall), hS.root, hheld⟩
  · exact fun q hq => hkeep q (Or.inr (hS.mem_handed hq))

theorem Aside.callFree (laws : RecordLaws space virt handed)
    (hS : Aside space handed start S m) (hc : c ∉ insert space.rootPaddr S)
    {free : Tables V → γ → UInt64 → Tables V × γ} (hfree : space.freeFrame = some free) :
    Aside space handed start S (m.callFree free c) ∧
      FramesKept virt S m (m.callFree free c) := by
  obtain ⟨hrecord, hsame⟩ := laws.free free hfree m.tables m.ctx c
  have hin : ∀ q ∈ insert space.rootPaddr S, q ∈ handed m.ctx \ {c} := by
    intro q hq
    exact ⟨hS.record hq, fun heq => hc ((Set.mem_singleton_iff.mp heq) ▸ hq)⟩
  have hheld : Disjoint ((m.callFree free c).held start) S := by
    rw [Machine.held_of_events (m := m) (e := .freed c) rfl, hold]
    exact hS.held.mono_left Set.sdiff_subset
  constructor
  · exact ⟨hS.frames, fun q hq => hrecord (hin q hq), hS.root, hheld⟩
  · exact fun q hq => hsame q (Or.inr (hin q (Set.mem_insert_of_mem _ hq)))

variable [DecidableEq V]

theorem Aside.store (laws : AddressLaws space virt) (hS : Aside space handed start S m)
    (hp : space.IsFrame p) (hout : p ∉ S) (i : Fin 512) (e : UInt64) :
    Aside space handed start S (m.store (virt p) i e) ∧
      FramesKept virt S m (m.store (virt p) i e) := by
  constructor
  · exact ⟨hS.frames, hS.record, hS.root, hS.held⟩
  · intro q hq
    have hne : q ≠ p := fun heq => hout (heq ▸ hq)
    rw [laws.store_tables m hp i e (hS.isFrame hq), if_neg hne]

def ActionAside (space : VmmSpace V γ) (virt : UInt64 → V) (handed : γ → Set UInt64)
    (start S : Set UInt64) (m : Machine V γ) (a : Action V) : Prop :=
  Aside space handed start S (a.apply space m) ∧ FramesKept virt S m (a.apply space m)

theorem Aside.perform (hS : Aside space handed start S m) {as : List (Action V)}
    (h : AlongTotal (actionStep space) (ActionAside space virt handed start S) m as) :
    Aside space handed start S (Vmm.perform space m as) ∧
      FramesKept virt S m (Vmm.perform space m as) := by
  apply runTotal_invariant (fun m' => Aside space handed start S m' ∧ FramesKept virt S m m')
    (ActionAside space virt handed start S) _ ⟨hS, fun _ _ => rfl⟩ h
  exact fun m' a hm' ha => ⟨ha.1, hm'.2.trans ha.2⟩

theorem Aside.actionAlloc (laws : RecordLaws space virt handed)
    (hS : Aside space handed start S m) (halloc : space.allocFrame = some alloc)
    (hcall : m.callAlloc alloc = (c, m₁)) :
    ActionAside space virt handed start S m .callAlloc := by
  rw [ActionAside, apply_callAlloc halloc hcall]
  exact hS.callAlloc laws halloc hcall

theorem Aside.zeroing (laws : AddressLaws space virt) (hS : Aside space handed start S m)
    (hc : space.IsFrame c) (hout : c ∉ S) :
    AlongTotal (actionStep space) (ActionAside space virt handed start S) m
      (zeroActions (virt c)) := by
  unfold zeroActions
  generalize List.finRange 512 = l
  induction l generalizing m with
  | nil => exact True.intro
  | cons i l ih =>
    have hstore := hS.store laws hc hout i 0
    exact ⟨hstore, ih hstore.1⟩

theorem Aside.nextTable (laws : RecordLaws space virt handed)
    (hS : Aside space handed start S m) (h : Owned space virt handed start m)
    (hπ : π.length ≤ 3) (hp : reach (link virt m.tables) space.rootPaddr π = some p)
    (i : Fin 512) :
    AlongTotal (actionStep space) (ActionAside space virt handed start S) m
      (nextTableActions space m (virt p) i) := by
  have hstep := nextStep space m (virt p) i
  generalize nextTableActions space m (virt p) i = as at hstep ⊢
  generalize getOrAllocNextTable space m (virt p) i = r at hstep
  cases hstep with
  | stay hrc => exact True.intro
  | found hpresent hhuge htable => exact True.intro
  | refused halloc hcall hbad => exact ⟨hS.actionAlloc laws halloc hcall, True.intro⟩
  | leaked halloc hcall hfree => exact ⟨hS.actionAlloc laws halloc hcall, True.intro⟩
  | returned halloc hcall hgood hfree =>
    obtain ⟨-, -, hfresh, -⟩ := laws.fresh_frame halloc hcall hgood
    obtain ⟨hS₁, -⟩ := hS.callAlloc laws halloc hcall
    apply along_cons (apply_callAlloc halloc hcall) (hS.actionAlloc laws halloc hcall)
    refine ⟨?_, True.intro⟩
    rw [ActionAside, apply_callFree hfree]
    exact hS₁.callFree laws (fun hin => hfresh (hS.record hin)) hfree
  | @linked c m₁ newTable alloc habsent halloc hcall hgood htable =>
    obtain ⟨hc, -, hfresh, -⟩ := laws.fresh_frame halloc hcall hgood
    obtain ⟨hS₁, -⟩ := hS.callAlloc laws halloc hcall
    have hplace := laws.tableFromPhys_eq_some (Or.inr hc) htable
    subst hplace
    have hzero := hS₁.zeroing laws.toAddressLaws (Or.inr hc)
      (fun hin => hfresh (hS.mem_handed hin))
    apply along_cons (apply_callAlloc halloc hcall) (hS.actionAlloc laws halloc hcall)
    exact along_append.mpr ⟨hzero, (hS₁.perform hzero).1.store laws.toAddressLaws
      (h.isFrame hπ hp) (hS.not_reached h hπ hp) i _, True.intro⟩

theorem Aside.descend (laws : RecordLaws space virt handed)
    (hS : Aside space handed start S m) (h : Owned space virt handed start m)
    (path : List (Fin 512)) (hπ : π.length + path.length ≤ 3)
    (hp : reach (link virt m.tables) space.rootPaddr π = some p) :
    AlongTotal (actionStep space) (ActionAside space virt handed start S) m
      (descendActions space path m (virt p)) := by
  induction path generalizing m π p with
  | nil => exact True.intro
  | cons i path ih =>
    rw [List.length_cons] at hπ
    rw [descendActions]
    obtain ⟨h₁, -, hnext⟩ := h.nextTable laws (by omega) hp i
    have hlevel := hS.nextTable laws h (by omega) hp i
    obtain ⟨hS₁, -⟩ := hS.perform hlevel
    apply along_append.mpr
    use hlevel
    rw [(records_nextTable _ _ _ _).perform] at hS₁ ⊢
    rcases hstep : getOrAllocNextTable space m (virt p) i with ⟨rc | next, m₁⟩
    · exact True.intro
    · obtain ⟨g, rfl, hg⟩ := hnext next m₁ hstep
      rw [hstep] at h₁ hS₁
      exact ih hS₁ h₁ (length_concat_le hπ i) hg

theorem Aside.mapPage (laws : RecordLaws space virt handed)
    (hS : Aside space handed start S m) (h : Owned space virt handed start m)
    (vaddr paddr flags : UInt64) :
    AlongTotal (actionStep space) (ActionAside space virt handed start S) m
      (mapActions space m vaddr paddr flags) := by
  rw [mapActions_eq]
  split_ifs with hbad
  · exact True.intro
  simp only [not_or, Bool.not_eq_false] at hbad
  obtain ⟨v, rfl⟩ : ∃ v : Page, v.1 = vaddr := ⟨⟨vaddr, hbad.1, hbad.2.1⟩, rfl⟩
  cases hroot : tableFromPhys space m space.rootPaddr with
  | none => exact True.intro
  | some pml4 =>
    have hplace := laws.tableFromPhys_eq_some (Or.inl rfl) hroot
    subst hplace
    dsimp only
    obtain ⟨h₁, -, hnext⟩ := h.descend laws (tablePath v.1) (π := [])
      (by simp [tablePath]) rfl
    have hlevels := hS.descend laws h (tablePath v.1) (π := []) (by simp [tablePath]) rfl
    obtain ⟨hS₁, -⟩ := hS.perform hlevels
    apply along_append.mpr
    use hlevels
    rw [(records_descend _ _ _ _).perform] at hS₁ ⊢
    rcases hstep : Vmm.descend space (tablePath v.1) m (virt space.rootPaddr) with
      ⟨rc | pt, m₁⟩
    · exact True.intro
    obtain ⟨g, rfl, hg⟩ := hnext pt m₁ hstep
    rw [hstep] at h₁ hS₁
    have hlength : ([] ++ tablePath v.1).length ≤ 3 := le_of_eq v.path_length
    dsimp only
    rw [leafActions]
    split_ifs with hpresent
    · exact True.intro
    · exact ⟨hS₁.store laws.toAddressLaws (h₁.isFrame hlength hg)
        (hS₁.not_reached h₁ hlength hg) (idxPt v.1) _, True.intro⟩

theorem Aside.unmapPage (laws : RecordLaws space virt handed)
    (hS : Aside space handed start S m) (h : Owned space virt handed start m)
    (vaddr : UInt64) :
    AlongTotal (actionStep space) (ActionAside space virt handed start S) m
      (unmapActions space m vaddr) := by
  rw [unmapActions]
  split_ifs with hbad
  · exact True.intro
  simp only [not_or, Bool.not_eq_false] at hbad
  obtain ⟨v, rfl⟩ : ∃ v : Page, v.1 = vaddr := ⟨⟨vaddr, hbad.1, hbad.2⟩, rfl⟩
  cases hfind : findPageTable space m v.1 with
  | error rc => exact True.intro
  | ok pt =>
    obtain ⟨g, rfl, hg⟩ := laws.findPageTable_eq_ok hfind
    have hlength := le_of_eq v.path_length
    dsimp only
    split_ifs with hpresent
    · exact True.intro
    · have hstore := hS.store laws.toAddressLaws (h.isFrame hlength hg)
        (hS.not_reached h hlength hg) (idxPt v.1) 0
      have hheld : (vmmInvalidatePage (m.store (virt g) (idxPt v.1) 0) v.1).held start =
          m.held start :=
        Machine.held_of_events (m := m) (e := .invalidated v.1) rfl
      exact ⟨hstore, ⟨⟨hS.frames, hS.record, hS.root, hheld ▸ hS.held⟩, fun _ _ => rfl⟩,
        True.intro⟩

theorem Aside.step (laws : RecordLaws space virt handed)
    (hS : Aside space handed start S { m with trace := [] })
    (h : Owned space virt handed start { m with trace := [] }) (c : VmmCall) :
    Aside space handed start S (vmmStep space m c).1 ∧
      FramesKept virt S m (vmmStep space m c).1 := by
  cases c with
  | map vaddr paddr flags =>
    have hcall := hS.perform (hS.mapPage laws h vaddr paddr flags)
    rw [(records_mapPage _ _ _ _ _).perform] at hcall
    exact hcall
  | unmap vaddr =>
    have hcall := hS.perform (hS.unmapPage laws h vaddr)
    rw [(records_unmapPage _ _ _).perform] at hcall
    exact hcall
  | query vaddr out => exact ⟨hS, fun _ _ => rfl⟩

end Levels

/-- What is assumed of the callbacks that the spaces share. -/
structure SharedLaws {ι : Type} (spaces : ι → VmmSpace V γ) (virt : UInt64 → V)
    (handed : γ → Set UInt64) : Prop where
  callbacks : ∀ i, FrameLaws (spaces i) virt handed
  free : ∀ i f, (spaces i).freeFrame = some f →
    ∀ tables ctx p, FreeLaw (spaces i) virt handed tables ctx p (f tables ctx p)
  frames : ∀ ctx, ∀ q ∈ handed ctx, Frame q

def tableFrames {ι : Type} (spaces : ι → VmmSpace V γ) (held : ι → Set UInt64) (i : ι) :
    Set UInt64 :=
  insert (spaces i).rootPaddr (held i)

/-- Each space has its own tables. -/
structure Isolated {ι : Type} (spaces : ι → VmmSpace V γ) (virt : UInt64 → V)
    (handed : γ → Set UInt64) (held : ι → Set UInt64) (m : Machine V γ) : Prop where
  owned : ∀ i, Owned (spaces i) virt handed (held i) { m with trace := [] }
  roots : ∀ i, (spaces i).rootPaddr ∈ handed m.ctx
  apart : ∀ i j, i ≠ j → Disjoint (tableFrames spaces held i) (tableFrames spaces held j)

section Family

variable {ι : Type} {spaces : ι → VmmSpace V γ} {virt : UInt64 → V} {handed : γ → Set UInt64}
  {held : ι → Set UInt64} {m : Machine V γ} {i j : ι}

theorem SharedLaws.record (laws : SharedLaws spaces virt handed) (i : ι) :
    RecordLaws (spaces i) virt handed where
  toVirt := (laws.callbacks i).address.toVirt
  injective := (laws.callbacks i).injective
  alloc := by
    intro f hf
    obtain ⟨g, hg, hlaw⟩ := (laws.callbacks i).alloc
    rw [hf] at hg
    cases hg
    exact hlaw
  free := laws.free i

theorem Isolated.subset_handed (h : Isolated spaces virt handed held m) (i : ι) :
    tableFrames spaces held i ⊆ handed m.ctx :=
  Set.insert_subset (h.roots i) (h.owned i).record

theorem Isolated.aside (laws : SharedLaws spaces virt handed)
    (h : Isolated spaces virt handed held m) (hne : i ≠ j) :
    Aside (spaces i) handed (held i) (tableFrames spaces held j) { m with trace := [] } := by
  have happart := h.apart i j hne
  rw [tableFrames, Set.disjoint_insert_left] at happart
  constructor
  case frames => exact fun q hq => laws.frames m.ctx q (h.subset_handed j hq)
  case record => exact Set.insert_subset (h.roots i) (h.subset_handed j)
  case root => exact happart.1
  case held => exact happart.2

theorem Isolated.represents (h : Isolated spaces virt handed held m) (i : ι) :
    Represents (spaces i) virt handed m (pages (spaces i) virt m) :=
  ⟨(h.owned i).tree.congr (h.owned i).record (fun _ _ => rfl), fun _ => rfl⟩

theorem isolated_of_zeroed_roots (hinj : Function.Injective fun i => (spaces i).rootPaddr)
    (hroots : ∀ i, (spaces i).rootPaddr ∈ handed m.ctx)
    (hzero : ∀ i k, m.tables (virt (spaces i).rootPaddr) k = 0) :
    Isolated spaces virt handed (fun _ => ∅) m where
  owned := fun i => (owned_of_zeroed_root handed (hzero i)).1
  roots := hroots
  apart := by
    intro i j hne
    rw [tableFrames, tableFrames, Set.disjoint_insert_left, Set.mem_insert_iff]
    exact ⟨fun hin => hin.elim (fun heq => hne (hinj heq)) (Set.notMem_empty _),
      Set.empty_disjoint _⟩

theorem Isolated.no_shared_table (h : Isolated spaces virt handed held m) (hne : i ≠ j)
    {ρ σ : List (Fin 512)} {p : UInt64} (hρ : ρ.length ≤ 3) (hσ : σ.length ≤ 3)
    (hp : reach (link virt m.tables) (spaces i).rootPaddr ρ = some p) :
    reach (link virt m.tables) (spaces j).rootPaddr σ ≠ some p := by
  intro hq
  have hi : p ∈ tableFrames spaces held i := ((h.owned i).tree.frames ρ p hρ hp).imp_right And.right
  have hj : p ∈ tableFrames spaces held j := ((h.owned j).tree.frames σ p hσ hq).imp_right And.right
  exact Set.disjoint_left.mp (h.apart i j hne) hi hj

theorem Isolated.congr (h : Isolated spaces virt handed held m) (m' : Machine V γ)
    (hrecord : ∀ i, tableFrames spaces held i ⊆ handed m'.ctx)
    (hsame : ∀ i, FramesKept virt (tableFrames spaces held i) m m') :
    Isolated spaces virt handed held m' ∧
      ∀ i, pages (spaces i) virt m' = pages (spaces i) virt m := by
  have hcongr : ∀ i, Owned (spaces i) virt handed (held i) { m' with trace := [] } ∧
      SamePages (spaces i) virt m m' :=
    fun i => (h.owned i).congr rfl (fun q hq => hrecord i (Set.mem_insert_of_mem _ hq)) (hsame i)
  constructor
  · exact ⟨fun i => (hcongr i).1, fun i => hrecord i (Set.mem_insert _ _), h.apart⟩
  · exact fun i => funext (hcongr i).2

variable [DecidableEq ι]

def holdAt (held : ι → Set UInt64) (i : ι) (r : VmmReply) : ι → Set UInt64 :=
  Function.update held i (r.events.foldl hold (held i))

theorem tableFrames_holdAt_of_ne (hne : j ≠ i) (r : VmmReply) :
    tableFrames spaces (holdAt held i r) j = tableFrames spaces held j := by
  rw [tableFrames, holdAt, Function.update_of_ne hne]
  rfl

variable [DecidableEq V]

theorem Isolated.step (laws : SharedLaws spaces virt handed)
    (h : Isolated spaces virt handed held m) (i : ι) (c : VmmCall) :
    Isolated spaces virt handed (holdAt held i (vmmStep (spaces i) m c).2)
        (vmmStep (spaces i) m c).1 ∧
      pages (spaces i) virt (vmmStep (spaces i) m c).1 =
        (pages (spaces i) virt m).after c (vmmStep (spaces i) m c).2 ∧
      ∀ j, j ≠ i →
        pages (spaces j) virt (vmmStep (spaces i) m c).1 = pages (spaces j) virt m := by
  obtain ⟨howned, hheld, hafter⟩ := (h.owned i).step (laws.record i) c
  have hself : Aside (spaces i) handed (held i) ∅ { m with trace := [] } :=
    ⟨fun q hq => absurd hq (Set.notMem_empty q), Set.insert_subset (h.roots i)
      (Set.empty_subset _), Set.notMem_empty _, Set.disjoint_empty _⟩
  obtain ⟨hkept, -⟩ := hself.step (laws.record i) (h.owned i) c
  have hothers := fun j (hne : j ≠ i) =>
    (h.aside laws hne.symm).step (laws.record i) (h.owned i) c
  have hcongr : ∀ j, j ≠ i →
      Owned (spaces j) virt handed (held j) { (vmmStep (spaces i) m c).1 with trace := [] } ∧
        SamePages (spaces j) virt m (vmmStep (spaces i) m c).1 :=
    fun j hne => (h.owned j).congr rfl
      (fun q hq => (hothers j hne).1.mem_handed (Set.mem_insert_of_mem _ hq)) (hothers j hne).2
  have hdisjoint : ∀ j, j ≠ i → Disjoint
      (tableFrames spaces (holdAt held i (vmmStep (spaces i) m c).2) i)
      (tableFrames spaces (holdAt held i (vmmStep (spaces i) m c).2) j) := by
    intro j hne
    rw [tableFrames_holdAt_of_ne hne, tableFrames, holdAt, Function.update_self, ← hheld,
      Set.disjoint_insert_left]
    exact ⟨(hothers j hne).1.root, (hothers j hne).1.held⟩
  constructor
  · constructor
    case owned =>
      intro j
      by_cases hne : j = i
      · subst hne
        rw [holdAt, Function.update_self, ← hheld]
        exact howned.restart
      · rw [holdAt, Function.update_of_ne hne]
        exact (hcongr j hne).1
    case roots =>
      intro j
      by_cases hne : j = i
      · subst hne
        exact hkept.record (Set.mem_insert _ _)
      · exact (hothers j hne).1.mem_handed (Set.mem_insert _ _)
    case apart =>
      intro j k hjk
      by_cases hj : j = i
      · subst hj
        exact hdisjoint k hjk.symm
      · by_cases hk : k = i
        · subst hk
          exact (hdisjoint j hj).symm
        · rw [tableFrames_holdAt_of_ne hj, tableFrames_holdAt_of_ne hk]
          exact h.apart j k hjk
  · exact ⟨hafter, fun j hne => funext (hcongr j hne).2⟩

def spacesStep (spaces : ι → VmmSpace V γ) (m : Machine V γ) (c : ι × VmmCall) :
    Machine V γ × VmmReply :=
  vmmStep (spaces c.1) m c.2

def SpacesAllow (M : ι → PageMap) (c : ι × VmmCall) (r : VmmReply) : Prop :=
  (M c.1).Allows c.2 r

def spacesAfter (M : ι → PageMap) (c : ι × VmmCall) (r : VmmReply) : ι → PageMap :=
  Function.update M c.1 ((M c.1).after c.2 r)

def SpacesRepresent (spaces : ι → VmmSpace V γ) (virt : UInt64 → V) (handed : γ → Set UInt64)
    (m : Machine V γ) (M : ι → PageMap) : Prop :=
  (∃ held, Isolated spaces virt handed held m) ∧ ∀ i, pages (spaces i) virt m = M i

theorem spacesStep_explained (laws : SharedLaws spaces virt handed) {M : ι → PageMap}
    (h : SpacesRepresent spaces virt handed m M) (c : ι × VmmCall) :
    SpacesAllow M c (spacesStep spaces m c).2 ∧
      SpacesRepresent spaces virt handed (spacesStep spaces m c).1
        (spacesAfter M c (spacesStep spaces m c).2) := by
  obtain ⟨i, c⟩ := c
  obtain ⟨⟨held, hiso⟩, hpages⟩ := h
  obtain ⟨hiso', hafter, hother⟩ := hiso.step laws i c
  have hallow := (vmmStep_explained (laws.callbacks i) (hiso.represents i) c).1
  rw [hpages i] at hallow hafter
  use hallow, ⟨_, hiso'⟩
  intro j
  rw [spacesAfter, Function.update_apply]
  split_ifs with hne
  · subst hne
    exact hafter
  · exact (hother j hne).trans (hpages j)

/-- From zeroed roots, the answers to every interleaving of calls are those of independent page
maps, one for each space, and no frame ever becomes a table of two spaces. -/
theorem address_spaces_isolated (laws : SharedLaws spaces virt handed)
    (hinj : Function.Injective fun i => (spaces i).rootPaddr) (m : Machine V γ)
    (hroots : ∀ i, (spaces i).rootPaddr ∈ handed m.ctx)
    (hzero : ∀ i k, m.tables (virt (spaces i).rootPaddr) k = 0)
    (calls : List (ι × VmmCall)) :
    Explained SpacesAllow spacesAfter (fun _ _ => none) calls
        (runTotal (spacesStep spaces) m calls).2 ∧
      ∀ i j, i ≠ j → ∀ ρ σ : List (Fin 512), ρ.length ≤ 3 → σ.length ≤ 3 →
        ∀ p, reach (link virt (runTotal (spacesStep spaces) m calls).1.tables)
            (spaces i).rootPaddr ρ = some p →
          reach (link virt (runTotal (spacesStep spaces) m calls).1.tables)
            (spaces j).rootPaddr σ ≠ some p := by
  have hstart := isolated_of_zeroed_roots hinj hroots hzero
  have hpages : ∀ i, pages (spaces i) virt m = fun _ => none :=
    fun i => (owned_of_zeroed_root handed (hzero i)).2
  constructor
  · exact runTotal_explained (SpacesRepresent spaces virt handed)
      (fun s M c h => spacesStep_explained laws h c) ⟨⟨_, hstart⟩, hpages⟩ calls
  · obtain ⟨held, hend⟩ := runTotal_invariant
      (fun s => ∃ held, Isolated spaces virt handed held s) (fun _ _ => True)
      (fun s c hs _ => hs.elim (fun held h => ⟨_, (h.step laws c.1 c.2).1⟩))
      ⟨_, hstart⟩ (AlongTotal.trivial (spacesStep spaces) m calls)
    exact fun i j hne ρ σ hρ hσ p hp => hend.no_shared_table hne hρ hσ hp

end Family

def pairSpaces (second : Bool) : VmmSpace UInt64 ℕ :=
  { sampleSpace with rootPaddr := if second then 0x6000 else 0x1000 }

def pairHanded (next : ℕ) : Set UInt64 := insert 0x1000 (insert 0x6000 (sampleHanded next))

theorem sampleAlloc_ne_pair (tables : Tables UInt64) (next : ℕ) :
    (sampleAlloc tables next).1 ≠ 0x6000 ∧
      (sampleAlloc tables next).2.1 0x6000 = tables 0x6000 := by
  rw [sampleAlloc]
  split_ifs with hnext
  · have hne : sampleFrame next ≠ 0x6000 := by
      intro heq
      have hnat := sampleFrame_toNat hnext
      rw [heq] at hnat
      have hval : (0x6000 : UInt64).toNat = 24576 := rfl
      omega
    dsimp only
    rw [Function.update_of_ne hne.symm]
    exact ⟨hne, rfl⟩
  · exact ⟨(by decide : vmmInvalidPhys ≠ 0x6000), rfl⟩

theorem pair_alloc (second : Bool) (tables : Tables UInt64) (next : ℕ) :
    AllocLaw (pairSpaces second) id pairHanded tables next (sampleAlloc tables next) := by
  obtain ⟨hanswer, hkeep⟩ := sample_record.alloc sampleAlloc rfl tables next
  obtain ⟨hne, hsix⟩ := sampleAlloc_ne_pair tables next
  have hroots : (pairSpaces second).rootPaddr = 0x1000 ∨
      (pairSpaces second).rootPaddr = 0x6000 := by
    cases second with
    | false => exact Or.inl rfl
    | true => exact Or.inr rfl
  have hsame : ∀ q ∈ pairHanded next, (sampleAlloc tables next).2.1 q = tables q := by
    intro q hq
    rcases hq with rfl | rfl | hq
    · exact hkeep 0x1000 (Or.inl rfl)
    · exact hsix
    · exact hkeep q (Or.inr hq)
  constructor
  · rcases hanswer with ⟨hinvalid, hsub⟩ | ⟨hframe, hroot, hfresh, hsub⟩
    · exact Or.inl ⟨hinvalid, Set.insert_subset_insert (Set.insert_subset_insert hsub)⟩
    · refine Or.inr ⟨hframe, ?_, ?_, ?_⟩
      · rcases hroots with heq | heq
        · rw [heq]
          exact hroot
        · rw [heq]
          exact hne
      · intro hin
        rcases hin with heq | heq | hin
        · exact hroot heq
        · exact hne heq
        · exact hfresh hin
      · intro q hq
        rcases hq with rfl | rfl | rfl | hq
        · exact Or.inr (Or.inr (hsub (Set.mem_insert _ _)))
        · exact Or.inl rfl
        · exact Or.inr (Or.inl rfl)
        · exact Or.inr (Or.inr (hsub (Set.mem_insert_of_mem _ hq)))
  · intro q hq
    rcases hq with rfl | hq
    · apply hsame
      rcases hroots with heq | heq
      · exact Or.inl heq
      · exact Or.inr (Or.inl heq)
    · exact hsame q hq

theorem pair_laws : SharedLaws pairSpaces id pairHanded where
  callbacks := by
    intro second
    have hroot : vmmIsAligned4k (pairSpaces second).rootPaddr = true := by
      cases second with
      | false => decide
      | true => decide
    exact ⟨⟨⟨_, rfl, fun _ _ _ _ => rfl⟩, fun _ _ _ _ h => h, ⟨_, rfl, pair_alloc second⟩⟩, hroot⟩
  free := fun _ _ hf => by cases hf
  frames := by
    intro next q hq
    rcases hq with rfl | rfl | ⟨k, -, hk, rfl⟩
    · exact ⟨rfl, by decide⟩
    · exact ⟨rfl, by decide⟩
    · rw [Frame, sampleFrame_toNat hk]
      omega

def pairCalls : List (Bool × VmmCall) :=
  [(false, .map 0x400000 0x7000 2), (true, .map 0x400000 0x8000 2), (true, .unmap 0x400000),
    (false, .query 0x400000 (some ⟨0, 0, 0⟩)), (false, .unmap 0x400000)]

def pairMachine : Machine UInt64 ℕ :=
  ⟨fun p _ => if p = 0x1000 ∨ p = 0x6000 then 0 else 0xA5A5A5A5A5A5A5A5, 0, []⟩

theorem address_spaces_isolated_pair :
    Explained SpacesAllow spacesAfter (fun _ _ => none) pairCalls
        (runTotal (spacesStep pairSpaces) pairMachine pairCalls).2 ∧
      (runTotal (spacesStep pairSpaces) pairMachine pairCalls).2.map VmmReply.code =
        [vmmMapOk, vmmErrNomem, vmmErrNotFound, vmmMapOk, vmmMapOk] :=
  ⟨(address_spaces_isolated pair_laws (by decide) pairMachine
      (fun second => by cases second <;> simp [pairSpaces, pairHanded])
      (fun second k => by cases second <;> rfl) pairCalls).1, by decide +kernel⟩

end Mcsos.Vmm
