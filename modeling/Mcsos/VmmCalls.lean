import Mcsos.VmmOwnership

/-!
# Single calls on any tables

The walks of the three calls agree on all tables, even on cyclic ones, where the entry that
`vmm_unmap_page` clears may be one that the same walk has read before. A mapping is read back
as it was asked for if its address fits in an entry. A mapping that fails leaves the tables and
the frames alone unless it has taken a frame first.
-/

namespace Mcsos.Vmm
open RadixTree StepRun

variable {V γ : Type}

/-- `phys_to_virt` depends on the physical address alone. It may refuse some addresses. -/
def VmmSpace.Steady (space : VmmSpace V γ) : Prop :=
  ∀ f, space.physToVirt = some f → ∀ tables tables' ctx ctx' p,
    f tables ctx p = f tables' ctx' p

theorem VmmSpace.Steady.tableFromPhys_eq {space : VmmSpace V γ} (h : space.Steady)
    (m m' : Machine V γ) (p : UInt64) : tableFromPhys space m p = tableFromPhys space m' p := by
  rw [tableFromPhys, tableFromPhys]
  cases hf : space.physToVirt with
  | none => rfl
  | some f =>
    dsimp only
    rw [h f hf m.tables m'.tables m.ctx m'.ctx p]

section Walks

variable {space : VmmSpace V γ} {m m' : Machine V γ} {t u : V} {i : Fin 512}

theorem nextTable_eq_ok_iff : nextTable space m t i = .ok u ↔
    m.tables t i &&& vmmPtePresent ≠ 0 ∧ m.tables t i &&& vmmPteHuge = 0 ∧
      tableFromPhys space m (m.tables t i &&& vmmPteAddrMask) = some u := by
  simp only [nextTable]
  by_cases hstop : m.tables t i &&& vmmPtePresent = 0 ∨ m.tables t i &&& vmmPteHuge ≠ 0
  · rw [if_pos hstop]
    apply iff_of_false (fun h => by cases h)
    exact fun h => hstop.elim h.1 (fun hne => hne h.2.1)
  · rw [if_neg hstop]
    rw [not_or, not_not] at hstop
    cases tableFromPhys space m (m.tables t i &&& vmmPteAddrMask) with
    | none => exact iff_of_false (fun h => by cases h) (fun h => by cases h.2.2)
    | some next =>
      rw [Except.ok.injEq, Option.some_inj]
      exact ⟨fun h => ⟨hstop.1, hstop.2, h⟩, fun h => h.2.2⟩

theorem follow_cons_eq_ok {path : List (Fin 512)} (h : follow space m (i :: path) t = .ok u) :
    ∃ next, nextTable space m t i = .ok next ∧ follow space m path next = .ok u := by
  rw [follow] at h
  cases hnext : nextTable space m t i with
  | error rc =>
    rw [hnext] at h
    cases h
  | ok next =>
    rw [hnext] at h
    exact ⟨next, rfl, h⟩

theorem findPageTable_eq_ok {vaddr : UInt64} (h : findPageTable space m vaddr = .ok u) :
    ∃ pml4, tableFromPhys space m space.rootPaddr = some pml4 ∧
      follow space m (tablePath vaddr) pml4 = .ok u := by
  rw [findPageTable_eq] at h
  cases hroot : tableFromPhys space m space.rootPaddr with
  | none =>
    rw [hroot] at h
    cases h
  | some pml4 =>
    rw [hroot] at h
    exact ⟨pml4, rfl, h⟩

theorem follow_cleared (hsteady : space.Steady) {pt : V} {j : Fin 512}
    (hclear : m'.tables pt j = 0)
    (hkeep : ∀ t i, ¬ (t = pt ∧ i = j) → m'.tables t i = m.tables t i)
    {path : List (Fin 512)} (h : follow space m path t = .ok u) :
    follow space m' path t = .ok u ∨ follow space m' path t = .error vmmErrNotFound := by
  induction path generalizing t with
  | nil => exact Or.inl h
  | cons i path ih =>
    obtain ⟨next, hnext, hrest⟩ := follow_cons_eq_ok h
    rw [follow]
    -- The cleared entry may be of any level: where the walk reads it, it stops.
    by_cases hcell : t = pt ∧ i = j
    · have hstop : nextTable space m' t i = .error vmmErrNotFound := by
        simp only [nextTable]
        rw [hcell.1, hcell.2, hclear, if_pos (Or.inl UInt64.zero_and)]
      rw [hstop]
      exact Or.inr rfl
    · have hsame : nextTable space m' t i = .ok next := by
        rw [nextTable_eq_ok_iff] at hnext ⊢
        rw [hkeep t i hcell, hsteady.tableFromPhys_eq m' m]
        exact hnext
      rw [hsame]
      exact ih hrest

theorem vmmQueryPage_of_leaf {vaddr : UInt64} {pt : V} {paddr flags : UInt64}
    (hvalid : vmmIsCanonical vaddr = true ∧ vmmIsAligned4k vaddr = true)
    (hwalk : findPageTable space m vaddr = .ok pt)
    (hleaf : leafOf (m.tables pt (idxPt vaddr)) = some (paddr, flags)) (out : VmmMapping) :
    vmmQueryPage space m vaddr (some out) = (vmmMapOk, some ⟨vaddr, paddr, flags⟩) := by
  rw [leafOf] at hleaf
  split_ifs at hleaf with habsent
  cases hleaf
  have hgood : ¬ ((some out).isNone = true ∨ vmmIsCanonical vaddr = false ∨
      vmmIsAligned4k vaddr = false) := by
    simp [hvalid]
  simp only [vmmQueryPage, if_neg hgood, hwalk, if_neg habsent]

variable [DecidableEq V]

theorem getOrAllocNextTable_of_nextTable (h : nextTable space m t i = .ok u) :
    getOrAllocNextTable space m t i = (.ok u, m) := by
  obtain ⟨hpresent, hhuge, htable⟩ := nextTable_eq_ok_iff.mp h
  simp only [getOrAllocNextTable]
  rw [if_pos hpresent, if_neg (not_not.mpr hhuge), htable]

theorem descend_cons_eq_ok {path : List (Fin 512)}
    (h : descend space (i :: path) m t = (.ok u, m')) :
    ∃ next m₁, getOrAllocNextTable space m t i = (.ok next, m₁) ∧
      descend space path m₁ next = (.ok u, m') := by
  rw [descend] at h
  rcases hstep : getOrAllocNextTable space m t i with ⟨rc | next, m₁⟩
  · rw [hstep] at h
    cases h
  · rw [hstep] at h
    exact ⟨next, m₁, rfl, h⟩

theorem descend_of_follow {path : List (Fin 512)} (h : follow space m path t = .ok u) :
    descend space path m t = (.ok u, m) := by
  induction path generalizing t with
  | nil =>
    cases h
    rfl
  | cons i path ih =>
    obtain ⟨next, hnext, hrest⟩ := follow_cons_eq_ok h
    rw [descend, getOrAllocNextTable_of_nextTable hnext]
    exact ih hrest

theorem Machine.store_self (m : Machine V γ) (t : V) (i : Fin 512) (e : UInt64) :
    (m.store t i e).tables t i = e := by
  rw [Machine.tables_store, Function.update_self, Function.update_self]

theorem Machine.store_other (m : Machine V γ) {t t' : V} {i i' : Fin 512} (e : UInt64)
    (h : ¬ (t' = t ∧ i' = i)) : (m.store t i e).tables t' i' = m.tables t' i' := by
  rw [Machine.tables_store]
  by_cases ht : t' = t
  · subst ht
    have hi : i' ≠ i := fun heq => h ⟨rfl, heq⟩
    rw [Function.update_self, Function.update_of_ne hi]
  · rw [Function.update_of_ne ht]

structure FoundAt (space : VmmSpace V γ) (m : Machine V γ) (vaddr : UInt64) (pt : V) : Prop where
  canonical : vmmIsCanonical vaddr = true
  aligned : vmmIsAligned4k vaddr = true
  walk : findPageTable space m vaddr = .ok pt
  mapped : m.tables pt (idxPt vaddr) &&& vmmPtePresent ≠ 0

theorem vmmUnmapPage_ok {vaddr : UInt64} (h : (vmmUnmapPage space m vaddr).1 = vmmMapOk) :
    ∃ pt, FoundAt space m vaddr pt ∧ (vmmUnmapPage space m vaddr).2 =
      vmmInvalidatePage (m.store pt (idxPt vaddr) 0) vaddr := by
  have hinval : vmmErrInval ≠ vmmMapOk := by decide
  have hmissing : vmmErrNotFound ≠ vmmMapOk := by decide
  rw [vmmUnmapPage] at h ⊢
  split_ifs at h ⊢ with hbad
  · exact absurd h hinval
  rw [not_or, Bool.not_eq_false, Bool.not_eq_false] at hbad
  cases hfind : findPageTable space m vaddr with
  | error rc =>
    rw [hfind] at h
    exact absurd h (findPageTable_error hfind)
  | ok pt =>
    simp only [hfind] at h ⊢
    split_ifs at h ⊢ with habsent
    · exact absurd h hmissing
    · exact ⟨pt, ⟨hbad.1, hbad.2, hfind, habsent⟩, rfl⟩

theorem vmmQueryPage_code (vaddr : UInt64) (out : VmmMapping) :
    (vmmQueryPage space m vaddr (some out)).1 = (vmmUnmapPage space m vaddr).1 := by
  rw [vmmQueryPage, vmmUnmapPage, Option.isNone_some]
  simp only [Bool.false_eq_true, false_or]
  split_ifs
  · rfl
  cases findPageTable space m vaddr with
  | error rc => rfl
  | ok pt =>
    dsimp only
    split_ifs
    · rfl
    · rfl

theorem FoundAt.map_exists {vaddr : UInt64} {pt : V} (h : FoundAt space m vaddr pt)
    {paddr : UInt64} (hpaddr : vmmIsAligned4k paddr = true) (flags : UInt64) :
    vmmMapPage space m vaddr paddr flags = (vmmErrExists, m) := by
  obtain ⟨pml4, hroot, hfollow⟩ := findPageTable_eq_ok h.walk
  have hvalid : ¬ (vmmIsCanonical vaddr = false ∨ vmmIsAligned4k vaddr = false ∨
      vmmIsAligned4k paddr = false) := by
    simp [h.canonical, h.aligned, hpaddr]
  simp only [vmmMapPage_eq, if_neg hvalid, hroot, descend_of_follow hfollow, mapLeaf,
    if_pos h.mapped]

theorem FoundAt.unmap_again (hsteady : space.Steady) {vaddr : UInt64} {pt : V}
    (h : FoundAt space m vaddr pt) (hclear : m'.tables pt (idxPt vaddr) = 0)
    (hkeep : ∀ t i, ¬ (t = pt ∧ i = idxPt vaddr) → m'.tables t i = m.tables t i) :
    (vmmUnmapPage space m' vaddr).1 = vmmErrNotFound := by
  obtain ⟨pml4, hroot, hfollow⟩ := findPageTable_eq_ok h.walk
  rw [hsteady.tableFromPhys_eq m m'] at hroot
  have hvalid : ¬ (vmmIsCanonical vaddr = false ∨ vmmIsAligned4k vaddr = false) := by
    simp [h.canonical, h.aligned]
  have hempty : m'.tables pt (idxPt vaddr) &&& vmmPtePresent = 0 := by
    rw [hclear, UInt64.zero_and]
  rw [vmmUnmapPage, if_neg hvalid, findPageTable_eq, hroot]
  rcases follow_cleared hsteady hclear hkeep hfollow with hsame | hstop
  · simp only [hsame, if_pos hempty]
  · simp only [hstop]

end Walks

/-- On any tables `vmm_query_page` and `vmm_unmap_page` answer alike, `vmm_map_page` refuses a
page that they find, and after an unmap neither finds it again. -/
theorem walks_agree [DecidableEq V] {space : VmmSpace V γ} (hsteady : space.Steady)
    (m : Machine V γ) (vaddr : UInt64) (out : VmmMapping) :
    (vmmQueryPage space m vaddr (some out)).1 = (vmmUnmapPage space m vaddr).1 ∧
    ((vmmUnmapPage space m vaddr).1 = vmmMapOk →
      (∀ paddr flags, vmmIsAligned4k paddr = true →
        vmmMapPage space m vaddr paddr flags = (vmmErrExists, m)) ∧
      (vmmQueryPage space (vmmUnmapPage space m vaddr).2 vaddr (some out)).1 =
        vmmErrNotFound ∧
      (vmmUnmapPage space (vmmUnmapPage space m vaddr).2 vaddr).1 = vmmErrNotFound) := by
  refine ⟨vmmQueryPage_code vaddr out, fun hok => ?_⟩
  obtain ⟨pt, hfound, hcall⟩ := vmmUnmapPage_ok hok
  have hagain : (vmmUnmapPage space (vmmUnmapPage space m vaddr).2 vaddr).1 =
      vmmErrNotFound := by
    rw [hcall]
    apply hfound.unmap_again hsteady
    · exact m.store_self pt (idxPt vaddr) 0
    · exact fun t i hcell => m.store_other 0 hcell
  refine ⟨fun paddr flags hpaddr => hfound.map_exists hpaddr flags, ?_, hagain⟩
  rw [vmmQueryPage_code]
  exact hagain

theorem sampleSpace_steady : sampleSpace.Steady := by
  intro f hf tables tables' ctx ctx' p
  cases hf
  rfl

theorem walks_agree_sample :
    (vmmUnmapPage sampleSpace bootMachine 0xFFFFFFFFFFFFF000).1 = vmmMapOk ∧
    (vmmUnmapPage sampleSpace (vmmUnmapPage sampleSpace bootMachine 0xFFFFFFFFFFFFF000).2
      0xFFFFFFFFFFFFF000).1 = vmmErrNotFound := by
  have hok : (vmmUnmapPage sampleSpace bootMachine 0xFFFFFFFFFFFFF000).1 = vmmMapOk := by
    decide +kernel
  exact ⟨hok, ((walks_agree sampleSpace_steady bootMachine _ ⟨0, 0, 0⟩).2 hok).2.2⟩

section Stored

variable {space : VmmSpace V γ} {virt : UInt64 → V} {handed : γ → Set UInt64}
  {m m' m₁ : Machine V γ} {p g : UInt64} {i : Fin 512} {π path : List (Fin 512)} {t : V}

theorem nextTable_of_walkLink (hlink : walkLink virt m.tables p i = some g)
    (htable : tableFromPhys space m g = some t) : nextTable space m (virt p) i = .ok t := by
  obtain ⟨hpresent, hhuge, haddr⟩ := walkLink_eq_some hlink
  rw [nextTable_eq_ok_iff, haddr]
  exact ⟨hpresent, hhuge, htable⟩

variable [DecidableEq V]

theorem RecordLaws.nextTable_addressable (laws : RecordLaws space virt handed)
    (hsteady : space.Steady) (h : getOrAllocNextTable space m (virt p) i = (.ok t, m₁))
    (m' : Machine V γ) : ∃ g, Frame g ∧ t = virt g ∧ tableFromPhys space m' g = some t := by
  have hstep := nextStep space m (virt p) i
  rw [h] at hstep
  generalize nextTableActions space m (virt p) i = as at hstep
  cases hstep with
  | found hpresent hhuge htable =>
    have hframe := frame_and_addrMask (m.tables (virt p) i)
    use m.tables (virt p) i &&& vmmPteAddrMask, hframe
    use laws.tableFromPhys_eq_some (Or.inr hframe) htable
    rw [hsteady.tableFromPhys_eq m' m, htable]
  | @linked c m₀ newTable alloc habsent halloc hcall hgood htable =>
    obtain ⟨hframe, -⟩ := laws.fresh_frame halloc hcall hgood
    use c, hframe, laws.tableFromPhys_eq_some (Or.inr hframe) htable
    rw [hsteady.tableFromPhys_eq m' m₀, htable]

theorem AddressLaws.nextTable_links (laws : AddressLaws space virt) (hπ : π.length < 3)
    (hp : reach (walkLink virt m.tables) space.rootPaddr π = some p)
    (hsound : AlongTotal (actionStep space) (ActionSound space virt) m
      (nextTableActions space m (virt p) i))
    (hstep : getOrAllocNextTable space m (virt p) i = (.ok t, m₁)) :
    Kept space.rootPaddr virt m.tables m₁.tables ∧
      ∃ g, t = virt g ∧ walkLink virt m₁.tables p i = some g ∧
        reach (walkLink virt m₁.tables) space.rootPaddr (π ++ [i]) = some g := by
  obtain ⟨hactions, hnext⟩ := laws.nextTable_kept hπ hp hsound
  have hkept := kept_perform hactions
  rw [(records_nextTable _ _ _ _).perform, hstep] at hkept
  obtain ⟨g, hg, hreach⟩ := hnext t m₁ hstep
  use hkept, g, hg
  rw [← reach_concat_of_some (hkept.reach_eq_some (by omega) hp)]
  exact ⟨hreach, hreach⟩

theorem AddressLaws.descend_keeps (laws : AddressLaws space virt)
    (hπ : π.length + path.length ≤ 3)
    (hp : reach (walkLink virt m.tables) space.rootPaddr π = some p)
    (hsound : AlongTotal (actionStep space) (ActionSound space virt) m
      (descendActions space path m (virt p))) :
    Kept space.rootPaddr virt m.tables (descend space path m (virt p)).2.tables := by
  have hkept := kept_perform (laws.descend_kept hπ hp hsound).1
  rw [(records_descend _ _ _ _).perform] at hkept
  exact hkept

theorem RecordLaws.descend_follow (laws : RecordLaws space virt handed)
    (hsteady : space.Steady) (h : Recorded space virt handed m)
    (hπ : π.length + path.length ≤ 3)
    (hp : reach (walkLink virt m.tables) space.rootPaddr π = some p)
    (hdescend : descend space path m (virt p) = (.ok t, m₁))
    (hkept : Kept space.rootPaddr virt m₁.tables m'.tables) :
    follow space m' path (virt p) = .ok t := by
  induction path generalizing m π p with
  | nil =>
    cases hdescend
    rfl
  | cons i path ih =>
    rw [List.length_cons] at hπ
    obtain ⟨next, m₂, hstep, hlast⟩ := descend_cons_eq_ok hdescend
    obtain ⟨hsound, hrecorded⟩ := laws.nextTable_recorded h i ⟨π, by omega, hp⟩
    obtain ⟨hfirst, g, rfl, hlink, hg⟩ := laws.nextTable_links (by omega) hp hsound hstep
    rw [hstep] at hrecorded
    have hlength := length_concat_le hπ i
    have hrest := laws.descend_keeps hlength hg (laws.descend_recorded hrecorded hlength hg)
    rw [hlast] at hrest
    have hvisited : Visited space.rootPaddr virt m₂.tables p :=
      ⟨π, by omega, hfirst.reach_eq_some (by omega) hp⟩
    obtain ⟨g', hframe, heq, htable⟩ := laws.nextTable_addressable hsteady hstep m'
    have hgframe := visited_isFrame ⟨_, by omega, hg⟩
    have hsame := laws.injective g g' hgframe (Or.inr hframe) heq
    subst hsame
    rw [follow, nextTable_of_walkLink ((hrest.trans hkept).walkLink_eq_some hvisited hlink) htable]
    exact ih hrecorded hlength hg hlast

theorem RecordLaws.query_after_map (laws : RecordLaws space virt handed)
    (hsteady : space.Steady) (h : Recorded space virt handed m) {vaddr paddr flags : UInt64}
    (hok : (vmmMapPage space m vaddr paddr flags).1 = vmmMapOk) (out : VmmMapping) :
    vmmIsAligned4k paddr = true ∧
    vmmQueryPage space (vmmMapPage space m vaddr paddr flags).2 vaddr (some out) =
      (vmmMapOk, some ⟨vaddr, paddr &&& vmmPteAddrMask,
        vmmPtePresent ||| (flags &&& allowedFlags)⟩) := by
  obtain ⟨hvalid, hpaddr, pml4, pt, m₁, hroot, hdescend, habsent, hcall⟩ := vmmMapPage_ok hok
  use hpaddr
  have hplace := laws.tableFromPhys_eq_some (Or.inl rfl) hroot
  subst hplace
  have hlength : ([] : List (Fin 512)).length + (tablePath vaddr).length ≤ 3 := le_refl 3
  have hsound := laws.descend_recorded h hlength rfl
  obtain ⟨g, rfl, hg⟩ := (laws.descend_kept hlength rfl hsound).2 pt m₁ hdescend
  have hframe := visited_isFrame ⟨_, le_refl 3, hg⟩
  have hkept := laws.kept_store_absent hframe (leafEntry paddr flags) habsent
  have hfollow := laws.descend_follow hsteady h hlength rfl hdescend hkept
  rw [hsteady.tableFromPhys_eq m (m₁.store (virt g) (idxPt vaddr) (leafEntry paddr flags))]
    at hroot
  rw [hcall]
  apply vmmQueryPage_of_leaf hvalid
  · rw [findPageTable_eq, hroot]
    exact hfollow
  · rw [Machine.store_self]
    exact leafOf_leafEntry paddr flags

end Stored

theorem and_addrMask_eq_iff {paddr : UInt64} (h : vmmIsAligned4k paddr = true) :
    paddr &&& vmmPteAddrMask = paddr ↔ paddr.toNat < 2 ^ 52 := by
  constructor
  · intro heq
    rw [← heq]
    exact (frame_and_addrMask paddr).2
  · intro hlt
    exact Frame.and_mask ⟨(vmmIsAligned4k_iff paddr).mp h, hlt⟩

/-- From a zeroed root, after every sequence of calls, a page that `vmm_map_page` accepts is
read back with the flags that are allowed, and with its address exactly if this is below
2^52. Higher addresses are accepted too. -/
theorem mapped_address_exact_iff [DecidableEq V] {space : VmmSpace V γ} {virt : UInt64 → V}
    {handed : γ → Set UInt64} (laws : RecordLaws space virt handed) (hsteady : space.Steady)
    (m : Machine V γ) (hzero : ∀ i, m.tables (virt space.rootPaddr) i = 0)
    (calls : List VmmCall) (vaddr paddr flags : UInt64) (out : VmmMapping)
    (hok : (vmmMapPage space (runTotal (vmmStep space) m calls).1 vaddr paddr flags).1 =
      vmmMapOk) :
    ∃ stored, vmmQueryPage space
        (vmmMapPage space (runTotal (vmmStep space) m calls).1 vaddr paddr flags).2 vaddr
        (some out) =
      (vmmMapOk, some ⟨vaddr, stored, vmmPtePresent ||| (flags &&& allowedFlags)⟩) ∧
      (stored = paddr ↔ paddr.toNat < 2 ^ 52) := by
  have hrun : Recorded space virt handed (runTotal (vmmStep space) m calls).1 :=
    (laws.run_owned hzero calls).recorded
  obtain ⟨haligned, hquery⟩ := laws.query_after_map hsteady hrun hok out
  exact ⟨_, hquery, and_addrMask_eq_iff haligned⟩

def remapCalls : List VmmCall := [.map 0x400000 0x6000 0, .unmap 0x400000]

theorem mapped_address_exact_iff_sample :
    vmmQueryPage sampleSpace (vmmMapPage sampleSpace
        (runTotal (vmmStep sampleSpace) sampleMachine remapCalls).1 0x400000 0x5000
        0x8000000000000082).2 0x400000 (some ⟨0, 0, 0⟩) =
      (vmmMapOk, some ⟨0x400000, 0x5000, 0x8000000000000003⟩) := by
  have hok : (vmmMapPage sampleSpace (runTotal (vmmStep sampleSpace) sampleMachine remapCalls).1
      0x400000 0x5000 0x8000000000000082).1 = vmmMapOk := by decide +kernel
  obtain ⟨stored, hquery, hexact⟩ := mapped_address_exact_iff sample_record sampleSpace_steady
    sampleMachine (fun _ => rfl) remapCalls 0x400000 0x5000 0x8000000000000082 ⟨0, 0, 0⟩ hok
  rw [hquery, hexact.mpr (by decide)]
  rfl

theorem high_address_altered :
    (vmmMapPage sampleSpace sampleMachine 0x400000 0x10000000005000 2).1 = vmmMapOk ∧
    vmmQueryPage sampleSpace
        (vmmMapPage sampleSpace sampleMachine 0x400000 0x10000000005000 2).2 0x400000
        (some ⟨0, 0, 0⟩) = (vmmMapOk, some ⟨0x400000, 0x5000, 3⟩) := by
  decide +kernel

def missesTable (space : VmmSpace V γ) (m : Machine V γ) : List (Fin 512) → V → Bool
  | [], _ => false
  | i :: path, table =>
      if m.tables table i &&& vmmPtePresent = 0 then true
      else
        match nextTable space m table i with
        | .error _ => false
        | .ok next => missesTable space m path next

/-- `alloc_frame` hands out a frame, and `get_or_alloc_next_table` does not give it back. -/
def KeepsFrame (space : VmmSpace V γ) (m : Machine V γ) : Prop :=
  match space.allocFrame with
  | none => False
  | some alloc =>
      (m.callAlloc alloc).1 ≠ vmmInvalidPhys ∧
        (tableFromPhys space (m.callAlloc alloc).2 (m.callAlloc alloc).1 ≠ none ∨
          space.freeFrame = none)

def MapTakesFrame (space : VmmSpace V γ) (m : Machine V γ) (vaddr paddr : UInt64) : Prop :=
  (vmmIsCanonical vaddr = true ∧ vmmIsAligned4k vaddr = true ∧ vmmIsAligned4k paddr = true) ∧
    (∃ pml4, tableFromPhys space m space.rootPaddr = some pml4 ∧
      missesTable space m (tablePath vaddr) pml4 = true) ∧
    KeepsFrame space m

def AllocatesFresh (space : VmmSpace V γ) (start : Set UInt64) (m : Machine V γ) : Prop :=
  ∀ alloc, space.allocFrame = some alloc → (m.callAlloc alloc).1 ≠ vmmInvalidPhys →
    (m.callAlloc alloc).1 ∉ m.held start

structure Untouched (space : VmmSpace V γ) (virt : UInt64 → V) (start : Set UInt64)
    (m m' : Machine V γ) : Prop where
  tables : Agree space.rootPaddr virt m.tables m'.tables
  frames : m'.held start = m.held start

section Failures

variable {space : VmmSpace V γ} {virt : UInt64 → V} {start : Set UInt64} {m : Machine V γ}
  {p : UInt64} {i : Fin 512} {π path : List (Fin 512)}

theorem Untouched.refl : Untouched space virt start m m := ⟨fun _ _ => rfl, rfl⟩

variable [DecidableEq V]

theorem getOrAllocNextTable_of_stop {table : V} {rc : Int32}
    (hpresent : m.tables table i &&& vmmPtePresent ≠ 0)
    (hstop : nextTable space m table i = .error rc) :
    ∃ rc', getOrAllocNextTable space m table i = (.error rc', m) := by
  simp only [getOrAllocNextTable]
  rw [if_pos hpresent]
  split_ifs with hhuge
  · exact ⟨_, rfl⟩
  cases htable : tableFromPhys space m (m.tables table i &&& vmmPteAddrMask) with
  | none => exact ⟨_, rfl⟩
  | some next =>
    rw [nextTable_eq_ok_iff.mpr ⟨hpresent, not_not.mp hhuge, htable⟩] at hstop
    cases hstop

theorem descend_of_complete {table : V} (h : missesTable space m path table = false) :
    (descend space path m table).2 = m := by
  induction path generalizing table with
  | nil => rfl
  | cons i path ih =>
    rw [missesTable] at h
    split_ifs at h with habsent
    rw [descend]
    cases hnext : nextTable space m table i with
    | error rc =>
      obtain ⟨rc', hstep⟩ := getOrAllocNextTable_of_stop habsent hnext
      rw [hstep]
    | ok next =>
      rw [hnext] at h
      rw [getOrAllocNextTable_of_nextTable hnext]
      exact ih h

theorem AddressLaws.descend_to_missing (laws : AddressLaws space virt)
    (hπ : π.length + path.length ≤ 3)
    (hp : reach (walkLink virt m.tables) space.rootPaddr π = some p)
    (h : missesTable space m path (virt p) = true) :
    ∃ ρ j σ q, ρ.length + (j :: σ).length ≤ 3 ∧
      reach (walkLink virt m.tables) space.rootPaddr ρ = some q ∧
      m.tables (virt q) j &&& vmmPtePresent = 0 ∧
      descend space path m (virt p) = descend space (j :: σ) m (virt q) ∧
      descendActions space path m (virt p) = descendActions space (j :: σ) m (virt q) := by
  induction path generalizing π p with
  | nil => cases h
  | cons i path ih =>
    rw [missesTable] at h
    split_ifs at h with habsent
    · exact ⟨π, i, path, p, hπ, hp, habsent, rfl, rfl⟩
    cases hnext : nextTable space m (virt p) i with
    | error rc =>
      rw [hnext] at h
      cases h
    | ok next =>
      obtain ⟨hpresent, hhuge, htable⟩ := nextTable_eq_ok_iff.mp hnext
      have hplace := laws.tableFromPhys_eq_some (Or.inr (frame_and_addrMask _)) htable
      have hstep : reach (walkLink virt m.tables) space.rootPaddr (π ++ [i]) =
          some (m.tables (virt p) i &&& vmmPteAddrMask) := by
        rw [reach_concat_of_some hp, walkLink, if_neg]
        exact fun hor => hor.elim hpresent (fun hne => hne hhuge)
      rw [hnext] at h
      rw [List.length_cons] at hπ
      rw [descend, descendActions, getOrAllocNextTable_of_nextTable hnext, nextTableActions,
        if_pos hpresent]
      subst hplace
      exact ih (length_concat_le hπ i) hstep h

theorem missing_sound {table : V} {alloc : Tables V → γ → UInt64 × Tables V × γ}
    (hsound : AlongTotal (actionStep space) (ActionSound space virt) m
      (nextTableActions space m table i))
    (habsent : m.tables table i &&& vmmPtePresent = 0)
    (halloc : space.allocFrame = some alloc) : ActionSound space virt m .callAlloc := by
  simp only [nextTableActions, if_neg (not_not.mpr habsent), halloc] at hsound
  split_ifs at hsound
  · exact hsound.1
  cases htable : tableFromPhys space (m.callAlloc alloc).2 (m.callAlloc alloc).1 with
  | none =>
    rw [htable] at hsound
    cases hfree : space.freeFrame with
    | none =>
      rw [hfree] at hsound
      exact hsound.1
    | some free =>
      rw [hfree] at hsound
      exact hsound.1
  | some newTable =>
    rw [htable] at hsound
    exact hsound.1

theorem missing_refused {table : V}
    (hsound : AlongTotal (actionStep space) (ActionSound space virt) m
      (nextTableActions space m table i))
    (hfresh : AllocatesFresh space start m)
    (habsent : m.tables table i &&& vmmPtePresent = 0) (hkeeps : ¬ KeepsFrame space m) :
    ∃ rc m', getOrAllocNextTable space m table i = (.error rc, m') ∧
      Untouched space virt start m m' := by
  simp only [getOrAllocNextTable]
  rw [if_neg (not_not.mpr habsent)]
  rw [KeepsFrame] at hkeeps
  cases halloc : space.allocFrame with
  | none => exact ⟨_, _, rfl, Untouched.refl⟩
  | some alloc =>
    have hcallback := missing_sound hsound habsent halloc
    replace hfresh := hfresh alloc halloc
    rcases hcall : m.callAlloc alloc with ⟨c, m₁⟩
    simp only [halloc, hcall] at hkeeps hfresh ⊢
    obtain ⟨hagree, hanswer⟩ := hcallback.answer halloc hcall
    by_cases hinvalid : c = vmmInvalidPhys
    · rw [if_pos (Or.inl hinvalid)]
      refine ⟨_, _, rfl, hagree, ?_⟩
      rw [Machine.held_callAlloc hcall, hold, if_pos hinvalid]
    have haccepted := (hanswer.resolve_left hinvalid).1.accepted
    have hback := not_or.mp (fun hor => hkeeps ⟨hinvalid, hor⟩)
    obtain ⟨free, hfree⟩ := Option.ne_none_iff_exists'.mp hback.2
    rw [if_neg haccepted, not_not.mp hback.1, hfree]
    simp only [nextTableActions, if_neg (not_not.mpr habsent), halloc, hcall, if_neg haccepted,
      not_not.mp hback.1, hfree] at hsound
    have hreturn : Agree space.rootPaddr virt (Action.callAlloc.apply space m).tables
        ((Action.callFree c).apply space (Action.callAlloc.apply space m)).tables := hsound.2.1
    rw [apply_callAlloc halloc hcall, apply_callFree hfree] at hreturn
    refine ⟨_, _, rfl, hagree.trans hreturn, ?_⟩
    exact Machine.held_callFree hcall hinvalid (hfresh hinvalid) free

theorem missing_taken {table : V}
    (hsound : AlongTotal (actionStep space) (ActionSound space virt) m
      (nextTableActions space m table i))
    (hfresh : AllocatesFresh space start m)
    (habsent : m.tables table i &&& vmmPtePresent = 0) (hkeeps : KeepsFrame space m) :
    (∃ next m', getOrAllocNextTable space m table i = (.ok next, m') ∧
      m'.tables table i &&& vmmPtePresent ≠ 0) ∨
    ∃ rc m', getOrAllocNextTable space m table i = (.error rc, m') ∧
      m'.held start ≠ m.held start := by
  simp only [getOrAllocNextTable]
  rw [if_neg (not_not.mpr habsent)]
  rw [KeepsFrame] at hkeeps
  cases halloc : space.allocFrame with
  | none =>
    rw [halloc] at hkeeps
    exact hkeeps.elim
  | some alloc =>
    have hcallback := missing_sound hsound habsent halloc
    replace hfresh := hfresh alloc halloc
    rcases hcall : m.callAlloc alloc with ⟨c, m₁⟩
    simp only [halloc, hcall] at hkeeps hfresh ⊢
    obtain ⟨hgood, hkept⟩ := hkeeps
    obtain ⟨hc, -⟩ := (hcallback.answer halloc hcall).2.resolve_left hgood
    rw [if_neg hc.accepted]
    cases htable : tableFromPhys space m₁ c with
    | some newTable =>
      refine Or.inl ⟨_, _, rfl, ?_⟩
      rw [Machine.store_self, hc.linkEntry_eq]
      exact hc.tableEntry_bits.1
    | none =>
      rw [hkept.resolve_left (fun hne => hne htable)]
      refine Or.inr ⟨_, _, rfl, fun heq => hfresh hgood ?_⟩
      rw [← heq, Machine.held_callAlloc hcall, hold, if_neg hgood]
      exact Set.mem_insert c _

theorem AddressLaws.descend_untouched_iff (laws : AddressLaws space virt)
    (hπ : π.length + path.length ≤ 3)
    (hp : reach (walkLink virt m.tables) space.rootPaddr π = some p)
    (hsound : AlongTotal (actionStep space) (ActionSound space virt) m
      (descendActions space path m (virt p)))
    (hfresh : AllocatesFresh space start m) :
    Untouched space virt start m (descend space path m (virt p)).2 ↔
      ¬ (missesTable space m path (virt p) = true ∧ KeepsFrame space m) := by
  -- The first missing table decides: before it nothing is written, after it nothing is undone.
  by_cases hmiss : missesTable space m path (virt p) = true
  · obtain ⟨ρ, j, σ, q, hlength, hq, habsent, heq, hactions⟩ :=
      laws.descend_to_missing hπ hp hmiss
    rw [List.length_cons] at hlength
    rw [hactions, descendActions, along_append, (records_nextTable _ _ _ _).perform] at hsound
    rw [heq, descend]
    by_cases hkeeps : KeepsFrame space m
    · apply iff_of_false _ (not_not.mpr ⟨hmiss, hkeeps⟩)
      rcases missing_taken hsound.1 hfresh habsent hkeeps with
        ⟨next, m₁, hstep, hpresent⟩ | ⟨rc, m₁, hstep, hne⟩
      · obtain ⟨hfirst, g, rfl, -, hg⟩ := laws.nextTable_links (by omega) hq hsound.1 hstep
        rw [hstep] at hsound ⊢
        have hrest := laws.descend_keeps (length_concat_le hlength j) hg hsound.2
        have hvisited : Visited space.rootPaddr virt m.tables q := ⟨ρ, by omega, hq⟩
        intro huntouched
        have hlinked := hrest q j (hfirst.visited hvisited) hpresent
        rw [huntouched.tables q hvisited] at hlinked
        exact hpresent (hlinked ▸ habsent)
      · rw [hstep]
        exact fun huntouched => hne huntouched.frames
    · obtain ⟨rc, m₁, hstep, huntouched⟩ := missing_refused hsound.1 hfresh habsent hkeeps
      rw [hstep]
      exact iff_of_true huntouched (fun hboth => hkeeps hboth.2)
  · rw [descend_of_complete (Bool.eq_false_iff.mpr hmiss)]
    exact iff_of_true Untouched.refl (fun hboth => hmiss hboth.1)

end Failures

/-- A failed `vmm_map_page` leaves the tables and the frames alone exactly if it has taken no
frame for a missing table: nothing that it has linked is undone. -/
theorem failed_map_untouched_iff [DecidableEq V] {space : VmmSpace V γ} {virt : UInt64 → V}
    (laws : AddressLaws space virt) {m : Machine V γ} {vaddr paddr flags : UInt64}
    (hsound : MapSound space virt m ⟨vaddr, paddr, flags⟩) {start : Set UInt64}
    (hfresh : AllocatesFresh space start m)
    (hfail : (vmmMapPage space m vaddr paddr flags).1 ≠ vmmMapOk) :
    Untouched space virt start m (vmmMapPage space m vaddr paddr flags).2 ↔
      ¬ MapTakesFrame space m vaddr paddr := by
  rw [MapSound, mapActions_eq] at hsound
  rw [vmmMapPage_eq] at hfail ⊢
  rw [MapTakesFrame]
  split_ifs at hsound hfail ⊢ with hbad
  · apply iff_of_true Untouched.refl
    intro htakes
    rcases hbad with hbad | hbad | hbad
    · exact absurd (htakes.1.1.symm.trans hbad) (by decide)
    · exact absurd (htakes.1.2.1.symm.trans hbad) (by decide)
    · exact absurd (htakes.1.2.2.symm.trans hbad) (by decide)
  simp only [not_or, Bool.not_eq_false] at hbad
  cases hroot : tableFromPhys space m space.rootPaddr with
  | none =>
    apply iff_of_true Untouched.refl
    intro htakes
    obtain ⟨pml4, hsome, -⟩ := htakes.2.1
    cases hsome
  | some pml4 =>
    have hplace := laws.tableFromPhys_eq_some (Or.inl rfl) hroot
    subst hplace
    have hlength : ([] : List (Fin 512)).length + (tablePath vaddr).length ≤ 3 := le_refl 3
    simp only [hroot] at hsound hfail
    have hiff := laws.descend_untouched_iff hlength rfl (along_append.mp hsound).1 hfresh
    simp only [hbad, true_and, Option.some_inj, exists_eq_left']
    rcases hdescend : descend space (tablePath vaddr) m (virt space.rootPaddr) with
      ⟨rc | pt, m₁⟩
    · rw [hdescend] at hiff
      exact hiff
    · simp only [hdescend, mapLeaf] at hfail ⊢
      split_ifs at hfail ⊢ with hpresent
      · rw [hdescend] at hiff
        exact hiff
      · exact absurd rfl hfail

theorem failed_map_untouched_iff_sample :
    Untouched sampleSpace id (sampleHanded 2) bootMachine
      (vmmMapPage sampleSpace bootMachine 0x40000000 0x5000 2).2 ∧
    ¬ Untouched sampleSpace id (sampleHanded 2) bootMachine
      (vmmMapPage sampleSpace bootMachine 0x8000000000 0x5000 2).2 := by
  have hfresh : AllocatesFresh sampleSpace (sampleHanded 2) bootMachine :=
    fun alloc halloc hgood => (sample_record.fresh_frame halloc rfl hgood).2.2.1
  have laws := sample_record.toAddressLaws
  have hsound := sample_record.mapSound bootMachine_recorded
  have hhuge : (vmmMapPage sampleSpace bootMachine 0x40000000 0x5000 2).1 ≠ vmmMapOk := by
    decide +kernel
  have hfull : (vmmMapPage sampleSpace bootMachine 0x8000000000 0x5000 2).1 ≠ vmmMapOk := by
    decide +kernel
  constructor
  · apply (failed_map_untouched_iff laws (hsound _) hfresh hhuge).mpr
    intro htakes
    obtain ⟨pml4, hroot, hmiss⟩ := htakes.2.1
    cases hroot
    revert hmiss
    decide +kernel
  · rw [failed_map_untouched_iff laws (hsound _) hfresh hfull, not_not]
    exact ⟨by decide, ⟨_, rfl, by decide +kernel⟩, by decide, Or.inr rfl⟩

theorem failed_map_links_tables :
    (vmmMapPage sampleSpace bootMachine 0x8000000000 0x5000 2).1 = vmmErrNomem ∧
    bootMachine.tables 0x1000 (idxPml4 0x8000000000) = 0 ∧
    (vmmMapPage sampleSpace bootMachine 0x8000000000 0x5000 2).2.tables 0x1000
      (idxPml4 0x8000000000) = 0x4003 ∧
    (vmmMapPage sampleSpace bootMachine 0x8000000000 0x5000 2).2.events =
      [.allocated 0x4000, .allocated 0x5000, .allocated vmmInvalidPhys] := by
  -- Out of memory at the third table, the first two stay linked and their frames stay taken.
  decide +kernel

end Mcsos.Vmm
