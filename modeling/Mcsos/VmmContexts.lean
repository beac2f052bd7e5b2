import Mcsos.VmmSpaces

/-!
# The state behind the callbacks

The callbacks of a space work on a state of their own. An assertion that every callback and every
write keeps holds after a call. A space whose callbacks follow those of another space, on a state
that is mapped to the state of the other, answers every call in the same way.
-/

namespace Mcsos.Vmm
open RadixTree StepRun

variable {V γ δ : Type}

section Invariant

variable [DecidableEq V]

variable {space : VmmSpace V γ} {I : Machine V γ → Prop}

/-- What a call does, seen from outside: it asks for frames, it may give back the frame that it
got last, and it writes entries and invalidates pages. -/
structure Keeps (space : VmmSpace V γ) (I : Machine V γ → Prop) : Prop where
  alloc : ∀ {m m₁ : Machine V γ} {f c}, space.allocFrame = some f → m.callAlloc f = (c, m₁) →
    I m → I m₁
  free : ∀ {m m₁ : Machine V γ} {f g c}, space.allocFrame = some f → m.callAlloc f = (c, m₁) →
    c ≠ vmmInvalidPhys → space.freeFrame = some g → I m → I (m₁.callFree g c)
  store : ∀ {m : Machine V γ} (t i e), I m → I (m.store t i e)
  invalidate : ∀ {m : Machine V γ} (v), I m → I (vmmInvalidatePage m v)

theorem Keeps.zeroPage (h : Keeps space I) {m : Machine V γ} (page : V) (hm : I m) :
    I (vmmZeroPage m page) := by
  rw [vmmZeroPage]
  generalize List.finRange 512 = l
  induction l generalizing m with
  | nil => exact hm
  | cons i l ih => exact ih (h.store page i 0 hm)

theorem Keeps.nextTable (h : Keeps space I) {m : Machine V γ} (hm : I m) (table : V)
    (i : Fin 512) : I (getOrAllocNextTable space m table i).2 := by
  have hstep := nextStep space m table i
  generalize nextTableActions space m table i = as at hstep
  generalize getOrAllocNextTable space m table i = r at hstep ⊢
  cases hstep with
  | stay hrc => exact hm
  | found hpresent hhuge htable => exact hm
  | refused halloc hcall hbad => exact h.alloc halloc hcall hm
  | leaked halloc hcall hfree => exact h.alloc halloc hcall hm
  | returned halloc hcall hgood hfree => exact h.free halloc hcall hgood hfree hm
  | linked habsent halloc hcall hgood htable =>
    exact h.store _ _ _ (h.zeroPage _ (h.alloc halloc hcall hm))

theorem Keeps.descend (h : Keeps space I) {m : Machine V γ} (hm : I m) (path : List (Fin 512))
    (table : V) : I (descend space path m table).2 := by
  induction path generalizing m table with
  | nil => exact hm
  | cons i path ih =>
    have hnext := h.nextTable hm table i
    rw [Vmm.descend]
    rcases hstep : getOrAllocNextTable space m table i with ⟨rc | next, m₁⟩
    · rw [hstep] at hnext
      exact hnext
    · rw [hstep] at hnext
      exact ih hnext next

theorem Keeps.mapPage (h : Keeps space I) {m : Machine V γ} (hm : I m)
    (vaddr paddr flags : UInt64) : I (vmmMapPage space m vaddr paddr flags).2 := by
  rw [vmmMapPage_eq]
  split_ifs
  · exact hm
  cases Vmm.tableFromPhys space m space.rootPaddr with
  | none => exact hm
  | some pml4 =>
    have hdescend := h.descend hm (tablePath vaddr) pml4
    dsimp only
    rcases hstep : Vmm.descend space (tablePath vaddr) m pml4 with ⟨rc | pt, m₁⟩
    · rw [hstep] at hdescend
      exact hdescend
    rw [hstep] at hdescend
    dsimp only
    rw [mapLeaf]
    split_ifs
    · exact hdescend
    · exact h.store _ _ _ hdescend

theorem Keeps.unmapPage (h : Keeps space I) {m : Machine V γ} (hm : I m) (vaddr : UInt64) :
    I (vmmUnmapPage space m vaddr).2 := by
  rw [vmmUnmapPage]
  split_ifs
  · exact hm
  cases findPageTable space m vaddr with
  | error rc => exact hm
  | ok pt =>
    dsimp only
    split_ifs
    · exact hm
    · exact h.invalidate _ (h.store _ _ _ hm)

theorem Keeps.step (h : Keeps space I) {m : Machine V γ} (hm : I { m with trace := [] })
    (c : VmmCall) : I (vmmStep space m c).1 := by
  cases c with
  | map vaddr paddr flags => exact h.mapPage hm vaddr paddr flags
  | unmap vaddr => exact h.unmapPage hm vaddr
  | query vaddr out => exact hm

end Invariant

def Machine.mapCtx (φ : γ → δ) (m : Machine V γ) : Machine V δ :=
  ⟨m.tables, φ m.ctx, m.trace⟩

/-- The callbacks of `space'` do on `φ ctx` what those of `space` do on `ctx`. Pointers are asked
for frames in use only, and a frame is given back only if it was handed out by the last call. -/
structure Follows (φ : γ → δ) (handed : γ → Set UInt64) (space : VmmSpace V γ)
    (space' : VmmSpace V δ) : Prop where
  root : space'.rootPaddr = space.rootPaddr
  toVirt : ∃ f f', space.physToVirt = some f ∧ space'.physToVirt = some f' ∧
    ∀ tables ctx p, p = space.rootPaddr ∨ p ∈ handed ctx → f' tables (φ ctx) p = f tables ctx p
  alloc : ∃ f f', space.allocFrame = some f ∧ space'.allocFrame = some f' ∧
    ∀ tables ctx, f' tables (φ ctx) =
      ((f tables ctx).1, (f tables ctx).2.1, φ (f tables ctx).2.2)
  free : ∃ g g', space.freeFrame = some g ∧ space'.freeFrame = some g' ∧
    ∀ f, space.allocFrame = some f → ∀ tables ctx, (f tables ctx).1 ≠ vmmInvalidPhys →
      g' (f tables ctx).2.1 (φ (f tables ctx).2.2) (f tables ctx).1 =
        ((g (f tables ctx).2.1 (f tables ctx).2.2 (f tables ctx).1).1,
          φ (g (f tables ctx).2.1 (f tables ctx).2.2 (f tables ctx).1).2)

section Context

variable {φ : γ → δ} {handed : γ → Set UInt64} {space : VmmSpace V γ} {space' : VmmSpace V δ}
  {virt : UInt64 → V} {start : Set UInt64} {m : Machine V γ} {p : UInt64} {π : List (Fin 512)}

theorem Follows.tableFromPhys (h : Follows φ handed space space')
    (hp : p = space.rootPaddr ∨ p ∈ handed m.ctx) :
    tableFromPhys space' (m.mapCtx φ) p = tableFromPhys space m p := by
  obtain ⟨f, f', hf, hf', hsame⟩ := h.toVirt
  rw [Vmm.tableFromPhys, Vmm.tableFromPhys, hf, hf']
  dsimp only
  split_ifs
  · rfl
  · exact hsame _ _ _ hp

theorem Owned.in_use (h : Owned space virt handed start m) (hπ : π.length ≤ 3)
    (hp : reach (link virt m.tables) space.rootPaddr π = some p) :
    p = space.rootPaddr ∨ p ∈ handed m.ctx :=
  (h.tree.frames π p hπ hp).imp_right (fun hin => h.record hin.2)

theorem Follows.linkedTable (h : Follows φ handed space space')
    (howned : Owned space virt handed start m) (hπ : π.length < 3)
    (hp : reach (link virt m.tables) space.rootPaddr π = some p) {i : Fin 512}
    (hpresent : m.tables (virt p) i &&& vmmPtePresent ≠ 0) :
    Vmm.tableFromPhys space' (m.mapCtx φ) (m.tables (virt p) i &&& vmmPteAddrMask) =
      Vmm.tableFromPhys space m (m.tables (virt p) i &&& vmmPteAddrMask) := by
  have hlink : link virt m.tables p i = some (m.tables (virt p) i &&& vmmPteAddrMask) := by
    rw [link, if_neg hpresent]
  have hlength : (π ++ [i]).length ≤ 3 := by
    rw [List.length_append, List.length_singleton]
    omega
  exact h.tableFromPhys (howned.in_use hlength ((reach_concat_of_some hp i).trans hlink))

theorem Follows.walkTable (h : Follows φ handed space space')
    (howned : Owned space virt handed start m) (hπ : π.length < 3)
    (hp : reach (link virt m.tables) space.rootPaddr π = some p) (i : Fin 512) :
    Vmm.nextTable space' (m.mapCtx φ) (virt p) i = Vmm.nextTable space m (virt p) i := by
  have htables : (m.mapCtx φ).tables = m.tables := rfl
  simp only [Vmm.nextTable, htables]
  split_ifs with hentry
  · rfl
  · rw [h.linkedTable howned hπ hp (fun heq => hentry (Or.inl heq))]

theorem Follows.follow (h : Follows φ handed space space') (laws : AddressLaws space virt)
    (howned : Owned space virt handed start m) (path : List (Fin 512))
    (hπ : π.length + path.length ≤ 3)
    (hp : reach (link virt m.tables) space.rootPaddr π = some p) :
    Vmm.follow space' (m.mapCtx φ) path (virt p) = Vmm.follow space m path (virt p) := by
  induction path generalizing π p with
  | nil => rfl
  | cons i path ih =>
    rw [List.length_cons] at hπ
    rw [Vmm.follow, Vmm.follow, h.walkTable howned (by omega) hp i]
    cases hnext : Vmm.nextTable space m (virt p) i with
    | error rc => rfl
    | ok next =>
      obtain ⟨g, rfl, hg⟩ := laws.nextTable_eq_ok hnext
      exact ih (length_concat_le hπ i) ((reach_concat_of_some hp i).trans hg)

theorem Follows.findPageTable (h : Follows φ handed space space')
    (laws : AddressLaws space virt) (howned : Owned space virt handed start m)
    (vaddr : UInt64) :
    Vmm.findPageTable space' (m.mapCtx φ) vaddr = Vmm.findPageTable space m vaddr := by
  rw [findPageTable_eq, findPageTable_eq, h.root, h.tableFromPhys (Or.inl rfl)]
  cases hroot : Vmm.tableFromPhys space m space.rootPaddr with
  | none => rfl
  | some pml4 =>
    have hplace := laws.tableFromPhys_eq_some (Or.inl rfl) hroot
    subst hplace
    exact h.follow laws howned (tablePath vaddr) (π := []) (by simp [tablePath]) rfl

theorem Follows.queryPage (h : Follows φ handed space space') (laws : AddressLaws space virt)
    (howned : Owned space virt handed start m) (vaddr : UInt64) (out : Option VmmMapping) :
    vmmQueryPage space' (m.mapCtx φ) vaddr out = vmmQueryPage space m vaddr out := by
  rw [vmmQueryPage, vmmQueryPage, h.findPageTable laws howned]
  rfl

variable [DecidableEq V]

theorem Machine.mapCtx_store (φ : γ → δ) (m : Machine V γ) (t : V) (i : Fin 512) (e : UInt64) :
    (m.mapCtx φ).store t i e = (m.store t i e).mapCtx φ := rfl

theorem Machine.mapCtx_zeroPage (φ : γ → δ) (m : Machine V γ) (page : V) :
    vmmZeroPage (m.mapCtx φ) page = (vmmZeroPage m page).mapCtx φ := by
  rw [vmmZeroPage, vmmZeroPage]
  generalize List.finRange 512 = l
  induction l generalizing m with
  | nil => rfl
  | cons i l ih => exact ih (m.store page i 0)

theorem Follows.nextTable (h : Follows φ handed space space')
    (laws : RecordLaws space virt handed) (howned : Owned space virt handed start m)
    (hπ : π.length < 3) (hp : reach (link virt m.tables) space.rootPaddr π = some p)
    (i : Fin 512) :
    getOrAllocNextTable space' (m.mapCtx φ) (virt p) i =
      ((getOrAllocNextTable space m (virt p) i).1,
        (getOrAllocNextTable space m (virt p) i).2.mapCtx φ) := by
  obtain ⟨f, f', hf, hf', halloc⟩ := h.alloc
  obtain ⟨g, g', hg, hg', hfree⟩ := h.free
  have hcall : (m.mapCtx φ).callAlloc f' = ((m.callAlloc f).1, (m.callAlloc f).2.mapCtx φ) := by
    simp only [Machine.callAlloc, Machine.mapCtx, halloc]
  have htables : (m.mapCtx φ).tables = m.tables := rfl
  simp only [getOrAllocNextTable, hf, hf', hg, hg', hcall, htables]
  split_ifs with hpresent hhuge hbad
  · rfl
  · rw [h.linkedTable howned hπ hp hpresent]
    cases Vmm.tableFromPhys space m (m.tables (virt p) i &&& vmmPteAddrMask) with
    | none => rfl
    | some next => rfl
  · rfl
  · have hgood : (m.callAlloc f).1 ≠ vmmInvalidPhys := fun heq => hbad (Or.inl heq)
    obtain ⟨-, -, -, hhanded⟩ := laws.fresh_frame hf rfl hgood
    have hnew := h.tableFromPhys (m := (m.callAlloc f).2) (p := (m.callAlloc f).1)
      (Or.inr (hhanded (Set.mem_insert _ _)))
    rw [hnew]
    cases Vmm.tableFromPhys space (m.callAlloc f).2 (m.callAlloc f).1 with
    | none =>
      have hback := hfree f hf m.tables m.ctx hgood
      simp only [Machine.callFree, Machine.callAlloc, Machine.mapCtx, hback]
    | some newTable =>
      dsimp only
      rw [Machine.mapCtx_zeroPage, Machine.mapCtx_store]

theorem Follows.descend (h : Follows φ handed space space')
    (laws : RecordLaws space virt handed) (howned : Owned space virt handed start m)
    (path : List (Fin 512)) (hπ : π.length + path.length ≤ 3)
    (hp : reach (link virt m.tables) space.rootPaddr π = some p) :
    Vmm.descend space' path (m.mapCtx φ) (virt p) =
      ((Vmm.descend space path m (virt p)).1,
        (Vmm.descend space path m (virt p)).2.mapCtx φ) := by
  induction path generalizing m π p with
  | nil => rfl
  | cons i path ih =>
    rw [List.length_cons] at hπ
    rw [Vmm.descend, Vmm.descend, h.nextTable laws howned (by omega) hp i]
    obtain ⟨h₁, -, hnext⟩ := howned.nextTable laws (by omega) hp i
    rcases hstep : getOrAllocNextTable space m (virt p) i with ⟨rc | next, m₁⟩
    · rfl
    obtain ⟨g, rfl, hg⟩ := hnext next m₁ hstep
    rw [hstep] at h₁
    exact ih h₁ (length_concat_le hπ i) hg

theorem Follows.mapPage (h : Follows φ handed space space')
    (laws : RecordLaws space virt handed) (howned : Owned space virt handed start m)
    (vaddr paddr flags : UInt64) :
    vmmMapPage space' (m.mapCtx φ) vaddr paddr flags =
      ((vmmMapPage space m vaddr paddr flags).1,
        (vmmMapPage space m vaddr paddr flags).2.mapCtx φ) := by
  rw [vmmMapPage_eq, vmmMapPage_eq, h.root, h.tableFromPhys (Or.inl rfl)]
  split_ifs
  · rfl
  cases hroot : Vmm.tableFromPhys space m space.rootPaddr with
  | none => rfl
  | some pml4 =>
    have hplace := laws.tableFromPhys_eq_some (Or.inl rfl) hroot
    subst hplace
    dsimp only
    rw [h.descend laws howned (tablePath vaddr) (π := []) (by simp [tablePath]) rfl]
    obtain ⟨rc | pt, m₁⟩ := Vmm.descend space (tablePath vaddr) m (virt space.rootPaddr)
    · rfl
    have htables : (m₁.mapCtx φ).tables = m₁.tables := rfl
    dsimp only
    rw [mapLeaf, mapLeaf, htables]
    split_ifs
    · rfl
    · rfl

theorem Follows.unmapPage (h : Follows φ handed space space') (laws : AddressLaws space virt)
    (howned : Owned space virt handed start m) (vaddr : UInt64) :
    vmmUnmapPage space' (m.mapCtx φ) vaddr =
      ((vmmUnmapPage space m vaddr).1, (vmmUnmapPage space m vaddr).2.mapCtx φ) := by
  rw [vmmUnmapPage, vmmUnmapPage, h.findPageTable laws howned]
  split_ifs
  · rfl
  cases Vmm.findPageTable space m vaddr with
  | error rc => rfl
  | ok pt =>
    have htables : (m.mapCtx φ).tables = m.tables := rfl
    dsimp only
    rw [htables]
    split_ifs
    · rfl
    · rfl

theorem Follows.step (h : Follows φ handed space space') (laws : RecordLaws space virt handed)
    (howned : Owned space virt handed start { m with trace := [] }) (c : VmmCall) :
    vmmStep space' (m.mapCtx φ) c =
      ((vmmStep space m c).1.mapCtx φ, (vmmStep space m c).2) := by
  have hstart : ({ m.mapCtx φ with trace := [] } : Machine V δ) =
      ({ m with trace := [] } : Machine V γ).mapCtx φ := rfl
  cases c with
  | map vaddr paddr flags =>
    simp only [vmmStep, hstart, h.mapPage laws howned]
    rfl
  | unmap vaddr =>
    simp only [vmmStep, hstart, h.unmapPage laws.toAddressLaws howned]
    rfl
  | query vaddr out => simp only [vmmStep, hstart, h.queryPage laws.toAddressLaws howned]

end Context

end Mcsos.Vmm
