import Mcsos.StepRun
import Mcsos.VmmTables

/-!
# The page tables implement a partial map of pages

A page map assigns to some pages a physical address and flags. Tables represent the map that
their four-level walk computes. Each call answers as the map allows, and leaves tables that
represent the map after the call.
-/

namespace Mcsos.Vmm
open RadixTree WordArithmetic StepRun

abbrev PageMap := Page → Option (UInt64 × UInt64)

inductive VmmCall
  | map (vaddr paddr flags : UInt64)
  | unmap (vaddr : UInt64)
  | query (vaddr : UInt64) (out : Option VmmMapping)

/-- The code, the mapping behind `out` and the calls that left the module. -/
structure VmmReply where
  code : Int32
  out : Option VmmMapping
  events : List VmmEvent
  deriving DecidableEq, Repr

/-- The answers of a partial map of pages. A new page may be refused for lack of memory, and
only if `alloc_frame` failed during the call. -/
def PageMap.Allows (M : PageMap) (c : VmmCall) (r : VmmReply) : Prop :=
  match c with
  | .map vaddr paddr _ =>
      if h : (vmmIsCanonical vaddr = true ∧ vmmIsAligned4k vaddr = true) ∧
          vmmIsAligned4k paddr = true then
        if (M ⟨vaddr, h.1⟩).isSome then r.code = vmmErrExists
        else r.code = vmmMapOk ∨
          r.code = vmmErrNomem ∧ VmmEvent.allocated vmmInvalidPhys ∈ r.events
      else r.code = vmmErrInval
  | .unmap vaddr =>
      if h : vmmIsCanonical vaddr = true ∧ vmmIsAligned4k vaddr = true then
        r.code = if (M ⟨vaddr, h⟩).isSome then vmmMapOk else vmmErrNotFound
      else r.code = vmmErrInval
  | .query vaddr out =>
      if h : out.isSome ∧ vmmIsCanonical vaddr = true ∧ vmmIsAligned4k vaddr = true then
        match M ⟨vaddr, h.2⟩ with
        | some (paddr, flags) => r.code = vmmMapOk ∧ r.out = some ⟨vaddr, paddr, flags⟩
        | none => r.code = vmmErrNotFound ∧ r.out = out
      else r.code = vmmErrInval ∧ r.out = out

def PageMap.after (M : PageMap) (c : VmmCall) (r : VmmReply) : PageMap :=
  match c with
  | .map vaddr paddr flags =>
      fun w => if r.code = vmmMapOk ∧ w.1 = vaddr then
        some (paddr &&& vmmPteAddrMask, vmmPtePresent ||| (flags &&& allowedFlags)) else M w
  | .unmap vaddr => fun w => if r.code = vmmMapOk ∧ w.1 = vaddr then none else M w
  | .query _ _ => M

variable {V γ : Type}

def vmmStep [DecidableEq V] (space : VmmSpace V γ) (m : Machine V γ) (c : VmmCall) :
    Machine V γ × VmmReply :=
  let m : Machine V γ := { m with trace := [] }
  match c with
  | .map vaddr paddr flags =>
      let r := vmmMapPage space m vaddr paddr flags
      (r.2, ⟨r.1, none, r.2.events⟩)
  | .unmap vaddr =>
      let r := vmmUnmapPage space m vaddr
      (r.2, ⟨r.1, none, r.2.events⟩)
  | .query vaddr out =>
      let r := vmmQueryPage space m vaddr out
      (m, ⟨r.1, r.2, []⟩)

structure Represents (space : VmmSpace V γ) (virt : UInt64 → V) (handed : γ → Set UInt64)
    (m : Machine V γ) (M : PageMap) : Prop where
  tree : Tree space.rootPaddr virt (handed m.ctx) m.tables
  pages : ∀ v, translate space.rootPaddr virt m.tables v = M v

section Levels

variable {space : VmmSpace V γ} {virt : UInt64 → V} {handed : γ → Set UInt64}
  {m : Machine V γ} {M : PageMap}

theorem Represents.isFrame (h : Represents space virt handed m M) {π : List (Fin 512)}
    {p : UInt64} (hπ : π.length ≤ 3)
    (hp : reach (link virt m.tables) space.rootPaddr π = some p) : space.IsFrame p :=
  (h.tree.frames π p hπ hp).imp_right And.left

theorem Represents.unmapped (h : Represents space virt handed m M) {v : Page}
    {ρ σ : List (Fin 512)} (hpath : v.path = ρ ++ σ)
    (hcut : reach (link virt m.tables) space.rootPaddr ρ = none) : M v = none := by
  rw [← h.pages v, translate, hpath, reach_append, hcut]
  rfl

theorem Represents.mapped (h : Represents space virt handed m M) {v : Page} {p : UInt64}
    (hp : reach (link virt m.tables) space.rootPaddr v.path = some p) :
    M v = leafOf (m.tables (virt p) (idxPt v.1)) := by
  rw [← h.pages v, translate, hp, Option.bind_some]

theorem Represents.link_cases (h : Represents space virt handed m M) {π : List (Fin 512)}
    {p : UInt64} (hπ : π.length < 3)
    (hp : reach (link virt m.tables) space.rootPaddr π = some p) (i : Fin 512) :
    (link virt m.tables p i = none ∧ m.tables (virt p) i &&& vmmPtePresent = 0) ∨
    ∃ g, Frame g ∧ link virt m.tables p i = some g ∧ m.tables (virt p) i = tableEntry g := by
  rcases h.tree.entries π p i hπ hp with hzero | ⟨g, hg, hentry⟩
  · refine Or.inl ⟨?_, by rw [hzero]; exact UInt64.zero_and⟩
    rw [link, hzero, if_pos UInt64.zero_and]
  · obtain ⟨hpresent, -, haddr⟩ := hg.tableEntry_bits
    exact Or.inr ⟨g, hg, by rw [link, hentry, if_neg hpresent, haddr], hentry⟩

theorem FrameLaws.callAlloc_cases (laws : FrameLaws space virt handed) (m : Machine V γ) :
    ∃ alloc c m₁, space.allocFrame = some alloc ∧ m.callAlloc alloc = (c, m₁) ∧
      (∀ q, q = space.rootPaddr ∨ q ∈ handed m.ctx → m₁.tables (virt q) = m.tables (virt q)) ∧
      (c = vmmInvalidPhys ∧ handed m.ctx ⊆ handed m₁.ctx ∧
          VmmEvent.allocated vmmInvalidPhys ∈ m₁.events ∨
        Frame c ∧ c ≠ space.rootPaddr ∧ c ∉ handed m.ctx ∧
          insert c (handed m.ctx) ⊆ handed m₁.ctx) := by
  obtain ⟨alloc, halloc, hlaw⟩ := laws.alloc
  obtain ⟨hanswer, hkeep⟩ := hlaw m.tables m.ctx
  refine ⟨alloc, _, _, halloc, rfl, hkeep, ?_⟩
  rcases hanswer with ⟨hinvalid, hhanded⟩ | hfresh
  · refine Or.inl ⟨hinvalid, hhanded, ?_⟩
    rw [← hinvalid]
    exact List.mem_append_right _ List.mem_cons_self
  · exact Or.inr hfresh

theorem nextTable_spec (laws : FrameLaws space virt handed)
    (h : Represents space virt handed m M) {π : List (Fin 512)} {p : UInt64}
    (hπ : π.length < 3) (hp : reach (link virt m.tables) space.rootPaddr π = some p)
    (i : Fin 512) :
    (nextTable space m (virt p) i = .error vmmErrNotFound ∧
      reach (link virt m.tables) space.rootPaddr (π ++ [i]) = none) ∨
    ∃ g, nextTable space m (virt p) i = .ok (virt g) ∧
      reach (link virt m.tables) space.rootPaddr (π ++ [i]) = some g := by
  rw [reach_concat_of_some hp]
  rcases h.link_cases hπ hp i with ⟨hlink, hentry⟩ | ⟨g, hg, hlink, hentry⟩
  · refine Or.inl ⟨?_, hlink⟩
    simp only [nextTable, hentry, true_or, if_true]
  · obtain ⟨hpresent, hhuge, haddr⟩ := hg.tableEntry_bits
    refine Or.inr ⟨g, ?_, hlink⟩
    simp only [nextTable, hentry, hpresent, hhuge, haddr, laws.tableFromPhys m (Or.inr hg),
      ne_eq, not_true_eq_false, or_self, if_false]

theorem follow_spec (laws : FrameLaws space virt handed)
    (h : Represents space virt handed m M) (path : List (Fin 512)) {π : List (Fin 512)}
    {p : UInt64} (hπ : π.length + path.length ≤ 3)
    (hp : reach (link virt m.tables) space.rootPaddr π = some p) :
    (follow space m path (virt p) = .error vmmErrNotFound ∧
      ∀ v : Page, v.path = π ++ path → M v = none) ∨
    ∃ g, follow space m path (virt p) = .ok (virt g) ∧
      reach (link virt m.tables) space.rootPaddr (π ++ path) = some g := by
  induction path generalizing π p with
  | nil => exact Or.inr ⟨p, rfl, by rw [List.append_nil]; exact hp⟩
  | cons i path ih =>
    rw [List.length_cons] at hπ
    rw [List.append_cons]
    rcases nextTable_spec laws h (by omega) hp i with ⟨hstep, hcut⟩ | ⟨g, hstep, hg⟩
    · exact Or.inl ⟨by simp only [follow, hstep], fun v hv => h.unmapped hv hcut⟩
    · have hrest := ih (length_concat_le hπ i) hg
      simpa only [follow, hstep] using hrest

theorem findPageTable_spec (laws : FrameLaws space virt handed)
    (h : Represents space virt handed m M) (v : Page) :
    (findPageTable space m v.1 = .error vmmErrNotFound ∧ M v = none) ∨
    ∃ p, findPageTable space m v.1 = .ok (virt p) ∧
      reach (link virt m.tables) space.rootPaddr v.path = some p := by
  have hroot : reach (link virt m.tables) space.rootPaddr [] = some space.rootPaddr := rfl
  simp only [findPageTable_eq, laws.tableFromPhys m (Or.inl rfl)]
  rcases follow_spec laws h (tablePath v.1) (by simp [tablePath]) hroot with
    ⟨hfind, hcut⟩ | ⟨pt, hfind, hpt⟩
  · exact Or.inl ⟨hfind, hcut v rfl⟩
  · exact Or.inr ⟨pt, hfind, hpt⟩

theorem vmmQueryPage_spec (laws : FrameLaws space virt handed)
    (h : Represents space virt handed m M) (v : Page) (out : VmmMapping) :
    vmmQueryPage space m v.1 (some out) =
      match M v with
      | some (paddr, flags) => (vmmMapOk, some ⟨v.1, paddr, flags⟩)
      | none => (vmmErrNotFound, some out) := by
  have hvalid : ¬ ((some out).isNone = true ∨ vmmIsCanonical v.1 = false ∨
      vmmIsAligned4k v.1 = false) := by
    simp [v.2.1, v.2.2]
  simp only [vmmQueryPage, if_neg hvalid]
  rcases findPageTable_spec laws h v with ⟨hfind, hM⟩ | ⟨pt, hfind, hpt⟩
  · simp only [hfind, hM]
  simp only [hfind, h.mapped hpt, leafOf]
  split_ifs with hpresent
  · rfl
  · rfl

variable [DecidableEq V]

theorem Represents.attach (laws : FrameLaws space virt handed)
    (h : Represents space virt handed m M) {π : List (Fin 512)} {p c : UInt64} {i : Fin 512}
    {m₁ : Machine V γ} (hπ : π.length < 3)
    (hp : reach (link virt m.tables) space.rootPaddr π = some p)
    (hi : link virt m.tables p i = none) (hc : Frame c) (hroot : c ≠ space.rootPaddr)
    (hfresh : c ∉ handed m.ctx) (hhanded : insert c (handed m.ctx) ⊆ handed m₁.ctx)
    (hkeep : ∀ q, q = space.rootPaddr ∨ q ∈ handed m.ctx →
      m₁.tables (virt q) = m.tables (virt q)) :
    Represents space virt handed
        ((vmmZeroPage m₁ (virt c)).store (virt p) i (tableEntry c)) M ∧
      reach (link virt ((vmmZeroPage m₁ (virt c)).store (virt p) i (tableEntry c)).tables)
        space.rootPaddr (π ++ [i]) = some c := by
  have hin := h.tree.frames π p (by omega) hp
  have hpc : p ≠ c := by
    intro heq
    rw [heq] at hin
    exact hin.elim hroot (fun hf => hfresh hf.2)
  have hi₁ : link virt m₁.tables p i = none := by
    rw [link_congr (hkeep p (hin.imp_right And.right)), hi]
  have hp₁ : reach (link virt m₁.tables) space.rootPaddr π = some p :=
    (h.tree.reach_eq hkeep (by omega)).trans hp
  have htree₁ := h.tree.congr (subset_refl _) hkeep
  obtain ⟨htree, hreach, htranslate⟩ := htree₁.attach hπ hp₁ hi₁ hc hroot hfresh
    (fun q hq => laws.address.attached_tables m₁ (h.isFrame (by omega) hp) hc hpc i hq)
  have hctx : ((vmmZeroPage m₁ (virt c)).store (virt p) i (tableEntry c)).ctx = m₁.ctx :=
    (attached_outside m₁ _ _ _ _).1
  refine ⟨⟨?_, fun v => ?_⟩, ?_⟩
  · rw [hctx]
    exact htree.congr hhanded (fun q _ => rfl)
  · rw [htranslate v, h.tree.translate_congr hkeep v, h.pages v]
  · rw [hreach _ (by simp only [List.length_append, List.length_singleton]; omega), if_pos rfl]

/-- One level of `vmm_map_page`: the next table is there or is made, or the allocator failed.
In no case does the map of pages change. -/
theorem getOrAllocNextTable_spec (laws : FrameLaws space virt handed)
    (h : Represents space virt handed m M) {π : List (Fin 512)} {p : UInt64}
    (hπ : π.length < 3) (hp : reach (link virt m.tables) space.rootPaddr π = some p)
    (i : Fin 512) :
    (∃ m', getOrAllocNextTable space m (virt p) i = (.error vmmErrNomem, m') ∧
      Represents space virt handed m' M ∧
      reach (link virt m.tables) space.rootPaddr (π ++ [i]) = none ∧
      VmmEvent.allocated vmmInvalidPhys ∈ m'.events) ∨
    ∃ g m', getOrAllocNextTable space m (virt p) i = (.ok (virt g), m') ∧
      Represents space virt handed m' M ∧
      reach (link virt m'.tables) space.rootPaddr (π ++ [i]) = some g := by
  rcases h.link_cases hπ hp i with ⟨hlink, hentry⟩ | ⟨g, hg, hlink, hentry⟩
  · have habsent : ¬ m.tables (virt p) i &&& vmmPtePresent ≠ 0 := not_not.mpr hentry
    obtain ⟨alloc, c, m₁, halloc, hcall, hkeep, hanswer⟩ := laws.callAlloc_cases m
    simp only [getOrAllocNextTable, if_neg habsent, halloc, hcall]
    rcases hanswer with ⟨hinvalid, hhanded, hevent⟩ | ⟨hc, hroot, hfresh, hhanded⟩
    · refine Or.inl ⟨m₁, by rw [if_pos (Or.inl hinvalid)],
        ⟨h.tree.congr hhanded hkeep, fun v => ?_⟩, ?_, hevent⟩
      · rw [h.tree.translate_congr hkeep v, h.pages v]
      · rw [reach_concat_of_some hp, hlink]
    · obtain ⟨hrep, hreach⟩ := h.attach laws hπ hp hlink hc hroot hfresh hhanded hkeep
      refine Or.inr ⟨c, _, ?_, hrep, hreach⟩
      rw [if_neg hc.accepted, laws.tableFromPhys m₁ (Or.inr hc), hc.and_mask]
      rfl
  · obtain ⟨hpresent, hhuge, haddr⟩ := hg.tableEntry_bits
    refine Or.inr ⟨g, m, ?_, h, by rw [reach_concat_of_some hp, hlink]⟩
    simp only [getOrAllocNextTable, hentry, if_pos hpresent, hhuge, haddr,
      laws.tableFromPhys m (Or.inr hg), ne_eq, not_true_eq_false, if_false]

theorem descend_spec (laws : FrameLaws space virt handed)
    (h : Represents space virt handed m M) (path : List (Fin 512)) {π : List (Fin 512)}
    {p : UInt64} (hπ : π.length + path.length ≤ 3)
    (hp : reach (link virt m.tables) space.rootPaddr π = some p) :
    (∃ m', descend space path m (virt p) = (.error vmmErrNomem, m') ∧
      Represents space virt handed m' M ∧ (∀ v : Page, v.path = π ++ path → M v = none) ∧
      VmmEvent.allocated vmmInvalidPhys ∈ m'.events) ∨
    ∃ g m', descend space path m (virt p) = (.ok (virt g), m') ∧
      Represents space virt handed m' M ∧
      reach (link virt m'.tables) space.rootPaddr (π ++ path) = some g := by
  induction path generalizing m π p with
  | nil => exact Or.inr ⟨p, m, rfl, h, by rw [List.append_nil]; exact hp⟩
  | cons i path ih =>
    rw [List.length_cons] at hπ
    rw [List.append_cons]
    rcases getOrAllocNextTable_spec laws h (by omega) hp i with
      ⟨m₁, hstep, h₁, hcut, hevent⟩ | ⟨g, m₁, hstep, h₁, hg⟩
    · exact Or.inl ⟨m₁, by simp only [descend, hstep], h₁,
        fun v hv => h.unmapped hv hcut, hevent⟩
    · have hrest := ih h₁ (length_concat_le hπ i) hg
      simpa only [descend, hstep] using hrest

theorem Represents.storeLeaf (laws : FrameLaws space virt handed)
    (h : Represents space virt handed m M) {v : Page} {p : UInt64}
    (hp : reach (link virt m.tables) space.rootPaddr v.path = some p) (e : UInt64) :
    Represents space virt handed (m.store (virt p) (idxPt v.1) e)
      (Function.update M v (leafOf e)) := by
  obtain ⟨htree, -, htranslate⟩ := h.tree.setLeaf hp (fun q hq =>
    laws.address.store_tables m (h.isFrame (le_of_eq v.path_length) hp) (idxPt v.1) e hq)
  refine ⟨htree, fun w => ?_⟩
  rw [htranslate w, h.pages w, Function.update_apply]

theorem vmmMapPage_spec (laws : FrameLaws space virt handed)
    (h : Represents space virt handed m M) (v : Page) {paddr : UInt64}
    (hpaddr : vmmIsAligned4k paddr = true) (flags : UInt64) :
    ∃ m', (M v ≠ none ∧ vmmMapPage space m v.1 paddr flags = (vmmErrExists, m') ∧
        Represents space virt handed m' M) ∨
      (M v = none ∧ vmmMapPage space m v.1 paddr flags = (vmmErrNomem, m') ∧
        Represents space virt handed m' M ∧
        VmmEvent.allocated vmmInvalidPhys ∈ m'.events) ∨
      (M v = none ∧ vmmMapPage space m v.1 paddr flags = (vmmMapOk, m') ∧
        Represents space virt handed m' (Function.update M v
          (some (paddr &&& vmmPteAddrMask, vmmPtePresent ||| (flags &&& allowedFlags))))) := by
  have hroot : reach (link virt m.tables) space.rootPaddr [] = some space.rootPaddr := rfl
  have hvalid : ¬ (vmmIsCanonical v.1 = false ∨ vmmIsAligned4k v.1 = false ∨
      vmmIsAligned4k paddr = false) := by
    simp [v.2.1, v.2.2, hpaddr]
  simp only [vmmMapPage_eq, if_neg hvalid, laws.tableFromPhys m (Or.inl rfl)]
  rcases descend_spec laws h (tablePath v.1) (by simp [tablePath]) hroot with
    ⟨m₁, hstep, h₁, hcut, hevent⟩ | ⟨pt, m₁, hstep, h₁, hpt⟩
  · exact ⟨m₁, Or.inr (Or.inl ⟨hcut v rfl, by simp only [hstep], h₁, hevent⟩)⟩
  simp only [hstep, mapLeaf]
  by_cases hpresent : m₁.tables (virt pt) (idxPt v.1) &&& vmmPtePresent = 0
  · have hM : M v = none := by
      rw [h₁.mapped hpt, leafOf, if_pos hpresent]
    refine ⟨_, Or.inr (Or.inr ⟨hM, by rw [if_neg (not_not.mpr hpresent)], ?_⟩)⟩
    rw [← leafEntry, ← leafOf_leafEntry]
    exact h₁.storeLeaf laws hpt _
  · have hM : M v ≠ none := by
      rw [h₁.mapped hpt, leafOf, if_neg hpresent]
      exact Option.some_ne_none _
    exact ⟨m₁, Or.inl ⟨hM, by rw [if_pos hpresent], h₁⟩⟩

theorem vmmUnmapPage_spec (laws : FrameLaws space virt handed)
    (h : Represents space virt handed m M) (v : Page) :
    (M v = none ∧ vmmUnmapPage space m v.1 = (vmmErrNotFound, m)) ∨
    ∃ m', M v ≠ none ∧ vmmUnmapPage space m v.1 = (vmmMapOk, m') ∧
      Represents space virt handed m' (Function.update M v none) := by
  have hvalid : ¬ (vmmIsCanonical v.1 = false ∨ vmmIsAligned4k v.1 = false) := by
    simp [v.2.1, v.2.2]
  simp only [vmmUnmapPage, if_neg hvalid]
  rcases findPageTable_spec laws h v with ⟨hfind, hM⟩ | ⟨pt, hfind, hpt⟩
  · exact Or.inl ⟨hM, by simp only [hfind]⟩
  simp only [hfind]
  by_cases hpresent : m.tables (virt pt) (idxPt v.1) &&& vmmPtePresent = 0
  · exact Or.inl ⟨by rw [h.mapped hpt, leafOf, if_pos hpresent], by rw [if_pos hpresent]⟩
  · have hM : M v ≠ none := by
      rw [h.mapped hpt, leafOf, if_neg hpresent]
      exact Option.some_ne_none _
    have hstore := h.storeLeaf laws hpt 0
    exact Or.inr ⟨vmmInvalidatePage (m.store (virt pt) (idxPt v.1) 0) v.1, hM,
      by rw [if_neg hpresent], ⟨hstore.tree, hstore.pages⟩⟩

theorem PageMap.after_map_ok (M : PageMap) (v : Page) (paddr flags : UInt64) {r : VmmReply}
    (hr : r.code = vmmMapOk) : M.after (.map v.1 paddr flags) r = Function.update M v
      (some (paddr &&& vmmPteAddrMask, vmmPtePresent ||| (flags &&& allowedFlags))) := by
  funext w
  simp only [PageMap.after, hr, true_and, Function.update_apply, Subtype.ext_iff]

theorem PageMap.after_unmap_ok (M : PageMap) (v : Page) {r : VmmReply}
    (hr : r.code = vmmMapOk) : M.after (.unmap v.1) r = Function.update M v none := by
  funext w
  simp only [PageMap.after, hr, true_and, Function.update_apply, Subtype.ext_iff]

theorem PageMap.after_of_error (M : PageMap) (c : VmmCall) {r : VmmReply}
    (hr : r.code ≠ vmmMapOk) : M.after c r = M := by
  cases c with
  | map vaddr paddr flags =>
    funext w
    simp only [PageMap.after, hr, false_and, if_false]
  | unmap vaddr =>
    funext w
    simp only [PageMap.after, hr, false_and, if_false]
  | query vaddr out => rfl

end Levels

section Steps

variable [DecidableEq V] {space : VmmSpace V γ} {virt : UInt64 → V} {handed : γ → Set UInt64}
  {m : Machine V γ} {M : PageMap}

theorem vmmStep_map (laws : FrameLaws space virt handed)
    (h : Represents space virt handed m M) (vaddr paddr flags : UInt64) :
    M.Allows (.map vaddr paddr flags) (vmmStep space m (.map vaddr paddr flags)).2 ∧
      Represents space virt handed (vmmStep space m (.map vaddr paddr flags)).1
        (M.after (.map vaddr paddr flags) (vmmStep space m (.map vaddr paddr flags)).2) := by
  have h₀ : Represents space virt handed { m with trace := [] } M := ⟨h.tree, h.pages⟩
  by_cases hvalid : (vmmIsCanonical vaddr = true ∧ vmmIsAligned4k vaddr = true) ∧
      vmmIsAligned4k paddr = true
  · simp only [PageMap.Allows, dif_pos hvalid, vmmStep]
    obtain ⟨m', hexists | hnomem | hok⟩ :=
      vmmMapPage_spec laws h₀ ⟨vaddr, hvalid.1⟩ hvalid.2 flags
    · obtain ⟨hM, hcode, hrep⟩ := hexists
      simp only at hcode
      rw [hcode, PageMap.after_of_error M _ (by decide : vmmErrExists ≠ vmmMapOk),
        if_pos (Option.ne_none_iff_isSome.mp hM)]
      exact ⟨rfl, hrep⟩
    · obtain ⟨hM, hcode, hrep, hevent⟩ := hnomem
      simp only at hcode
      rw [hcode, PageMap.after_of_error M _ (by decide : vmmErrNomem ≠ vmmMapOk), hM]
      exact ⟨Or.inr ⟨rfl, hevent⟩, hrep⟩
    · obtain ⟨hM, hcode, hrep⟩ := hok
      simp only at hcode
      rw [hcode, PageMap.after_map_ok M ⟨vaddr, hvalid.1⟩ paddr flags rfl, hM]
      exact ⟨Or.inl rfl, hrep⟩
  · have hbad : vmmIsCanonical vaddr = false ∨ vmmIsAligned4k vaddr = false ∨
        vmmIsAligned4k paddr = false := by
      simp only [← Bool.not_eq_true]
      tauto
    simp only [PageMap.Allows, dif_neg hvalid, vmmStep, vmmMapPage, if_pos hbad]
    rw [PageMap.after_of_error M _ (by decide : vmmErrInval ≠ vmmMapOk)]
    exact ⟨trivial, h₀⟩

theorem vmmStep_unmap (laws : FrameLaws space virt handed)
    (h : Represents space virt handed m M) (vaddr : UInt64) :
    M.Allows (.unmap vaddr) (vmmStep space m (.unmap vaddr)).2 ∧
      Represents space virt handed (vmmStep space m (.unmap vaddr)).1
        (M.after (.unmap vaddr) (vmmStep space m (.unmap vaddr)).2) := by
  have h₀ : Represents space virt handed { m with trace := [] } M := ⟨h.tree, h.pages⟩
  by_cases hvalid : vmmIsCanonical vaddr = true ∧ vmmIsAligned4k vaddr = true
  · simp only [PageMap.Allows, dif_pos hvalid, vmmStep]
    rcases vmmUnmapPage_spec laws h₀ ⟨vaddr, hvalid⟩ with ⟨hM, hcode⟩ | ⟨m', hM, hcode, hrep⟩
    · simp only at hcode
      rw [hcode, PageMap.after_of_error M _ (by decide : vmmErrNotFound ≠ vmmMapOk), hM]
      exact ⟨rfl, h₀⟩
    · simp only at hcode
      rw [hcode, PageMap.after_unmap_ok M ⟨vaddr, hvalid⟩ rfl,
        if_pos (Option.ne_none_iff_isSome.mp hM)]
      exact ⟨rfl, hrep⟩
  · have hbad : vmmIsCanonical vaddr = false ∨ vmmIsAligned4k vaddr = false := by
      simp only [← Bool.not_eq_true]
      tauto
    simp only [PageMap.Allows, dif_neg hvalid, vmmStep, vmmUnmapPage, if_pos hbad]
    rw [PageMap.after_of_error M _ (by decide : vmmErrInval ≠ vmmMapOk)]
    exact ⟨trivial, h₀⟩

theorem vmmStep_query (laws : FrameLaws space virt handed)
    (h : Represents space virt handed m M) (vaddr : UInt64) (out : Option VmmMapping) :
    M.Allows (.query vaddr out) (vmmStep space m (.query vaddr out)).2 ∧
      Represents space virt handed (vmmStep space m (.query vaddr out)).1
        (M.after (.query vaddr out) (vmmStep space m (.query vaddr out)).2) := by
  have h₀ : Represents space virt handed { m with trace := [] } M := ⟨h.tree, h.pages⟩
  refine ⟨?_, h₀⟩
  by_cases hvalid : out.isSome ∧ vmmIsCanonical vaddr = true ∧ vmmIsAligned4k vaddr = true
  · obtain ⟨prior, rfl⟩ := Option.isSome_iff_exists.mp hvalid.1
    simp only [PageMap.Allows, dif_pos hvalid, vmmStep]
    have hspec := vmmQueryPage_spec laws h₀ ⟨vaddr, hvalid.2⟩ prior
    simp only at hspec
    rw [hspec]
    cases M ⟨vaddr, hvalid.2⟩ with
    | none => exact ⟨rfl, rfl⟩
    | some entry => exact ⟨rfl, rfl⟩
  · have hbad : out.isNone = true ∨ vmmIsCanonical vaddr = false ∨
        vmmIsAligned4k vaddr = false := by
      cases out with
      | none => exact Or.inl rfl
      | some prior =>
        have hpage : ¬ (vmmIsCanonical vaddr = true ∧ vmmIsAligned4k vaddr = true) :=
          fun hpage => hvalid ⟨rfl, hpage⟩
        simp only [← Bool.not_eq_true]
        tauto
    simp only [PageMap.Allows, dif_neg hvalid, vmmStep, vmmQueryPage, if_pos hbad]
    exact ⟨trivial, trivial⟩

theorem vmmStep_explained (laws : FrameLaws space virt handed)
    (h : Represents space virt handed m M) (c : VmmCall) :
    M.Allows c (vmmStep space m c).2 ∧
      Represents space virt handed (vmmStep space m c).1 (M.after c (vmmStep space m c).2) := by
  cases c with
  | map vaddr paddr flags => exact vmmStep_map laws h vaddr paddr flags
  | unmap vaddr => exact vmmStep_unmap laws h vaddr
  | query vaddr out => exact vmmStep_query laws h vaddr out

end Steps

/-- From a zeroed root, the answers to every sequence of calls are those of a partial map of
pages that starts empty. -/
theorem vmm_refines_pageMap [DecidableEq V] {rootPaddr : UInt64}
    {allocFrame : Option (Tables V → γ → UInt64 × Tables V × γ)}
    {freeFrame : Option (Tables V → γ → UInt64 → Tables V × γ)}
    {physToVirt : Option (Tables V → γ → UInt64 → Option V)} {space : VmmSpace V γ}
    (hspace : vmmSpaceInit rootPaddr allocFrame freeFrame physToVirt = .ok space)
    {virt : UInt64 → V} {handed : γ → Set UInt64} (laws : CallbackLaws space virt handed)
    (m : Machine V γ) (hzero : ∀ i, m.tables (virt rootPaddr) i = 0) (calls : List VmmCall) :
    Explained PageMap.Allows PageMap.after (fun _ => none) calls
      (runTotal (vmmStep space) m calls).2 := by
  obtain ⟨hroot, haligned⟩ := vmmSpaceInit_ok hspace
  have laws' : FrameLaws space virt handed := ⟨laws, hroot ▸ haligned⟩
  obtain ⟨htree, hpages⟩ := tree_of_zeroed_root (handed m.ctx) hzero
  rw [← hroot] at htree hpages
  exact runTotal_explained (Represents space virt handed)
    (fun s M c h => vmmStep_explained laws' h c) ⟨htree, hpages⟩ calls

def sampleFrame (k : ℕ) : UInt64 := UInt64.ofNat (4096 * (k + 2))

def sampleAlloc (tables : Tables UInt64) (next : ℕ) : UInt64 × Tables UInt64 × ℕ :=
  if next < 4 then
    (sampleFrame next, Function.update tables (sampleFrame next) (fun _ => 0xA5A5A5A5A5A5A5A5),
      next + 1)
  else (vmmInvalidPhys, tables, next)

def sampleSpace : VmmSpace UInt64 ℕ :=
  ⟨0x1000, some sampleAlloc, none, some (fun _ _ p => some p)⟩

def sampleHanded (next : ℕ) : Set UInt64 := { p | ∃ k, k < next ∧ k < 4 ∧ p = sampleFrame k }

theorem sampleFrame_toNat {k : ℕ} (hk : k < 4) : (sampleFrame k).toNat = 4096 * (k + 2) :=
  toNat_ofNat_of_lt (by omega)

theorem sample_laws : CallbackLaws sampleSpace id sampleHanded := by
  refine ⟨⟨_, rfl, fun _ _ _ _ => rfl⟩, fun _ _ _ _ h => h, ⟨_, rfl, fun tables next => ?_⟩⟩
  rw [sampleAlloc]
  split_ifs with hnext
  · have hnat := sampleFrame_toNat hnext
    have hroot : sampleFrame next ≠ 0x1000 := by
      intro h
      rw [h] at hnat
      have hval : (0x1000 : UInt64).toNat = 4096 := rfl
      omega
    have hfresh : sampleFrame next ∉ sampleHanded next := by
      intro h
      obtain ⟨k, hk, hk4, heq⟩ := h
      rw [heq, sampleFrame_toNat hk4] at hnat
      omega
    refine ⟨Or.inr ⟨⟨?_, ?_⟩, hroot, hfresh, ?_⟩, ?_⟩
    · simp only [hnat]
      omega
    · simp only [hnat]
      omega
    · intro p hp
      rcases Set.mem_insert_iff.mp hp with rfl | hp
      · exact ⟨next, Nat.lt_succ_self next, hnext, rfl⟩
      · obtain ⟨k, hk, hk4, heq⟩ := hp
        exact ⟨k, Nat.lt_succ_of_lt hk, hk4, heq⟩
    · intro q hq
      have hne : q ≠ sampleFrame next := by
        intro heq
        rcases hq with hq | hq
        · exact hroot (heq.symm.trans hq)
        · exact hfresh (heq ▸ hq)
      simp only [id_eq]
      rw [Function.update_of_ne hne]
  · exact ⟨Or.inl ⟨rfl, subset_refl _⟩, fun _ _ => rfl⟩

def sampleMachine : Machine UInt64 ℕ :=
  ⟨fun p _ => if p = 0x1000 then 0 else 0xA5A5A5A5A5A5A5A5, 0, []⟩

def sampleCalls : List VmmCall :=
  [.map 0x400000 0x5000 0x8000000000000002, .query 0x400000 (some ⟨0, 0, 0⟩),
    .map 0x400000 0x6000 0, .map 0xFFFF800000200000 0x7000 0, .unmap 0x400000,
    .query 0x400000 (some ⟨0, 0, 0⟩), .map 0x800000000000 0x5000 0]

theorem sampleSpace_init : vmmSpaceInit 0x1000 (some sampleAlloc) none
    (some (fun _ _ p => some p)) = .ok sampleSpace := by
  rw [vmmSpaceInit, if_neg (by decide)]
  rfl

theorem vmm_refines_pageMap_sample :
    Explained PageMap.Allows PageMap.after (fun _ => none) sampleCalls
        (runTotal (vmmStep sampleSpace) sampleMachine sampleCalls).2 ∧
      (runTotal (vmmStep sampleSpace) sampleMachine sampleCalls).2.map VmmReply.code =
        [vmmMapOk, vmmMapOk, vmmErrExists, vmmErrNomem, vmmMapOk, vmmErrNotFound,
          vmmErrInval] :=
  ⟨vmm_refines_pageMap sampleSpace_init sample_laws sampleMachine (fun _ => rfl) sampleCalls,
    by decide +kernel⟩

end Mcsos.Vmm
