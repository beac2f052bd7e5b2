import Mcsos.VmmOwnership

/-!
# The footprint of the page tables

A request to map a page needs one table in each of the three levels above the page. The tables
that exist below a root are those that some request has needed; a request that succeeds, or finds
its page mapped already, leaves all of its tables behind.
-/

namespace Mcsos.Vmm
open RadixTree

variable {V γ : Type}

def tablePaths (root : UInt64) (virt : UInt64 → V) (tables : Tables V) :
    Set (List (Fin 512)) :=
  { ρ | ρ.length ≤ 3 ∧ (reach (link virt tables) root ρ).isSome }

def passed (π : List (Fin 512)) : List (Fin 512) → List (List (Fin 512))
  | [] => []
  | i :: path => (π ++ [i]) :: passed (π ++ [i]) path

def callPaths : VmmCall → List (List (Fin 512))
  | .map vaddr paddr _ =>
      if vmmIsCanonical vaddr = false ∨ vmmIsAligned4k vaddr = false ∨
        vmmIsAligned4k paddr = false then [] else passed [] (tablePath vaddr)
  | .unmap _ => []
  | .query _ _ => []

section Paths

variable {space : VmmSpace V γ} {virt : UInt64 → V} {handed : γ → Set UInt64}
  {start : Set UInt64} {m m' : Machine V γ} {p : UInt64} {π : List (Fin 512)}

theorem Owned.paths_congr (h : Owned space virt handed start m)
    (hsame : ∀ q, q = space.rootPaddr ∨ q ∈ m.held start →
      m'.tables (virt q) = m.tables (virt q)) :
    tablePaths space.rootPaddr virt m'.tables = tablePaths space.rootPaddr virt m.tables := by
  ext ρ
  apply and_congr_right
  intro hρ
  rw [h.tree.reach_eq hsame hρ]

theorem passed_reach (next : UInt64 → Fin 512 → Option UInt64) (r : UInt64)
    {path : List (Fin 512)} (hpath : (reach next r (π ++ path)).isSome) :
    ∀ ρ ∈ passed π path, ρ.length ≤ π.length + path.length ∧ (reach next r ρ).isSome := by
  induction path generalizing π with
  | nil => exact fun ρ hρ => absurd hρ List.not_mem_nil
  | cons i path ih =>
    rw [List.append_cons] at hpath
    intro ρ hρ
    rcases List.mem_cons.mp hρ with rfl | hρ
    · constructor
      · simp only [List.length_append, List.length_cons, List.length_nil]
        omega
      · rw [reach_append] at hpath
        cases hreach : reach next r (π ++ [i]) with
        | none =>
          rw [hreach] at hpath
          cases hpath
        | some k => rfl
    · obtain ⟨hlength, hsome⟩ := ih hpath ρ hρ
      rw [List.length_append, List.length_singleton] at hlength
      rw [List.length_cons]
      exact ⟨by omega, hsome⟩

variable [DecidableEq V]

theorem Owned.paths_nextTable (laws : RecordLaws space virt handed)
    (h : Owned space virt handed start m) (hπ : π.length < 3)
    (hp : reach (link virt m.tables) space.rootPaddr π = some p) (i : Fin 512) :
    tablePaths space.rootPaddr virt m.tables ⊆
        tablePaths space.rootPaddr virt (getOrAllocNextTable space m (virt p) i).2.tables ∧
      tablePaths space.rootPaddr virt (getOrAllocNextTable space m (virt p) i).2.tables ⊆
        insert (π ++ [i]) (tablePaths space.rootPaddr virt m.tables) := by
  have hstep := nextStep space m (virt p) i
  generalize nextTableActions space m (virt p) i = as at hstep
  generalize getOrAllocNextTable space m (virt p) i = r at hstep ⊢
  have hkept : ∀ m' : Machine V γ, (∀ q, q = space.rootPaddr ∨ q ∈ m.held start →
        m'.tables (virt q) = m.tables (virt q)) →
      tablePaths space.rootPaddr virt m.tables ⊆ tablePaths space.rootPaddr virt m'.tables ∧
        tablePaths space.rootPaddr virt m'.tables ⊆
          insert (π ++ [i]) (tablePaths space.rootPaddr virt m.tables) := by
    intro m' hsame
    rw [h.paths_congr hsame]
    exact ⟨subset_refl _, Set.subset_insert _ _⟩
  cases hstep with
  | stay hrc => exact hkept m (fun _ _ => rfl)
  | found hpresent hhuge htable => exact hkept m (fun _ _ => rfl)
  | refused halloc hcall hbad =>
    exact hkept _ (fun q hq => (laws.answer halloc hcall).2 q (hq.imp_right (h.record ·)))
  | leaked halloc hcall hfree =>
    exact hkept _ (fun q hq => (laws.answer halloc hcall).2 q (hq.imp_right (h.record ·)))
  | @returned c m₁ alloc free halloc hcall hgood hfree =>
    obtain ⟨-, -, hfresh, hhanded⟩ := laws.fresh_frame halloc hcall hgood
    apply hkept
    intro q hq
    have hq' : q = space.rootPaddr ∨ q ∈ handed m.ctx := hq.imp_right (h.record ·)
    have hback : q = space.rootPaddr ∨ q ∈ handed m₁.ctx \ {c} := hq.imp_right fun hin =>
      ⟨hhanded (Set.mem_insert_of_mem c (h.record hin)), fun heq => hfresh (heq ▸ h.record hin)⟩
    exact ((laws.free free hfree m₁.tables m₁.ctx c).2 q hback).trans
      ((laws.answer halloc hcall).2 q hq')
  | @linked c m₁ newTable alloc habsent halloc hcall hgood htable =>
    obtain ⟨hc, hroot, hfresh, -⟩ := laws.fresh_frame halloc hcall hgood
    have hplace := laws.tableFromPhys_eq_some (Or.inr hc) htable
    subst hplace
    have hsame : ∀ q, q = space.rootPaddr ∨ q ∈ m.held start →
        m₁.tables (virt q) = m.tables (virt q) :=
      fun q hq => (laws.answer halloc hcall).2 q (hq.imp_right (h.record ·))
    have hin := (h.tree.frames π p (by omega) hp).imp_right And.right
    have hpc : p ≠ c := fun heq => h.not_reached hroot hfresh (by omega) (heq ▸ hp)
    have hlink : link virt m₁.tables p i = none := by
      rw [link_congr (hsame p hin), link, if_pos habsent]
    have hp₁ : reach (link virt m₁.tables) space.rootPaddr π = some p :=
      (h.tree.reach_eq hsame (by omega)).trans hp
    rw [hc.linkEntry_eq]
    obtain ⟨-, hreach, -⟩ := (h.tree.congr (subset_refl _) hsame).attach hπ hp₁ hlink hc hroot
      (fun hheld => hfresh (h.record hheld))
      (fun q => laws.attached_tables m₁ (q := q) (h.isFrame (by omega) hp) hc hpc i)
    have hpath : ∀ ρ : List (Fin 512), ρ.length ≤ 3 → ρ ≠ π ++ [i] →
        reach (link virt ((vmmZeroPage m₁ (virt c)).store (virt p) i (tableEntry c)).tables)
          space.rootPaddr ρ = reach (link virt m.tables) space.rootPaddr ρ := by
      intro ρ hρ hne
      rw [hreach ρ hρ, if_neg hne, h.tree.reach_eq hsame hρ]
    constructor
    · intro ρ hρ
      by_cases heq : ρ = π ++ [i]
      · subst heq
        exact ⟨hρ.1, by rw [hreach _ hρ.1, if_pos rfl]; rfl⟩
      · exact ⟨hρ.1, by rw [hpath ρ hρ.1 heq]; exact hρ.2⟩
    · intro ρ hρ
      by_cases heq : ρ = π ++ [i]
      · exact Or.inl heq
      · exact Or.inr ⟨hρ.1, by rw [← hpath ρ hρ.1 heq]; exact hρ.2⟩

theorem Owned.paths_descend (laws : RecordLaws space virt handed)
    (h : Owned space virt handed start m) (path : List (Fin 512))
    (hπ : π.length + path.length ≤ 3)
    (hp : reach (link virt m.tables) space.rootPaddr π = some p) :
    tablePaths space.rootPaddr virt m.tables ⊆
        tablePaths space.rootPaddr virt (Vmm.descend space path m (virt p)).2.tables ∧
      tablePaths space.rootPaddr virt (Vmm.descend space path m (virt p)).2.tables ⊆
        tablePaths space.rootPaddr virt m.tables ∪ { ρ | ρ ∈ passed π path } := by
  induction path generalizing m π p with
  | nil => exact ⟨subset_refl _, Set.subset_union_left⟩
  | cons i path ih =>
    rw [List.length_cons] at hπ
    rw [Vmm.descend]
    obtain ⟨h₁, -, hnext⟩ := h.nextTable laws (by omega) hp i
    obtain ⟨hmore, hless⟩ := h.paths_nextTable laws (by omega) hp i
    have hfirst : insert (π ++ [i]) (tablePaths space.rootPaddr virt m.tables) ⊆
        tablePaths space.rootPaddr virt m.tables ∪ { ρ | ρ ∈ passed π (i :: path) } :=
      Set.insert_subset (Or.inr List.mem_cons_self) Set.subset_union_left
    rcases hstep : getOrAllocNextTable space m (virt p) i with ⟨rc | next, m₁⟩
    · rw [hstep] at hmore hless
      exact ⟨hmore, hless.trans hfirst⟩
    obtain ⟨g, rfl, hg⟩ := hnext next m₁ hstep
    rw [hstep] at h₁ hmore hless
    obtain ⟨hmore', hless'⟩ := ih h₁ (length_concat_le hπ i) hg
    use hmore.trans hmore'
    intro ρ hρ
    rcases hless' hρ with hin | hin
    · exact hfirst (hless hin)
    · exact Or.inr (List.mem_cons_of_mem _ hin)

theorem Owned.paths_storeLeaf (laws : RecordLaws space virt handed)
    (h : Owned space virt handed start m) {v : Page}
    (hp : reach (link virt m.tables) space.rootPaddr v.path = some p) (e : UInt64) :
    tablePaths space.rootPaddr virt (m.store (virt p) (idxPt v.1) e).tables =
      tablePaths space.rootPaddr virt m.tables := by
  obtain ⟨-, hreach, -⟩ := h.tree.setLeaf hp (fun q hq =>
    laws.store_tables m (h.isFrame (le_of_eq v.path_length) hp) (idxPt v.1) e hq)
  ext ρ
  apply and_congr_right
  intro hρ
  rw [hreach ρ hρ]

/-- A request keeps the tables and adds at most those that it needs. Unless memory runs out, it
leaves them all behind. -/
theorem Owned.paths_mapPage (laws : RecordLaws space virt handed)
    (total : FrameLaws space virt handed) (h : Owned space virt handed start m)
    (vaddr paddr flags : UInt64) {r : Int32 × Machine V γ}
    (hr : vmmMapPage space m vaddr paddr flags = r) :
    (tablePaths space.rootPaddr virt m.tables ⊆ tablePaths space.rootPaddr virt r.2.tables ∧
      tablePaths space.rootPaddr virt r.2.tables ⊆
        tablePaths space.rootPaddr virt m.tables ∪
          { ρ | ρ ∈ callPaths (.map vaddr paddr flags) }) ∧
    (r.1 ≠ vmmErrNomem →
      { ρ | ρ ∈ callPaths (.map vaddr paddr flags) } ⊆
        tablePaths space.rootPaddr virt r.2.tables) := by
  subst hr
  rw [vmmMapPage_eq, callPaths]
  split_ifs with hbad
  · exact ⟨⟨subset_refl _, Set.subset_union_left⟩, fun _ ρ hρ => absurd hρ List.not_mem_nil⟩
  simp only [not_or, Bool.not_eq_false] at hbad
  obtain ⟨v, rfl⟩ : ∃ v : Page, v.1 = vaddr := ⟨⟨vaddr, hbad.1, hbad.2.1⟩, rfl⟩
  have hrep : Represents space virt handed m (pages space virt m) :=
    ⟨h.tree.congr h.record (fun _ _ => rfl), fun _ => rfl⟩
  obtain ⟨h₁, -, hnext⟩ := h.descend laws (tablePath v.1) (π := [])
    (by simp [tablePath]) rfl
  have hpaths := h.paths_descend laws (tablePath v.1) (π := []) (by simp [tablePath]) rfl
  simp only [total.tableFromPhys m (Or.inl rfl)]
  rcases descend_spec total hrep (tablePath v.1) (π := []) (by simp [tablePath]) rfl with
    ⟨m₁, hstep, -, -, -⟩ | ⟨g, m₁, hstep, -, hg⟩
  · simp only [hstep] at hpaths ⊢
    exact ⟨hpaths, fun hcode => absurd rfl hcode⟩
  simp only [hstep] at hpaths h₁ ⊢
  have hall : ∀ ρ ∈ passed [] (tablePath v.1), ρ ∈ tablePaths space.rootPaddr virt m₁.tables := by
    intro ρ hρ
    obtain ⟨hlength, hsome⟩ := passed_reach (link virt m₁.tables) space.rootPaddr
      (by rw [hg]; rfl) ρ hρ
    exact ⟨hlength.trans (by simp [tablePath]), hsome⟩
  rw [Vmm.mapLeaf]
  split_ifs with hpresent
  · exact ⟨hpaths, fun _ => hall⟩
  · rw [← leafEntry, h₁.paths_storeLeaf laws (v := v) hg]
    exact ⟨hpaths, fun _ => hall⟩

theorem Owned.paths_unmapPage (laws : RecordLaws space virt handed)
    (h : Owned space virt handed start m) (vaddr : UInt64) :
    tablePaths space.rootPaddr virt (vmmUnmapPage space m vaddr).2.tables =
      tablePaths space.rootPaddr virt m.tables := by
  rw [vmmUnmapPage]
  split_ifs with hbad
  · rfl
  simp only [not_or, Bool.not_eq_false] at hbad
  obtain ⟨v, rfl⟩ : ∃ v : Page, v.1 = vaddr := ⟨⟨vaddr, hbad.1, hbad.2⟩, rfl⟩
  cases hfind : findPageTable space m v.1 with
  | error rc => rfl
  | ok pt =>
    obtain ⟨g, rfl, hg⟩ := laws.findPageTable_eq_ok hfind
    dsimp only
    split_ifs
    · rfl
    · exact h.paths_storeLeaf laws hg 0

theorem Owned.paths_step (laws : RecordLaws space virt handed)
    (total : FrameLaws space virt handed)
    (h : Owned space virt handed start { m with trace := [] }) (c : VmmCall) :
    (tablePaths space.rootPaddr virt m.tables ⊆
        tablePaths space.rootPaddr virt (vmmStep space m c).1.tables ∧
      tablePaths space.rootPaddr virt (vmmStep space m c).1.tables ⊆
        tablePaths space.rootPaddr virt m.tables ∪ { ρ | ρ ∈ callPaths c }) ∧
    ((vmmStep space m c).2.code ≠ vmmErrNomem →
      { ρ | ρ ∈ callPaths c } ⊆
        tablePaths space.rootPaddr virt (vmmStep space m c).1.tables) := by
  cases c with
  | map vaddr paddr flags => exact h.paths_mapPage laws total vaddr paddr flags rfl
  | unmap vaddr =>
    have hsame := h.paths_unmapPage laws vaddr
    exact ⟨⟨hsame.ge, hsame.le.trans Set.subset_union_left⟩,
      fun _ ρ hρ => absurd hρ List.not_mem_nil⟩
  | query vaddr out =>
    exact ⟨⟨subset_refl _, Set.subset_union_left⟩, fun _ ρ hρ => absurd hρ List.not_mem_nil⟩

end Paths

end Mcsos.Vmm
