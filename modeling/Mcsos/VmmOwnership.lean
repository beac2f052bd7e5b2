import Mcsos.VmmWalk

/-!
# The frames of the page tables

A run takes frames from `alloc_frame` and gives some of them back. The frames that it holds are
the tables below the root, each linked by one entry; a call that fails halfway leaves a shorter
path but no lost frame. Either callback may fail at any time.
-/

namespace Mcsos.Vmm
open RadixTree StepRun

/-- The frames that were handed out and not given back. -/
def hold (held : Set UInt64) : VmmEvent → Set UInt64
  | .allocated p => if p = vmmInvalidPhys then held else insert p held
  | .freed p => held \ {p}
  | .invalidated _ => held

variable {V γ : Type}

def Machine.held (start : Set UInt64) (m : Machine V γ) : Set UInt64 := m.events.foldl hold start

theorem Machine.held_of_events {start : Set UInt64} {m m' : Machine V γ} {e : VmmEvent}
    (h : m'.events = m.events ++ [e]) : m'.held start = hold (m.held start) e := by
  rw [Machine.held, h, List.foldl_append]
  rfl

theorem Machine.held_callAlloc {start : Set UInt64} {m m₁ : Machine V γ} {c : UInt64}
    {alloc : Tables V → γ → UInt64 × Tables V × γ} (hcall : m.callAlloc alloc = (c, m₁)) :
    m₁.held start = hold (m.held start) (.allocated c) := by
  obtain ⟨rfl, rfl⟩ := Prod.mk.inj hcall
  exact Machine.held_of_events rfl

theorem Machine.held_callFree {start : Set UInt64} {m m₁ : Machine V γ} {c : UInt64}
    {alloc : Tables V → γ → UInt64 × Tables V × γ} (hcall : m.callAlloc alloc = (c, m₁))
    (hgood : c ≠ vmmInvalidPhys) (hnot : c ∉ m.held start)
    (free : Tables V → γ → UInt64 → Tables V × γ) :
    (m₁.callFree free c).held start = m.held start := by
  rw [Machine.held_of_events (m := m₁) (e := .freed c) rfl, Machine.held_callAlloc hcall, hold,
    hold, if_neg hgood, Set.insert_sdiff_self_of_notMem hnot]

structure Owned (space : VmmSpace V γ) (virt : UInt64 → V) (handed : γ → Set UInt64)
    (start : Set UInt64) (m : Machine V γ) : Prop where
  tree : Tree space.rootPaddr virt (m.held start) m.tables
  record : m.held start ⊆ handed m.ctx
  used : space.freeFrame ≠ none → ∀ p ∈ m.held start, ∃ ρ, ρ ≠ [] ∧ ρ.length ≤ 3 ∧
    reach (link virt m.tables) space.rootPaddr ρ = some p

theorem Tree.reach_walkLink {root : UInt64} {virt : UInt64 → V} {H : Set UInt64}
    {tables : Tables V} (h : Tree root virt H tables) {ρ : List (Fin 512)} (hρ : ρ.length ≤ 3) :
    reach (walkLink virt tables) root ρ = reach (link virt tables) root ρ := by
  apply reach_congr (d := 3) _ hρ
  intro σ k hσ hk
  funext i
  rcases h.entries σ k i hσ hk with hzero | ⟨g, hg, hentry⟩
  · rw [walkLink, link, hzero, UInt64.zero_and, if_pos (Or.inl rfl), if_pos rfl]
  · obtain ⟨hpresent, hhuge, -⟩ := hg.tableEntry_bits
    rw [walkLink, link, hentry, if_neg hpresent, if_neg]
    exact fun hor => hor.elim hpresent (fun hne => hne hhuge)

def SamePages (space : VmmSpace V γ) (virt : UInt64 → V) (m m' : Machine V γ) : Prop :=
  ∀ v, translate space.rootPaddr virt m'.tables v = translate space.rootPaddr virt m.tables v

section Levels

variable {space : VmmSpace V γ} {virt : UInt64 → V} {handed : γ → Set UInt64}
  {start : Set UInt64} {m m' m₁ : Machine V γ} {p c : UInt64} {π : List (Fin 512)} {i : Fin 512}
  {alloc : Tables V → γ → UInt64 × Tables V × γ}

theorem Owned.isFrame (h : Owned space virt handed start m) (hπ : π.length ≤ 3)
    (hp : reach (link virt m.tables) space.rootPaddr π = some p) : space.IsFrame p :=
  (h.tree.frames π p hπ hp).imp_right And.left

theorem Owned.recorded (h : Owned space virt handed start m) : Recorded space virt handed m := by
  intro p hp
  obtain ⟨ρ, hρ, hreach⟩ := hp
  rw [h.tree.reach_walkLink hρ] at hreach
  exact (h.tree.frames ρ p hρ hreach).imp_right (fun hin => h.record hin.2)

theorem Owned.not_reached (h : Owned space virt handed start m) (hroot : c ≠ space.rootPaddr)
    (hfresh : c ∉ handed m.ctx) (hπ : π.length ≤ 3) :
    reach (link virt m.tables) space.rootPaddr π ≠ some c := by
  intro hc
  rcases h.tree.frames π c hπ hc with heq | ⟨-, hin⟩
  · exact hroot heq
  · exact hfresh (h.record hin)

theorem Owned.congr (h : Owned space virt handed start m)
    (hheld : m'.held start = m.held start) (hrecord : m.held start ⊆ handed m'.ctx)
    (hsame : ∀ q, q = space.rootPaddr ∨ q ∈ m.held start →
      m'.tables (virt q) = m.tables (virt q)) :
    Owned space virt handed start m' ∧ SamePages space virt m m' := by
  constructor
  · constructor
    case tree =>
      rw [hheld]
      exact h.tree.congr (subset_refl _) hsame
    case record =>
      rw [hheld]
      exact hrecord
    case used =>
      intro hfree p hp
      rw [hheld] at hp
      obtain ⟨ρ, hne, hρ, hreach⟩ := h.used hfree p hp
      exact ⟨ρ, hne, hρ, (h.tree.reach_eq hsame hρ).trans hreach⟩
  · exact fun v => h.tree.translate_congr hsame v

theorem Owned.refused (laws : RecordLaws space virt handed)
    (h : Owned space virt handed start m) (halloc : space.allocFrame = some alloc)
    (hcall : m.callAlloc alloc = (c, m₁))
    (hbad : c = vmmInvalidPhys ∨ vmmIsAligned4k c = false) :
    Owned space virt handed start m₁ ∧ SamePages space virt m m₁ := by
  obtain ⟨hanswer, hkeep⟩ := laws.answer halloc hcall
  have hinvalid : c = vmmInvalidPhys := by
    rcases hanswer with ⟨heq, -⟩ | ⟨hc, -⟩
    · exact heq
    · exact absurd hbad hc.accepted
  have hheld : m₁.held start = m.held start := by
    rw [Machine.held_callAlloc hcall, hold, if_pos hinvalid]
  apply h.congr hheld
  · exact h.record.trans (laws.handed_subset halloc hcall)
  · exact fun q hq => hkeep q (hq.imp_right (fun hin => h.record hin))

theorem Owned.leaked (laws : RecordLaws space virt handed)
    (h : Owned space virt handed start m) (halloc : space.allocFrame = some alloc)
    (hcall : m.callAlloc alloc = (c, m₁)) (hfree : space.freeFrame = none) :
    Owned space virt handed start m₁ ∧ SamePages space virt m m₁ := by
  obtain ⟨-, hkeep⟩ := laws.answer halloc hcall
  have hsame : ∀ q, q = space.rootPaddr ∨ q ∈ m.held start →
      m₁.tables (virt q) = m.tables (virt q) :=
    fun q hq => hkeep q (hq.imp_right (fun hin => h.record hin))
  have hheld : m₁.held start = hold (m.held start) (.allocated c) :=
    Machine.held_callAlloc hcall
  rw [hold] at hheld
  split_ifs at hheld with hinvalid
  · exact h.refused laws halloc hcall (Or.inl hinvalid)
  obtain ⟨-, -, -, hhanded⟩ := laws.fresh_frame halloc hcall hinvalid
  constructor
  · constructor
    case tree =>
      rw [hheld]
      exact h.tree.congr (Set.subset_insert c _) hsame
    case record =>
      rw [hheld]
      exact (Set.insert_subset_insert h.record).trans hhanded
    case used => exact fun hne => absurd hfree hne
  · exact fun v => h.tree.translate_congr hsame v

theorem Owned.returned (laws : RecordLaws space virt handed)
    (h : Owned space virt handed start m) (halloc : space.allocFrame = some alloc)
    (hcall : m.callAlloc alloc = (c, m₁)) (hgood : c ≠ vmmInvalidPhys)
    {free : Tables V → γ → UInt64 → Tables V × γ} (hfree : space.freeFrame = some free) :
    Owned space virt handed start (m₁.callFree free c) ∧
      SamePages space virt m (m₁.callFree free c) := by
  obtain ⟨-, hkeep⟩ := laws.answer halloc hcall
  obtain ⟨-, -, hfresh, hhanded⟩ := laws.fresh_frame halloc hcall hgood
  obtain ⟨hrecord, hsame⟩ := laws.free free hfree m₁.tables m₁.ctx c
  have hnot : c ∉ m.held start := fun hin => hfresh (h.record hin)
  have hin : ∀ q ∈ m.held start, q ∈ handed m₁.ctx \ {c} := by
    intro q hq
    exact ⟨hhanded (Set.mem_insert_of_mem c (h.record hq)), fun heq => hnot (heq ▸ hq)⟩
  apply h.congr (Machine.held_callFree hcall hgood hnot free)
  · exact fun q hq => hrecord (hin q hq)
  · intro q hq
    exact (hsame q (hq.imp_right (hin q))).trans
      (hkeep q (hq.imp_right (fun hq => h.record hq)))

theorem Owned.attach (laws : RecordLaws space virt handed)
    (h : Owned space virt handed start m) (hπ : π.length < 3)
    (hp : reach (link virt m.tables) space.rootPaddr π = some p)
    (habsent : m.tables (virt p) i &&& vmmPtePresent = 0)
    (halloc : space.allocFrame = some alloc) (hcall : m.callAlloc alloc = (c, m₁))
    (hgood : c ≠ vmmInvalidPhys) {m₂ : Machine V γ} (hctx : m₂.ctx = m₁.ctx)
    (hevents : m₂.events = m₁.events)
    (htables : ∀ q, space.IsFrame q → m₂.tables (virt q) =
      if q = c then fun _ => 0
      else if q = p then Function.update (m₁.tables (virt p)) i (tableEntry c)
      else m₁.tables (virt q)) :
    Owned space virt handed start m₂ ∧ SamePages space virt m m₂ ∧
      reach (link virt m₂.tables) space.rootPaddr (π ++ [i]) = some c := by
  obtain ⟨-, hkeep⟩ := laws.answer halloc hcall
  obtain ⟨hc, hroot, hfresh, hhanded⟩ := laws.fresh_frame halloc hcall hgood
  have hsame : ∀ q, q = space.rootPaddr ∨ q ∈ m.held start →
      m₁.tables (virt q) = m.tables (virt q) :=
    fun q hq => hkeep q (hq.imp_right (fun hin => h.record hin))
  have hin := (h.tree.frames π p (by omega) hp).imp_right And.right
  have hlink : link virt m₁.tables p i = none := by
    rw [link_congr (hsame p hin), link, if_pos habsent]
  have hp₁ : reach (link virt m₁.tables) space.rootPaddr π = some p :=
    (h.tree.reach_eq hsame (by omega)).trans hp
  obtain ⟨htree, hreach, htranslate⟩ := (h.tree.congr (subset_refl _) hsame).attach hπ hp₁ hlink
    hc hroot (fun hheld => hfresh (h.record hheld)) htables
  have hlength : (π ++ [i]).length ≤ 3 := by
    rw [List.length_append, List.length_singleton]
    omega
  have hheld : m₂.held start = insert c (m.held start) := by
    rw [Machine.held, hevents, ← Machine.held, Machine.held_callAlloc hcall, hold, if_neg hgood]
  have hnew : reach (link virt m₂.tables) space.rootPaddr (π ++ [i]) = some c := by
    rw [hreach _ hlength, if_pos rfl]
  constructor
  · constructor
    case tree =>
      rw [hheld]
      exact htree
    case record =>
      rw [hheld, hctx]
      exact (Set.insert_subset_insert h.record).trans hhanded
    case used =>
      intro hfree q hq
      rw [hheld] at hq
      rcases hq with rfl | hq
      · exact ⟨π ++ [i], by simp, hlength, hnew⟩
      · obtain ⟨ρ, hne, hρ, hq'⟩ := h.used hfree q hq
        use ρ, hne, hρ
        have hother : ρ ≠ π ++ [i] := by
          intro heq
          rw [← h.tree.reach_eq hsame hρ, heq, reach_concat_of_some hp₁, hlink] at hq'
          cases hq'
        rw [hreach ρ hρ, if_neg hother, h.tree.reach_eq hsame hρ, hq']
  · exact ⟨fun v => (htranslate v).trans (h.tree.translate_congr hsame v), hnew⟩

variable [DecidableEq V]

theorem Owned.nextTable (laws : RecordLaws space virt handed)
    (h : Owned space virt handed start m) (hπ : π.length < 3)
    (hp : reach (link virt m.tables) space.rootPaddr π = some p) (i : Fin 512) :
    Owned space virt handed start (getOrAllocNextTable space m (virt p) i).2 ∧
      SamePages space virt m (getOrAllocNextTable space m (virt p) i).2 ∧
      ∀ t m', getOrAllocNextTable space m (virt p) i = (.ok t, m') →
        ∃ g, t = virt g ∧ reach (link virt m'.tables) space.rootPaddr (π ++ [i]) = some g := by
  have hstep := nextStep space m (virt p) i
  generalize nextTableActions space m (virt p) i = as at hstep
  generalize getOrAllocNextTable space m (virt p) i = r at hstep ⊢
  cases hstep with
  | stay hrc => exact ⟨h, fun _ => rfl, fun t m' hok => by cases hok⟩
  | found hpresent hhuge htable =>
    use h, fun _ => rfl
    intro t m' hok
    cases hok
    have hframe : space.IsFrame (m.tables (virt p) i &&& vmmPteAddrMask) :=
      Or.inr (frame_and_addrMask _)
    use m.tables (virt p) i &&& vmmPteAddrMask, laws.tableFromPhys_eq_some hframe htable
    rw [reach_concat_of_some hp, link, if_neg hpresent]
  | refused halloc hcall hbad =>
    obtain ⟨howned, hpages⟩ := h.refused laws halloc hcall hbad
    exact ⟨howned, hpages, fun t m' hok => by cases hok⟩
  | leaked halloc hcall hfree =>
    obtain ⟨howned, hpages⟩ := h.leaked laws halloc hcall hfree
    exact ⟨howned, hpages, fun t m' hok => by cases hok⟩
  | returned halloc hcall hgood hfree =>
    obtain ⟨howned, hpages⟩ := h.returned laws halloc hcall hgood hfree
    exact ⟨howned, hpages, fun t m' hok => by cases hok⟩
  | @linked c m₁ newTable alloc habsent halloc hcall hgood htable =>
    obtain ⟨hc, hroot, hfresh, -⟩ := laws.fresh_frame halloc hcall hgood
    have hplace := laws.tableFromPhys_eq_some (Or.inr hc) htable
    subst hplace
    have hpc : p ≠ c := fun heq => h.not_reached hroot hfresh (by omega) (heq ▸ hp)
    have htables := fun q => laws.attached_tables m₁ (q := q) (h.isFrame (by omega) hp) hc hpc i
    have hzero := attached_outside m₁ (virt c) (virt p) i (tableEntry c)
    rw [hc.linkEntry_eq]
    obtain ⟨howned, hpages, hreach⟩ := h.attach laws hπ hp habsent halloc hcall hgood
      hzero.1 hzero.2 htables
    use howned, hpages
    intro t m' hok
    cases hok
    exact ⟨c, rfl, hreach⟩

theorem Owned.descend (laws : RecordLaws space virt handed)
    (h : Owned space virt handed start m) (path : List (Fin 512))
    (hπ : π.length + path.length ≤ 3)
    (hp : reach (link virt m.tables) space.rootPaddr π = some p) :
    Owned space virt handed start (descend space path m (virt p)).2 ∧
      SamePages space virt m (descend space path m (virt p)).2 ∧
      ∀ t m', descend space path m (virt p) = (.ok t, m') →
        ∃ g, t = virt g ∧ reach (link virt m'.tables) space.rootPaddr (π ++ path) = some g := by
  induction path generalizing m π p with
  | nil =>
    use h, fun _ => rfl
    intro t m' hok
    cases hok
    exact ⟨p, rfl, by rw [List.append_nil]; exact hp⟩
  | cons i path ih =>
    rw [List.length_cons] at hπ
    rw [Vmm.descend, List.append_cons]
    obtain ⟨h₁, hpages, hnext⟩ := h.nextTable laws (by omega) hp i
    rcases hstep : getOrAllocNextTable space m (virt p) i with ⟨rc | next, m₁⟩
    · rw [hstep] at h₁ hpages
      exact ⟨h₁, hpages, fun t m' hok => by cases hok⟩
    obtain ⟨g, rfl, hg⟩ := hnext next m₁ hstep
    rw [hstep] at h₁ hpages
    obtain ⟨howned, hsame, hlast⟩ := ih h₁ (length_concat_le hπ i) hg
    exact ⟨howned, fun w => (hsame w).trans (hpages w), hlast⟩

end Levels

section Calls

variable {space : VmmSpace V γ} {virt : UInt64 → V} {handed : γ → Set UInt64}
  {start : Set UInt64} {m : Machine V γ} {p : UInt64}

def pages (space : VmmSpace V γ) (virt : UInt64 → V) (m : Machine V γ) : PageMap :=
  translate space.rootPaddr virt m.tables

theorem AddressLaws.nextTable_eq_ok (laws : AddressLaws space virt) {i : Fin 512} {t : V}
    (h : nextTable space m (virt p) i = .ok t) :
    ∃ g, t = virt g ∧ link virt m.tables p i = some g := by
  simp only [nextTable] at h
  split_ifs at h with hentry
  rw [not_or] at hentry
  cases htable : tableFromPhys space m (m.tables (virt p) i &&& vmmPteAddrMask) with
  | none =>
    rw [htable] at h
    cases h
  | some next =>
    rw [htable] at h
    cases h
    use m.tables (virt p) i &&& vmmPteAddrMask
    use laws.tableFromPhys_eq_some (Or.inr (frame_and_addrMask _)) htable
    rw [link, if_neg hentry.1]

theorem AddressLaws.follow_eq_ok (laws : AddressLaws space virt) {path : List (Fin 512)} {t : V}
    (h : follow space m path (virt p) = .ok t) :
    ∃ g, t = virt g ∧ reach (link virt m.tables) p path = some g := by
  induction path generalizing p with
  | nil =>
    cases h
    exact ⟨p, rfl, rfl⟩
  | cons i path ih =>
    rw [follow] at h
    cases hnext : nextTable space m (virt p) i with
    | error rc =>
      rw [hnext] at h
      cases h
    | ok next =>
      obtain ⟨g, rfl, hg⟩ := laws.nextTable_eq_ok hnext
      rw [hnext] at h
      rw [reach, hg]
      exact ih h

theorem AddressLaws.findPageTable_eq_ok (laws : AddressLaws space virt) {v : Page} {t : V}
    (h : findPageTable space m v.1 = .ok t) :
    ∃ g, t = virt g ∧ reach (link virt m.tables) space.rootPaddr v.path = some g := by
  rw [findPageTable_eq] at h
  cases hroot : tableFromPhys space m space.rootPaddr with
  | none =>
    rw [hroot] at h
    cases h
  | some pml4 =>
    have hplace := laws.tableFromPhys_eq_some (Or.inl rfl) hroot
    subst hplace
    rw [hroot] at h
    exact laws.follow_eq_ok h

theorem Owned.restart (h : Owned space virt handed start m) :
    Owned space virt handed (m.held start) { m with trace := [] } :=
  ⟨h.tree, h.record, h.used⟩

theorem Owned.invalidated (h : Owned space virt handed start m) (vaddr : UInt64) :
    Owned space virt handed start (vmmInvalidatePage m vaddr) := by
  have hheld : (vmmInvalidatePage m vaddr).held start = m.held start :=
    Machine.held_of_events (e := .invalidated vaddr) rfl
  exact (h.congr hheld h.record (fun _ _ => rfl)).1

theorem Owned.failed {m' : Machine V γ} (h : Owned space virt handed start m')
    (hpages : SamePages space virt m m') (c : VmmCall) {r : VmmReply}
    (hr : r.code ≠ vmmMapOk) :
    Owned space virt handed start m' ∧ pages space virt m' = (pages space virt m).after c r := by
  rw [PageMap.after_of_error _ c hr]
  exact ⟨h, funext hpages⟩

theorem SamePages.after {m' m'' : Machine V γ} (h : SamePages space virt m m') {c : VmmCall}
    {r : VmmReply} (h' : pages space virt m'' = (pages space virt m').after c r) :
    pages space virt m'' = (pages space virt m).after c r := by
  have hsame : pages space virt m' = pages space virt m := funext h
  rw [h', hsame]

theorem nextTable_error {table : V} {i : Fin 512} {rc : Int32}
    (h : nextTable space m table i = .error rc) : rc ≠ vmmMapOk := by
  simp only [nextTable] at h
  split_ifs at h with hentry
  · cases h
    decide
  cases htable : tableFromPhys space m (m.tables table i &&& vmmPteAddrMask) with
  | none =>
    rw [htable] at h
    cases h
    decide
  | some next =>
    rw [htable] at h
    cases h

theorem follow_error {path : List (Fin 512)} {table : V} {rc : Int32}
    (h : follow space m path table = .error rc) : rc ≠ vmmMapOk := by
  induction path generalizing table with
  | nil => cases h
  | cons i path ih =>
    rw [follow] at h
    cases hnext : nextTable space m table i with
    | error rc' =>
      rw [hnext] at h
      cases h
      exact nextTable_error hnext
    | ok next =>
      rw [hnext] at h
      exact ih h

theorem findPageTable_error {vaddr : UInt64} {rc : Int32}
    (h : findPageTable space m vaddr = .error rc) : rc ≠ vmmMapOk := by
  rw [findPageTable_eq] at h
  cases hroot : tableFromPhys space m space.rootPaddr with
  | none =>
    rw [hroot] at h
    cases h
    decide
  | some pml4 =>
    rw [hroot] at h
    exact follow_error h

variable [DecidableEq V]

theorem vmmMapPage_ok {vaddr paddr flags : UInt64}
    (h : (vmmMapPage space m vaddr paddr flags).1 = vmmMapOk) :
    (vmmIsCanonical vaddr = true ∧ vmmIsAligned4k vaddr = true) ∧
      vmmIsAligned4k paddr = true ∧
      ∃ pml4 pt m₁, tableFromPhys space m space.rootPaddr = some pml4 ∧
        descend space (tablePath vaddr) m pml4 = (.ok pt, m₁) ∧
        m₁.tables pt (idxPt vaddr) &&& vmmPtePresent = 0 ∧
        (vmmMapPage space m vaddr paddr flags).2 =
          m₁.store pt (idxPt vaddr) (leafEntry paddr flags) := by
  have hinval : vmmErrInval ≠ vmmMapOk := by decide
  have hexists : vmmErrExists ≠ vmmMapOk := by decide
  rw [vmmMapPage_eq] at h ⊢
  split_ifs at h ⊢ with hbad
  · exact absurd h hinval
  simp only [not_or, Bool.not_eq_false] at hbad
  cases hroot : tableFromPhys space m space.rootPaddr with
  | none =>
    rw [hroot] at h
    exact absurd h hinval
  | some pml4 =>
    rcases hdescend : descend space (tablePath vaddr) m pml4 with ⟨rc | pt, m₁⟩
    · simp only [hroot, hdescend] at h
      exact absurd h (descend_error hdescend)
    simp only [hroot, hdescend, mapLeaf] at h ⊢
    split_ifs at h ⊢ with hpresent
    · exact absurd h hexists
    · exact ⟨⟨hbad.1, hbad.2.1⟩, hbad.2.2, pml4, pt, m₁, rfl, hdescend, not_not.mp hpresent, rfl⟩

theorem Owned.storeLeaf (laws : RecordLaws space virt handed)
    (h : Owned space virt handed start m) {v : Page}
    (hp : reach (link virt m.tables) space.rootPaddr v.path = some p) (e : UInt64) :
    Owned space virt handed start (m.store (virt p) (idxPt v.1) e) ∧
      pages space virt (m.store (virt p) (idxPt v.1) e) =
        Function.update (pages space virt m) v (leafOf e) := by
  obtain ⟨htree, hreach, htranslate⟩ := h.tree.setLeaf hp (fun q hq =>
    laws.store_tables m (h.isFrame (le_of_eq v.path_length) hp) (idxPt v.1) e hq)
  constructor
  · constructor
    case tree => exact htree
    case record => exact h.record
    case used =>
      intro hfree q hq
      obtain ⟨ρ, hne, hρ, hq'⟩ := h.used hfree q hq
      exact ⟨ρ, hne, hρ, (hreach ρ hρ).trans hq'⟩
  · funext w
    rw [Function.update_apply]
    exact htranslate w

theorem Owned.mapLeaf (laws : RecordLaws space virt handed)
    (h : Owned space virt handed start m) {v : Page}
    (hp : reach (link virt m.tables) space.rootPaddr v.path = some p) (paddr flags : UInt64)
    {r : VmmReply} (hr : r.code = (mapLeaf m (virt p) v.1 paddr flags).1) :
    Owned space virt handed start (mapLeaf m (virt p) v.1 paddr flags).2 ∧
      pages space virt (mapLeaf m (virt p) v.1 paddr flags).2 =
        (pages space virt m).after (.map v.1 paddr flags) r := by
  rw [Vmm.mapLeaf] at hr ⊢
  split_ifs at hr ⊢ with hpresent
  · rw [PageMap.after_of_error _ _ (hr ▸ (by decide : vmmErrExists ≠ vmmMapOk))]
    exact ⟨h, rfl⟩
  · rw [PageMap.after_map_ok _ _ _ _ hr, ← leafOf_leafEntry]
    exact h.storeLeaf laws hp (leafEntry paddr flags)

theorem Owned.mapPage (laws : RecordLaws space virt handed)
    (h : Owned space virt handed start m) (vaddr paddr flags : UInt64) {r : VmmReply}
    (hr : r.code = (vmmMapPage space m vaddr paddr flags).1) :
    Owned space virt handed start (vmmMapPage space m vaddr paddr flags).2 ∧
      pages space virt (vmmMapPage space m vaddr paddr flags).2 =
        (pages space virt m).after (.map vaddr paddr flags) r := by
  have hsame : SamePages space virt m m := fun _ => rfl
  have hinval : vmmErrInval ≠ vmmMapOk := by decide
  rw [vmmMapPage_eq] at hr ⊢
  split_ifs at hr ⊢ with hbad
  · exact h.failed hsame _ (hr ▸ hinval)
  simp only [not_or, Bool.not_eq_false] at hbad
  obtain ⟨v, rfl⟩ : ∃ v : Page, v.1 = vaddr := ⟨⟨vaddr, hbad.1, hbad.2.1⟩, rfl⟩
  cases hroot : tableFromPhys space m space.rootPaddr with
  | none =>
    simp only [hroot] at hr
    exact h.failed hsame _ (hr ▸ hinval)
  | some pml4 =>
    have hplace := laws.tableFromPhys_eq_some (Or.inl rfl) hroot
    subst hplace
    simp only [hroot] at hr ⊢
    obtain ⟨h₁, hpages, hnext⟩ := h.descend laws (tablePath v.1) (π := [])
      (by simp [tablePath]) rfl
    rcases hstep : Vmm.descend space (tablePath v.1) m (virt space.rootPaddr) with
      ⟨rc | pt, m₁⟩
    · rw [hstep] at h₁ hpages
      simp only [hstep] at hr
      exact h₁.failed hpages _ (hr ▸ descend_error hstep)
    obtain ⟨g, rfl, hg⟩ := hnext pt m₁ hstep
    simp only [hstep] at hr h₁ hpages ⊢
    obtain ⟨howned, hafter⟩ := h₁.mapLeaf laws (v := v) hg paddr flags hr
    exact ⟨howned, hpages.after hafter⟩

theorem Owned.unmapPage (laws : RecordLaws space virt handed)
    (h : Owned space virt handed start m) (vaddr : UInt64) {r : VmmReply}
    (hr : r.code = (vmmUnmapPage space m vaddr).1) :
    Owned space virt handed start (vmmUnmapPage space m vaddr).2 ∧
      pages space virt (vmmUnmapPage space m vaddr).2 =
        (pages space virt m).after (.unmap vaddr) r := by
  have hsame : SamePages space virt m m := fun _ => rfl
  rw [vmmUnmapPage] at hr ⊢
  split_ifs at hr ⊢ with hbad
  · exact h.failed hsame _ (hr ▸ (by decide : vmmErrInval ≠ vmmMapOk))
  simp only [not_or, Bool.not_eq_false] at hbad
  obtain ⟨v, rfl⟩ : ∃ v : Page, v.1 = vaddr := ⟨⟨vaddr, hbad.1, hbad.2⟩, rfl⟩
  cases hfind : findPageTable space m v.1 with
  | error rc =>
    simp only [hfind] at hr
    exact h.failed hsame _ (hr ▸ findPageTable_error hfind)
  | ok pt =>
    obtain ⟨g, rfl, hg⟩ := laws.findPageTable_eq_ok hfind
    simp only [hfind] at hr ⊢
    split_ifs at hr ⊢ with hpresent
    · exact h.failed hsame _ (hr ▸ (by decide : vmmErrNotFound ≠ vmmMapOk))
    · obtain ⟨howned, hupdate⟩ := h.storeLeaf laws hg 0
      rw [PageMap.after_unmap_ok _ _ hr]
      exact ⟨howned.invalidated v.1, hupdate⟩

/-- A call keeps the frames accounted for, and changes the map of pages as its answer says. -/
theorem Owned.step (laws : RecordLaws space virt handed)
    (h : Owned space virt handed start { m with trace := [] }) (c : VmmCall) :
    Owned space virt handed start (vmmStep space m c).1 ∧
      (vmmStep space m c).1.held start = (vmmStep space m c).2.events.foldl hold start ∧
      pages space virt (vmmStep space m c).1 =
        (pages space virt m).after c (vmmStep space m c).2 := by
  cases c with
  | map vaddr paddr flags =>
    obtain ⟨howned, hafter⟩ := h.mapPage laws vaddr paddr flags
      (r := (vmmStep space m (.map vaddr paddr flags)).2) rfl
    exact ⟨howned, rfl, hafter⟩
  | unmap vaddr =>
    obtain ⟨howned, hafter⟩ := h.unmapPage laws vaddr
      (r := (vmmStep space m (.unmap vaddr)).2) rfl
    exact ⟨howned, rfl, hafter⟩
  | query vaddr out => exact ⟨h, rfl, rfl⟩

end Calls

structure Slot where
  level : ℕ
  table : UInt64
  index : Fin 512

def References (root : UInt64) (virt : UInt64 → V) (tables : Tables V) (s : Slot)
    (p : UInt64) : Prop :=
  s.level < 3 ∧
    (∃ ρ : List (Fin 512), ρ.length = s.level ∧
      reach (link virt tables) root ρ = some s.table) ∧
    link virt tables s.table s.index = some p

/-- The held frames are the tables below the root, and these form a tree. -/
structure TableTree (root : UInt64) (virt : UInt64 → V) (held : Set UInt64)
    (tables : Tables V) : Prop where
  reachable : ∀ p, p ∈ held ↔ ∃ ρ : List (Fin 512), ρ ≠ [] ∧ ρ.length ≤ 3 ∧
    reach (link virt tables) root ρ = some p
  referenced : ∀ p ∈ held, ∃! s, References root virt tables s p
  unreferenced : ∀ s, ¬ References root virt tables s root
  entries : ∀ (ρ : List (Fin 512)) q i, ρ.length < 3 →
    reach (link virt tables) root ρ = some q →
    tables (virt q) i = 0 ∨ ∃ p ∈ held, tables (virt q) i = tableEntry p

section Trees

variable {root : UInt64} {virt : UInt64 → V} {held : Set UInt64} {tables : Tables V}

theorem References.path {s : Slot} {p : UInt64} (h : References root virt tables s p) :
    ∃ ρ : List (Fin 512), ρ.length = s.level ∧ ρ.length < 3 ∧
      reach (link virt tables) root ρ = some s.table ∧
      reach (link virt tables) root (ρ ++ [s.index]) = some p := by
  obtain ⟨hlevel, ⟨ρ, hρ, hreach⟩, hlink⟩ := h
  exact ⟨ρ, hρ, hρ ▸ hlevel, hreach, (reach_concat_of_some hreach s.index).trans hlink⟩

theorem Tree.held_of_path (h : Tree root virt held tables) {ρ : List (Fin 512)} {p : UInt64}
    (hne : ρ ≠ []) (hρ : ρ.length ≤ 3) (hp : reach (link virt tables) root ρ = some p) :
    p ∈ held := by
  rcases h.frames ρ p hρ hp with heq | hin
  · rw [heq] at hp
    exact absurd (h.separated ρ [] root hρ (by decide) hp rfl) hne
  · exact hin.2

theorem Tree.slot_unique (h : Tree root virt held tables) {s s' : Slot} {p : UInt64}
    (hs : References root virt tables s p) (hs' : References root virt tables s' p) :
    s = s' := by
  obtain ⟨ρ, hlevel, hρ, hreach, hp⟩ := hs.path
  obtain ⟨ρ', hlevel', hρ', hreach', hp'⟩ := hs'.path
  have hpath := h.separated _ _ p (by simp; omega) (by simp; omega) hp hp'
  obtain ⟨rfl, hindex⟩ := List.append_inj' hpath rfl
  have htable : s.table = s'.table := Option.some.inj (hreach.symm.trans hreach')
  have hdepth : s.level = s'.level := by rw [← hlevel, ← hlevel']
  obtain ⟨level, table, index⟩ := s
  obtain ⟨level', table', index'⟩ := s'
  rw [Slot.mk.injEq]
  exact ⟨hdepth, htable, List.singleton_inj.mp hindex⟩

theorem Tree.tableTree (h : Tree root virt held tables)
    (hused : ∀ p ∈ held, ∃ ρ : List (Fin 512), ρ ≠ [] ∧ ρ.length ≤ 3 ∧
      reach (link virt tables) root ρ = some p) :
    TableTree root virt held tables := by
  constructor
  case reachable =>
    intro p
    constructor
    · exact hused p
    · intro hp
      obtain ⟨ρ, hne, hρ, hreach⟩ := hp
      exact h.held_of_path hne hρ hreach
  case referenced =>
    intro p hp
    obtain ⟨ρ, hne, hρ, hreach⟩ := hused p hp
    obtain ⟨σ, i, rfl⟩ : ∃ σ i, ρ = σ ++ [i] :=
      ⟨_, _, (List.dropLast_append_getLast hne).symm⟩
    rw [List.length_append, List.length_singleton] at hρ
    have hstep := hreach
    rw [reach_concat] at hstep
    obtain ⟨q, hq, hlink⟩ := Option.bind_eq_some_iff.mp hstep
    have hslot : References root virt tables ⟨σ.length, q, i⟩ p :=
      ⟨hρ, ⟨σ, rfl, hq⟩, hlink⟩
    exact ⟨_, hslot, fun s hs => h.slot_unique hs hslot⟩
  case unreferenced =>
    intro s hs
    obtain ⟨ρ, -, hρ, -, hp⟩ := hs.path
    have hpath := h.separated _ [] root (by simp; omega) (by decide) hp rfl
    exact List.append_ne_nil_of_right_ne_nil ρ (List.cons_ne_nil _ _) hpath
  case entries =>
    intro ρ q i hρ hq
    apply (h.entries ρ q i hρ hq).imp_right
    intro hentry
    obtain ⟨g, hg, hg'⟩ := hentry
    use g
    obtain ⟨hpresent, -, haddr⟩ := hg.tableEntry_bits
    have hlink : link virt tables q i = some g := by
      rw [link, hg', if_neg hpresent, haddr]
    exact ⟨h.held_of_path (by simp) (by simp; omega)
      ((reach_concat_of_some hq i).trans hlink), hg'⟩

end Trees

theorem owned_of_zeroed_root {space : VmmSpace V γ} {virt : UInt64 → V}
    (handed : γ → Set UInt64) {m : Machine V γ}
    (hzero : ∀ i, m.tables (virt space.rootPaddr) i = 0) :
    Owned space virt handed ∅ { m with trace := [] } ∧ pages space virt m = fun _ => none := by
  obtain ⟨htree, hpages⟩ := tree_of_zeroed_root (∅ : Set UInt64) hzero
  exact ⟨⟨htree, Set.empty_subset _, fun _ p hp => absurd hp (Set.notMem_empty p)⟩,
    funext hpages⟩

theorem RecordLaws.run_owned [DecidableEq V] {space : VmmSpace V γ} {virt : UInt64 → V}
    {handed : γ → Set UInt64} (laws : RecordLaws space virt handed) {m : Machine V γ}
    (hzero : ∀ i, m.tables (virt space.rootPaddr) i = 0) (calls : List VmmCall) :
    Owned space virt handed
      ((runTotal (vmmStep space) m calls).2.foldl (fun held r => r.events.foldl hold held) ∅)
      { (runTotal (vmmStep space) m calls).1 with trace := [] } := by
  apply runTotal_observed
    (fun (s : Machine V γ) held => Owned space virt handed held { s with trace := [] })
    _ (owned_of_zeroed_root handed hzero).1
  intro s held c hs
  obtain ⟨howned, hheld, -⟩ := hs.step laws c
  rw [← hheld]
  exact howned.restart

/-- From a zeroed root, after every sequence of calls, the frames taken from `alloc_frame` and
not given back are the tables below the root, and each is linked by exactly one entry. -/
theorem table_frames_owned [DecidableEq V] {space : VmmSpace V γ} {virt : UInt64 → V}
    {handed : γ → Set UInt64} (laws : RecordLaws space virt handed)
    (hfree : space.freeFrame ≠ none) (m : Machine V γ)
    (hzero : ∀ i, m.tables (virt space.rootPaddr) i = 0) (calls : List VmmCall) :
    TableTree space.rootPaddr virt
      (((runTotal (vmmStep space) m calls).2.flatMap VmmReply.events).foldl hold ∅)
      (runTotal (vmmStep space) m calls).1.tables := by
  have hrun := laws.run_owned hzero calls
  rw [List.foldl_flatMap]
  exact hrun.tree.tableTree (hrun.used hfree)

def lossySpace : VmmSpace UInt64 ℕ :=
  ⟨0x1000, some sampleAlloc, some (fun tables next _ => (tables, next)),
    some (fun _ _ p => if p = 0x3000 then none else some p)⟩

theorem lossy_record : RecordLaws lossySpace id sampleHanded where
  toVirt := by
    intro f tables ctx p hf _
    cases hf
    by_cases hp : p = 0x3000
    · exact Or.inl (if_pos hp)
    · exact Or.inr (if_neg hp)
  injective := fun p q _ _ h => h
  alloc := sample_record.alloc
  free := by
    intro f hf tables ctx p
    cases hf
    exact ⟨Set.sdiff_subset, fun _ _ => rfl⟩

def lossyCalls : List VmmCall :=
  [.map 0x400000 0x5000 2, .map 0x400000 0x5000 2, .map 0xFFFF800000200000 0x7000 0,
    .unmap 0x400000]

theorem table_frames_owned_sample :
    (runTotal (vmmStep lossySpace) sampleMachine lossyCalls).2.map VmmReply.code =
      [vmmErrInval, vmmMapOk, vmmErrNomem, vmmMapOk] ∧
    TableTree 0x1000 id (((runTotal (vmmStep lossySpace) sampleMachine lossyCalls).2.flatMap
      VmmReply.events).foldl hold ∅)
      (runTotal (vmmStep lossySpace) sampleMachine lossyCalls).1.tables :=
  ⟨by decide +kernel, table_frames_owned lossy_record (Option.some_ne_none _) sampleMachine
    (fun _ => rfl) lossyCalls⟩

end Mcsos.Vmm
