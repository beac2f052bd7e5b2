import Mcsos.VmmOwnership

/-!
# The access rights of a mapped page

The CPU combines the rights of a page from the entries of all four levels. The upper entries
that `vmm_map_page` writes are writable and executable and never open to user mode, so of the
requested rights the writable and the no-execute bit take effect and the user bit does not.
-/

namespace Mcsos.Vmm
open RadixTree StepRun WordArithmetic

variable {V γ : Type}

section Walks

variable {root p : UInt64} {virt : UInt64 → V} {H : Set UInt64} {tables : Tables V}

theorem Tree.walkLevels_upper (h : Tree root virt H tables) {ρ : List (Fin 512)}
    (hρ : ρ.length < 3) (hp : reach (link virt tables) root ρ = some p) {l : Level}
    (hkind : l.kind ≠ .page) (ls : List Level) (vaddr : UInt64) :
    (link virt tables p l.index = none ∧ walkLevels virt tables vaddr (l :: ls) p = none) ∨
    ∃ g, Frame g ∧ link virt tables p l.index = some g ∧
      walkLevels virt tables vaddr (l :: ls) p =
        (walkLevels virt tables vaddr ls g).map
          (fun w => ⟨tableEntry g :: w.entries, w.paddr⟩) := by
  rcases h.entries ρ p l.index hρ hp with hzero | ⟨g, hg, hentry⟩
  · left
    have habsent : tables (virt p) l.index &&& vmmPtePresent = 0 := by
      rw [hzero]
      exact UInt64.zero_and
    constructor
    · exact if_pos habsent
    · simp only [walkLevels, habsent, if_true]
  · right
    obtain ⟨hpresent, hhuge, haddr⟩ := hg.tableEntry_bits
    have hleaf : l.kind.leafSize (tableEntry g) = none := by
      cases hk : l.kind with
      | table => rfl
      | huge size => simp only [LevelKind.leafSize, hhuge, ne_eq, not_true_eq_false, if_false]
      | page => exact absurd hk hkind
    have hwalk : walkLink virt tables p l.index = some g := by
      rw [walkLink, hentry, haddr, if_neg]
      exact fun hor => hor.elim hpresent (fun hne => hne hhuge)
    use g, hg
    constructor
    · rw [link, hentry, haddr, if_neg hpresent]
    · simp only [walkLevels, hentry, hpresent, if_false, hleaf, hwalk, Option.bind_some]

theorem Tree.pageWalk_cases (h : Tree root virt H tables) (v : Page) :
    (pageWalk root virt tables v.1 = none ∧ translate root virt tables v = none) ∨
    ∃ g₁ g₂ g₃ e a, Frame g₁ ∧ Frame g₂ ∧ Frame g₃ ∧
      pageWalk root virt tables v.1 =
        some ⟨[tableEntry g₁, tableEntry g₂, tableEntry g₃, e], a⟩ ∧
      translate root virt tables v = some (e &&& vmmPteAddrMask, e &&& ~~~vmmPteAddrMask) := by
  have hcanonical : ¬ vmmIsCanonical v.1 = false := by
    rw [v.2.1]
    decide
  rw [pageWalk, if_neg hcanonical, levels]
  rcases h.walkLevels_upper (ρ := []) (l := ⟨idxPml4 v.1, .table⟩) (by decide) rfl
      (fun hkind => by cases hkind) _ v.1 with
    ⟨hlink₁, hwalk₁⟩ | ⟨g₁, hg₁, hlink₁, hwalk₁⟩
  · exact Or.inl ⟨hwalk₁, by simp only [translate, Page.path, reach, hlink₁, Option.bind_none]⟩
  have hp₁ : reach (link virt tables) root [idxPml4 v.1] = some g₁ := by
    simp only [reach, hlink₁, Option.bind_some]
  rw [hwalk₁]
  rcases h.walkLevels_upper (l := ⟨idxPdpt v.1, .huge 0x40000000⟩) (by simp) hp₁
      (fun hkind => by cases hkind) _ v.1 with
    ⟨hlink₂, hwalk₂⟩ | ⟨g₂, hg₂, hlink₂, hwalk₂⟩
  · rw [hwalk₂]
    exact Or.inl ⟨rfl, by
      simp only [translate, Page.path, reach, hlink₁, hlink₂, Option.bind_some,
        Option.bind_none]⟩
  have hp₂ : reach (link virt tables) root [idxPml4 v.1, idxPdpt v.1] = some g₂ := by
    simp only [reach, hlink₁, hlink₂, Option.bind_some]
  rw [hwalk₂]
  rcases h.walkLevels_upper (l := ⟨idxPd v.1, .huge 0x200000⟩) (by simp) hp₂
      (fun hkind => by cases hkind) _ v.1 with
    ⟨hlink₃, hwalk₃⟩ | ⟨g₃, hg₃, hlink₃, hwalk₃⟩
  · rw [hwalk₃]
    exact Or.inl ⟨rfl, by
      simp only [translate, Page.path, reach, hlink₁, hlink₂, hlink₃, Option.bind_some,
        Option.bind_none]⟩
  rw [hwalk₃]
  have hpages : translate root virt tables v = leafOf (tables (virt g₃) (idxPt v.1)) := by
    simp only [translate, Page.path, reach, hlink₁, hlink₂, hlink₃, Option.bind_some]
  by_cases hpresent : tables (virt g₃) (idxPt v.1) &&& vmmPtePresent = 0
  · left
    rw [hpages, leafOf, if_pos hpresent]
    simp only [walkLevels, hpresent, if_true, Option.map_none, and_self]
  · right
    rw [hpages, leafOf, if_neg hpresent]
    simp only [walkLevels, hpresent, if_false, LevelKind.leafSize, Option.map_some]
    exact ⟨g₁, g₂, g₃, tables (virt g₃) (idxPt v.1), _, hg₁, hg₂, hg₃, rfl, rfl⟩

end Walks

structure Rights where
  writable : Bool
  user : Bool
  noExecute : Bool
  deriving DecidableEq, Repr

def Walk.rights (w : Walk) : Rights where
  writable := w.entries.all (fun e => e &&& vmmPteWritable != 0)
  user := w.entries.all (fun e => e &&& vmmPteUser != 0)
  noExecute := w.entries.any (fun e => e &&& vmmPteNoExecute != 0)

def requestedRights (flags : UInt64) : Rights where
  writable := flags &&& vmmPteWritable != 0
  user := flags &&& vmmPteUser != 0
  noExecute := flags &&& vmmPteNoExecute != 0

theorem Frame.tableEntry_rights {g : UInt64} (h : Frame g) :
    tableEntry g &&& vmmPteWritable ≠ 0 ∧ tableEntry g &&& vmmPteUser = 0 ∧
      tableEntry g &&& vmmPteNoExecute = 0 := by
  have hW : g &&& vmmPteWritable = 0 := by
    rw [← h.and_mask, UInt64.and_assoc]
    exact UInt64.and_zero
  have hU : g &&& vmmPteUser = 0 := by
    rw [← h.and_mask, UInt64.and_assoc]
    exact UInt64.and_zero
  have hX : g &&& vmmPteNoExecute = 0 := by
    rw [← h.and_mask, UInt64.and_assoc]
    exact UInt64.and_zero
  simp only [tableEntry, or_and_distrib, hW, hU, hX]
  decide

theorem leaf_bit {e flags : UInt64} (bit : UInt64)
    (hflags : e &&& ~~~vmmPteAddrMask = vmmPtePresent ||| (flags &&& allowedFlags))
    (hmask : ~~~vmmPteAddrMask &&& bit = bit) (hallowed : allowedFlags &&& bit = bit)
    (hpresent : vmmPtePresent &&& bit = 0) : e &&& bit = flags &&& bit := by
  calc e &&& bit = e &&& ~~~vmmPteAddrMask &&& bit := by rw [UInt64.and_assoc, hmask]
    _ = (vmmPtePresent ||| (flags &&& allowedFlags)) &&& bit := by rw [hflags]
    _ = flags &&& bit := by
      rw [or_and_distrib, hpresent, UInt64.and_assoc, hallowed, UInt64.zero_or]

/-- Of the requested rights, all but the user right are granted. -/
theorem rights_of_walk {g₁ g₂ g₃ e a flags : UInt64} (h₁ : Frame g₁) (h₂ : Frame g₂)
    (h₃ : Frame g₃)
    (hflags : e &&& ~~~vmmPteAddrMask = vmmPtePresent ||| (flags &&& allowedFlags)) :
    Walk.rights ⟨[tableEntry g₁, tableEntry g₂, tableEntry g₃, e], a⟩ =
      { requestedRights flags with user := false } := by
  have hW := leaf_bit vmmPteWritable hflags (by decide) (by decide) (by decide)
  have hX := leaf_bit vmmPteNoExecute hflags (by decide) (by decide) (by decide)
  simp only [Walk.rights, requestedRights, List.all_cons, List.all_nil, List.any_cons,
    List.any_nil, h₁.tableEntry_rights, h₂.tableEntry_rights, h₃.tableEntry_rights, hW, hX,
    bne_self_eq_false, Bool.false_and, Bool.false_or, Bool.or_false, Bool.and_true,
    bne_iff_ne.mpr h₁.tableEntry_rights.1, bne_iff_ne.mpr h₂.tableEntry_rights.1,
    bne_iff_ne.mpr h₃.tableEntry_rights.1, Bool.true_and]

abbrev Requests := Page → Option UInt64

def Requests.after (R : Requests) (c : VmmCall) (r : VmmReply) : Requests :=
  match c with
  | .map vaddr _ flags => fun w => if r.code = vmmMapOk ∧ w.1 = vaddr then some flags else R w
  | .unmap vaddr => fun w => if r.code = vmmMapOk ∧ w.1 = vaddr then none else R w
  | .query _ _ => R

structure RightsState (V γ : Type) where
  machine : Machine V γ
  requests : Requests

def rightsStep [DecidableEq V] (space : VmmSpace V γ) (s : RightsState V γ) (c : VmmCall) :
    RightsState V γ × VmmReply :=
  let r := vmmStep space s.machine c
  (⟨r.1, s.requests.after c r.2⟩, r.2)

def RightsEffective (root : UInt64) (virt : UInt64 → V) (s : RightsState V γ) : Prop :=
  ∀ v flags, s.requests v = some flags →
    ∃ w, pageWalk root virt s.machine.tables v.1 = some w ∧ w.rights = requestedRights flags

/-- The call does not ask for user mode, except for an address that is no page or that is mapped
already. -/
def NoUserRequest (s : RightsState V γ) : VmmCall → Prop
  | .map vaddr _ flags =>
      flags &&& vmmPteUser = 0 ∨ ∀ v : Page, v.1 = vaddr → (s.requests v).isSome = true
  | _ => True

def Granted (M : PageMap) (R : Requests) : Prop :=
  ∀ v, (M v).map Prod.snd = (R v).map (fun flags => vmmPtePresent ||| (flags &&& allowedFlags))

theorem Granted.after {M : PageMap} {R : Requests} (h : Granted M R) (c : VmmCall)
    (r : VmmReply) : Granted (M.after c r) (R.after c r) := by
  intro v
  cases c with
  | map vaddr paddr flags =>
    simp only [PageMap.after, Requests.after]
    split_ifs
    · rfl
    · exact h v
  | unmap vaddr =>
    simp only [PageMap.after, Requests.after]
    split_ifs
    · rfl
    · exact h v
  | query vaddr out => exact h v

section Runs

variable {space : VmmSpace V γ} {virt : UInt64 → V} {handed : γ → Set UInt64}

def RightsKnown (space : VmmSpace V γ) (virt : UInt64 → V) (handed : γ → Set UInt64)
    (s : RightsState V γ) : Prop :=
  (∃ start, Owned space virt handed start { s.machine with trace := [] }) ∧
    Granted (pages space virt s.machine) s.requests

theorem RightsKnown.granted {s : RightsState V γ} (h : RightsKnown space virt handed s)
    {v : Page} {flags : UInt64} (hv : s.requests v = some flags) :
    ∃ w, pageWalk space.rootPaddr virt s.machine.tables v.1 = some w ∧
      w.rights = { requestedRights flags with user := false } := by
  obtain ⟨⟨start, howned⟩, hgranted⟩ := h
  have hflags := hgranted v
  rw [hv] at hflags
  rcases howned.tree.pageWalk_cases v with ⟨-, hnone⟩ | ⟨g₁, g₂, g₃, e, a, h₁, h₂, h₃, hw, hv'⟩
  · rw [pages, hnone] at hflags
    cases hflags
  · rw [pages, hv'] at hflags
    exact ⟨_, hw, rights_of_walk h₁ h₂ h₃ (Option.some.inj hflags)⟩

theorem RightsKnown.effective_iff {s : RightsState V γ} (h : RightsKnown space virt handed s) :
    RightsEffective space.rootPaddr virt s ↔
      ∀ v flags, s.requests v = some flags → flags &&& vmmPteUser = 0 := by
  constructor
  · intro heffective v flags hv
    obtain ⟨w, hw, hrights⟩ := heffective v flags hv
    obtain ⟨w', hw', hrights'⟩ := h.granted hv
    have hsame : w = w' := Option.some.inj (hw.symm.trans hw')
    rw [hsame, hrights'] at hrights
    have huser := congrArg Rights.user hrights
    exact bne_eq_false_iff_eq.mp huser.symm
  · intro huser v flags hv
    obtain ⟨w, hw, hrights⟩ := h.granted hv
    use w, hw
    rw [hrights, requestedRights, huser v flags hv]
    rfl

variable [DecidableEq V]

theorem RightsKnown.step (laws : RecordLaws space virt handed) {s : RightsState V γ}
    (h : RightsKnown space virt handed s) (c : VmmCall) :
    RightsKnown space virt handed (rightsStep space s c).1 := by
  obtain ⟨⟨start, howned⟩, hgranted⟩ := h
  obtain ⟨hnext, -, hpages⟩ := howned.step laws c
  constructor
  · exact ⟨_, hnext.restart⟩
  · simp only [rightsStep, hpages]
    exact hgranted.after c _

theorem Owned.unmapped_of_map_ok {start : Set UInt64} {m : Machine V γ}
    (laws : RecordLaws space virt handed) (h : Owned space virt handed start m) {v : Page}
    {paddr flags : UInt64} (hok : (vmmMapPage space m v.1 paddr flags).1 = vmmMapOk) :
    pages space virt m v = none := by
  obtain ⟨-, -, pml4, pt, m₁, hroot, hdescend, habsent, -⟩ := vmmMapPage_ok hok
  have hplace := laws.tableFromPhys_eq_some (Or.inl rfl) hroot
  subst hplace
  obtain ⟨-, hpages, hnext⟩ := h.descend laws (tablePath v.1) (π := []) (by simp [tablePath]) rfl
  obtain ⟨g, rfl, hg⟩ := hnext pt m₁ hdescend
  rw [hdescend] at hpages
  have hpath : reach (link virt m₁.tables) space.rootPaddr v.path = some g := hg
  rw [pages, ← hpages v, translate, hpath, Option.bind_some, leafOf, if_pos habsent]

theorem RightsKnown.request_new (laws : RecordLaws space virt handed) {s : RightsState V γ}
    (h : RightsKnown space virt handed s) {v : Page} {paddr flags : UInt64}
    (hok : (rightsStep space s (.map v.1 paddr flags)).2.code = vmmMapOk) :
    s.requests v = none := by
  obtain ⟨⟨start, howned⟩, hgranted⟩ := h
  have hnone := howned.unmapped_of_map_ok laws hok
  have hv := hgranted v
  rw [show pages space virt s.machine v = none from hnone, Option.map_none] at hv
  exact Option.map_eq_none_iff.mp hv.symm

theorem RightsKnown.step_effective (laws : RecordLaws space virt handed)
    {s : RightsState V γ} (h : RightsKnown space virt handed s)
    (heffective : RightsEffective space.rootPaddr virt s) {c : VmmCall} (hc : NoUserRequest s c) :
    RightsEffective space.rootPaddr virt (rightsStep space s c).1 := by
  rw [h.effective_iff] at heffective
  rw [(h.step laws c).effective_iff]
  intro v flags' hv
  cases c with
  | map vaddr paddr flags =>
    simp only [rightsStep, Requests.after] at hv
    split_ifs at hv with hnew
    · cases hv
      obtain ⟨hok, rfl⟩ := hnew
      apply hc.resolve_right
      intro hmapped
      have hsome := hmapped v rfl
      rw [h.request_new laws hok] at hsome
      exact Bool.false_ne_true hsome
    · exact heffective v flags' hv
  | unmap vaddr =>
    simp only [rightsStep, Requests.after] at hv
    split_ifs at hv
    exact heffective v flags' hv
  | query vaddr out => exact heffective v flags' hv

end Runs

/-- From a zeroed root, the requested rights are effective in every state of a run in which no new
page is asked for with the user bit. -/
theorem rights_effective [DecidableEq V] {space : VmmSpace V γ} {virt : UInt64 → V}
    {handed : γ → Set UInt64} (laws : RecordLaws space virt handed) (m : Machine V γ)
    (hzero : ∀ i, m.tables (virt space.rootPaddr) i = 0) {calls : List VmmCall}
    (hcalls : AlongTotal (rightsStep space) NoUserRequest ⟨m, fun _ => none⟩ calls) :
    Always (rightsStep space) (RightsEffective space.rootPaddr virt) ⟨m, fun _ => none⟩
      calls := by
  obtain ⟨howned, hpages⟩ := owned_of_zeroed_root handed hzero
  have hstart : RightsKnown space virt handed ⟨m, fun _ => none⟩ := by
    use ⟨∅, howned⟩
    intro v
    rw [hpages]
    rfl
  apply Always.of_invariant
    (fun s => RightsKnown space virt handed s ∧ RightsEffective space.rootPaddr virt s)
    NoUserRequest (fun s h => h.2) _ _ hcalls
  · intro s c h hc
    exact ⟨h.1.step laws c, h.1.step_effective laws h.2 hc⟩
  · use hstart
    intro v flags hv
    cases hv

def rightsCalls : List VmmCall :=
  -- The third request is for user mode and is refused: its page is mapped already.
  [.map 0x400000 0x5000 2, .map 0x401000 0x6000 0x8000000000000000, .map 0x400000 0x7000 6,
    .unmap 0x400000, .map 0x400000 0x7000 0]

theorem rights_effective_sample :
    Always (rightsStep sampleSpace) (RightsEffective 0x1000 id) ⟨sampleMachine, fun _ => none⟩
        rightsCalls ∧
      (runTotal (rightsStep sampleSpace) ⟨sampleMachine, fun _ => none⟩ rightsCalls).2.map
        VmmReply.code = [vmmMapOk, vmmMapOk, vmmErrExists, vmmMapOk, vmmMapOk] := by
  have hcalls : AlongTotal (rightsStep sampleSpace) NoUserRequest
      ⟨sampleMachine, fun _ => none⟩ rightsCalls := by
    refine ⟨Or.inl ?_, Or.inl ?_, Or.inr ?_, trivial, Or.inl ?_, trivial⟩
    · decide
    · decide
    · intro v hv
      obtain rfl : v = ⟨0x400000, by decide⟩ := Subtype.ext hv
      decide +kernel
    · decide
  exact ⟨rights_effective sample_record sampleMachine (fun _ => rfl) hcalls, by decide +kernel⟩

def userMapped : RightsState UInt64 ℕ × VmmReply :=
  rightsStep sampleSpace ⟨sampleMachine, fun _ => none⟩ (.map 0x400000 0x5000 6)

theorem userMapped_walk :
    pageWalk 0x1000 id userMapped.1.machine.tables 0x400000 =
      some ⟨[0x2003, 0x3003, 0x4003, 0x5007], 0x5000⟩ := by
  decide +kernel

theorem user_mapping_denied :
    userMapped.2.code = vmmMapOk ∧ ¬ RightsEffective 0x1000 id userMapped.1 := by
  have hrequest : userMapped.1.requests ⟨0x400000, by decide⟩ = some 6 := by decide +kernel
  constructor
  · decide +kernel
  · intro heffective
    obtain ⟨w, hw, hrights⟩ := heffective _ _ hrequest
    rw [userMapped_walk] at hw
    cases hw
    exact absurd hrights (by decide)

end Mcsos.Vmm
