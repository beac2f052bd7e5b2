import Mcsos.VmmActions
import Mcsos.VmmRefinement

/-!
# The page walk of the CPU

The CPU walks four levels of tables, any of which may be shared or contain itself, and stops
early at a huge page. A write to an entry that is not present, or to a frame that no walk
visits, keeps every translation; `vmm_map_page` makes no other writes.
-/

namespace Mcsos.Vmm
open RadixTree StepRun

/-- What a present entry may be: a table, a table or a huge page, or a 4 KiB page. -/
inductive LevelKind
  | table
  | huge (size : UInt64)
  | page

def LevelKind.leafSize (e : UInt64) : LevelKind → Option UInt64
  | .table => none
  | .huge size => if e &&& vmmPteHuge ≠ 0 then some size else none
  | .page => some vmmPageSize

structure Level where
  index : Fin 512
  kind : LevelKind

def levels (vaddr : UInt64) : List Level :=
  [⟨idxPml4 vaddr, .table⟩, ⟨idxPdpt vaddr, .huge 0x40000000⟩, ⟨idxPd vaddr, .huge 0x200000⟩,
    ⟨idxPt vaddr, .page⟩]

structure Walk where
  entries : List UInt64
  paddr : UInt64
  deriving DecidableEq, Repr

variable {V γ : Type}

def walkLink (virt : UInt64 → V) (tables : Tables V) (p : UInt64) (i : Fin 512) :
    Option UInt64 :=
  if tables (virt p) i &&& vmmPtePresent = 0 ∨ tables (virt p) i &&& vmmPteHuge ≠ 0 then none
  else some (tables (virt p) i &&& vmmPteAddrMask)

def walkLevels (virt : UInt64 → V) (tables : Tables V) (vaddr : UInt64) :
    List Level → UInt64 → Option Walk
  | [], _ => none
  | l :: ls, p =>
      let e := tables (virt p) l.index
      if e &&& vmmPtePresent = 0 then none
      else
        match l.kind.leafSize e with
        | some size =>
            some ⟨[e], (e &&& vmmPteAddrMask &&& ~~~(size - 1)) ||| (vaddr &&& (size - 1))⟩
        | none =>
            (walkLink virt tables p l.index).bind (fun q =>
              (walkLevels virt tables vaddr ls q).map (fun w => ⟨e :: w.entries, w.paddr⟩))

def pageWalk (root : UInt64) (virt : UInt64 → V) (tables : Tables V) (vaddr : UInt64) :
    Option Walk :=
  if vmmIsCanonical vaddr = false then none
  else walkLevels virt tables vaddr (levels vaddr) root

def Visited (root : UInt64) (virt : UInt64 → V) (tables : Tables V) (p : UInt64) : Prop :=
  ∃ ρ : List (Fin 512), ρ.length ≤ 3 ∧ reach (walkLink virt tables) root ρ = some p

def Kept (root : UInt64) (virt : UInt64 → V) (tables tables' : Tables V) : Prop :=
  ∀ p i, Visited root virt tables p → tables (virt p) i &&& vmmPtePresent ≠ 0 →
    tables' (virt p) i = tables (virt p) i

def Agree (root : UInt64) (virt : UInt64 → V) (tables tables' : Tables V) : Prop :=
  ∀ p, Visited root virt tables p → tables' (virt p) = tables (virt p)

section Kept

variable {root p q : UInt64} {virt : UInt64 → V} {tables tables' tables'' : Tables V}

theorem walkLink_eq_some {i : Fin 512} (h : walkLink virt tables p i = some q) :
    tables (virt p) i &&& vmmPtePresent ≠ 0 ∧ tables (virt p) i &&& vmmPteHuge = 0 ∧
      tables (virt p) i &&& vmmPteAddrMask = q := by
  rw [walkLink] at h
  split_ifs at h with hentry
  rw [not_or, not_not] at hentry
  exact ⟨hentry.1, hentry.2, Option.some.inj h⟩

theorem walkLink_congr (h : tables' (virt p) = tables (virt p)) :
    walkLink virt tables' p = walkLink virt tables p := by
  funext i
  rw [walkLink, walkLink, h]

theorem frame_and_addrMask (e : UInt64) : Frame (e &&& vmmPteAddrMask) := by
  have hmask : vmmPteAddrMask = ~~~(vmmPageSize - 1) &&& (0x10000000000000 - 1) := by decide
  have hround := WordArithmetic.toNat_and_not_low e vmmPageSize 12 rfl
  have hlow := WordArithmetic.toNat_and_low (e &&& ~~~(vmmPageSize - 1)) 0x10000000000000 52 rfl
  rw [hmask, ← UInt64.and_assoc]
  constructor
  · rw [hlow, hround]
    omega
  · rw [hlow]
    exact Nat.mod_lt _ (by decide)

theorem visited_isFrame (h : Visited root virt tables p) : p = root ∨ Frame p := by
  obtain ⟨ρ, -, hp⟩ := h
  induction ρ using List.reverseRecOn with
  | nil => exact Or.inl (Option.some.inj hp).symm
  | append_singleton ρ i _ =>
    rw [reach_concat] at hp
    obtain ⟨k, -, hlink⟩ := Option.bind_eq_some_iff.mp hp
    obtain ⟨-, -, haddr⟩ := walkLink_eq_some hlink
    rw [← haddr]
    exact Or.inr (frame_and_addrMask _)

theorem visited_subset {S : Set UInt64} (hroot : root ∈ S)
    (hclosed : ∀ p ∈ S, ∀ i q, walkLink virt tables p i = some q → q ∈ S)
    (h : Visited root virt tables p) : p ∈ S := by
  obtain ⟨ρ, -, hp⟩ := h
  induction ρ using List.reverseRecOn generalizing p with
  | nil =>
    cases hp
    exact hroot
  | append_singleton ρ i ih =>
    rw [reach_concat] at hp
    obtain ⟨k, hk, hlink⟩ := Option.bind_eq_some_iff.mp hp
    exact hclosed k (ih hk) i p hlink

theorem Kept.refl : Kept root virt tables tables := fun _ _ _ _ => rfl

theorem Kept.walkLink_eq_some (h : Kept root virt tables tables')
    (hp : Visited root virt tables p) {i : Fin 512} (hq : walkLink virt tables p i = some q) :
    walkLink virt tables' p i = some q := by
  obtain ⟨hpresent, -, -⟩ := Vmm.walkLink_eq_some hq
  rw [walkLink, h p i hp hpresent, ← walkLink]
  exact hq

theorem Kept.reach_eq_some (h : Kept root virt tables tables') {ρ : List (Fin 512)}
    (hρ : ρ.length ≤ 3) (hp : reach (walkLink virt tables) root ρ = some p) :
    reach (walkLink virt tables') root ρ = some p := by
  apply reach_mono (d := 3) _ hρ hp
  intro σ k i c hσ hk hlink
  exact h.walkLink_eq_some ⟨σ, by omega, hk⟩ hlink

theorem Kept.visited (h : Kept root virt tables tables') (hp : Visited root virt tables p) :
    Visited root virt tables' p := by
  obtain ⟨ρ, hρ, hreach⟩ := hp
  exact ⟨ρ, hρ, h.reach_eq_some hρ hreach⟩

theorem Kept.trans (h : Kept root virt tables tables') (h' : Kept root virt tables' tables'') :
    Kept root virt tables tables'' := by
  intro p i hp hpresent
  have heq := h p i hp hpresent
  rw [← heq] at hpresent
  rw [h' p i (h.visited hp) hpresent, heq]

theorem Agree.reach_eq (h : Agree root virt tables tables') {ρ : List (Fin 512)}
    (hρ : ρ.length ≤ 3) :
    reach (walkLink virt tables') root ρ = reach (walkLink virt tables) root ρ := by
  apply reach_congr (d := 3) _ hρ
  intro σ k hσ hk
  exact walkLink_congr (h k ⟨σ, by omega, hk⟩)

theorem Agree.kept (h : Agree root virt tables tables') : Kept root virt tables tables' :=
  fun p i hp _ => congrFun (h p hp) i

theorem Agree.visited_iff (h : Agree root virt tables tables') :
    Visited root virt tables' p ↔ Visited root virt tables p := by
  constructor
  · intro hp
    obtain ⟨ρ, hρ, hreach⟩ := hp
    exact ⟨ρ, hρ, (h.reach_eq hρ).symm.trans hreach⟩
  · exact h.kept.visited

theorem Agree.trans (h : Agree root virt tables tables')
    (h' : Agree root virt tables' tables'') : Agree root virt tables tables'' :=
  fun p hp => (h' p (h.visited_iff.mpr hp)).trans (h p hp)

theorem Kept.walkLevels (h : Kept root virt tables tables') {vaddr : UInt64} {ls : List Level}
    {ρ : List (Fin 512)} {w : Walk} (hρ : ρ.length + ls.length ≤ 4)
    (hp : reach (walkLink virt tables) root ρ = some p)
    (hw : walkLevels virt tables vaddr ls p = some w) :
    Vmm.walkLevels virt tables' vaddr ls p = some w := by
  induction ls generalizing ρ p w with
  | nil => exact hw
  | cons l ls ih =>
    rw [List.length_cons] at hρ
    simp only [Vmm.walkLevels] at hw ⊢
    split_ifs at hw with hpresent
    have hentry := h p l.index ⟨ρ, by omega, hp⟩ hpresent
    rw [walkLink, hentry, ← walkLink, if_neg hpresent]
    cases hleaf : l.kind.leafSize (tables (virt p) l.index) with
    | some size =>
      rw [hleaf] at hw
      exact hw
    | none =>
      rw [hleaf] at hw
      obtain ⟨q, hq, hrest⟩ := Option.bind_eq_some_iff.mp hw
      obtain ⟨w', hw', hcons⟩ := Option.map_eq_some_iff.mp hrest
      have hstep : reach (walkLink virt tables) root (ρ ++ [l.index]) = some q := by
        rw [reach_concat_of_some hp, hq]
      have hrest' := ih (length_concat_le hρ l.index) hstep hw'
      simp only [hq, Option.bind_some, hrest', Option.map_some, hcons]

theorem Kept.pageWalk_eq_some (h : Kept root virt tables tables') {vaddr : UInt64} {w : Walk}
    (hw : pageWalk root virt tables vaddr = some w) :
    pageWalk root virt tables' vaddr = some w := by
  rw [pageWalk] at hw ⊢
  split_ifs at hw ⊢ with hcanonical
  exact h.walkLevels (ρ := []) (le_refl 4) rfl hw

end Kept

section Actions

variable [DecidableEq V] {space : VmmSpace V γ} {virt : UInt64 → V} {m : Machine V γ}

/-- What is assumed of the callbacks when they are called: `alloc_frame` fails, or returns a
frame that no walk visits, and neither it nor `free_frame` changes a visited table. -/
def ActionSound (space : VmmSpace V γ) (virt : UInt64 → V) (m : Machine V γ)
    (a : Action V) : Prop :=
  match a with
  | .callAlloc =>
      Agree space.rootPaddr virt m.tables (a.apply space m).tables ∧
      ∀ alloc, space.allocFrame = some alloc → (m.callAlloc alloc).1 = vmmInvalidPhys ∨
        Frame (m.callAlloc alloc).1 ∧
          ¬ Visited space.rootPaddr virt m.tables (m.callAlloc alloc).1
  | .callFree _ => Agree space.rootPaddr virt m.tables (a.apply space m).tables
  | _ => True

theorem ActionSound.answer (h : ActionSound space virt m .callAlloc) {m₁ : Machine V γ}
    {c : UInt64} {alloc : Tables V → γ → UInt64 × Tables V × γ}
    (halloc : space.allocFrame = some alloc) (hcall : m.callAlloc alloc = (c, m₁)) :
    Agree space.rootPaddr virt m.tables m₁.tables ∧
      (c = vmmInvalidPhys ∨ Frame c ∧ ¬ Visited space.rootPaddr virt m.tables c) := by
  obtain ⟨hagree, hanswer⟩ := h
  replace hanswer := hanswer alloc halloc
  rw [apply_callAlloc halloc hcall] at hagree
  rw [hcall] at hanswer
  exact ⟨hagree, hanswer⟩

def ActionKept (space : VmmSpace V γ) (virt : UInt64 → V) (m : Machine V γ)
    (a : Action V) : Prop :=
  Kept space.rootPaddr virt m.tables (a.apply space m).tables

theorem kept_perform {as : List (Action V)}
    (h : AlongTotal (actionStep space) (ActionKept space virt) m as) :
    Kept space.rootPaddr virt m.tables (perform space m as).tables := by
  apply runTotal_invariant (fun m' => Kept space.rootPaddr virt m.tables m'.tables)
    (ActionKept space virt) _ Kept.refl h
  exact fun m' a hm' ha => hm'.trans ha

theorem AddressLaws.kept_store_absent (laws : AddressLaws space virt) {p : UInt64}
    (hp : space.IsFrame p) {i : Fin 512} (e : UInt64)
    (habsent : m.tables (virt p) i &&& vmmPtePresent = 0) :
    Kept space.rootPaddr virt m.tables (m.store (virt p) i e).tables := by
  intro q j hq hpresent
  by_cases hqp : q = p
  · subst hqp
    have hji : j ≠ i := fun heq => hpresent (heq ▸ habsent)
    rw [Machine.tables_store, Function.update_self, Function.update_of_ne hji]
  · rw [laws.store_tables m hp i e (visited_isFrame hq), if_neg hqp]

theorem AddressLaws.agree_store_unvisited (laws : AddressLaws space virt) {c : UInt64}
    (hc : Frame c) (hfresh : ¬ Visited space.rootPaddr virt m.tables c) (i : Fin 512)
    (e : UInt64) :
    Agree space.rootPaddr virt m.tables (m.store (virt c) i e).tables := by
  intro q hq
  rw [laws.store_tables m (Or.inr hc) i e (visited_isFrame hq), if_neg]
  exact fun heq => hfresh (heq ▸ hq)

theorem AddressLaws.zeroing (laws : AddressLaws space virt) {c : UInt64} (hc : Frame c)
    (hfresh : ¬ Visited space.rootPaddr virt m.tables c) :
    AlongTotal (actionStep space) (ActionKept space virt) m (zeroActions (virt c)) ∧
      Agree space.rootPaddr virt m.tables (vmmZeroPage m (virt c)).tables := by
  rw [← (records_zeroPage space m _).perform]
  unfold zeroActions
  generalize List.finRange 512 = l
  induction l generalizing m with
  | nil => exact ⟨True.intro, fun _ _ => rfl⟩
  | cons i l ih =>
    have hstore := laws.agree_store_unvisited hc hfresh i 0
    obtain ⟨hkept, hagree⟩ := ih (fun hv => hfresh (hstore.visited_iff.mp hv))
    exact ⟨⟨hstore.kept, hkept⟩, hstore.trans hagree⟩

theorem AddressLaws.storing_link (laws : AddressLaws space virt) {π : List (Fin 512)}
    {p c : UInt64} {i : Fin 512} (hπ : π.length < 3)
    (hp : reach (walkLink virt m.tables) space.rootPaddr π = some p)
    (habsent : m.tables (virt p) i &&& vmmPtePresent = 0) (hc : Frame c) :
    AlongTotal (actionStep space) (ActionKept space virt) m
        [.store (virt p) i (tableEntry c)] ∧
      reach (walkLink virt (m.store (virt p) i (tableEntry c)).tables) space.rootPaddr
        (π ++ [i]) = some c := by
  have hframe := visited_isFrame ⟨π, by omega, hp⟩
  have hstore := laws.kept_store_absent hframe (tableEntry c) habsent
  obtain ⟨hpresent, hhuge, haddr⟩ := hc.tableEntry_bits
  constructor
  · exact ⟨hstore, True.intro⟩
  · rw [reach_concat_of_some (hstore.reach_eq_some (by omega) hp), walkLink,
      Machine.tables_store, Function.update_self, Function.update_self, haddr, if_neg]
    exact fun hor => hor.elim hpresent (fun hne => hne hhuge)

theorem AddressLaws.linking (laws : AddressLaws space virt) {π : List (Fin 512)}
    {p c : UInt64} {i : Fin 512} (hπ : π.length < 3)
    (hp : reach (walkLink virt m.tables) space.rootPaddr π = some p)
    (habsent : m.tables (virt p) i &&& vmmPtePresent = 0) (hc : Frame c)
    (hfresh : ¬ Visited space.rootPaddr virt m.tables c) :
    AlongTotal (actionStep space) (ActionKept space virt) m
        (zeroActions (virt c) ++ [.store (virt p) i (tableEntry c)]) ∧
      reach (walkLink virt ((vmmZeroPage m (virt c)).store (virt p) i (tableEntry c)).tables)
        space.rootPaddr (π ++ [i]) = some c := by
  obtain ⟨hzeroing, hagree⟩ := laws.zeroing hc hfresh
  rw [← hagree p ⟨π, by omega, hp⟩] at habsent
  rw [← hagree.reach_eq (by omega)] at hp
  obtain ⟨hlink, hreach⟩ := laws.storing_link hπ hp habsent hc
  rw [← (records_zeroPage space m _).perform] at hlink
  exact ⟨along_append.mpr ⟨hzeroing, hlink⟩, hreach⟩

theorem AddressLaws.nextTable_kept (laws : AddressLaws space virt) {π : List (Fin 512)}
    {p : UInt64} {i : Fin 512} (hπ : π.length < 3)
    (hp : reach (walkLink virt m.tables) space.rootPaddr π = some p)
    (hsound : AlongTotal (actionStep space) (ActionSound space virt) m
      (nextTableActions space m (virt p) i)) :
    AlongTotal (actionStep space) (ActionKept space virt) m
        (nextTableActions space m (virt p) i) ∧
      ∀ t m', getOrAllocNextTable space m (virt p) i = (.ok t, m') →
        ∃ g, t = virt g ∧
          reach (walkLink virt m'.tables) space.rootPaddr (π ++ [i]) = some g := by
  have hstep := nextStep space m (virt p) i
  generalize nextTableActions space m (virt p) i = as at *
  generalize getOrAllocNextTable space m (virt p) i = r at *
  cases hstep with
  | stay hrc => exact ⟨True.intro, fun t m' hok => by cases hok⟩
  | found hpresent hhuge htable =>
    use True.intro
    intro t m' hok
    cases hok
    have hframe : space.IsFrame (m.tables (virt p) i &&& vmmPteAddrMask) :=
      Or.inr (frame_and_addrMask _)
    use m.tables (virt p) i &&& vmmPteAddrMask, laws.tableFromPhys_eq_some hframe htable
    rw [reach_concat_of_some hp, walkLink, if_neg]
    exact fun hor => hor.elim hpresent (fun hne => hne hhuge)
  | refused halloc hcall hbad =>
    exact ⟨⟨hsound.1.1.kept, True.intro⟩, fun t m' hok => by cases hok⟩
  | leaked halloc hcall hfree =>
    exact ⟨⟨hsound.1.1.kept, True.intro⟩, fun t m' hok => by cases hok⟩
  | returned halloc hcall hgood hfree =>
    have hreturn := hsound.2.1
    exact ⟨⟨hsound.1.1.kept, Agree.kept hreturn, True.intro⟩, fun t m' hok => by cases hok⟩
  | @linked c m₁ newTable alloc habsent halloc hcall hgood htable =>
    have hfirst := apply_callAlloc halloc hcall
    obtain ⟨hagree, hanswer⟩ := hsound.1.answer halloc hcall
    obtain ⟨hc, hfresh⟩ := hanswer.resolve_left hgood
    have hplace := laws.tableFromPhys_eq_some (Or.inr hc) htable
    subst hplace
    have hvisited : Visited space.rootPaddr virt m.tables p := ⟨π, by omega, hp⟩
    rw [← hagree p hvisited] at habsent
    rw [← hagree.reach_eq (by omega)] at hp
    rw [← hagree.visited_iff] at hfresh
    obtain ⟨hkept, hreach⟩ := laws.linking hπ hp habsent hc hfresh
    rw [hc.linkEntry_eq]
    constructor
    · exact along_cons hfirst hsound.1.1.kept hkept
    · intro t m' hok
      cases hok
      exact ⟨c, rfl, hreach⟩

theorem AddressLaws.descend_kept (laws : AddressLaws space virt) {π path : List (Fin 512)}
    {p : UInt64} (hπ : π.length + path.length ≤ 3)
    (hp : reach (walkLink virt m.tables) space.rootPaddr π = some p)
    (hsound : AlongTotal (actionStep space) (ActionSound space virt) m
      (descendActions space path m (virt p))) :
    AlongTotal (actionStep space) (ActionKept space virt) m
        (descendActions space path m (virt p)) ∧
      ∀ t m', descend space path m (virt p) = (.ok t, m') →
        ∃ g, t = virt g ∧
          reach (walkLink virt m'.tables) space.rootPaddr (π ++ path) = some g := by
  induction path generalizing m π p with
  | nil =>
    use True.intro
    intro t m' hok
    cases hok
    exact ⟨p, rfl, by rw [List.append_nil]; exact hp⟩
  | cons i path ih =>
    rw [List.length_cons] at hπ
    rw [descendActions, along_append] at hsound ⊢
    rw [descend, List.append_cons]
    obtain ⟨hkept, hnext⟩ := laws.nextTable_kept (by omega) hp hsound.1
    replace hsound := hsound.2
    rw [(records_nextTable _ _ _ _).perform] at hsound ⊢
    rcases hstep : getOrAllocNextTable space m (virt p) i with ⟨rc | next, m₁⟩
    · exact ⟨⟨hkept, True.intro⟩, fun t m' hok => by cases hok⟩
    obtain ⟨g, rfl, hg⟩ := hnext next m₁ hstep
    simp only [hstep] at hsound ⊢
    obtain ⟨hrest, hlast⟩ := ih (length_concat_le hπ i) hg hsound
    exact ⟨⟨hkept, hrest⟩, hlast⟩

theorem AddressLaws.mapActions_kept (laws : AddressLaws space virt) {vaddr paddr flags : UInt64}
    (hsound : AlongTotal (actionStep space) (ActionSound space virt) m
      (mapActions space m vaddr paddr flags)) :
    AlongTotal (actionStep space) (ActionKept space virt) m
      (mapActions space m vaddr paddr flags) := by
  rw [mapActions_eq] at hsound ⊢
  split_ifs at hsound ⊢ with hbad
  · trivial
  cases htable : tableFromPhys space m space.rootPaddr with
  | none => trivial
  | some pml4 =>
    have hplace := laws.tableFromPhys_eq_some (Or.inl rfl) htable
    subst hplace
    simp only [htable] at hsound ⊢
    rw [along_append] at hsound ⊢
    obtain ⟨hkept, hnext⟩ := laws.descend_kept (π := []) (by simp [tablePath]) rfl hsound.1
    use hkept
    rw [(records_descend _ _ _ _).perform]
    rcases hstep : descend space (tablePath vaddr) m (virt space.rootPaddr) with ⟨rc | pt, m₁⟩
    · trivial
    obtain ⟨g, rfl, hg⟩ := hnext pt m₁ hstep
    have hvisited : Visited space.rootPaddr virt m₁.tables g := ⟨_, by simp [tablePath], hg⟩
    dsimp only
    rw [leafActions]
    split_ifs with hpresent
    · trivial
    · rw [not_not] at hpresent
      exact ⟨laws.kept_store_absent (visited_isFrame hvisited) _ hpresent, True.intro⟩

end Actions

structure MapRequest where
  vaddr : UInt64
  paddr : UInt64
  flags : UInt64

def mapStep [DecidableEq V] (space : VmmSpace V γ) (m : Machine V γ) (c : MapRequest) :
    Machine V γ × Int32 :=
  let r := vmmMapPage space m c.vaddr c.paddr c.flags
  (r.2, r.1)

def MapSound [DecidableEq V] (space : VmmSpace V γ) (virt : UInt64 → V) (m : Machine V γ)
    (c : MapRequest) : Prop :=
  AlongTotal (actionStep space) (ActionSound space virt) m
    (mapActions space m c.vaddr c.paddr c.flags)

/-- One call of `free_frame`: the frame is no longer handed out, and the tables that are in
use are left alone. -/
def FreeLaw (space : VmmSpace V γ) (virt : UInt64 → V) (handed : γ → Set UInt64)
    (tables : Tables V) (ctx : γ) (p : UInt64) (r : Tables V × γ) : Prop :=
  handed ctx \ {p} ⊆ handed r.2 ∧
    ∀ q, q = space.rootPaddr ∨ q ∈ handed ctx \ {p} → r.1 (virt q) = tables (virt q)

/-- The allocator keeps a record `handed` of the frames in use. -/
structure RecordLaws (space : VmmSpace V γ) (virt : UInt64 → V) (handed : γ → Set UInt64) :
    Prop extends AddressLaws space virt where
  alloc : ∀ f, space.allocFrame = some f →
    ∀ tables ctx, AllocLaw space virt handed tables ctx (f tables ctx)
  free : ∀ f, space.freeFrame = some f →
    ∀ tables ctx p, FreeLaw space virt handed tables ctx p (f tables ctx p)

def Recorded (space : VmmSpace V γ) (virt : UInt64 → V) (handed : γ → Set UInt64)
    (m : Machine V γ) : Prop :=
  ∀ p, Visited space.rootPaddr virt m.tables p → p = space.rootPaddr ∨ p ∈ handed m.ctx

section Recorded

variable {space : VmmSpace V γ} {virt : UInt64 → V} {handed : γ → Set UInt64}
  {m m₁ : Machine V γ} {c : UInt64} {alloc : Tables V → γ → UInt64 × Tables V × γ}

theorem RecordLaws.answer (laws : RecordLaws space virt handed)
    (halloc : space.allocFrame = some alloc) (hcall : m.callAlloc alloc = (c, m₁)) :
    (c = vmmInvalidPhys ∧ handed m.ctx ⊆ handed m₁.ctx ∨
      Frame c ∧ c ≠ space.rootPaddr ∧ c ∉ handed m.ctx ∧
        insert c (handed m.ctx) ⊆ handed m₁.ctx) ∧
    ∀ q, q = space.rootPaddr ∨ q ∈ handed m.ctx → m₁.tables (virt q) = m.tables (virt q) := by
  obtain ⟨rfl, rfl⟩ := Prod.mk.inj hcall
  exact laws.alloc alloc halloc m.tables m.ctx

theorem RecordLaws.fresh_frame (laws : RecordLaws space virt handed)
    (halloc : space.allocFrame = some alloc) (hcall : m.callAlloc alloc = (c, m₁))
    (hgood : c ≠ vmmInvalidPhys) :
    Frame c ∧ c ≠ space.rootPaddr ∧ c ∉ handed m.ctx ∧
      insert c (handed m.ctx) ⊆ handed m₁.ctx :=
  (laws.answer halloc hcall).1.resolve_left (fun hand => hgood hand.1)

theorem RecordLaws.handed_subset (laws : RecordLaws space virt handed)
    (halloc : space.allocFrame = some alloc) (hcall : m.callAlloc alloc = (c, m₁)) :
    handed m.ctx ⊆ handed m₁.ctx := by
  rcases (laws.answer halloc hcall).1 with ⟨-, hsub⟩ | ⟨-, -, -, hsub⟩
  · exact hsub
  · exact (Set.subset_insert c _).trans hsub

theorem RecordLaws.allocation_agree (laws : RecordLaws space virt handed)
    (h : Recorded space virt handed m) (halloc : space.allocFrame = some alloc)
    (hcall : m.callAlloc alloc = (c, m₁)) :
    Agree space.rootPaddr virt m.tables m₁.tables :=
  fun q hq => (laws.answer halloc hcall).2 q (h q hq)

theorem RecordLaws.fresh_unvisited (laws : RecordLaws space virt handed)
    (h : Recorded space virt handed m) (halloc : space.allocFrame = some alloc)
    (hcall : m.callAlloc alloc = (c, m₁)) (hgood : c ≠ vmmInvalidPhys) :
    ¬ Visited space.rootPaddr virt m₁.tables c := by
  obtain ⟨-, hroot, hfresh, -⟩ := laws.fresh_frame halloc hcall hgood
  rw [(laws.allocation_agree h halloc hcall).visited_iff]
  exact fun hv => (h c hv).elim hroot hfresh

theorem RecordLaws.allocation_recorded (laws : RecordLaws space virt handed)
    (h : Recorded space virt handed m) (halloc : space.allocFrame = some alloc)
    (hcall : m.callAlloc alloc = (c, m₁)) : Recorded space virt handed m₁ := by
  intro q hq
  rw [(laws.allocation_agree h halloc hcall).visited_iff] at hq
  exact (h q hq).imp_right (fun hin => laws.handed_subset halloc hcall hin)

theorem RecordLaws.free_agree (laws : RecordLaws space virt handed)
    {free : Tables V → γ → UInt64 → Tables V × γ} (hfree : space.freeFrame = some free)
    (h : Recorded space virt handed m) (hc : ¬ Visited space.rootPaddr virt m.tables c) :
    Agree space.rootPaddr virt m.tables (m.callFree free c).tables := by
  intro q hq
  have hqc : q ≠ c := fun heq => hc (heq ▸ hq)
  exact (laws.free free hfree m.tables m.ctx c).2 q ((h q hq).imp_right (fun hin => ⟨hin, hqc⟩))

theorem RecordLaws.free_recorded (laws : RecordLaws space virt handed)
    {free : Tables V → γ → UInt64 → Tables V × γ} (hfree : space.freeFrame = some free)
    (h : Recorded space virt handed m) (hc : ¬ Visited space.rootPaddr virt m.tables c) :
    Recorded space virt handed (m.callFree free c) := by
  intro q hq
  rw [(laws.free_agree hfree h hc).visited_iff] at hq
  have hqc : q ≠ c := fun heq => hc (heq ▸ hq)
  exact (h q hq).imp_right
    (fun hin => (laws.free free hfree m.tables m.ctx c).1 ⟨hin, hqc⟩)

variable [DecidableEq V]

theorem RecordLaws.allocation_sound (laws : RecordLaws space virt handed)
    (h : Recorded space virt handed m) (halloc : space.allocFrame = some alloc)
    (hcall : m.callAlloc alloc = (c, m₁)) : ActionSound space virt m .callAlloc := by
  constructor
  · rw [apply_callAlloc halloc hcall]
    exact laws.allocation_agree h halloc hcall
  · intro alloc' halloc'
    rw [halloc] at halloc'
    cases halloc'
    rw [hcall]
    rcases (laws.answer halloc hcall).1 with ⟨hinvalid, -⟩ | ⟨hc, hroot, hfresh, -⟩
    · exact Or.inl hinvalid
    · exact Or.inr ⟨hc, fun hv => (h c hv).elim hroot hfresh⟩

theorem AddressLaws.visited_attached (laws : AddressLaws space virt) {p : UInt64}
    {i : Fin 512} (hp : space.IsFrame p) (hc : Frame c) (hpc : p ≠ c) {q : UInt64}
    (hq : Visited space.rootPaddr virt
      ((vmmZeroPage m (virt c)).store (virt p) i (tableEntry c)).tables q) :
    q = c ∨ Visited space.rootPaddr virt m.tables q := by
  obtain ⟨ρ, hρ, hreach⟩ := hq
  have hpath : q = c ∨ reach (walkLink virt m.tables) space.rootPaddr ρ = some q := by
    induction ρ using List.reverseRecOn generalizing q with
    | nil => exact Or.inr hreach
    | append_singleton ρ j ih =>
      rw [List.length_append, List.length_singleton] at hρ
      rw [reach_concat] at hreach
      obtain ⟨k, hk, hlink⟩ := Option.bind_eq_some_iff.mp hreach
      have hframe := visited_isFrame ⟨ρ, by omega, hk⟩
      have htable := laws.attached_tables m hp hc hpc i hframe
      obtain ⟨hpresent, hhuge, haddr⟩ := walkLink_eq_some hlink
      rw [htable] at hpresent hhuge haddr
      by_cases hkc : k = c
      · rw [if_pos hkc] at hpresent
        exact absurd UInt64.zero_and hpresent
      rw [if_neg hkc] at hpresent hhuge haddr
      have hold := (ih (by omega) hk).resolve_left hkc
      by_cases hedge : k = p ∧ j = i
      · obtain ⟨rfl, rfl⟩ := hedge
        rw [if_pos rfl, Function.update_self, hc.tableEntry_bits.2.2] at haddr
        exact Or.inl haddr.symm
      · have hsame : (if k = p then Function.update (m.tables (virt p)) i (tableEntry c)
            else m.tables (virt k)) j = m.tables (virt k) j := by
          by_cases hkp : k = p
          · subst hkp
            rw [if_pos rfl, Function.update_of_ne (fun hji => hedge ⟨rfl, hji⟩)]
          · rw [if_neg hkp]
        rw [hsame] at hpresent hhuge haddr
        rw [reach_concat_of_some hold, walkLink, if_neg, haddr]
        · exact Or.inr rfl
        · exact fun hor => hor.elim hpresent (fun hne => hne hhuge)
  exact hpath.imp_right (fun h => ⟨ρ, hρ, h⟩)

theorem along_sound_zeroActions (page : V) :
    AlongTotal (actionStep space) (ActionSound space virt) m (zeroActions page) := by
  unfold zeroActions
  generalize List.finRange 512 = l
  induction l generalizing m with
  | nil => exact True.intro
  | cons i l ih => exact ⟨True.intro, ih⟩

theorem RecordLaws.nextTable_recorded (laws : RecordLaws space virt handed)
    (h : Recorded space virt handed m) {p : UInt64} (i : Fin 512)
    (hp : Visited space.rootPaddr virt m.tables p) :
    AlongTotal (actionStep space) (ActionSound space virt) m
        (nextTableActions space m (virt p) i) ∧
      Recorded space virt handed (getOrAllocNextTable space m (virt p) i).2 := by
  have hstep := nextStep space m (virt p) i
  generalize nextTableActions space m (virt p) i = as at *
  generalize getOrAllocNextTable space m (virt p) i = r at *
  cases hstep with
  | stay hrc => exact ⟨True.intro, h⟩
  | found hpresent hhuge htable => exact ⟨True.intro, h⟩
  | refused halloc hcall hbad =>
    exact ⟨⟨laws.allocation_sound h halloc hcall, True.intro⟩,
      laws.allocation_recorded h halloc hcall⟩
  | leaked halloc hcall hfree =>
    exact ⟨⟨laws.allocation_sound h halloc hcall, True.intro⟩,
      laws.allocation_recorded h halloc hcall⟩
  | @returned c m₁ alloc free halloc hcall hgood hfree =>
    have hrecorded := laws.allocation_recorded h halloc hcall
    have hunvisited := laws.fresh_unvisited h halloc hcall hgood
    constructor
    · apply along_cons (apply_callAlloc halloc hcall) (laws.allocation_sound h halloc hcall)
      constructor
      · change Agree _ _ _ (Action.apply space m₁ _).tables
        rw [apply_callFree hfree]
        exact laws.free_agree hfree hrecorded hunvisited
      · exact True.intro
    · exact laws.free_recorded hfree hrecorded hunvisited
  | @linked c m₁ newTable alloc habsent halloc hcall hgood htable =>
    have hrecorded := laws.allocation_recorded h halloc hcall
    obtain ⟨hc, hroot, hfresh, hhanded⟩ := laws.fresh_frame halloc hcall hgood
    have hplace := laws.tableFromPhys_eq_some (Or.inr hc) htable
    subst hplace
    constructor
    · apply along_cons (apply_callAlloc halloc hcall) (laws.allocation_sound h halloc hcall)
      rw [along_append]
      exact ⟨along_sound_zeroActions (virt c), True.intro, True.intro⟩
    · have hpc : p ≠ c := fun heq => (h p hp).elim (fun hr => hroot (heq ▸ hr))
        (fun hin => hfresh (heq ▸ hin))
      rw [hc.linkEntry_eq]
      intro q hq
      have hctx : ((vmmZeroPage m₁ (virt c)).store (virt p) i (tableEntry c)).ctx = m₁.ctx :=
        (attached_outside m₁ _ _ _ _).1
      rw [hctx]
      rcases laws.visited_attached (visited_isFrame hp) hc hpc hq with rfl | hv
      · exact Or.inr (hhanded (Set.mem_insert q _))
      · exact hrecorded q hv

theorem RecordLaws.descend_recorded (laws : RecordLaws space virt handed)
    (h : Recorded space virt handed m) {π path : List (Fin 512)} {p : UInt64}
    (hπ : π.length + path.length ≤ 3)
    (hp : reach (walkLink virt m.tables) space.rootPaddr π = some p) :
    AlongTotal (actionStep space) (ActionSound space virt) m
      (descendActions space path m (virt p)) := by
  induction path generalizing m π p with
  | nil => trivial
  | cons i path ih =>
    rw [List.length_cons] at hπ
    obtain ⟨hsound, h₁⟩ := laws.nextTable_recorded h i ⟨π, by omega, hp⟩
    obtain ⟨-, hnext⟩ := laws.nextTable_kept (by omega) hp hsound
    rw [descendActions, along_append, (records_nextTable _ _ _ _).perform]
    use hsound
    rcases hstep : getOrAllocNextTable space m (virt p) i with ⟨rc | next, m₁⟩
    · trivial
    obtain ⟨g, rfl, hg⟩ := hnext next m₁ hstep
    rw [hstep] at h₁
    exact ih h₁ (length_concat_le hπ i) hg

theorem RecordLaws.mapSound (laws : RecordLaws space virt handed)
    (h : Recorded space virt handed m) (c : MapRequest) : MapSound space virt m c := by
  rw [MapSound, mapActions_eq]
  split_ifs with hbad
  · trivial
  cases htable : tableFromPhys space m space.rootPaddr with
  | none => trivial
  | some pml4 =>
    have hplace := laws.tableFromPhys_eq_some (Or.inl rfl) htable
    subst hplace
    dsimp only
    rw [along_append]
    use laws.descend_recorded h (π := []) (by simp [tablePath]) rfl
    rcases descend space (tablePath c.vaddr) m (virt space.rootPaddr) with ⟨rc | pt, m₁⟩
    · trivial
    · dsimp only
      rw [leafActions]
      split_ifs
      · trivial
      · exact ⟨True.intro, True.intro⟩

end Recorded

/-- Whatever the tables are, no sequence of `vmm_map_page` calls changes a translation. -/
theorem map_keeps_translations [DecidableEq V] {space : VmmSpace V γ} {virt : UInt64 → V}
    (laws : AddressLaws space virt) (m : Machine V γ) (calls : List MapRequest)
    (hsound : AlongTotal (mapStep space) (MapSound space virt) m calls) {vaddr : UInt64}
    {w : Walk} (hw : pageWalk space.rootPaddr virt m.tables vaddr = some w) :
    pageWalk space.rootPaddr virt (runTotal (mapStep space) m calls).1.tables vaddr =
      some w := by
  apply Kept.pageWalk_eq_some _ hw
  apply runTotal_invariant (fun m' => Kept space.rootPaddr virt m.tables m'.tables)
    (MapSound space virt) _ Kept.refl hsound
  intro m' c hm' hc
  have hkept := kept_perform (laws.mapActions_kept hc)
  rw [(records_mapPage _ _ _ _ _).perform] at hkept
  exact hm'.trans hkept

theorem sample_record : RecordLaws sampleSpace id sampleHanded where
  toAddressLaws := sample_laws.address
  alloc := by
    intro f hf
    obtain ⟨g, hg, hlaw⟩ := sample_laws.alloc
    rw [hg] at hf
    cases hf
    exact hlaw
  free := by
    intro f hf
    cases hf

def bootTables : Tables UInt64 := fun p i =>
  -- Tables of a boot loader: a huge page of 1 GiB, one of 2 MiB, and a root that is also an
  -- entry of itself.
  if p = 0x1000 then if i.val = 0 then 0x2003 else if i.val = 511 then 0x1003 else 0
  else if p = 0x2000 then if i.val = 0 then 0x40000083 else if i.val = 1 then 0x3003 else 0
  else if p = 0x3000 then if i.val = 0 then 0x200083 else 0
  else 0xA5A5A5A5A5A5A5A5

def bootMachine : Machine UInt64 ℕ := ⟨bootTables, 2, []⟩

theorem bootMachine_recorded : Recorded sampleSpace id sampleHanded bootMachine := by
  have hroot : ∀ i, walkLink id bootTables 0x1000 i ∈ [none, some 0x1000, some 0x2000] := by
    decide +kernel
  have hpdpt : ∀ i, walkLink id bootTables 0x2000 i ∈ [none, some 0x3000] := by
    decide +kernel
  have hpd : ∀ i, walkLink id bootTables 0x3000 i = none := by
    decide +kernel
  intro p hp
  have hmem : p ∈ ({0x1000, 0x2000, 0x3000} : Set UInt64) := by
    apply visited_subset _ _ hp
    · exact Or.inl rfl
    · intro q hq i r hr
      change walkLink id bootTables q i = some r at hr
      rcases hq with rfl | rfl | rfl
      · have hlink := hroot i
        rw [hr, List.mem_cons, List.mem_cons, List.mem_singleton, Option.some_inj,
          Option.some_inj] at hlink
        exact (hlink.resolve_left (Option.some_ne_none r)).imp_right Or.inl
      · have hlink := hpdpt i
        rw [hr, List.mem_cons, List.mem_singleton, Option.some_inj] at hlink
        exact Or.inr (Or.inr (hlink.resolve_left (Option.some_ne_none r)))
      · exact absurd (hr.symm.trans (hpd i)) (Option.some_ne_none r)
  rcases hmem with rfl | rfl | rfl
  · exact Or.inl rfl
  · exact Or.inr ⟨0, by decide, by decide, by decide⟩
  · exact Or.inr ⟨1, by decide, by decide, by decide⟩

def bootCalls : List MapRequest := [⟨0x40200000, 0x5000, 2⟩, ⟨0x1000, 0x6000, 0⟩]

theorem bootCalls_sound :
    AlongTotal (mapStep sampleSpace) (MapSound sampleSpace id) bootMachine bootCalls := by
  have hnothing : mapActions sampleSpace (mapStep sampleSpace bootMachine
      ⟨0x40200000, 0x5000, 2⟩).1 0x1000 0x6000 0 = [] := by decide +kernel
  constructor
  · exact sample_record.mapSound bootMachine_recorded _
  · constructor
    · rw [MapSound, hnothing]
      trivial
    · trivial

theorem map_keeps_translations_sample :
    (runTotal (mapStep sampleSpace) bootMachine bootCalls).2 = [vmmMapOk, vmmErrExists] ∧
    pageWalk 0x1000 id (runTotal (mapStep sampleSpace) bootMachine bootCalls).1.tables
      0x12345678 = some ⟨[0x2003, 0x40000083], 0x52345678⟩ ∧
    pageWalk 0x1000 id (runTotal (mapStep sampleSpace) bootMachine bootCalls).1.tables
      0x40012345 = some ⟨[0x2003, 0x3003, 0x200083], 0x212345⟩ := by
  refine ⟨by decide +kernel, ?_, ?_⟩
  · exact map_keeps_translations sample_record.toAddressLaws bootMachine bootCalls
      bootCalls_sound (by decide +kernel)
  · exact map_keeps_translations sample_record.toAddressLaws bootMachine bootCalls
      bootCalls_sound (by decide +kernel)

end Mcsos.Vmm
