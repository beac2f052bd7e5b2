import Mcsos.RadixTree
import Mcsos.VmmState
import Mcsos.WordArithmetic

/-!
# The page tables as a tree

Frames are the nodes of a tree of depth three below the root table, and a present entry is an
edge. The invariant says that different paths end in different frames, that every frame below
the root was handed out by the allocator, and what the entries of the upper levels look like.
A page is a canonical aligned address; its four indices determine it.
-/

namespace Mcsos.Vmm
open RadixTree WordArithmetic

theorem vmmIsAligned4k_iff (v : UInt64) : vmmIsAligned4k v = true ↔ v.toNat % 4096 = 0 := by
  rw [vmmIsAligned4k, beq_iff_eq, eq_zero_iff, toNat_and_low v vmmPageSize 12 rfl]
  rfl

theorem vmmIsCanonical_iff (v : UInt64) : vmmIsCanonical v = true ↔
    (v.toNat / 2 ^ 47 % 2 = 1 ∧ v.toNat / 2 ^ 48 = 65535) ∨
      (v.toNat / 2 ^ 47 % 2 = 0 ∧ v.toNat / 2 ^ 48 = 0) := by
  have hsign : ((v >>> 47) &&& 1).toNat = v.toNat / 2 ^ 47 % 2 ^ 1 :=
    toNat_shift_and_low v 47 2 1 rfl (by decide)
  have hupper : (v >>> 48).toNat = v.toNat / 2 ^ 48 := by
    rw [UInt64.toNat_shiftRight, Nat.shiftRight_eq_div_pow]
    rfl
  have hmax : (0xFFFF : UInt64).toNat = 65535 := rfl
  have hzero : (0 : UInt64).toNat = 0 := rfl
  simp only [vmmIsCanonical, ne_eq, eq_zero_iff, hsign]
  split_ifs with h
  · rw [beq_iff_eq, ← UInt64.toNat_inj, hupper, hzero]
    omega
  · rw [beq_iff_eq, ← UInt64.toNat_inj, hupper, hmax]
    omega

theorem index_val (v shift : UInt64) (hshift : shift.toNat < 64) :
    (Fin.ofNat 512 ((v >>> shift) &&& 0x1FF).toNat).val =
      v.toNat / 2 ^ shift.toNat % 512 := by
  have h : ((v >>> shift) &&& 0x1FF).toNat = v.toNat / 2 ^ shift.toNat % 2 ^ 9 :=
    toNat_shift_and_low v shift 512 9 rfl hshift
  rw [Fin.val_ofNat, h]
  exact Nat.mod_mod _ _

theorem idxPml4_val (v : UInt64) : (idxPml4 v).val = v.toNat / 2 ^ 39 % 512 :=
  index_val v 39 (by decide)

theorem idxPdpt_val (v : UInt64) : (idxPdpt v).val = v.toNat / 2 ^ 30 % 512 :=
  index_val v 30 (by decide)

theorem idxPd_val (v : UInt64) : (idxPd v).val = v.toNat / 2 ^ 21 % 512 :=
  index_val v 21 (by decide)

theorem idxPt_val (v : UInt64) : (idxPt v).val = v.toNat / 2 ^ 12 % 512 :=
  index_val v 12 (by decide)

abbrev Page := { v : UInt64 // vmmIsCanonical v = true ∧ vmmIsAligned4k v = true }

def Page.path (v : Page) : List (Fin 512) := [idxPml4 v.1, idxPdpt v.1, idxPd v.1]

theorem Page.eq_of_indices {v w : Page} (hpath : v.path = w.path)
    (hpt : idxPt v.1 = idxPt w.1) : v = w := by
  simp only [Page.path, List.cons.injEq, and_true] at hpath
  obtain ⟨hpml4, hpdpt, hpd⟩ := hpath
  have h4 := congrArg Fin.val hpml4
  have h3 := congrArg Fin.val hpdpt
  have h2 := congrArg Fin.val hpd
  have h1 := congrArg Fin.val hpt
  rw [idxPml4_val, idxPml4_val] at h4
  rw [idxPdpt_val, idxPdpt_val] at h3
  rw [idxPd_val, idxPd_val] at h2
  rw [idxPt_val, idxPt_val] at h1
  have hv := (vmmIsCanonical_iff v.1).mp v.2.1
  have hw := (vmmIsCanonical_iff w.1).mp w.2.1
  have hv' := (vmmIsAligned4k_iff v.1).mp v.2.2
  have hw' := (vmmIsAligned4k_iff w.1).mp w.2.2
  exact Subtype.ext (eq_of_toNat_eq (by omega))

section Indices

variable (pml4 pdpt pd pt : Fin 512)

def indexBits : UInt64 :=
  (UInt64.ofNat pml4.val <<< 39) ||| ((UInt64.ofNat pdpt.val <<< 30) |||
    ((UInt64.ofNat pd.val <<< 21) ||| (UInt64.ofNat pt.val <<< 12)))

/-- The page with the given indices: bit 47 of the combined indices is sign-extended. -/
def pageAddress : UInt64 :=
  if (indexBits pml4 pdpt pd pt >>> 47) &&& 1 ≠ 0 then
    ((0xFFFF : UInt64) <<< 48) ||| indexBits pml4 pdpt pd pt
  else indexBits pml4 pdpt pd pt

theorem toNat_indexBits : (indexBits pml4 pdpt pd pt).toNat =
    pml4.val * 2 ^ 39 + (pdpt.val * 2 ^ 30 + (pd.val * 2 ^ 21 + pt.val * 2 ^ 12)) := by
  have hval : ∀ i : Fin 512, (UInt64.ofNat i.val).toNat = i.val :=
    fun i => toNat_ofNat_of_lt (by omega)
  have hpt : (UInt64.ofNat pt.val <<< 12).toNat = pt.val * 2 ^ 12 := by
    rw [UInt64.toNat_shiftLeft, hval, Nat.shiftLeft_eq]
    exact Nat.mod_eq_of_lt (by change pt.val * 2 ^ 12 < 2 ^ 64; omega)
  have hpd := toNat_shift_or (UInt64.ofNat pd.val) 21 (UInt64.ofNat pt.val <<< 12) (by decide)
    (by rw [hval]; change pd.val * 2 ^ 21 < 2 ^ 64; omega)
    (by rw [hpt]; change pt.val * 2 ^ 12 < 2 ^ 21; omega)
  have hpdpt := toNat_shift_or (UInt64.ofNat pdpt.val) 30 _ (by decide)
    (by rw [hval]; change pdpt.val * 2 ^ 30 < 2 ^ 64; omega)
    (by rw [hpd, hval, hpt]; change pd.val * 2 ^ 21 + pt.val * 2 ^ 12 < 2 ^ 30; omega)
  have hpml4 := toNat_shift_or (UInt64.ofNat pml4.val) 39 _ (by decide)
    (by rw [hval]; change pml4.val * 2 ^ 39 < 2 ^ 64; omega)
    (by
      rw [hpdpt, hpd, hval, hval, hpt]
      change pdpt.val * 2 ^ 30 + (pd.val * 2 ^ 21 + pt.val * 2 ^ 12) < 2 ^ 39
      omega)
  rw [indexBits, hpml4, hpdpt, hpd, hval, hval, hval, hpt]
  rfl

theorem toNat_pageAddress : (pageAddress pml4 pdpt pd pt).toNat =
    (if 256 ≤ pml4.val then 65535 * 2 ^ 48 else 0) + (indexBits pml4 pdpt pd pt).toNat := by
  have hlow := toNat_indexBits pml4 pdpt pd pt
  have hsign : ((indexBits pml4 pdpt pd pt >>> 47) &&& 1).toNat =
      (indexBits pml4 pdpt pd pt).toNat / 2 ^ 47 % 2 ^ 1 :=
    toNat_shift_and_low _ 47 2 1 rfl (by decide)
  have hupper := toNat_shift_or 0xFFFF 48 (indexBits pml4 pdpt pd pt) (by decide) (by decide)
    (by change (indexBits pml4 pdpt pd pt).toNat < 2 ^ 48; omega)
  have hhalf : (indexBits pml4 pdpt pd pt >>> 47) &&& 1 ≠ 0 ↔ 256 ≤ pml4.val := by
    rw [ne_eq, eq_zero_iff, hsign]
    omega
  by_cases hsplit : 256 ≤ pml4.val
  · rw [pageAddress, if_pos (hhalf.mpr hsplit), if_pos hsplit]
    exact hupper
  · rw [pageAddress, if_neg (hhalf.not.mpr hsplit), if_neg hsplit, Nat.zero_add]

theorem pageAddress_accepted : vmmIsCanonical (pageAddress pml4 pdpt pd pt) = true ∧
    vmmIsAligned4k (pageAddress pml4 pdpt pd pt) = true := by
  have hvalue := toNat_pageAddress pml4 pdpt pd pt
  have hlow := toNat_indexBits pml4 pdpt pd pt
  rw [vmmIsCanonical_iff, vmmIsAligned4k_iff]
  split_ifs at hvalue with hsplit <;> omega

theorem indices_pageAddress : idxPml4 (pageAddress pml4 pdpt pd pt) = pml4 ∧
    idxPdpt (pageAddress pml4 pdpt pd pt) = pdpt ∧ idxPd (pageAddress pml4 pdpt pd pt) = pd ∧
    idxPt (pageAddress pml4 pdpt pd pt) = pt := by
  have hvalue := toNat_pageAddress pml4 pdpt pd pt
  have hlow := toNat_indexBits pml4 pdpt pd pt
  simp only [Fin.ext_iff, idxPml4_val, idxPdpt_val, idxPd_val, idxPt_val]
  split_ifs at hvalue with hsplit <;> omega

end Indices

theorem pageAddress_indices {v : UInt64} (hcanonical : vmmIsCanonical v = true)
    (haligned : vmmIsAligned4k v = true) :
    pageAddress (idxPml4 v) (idxPdpt v) (idxPd v) (idxPt v) = v := by
  obtain ⟨hpml4, hpdpt, hpd, hpt⟩ := indices_pageAddress (idxPml4 v) (idxPdpt v) (idxPd v) (idxPt v)
  let w : Page := ⟨_, pageAddress_accepted (idxPml4 v) (idxPdpt v) (idxPd v) (idxPt v)⟩
  have heq : w = ⟨v, hcanonical, haligned⟩ := by
    apply Page.eq_of_indices
    · simp only [Page.path, w, hpml4, hpdpt, hpd]
    · exact hpt
  exact congrArg Subtype.val heq

def Frame (p : UInt64) : Prop := p.toNat % 4096 = 0 ∧ p.toNat < 2 ^ 52

theorem Frame.and_mask {p : UInt64} (h : Frame p) : p &&& vmmPteAddrMask = p := by
  have hmask : vmmPteAddrMask = (0x10000000000000 - 1) &&& ~~~(vmmPageSize - 1) := by decide
  have hlow := toNat_and_low p 0x10000000000000 52 rfl
  have hround := toNat_and_not_low (p &&& (0x10000000000000 - 1)) vmmPageSize 12 rfl
  have hmod := h.1
  have hlt := h.2
  apply eq_of_toNat_eq
  rw [hmask, ← UInt64.and_assoc, hround, hlow]
  omega

theorem Frame.accepted {p : UInt64} (h : Frame p) :
    ¬ (p = vmmInvalidPhys ∨ vmmIsAligned4k p = false) := by
  rw [not_or, Bool.not_eq_false, vmmIsAligned4k_iff]
  refine ⟨fun heq => ?_, h.1⟩
  rw [heq] at h
  exact absurd h.1 (by decide)

def tableEntry (g : UInt64) : UInt64 := g ||| vmmPtePresent ||| vmmPteWritable

theorem Frame.tableEntry_bits {g : UInt64} (h : Frame g) :
    tableEntry g &&& vmmPtePresent ≠ 0 ∧ tableEntry g &&& vmmPteHuge = 0 ∧
      tableEntry g &&& vmmPteAddrMask = g := by
  have hP : g &&& vmmPtePresent = 0 := by
    rw [← h.and_mask, UInt64.and_assoc]
    exact UInt64.and_zero
  have hH : g &&& vmmPteHuge = 0 := by
    rw [← h.and_mask, UInt64.and_assoc]
    exact UInt64.and_zero
  simp only [tableEntry, or_and_distrib, hP, hH, h.and_mask]
  refine ⟨by decide, by decide, ?_⟩
  rw [UInt64.or_assoc]
  exact UInt64.or_zero

theorem Frame.linkEntry_eq {g : UInt64} (h : Frame g) :
    (g &&& vmmPteAddrMask) ||| vmmPtePresent ||| vmmPteWritable = tableEntry g := by
  rw [h.and_mask, tableEntry]

def leafEntry (paddr flags : UInt64) : UInt64 :=
  (paddr &&& vmmPteAddrMask) ||| vmmPtePresent ||| (flags &&& allowedFlags)

def leafOf (e : UInt64) : Option (UInt64 × UInt64) :=
  if e &&& vmmPtePresent = 0 then none
  else some (e &&& vmmPteAddrMask, e &&& ~~~vmmPteAddrMask)

theorem leafOf_leafEntry (paddr flags : UInt64) : leafOf (leafEntry paddr flags) =
    some (paddr &&& vmmPteAddrMask, vmmPtePresent ||| (flags &&& allowedFlags)) := by
  have hpresent : leafEntry paddr flags &&& vmmPtePresent = vmmPtePresent := by
    have h₁ : vmmPteAddrMask &&& vmmPtePresent = 0 := by decide
    have h₂ : allowedFlags &&& vmmPtePresent = 0 := by decide
    simp only [leafEntry, or_and_distrib, UInt64.and_assoc, h₁, h₂, UInt64.and_zero,
      UInt64.and_self, UInt64.zero_or, UInt64.or_zero]
  have haddr : leafEntry paddr flags &&& vmmPteAddrMask = paddr &&& vmmPteAddrMask := by
    have h₁ : vmmPtePresent &&& vmmPteAddrMask = 0 := by decide
    have h₂ : allowedFlags &&& vmmPteAddrMask = 0 := by decide
    simp only [leafEntry, or_and_distrib, UInt64.and_assoc, h₁, h₂, UInt64.and_zero,
      UInt64.and_self, UInt64.or_zero]
  have hflags : leafEntry paddr flags &&& ~~~vmmPteAddrMask =
      vmmPtePresent ||| (flags &&& allowedFlags) := by
    have h₀ : vmmPteAddrMask &&& ~~~vmmPteAddrMask = 0 := by decide
    have h₁ : vmmPtePresent &&& ~~~vmmPteAddrMask = vmmPtePresent := by decide
    have h₂ : allowedFlags &&& ~~~vmmPteAddrMask = allowedFlags := by decide
    simp only [leafEntry, or_and_distrib, UInt64.and_assoc, h₀, h₁, h₂, UInt64.and_zero,
      UInt64.zero_or]
  rw [leafOf, hpresent, haddr, hflags, if_neg (by decide)]

variable {V γ : Type}

def VmmSpace.IsFrame (space : VmmSpace V γ) (p : UInt64) : Prop :=
  p = space.rootPaddr ∨ Frame p

/-- What is assumed of `phys_to_virt`: it fails, or it gives the place `virt p` of the frame
in memory; different frames are at different places. -/
structure AddressLaws (space : VmmSpace V γ) (virt : UInt64 → V) : Prop where
  toVirt : ∀ f tables ctx p, space.physToVirt = some f → space.IsFrame p →
    f tables ctx p = none ∨ f tables ctx p = some (virt p)
  injective : ∀ p q, space.IsFrame p → space.IsFrame q → virt p = virt q → p = q

theorem AddressLaws.tableFromPhys_eq_some {space : VmmSpace V γ} {virt : UInt64 → V}
    (laws : AddressLaws space virt) {m : Machine V γ} {p : UInt64} {t : V}
    (hp : space.IsFrame p) (h : tableFromPhys space m p = some t) : t = virt p := by
  rw [tableFromPhys] at h
  cases hf : space.physToVirt with
  | none =>
    rw [hf] at h
    cases h
  | some f =>
    simp only [hf] at h
    split_ifs at h
    rcases laws.toVirt f m.tables m.ctx p hf hp with hnone | hsome
    · rw [hnone] at h
      cases h
    · rw [hsome] at h
      exact (Option.some.inj h).symm

/-- One answer of `alloc_frame`: it refuses, or it hands out a frame that is neither the root
nor handed out already. The tables in use are left alone; other memory may change. -/
def AllocLaw (space : VmmSpace V γ) (virt : UInt64 → V) (handed : γ → Set UInt64)
    (tables : Tables V) (ctx : γ) (r : UInt64 × Tables V × γ) : Prop :=
  (r.1 = vmmInvalidPhys ∧ handed ctx ⊆ handed r.2.2 ∨
    Frame r.1 ∧ r.1 ≠ space.rootPaddr ∧ r.1 ∉ handed ctx ∧
      insert r.1 (handed ctx) ⊆ handed r.2.2) ∧
  ∀ q, q = space.rootPaddr ∨ q ∈ handed ctx → r.2.1 (virt q) = tables (virt q)

/-- What is assumed of the callbacks: `handed` are the frames that the allocator has handed
out, and `phys_to_virt` is total and injective on frames. -/
structure CallbackLaws (space : VmmSpace V γ) (virt : UInt64 → V)
    (handed : γ → Set UInt64) : Prop where
  toVirt : ∃ f, space.physToVirt = some f ∧
    ∀ tables ctx p, space.IsFrame p → f tables ctx p = some (virt p)
  injective : ∀ p q, space.IsFrame p → space.IsFrame q → virt p = virt q → p = q
  alloc : ∃ f, space.allocFrame = some f ∧
    ∀ tables ctx, AllocLaw space virt handed tables ctx (f tables ctx)

structure FrameLaws (space : VmmSpace V γ) (virt : UInt64 → V) (handed : γ → Set UInt64) :
    Prop extends CallbackLaws space virt handed where
  root : vmmIsAligned4k space.rootPaddr = true

theorem CallbackLaws.address {space : VmmSpace V γ} {virt : UInt64 → V}
    {handed : γ → Set UInt64} (laws : CallbackLaws space virt handed) :
    AddressLaws space virt where
  toVirt := by
    intro g tables ctx p hg hp
    obtain ⟨f, hf, htotal⟩ := laws.toVirt
    rw [hf] at hg
    cases hg
    exact Or.inr (htotal tables ctx p hp)
  injective := laws.injective

theorem vmmSpaceInit_ok {rootPaddr : UInt64}
    {allocFrame : Option (Tables V → γ → UInt64 × Tables V × γ)}
    {freeFrame : Option (Tables V → γ → UInt64 → Tables V × γ)}
    {physToVirt : Option (Tables V → γ → UInt64 → Option V)} {space : VmmSpace V γ}
    (h : vmmSpaceInit rootPaddr allocFrame freeFrame physToVirt = .ok space) :
    space.rootPaddr = rootPaddr ∧ vmmIsAligned4k rootPaddr = true := by
  rw [vmmSpaceInit] at h
  split_ifs at h with hbad
  cases h
  rw [not_or, Bool.not_eq_false] at hbad
  exact ⟨rfl, hbad.2⟩

theorem FrameLaws.tableFromPhys {space : VmmSpace V γ} {virt : UInt64 → V}
    {handed : γ → Set UInt64} (laws : FrameLaws space virt handed) (m : Machine V γ)
    {p : UInt64} (hp : space.IsFrame p) : tableFromPhys space m p = some (virt p) := by
  obtain ⟨f, hf, htotal⟩ := laws.toVirt
  have haligned : ¬ vmmIsAligned4k p = false := by
    rw [Bool.not_eq_false]
    rcases hp with rfl | hp
    · exact laws.root
    · exact (vmmIsAligned4k_iff p).mpr hp.1
  rw [Vmm.tableFromPhys, hf]
  simp only [haligned]
  exact htotal _ _ p hp

def link (virt : UInt64 → V) (tables : Tables V) (p : UInt64) (i : Fin 512) : Option UInt64 :=
  if tables (virt p) i &&& vmmPtePresent = 0 then none
  else some (tables (virt p) i &&& vmmPteAddrMask)

theorem link_congr {virt : UInt64 → V} {tables tables' : Tables V} {p : UInt64}
    (h : tables' (virt p) = tables (virt p)) : link virt tables' p = link virt tables p := by
  funext i
  rw [link, link, h]

/-- The tables in memory form a tree whose frames below the root belong to `H`. -/
structure Tree (root : UInt64) (virt : UInt64 → V) (H : Set UInt64) (tables : Tables V) :
    Prop where
  separated : Separated (link virt tables) root 3
  frames : ∀ ρ p, ρ.length ≤ 3 → reach (link virt tables) root ρ = some p →
    p = root ∨ Frame p ∧ p ∈ H
  entries : ∀ ρ p i, ρ.length < 3 → reach (link virt tables) root ρ = some p →
    tables (virt p) i = 0 ∨ ∃ g, Frame g ∧ tables (virt p) i = tableEntry g

def translate (root : UInt64) (virt : UInt64 → V) (tables : Tables V) (v : Page) :
    Option (UInt64 × UInt64) :=
  (reach (link virt tables) root v.path).bind (fun p => leafOf (tables (virt p) (idxPt v.1)))

theorem Page.path_length (v : Page) : v.path.length = 3 := rfl

section Congruence

variable {root : UInt64} {virt : UInt64 → V} {H H' : Set UInt64} {tables tables' : Tables V}

theorem Tree.reach_eq (h : Tree root virt H tables)
    (hsame : ∀ q, q = root ∨ q ∈ H → tables' (virt q) = tables (virt q)) {ρ : List (Fin 512)}
    (hρ : ρ.length ≤ 3) :
    reach (link virt tables') root ρ = reach (link virt tables) root ρ := by
  refine reach_congr (d := 3) (fun σ k hσ hk => link_congr (hsame k ?_)) hρ
  exact (h.frames σ k (by omega) hk).imp_right And.right

theorem Tree.congr (h : Tree root virt H tables) (hH : H ⊆ H')
    (hsame : ∀ q, q = root ∨ q ∈ H → tables' (virt q) = tables (virt q)) :
    Tree root virt H' tables' := by
  constructor
  case separated => exact h.separated.congr (fun ρ hρ => h.reach_eq hsame hρ)
  case frames =>
    intro ρ p hρ hp
    rw [h.reach_eq hsame hρ] at hp
    exact (h.frames ρ p hρ hp).imp_right (fun hf => ⟨hf.1, hH hf.2⟩)
  case entries =>
    intro ρ p i hρ hp
    rw [h.reach_eq hsame (by omega)] at hp
    rw [hsame p ((h.frames ρ p (by omega) hp).imp_right And.right)]
    exact h.entries ρ p i hρ hp

theorem Tree.translate_congr (h : Tree root virt H tables)
    (hsame : ∀ q, q = root ∨ q ∈ H → tables' (virt q) = tables (virt q)) (v : Page) :
    translate root virt tables' v = translate root virt tables v := by
  rw [translate, translate, h.reach_eq hsame (le_of_eq v.path_length)]
  cases hp : reach (link virt tables) root v.path with
  | none => rfl
  | some p =>
    have hin := (h.frames v.path p (le_of_eq v.path_length) hp).imp_right And.right
    rw [Option.bind_some, Option.bind_some, hsame p hin]

end Congruence

theorem tree_of_zeroed_root {root : UInt64} {virt : UInt64 → V} (H : Set UInt64)
    {tables : Tables V} (h : ∀ i, tables (virt root) i = 0) :
    Tree root virt H tables ∧ ∀ v, translate root virt tables v = none := by
  have hlink : ∀ i, link virt tables root i = none := by
    intro i
    rw [link, h i]
    rfl
  have hnil : ∀ ρ p, reach (link virt tables) root ρ = some p → ρ = [] ∧ p = root := by
    intro ρ p hp
    cases ρ with
    | nil =>
      cases hp
      exact ⟨rfl, rfl⟩
    | cons i ρ =>
      rw [reach, hlink i] at hp
      cases hp
  refine ⟨⟨separated_of_no_edges 3 hlink, ?_, ?_⟩, ?_⟩
  · exact fun ρ p _ hp => Or.inl (hnil ρ p hp).2
  · intro ρ p i _ hp
    rw [(hnil ρ p hp).2]
    exact Or.inl (h i)
  · intro v
    rw [translate, Page.path, reach, hlink]
    rfl

section Edits

variable {root p : UInt64} {virt : UInt64 → V} {H : Set UInt64} {tables tables' : Tables V}

theorem link_zero {q : UInt64} (h : tables (virt q) = fun _ => 0) (j : Fin 512) :
    link virt tables q j = none := by
  rw [link, h]
  exact if_pos UInt64.zero_and

theorem Tree.attach {c : UInt64} {π : List (Fin 512)} {i : Fin 512}
    (h : Tree root virt H tables) (hπ : π.length < 3)
    (hp : reach (link virt tables) root π = some p) (hi : link virt tables p i = none)
    (hc : Frame c) (hroot : c ≠ root) (hfresh : c ∉ H)
    (hnew : ∀ q, q = root ∨ Frame q → tables' (virt q) =
      if q = c then fun _ => 0
      else if q = p then Function.update (tables (virt p)) i (tableEntry c)
      else tables (virt q)) :
    Tree root virt (insert c H) tables' ∧
      (∀ σ : List (Fin 512), σ.length ≤ 3 → reach (link virt tables') root σ =
        if σ = π ++ [i] then some c else reach (link virt tables) root σ) ∧
      ∀ v, translate root virt tables' v = translate root virt tables v := by
  have hframe : ∀ σ k, σ.length ≤ 3 → reach (link virt tables) root σ = some k →
      k = root ∨ Frame k := fun σ k hσ hk => (h.frames σ k hσ hk).imp_right And.left
  have hunused : ∀ σ, σ.length ≤ 3 → reach (link virt tables) root σ ≠ some c := by
    intro σ hσ hk
    rcases h.frames σ c hσ hk with heq | hin
    · exact hroot heq
    · exact hfresh hin.2
  have hpc : p ≠ c := fun heq => hunused π (by omega) (heq ▸ hp)
  have hlink : ∀ q, q = root ∨ Frame q →
      link virt tables' q = RadixTree.attach (link virt tables) p i c q := by
    intro q hq
    have hq' := hnew q hq
    funext j
    rw [RadixTree.attach]
    by_cases hqc : q = c
    · rw [if_pos hqc] at hq' ⊢
      exact link_zero hq' j
    · rw [if_neg hqc] at hq' ⊢
      by_cases hqp : q = p
      · subst hqp
        rw [if_pos rfl] at hq'
        by_cases hji : j = i
        · subst hji
          obtain ⟨hpresent, -, haddr⟩ := hc.tableEntry_bits
          rw [if_pos ⟨rfl, rfl⟩, link, hq', Function.update_self, if_neg hpresent, haddr]
        · rw [if_neg (fun hand => hji hand.2), link, hq', Function.update_of_ne hji, link]
      · rw [if_neg hqp] at hq'
        rw [if_neg (fun hand => hqp hand.1), link_congr hq']
  have hattach : ∀ {σ : List (Fin 512)}, σ.length ≤ 3 →
      reach (RadixTree.attach (link virt tables) p i c) root σ =
        if σ = π ++ [i] then some c else reach (link virt tables) root σ :=
    fun hσ => reach_attach h.separated hπ hp hi hunused hσ
  have hsame : ∀ {σ : List (Fin 512)}, σ.length ≤ 3 → reach (link virt tables') root σ =
      reach (RadixTree.attach (link virt tables) p i c) root σ := by
    intro σ hσ
    refine reach_congr (d := 3) (fun ρ k hρ hk => hlink k ?_) hσ
    rw [hattach (by omega)] at hk
    split_ifs at hk
    · cases hk
      exact Or.inr hc
    · exact hframe ρ k (by omega) hk
  have hreach : ∀ {σ : List (Fin 512)}, σ.length ≤ 3 → reach (link virt tables') root σ =
      if σ = π ++ [i] then some c else reach (link virt tables) root σ :=
    fun hσ => (hsame hσ).trans (hattach hσ)
  refine ⟨⟨?_, ?_, ?_⟩, ?_, ?_⟩
  · exact (separated_attach h.separated hπ hp hi hunused).congr (fun σ hσ => hsame hσ)
  · intro σ k hσ hk
    rw [hreach hσ] at hk
    split_ifs at hk
    · cases hk
      exact Or.inr ⟨hc, Set.mem_insert c H⟩
    · exact (h.frames σ k hσ hk).imp_right (fun hf => ⟨hf.1, Set.mem_insert_of_mem c hf.2⟩)
  · intro σ k j hσ hk
    rw [hreach (by omega)] at hk
    split_ifs at hk
    · cases hk
      rw [hnew c (Or.inr hc), if_pos rfl]
      exact Or.inl rfl
    · have hkc : k ≠ c := fun heq => hunused σ (by omega) (heq ▸ hk)
      rw [hnew k (hframe σ k (by omega) hk), if_neg hkc]
      split_ifs with hkp
      · subst hkp
        by_cases hji : j = i
        · subst hji
          rw [Function.update_self]
          exact Or.inr ⟨c, hc, rfl⟩
        · rw [Function.update_of_ne hji]
          exact h.entries σ k j hσ hk
      · exact h.entries σ k j hσ hk
  · exact fun σ hσ => hreach hσ
  · intro v
    have hlen := v.path_length
    rw [translate, translate, hreach (le_of_eq hlen)]
    split_ifs with hv
    · -- the new page table is empty, and before there was none
      rw [Option.bind_some, hnew c (Or.inr hc), if_pos rfl, hv, reach_concat_of_some hp, hi]
      rfl
    · cases hk : reach (link virt tables) root v.path with
      | none => rfl
      | some k =>
        have hkc : k ≠ c := fun heq => hunused v.path (by omega) (heq ▸ hk)
        have hkp : k ≠ p := by
          intro heq
          have hpath := h.separated v.path π p (by omega) (by omega) (heq ▸ hk) hp
          rw [hpath] at hlen
          omega
        rw [Option.bind_some, Option.bind_some, hnew k (hframe v.path k (by omega) hk),
          if_neg hkc, if_neg hkp]

theorem Tree.setLeaf {v : Page} {e : UInt64} (h : Tree root virt H tables)
    (hp : reach (link virt tables) root v.path = some p)
    (hnew : ∀ q, q = root ∨ Frame q → tables' (virt q) =
      if q = p then Function.update (tables (virt p)) (idxPt v.1) e else tables (virt q)) :
    Tree root virt H tables' ∧
      (∀ σ : List (Fin 512), σ.length ≤ 3 →
        reach (link virt tables') root σ = reach (link virt tables) root σ) ∧
      ∀ w, translate root virt tables' w =
        if w = v then leafOf e else translate root virt tables w := by
  have hlen := v.path_length
  have hupper : ∀ σ k, σ.length < 3 → reach (link virt tables) root σ = some k →
      tables' (virt k) = tables (virt k) := by
    intro σ k hσ hk
    have hkp : k ≠ p := by
      intro heq
      have hpath := h.separated σ v.path p (by omega) (by omega) (heq ▸ hk) hp
      rw [hpath] at hσ
      omega
    rw [hnew k ((h.frames σ k (by omega) hk).imp_right And.left), if_neg hkp]
  have hreach : ∀ {σ : List (Fin 512)}, σ.length ≤ 3 → reach (link virt tables') root σ =
      reach (link virt tables) root σ :=
    fun hσ => reach_congr (d := 3) (fun ρ k hρ hk => link_congr (hupper ρ k hρ hk)) hσ
  refine ⟨⟨h.separated.congr (fun σ hσ => hreach hσ), ?_, ?_⟩, fun σ hσ => hreach hσ, ?_⟩
  · intro σ k hσ hk
    rw [hreach hσ] at hk
    exact h.frames σ k hσ hk
  · intro σ k j hσ hk
    rw [hreach (by omega)] at hk
    rw [hupper σ k hσ hk]
    exact h.entries σ k j hσ hk
  · intro w
    have hlen' := w.path_length
    rw [translate, translate, hreach (le_of_eq hlen')]
    cases hk : reach (link virt tables) root w.path with
    | none =>
      have hwv : w ≠ v := by
        intro heq
        rw [heq, hp] at hk
        cases hk
      rw [Option.bind_none, if_neg hwv, Option.bind_none]
    | some k =>
      rw [Option.bind_some, Option.bind_some,
        hnew k ((h.frames w.path k (by omega) hk).imp_right And.left)]
      by_cases hkp : k = p
      · subst hkp
        have hpath := h.separated w.path v.path k (by omega) (by omega) hk hp
        rw [if_pos rfl]
        by_cases hpt : idxPt w.1 = idxPt v.1
        · rw [if_pos (Page.eq_of_indices hpath hpt), hpt, Function.update_self]
        · have hwv : w ≠ v := fun heq => hpt (heq ▸ rfl)
          rw [if_neg hwv, Function.update_of_ne hpt]
      · have hwv : w ≠ v := by
          intro heq
          rw [heq, hp] at hk
          exact hkp (Option.some.inj hk).symm
        rw [if_neg hkp, if_neg hwv]

end Edits

section Stores

variable [DecidableEq V]

theorem zeroStores_tables (m : Machine V γ) (page : V) (l : List (Fin 512)) :
    (l.foldl (fun m i => m.store page i 0) m).tables =
      fun t i => if t = page ∧ i ∈ l then 0 else m.tables t i := by
  induction l generalizing m with
  | nil => simp
  | cons j l ih =>
    rw [List.foldl_cons, ih, Machine.tables_store]
    funext t i
    by_cases ht : t = page
    · subst ht
      by_cases hi : i = j
      · subst hi
        simp
      · simp [hi]
    · simp [ht]

theorem vmmZeroPage_tables (m : Machine V γ) (page : V) :
    (vmmZeroPage m page).tables = Function.update m.tables page (fun _ => 0) := by
  rw [vmmZeroPage, zeroStores_tables]
  funext t i
  by_cases ht : t = page
  · subst ht
    simp
  · simp [ht]

theorem attached_outside (m : Machine V γ) (page table : V) (index : Fin 512) (entry : UInt64) :
    ((vmmZeroPage m page).store table index entry).ctx = m.ctx ∧
      ((vmmZeroPage m page).store table index entry).events = m.events := by
  rw [vmmZeroPage]
  generalize List.finRange 512 = l
  induction l generalizing m with
  | nil => exact ⟨rfl, rfl⟩
  | cons i l ih => exact ih (m.store page i 0)

theorem AddressLaws.store_tables {space : VmmSpace V γ} {virt : UInt64 → V}
    (laws : AddressLaws space virt) (m : Machine V γ)
    {p : UInt64} (hp : space.IsFrame p) (i : Fin 512) (e : UInt64) {q : UInt64}
    (hq : space.IsFrame q) : (m.store (virt p) i e).tables (virt q) =
      if q = p then Function.update (m.tables (virt p)) i e else m.tables (virt q) := by
  rw [Machine.tables_store]
  by_cases hqp : q = p
  · rw [hqp, if_pos rfl, Function.update_self]
  · have hne : virt q ≠ virt p := fun heq => hqp (laws.injective q p hq hp heq)
    rw [if_neg hqp, Function.update_of_ne hne]

theorem AddressLaws.attached_tables {space : VmmSpace V γ} {virt : UInt64 → V}
    (laws : AddressLaws space virt) (m : Machine V γ)
    {p c : UInt64} (hp : space.IsFrame p) (hc : Frame c) (hpc : p ≠ c) (i : Fin 512)
    {q : UInt64} (hq : space.IsFrame q) :
    ((vmmZeroPage m (virt c)).store (virt p) i (tableEntry c)).tables (virt q) =
      if q = c then fun _ => 0
      else if q = p then Function.update (m.tables (virt p)) i (tableEntry c)
      else m.tables (virt q) := by
  have hzero : ∀ {k : UInt64}, space.IsFrame k → (vmmZeroPage m (virt c)).tables (virt k) =
      if k = c then fun _ => 0 else m.tables (virt k) := by
    intro k hk
    rw [vmmZeroPage_tables]
    by_cases hkc : k = c
    · rw [if_pos hkc, hkc]
      exact Function.update_self _ _ _
    · have hne : virt k ≠ virt c := fun heq => hkc (laws.injective k c hk (Or.inr hc) heq)
      rw [if_neg hkc]
      exact Function.update_of_ne hne _ _
  rw [laws.store_tables _ hp i _ hq, hzero hp, hzero hq, if_neg hpc]
  by_cases hqp : q = p
  · rw [if_pos hqp, if_neg (hqp ▸ hpc), if_pos hqp]
  · rw [if_neg hqp, if_neg hqp]

end Stores

section LeafEntries

def pageIndices (v : UInt64) : Fin 512 × Fin 512 × Fin 512 × Fin 512 :=
  (idxPml4 v, idxPdpt v, idxPd v, idxPt v)

def pageOfIndices (q : Fin 512 × Fin 512 × Fin 512 × Fin 512) : UInt64 :=
  pageAddress q.1 q.2.1 q.2.2.1 q.2.2.2

theorem pageOfIndices_invOn : Set.InvOn pageOfIndices pageIndices
    { v | vmmIsCanonical v = true ∧ vmmIsAligned4k v = true } Set.univ := by
  constructor
  · intro v hv
    exact pageAddress_indices hv.1 hv.2
  · intro q _
    obtain ⟨hpml4, hpdpt, hpd, hpt⟩ := indices_pageAddress q.1 q.2.1 q.2.2.1 q.2.2.2
    rw [pageIndices, pageOfIndices, hpml4, hpdpt, hpd, hpt]

theorem leaf_entry_ne {N : Type} {next : N → Fin 512 → Option N} {root p q : N}
    (htree : Separated next root 3) {v w : Page} (hne : v ≠ w)
    (hp : reach next root v.path = some p) (hq : reach next root w.path = some q) :
    (p, idxPt v.1) ≠ (q, idxPt w.1) := by
  intro heq
  obtain ⟨rfl, hpt⟩ := Prod.mk.inj heq
  have hpath := htree _ _ p (le_of_eq v.path_length) (le_of_eq w.path_length) hp hq
  exact hne (Page.eq_of_indices hpath hpt)

def walkEdge (space : VmmSpace V γ) (m : Machine V γ) (table : V) (index : Fin 512) :
    Option V :=
  (nextTable space m table index).toOption

theorem reach_of_follow {space : VmmSpace V γ} {m : Machine V γ} {ρ : List (Fin 512)} {t u : V}
    (h : follow space m ρ t = .ok u) : reach (walkEdge space m) t ρ = some u := by
  induction ρ generalizing t with
  | nil =>
    cases h
    rfl
  | cons i ρ ih =>
    rw [follow] at h
    rw [reach, walkEdge]
    cases hnext : nextTable space m t i with
    | error rc =>
      rw [hnext] at h
      cases h
    | ok next =>
      rw [hnext] at h
      exact ih h

theorem reach_of_findPageTable {space : VmmSpace V γ} {m : Machine V γ} {pml4 t : V} {v : Page}
    (hroot : tableFromPhys space m space.rootPaddr = some pml4)
    (h : findPageTable space m v.1 = .ok t) : reach (walkEdge space m) pml4 v.path = some t := by
  rw [findPageTable_eq, hroot] at h
  exact reach_of_follow h

/-- The four indices are a bijection between the accepted addresses and all quadruples of
indices, with `pageOfIndices` as its inverse, and in any tree of tables, in particular in the one
that the walk of the source follows, different pages have different leaf entries. -/
theorem page_indices_bijection :
    Set.BijOn pageIndices { v | vmmIsCanonical v = true ∧ vmmIsAligned4k v = true } Set.univ ∧
    Set.InvOn pageOfIndices pageIndices
      { v | vmmIsCanonical v = true ∧ vmmIsAligned4k v = true } Set.univ ∧
    (∀ (N : Type) (next : N → Fin 512 → Option N) (root : N), Separated next root 3 →
      ∀ (v w : Page) (p q : N), v ≠ w → reach next root v.path = some p →
        reach next root w.path = some q → (p, idxPt v.1) ≠ (q, idxPt w.1)) ∧
    ∀ (V γ : Type) (space : VmmSpace V γ) (m : Machine V γ) (pml4 : V),
      tableFromPhys space m space.rootPaddr = some pml4 →
      Separated (walkEdge space m) pml4 3 →
      ∀ (v w : Page) (t u : V), v ≠ w → findPageTable space m v.1 = .ok t →
        findPageTable space m w.1 = .ok u → (t, idxPt v.1) ≠ (u, idxPt w.1) := by
  have hmaps : Set.MapsTo pageOfIndices Set.univ
      { v | vmmIsCanonical v = true ∧ vmmIsAligned4k v = true } := by
    intro q _
    exact pageAddress_accepted q.1 q.2.1 q.2.2.1 q.2.2.2
  constructor
  · exact pageOfIndices_invOn.bijOn (Set.mapsTo_univ _ _) hmaps
  constructor
  · exact pageOfIndices_invOn
  constructor
  · intro N next root htree v w p q hne hp hq
    exact leaf_entry_ne htree hne hp hq
  · intro V γ space m pml4 hroot htree v w t u hne ht hu
    exact leaf_entry_ne htree hne (reach_of_findPageTable hroot ht)
      (reach_of_findPageTable hroot hu)

def completeNext (table : List (Fin 512)) (index : Fin 512) : Option (List (Fin 512)) :=
  if table.length < 3 then some (table ++ [index]) else none

theorem reach_completeNext {ρ t k : List (Fin 512)} (h : reach completeNext t ρ = some k) :
    k = t ++ ρ := by
  induction ρ generalizing t with
  | nil =>
    cases h
    exact (List.append_nil _).symm
  | cons i ρ ih =>
    rw [reach, completeNext] at h
    by_cases hdepth : t.length < 3
    · rw [if_pos hdepth] at h
      rw [ih h, List.append_assoc, List.singleton_append]
    · rw [if_neg hdepth] at h
      cases h

def lowerPage : Page := ⟨0x00007FFFFFFFF000, by decide⟩

def upperPage : Page := ⟨0xFFFF800000000000, by decide⟩

theorem page_indices_bijection_complete :
    Separated completeNext [] 3 ∧
    (lowerPage.path, idxPt lowerPage.1) ≠ (upperPage.path, idxPt upperPage.1) := by
  have htree : Separated completeNext [] 3 := by
    intro ρ σ k _ _ hρ hσ
    rw [← List.nil_append ρ, ← List.nil_append σ, ← reach_completeNext hρ,
      ← reach_completeNext hσ]
  exact ⟨htree, page_indices_bijection.2.2.1 _ completeNext [] htree lowerPage upperPage _ _
    (by decide) rfl rfl⟩

end LeafEntries

end Mcsos.Vmm
