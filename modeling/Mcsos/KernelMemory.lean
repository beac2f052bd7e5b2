import Mcsos.PmmRefinement
import Mcsos.VmmContexts

/-!
# The frame allocator under the page tables

The page tables take their frames from the bitmap allocator and are reached through a direct map
of the physical memory. Other parts of the kernel, the clients, take frames from the same
allocator and write to them. Whatever the order of the calls, each space is a partial map of its
own, the allocator hands out the least free frame, and no frame has two owners.
-/

namespace Mcsos.Pmm

def FrameSet.Used (s : FrameSet) (a : UInt64) : Prop :=
  a.toNat % 4096 = 0 ∧ a.toNat < 4096 * s.count ∧ a.toNat / 4096 ∉ s.free

instance (s : FrameSet) (a : UInt64) : Decidable (s.Used a) :=
  inferInstanceAs (Decidable (_ ∧ _ ∧ _))

theorem FrameSet.alloc_cases (s : FrameSet) :
    (s.alloc = (s, pmmInvalidFrame) ∧ s.free = ∅) ∨
    ∃ f ∈ s.free, s.alloc.2 = UInt64.ofNat (4096 * f) ∧ s.alloc.1.count = s.count ∧
      s.alloc.1.free = s.free.erase f := by
  by_cases hne : s.free.Nonempty
  · right
    use s.free.min' hne, Finset.min'_mem s.free hne
    simp only [FrameSet.alloc, hne, ↓reduceDIte, and_self]
  · left
    simp only [FrameSet.alloc, hne, ↓reduceDIte, true_and]
    exact Finset.not_nonempty_iff_eq_empty.mp hne

theorem FrameSet.alloc_fresh (s : FrameSet) (hbelow : s.count ≤ 2 ^ 40)
    (h : s.alloc.2 ≠ pmmInvalidFrame) : ¬ s.Used s.alloc.2 ∧ s.alloc.1.Used s.alloc.2 := by
  rcases s.alloc_cases with ⟨heq, -⟩ | ⟨f, hf, haddr, hcount, hfree⟩
  · exact absurd (congrArg Prod.snd heq) h
  · have hlt := s.below f hf
    have hnat : s.alloc.2.toNat = 4096 * f := by
      rw [haddr, WordArithmetic.toNat_ofNat_of_lt (by omega)]
    have hdiv : s.alloc.2.toNat / 4096 = f := by omega
    constructor
    · exact fun hused => hused.2.2 (hdiv ▸ hf)
    · refine ⟨by omega, by omega, ?_⟩
      rw [hdiv, hfree]
      exact Finset.notMem_erase f _

theorem FrameSet.Used.step {s : FrameSet} {a : UInt64} (h : s.Used a) {c : PmmCall}
    (hc : c ≠ .freeFrame a) : (s.step c).1.Used a := by
  obtain ⟨haligned, hbelow, hused⟩ := h
  rw [← s.step_count c] at hbelow
  use haligned, hbelow
  cases c with
  | allocFrame =>
    rcases s.alloc_cases with ⟨heq, -⟩ | ⟨f, -, -, -, heq⟩
    · rw [FrameSet.step, heq]
      exact hused
    · rw [FrameSet.step, heq]
      exact fun hin => hused (Finset.mem_of_mem_erase hin)
  | freeFrame b =>
    simp only [FrameSet.step, FrameSet.giveBack]
    split_ifs with hb
    · intro hin
      rcases Finset.mem_insert.mp hin with heq | hin
      · have hab : b = a := by
          apply WordArithmetic.eq_of_toNat_eq
          have := hb.1
          omega
        exact hc (hab ▸ rfl)
      · exact hused hin
    · exact hused
  | reserveRange base length => exact fun hin => hused (Finset.mem_sdiff.mp hin).1
  | isFrameFree b => exact hused
  | freeCount => exact hused
  | usedCount => exact hused

end Mcsos.Pmm

namespace Mcsos.KernelMemory
open Vmm Pmm RadixTree StepRun WordArithmetic

def kernelVmmAlloc (tables : Tables UInt64) (pmm : Option PmmState) :
    UInt64 × Tables UInt64 × Option PmmState :=
  -- The allocator of the callbacks is `none` once one of its accesses has faulted.
  match pmm.bind pmmAllocFrame with
  | some (frame, pmm) => (frame, tables, some pmm)
  | none => (pmmInvalidFrame, tables, none)

def kernelVmmFree (tables : Tables UInt64) (pmm : Option PmmState) (framePaddr : UInt64) :
    Tables UInt64 × Option PmmState :=
  (tables, (pmm.bind fun pmm => pmmFreeFrame pmm framePaddr).map Prod.snd)

def kernelPhysToVirt {γ : Type} (hhdmOffset : UInt64) (_ : Tables UInt64) (_ : γ)
    (paddr : UInt64) : Option UInt64 :=
  -- The pointer is null only if the sum wraps around to 0.
  if hhdmOffset + paddr = 0 then none else some (hhdmOffset + paddr)

def kernelSpace (hhdmOffset root : UInt64) : VmmSpace UInt64 (Option PmmState) :=
  ⟨root, some kernelVmmAlloc, some kernelVmmFree, some (kernelPhysToVirt hhdmOffset)⟩

structure MemoryState where
  machine : Machine UInt64 PmmState
  clients : List UInt64

inductive MemoryCall (ι : Type)
  | vmm (space : ι) (call : VmmCall)
  | pmm (call : PmmCall)
  | store (paddr : UInt64) (index : Fin 512) (value : UInt64)

inductive MemoryReply
  | vmm (reply : VmmReply)
  | pmm (result : PmmResult)
  | stored

def clientsAfter (clients : List UInt64) : PmmCall → PmmResult → List UInt64
  | .allocFrame, .addr a => if a = pmmInvalidFrame then clients else a :: clients
  | .freeFrame a, _ => clients.erase a
  | _, _ => clients

theorem clientsAfter_spec {s : FrameSet} (hbelow : s.count ≤ 2 ^ 40) {clients : List UInt64}
    {T : Set UInt64} (hused : ∀ a ∈ clients, s.Used a) (htaken : ∀ a ∈ T, s.Used a)
    (hapart : ∀ a ∈ clients, a ∉ T) (hdistinct : clients.Nodup) (c : PmmCall) :
    (∀ a ∈ clientsAfter clients c (s.step c).2, (s.step c).1.Used a ∧ a ∉ T) ∧
      (clientsAfter clients c (s.step c).2).Nodup := by
  have hkeep : ∀ a ∈ clients, c ≠ .freeFrame a → (s.step c).1.Used a ∧ a ∉ T :=
    fun a ha hc => ⟨(hused a ha).step hc, hapart a ha⟩
  cases c with
  | allocFrame =>
    have hafter : clientsAfter clients .allocFrame (s.step .allocFrame).2 =
        if s.alloc.2 = pmmInvalidFrame then clients else s.alloc.2 :: clients := rfl
    rw [hafter]
    split_ifs with hinvalid
    · exact ⟨fun a ha => hkeep a ha (by simp), hdistinct⟩
    · obtain ⟨hnot, hnew⟩ := s.alloc_fresh hbelow hinvalid
      constructor
      · intro a ha
        rcases List.mem_cons.mp ha with rfl | ha
        · exact ⟨hnew, fun hin => hnot (htaken _ hin)⟩
        · exact hkeep a ha (by simp)
      · exact List.nodup_cons.mpr ⟨fun hin => hnot (hused _ hin), hdistinct⟩
  | freeFrame b =>
    constructor
    · intro a ha
      obtain ⟨hne, hin⟩ := hdistinct.mem_erase_iff.mp ha
      exact hkeep a hin (fun heq => hne (PmmCall.freeFrame.inj heq).symm)
    · exact hdistinct.erase b
  | reserveRange base length => exact ⟨fun a ha => hkeep a ha (by simp), hdistinct⟩
  | isFrameFree b => exact ⟨fun a ha => hkeep a ha (by simp), hdistinct⟩
  | freeCount => exact ⟨fun a ha => hkeep a ha (by simp), hdistinct⟩
  | usedCount => exact ⟨fun a ha => hkeep a ha (by simp), hdistinct⟩

variable {ι : Type}

def memoryStep (hhdmOffset : UInt64) (root : ι → UInt64) (k : MemoryState) :
    MemoryCall ι → Option (MemoryState × MemoryReply)
  | .vmm space call =>
      let r := vmmStep (kernelSpace hhdmOffset (root space)) (k.machine.mapCtx some) call
      r.1.ctx.map fun pmm => ({ k with machine := ⟨r.1.tables, pmm, r.1.trace⟩ }, .vmm r.2)
  | .pmm call =>
      (pmmStep k.machine.ctx call).map fun r =>
        (⟨{ k.machine with ctx := r.1 }, clientsAfter k.clients call r.2⟩, .pmm r.2)
  | .store paddr index value =>
      some ({ k with machine := k.machine.store (hhdmOffset + paddr) index value }, .stored)

/-- A client gives back, and writes to, only frames that are its own. -/
def ClientRule (k : MemoryState) : MemoryCall ι → Prop
  | .pmm (.freeFrame a) => a ∈ k.clients
  | .store a _ _ => a ∈ k.clients
  | _ => True

instance (k : MemoryState) : (c : MemoryCall ι) → Decidable (ClientRule k c)
  | .vmm _ _ => isTrue trivial
  | .pmm .allocFrame => isTrue trivial
  | .pmm (.freeFrame a) => inferInstanceAs (Decidable (a ∈ k.clients))
  | .pmm (.reserveRange _ _) => isTrue trivial
  | .pmm (.isFrameFree _) => isTrue trivial
  | .pmm .freeCount => isTrue trivial
  | .pmm .usedCount => isTrue trivial
  | .store a _ _ => inferInstanceAs (Decidable (a ∈ k.clients))

structure MemorySpec (ι : Type) where
  pages : ι → PageMap
  frames : FrameSet

def frameEvent (s : FrameSet) : VmmEvent → FrameSet
  | .allocated _ => s.alloc.1
  | .freed p => (s.giveBack p).1
  | .invalidated _ => s

def Serves : FrameSet → List VmmEvent → Prop
  | _, [] => True
  | s, e :: es => (∀ a, e = .allocated a → a = s.alloc.2) ∧ Serves (frameEvent s e) es

theorem Serves.concat {s : FrameSet} {es : List VmmEvent} {e : VmmEvent} (h : Serves s es)
    (he : ∀ a, e = .allocated a → a = (es.foldl frameEvent s).alloc.2) :
    Serves s (es ++ [e]) := by
  induction es generalizing s with
  | nil => exact ⟨he, trivial⟩
  | cons e' es ih => exact ⟨h.1, ih h.2 he⟩

def MemoryAllows (A : MemorySpec ι) : MemoryCall ι → MemoryReply → Prop
  | .vmm i c, .vmm r => (A.pages i).Allows c r ∧ Serves A.frames r.events
  | .pmm c, .pmm r => r = (A.frames.step c).2
  | .store _ _ _, .stored => True
  | _, _ => False

def memoryAfter [DecidableEq ι] (A : MemorySpec ι) : MemoryCall ι → MemoryReply → MemorySpec ι
  | .vmm i c, .vmm r =>
      ⟨Function.update A.pages i ((A.pages i).after c r), r.events.foldl frameEvent A.frames⟩
  | .pmm c, _ => ⟨A.pages, (A.frames.step c).1⟩
  | _, _ => A

/-- A state of the allocator that stores a set of frames in which the roots are in use. Page
table entries have room for the frames, and the direct map has room for them above its offset. -/
structure FrameStore (hhdmOffset : UInt64) (root : ι → UInt64) where
  pmm : PmmState
  frames : FrameSet
  refines : Refines pmm frames
  below : frames.count ≤ 2 ^ 40
  mapped : hhdmOffset.toNat + 4096 * frames.count ≤ 2 ^ 64
  roots : ∀ i, frames.Used (root i)

namespace FrameStore

variable {root : ι → UInt64} {hhdmOffset : UInt64}

def alloc (c : FrameStore hhdmOffset root) : UInt64 × FrameStore hhdmOffset root :=
  (c.frames.alloc.2,
    { pmm := ((pmmAllocFrame c.pmm).map Prod.snd).getD c.pmm
      frames := c.frames.alloc.1
      refines := by
        obtain ⟨q, hq, hR⟩ := allocFrame_refines c.refines
        rw [pmmAllocFrame, hq]
        exact hR
      below := (c.frames.step_count .allocFrame).symm ▸ c.below
      mapped := (c.frames.step_count .allocFrame).symm ▸ c.mapped
      roots := fun i => (c.roots i).step (c := .allocFrame) (by simp) })

noncomputable def giveBack (c : FrameStore hhdmOffset root) (a : UInt64) :
    FrameStore hhdmOffset root :=
  open Classical in
  if h : ∃ i, root i = a then c
  else
    { pmm := ((pmmFreeFrame c.pmm a).map Prod.snd).getD c.pmm
      frames := (c.frames.giveBack a).1
      refines := by
        obtain ⟨q, hq, hR⟩ := freeFrame_refines c.refines a
        rw [pmmFreeFrame, hq]
        exact hR
      below := (c.frames.step_count (.freeFrame a)).symm ▸ c.below
      mapped := (c.frames.step_count (.freeFrame a)).symm ▸ c.mapped
      roots := by
        intro i
        apply (c.roots i).step (c := .freeFrame a)
        intro heq
        exact h ⟨i, (PmmCall.freeFrame.inj heq).symm⟩ }

def handed (c : FrameStore hhdmOffset root) : Set UInt64 := { a | c.frames.Used a }

noncomputable def space (hhdmOffset : UInt64) (root : ι → UInt64) (i : ι) :
    VmmSpace UInt64 (FrameStore hhdmOffset root) :=
  ⟨root i, some (fun tables c => (c.alloc.1, tables, c.alloc.2)),
    some (fun tables c a => (tables, c.giveBack a)), some (fun _ _ p => some (hhdmOffset + p))⟩

theorem used_frame (c : FrameStore hhdmOffset root) {a : UInt64} (h : c.frames.Used a) :
    Frame a := by
  have := c.below
  obtain ⟨haligned, hbelow, -⟩ := h
  exact ⟨haligned, by omega⟩

theorem alloc_fresh (c : FrameStore hhdmOffset root) (h : c.alloc.1 ≠ vmmInvalidPhys) :
    ¬ c.frames.Used c.alloc.1 ∧ c.alloc.2.frames.Used c.alloc.1 :=
  c.frames.alloc_fresh c.below h

theorem alloc_not_root (c : FrameStore hhdmOffset root) (h : c.alloc.1 ≠ vmmInvalidPhys) :
    ¬ ∃ i, root i = c.alloc.1 := by
  intro hroot
  obtain ⟨i, hi⟩ := hroot
  exact (c.alloc_fresh h).1 (hi ▸ c.roots i)

theorem alloc_law (c : FrameStore hhdmOffset root) (i : ι) (tables : Tables UInt64) :
    AllocLaw (space hhdmOffset root i) (hhdmOffset + ·) handed tables c
      (c.alloc.1, tables, c.alloc.2) := by
  have hkeep : handed c ⊆ handed c.alloc.2 :=
    fun a ha => FrameSet.Used.step ha (c := .allocFrame) (by simp)
  refine ⟨?_, fun _ _ => rfl⟩
  by_cases hinvalid : c.alloc.1 = vmmInvalidPhys
  · exact Or.inl ⟨hinvalid, hkeep⟩
  · obtain ⟨hnot, hused⟩ := c.alloc_fresh hinvalid
    exact Or.inr ⟨c.alloc.2.used_frame hused, fun heq => hnot (heq ▸ c.roots i), hnot,
      Set.insert_subset hused hkeep⟩

theorem giveBack_law (c : FrameStore hhdmOffset root) (i : ι) (tables : Tables UInt64)
    (a : UInt64) :
    FreeLaw (space hhdmOffset root i) (hhdmOffset + ·) handed tables c a
      (tables, c.giveBack a) := by
  refine ⟨?_, fun _ _ => rfl⟩
  intro b hb
  rw [giveBack]
  split_ifs with hroot
  · exact hb.1
  · apply FrameSet.Used.step hb.1 (c := .freeFrame a)
    intro heq
    exact hb.2 (PmmCall.freeFrame.inj heq).symm

theorem laws (ctx : FrameStore hhdmOffset root) :
    SharedLaws (space hhdmOffset root) (hhdmOffset + ·) handed where
  callbacks := by
    intro i
    constructor
    · constructor
      case toVirt => exact ⟨_, rfl, fun _ _ _ _ => rfl⟩
      case injective => exact fun p q _ _ h => add_left_cancel h
      case alloc => exact ⟨_, rfl, fun tables c => c.alloc_law i tables⟩
    · exact (vmmIsAligned4k_iff _).mpr (ctx.roots i).1
  free := by
    intro i f hf tables c a
    cases hf
    exact c.giveBack_law i tables a
  frames := fun c a ha => c.used_frame ha

theorem kernelPhysToVirt_eq (hoffset : 0 < hhdmOffset.toNat) (c : FrameStore hhdmOffset root)
    {a : UInt64} (h : c.frames.Used a) (tables : Tables UInt64) (pmm : Option PmmState) :
    kernelPhysToVirt hhdmOffset tables pmm a = some (hhdmOffset + a) := by
  have hmapped := c.mapped
  obtain ⟨-, hbelow, -⟩ := h
  have hnat : (hhdmOffset + a).toNat = hhdmOffset.toNat + a.toNat :=
    toNat_add_of_lt _ _ (by omega)
  rw [kernelPhysToVirt, if_neg]
  rw [eq_zero_iff]
  omega

theorem pmmAllocFrame_eq (c : FrameStore hhdmOffset root) :
    pmmAllocFrame c.pmm = some (c.alloc.1, c.alloc.2.pmm) := by
  obtain ⟨q, hq, -⟩ := allocFrame_refines c.refines
  simp only [FrameStore.alloc, hq, Option.map_some, Option.getD_some]

theorem follows (hoffset : 0 < hhdmOffset.toNat) (i : ι) :
    Follows (fun c => some c.pmm) handed (space hhdmOffset root i)
      (kernelSpace hhdmOffset (root i)) where
  root := rfl
  toVirt := by
    refine ⟨_, _, rfl, rfl, ?_⟩
    intro tables c p hp
    have hused : c.frames.Used p := hp.elim (fun heq => heq ▸ c.roots i) id
    exact c.kernelPhysToVirt_eq hoffset hused tables (some c.pmm)
  alloc := by
    refine ⟨_, _, rfl, rfl, ?_⟩
    intro tables c
    rw [kernelVmmAlloc, Option.bind_some, c.pmmAllocFrame_eq]
  free := by
    refine ⟨_, _, rfl, rfl, ?_⟩
    intro f hf tables c hgood
    cases hf
    have hnot := c.alloc_not_root hgood
    obtain ⟨q, hq, -⟩ := freeFrame_refines c.alloc.2.refines c.alloc.1
    simp only [giveBack, dif_neg hnot, kernelVmmFree, Option.bind_some, hq, Option.map_some,
      Option.getD_some]

theorem keeps_frames (hhdmOffset : UInt64) (root : ι → UInt64) (i : ι) (s : FrameSet) :
    Keeps (space hhdmOffset root i) (fun m =>
      Serves s m.events ∧ m.events.foldl frameEvent s = m.ctx.frames) where
  alloc := by
    intro m m₁ f c hf hcall hm
    cases hf
    obtain ⟨rfl, rfl⟩ := Prod.mk.inj hcall
    constructor
    · apply hm.1.concat
      intro a ha
      cases ha
      rw [hm.2]
      rfl
    · change (m.events ++ [_]).foldl frameEvent s = _
      rw [List.foldl_append, hm.2]
      rfl
  free := by
    intro m m₁ f g c hf hcall hgood hg hm
    cases hf
    cases hg
    obtain ⟨rfl, rfl⟩ := Prod.mk.inj hcall
    have hnot := m.ctx.alloc_not_root hgood
    constructor
    · apply Serves.concat
      · apply hm.1.concat
        intro a ha
        cases ha
        rw [hm.2]
        rfl
      · intro a ha
        cases ha
    · simp only [Machine.callFree, giveBack, dif_neg hnot]
      change ((m.events ++ [_]) ++ [_]).foldl frameEvent s = _
      rw [List.foldl_append, List.foldl_append, hm.2]
      rfl
  store := fun _ _ _ hm => hm
  invalidate := by
    intro m v hm
    constructor
    · apply hm.1.concat
      intro a ha
      cases ha
    · change (m.events ++ [_]).foldl frameEvent s = _
      rw [List.foldl_append, hm.2]
      rfl

theorem pmmStep_eq (c : FrameStore hhdmOffset root) {call : PmmCall}
    (hroot : ∀ i, call ≠ .freeFrame (root i)) :
    ∃ c' : FrameStore hhdmOffset root, c'.frames = (c.frames.step call).1 ∧
      pmmStep c.pmm call = some (c'.pmm, (c.frames.step call).2) := by
  obtain ⟨q, hq, hR⟩ := pmmStep_refines c.pmm c.frames call c.refines
  exact ⟨⟨q, (c.frames.step call).1, hR, (c.frames.step_count call).symm ▸ c.below,
    (c.frames.step_count call).symm ▸ c.mapped, fun i => (c.roots i).step (hroot i)⟩, rfl, hq⟩

end FrameStore

/-- Every frame in use is accounted for: the machine is one whose allocator keeps its invariant,
the tables of the spaces lie apart, and the clients have frames of their own. -/
structure Accounts (hhdmOffset : UInt64) (root : ι → UInt64) (held : ι → Set UInt64)
    (n : Machine UInt64 (FrameStore hhdmOffset root)) (k : MemoryState) (A : MemorySpec ι) :
    Prop where
  machine : n.mapCtx FrameStore.pmm = k.machine
  isolated : Isolated (FrameStore.space hhdmOffset root) (hhdmOffset + ·) FrameStore.handed held n
  used : ∀ a ∈ k.clients, n.ctx.frames.Used a
  apart : ∀ a ∈ k.clients, ∀ i, a ∉ tableFrames (FrameStore.space hhdmOffset root) held i
  distinct : k.clients.Nodup
  pages : ∀ i, Vmm.pages (FrameStore.space hhdmOffset root i) (hhdmOffset + ·) n = A.pages i
  frames : n.ctx.frames = A.frames

section Steps

variable {hhdmOffset : UInt64} {root : ι → UInt64} {held : ι → Set UInt64}
  {n : Machine UInt64 (FrameStore hhdmOffset root)} {k : MemoryState} {A : MemorySpec ι}

theorem Accounts.aside (h : Accounts hhdmOffset root held n k A) (i : ι) :
    Aside (FrameStore.space hhdmOffset root i) FrameStore.handed (held i) { a | a ∈ k.clients }
      { n with trace := [] } where
  frames := fun a ha => n.ctx.used_frame (h.used a ha)
  record := Set.insert_subset (n.ctx.roots i) h.used
  root := fun hin => h.apart _ hin i (Set.mem_insert _ _)
  held := Set.disjoint_left.mpr fun a ha hin => h.apart a hin i (Set.mem_insert_of_mem _ ha)

theorem Accounts.store (h : Accounts hhdmOffset root held n k A) {a : UInt64} (index : Fin 512)
    (value : UInt64) (hrule : a ∈ k.clients) :
    Accounts hhdmOffset root held (n.store (hhdmOffset + a) index value)
      { k with machine := k.machine.store (hhdmOffset + a) index value } A := by
  obtain ⟨hisolated, hpages⟩ := h.isolated.congr
    (n.store (hhdmOffset + a) index value) h.isolated.subset_handed (by
      intro i q hq
      have hne : hhdmOffset + q ≠ hhdmOffset + a := by
        intro heq
        exact h.apart a hrule i (add_left_cancel heq ▸ hq)
      exact Function.update_of_ne hne _ _)
  constructor
  case machine =>
    rw [← h.machine]
    rfl
  case isolated => exact hisolated
  case used => exact h.used
  case apart => exact h.apart
  case distinct => exact h.distinct
  case pages => exact fun i => (hpages i).trans (h.pages i)
  case frames => exact h.frames

theorem vmmStep_events {γ : Type} (space : VmmSpace UInt64 γ) (m : Machine UInt64 γ)
    (c : VmmCall) : (vmmStep space m c).2.events = (vmmStep space m c).1.events := by
  cases c with
  | map vaddr paddr flags => rfl
  | unmap vaddr => rfl
  | query vaddr out => rfl

variable [DecidableEq ι]

theorem Accounts.vmm (hoffset : 0 < hhdmOffset.toNat)
    (laws : SharedLaws (FrameStore.space hhdmOffset root) (hhdmOffset + ·) FrameStore.handed)
    (h : Accounts hhdmOffset root held n k A) (i : ι) (c : VmmCall) {r}
    (hr : vmmStep (FrameStore.space hhdmOffset root i) n c = r) :
    memoryStep hhdmOffset root k (.vmm i c) =
        some ({ k with machine := r.1.mapCtx FrameStore.pmm }, .vmm r.2) ∧
      MemoryAllows A (.vmm i c) (.vmm r.2) ∧
      Accounts hhdmOffset root (holdAt held i r.2) r.1
        { k with machine := r.1.mapCtx FrameStore.pmm } (memoryAfter A (.vmm i c) (.vmm r.2)) := by
  have hstep := (FrameStore.follows hoffset i).step (laws.record i) (h.isolated.owned i) c
  obtain ⟨hisolated, hafter, hother⟩ := h.isolated.step laws i c
  obtain ⟨haside, -⟩ := (h.aside i).step (laws.record i) (h.isolated.owned i) c
  obtain ⟨-, hheld, -⟩ := (h.isolated.owned i).step (laws.record i) c
  obtain ⟨hserves, hframes⟩ := (FrameStore.keeps_frames hhdmOffset root i
    n.ctx.frames).step (m := n) ⟨trivial, rfl⟩ c
  have hallows := (vmmStep_explained (laws.callbacks i) (h.isolated.represents i) c).1
  rw [← vmmStep_events] at hserves hframes
  have hmachine : k.machine.mapCtx some = n.mapCtx (fun c => some c.pmm) := by
    rw [← h.machine]
    rfl
  rw [← hmachine] at hstep
  rw [h.pages i] at hallows hafter
  rw [h.frames] at hserves hframes
  rw [hr] at *
  use by rw [memoryStep, hstep]; rfl, ⟨hallows, hserves⟩
  constructor
  case machine => rfl
  case isolated => exact hisolated
  case used => exact fun a ha => haside.mem_handed ha
  case apart =>
    intro a ha j
    by_cases hj : j = i
    · subst hj
      rw [tableFrames, holdAt, Function.update_self, ← hheld]
      intro hin
      rcases hin with heq | hin
      · exact haside.root (heq ▸ ha)
      · exact Set.disjoint_left.mp haside.held hin ha
    · rw [tableFrames_holdAt_of_ne hj]
      exact h.apart a ha j
  case distinct => exact h.distinct
  case pages =>
    intro j
    simp only [memoryAfter, Function.update_apply]
    split_ifs with hj
    · subst hj
      exact hafter
    · exact (hother j hj).trans (h.pages j)
  case frames => exact hframes.symm

theorem Accounts.pmm (h : Accounts hhdmOffset root held n k A) (c : PmmCall)
    (hrule : ClientRule (ι := ι) k (.pmm c)) :
    ∃ ctx : FrameStore hhdmOffset root, ctx.frames = (n.ctx.frames.step c).1 ∧
      memoryStep hhdmOffset root k (.pmm c) =
        some (⟨{ k.machine with ctx := ctx.pmm },
          clientsAfter k.clients c (n.ctx.frames.step c).2⟩, .pmm (n.ctx.frames.step c).2) ∧
      MemoryAllows A (.pmm c) (.pmm (n.ctx.frames.step c).2) ∧
      Accounts hhdmOffset root held { n with ctx := ctx }
        ⟨{ k.machine with ctx := ctx.pmm }, clientsAfter k.clients c (n.ctx.frames.step c).2⟩
        (memoryAfter A (.pmm c) (.pmm (n.ctx.frames.step c).2)) := by
  -- a client never gives back a table
  have hkeep : ∀ i, ∀ a ∈ tableFrames (FrameStore.space hhdmOffset root) held i,
      c ≠ .freeFrame a := by
    intro i a ha heq
    subst heq
    exact h.apart a hrule i ha
  obtain ⟨ctx, hctx, hstep⟩ := n.ctx.pmmStep_eq fun i => hkeep i _ (Set.mem_insert _ _)
  have hmachine : k.machine.ctx = n.ctx.pmm := by
    rw [← h.machine]
    rfl
  have hrecord : ∀ i, tableFrames (FrameStore.space hhdmOffset root) held i ⊆
      FrameStore.handed ctx := by
    intro i a ha
    have hused : n.ctx.frames.Used a := h.isolated.subset_handed i ha
    rw [FrameStore.handed, Set.mem_ofPred_eq, hctx]
    exact hused.step (hkeep i a ha)
  obtain ⟨hisolated, hpages⟩ := h.isolated.congr { n with ctx := ctx } hrecord
    (fun _ _ _ => rfl)
  obtain ⟨hclients, hdistinct⟩ := clientsAfter_spec n.ctx.below h.used
    (T := ⋃ i, tableFrames (FrameStore.space hhdmOffset root) held i)
    (fun a ha => (Set.mem_iUnion.mp ha).elim fun i hi => h.isolated.subset_handed i hi)
    (fun a ha hin => (Set.mem_iUnion.mp hin).elim (h.apart a ha)) h.distinct c
  have hreply : (n.ctx.frames.step c).2 = (A.frames.step c).2 := by rw [h.frames]
  use ctx, hctx, by simp only [memoryStep, hmachine, hstep, Option.map_some], hreply
  constructor
  case machine =>
    rw [← h.machine]
    rfl
  case isolated => exact hisolated
  case used =>
    intro a ha
    dsimp only
    rw [hctx]
    exact (hclients a ha).1
  case apart => exact fun a ha i hin => (hclients a ha).2 (Set.mem_iUnion.mpr ⟨i, hin⟩)
  case distinct => exact hdistinct
  case pages => exact fun i => (hpages i).trans (h.pages i)
  case frames =>
    rw [h.frames] at hctx
    exact hctx

theorem Accounts.step (hoffset : 0 < hhdmOffset.toNat)
    (laws : SharedLaws (FrameStore.space hhdmOffset root) (hhdmOffset + ·)
      FrameStore.handed) (h : Accounts hhdmOffset root held n k A) (c : MemoryCall ι)
    (hrule : ClientRule k c) :
    ∃ k' reply, memoryStep hhdmOffset root k c = some (k', reply) ∧ MemoryAllows A c reply ∧
      ∃ held' n', Accounts hhdmOffset root held' n' k' (memoryAfter A c reply) := by
  cases c with
  | vmm i c =>
    obtain ⟨hstep, hallows, h'⟩ := h.vmm hoffset laws i c rfl
    exact ⟨_, _, hstep, hallows, _, _, h'⟩
  | pmm c =>
    obtain ⟨ctx, -, hstep, hallows, h'⟩ := h.pmm c hrule
    exact ⟨_, _, hstep, hallows, _, _, h'⟩
  | store a index value =>
    exact ⟨_, _, rfl, trivial, held, _, h.store index value hrule⟩

end Steps

/-- No frame has two owners: the tables of the spaces and the frames of the clients are pairwise
different, and the allocator takes none of them for free. -/
structure OneOwner (hhdmOffset : UInt64) (root : ι → UInt64) (k : MemoryState) : Prop where
  table : ∀ i (ρ : List (Fin 512)) a, ρ.length ≤ 3 →
    reach (link (hhdmOffset + ·) k.machine.tables) (root i) ρ = some a →
    pmmIsFrameFree k.machine.ctx a = some false ∧ a ∉ k.clients ∧
      ∀ j (σ : List (Fin 512)), σ.length ≤ 3 →
        reach (link (hhdmOffset + ·) k.machine.tables) (root j) σ = some a → j = i
  client : ∀ a ∈ k.clients, pmmIsFrameFree k.machine.ctx a = some false
  distinct : k.clients.Nodup

theorem Accounts.oneOwner {hhdmOffset : UInt64} {root : ι → UInt64} {held : ι → Set UInt64}
    {n : Machine UInt64 (FrameStore hhdmOffset root)} {k : MemoryState} {A : MemorySpec ι}
    (h : Accounts hhdmOffset root held n k A) : OneOwner hhdmOffset root k := by
  have htables : k.machine.tables = n.tables := by
    rw [← h.machine]
    rfl
  have hused : ∀ a, n.ctx.frames.Used a → pmmIsFrameFree k.machine.ctx a = some false := by
    intro a ha
    rw [← h.machine]
    refine (pmmIsFrameFree_eq n.ctx.refines.rep n.ctx.refines.init a false).trans ?_
    rw [decide_eq_false (fun hin => ha.2.2 hin.2)]
  have howner : ∀ {i} {ρ : List (Fin 512)} {a}, ρ.length ≤ 3 →
      reach (link (hhdmOffset + ·) n.tables) (root i) ρ = some a →
      a ∈ tableFrames (FrameStore.space hhdmOffset root) held i :=
    fun hρ hp => ((h.isolated.owned _).tree.frames _ _ hρ hp).imp_right And.right
  constructor
  case table =>
    intro i ρ a hρ ha
    rw [htables] at ha ⊢
    have hin := howner hρ ha
    use hused a (h.isolated.subset_handed i hin), fun hc => h.apart a hc i hin
    intro j σ hσ hj
    by_contra hne
    exact h.isolated.no_shared_table (Ne.symm hne) hρ hσ ha hj
  case client => exact fun a ha => hused a (h.used a ha)
  case distinct => exact h.distinct

theorem accounts_of_zeroed_roots {hhdmOffset : UInt64} {root : ι → UInt64}
    (ctx : FrameStore hhdmOffset root) (hinj : Function.Injective root) {tables : Tables UInt64}
    (hzero : ∀ i j, tables (hhdmOffset + root i) j = 0) :
    Accounts hhdmOffset root (fun _ => ∅) ⟨tables, ctx, []⟩ ⟨⟨tables, ctx.pmm, []⟩, []⟩
      ⟨fun _ _ => none, ctx.frames⟩ where
  machine := rfl
  isolated := isolated_of_zeroed_roots hinj ctx.roots hzero
  used := fun _ ha => absurd ha List.not_mem_nil
  apart := fun _ ha => absurd ha List.not_mem_nil
  distinct := List.nodup_nil
  pages := fun i => (owned_of_zeroed_root FrameStore.handed (hzero i)).2
  frames := rfl

/-- From zeroed roots in frames that are in use, no interleaving of page-table calls, allocator
calls and client writes faults. The answers are those of independent page maps over one set of
free frames, and no frame ever has two owners. -/
theorem kernel_memory_sound [DecidableEq ι] {hhdmOffset : UInt64}
    (hoffset : 0 < hhdmOffset.toNat) {root : ι → UInt64}
    (hinj : Function.Injective root) {pmm : PmmState} {s : FrameSet} (hpmm : Refines pmm s)
    (hbelow : s.count ≤ 2 ^ 40) (hmapped : hhdmOffset.toNat + 4096 * s.count ≤ 2 ^ 64)
    (hroots : ∀ i, s.Used (root i)) {tables : Tables UInt64}
    (hzero : ∀ i j, tables (hhdmOffset + root i) j = 0) {calls : List (MemoryCall ι)}
    (hrule : Along (memoryStep hhdmOffset root) ClientRule ⟨⟨tables, pmm, []⟩, []⟩ calls) :
    ∃ k replies, run (memoryStep hhdmOffset root) ⟨⟨tables, pmm, []⟩, []⟩ calls =
        some (k, replies) ∧
      Explained MemoryAllows memoryAfter ⟨fun _ _ => none, s⟩ calls replies ∧
      OneOwner hhdmOffset root k := by
  let ctx : FrameStore hhdmOffset root := ⟨pmm, s, hpmm, hbelow, hmapped, hroots⟩
  obtain ⟨k, replies, hrun, hexplained, held, n, hend⟩ := run_explained
    (fun k A => ∃ held n, Accounts hhdmOffset root held n k A) ClientRule
    (fun k A c h hc => h.elim fun held h => h.elim fun n h => h.step hoffset ctx.laws c hc)
    ⟨_, _, accounts_of_zeroed_roots ctx hinj hzero⟩ hrule
  exact ⟨k, replies, hrun, hexplained, hend.oneOwner⟩

def memoryPmm : PmmState :=
  { bitmap := [7, 0], bitmapBytes := 2, maxPhys := 0x10000, frameCount := 16, freeFrames := 13,
    usedFrames := 3, reservedFrames := 2, ignoredFrames := 0, nextHint := 0, initialized := true }

theorem memory_boots :
    pmmInitFromMap pmmZeroState (some [⟨0x1000, 0xF000, 1⟩, ⟨0x1000, 0x2000, 2⟩])
      (some [0, 0]) 2 0x10000 = some (true, memoryPmm) := by
  decide +kernel

def memoryRoot (second : Bool) : UInt64 := if second then 0x2000 else 0x1000

def memoryTables : Tables UInt64 := fun t _ =>
  if t = 0xFFFF800000001000 ∨ t = 0xFFFF800000002000 then 0 else 0xA5A5A5A5A5A5A5A5

def memoryCalls : List (MemoryCall Bool) :=
  [.vmm false (.map 0x400000 0x7000 2), .pmm .allocFrame, .store 0x6000 (idxPt 0) 1,
    .vmm true (.map 0x400000 0x8000 2), .pmm (.freeFrame 0x6000), .pmm .freeCount]

theorem kernel_memory_sound_pair :
    pmmInitFromMap pmmZeroState (some [⟨0x1000, 0xF000, 1⟩, ⟨0x1000, 0x2000, 2⟩])
        (some [0, 0]) 2 0x10000 = some (true, memoryPmm) ∧
      ∃ k replies, run (memoryStep 0xFFFF800000000000 memoryRoot)
          ⟨⟨memoryTables, memoryPmm, []⟩, []⟩ memoryCalls = some (k, replies) ∧
        Explained MemoryAllows memoryAfter ⟨fun _ _ => none, bootFrameSet memoryPmm⟩ memoryCalls
          replies ∧
        OneOwner 0xFFFF800000000000 memoryRoot k :=
  ⟨memory_boots, kernel_memory_sound (by decide) (by decide)
    (refines_of_init (by intro bytes h; cases h; decide) memory_boots) (by decide) (by decide)
    (fun second => by cases second <;> decide +kernel)
    (fun second j => by cases second <;> rfl) (by decide +kernel)⟩

end Mcsos.KernelMemory
