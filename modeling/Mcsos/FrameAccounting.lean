import Mcsos.KernelMemory
import Mcsos.VmmFootprint

/-!
# What the page tables cost

Every frame that the allocator manages is free, reserved, a page table or a client's, and no call
loses one. The tables of a space are as many as there are regions of 512 GiB, 1 GiB and 2 MiB
that its map requests have touched; unmapping gives nothing back.
-/

namespace Mcsos.Pmm

theorem FrameSet.alloc_invalid_iff (s : FrameSet) (hbelow : s.count ≤ 2 ^ 40) :
    s.alloc.2 = pmmInvalidFrame ↔ s.free = ∅ := by
  rcases s.alloc_cases with ⟨heq, hempty⟩ | ⟨f, hf, haddr, -, -⟩
  · exact ⟨fun _ => hempty, fun _ => congrArg Prod.snd heq⟩
  · have hlt := s.below f hf
    have hval : pmmInvalidFrame.toNat = 2 ^ 64 - 1 := rfl
    constructor
    · intro heq
      rw [haddr] at heq
      have hnat := congrArg UInt64.toNat heq
      rw [WordArithmetic.toNat_ofNat_of_lt (by omega)] at hnat
      omega
    · intro hempty
      rw [hempty] at hf
      exact absurd hf (Finset.notMem_empty f)

theorem FrameSet.alloc_of_empty (s : FrameSet) (h : s.free = ∅) : s.alloc.1 = s := by
  rcases s.alloc_cases with ⟨heq, -⟩ | ⟨f, hf, -, -, -⟩
  · exact congrArg Prod.fst heq
  · rw [h] at hf
    exact absurd hf (Finset.notMem_empty f)

theorem FrameSet.alloc_card (s : FrameSet) (h : s.alloc.2 ≠ pmmInvalidFrame) :
    s.alloc.1.free.card + 1 = s.free.card := by
  rcases s.alloc_cases with ⟨heq, -⟩ | ⟨f, hf, -, -, hfree⟩
  · exact absurd (congrArg Prod.snd heq) h
  · rw [hfree]
    exact Finset.card_erase_add_one hf

theorem FrameSet.giveBack_card (s : FrameSet) {a : UInt64} (hused : s.Used a) (hne : a ≠ 0) :
    (s.giveBack a).1.free = insert (a.toNat / 4096) s.free ∧
      (s.giveBack a).1.free.card = s.free.card + 1 := by
  obtain ⟨haligned, hbelow, hnot⟩ := hused
  have hreturnable : s.Returnable a :=
    ⟨haligned, fun heq => hne ((WordArithmetic.eq_zero_iff a).mpr heq), hbelow, hnot⟩
  simp only [FrameSet.giveBack, hreturnable, ↓reduceDIte, true_and]
  exact Finset.card_insert_of_notMem hnot

theorem FrameSet.alloc_ne_zero (s : FrameSet) (hbelow : s.count ≤ 2 ^ 40) (hzero : 0 ∉ s.free) :
    s.alloc.2 ≠ 0 ∧ 0 ∉ s.alloc.1.free := by
  rcases s.alloc_cases with ⟨heq, -⟩ | ⟨f, hf, haddr, -, hfree⟩
  · rw [heq]
    exact ⟨(by decide : pmmInvalidFrame ≠ 0), hzero⟩
  · have hlt := s.below f hf
    have hpos : f ≠ 0 := fun heq => hzero (heq ▸ hf)
    rw [haddr, hfree, Ne, WordArithmetic.eq_zero_iff,
      WordArithmetic.toNat_ofNat_of_lt (by omega)]
    exact ⟨by omega, fun hin => hzero (Finset.mem_of_mem_erase hin)⟩

theorem FrameSet.giveBack_zero (s : FrameSet) {a : UInt64} (hused : s.Used a) (hne : a ≠ 0)
    (hzero : 0 ∉ s.free) : 0 ∉ (s.giveBack a).1.free := by
  rw [(s.giveBack_card hused hne).1]
  intro hin
  rcases Finset.mem_insert.mp hin with heq | hin
  · have haligned := hused.1
    apply hne
    rw [WordArithmetic.eq_zero_iff]
    omega
  · exact hzero hin

end Mcsos.Pmm

namespace Mcsos.KernelMemory
open Vmm Pmm RadixTree StepRun WordArithmetic

variable {ι : Type} {hhdmOffset : UInt64} {root : ι → UInt64}

structure Sums (c : FrameStore hhdmOffset root) (H : Set UInt64) (total : ℕ) : Prop where
  zero : 0 ∉ c.frames.free
  record : H ⊆ FrameStore.handed c
  finite : H.Finite
  sum : c.frames.free.card + H.ncard = total

section Sums

variable {c : FrameStore hhdmOffset root} {H : Set UInt64} {total : ℕ}

theorem Sums.alloc (h : Sums c H total) :
    Sums c.alloc.2 (hold H (.allocated c.alloc.1)) total := by
  obtain ⟨hne, hzero⟩ := c.frames.alloc_ne_zero c.below h.zero
  have hkeep : H ⊆ FrameStore.handed c.alloc.2 :=
    fun a ha => FrameSet.Used.step (h.record ha) (c := .allocFrame) (by simp)
  rw [hold]
  split_ifs with hinvalid
  · have hempty := (c.frames.alloc_invalid_iff c.below).mp hinvalid
    have hsame : c.alloc.2.frames = c.frames := c.frames.alloc_of_empty hempty
    exact ⟨hzero, hkeep, h.finite, hsame ▸ h.sum⟩
  · obtain ⟨hnot, hused⟩ := c.alloc_fresh hinvalid
    have hout : c.alloc.1 ∉ H := fun hin => hnot (h.record hin)
    have hcard : c.alloc.2.frames.free.card + 1 = c.frames.free.card :=
      c.frames.alloc_card hinvalid
    have hsum := h.sum
    refine ⟨hzero, Set.insert_subset hused hkeep, h.finite.insert _, ?_⟩
    rw [Set.ncard_insert_of_notMem hout h.finite]
    omega

theorem Sums.giveBack (h : Sums c H total) (hgood : c.alloc.1 ≠ vmmInvalidPhys) :
    Sums (c.alloc.2.giveBack c.alloc.1) H total := by
  obtain ⟨hne, hzero⟩ := c.frames.alloc_ne_zero c.below h.zero
  obtain ⟨hnot, hused⟩ := c.alloc_fresh hgood
  have hcard : c.alloc.2.frames.free.card + 1 = c.frames.free.card := c.frames.alloc_card hgood
  have hframes : (c.alloc.2.giveBack c.alloc.1).frames =
      (c.alloc.2.frames.giveBack c.alloc.1).1 := by
    rw [FrameStore.giveBack, dif_neg (c.alloc_not_root hgood)]
  have hback := (c.alloc.2.frames.giveBack_card hused hne).2
  have hsum := h.sum
  constructor
  case zero =>
    rw [hframes]
    exact c.alloc.2.frames.giveBack_zero hused hne hzero
  case record =>
    intro a ha
    have hother : a ≠ c.alloc.1 := fun heq => hnot (heq ▸ h.record ha)
    rw [FrameStore.handed, Set.mem_ofPred_eq, hframes]
    apply FrameSet.Used.step (c := .freeFrame c.alloc.1)
    · exact FrameSet.Used.step (h.record ha) (c := .allocFrame) (by simp)
    · exact fun heq => hother (PmmCall.freeFrame.inj heq).symm
  case finite => exact h.finite
  case sum =>
    rw [hframes]
    omega

end Sums

theorem keeps_sums (hhdmOffset : UInt64) (root : ι → UInt64) (i : ι) (start : Set UInt64)
    (total : ℕ) :
    Keeps (FrameStore.space hhdmOffset root i) (fun m => Sums m.ctx (m.held start) total) where
  alloc := by
    intro m m₁ f c hf hcall hm
    cases hf
    rw [Machine.held_callAlloc hcall]
    obtain ⟨rfl, rfl⟩ := Prod.mk.inj hcall
    exact hm.alloc
  free := by
    intro m m₁ f g c hf hcall hgood hg hm
    cases hf
    cases hg
    have hnot : c ∉ m.held start := by
      obtain ⟨rfl, rfl⟩ := Prod.mk.inj hcall
      exact fun hin => (m.ctx.alloc_fresh hgood).1 (hm.record hin)
    rw [Machine.held_callFree hcall hgood hnot]
    obtain ⟨rfl, rfl⟩ := Prod.mk.inj hcall
    exact hm.giveBack hgood
  store := fun _ _ _ hm => hm
  invalidate := by
    intro m v hm
    have hheld : (vmmInvalidatePage m v).held start = m.held start :=
      Machine.held_of_events (e := .invalidated v) rfl
    rw [hheld]
    exact hm

theorem clientsAfter_length {s : FrameSet} (hbelow : s.count ≤ 2 ^ 40) (hzero : 0 ∉ s.free)
    {clients : List UInt64} (hused : ∀ a ∈ clients, s.Used a) (hne : ∀ a ∈ clients, a ≠ 0)
    {c : PmmCall} (hrule : ∀ a, c = .freeFrame a → a ∈ clients)
    (hreserve : ∀ base length, c ≠ .reserveRange base length) :
    0 ∉ (s.step c).1.free ∧ (∀ a ∈ clientsAfter clients c (s.step c).2, a ≠ 0) ∧
      (s.step c).1.free.card + (clientsAfter clients c (s.step c).2).length =
        s.free.card + clients.length := by
  cases c with
  | allocFrame =>
    obtain ⟨hne', hzero'⟩ := s.alloc_ne_zero hbelow hzero
    have hafter : clientsAfter clients .allocFrame (s.step .allocFrame).2 =
        if s.alloc.2 = pmmInvalidFrame then clients else s.alloc.2 :: clients := rfl
    have hfree : (s.step .allocFrame).1 = s.alloc.1 := rfl
    rw [hafter, hfree]
    use hzero'
    split_ifs with hinvalid
    · rw [s.alloc_of_empty ((s.alloc_invalid_iff hbelow).mp hinvalid)]
      exact ⟨hne, rfl⟩
    · have hcard := s.alloc_card hinvalid
      constructor
      · intro a ha
        rcases List.mem_cons.mp ha with rfl | ha
        · exact hne'
        · exact hne a ha
      · rw [List.length_cons]
        omega
  | freeFrame b =>
    have hb := hrule b rfl
    have hcard := (s.giveBack_card (hused b hb) (hne b hb)).2
    have hlength := List.length_erase_of_mem hb
    have hpos := List.length_pos_of_mem hb
    have hafter : clientsAfter clients (.freeFrame b) (s.step (.freeFrame b)).2 =
        clients.erase b := rfl
    have hfree : (s.step (.freeFrame b)).1 = (s.giveBack b).1 := rfl
    rw [hafter, hfree]
    use s.giveBack_zero (hused b hb) (hne b hb) hzero,
      fun a ha => hne a (List.mem_of_mem_erase ha)
    omega
  | reserveRange base length => exact absurd rfl (hreserve base length)
  | isFrameFree b => exact ⟨hzero, hne, rfl⟩
  | freeCount => exact ⟨hzero, hne, rfl⟩
  | usedCount => exact ⟨hzero, hne, rfl⟩

variable {held : ι → Set UInt64} {n : Machine UInt64 (FrameStore hhdmOffset root)}
  {k : MemoryState} {A : MemorySpec ι}

def tablesBelow (root : UInt64) (virt : UInt64 → UInt64) (tables : Tables UInt64) : Set UInt64 :=
  { a | ∃ ρ : List (Fin 512), ρ ≠ [] ∧ ρ.length ≤ 3 ∧ reach (link virt tables) root ρ = some a }

theorem Accounts.tablesBelow_eq (h : Accounts hhdmOffset root held n k A) (i : ι) :
    tablesBelow (root i) (hhdmOffset + ·) k.machine.tables = held i := by
  have htables : k.machine.tables = n.tables := by
    rw [← h.machine]
    rfl
  have howned := h.isolated.owned i
  ext a
  rw [htables]
  constructor
  · intro ha
    obtain ⟨ρ, hne, hρ, hreach⟩ := ha
    exact howned.tree.held_of_path hne hρ hreach
  · exact howned.used (Option.some_ne_none _) a

section Balance

variable [Fintype ι]

/-- The free frames, the tables of all spaces and the frames of the clients. -/
structure Balanced (held : ι → Set UInt64) (n : Machine UInt64 (FrameStore hhdmOffset root))
    (k : MemoryState) (total : ℕ) : Prop where
  zero : 0 ∉ n.ctx.frames.free
  clients : ∀ a ∈ k.clients, a ≠ 0
  finite : ∀ i, (held i).Finite
  total : n.ctx.frames.free.card + ∑ i, (held i).ncard + k.clients.length = total

variable [DecidableEq ι]

theorem sum_ncard_update (held : ι → Set UInt64) (i : ι) (H : Set UInt64) :
    ∑ j, (Function.update held i H j).ncard =
      H.ncard + ∑ j ∈ Finset.univ.erase i, (held j).ncard := by
  rw [← Finset.add_sum_erase _ _ (Finset.mem_univ i), Function.update_self]
  congr 1
  apply Finset.sum_congr rfl
  intro j hj
  rw [Function.update_of_ne (Finset.ne_of_mem_erase hj)]

theorem Balanced.vmm {total : ℕ} (hbalance : Balanced held n k total)
    (h : Accounts hhdmOffset root held n k A)
    (laws : SharedLaws (FrameStore.space hhdmOffset root) (hhdmOffset + ·) FrameStore.handed)
    (i : ι) (c : VmmCall) {r} (hr : vmmStep (FrameStore.space hhdmOffset root i) n c = r) :
    Balanced (holdAt held i r.2) r.1 { k with machine := r.1.mapCtx FrameStore.pmm } total := by
  obtain ⟨-, hheld, -⟩ := (h.isolated.owned i).step (laws.record i) c
  have hstart : Sums n.ctx (held i) (n.ctx.frames.free.card + (held i).ncard) :=
    ⟨hbalance.zero, (h.isolated.owned i).record, hbalance.finite i, rfl⟩
  have hend := (keeps_sums hhdmOffset root i (held i) _).step (m := n) hstart c
  rw [hr] at hheld hend
  rw [hheld] at hend
  have hsum := hend.sum
  have htotal := hbalance.total
  have hbefore := sum_ncard_update held i (held i)
  rw [Function.update_eq_self] at hbefore
  constructor
  case zero => exact hend.zero
  case clients => exact hbalance.clients
  case finite =>
    intro j
    rw [holdAt, Function.update_apply]
    split_ifs
    · exact hend.finite
    · exact hbalance.finite j
  case total =>
    rw [holdAt, sum_ncard_update]
    dsimp only
    omega

theorem Balanced.step {total : ℕ} (hbalance : Balanced held n k total)
    (h : Accounts hhdmOffset root held n k A) (hoffset : 0 < hhdmOffset.toNat)
    {c : MemoryCall ι} (hrule : ClientRule k c)
    (hreserve : ∀ base length, c ≠ .pmm (.reserveRange base length)) :
    ∃ k' reply, memoryStep hhdmOffset root k c = some (k', reply) ∧
      ∃ held' n' A', Accounts hhdmOffset root held' n' k' A' ∧ Balanced held' n' k' total := by
  cases c with
  | vmm i c =>
    obtain ⟨hstep, -, h'⟩ := h.vmm hoffset n.ctx.laws i c rfl
    exact ⟨_, _, hstep, _, _, _, h', hbalance.vmm h n.ctx.laws i c rfl⟩
  | pmm c =>
    obtain ⟨ctx, hctx, hstep, -, h'⟩ := h.pmm c hrule
    have hclient : ∀ a, c = .freeFrame a → a ∈ k.clients := by
      intro a heq
      subst heq
      exact hrule
    obtain ⟨hzero, hne, hlength⟩ := clientsAfter_length n.ctx.below hbalance.zero h.used
      hbalance.clients hclient (fun base length heq => hreserve base length (heq ▸ rfl))
    rw [← hctx] at hzero hlength
    have htotal := hbalance.total
    refine ⟨_, _, hstep, _, _, _, h', hzero, hne, hbalance.finite, ?_⟩
    dsimp only
    omega
  | store a index value =>
    exact ⟨_, _, rfl, _, _, _, h.store index value hrule,
      ⟨hbalance.zero, hbalance.clients, hbalance.finite, hbalance.total⟩⟩

/-- No frame is lost: after every interleaving of calls, the free frames, the page tables of all
spaces and the frames of the clients are as many as the free frames at the start. -/
theorem frames_conserved (hoffset : 0 < hhdmOffset.toNat) (hinj : Function.Injective root)
    {pmm : PmmState} {s : FrameSet} (hpmm : Refines pmm s) (hbelow : s.count ≤ 2 ^ 40)
    (hmapped : hhdmOffset.toNat + 4096 * s.count ≤ 2 ^ 64) (hroots : ∀ i, s.Used (root i))
    (hframe : 0 ∉ s.free) {tables : Tables UInt64}
    (hzero : ∀ i j, tables (hhdmOffset + root i) j = 0) {calls : List (MemoryCall ι)}
    (hrule : Along (memoryStep hhdmOffset root) ClientRule ⟨⟨tables, pmm, []⟩, []⟩ calls)
    (hreserve : ∀ base length, .pmm (.reserveRange base length) ∉ calls) :
    ∃ k replies, run (memoryStep hhdmOffset root) ⟨⟨tables, pmm, []⟩, []⟩ calls =
        some (k, replies) ∧
      (pmmFreeCount k.machine.ctx).toNat +
          ∑ i, (tablesBelow (root i) (hhdmOffset + ·) k.machine.tables).ncard +
          k.clients.length = (pmmFreeCount pmm).toNat := by
  let ctx : FrameStore hhdmOffset root := ⟨pmm, s, hpmm, hbelow, hmapped, hroots⟩
  have hcount : ∀ (q : PmmState) (t : FrameSet), Refines q t →
      (pmmFreeCount q).toNat = t.free.card := fun q t h => h.rep.free_count
  have hstart : Balanced (fun _ => ∅) ⟨tables, ctx, []⟩ ⟨⟨tables, pmm, []⟩, []⟩
      (pmmFreeCount pmm).toNat := by
    refine ⟨hframe, fun a ha => absurd ha List.not_mem_nil, fun _ => Set.finite_empty, ?_⟩
    simp only [Set.ncard_empty, Finset.sum_const_zero, List.length_nil, add_zero]
    exact (hcount pmm s hpmm).symm
  obtain ⟨k, replies, hrun, held, n, A, haccounts, hbalance⟩ := run_total_along
    (fun k => ∃ held n A, Accounts hhdmOffset root held n k A ∧
      Balanced held n k (pmmFreeCount pmm).toNat)
    (fun k c => ClientRule k c ∧ ∀ base length, c ≠ .pmm (.reserveRange base length))
    (by
      intro k c hk hc
      obtain ⟨held, n, A, haccounts, hbalance⟩ := hk
      exact hbalance.step haccounts hoffset hc.1 hc.2)
    ⟨_, _, _, accounts_of_zeroed_roots ctx hinj hzero, hstart⟩
    (hrule.mono fun k c hc hclient =>
      ⟨hclient, fun base length heq => hreserve base length (heq ▸ hc)⟩)
  have hmachine : k.machine.ctx = n.ctx.pmm := by
    rw [← haccounts.machine]
    rfl
  use k, replies, hrun
  simp only [haccounts.tablesBelow_eq, hmachine, hcount _ _ n.ctx.refines]
  exact hbalance.total

end Balance

theorem frames_conserved_pair :
    ∃ k replies, run (memoryStep 0xFFFF800000000000 memoryRoot)
        ⟨⟨memoryTables, memoryPmm, []⟩, []⟩ memoryCalls = some (k, replies) ∧
      (pmmFreeCount k.machine.ctx).toNat +
          ∑ i, (tablesBelow (memoryRoot i) (0xFFFF800000000000 + ·) k.machine.tables).ncard +
          k.clients.length = (pmmFreeCount memoryPmm).toNat :=
  frames_conserved (by decide) (by decide)
    (refines_of_init (by intro bytes h; cases h; decide) memory_boots) (by decide) (by decide)
    (fun second => by cases second <;> decide +kernel) (by decide +kernel)
    (fun second j => by cases second <;> rfl) (by decide +kernel)
    (fun base length => by simp [memoryCalls])

def MemoryCall.paths [DecidableEq ι] (i : ι) : MemoryCall ι → List (List (Fin 512))
  | .vmm j c => if j = i then callPaths c else []
  | .pmm _ => []
  | .store _ _ _ => []

def touched [DecidableEq ι] (i : ι) (calls : List (MemoryCall ι)) : Finset (List (Fin 512)) :=
  (calls.flatMap (MemoryCall.paths i)).toFinset

def MemoryReply.Nomem : MemoryReply → Prop
  | .vmm r => r.code = vmmErrNomem
  | .pmm _ => False
  | .stored => False

def MemoryState.paths (hhdmOffset : UInt64) (root : ι → UInt64) (k : MemoryState) (i : ι) :
    Set (List (Fin 512)) :=
  tablePaths (root i) (hhdmOffset + ·) k.machine.tables

section Footprint

theorem Accounts.paths_of_untouched (h : Accounts hhdmOffset root held n k A) (i : ι)
    (tables : Tables UInt64)
    (hsame : ∀ q ∈ tableFrames (FrameStore.space hhdmOffset root) held i,
      tables (hhdmOffset + q) = n.tables (hhdmOffset + q)) :
    tablePaths (root i) (hhdmOffset + ·) tables = k.paths hhdmOffset root i := by
  rw [MemoryState.paths, ← h.machine]
  ext ρ
  apply and_congr_right
  intro hρ
  have hreach : reach (link (hhdmOffset + ·) tables) (root i) ρ =
      reach (link (hhdmOffset + ·) n.tables) (root i) ρ :=
    (h.isolated.owned i).tree.reach_eq hsame hρ
  rw [hreach]
  rfl

theorem Accounts.ncard_tablesBelow (h : Accounts hhdmOffset root held n k A) (i : ι) :
    (tablesBelow (root i) (hhdmOffset + ·) k.machine.tables).ncard =
      (k.paths hhdmOffset root i \ {[]}).ncard := by
  have hsep : Separated (link (hhdmOffset + ·) k.machine.tables) (root i) 3 := by
    rw [← h.machine]
    exact (h.isolated.owned i).tree.separated
  have himage : tablesBelow (root i) (hhdmOffset + ·) k.machine.tables =
      (fun ρ => (reach (link (hhdmOffset + ·) k.machine.tables) (root i) ρ).getD 0) ''
        (k.paths hhdmOffset root i \ {[]}) := by
    ext a
    constructor
    · intro ha
      obtain ⟨ρ, hne, hρ, hreach⟩ := ha
      exact ⟨ρ, ⟨⟨hρ, by rw [hreach]; rfl⟩, hne⟩, by simp only [hreach, Option.getD_some]⟩
    · intro ha
      obtain ⟨ρ, ⟨⟨hρ, hsome⟩, hne⟩, rfl⟩ := ha
      obtain ⟨a, hreach⟩ := Option.isSome_iff_exists.mp hsome
      exact ⟨ρ, hne, hρ, by simp only [hreach, Option.getD_some]⟩
  rw [himage]
  apply Set.InjOn.ncard_image
  intro ρ hρ σ hσ heq
  obtain ⟨a, ha⟩ := Option.isSome_iff_exists.mp hρ.1.2
  obtain ⟨b, hb⟩ := Option.isSome_iff_exists.mp hσ.1.2
  simp only [ha, hb, Option.getD_some] at heq
  exact hsep ρ σ a hρ.1.1 hσ.1.1 ha (heq ▸ hb)

theorem paths_of_zeroed_root {k : MemoryState} {i : ι}
    (hzero : ∀ j, k.machine.tables (hhdmOffset + root i) j = 0) :
    k.paths hhdmOffset root i = {[]} := by
  ext ρ
  cases ρ with
  | nil => exact ⟨fun _ => rfl, fun _ => ⟨Nat.zero_le 3, rfl⟩⟩
  | cons j ρ =>
    have hlink : link (hhdmOffset + ·) k.machine.tables (root i) j = none := by
      rw [link, hzero j, if_pos UInt64.zero_and]
    constructor
    · intro hρ
      have hsome := hρ.2
      rw [reach, hlink] at hsome
      cases hsome
    · exact fun heq => absurd heq (List.cons_ne_nil j ρ)

theorem passed_ne_nil {π path ρ : List (Fin 512)} (h : ρ ∈ passed π path) : ρ ≠ [] := by
  induction path generalizing π with
  | nil => exact absurd h List.not_mem_nil
  | cons i path ih =>
    rcases List.mem_cons.mp h with rfl | h
    · exact List.append_ne_nil_of_right_ne_nil π (List.cons_ne_nil _ _)
    · exact ih h

variable [DecidableEq ι]

theorem nil_notMem_touched (i : ι) (calls : List (MemoryCall ι)) : [] ∉ touched i calls := by
  rw [touched, List.mem_toFinset, List.mem_flatMap]
  intro h
  obtain ⟨c, -, hc⟩ := h
  cases c with
  | vmm j c =>
    rw [MemoryCall.paths] at hc
    split_ifs at hc
    · cases c with
      | map vaddr paddr flags =>
        rw [callPaths] at hc
        split_ifs at hc
        · exact List.not_mem_nil hc
        · exact passed_ne_nil hc rfl
      | unmap vaddr => exact List.not_mem_nil hc
      | query vaddr out => exact List.not_mem_nil hc
    · exact List.not_mem_nil hc
  | pmm c => exact List.not_mem_nil hc
  | store a index value => exact List.not_mem_nil hc

def Grows (P P' : Set (List (Fin 512))) (l : List (List (Fin 512))) (nomem : Prop) : Prop :=
  (P ⊆ P' ∧ P' ⊆ P ∪ { ρ | ρ ∈ l }) ∧ (¬ nomem → { ρ | ρ ∈ l } ⊆ P')

theorem Grows.refl (P : Set (List (Fin 512))) (nomem : Prop) : Grows P P [] nomem :=
  ⟨⟨subset_refl _, Set.subset_union_left⟩, fun _ _ hρ => absurd hρ List.not_mem_nil⟩

theorem Grows.trans {P P' P'' : Set (List (Fin 512))} {l l' : List (List (Fin 512))}
    {a b : Prop} (h : Grows P P' l a) (h' : Grows P' P'' l' b) :
    Grows P P'' (l ++ l') (a ∨ b) := by
  obtain ⟨⟨hmore, hless⟩, hall⟩ := h
  obtain ⟨⟨hmore', hless'⟩, hall'⟩ := h'
  refine ⟨⟨hmore.trans hmore', ?_⟩, ?_⟩
  · intro ρ hρ
    rcases hless' hρ with hin | hin
    · exact (hless hin).imp_right (fun hin => List.mem_append_left l' hin)
    · exact Or.inr (List.mem_append_right l hin)
  · intro hnot ρ hρ
    rcases List.mem_append.mp hρ with hin | hin
    · exact hmore' (hall (fun ha => hnot (Or.inl ha)) hin)
    · exact hall' (fun hb => hnot (Or.inr hb)) hin

theorem Accounts.grows (h : Accounts hhdmOffset root held n k A) (hoffset : 0 < hhdmOffset.toNat)
    {c : MemoryCall ι} (hrule : ClientRule k c) {k' : MemoryState} {reply : MemoryReply}
    (hstep : memoryStep hhdmOffset root k c = some (k', reply)) (i : ι) :
    Grows (k.paths hhdmOffset root i) (k'.paths hhdmOffset root i) (c.paths i)
      reply.Nomem := by
  cases c with
  | vmm j c =>
    obtain ⟨hstep', -, -⟩ := h.vmm hoffset n.ctx.laws j c rfl
    rw [hstep'] at hstep
    cases hstep
    rw [MemoryCall.paths]
    split_ifs with hji
    · subst hji
      have hpaths := (h.isolated.owned j).paths_step (n.ctx.laws.record j)
        (n.ctx.laws.callbacks j) c
      rw [MemoryState.paths, MemoryState.paths, ← h.machine]
      exact hpaths
    · obtain ⟨-, hsame⟩ := (h.isolated.aside n.ctx.laws hji).step (n.ctx.laws.record j)
        (h.isolated.owned j) c
      have hpaths := h.paths_of_untouched i _ hsame
      rw [← hpaths]
      exact Grows.refl _ _
  | pmm c =>
    obtain ⟨ctx, -, hstep', -, -⟩ := h.pmm c hrule
    rw [hstep'] at hstep
    cases hstep
    exact Grows.refl _ _
  | store a index value =>
    cases hstep
    have hpaths := h.paths_of_untouched i (n.store (hhdmOffset + a) index value).tables (by
      intro q hq
      have hne : hhdmOffset + q ≠ hhdmOffset + a := by
        intro heq
        exact h.apart a hrule i (add_left_cancel heq ▸ hq)
      exact Function.update_of_ne hne _ _)
    rw [← hpaths, MemoryState.paths, ← h.machine]
    exact Grows.refl _ _

theorem Accounts.run_grows (h : Accounts hhdmOffset root held n k A)
    (hoffset : 0 < hhdmOffset.toNat) {calls : List (MemoryCall ι)}
    (hrule : Along (memoryStep hhdmOffset root) ClientRule k calls) :
    ∃ k' replies, run (memoryStep hhdmOffset root) k calls = some (k', replies) ∧
      (∃ held' n' A', Accounts hhdmOffset root held' n' k' A') ∧
      ∀ i, Grows (k.paths hhdmOffset root i) (k'.paths hhdmOffset root i)
        (calls.flatMap (MemoryCall.paths i)) (∃ r ∈ replies, r.Nomem) := by
  induction calls generalizing k held n A with
  | nil => exact ⟨k, [], rfl, ⟨_, _, _, h⟩, fun i => Grows.refl _ _⟩
  | cons c calls ih =>
    obtain ⟨k₁, reply, hstep, -, held₁, n₁, h₁⟩ := h.step hoffset n.ctx.laws c hrule.1
    obtain ⟨k₂, replies, hrun, hend, hgrows⟩ := ih h₁ (hrule.2 k₁ reply hstep)
    refine ⟨k₂, reply :: replies, by simp only [run, hstep, hrun], hend, ?_⟩
    intro i
    have htrans := (h.grows hoffset hrule.1 hstep i).trans (hgrows i)
    rw [List.flatMap_cons]
    simp only [List.mem_cons, exists_eq_or_imp]
    exact htrans

/-- The tables of a space are at most as many as the regions of 512 GiB, 1 GiB and 2 MiB that its
map requests have touched, and exactly as many if no request was refused for lack of memory. -/
theorem page_tables_footprint (hoffset : 0 < hhdmOffset.toNat) (hinj : Function.Injective root)
    {pmm : PmmState} {s : FrameSet} (hpmm : Refines pmm s) (hbelow : s.count ≤ 2 ^ 40)
    (hmapped : hhdmOffset.toNat + 4096 * s.count ≤ 2 ^ 64) (hroots : ∀ i, s.Used (root i))
    {tables : Tables UInt64} (hzero : ∀ i j, tables (hhdmOffset + root i) j = 0)
    {calls : List (MemoryCall ι)}
    (hrule : Along (memoryStep hhdmOffset root) ClientRule ⟨⟨tables, pmm, []⟩, []⟩ calls) :
    ∃ k replies, run (memoryStep hhdmOffset root) ⟨⟨tables, pmm, []⟩, []⟩ calls =
        some (k, replies) ∧
      ∀ i, (tablesBelow (root i) (hhdmOffset + ·) k.machine.tables).ncard ≤
          (touched i calls).card ∧
        ((∀ r ∈ replies, ¬ r.Nomem) →
          (tablesBelow (root i) (hhdmOffset + ·) k.machine.tables).ncard =
            (touched i calls).card) := by
  let ctx : FrameStore hhdmOffset root := ⟨pmm, s, hpmm, hbelow, hmapped, hroots⟩
  obtain ⟨k, replies, hrun, ⟨held, n, A, hend⟩, hgrows⟩ :=
    (accounts_of_zeroed_roots ctx hinj hzero).run_grows hoffset hrule
  use k, replies, hrun
  intro i
  obtain ⟨⟨-, hless⟩, hall⟩ := hgrows i
  have hstart : MemoryState.paths hhdmOffset root ⟨⟨tables, ctx.pmm, []⟩, []⟩ i = {[]} :=
    paths_of_zeroed_root (hzero i)
  rw [hstart] at hless
  have hmem : ∀ ρ, ρ ∈ touched i calls ↔ ρ ∈ calls.flatMap (MemoryCall.paths i) :=
    fun ρ => List.mem_toFinset
  have hsub : k.paths hhdmOffset root i \ {[]} ⊆ ↑(touched i calls) := by
    intro ρ hρ
    exact (hmem ρ).mpr ((hless hρ.1).resolve_left hρ.2)
  rw [hend.ncard_tablesBelow i, ← Set.ncard_coe_finset]
  use Set.ncard_le_ncard hsub (Finset.finite_toSet _)
  intro hnomem
  apply congrArg Set.ncard
  apply hsub.antisymm
  intro ρ hρ
  use hall (fun hex => hex.elim fun r hr => hnomem r hr.1 hr.2) ((hmem ρ).mp hρ)
  intro heq
  rw [Set.mem_singleton_iff] at heq
  exact nil_notMem_touched i calls (heq ▸ hρ)

end Footprint

theorem page_tables_footprint_pair :
    (touched true memoryCalls).card = 3 ∧
    ∃ k replies, run (memoryStep 0xFFFF800000000000 memoryRoot)
        ⟨⟨memoryTables, memoryPmm, []⟩, []⟩ memoryCalls = some (k, replies) ∧
      ∀ i, (tablesBelow (memoryRoot i) (0xFFFF800000000000 + ·) k.machine.tables).ncard ≤
          (touched i memoryCalls).card ∧
        ((∀ r ∈ replies, ¬ r.Nomem) →
          (tablesBelow (memoryRoot i) (0xFFFF800000000000 + ·) k.machine.tables).ncard =
            (touched i memoryCalls).card) :=
  ⟨by decide, page_tables_footprint (by decide) (by decide)
    (refines_of_init (by intro bytes h; cases h; decide) memory_boots) (by decide) (by decide)
    (fun second => by cases second <;> decide +kernel)
    (fun second j => by cases second <;> rfl) (by decide +kernel)⟩

end Mcsos.KernelMemory
