import Mcsos.KmemRuns

/-!
# The shape of the block list

Two properties of the list of blocks hold throughout every run: no two neighbours are both free,
and the last block keeps more than 32 bytes. The first says that releasing everything leads back
to the single block of `kmem_init`. The second bounds the number of blocks by the size of the
arena, and with it decides when the iteration guard of `kmem_validate` can strike.
-/

namespace Mcsos.Kmem
open BoundedLoop ByteMemory WordArithmetic BlockList StepRun

theorem Rearranged.coalesced {bs bs' : List Block} (h : Rearranged bs bs') (hbs : Coalesced bs) :
    Coalesced bs' := by
  cases h with
  | same => exact hbs
  | taken hfits => exact coalesced_carve 48 32 _ hbs hfits.1
  | released hused => exact coalesced_release 48 hbs

theorem Rearranged.lastAbove {bs bs' : List Block} (h : Rearranged bs bs')
    (hbs : LastAbove 32 bs) : LastAbove 32 bs' := by
  cases h with
  | same => exact hbs
  | taken hfits => exact lastAbove_carve 48 hbs
  | released hused => exact lastAbove_release 48 hbs

theorem Seg.coalesced {m : Memory} {E prev a : ℕ} {bs : List Block} (h : Seg m E prev a bs)
    (hfinish : finish 48 a bs = E) (hE : E < 2 ^ 64) (hbs : Coalesced bs) :
    (headers a bs).IsChain (fun x y => ¬ (freeAt m x ≠ 0 ∧ freeAt m y ≠ 0)) := by
  induction bs generalizing prev a with
  | nil => exact List.isChain_nil
  | cons b bs ih =>
    have hle := le_finish 48 (a + 48 + b.size) bs
    have hfinish' : finish 48 (a + 48 + b.size) bs = E := hfinish
    have haddr : (UInt64.ofNat a).toNat = a := toNat_ofNat_of_lt (by omega)
    have hrest := ih h.2 hfinish' (List.isChain_of_isChain_cons hbs)
    cases bs with
    | nil => exact List.isChain_singleton _
    | cons c cs =>
      have hle' := add_hdr_le_finish 48 (a + 48 + b.size) (List.cons_ne_nil c cs)
      have hnext : (UInt64.ofNat (a + 48 + b.size)).toNat = a + 48 + b.size :=
        toNat_ofNat_of_lt (by omega)
      rw [headers_cons, headers_cons]
      apply List.isChain_cons_cons.mpr
      constructor
      · rw [freeAt, freeAt, haddr, hnext, h.1.free, h.2.1.free]
        exact (List.isChain_cons_cons.mp hbs).1
      · exact hrest

structure SingleFree (s : KmemState) : Prop where
  linked : Linked s.mem s.gHead [s.gHeapBase]
  free : freeAt s.mem s.gHeapBase ≠ 0
  size : (sizeAt s.mem s.gHeapBase).toNat = s.gHeapEnd.toNat - s.gHeapBase.toNat - 48

theorem Heap.singleFree {s : KmemState} {size : ℕ} (h : Heap s [⟨size, true⟩]) :
    SingleFree s := by
  have hcut : Cut s.mem _ _ [] ⟨size, true⟩ [] _ := h.tiled.cut
  have hlinked := h.exactTiling.linked
  have hfinish := h.tiled.finish
  rw [headers_cons, UInt64.ofNat_toNat] at hlinked
  constructor
  case linked => exact hlinked
  case free => exact hcut.header.free.mpr rfl
  case size =>
    rw [sizeAt]
    have hsize : (loadU64 s.mem (s.gHeapBase.toNat + 8)).toNat = size := hcut.header.size
    simp only [finish] at hfinish
    omega

theorem Consistent.singleFree {s : Session} {bs : List Block} (h : Consistent s bs)
    (hbs : Coalesced bs) (hlive : s.live = []) : SingleFree s.kmem := by
  have hfree : ∀ b ∈ bs, b.free = true := by
    intro b hb
    obtain ⟨pre, post, rfl⟩ := List.append_of_mem hb
    by_contra hused
    obtain ⟨e, he, -⟩ := h.handed _ ((mem_used 48).mpr
      ⟨mem_layout_cut 48 s.kmem.gHeapBase.toNat pre b post, Bool.eq_false_iff.mpr hused⟩)
    rw [hlive] at he
    exact absurd he List.not_mem_nil
  have hne : bs ≠ [] := by
    intro hnil
    have hproper := h.heap.tiled.proper
    have hfinish := h.heap.tiled.finish
    rw [hnil, finish] at hfinish
    omega
  obtain ⟨b, rfl, hb⟩ := hbs.eq_singleton hfree hne
  have hheap := h.heap
  obtain ⟨size, free⟩ := b
  cases hb
  exact hheap.singleFree

theorem along_of_no_write (s : Session) {calls : List KmemCall}
    (h : ∀ c ∈ calls, ∀ u, ClientRule u c) : Along Session.step ClientRule s calls :=
  (Along.trivial Session.step s calls).mono (fun u c hc _ => h c hc u)

theorem live_of_frees {s v : Session} {order : List UInt64} {replies : List KmemReply}
    (h : run Session.step s (order.map .free) = some (v, replies)) :
    ∀ e ∈ v.live, e ∈ s.live ∧ e.1 ∉ order := by
  induction order generalizing s replies with
  | nil =>
    cases h
    exact fun e he => ⟨he, List.not_mem_nil⟩
  | cons p order ih =>
    rw [List.map_cons, run] at h
    rcases hstep : s.step (.free p) with _ | ⟨t, r⟩
    · rw [hstep] at h
      cases h
    simp only [hstep] at h
    rcases hrest : run Session.step t (order.map .free) with _ | ⟨u, rs⟩
    · rw [hrest] at h
      cases h
    rw [hrest] at h
    cases h
    obtain ⟨r', -, hr'⟩ := Option.map_eq_some_iff.mp hstep
    cases hr'
    intro e he
    obtain ⟨hin, hnot⟩ := ih hrest e he
    obtain ⟨hlive, hne⟩ := List.mem_filter.mp hin
    exact ⟨hlive, List.not_mem_cons_of_ne_of_not_mem (of_decide_eq_true hne) hnot⟩

/-- In every state that is reached no two neighbours are both free, and when every live pointer
is freed, in any order, the block of `kmem_init` is back. -/
theorem heap_stays_coalesced {s t : KmemState} {base bytes : UInt64}
    (hinit : Initialised s base bytes t) {calls : List KmemCall}
    (hclient : Along Session.step ClientRule ⟨t, []⟩ calls) :
    SingleFree t ∧
    ∃ u replies hs, run Session.step ⟨t, []⟩ calls = some (u, replies) ∧
      Linked u.kmem.mem u.kmem.gHead hs ∧
      hs.IsChain (fun a b => ¬ (freeAt u.kmem.mem a ≠ 0 ∧ freeAt u.kmem.mem b ≠ 0)) ∧
      ∀ order : List UInt64, (∀ e ∈ u.live, e.1 ∈ order) →
        ∃ v replies', run Session.step u (order.map .free) = some (v, replies') ∧
          v.kmem.gHeapBase = t.gHeapBase ∧ v.kmem.gHeapEnd = t.gHeapEnd ∧
          SingleFree v.kmem := by
  obtain ⟨size, -, hstart⟩ := hinit.single
  use hstart.heap.singleFree
  obtain ⟨u, replies, hrun, ⟨bs, hcons, hbs⟩, hbase, hend⟩ :=
    run_arranged Coalesced (fun _ _ h => h.coalesced) ⟨_, hstart, List.isChain_singleton _⟩ hclient
  have htiled := hcons.heap.tiled
  use u, replies, headers u.kmem.gHeapBase.toNat bs, hrun, hcons.heap.exactTiling.linked,
    htiled.seg.coalesced htiled.finish htiled.bound hbs
  intro order horder
  have hfrees : Along Session.step ClientRule u (order.map .free) := by
    apply along_of_no_write
    intro c hc w
    obtain ⟨p, -, rfl⟩ := List.mem_map.mp hc
    trivial
  obtain ⟨v, replies', hrun', ⟨bs', hcons', hbs'⟩, hbase', hend'⟩ :=
    run_arranged Coalesced (fun _ _ h => h.coalesced) ⟨bs, hcons, hbs⟩ hfrees
  have hlive : v.live = [] := by
    apply List.eq_nil_iff_forall_not_mem.mpr
    intro e he
    obtain ⟨hold, hnot⟩ := live_of_frees hrun' e he
    exact hnot (horder e hold)
  exact ⟨v, replies', hrun', hbase'.trans hbase, hend'.trans hend, hcons'.singleFree hbs' hlive⟩

def holeCalls : List KmemCall := [.alloc 24, .calloc 2 8, .alloc 40, .free 4224]

theorem holeCalls_rule : Along Session.step ClientRule ⟨sampleHeap, []⟩ holeCalls := by
  decide +kernel

theorem holeCalls_live {u : Session} {replies : List KmemReply}
    (h : run Session.step ⟨sampleHeap, []⟩ holeCalls = some (u, replies)) :
    u.live = [(4288, 40), (4144, 24)] := by
  have hrun : (run Session.step ⟨sampleHeap, []⟩ holeCalls).map (fun r => r.1.live) =
      some [(4288, 40), (4144, 24)] := by decide +kernel
  rw [h] at hrun
  exact Option.some.inj hrun

theorem heap_stays_coalesced_sample :
    ∃ u replies v replies',
      run Session.step ⟨sampleHeap, []⟩ holeCalls = some (u, replies) ∧
      u.live.map Prod.fst = [4288, 4144] ∧
      run Session.step u ([4144, 4288].map .free) = some (v, replies') ∧ SingleFree v.kmem := by
  obtain ⟨-, u, replies, hs, hrun, -, -, hfrees⟩ :=
    heap_stays_coalesced sampleHeap_initialised holeCalls_rule
  have hlive := holeCalls_live hrun
  obtain ⟨v, replies', hrun', -, -, hsingle⟩ := hfrees [4144, 4288] (by simp [hlive])
  exact ⟨u, replies, v, replies', hrun, by rw [hlive]; rfl, hrun', hsingle⟩

theorem Tiled.end_mod {m : Memory} {B E : ℕ} {bs : List Block} (h : Tiled m B E bs) :
    E % 16 = 0 := by
  rw [← h.finish]
  exact finish_mod 48 (by decide) h.aligned (fun b hb => (h.shape b hb).1)

theorem Heap.length_le {s : KmemState} {bs : List Block} (h : Heap s bs) (hlast : LastAbove 32 bs)
    (hsmall : s.gHeapEnd.toNat - s.gHeapBase.toNat < 67108960) : bs.length ≤ 1048576 := by
  have hproper := h.tiled.proper
  have haligned := h.tiled.aligned
  have hend := h.tiled.end_mod
  by_cases hne : bs = []
  · rw [hne]
    exact Nat.zero_le _
  · have hcount := hlast.length_le 48 (a := s.gHeapBase.toNat) hne
      (fun b hb => (h.tiled.shape b hb).2)
    rw [h.tiled.finish] at hcount
    omega

theorem Heap.validate_eq_zero {s : KmemState} {bs : List Block} (h : Heap s bs)
    (hlast : LastAbove 32 bs) (hsmall : s.gHeapEnd.toNat - s.gHeapBase.toNat < 67108960) :
    kmemValidate s = some 0 := by
  rw [kmemValidate_spec h, if_pos (h.length_le hlast hsmall)]

theorem Consistent.free_eq_zero {s : Session} {bs : List Block} (h : Consistent s bs)
    (hlast : LastAbove 32 bs) (hsmall : s.kmem.gHeapEnd.toNat - s.kmem.gHeapBase.toNat < 67108960)
    {e : UInt64 × ℕ} (he : e ∈ s.live) : ∃ v, kmemFreeChecked s.kmem e.1 = some (0, v) := by
  obtain ⟨pre, c, post, rfl, hused, hptr, -⟩ := h.block_of_live he
  obtain ⟨m, hfree, hheap, -⟩ := kmemFreeChecked_used h.heap hused hptr
  rw [if_pos (hheap.length_le (lastAbove_release 48 hlast) hsmall)] at hfree
  exact ⟨_, hfree⟩

def filled (k r : ℕ) : List Block := List.replicate k ⟨16, false⟩ ++ [⟨r, true⟩]

theorem filled_length (k r : ℕ) : (filled k r).length = k + 1 := by
  rw [filled, List.length_append, List.length_replicate, List.length_singleton]

theorem filled_cut {k r : ℕ} {pre post : List Block} {b : Block}
    (h : filled k r = pre ++ b :: post) (hb : b.free = true) :
    pre = List.replicate k ⟨16, false⟩ ∧ b = ⟨r, true⟩ ∧ post = [] := by
  induction k generalizing pre with
  | zero =>
    cases pre with
    | nil =>
      obtain ⟨hhead, htail⟩ := List.cons.inj h
      exact ⟨rfl, hhead.symm, htail.symm⟩
    | cons c pre => exact absurd (List.cons.inj h).2 (by simp)
  | succ k ih =>
    cases pre with
    | nil =>
      obtain ⟨hhead, -⟩ := List.cons.inj h
      rw [← hhead] at hb
      cases hb
    | cons c pre =>
      obtain ⟨rfl, htail⟩ := List.cons.inj h
      obtain ⟨hpre, hrest⟩ := ih htail
      rw [hpre]
      exact ⟨rfl, hrest⟩

theorem Consistent.fill {s : Session} {k r : ℕ} (h : Consistent s (filled k r)) (hr : 96 < r) :
    ∃ t p, s.step (.alloc 1) = some (t, .pointer p) ∧ Consistent t (filled (k + 1) (r - 64)) := by
  rcases kmemAlloc_spec h.heap 1 with ⟨-, hrefused⟩ | ⟨pre, b, post, p, m, hcut, ht, halloc⟩
  · exfalso
    rcases hrefused with hzero | hbig | hnone
    · exact absurd hzero (by decide)
    · exact absurd hbig (by decide)
    · have hround : roundUp (1 : UInt64).toNat = 16 := by decide
      apply hnone ⟨r, true⟩ (List.mem_append_right _ (List.mem_singleton.mpr rfl))
      rw [hround]
      exact ⟨rfl, by simp only; omega⟩
  · obtain ⟨hpre, hb, hpost⟩ := filled_cut hcut ht.fits.1
    rw [hcut] at h
    obtain ⟨hcons, -⟩ := h.take ht
    have hcarve : carve 48 32 (roundUp (1 : UInt64).toNat) ⟨r, true⟩ =
        [⟨16, false⟩, ⟨r - 64, true⟩] := by
      have hround : roundUp (1 : UInt64).toNat = 16 := by decide
      rw [hround, carve, if_pos (by simp only; omega)]
      simp only [List.cons.injEq, Block.mk.injEq, and_true, true_and]
      omega
    have hblocks : pre ++ (carve 48 32 (roundUp (1 : UInt64).toNat) b ++ post) =
        filled (k + 1) (r - 64) := by
      rw [hpre, hb, hpost, hcarve, filled, List.replicate_succ', List.append_assoc]
      rfl
    rw [hblocks] at hcons
    refine ⟨_, p, ?_, hcons⟩
    simp only [Session.step, halloc, Option.map_some]

theorem run_fill {s : Session} {k r n : ℕ} (h : Consistent s (filled k r))
    (hr : 64 * n + 32 < r) :
    ∃ u replies, run Session.step s (List.replicate n (.alloc 1)) = some (u, replies) ∧
      Consistent u (filled (k + n) (r - 64 * n)) := by
  induction n generalizing s k r with
  | zero => exact ⟨s, [], rfl, h⟩
  | succ n ih =>
    obtain ⟨t, p, hstep, ht⟩ := h.fill (by omega)
    obtain ⟨u, replies, hrun, hu⟩ := ih ht (by omega)
    have hcount : k + 1 + n = k + (n + 1) := by omega
    have hrest : r - 64 - 64 * n = r - 64 * (n + 1) := by omega
    rw [hcount, hrest] at hu
    refine ⟨u, .pointer p :: replies, ?_, hu⟩
    rw [List.replicate_succ, run, hstep]
    simp only [hrun]

theorem Consistent.filled_rejected {s : Session} {k r : ℕ} (h : Consistent s (filled k r))
    (hk : 1048576 ≤ k) : kmemValidate s.kmem = some (-3) := by
  rw [kmemValidate_spec h.heap, filled_length, if_neg (by omega)]

theorem Consistent.filled_free_rejected {s : Session} {k r : ℕ}
    (h : Consistent s (filled (k + 2) r)) (hk : 1048576 ≤ k + 2) :
    ∃ e ∈ s.live, ∃ v, kmemFreeChecked s.kmem e.1 = some (-3, v) := by
  have hfirst : (s.kmem.gHeapBase.toNat, ⟨16, false⟩) ∈
      used 48 s.kmem.gHeapBase.toNat (filled (k + 2) r) :=
    (mem_used 48).mpr ⟨List.mem_cons_self, rfl⟩
  obtain ⟨e, he, hptr⟩ := h.handed _ hfirst
  have hheap : Heap s.kmem ([] ++ ⟨16, false⟩ :: filled (k + 1) r) := h.heap
  obtain ⟨m, hfree, -, -⟩ := kmemFreeChecked_used hheap rfl hptr
  have hrelease : release 48 [] ⟨16, false⟩ (filled (k + 1) r) =
      ⟨16, true⟩ :: filled (k + 1) r := rfl
  rw [hrelease, List.length_cons, filled_length, if_neg (by omega)] at hfree
  exact ⟨e, he, _, hfree⟩

theorem along_allocs (s : Session) (n : ℕ) :
    Along Session.step ClientRule s (List.replicate n (.alloc 1)) := by
  apply along_of_no_write
  intro c hc u
  rw [List.eq_of_mem_replicate hc]
  trivial

/-- Whatever the clients do, the validator accepts the heap, exactly if the heap has less than
64 MiB + 96 bytes. -/
theorem validator_accepts_iff {s t : KmemState} {base bytes : UInt64}
    (hinit : Initialised s base bytes t) :
    (∀ calls, Along Session.step ClientRule ⟨t, []⟩ calls →
      ∃ u replies, run Session.step ⟨t, []⟩ calls = some (u, replies) ∧
        kmemValidate u.kmem = some 0 ∧
        ∀ e ∈ u.live, ∃ v, kmemFreeChecked u.kmem e.1 = some (0, v)) ↔
    t.gHeapEnd.toNat - t.gHeapBase.toNat < 67108960 := by
  obtain ⟨size, hroom, hstart⟩ := hinit.single
  constructor
  · intro haccepts
    by_contra hlarge
    have hfinish := hstart.heap.tiled.finish
    simp only [finish] at hfinish
    have hstart' : Consistent ⟨t, []⟩ (filled 0 size) := hstart
    obtain ⟨u, replies, hrun, hu⟩ := run_fill (n := 1048576) hstart' (by omega)
    obtain ⟨u', replies', hrun', hvalid, -⟩ := haccepts _ (along_allocs _ 1048576)
    cases Option.some.inj (hrun.symm.trans hrun')
    rw [hu.filled_rejected (by omega)] at hvalid
    exact absurd (Option.some.inj hvalid) (by decide)
  · intro hsmall calls hclient
    obtain ⟨u, replies, hrun, ⟨bs, hcons, hbs⟩, hbase, hend⟩ :=
      run_arranged (LastAbove 32) (fun _ _ h => h.lastAbove)
        ⟨_, hstart, lastAbove_singleton.mpr hroom⟩ hclient
    rw [← hbase, ← hend] at hsmall
    exact ⟨u, replies, hrun, hcons.heap.validate_eq_zero hbs hsmall,
      fun e he => hcons.free_eq_zero hbs hsmall he⟩

theorem validator_accepts_sample :
    ∃ u replies, run Session.step ⟨sampleHeap, []⟩ sampleCalls = some (u, replies) ∧
      kmemValidate u.kmem = some 0 ∧
      ∀ e ∈ u.live, ∃ v, kmemFreeChecked u.kmem e.1 = some (0, v) :=
  (validator_accepts_iff sampleHeap_initialised).mpr (by decide) sampleCalls sampleCalls_rule

/-- An arena of 64 MiB + 96 bytes, filled with blocks of one byte. -/
theorem validator_rejects_filled_heap :
    ∃ t u replies, Initialised zeroedState 4096 67108960 t ∧
      run Session.step ⟨t, []⟩ (List.replicate 1048576 (.alloc 1)) = some (u, replies) ∧
      kmemValidate u.kmem = some (-3) ∧
      ∃ e ∈ u.live, ∃ v, kmemFreeChecked u.kmem e.1 = some (-3, v) := by
  have hclean : ∀ x, ¬ MagicWord zeroedState.mem x :=
    fun x => not_magicWord_of_zero (i := 0) (by decide) rfl
  obtain ⟨t, haccepted, hheap⟩ := @kmemInit_aligned zeroedState 4096 67108960
    (by decide) (by decide) (by decide) (by decide) (by decide) (by decide)
    (fun x _ _ _ => hclean x)
  have hinit : Initialised zeroedState 4096 67108960 t :=
    ⟨by decide, by decide, fun x _ _ _ => hclean x, haccepted⟩
  have hstart : Consistent ⟨t, []⟩ (filled 0 67108912) :=
    ⟨hheap, fun e he => absurd he List.not_mem_nil, fun u hu => absurd hu (by simp [filled,
      used_cons, used_nil]), List.nodup_nil⟩
  obtain ⟨u, replies, hrun, hu⟩ := run_fill (n := 1048576) hstart (by omega)
  exact ⟨t, u, replies, hinit, hrun, hu.filled_rejected (by omega),
    hu.filled_free_rejected (k := 1048574) (by omega)⟩

end Mcsos.Kmem
