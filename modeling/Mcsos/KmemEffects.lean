import Mcsos.KmemContents
import Mcsos.KmemShape

/-!
# What one call does to the block list

The block list is read from memory: the headers that are reached from `g_head`, each with its
address, its size, its free flag and its links. In every state that a client can reach, an
allocation takes the first free block that is large enough, a release takes back exactly the
blocks that are handed out, and a release straight after an allocation restores the list. Two
releases may change places, the statistics say which allocations succeed, and a zeroed
allocation differs from a plain one only in the bytes that it hands out.
-/

namespace Mcsos.Kmem
open BoundedLoop ByteMemory WordArithmetic BlockList StepRun

structure Entry where
  addr : UInt64
  size : UInt64
  free : Bool
  deriving DecidableEq, Repr

def entryAt (m : Memory) (a : UInt64) : Entry := ⟨a, sizeAt m a, decide (freeAt m a ≠ 0)⟩

def entries (s : KmemState) : List Entry :=
  (blockList s.mem wordFuel s.gHead).map (entryAt s.mem)

def links (s : KmemState) : List (UInt64 × UInt64) :=
  (blockList s.mem wordFuel s.gHead).map (fun a => (prevAt s.mem a, nextAt s.mem a))

def toEntry (e : ℕ × Block) : Entry := ⟨UInt64.ofNat e.1, UInt64.ofNat e.2.size, e.2.free⟩

section Reading

variable {s t : KmemState} {bs : List Block}

theorem Heap.blockList_eq (h : Heap s bs) :
    blockList s.mem wordFuel s.gHead = headers s.gHeapBase.toNat bs :=
  Shows.blockList_eq (fun _ _ _ _ => rfl) h

theorem Heap.entries_eq (h : Heap s bs) :
    entries s = (layout 48 s.gHeapBase.toNat bs).map toEntry := by
  rw [entries, h.blockList_eq, headers, starts, List.map_map, List.map_map]
  apply List.map_congr_left
  intro e he
  obtain ⟨q, b⟩ := e
  have hbounds := layout_bounds 48 he
  have hbound := h.tiled.bound
  rw [h.tiled.finish] at hbounds
  obtain ⟨pre, post, rfl, rfl⟩ := exists_cut_of_mem_layout 48 he
  have hheader := h.tiled.cut.header
  have haddr := toNat_ofNat_of_lt (n := finish 48 s.gHeapBase.toNat pre) (by omega)
  have hsize : sizeAt s.mem (UInt64.ofNat (finish 48 s.gHeapBase.toNat pre)) =
      UInt64.ofNat b.size := by
    rw [← hheader.size, UInt64.ofNat_toNat, sizeAt, haddr]
  have hfree : freeAt s.mem (UInt64.ofNat (finish 48 s.gHeapBase.toNat pre)) ≠ 0 ↔
      b.free = true := by
    rw [freeAt, haddr]
    exact hheader.free
  simp only [Function.comp_apply, entryAt, toEntry, hsize, hfree, Bool.decide_eq_true]

theorem Heap.links_eq (hs : Heap s bs) (ht : Heap t bs) (hbase : t.gHeapBase = s.gHeapBase)
    (hend : t.gHeapEnd = s.gHeapEnd) : links t = links s := by
  rw [links, links, hs.blockList_eq, ht.blockList_eq, hbase]
  apply List.map_congr_left
  intro a ha
  obtain ⟨pre, b, post, rfl, haddr⟩ := hs.exists_block ha
  have hheader := hs.tiled.cut.header
  have hheader' := ht.tiled.cut.header
  rw [hbase, hend] at hheader'
  rw [← KmemState.addr, ← haddr] at hheader hheader'
  have hprev : prevAt t.mem a = prevAt s.mem a :=
    eq_of_toNat_eq (hheader'.prev.trans hheader.prev.symm)
  have hnext : nextAt t.mem a = nextAt s.mem a :=
    eq_of_toNat_eq (hheader'.next.trans hheader.next.symm)
  rw [hprev, hnext]

theorem Heap.layout_lt (h : Heap s bs) {e : ℕ × Block}
    (he : e ∈ layout 48 s.gHeapBase.toNat bs) : e.1 + 48 + e.2.size < 2 ^ 64 := by
  have hbounds := layout_bounds 48 he
  have hbound := h.tiled.bound
  rw [h.tiled.finish] at hbounds
  omega

theorem Heap.entries_sorted (h : Heap s bs) :
    (entries s).Pairwise (fun e f => e.addr.toNat < f.addr.toNat) := by
  rw [h.entries_eq, List.pairwise_map]
  apply (layout_sorted 48 s.gHeapBase.toNat bs).imp_of_mem
  intro e f he hf hle
  have hlt := h.layout_lt he
  have hlt' := h.layout_lt hf
  simp only [toEntry]
  rw [toNat_ofNat_of_lt (by omega), toNat_ofNat_of_lt (by omega)]
  omega

end Reading

def Serves (w : ℕ) (e : Entry) : Prop := e.free = true ∧ w ≤ e.size.toNat

def Entry.split (w : ℕ) (e : Entry) : List Entry :=
  if w + 80 < e.size.toNat then
    [⟨e.addr, UInt64.ofNat w, false⟩,
      ⟨e.addr + UInt64.ofNat (48 + w), UInt64.ofNat (e.size.toNat - w - 48), true⟩]
  else [⟨e.addr, e.size, false⟩]

def NoFit (n : ℕ) (es : List Entry) : Prop :=
  n = 0 ∨ 2 ^ 64 - 1 - 15 < n ∨ ∀ e ∈ es, ¬ Serves (roundUp n) e

structure FirstFit (s : KmemState) (w : ℕ) (B : Entry) (p : UInt64) (v : KmemState) : Prop where
  serves : Serves w B
  lowest : ∀ e ∈ entries s, Serves w e → B.addr.toNat ≤ e.addr.toNat
  pointer : p.toNat = B.addr.toNat + 48
  change : ∃ before after, entries s = before ++ B :: after ∧
    entries v = before ++ (B.split w ++ after)
  globals : v = { s with mem := v.mem }

theorem serves_toEntry {e : ℕ × Block} (he : e.1 + 48 + e.2.size < 2 ^ 64) (w : ℕ) :
    Serves w (toEntry e) ↔ Fits w e.2 := by
  rw [Serves, toEntry, toNat_ofNat_of_lt (by omega), Fits]

theorem split_toEntry {q w : ℕ} {b : Block} (h : q + 48 + b.size < 2 ^ 64) :
    (layout 48 q (carve 48 32 w b)).map toEntry = (toEntry (q, b)).split w := by
  have hsize : (toEntry (q, b)).size.toNat = b.size := by
    rw [toEntry, toNat_ofNat_of_lt (by simp only; omega)]
  rw [carve, Entry.split, hsize]
  by_cases hroom : w + 80 < b.size
  · have haddr : UInt64.ofNat (q + 48 + w) = UInt64.ofNat q + UInt64.ofNat (48 + w) := by
      rw [← UInt64.ofNat_add, Nat.add_assoc]
    rw [if_pos (by omega), if_pos hroom]
    simp only [layout, List.map_cons, List.map_nil, toEntry, haddr]
  · rw [if_neg (by omega), if_neg hroom]
    rfl

theorem Heap.noFit_iff {s : KmemState} {bs : List Block} (h : Heap s bs) (n : ℕ) :
    NoFit n (entries s) ↔ Refused bs n := by
  have hnone : (∀ e ∈ entries s, ¬ Serves (roundUp n) e) ↔ ∀ c ∈ bs, ¬ Fits (roundUp n) c := by
    rw [h.entries_eq, List.forall_mem_map]
    constructor
    · intro hall c hc
      obtain ⟨pre, post, rfl⟩ := List.append_of_mem hc
      have hmem := mem_layout_cut 48 s.gHeapBase.toNat pre c post
      rw [← serves_toEntry (h.layout_lt hmem)]
      exact hall _ hmem
    · intro hall e he
      obtain ⟨pre, post, rfl, -⟩ := exists_cut_of_mem_layout 48 he
      rw [serves_toEntry (h.layout_lt he)]
      exact hall e.2 (by simp)
  rw [NoFit, Refused, hnone]
  have hbig : 2 ^ 64 - 1 - 15 < n ↔ 2 ^ 64 ≤ n + 15 := by omega
  rw [hbig]

theorem Taken.not_refused {s : KmemState} {pre post : List Block} {b : Block} {n : ℕ}
    {p : UInt64} {m : Memory} (h : Taken s pre b post n p m) (hs : Heap s (pre ++ b :: post)) :
    ¬ Refused (pre ++ b :: post) n := by
  have hupper := hs.tiled.cut.upper
  have hbound := hs.tiled.bound
  have hround := roundUp_ge n
  have hfits := h.fits.2
  have hpos := h.positive
  rw [Refused, not_or, not_or]
  refine ⟨by omega, by omega, fun hnone => ?_⟩
  exact hnone b (by simp) h.fits

theorem Taken.firstFit {s : KmemState} {pre post : List Block} {b : Block} {n : ℕ}
    {p : UInt64} {m : Memory} (h : Taken s pre b post n p m) (hs : Heap s (pre ++ b :: post)) :
    FirstFit s (roundUp n) (toEntry (s.addr pre, b)) p { s with mem := m } := by
  have hlt := hs.layout_lt (mem_layout_cut 48 s.gHeapBase.toNat pre b post)
  rw [← KmemState.addr] at hlt
  simp only at hlt
  have hold := hs.entries_eq
  rw [layout_append, List.map_append, layout, List.map_cons, ← KmemState.addr] at hold
  have hnew : entries { s with mem := m } = (layout 48 s.gHeapBase.toNat _).map toEntry :=
    h.heap.entries_eq
  rw [layout_append, layout_append, List.map_append, List.map_append, finish_carve,
    ← KmemState.addr, split_toEntry hlt] at hnew
  have hsorted := hs.entries_sorted
  rw [hold] at hsorted
  constructor
  case serves => exact (serves_toEntry hlt _).mpr h.fits
  case lowest =>
    intro e he hserves
    rw [hold] at he
    rcases List.mem_append.mp he with he | he
    · obtain ⟨f, hf, rfl⟩ := List.mem_map.mp he
      obtain ⟨front, back, rfl, -⟩ := exists_cut_of_mem_layout 48 hf
      have hmem : f ∈ layout 48 s.gHeapBase.toNat ((front ++ f.2 :: back) ++ b :: post) := by
        rw [layout_append]
        exact List.mem_append_left _ hf
      rw [serves_toEntry (hs.layout_lt hmem)] at hserves
      exact absurd hserves (h.skipped f.2 (by simp))
    · rcases List.mem_cons.mp he with rfl | he
      · exact le_rfl
      · have hrest := (List.pairwise_append.mp hsorted).2.1
        exact le_of_lt ((List.pairwise_cons.mp hrest).1 e he)
  case pointer =>
    rw [h.pointer, toEntry, toNat_ofNat_of_lt (by omega)]
  case change => exact ⟨_, _, hold, hnew⟩
  case globals => rfl

/-- In every state that is reached an allocation is refused exactly when no free block can
serve the rounded request, and otherwise takes the lowest block that can. -/
theorem alloc_is_first_fit {s t : KmemState} {base bytes : UInt64}
    (hinit : Initialised s base bytes t) {calls : List KmemCall}
    (hclient : Along Session.step ClientRule ⟨t, []⟩ calls) :
    ∃ u replies, run Session.step ⟨t, []⟩ calls = some (u, replies) ∧ ∀ n : UInt64,
      (NoFit n.toNat (entries u.kmem) → kmemAlloc u.kmem n = some (0, u.kmem)) ∧
      (¬ NoFit n.toNat (entries u.kmem) → ∃ B p v, kmemAlloc u.kmem n = some (p, v) ∧ p ≠ 0 ∧
        FirstFit u.kmem (roundUp n.toNat) B p v) := by
  obtain ⟨u, replies, hrun, ⟨bs, hcons⟩, -⟩ := run_consistent hinit.consistent hclient
  refine ⟨u, replies, hrun, fun n => ?_⟩
  rw [hcons.heap.noFit_iff]
  rcases kmemAlloc_spec hcons.heap n with ⟨hnull, hrefused⟩ |
    ⟨pre, b, post, p, m, rfl, htaken, halloc⟩
  · exact ⟨fun _ => hnull, fun hserved => absurd hrefused hserved⟩
  · constructor
    · exact fun hrefused => absurd hrefused (htaken.not_refused hcons.heap)
    · exact fun _ => ⟨_, p, _, halloc, htaken.ne_zero, htaken.firstFit hcons.heap⟩

theorem alloc_is_first_fit_sample :
    ∃ u replies, run Session.step ⟨sampleHeap, []⟩ sampleCalls = some (u, replies) ∧
      ∀ n : UInt64,
        (NoFit n.toNat (entries u.kmem) → kmemAlloc u.kmem n = some (0, u.kmem)) ∧
        (¬ NoFit n.toNat (entries u.kmem) → ∃ B p v, kmemAlloc u.kmem n = some (p, v) ∧ p ≠ 0 ∧
          FirstFit u.kmem (roundUp n.toNat) B p v) :=
  alloc_is_first_fit sampleHeap_initialised sampleCalls_rule

structure Released (s : KmemState) (p : UInt64) (v : KmemState) : Prop where
  freed : ∃ e ∈ entries s, e.free = false ∧ p.toNat = e.addr.toNat + 48 ∧
    ∃ f ∈ entries v, f.free = true ∧ f.addr.toNat ≤ e.addr.toNat ∧
      e.addr.toNat + e.size.toNat ≤ f.addr.toNat + f.size.toNat
  others : ∀ e : Entry, e.free = false →
    (e ∈ entries v ↔ e ∈ entries s ∧ p.toNat ≠ e.addr.toNat + 48)
  globals : v = { s with mem := v.mem }

theorem Heap.mem_entries_iff {s : KmemState} {bs : List Block} (h : Heap s bs) {e : Entry}
    (he : e.free = false) :
    e ∈ entries s ↔ ∃ u ∈ used 48 s.gHeapBase.toNat bs, toEntry u = e := by
  rw [h.entries_eq, List.mem_map]
  constructor
  · intro hmem
    obtain ⟨u, hu, rfl⟩ := hmem
    exact ⟨u, (mem_used 48).mpr ⟨hu, he⟩, rfl⟩
  · intro hmem
    obtain ⟨u, hu, hue⟩ := hmem
    exact ⟨u, ((mem_used 48).mp hu).1, hue⟩

theorem Heap.released {s : KmemState} {pre post : List Block} {b : Block} {p : UInt64}
    {m : Memory} (hs : Heap s (pre ++ b :: post)) (hb : b.free = false)
    (hp : p.toNat = s.addr pre + 48) (hv : Heap { s with mem := m } (release 48 pre b post)) :
    Released s p { s with mem := m } := by
  have hlt := hs.layout_lt (mem_layout_cut 48 s.gHeapBase.toNat pre b post)
  rw [← KmemState.addr] at hlt
  simp only at hlt
  have haddr : (UInt64.ofNat (s.addr pre)).toNat = s.addr pre := toNat_ofNat_of_lt (by omega)
  constructor
  case freed =>
    refine ⟨toEntry (s.addr pre, b), ?_, hb, by rw [hp, toEntry, haddr], ?_⟩
    · rw [hs.entries_eq]
      exact List.mem_map_of_mem (mem_layout_cut 48 _ pre b post)
    · obtain ⟨q, c, hmem, hfree, hlow, hhigh⟩ := release_covers 48 s.gHeapBase.toNat pre b post
      have hltc := hv.layout_lt hmem
      rw [← KmemState.addr] at hlow hhigh
      simp only at hltc
      refine ⟨toEntry (q, c), ?_, hfree, ?_, ?_⟩
      · rw [hv.entries_eq]
        exact List.mem_map_of_mem hmem
      · simp only [toEntry]
        rw [haddr, toNat_ofNat_of_lt (by omega)]
        exact hlow
      · simp only [toEntry]
        rw [haddr, toNat_ofNat_of_lt (by omega), toNat_ofNat_of_lt (by omega),
          toNat_ofNat_of_lt (by omega)]
        exact hhigh
  case others =>
    intro e he
    rw [hs.mem_entries_iff he, hv.mem_entries_iff he]
    simp only [mem_used_release 48 (by decide : 0 < 48) hb]
    have hne : ∀ u ∈ used 48 s.gHeapBase.toNat (pre ++ b :: post), toEntry u = e →
        (u.1 ≠ finish 48 s.gHeapBase.toNat pre ↔ p.toNat ≠ e.addr.toNat + 48) := by
      intro u hu hue
      have hltu := hs.layout_lt ((mem_used 48).mp hu).1
      rw [← hue, toEntry, toNat_ofNat_of_lt (by omega), hp, ← KmemState.addr]
      omega
    constructor
    · intro hmem
      obtain ⟨u, ⟨hu, hout⟩, hue⟩ := hmem
      exact ⟨⟨u, hu, hue⟩, (hne u hu hue).mp hout⟩
    · intro hmem
      obtain ⟨⟨u, hu, hue⟩, hout⟩ := hmem
      exact ⟨u, ⟨hu, (hne u hu hue).mpr hout⟩, hue⟩
  case globals => rfl

/-- In every state that is reached `kmem_free_checked` releases the block of a live pointer,
accepts the null pointer, and refuses every other pointer without a change. -/
theorem free_releases_live_only {s t : KmemState} {base bytes : UInt64}
    (hinit : Initialised s base bytes t) {calls : List KmemCall}
    (hclient : Along Session.step ClientRule ⟨t, []⟩ calls) :
    ∃ u replies, run Session.step ⟨t, []⟩ calls = some (u, replies) ∧ ∀ p : UInt64,
      (p ∈ u.live.map Prod.fst → ∃ code v, kmemFreeChecked u.kmem p = some (code, v) ∧
        Released u.kmem p v) ∧
      (p = 0 → kmemFreeChecked u.kmem p = some (0, u.kmem)) ∧
      (p ∉ u.live.map Prod.fst → p ≠ 0 →
        ∃ code, code < 0 ∧ kmemFreeChecked u.kmem p = some (code, u.kmem)) := by
  obtain ⟨u, replies, hrun, ⟨bs, hcons⟩, -⟩ := run_consistent hinit.consistent hclient
  refine ⟨u, replies, hrun, fun p => ⟨fun hlive => ?_, fun hnull => ?_, fun hdead hne => ?_⟩⟩
  · obtain ⟨pre, b, post, rfl, hb, hp⟩ := (hcons.live_iff p).mp hlive
    obtain ⟨m, hfree, hheap, -⟩ := kmemFreeChecked_used hcons.heap hb hp
    exact ⟨_, _, hfree, hcons.heap.released hb hp hheap⟩
  · rw [kmemFreeChecked, if_pos hnull]
  · obtain ⟨code, hfree, hcode⟩ := kmemFreeChecked_other hcons.heap
      (fun pre b post hbs hb hp => hdead ((hcons.live_iff p).mpr ⟨pre, b, post, hbs, hb, hp⟩))
    rw [if_neg hne] at hcode
    exact ⟨code, hcode, hfree⟩

theorem free_releases_live_only_sample :
    ∃ u replies, run Session.step ⟨sampleHeap, []⟩ sampleCalls = some (u, replies) ∧
      ∀ p : UInt64,
        (p ∈ u.live.map Prod.fst → ∃ code v, kmemFreeChecked u.kmem p = some (code, v) ∧
          Released u.kmem p v) ∧
        (p = 0 → kmemFreeChecked u.kmem p = some (0, u.kmem)) ∧
        (p ∉ u.live.map Prod.fst → p ≠ 0 →
          ∃ code, code < 0 ∧ kmemFreeChecked u.kmem p = some (code, u.kmem)) :=
  free_releases_live_only sampleHeap_initialised sampleCalls_rule

/-- In every state that is reached, an allocation followed by the release of its pointer leaves
the same blocks with the same links. -/
theorem free_undoes_alloc {s t : KmemState} {base bytes : UInt64}
    (hinit : Initialised s base bytes t) {calls : List KmemCall}
    (hclient : Along Session.step ClientRule ⟨t, []⟩ calls) :
    ∃ u replies, run Session.step ⟨t, []⟩ calls = some (u, replies) ∧
      ∀ n p v, kmemAlloc u.kmem n = some (p, v) → p ≠ 0 →
        ∃ code w, kmemFreeChecked v p = some (code, w) ∧ entries w = entries u.kmem ∧
          links w = links u.kmem ∧ w = { u.kmem with mem := w.mem } := by
  obtain ⟨size, -, hstart⟩ := hinit.single
  obtain ⟨u, replies, hrun, ⟨bs, hcons, hbs⟩, -⟩ :=
    run_arranged Coalesced (fun _ _ h => h.coalesced) ⟨_, hstart, List.isChain_singleton _⟩ hclient
  refine ⟨u, replies, hrun, fun n p v halloc hne => ?_⟩
  rcases kmemAlloc_spec hcons.heap n with ⟨hnull, -⟩ | ⟨pre, b, post, q, m, rfl, htaken, htake⟩
  · rw [hnull] at halloc
    cases halloc
    exact absurd rfl hne
  rw [htake] at halloc
  cases halloc
  obtain ⟨d, ds, hcarve, hd, hback⟩ := release_carve 48 32 (roundUp n.toNat) hbs htaken.fits.1
  have hheap := htaken.heap
  rw [hcarve, List.cons_append] at hheap
  obtain ⟨m', hfree, hheap', -⟩ := kmemFreeChecked_used hheap hd htaken.pointer
  rw [hback] at hheap'
  refine ⟨_, _, hfree, ?_, hcons.heap.links_eq hheap' rfl rfl, rfl⟩
  rw [hcons.heap.entries_eq, hheap'.entries_eq]

theorem free_undoes_alloc_sample :
    ∃ u replies, run Session.step ⟨sampleHeap, []⟩ sampleCalls = some (u, replies) ∧
      ∀ n p v, kmemAlloc u.kmem n = some (p, v) → p ≠ 0 →
        ∃ code w, kmemFreeChecked v p = some (code, w) ∧ entries w = entries u.kmem ∧
          links w = links u.kmem ∧ w = { u.kmem with mem := w.mem } :=
  free_undoes_alloc sampleHeap_initialised sampleCalls_rule

structure FreedBothWays (s : KmemState) (p q : UInt64) (t t' : KmemState) : Prop where
  forth : ∃ code code' u, kmemFreeChecked s p = some (code, u) ∧
    kmemFreeChecked u q = some (code', t)
  back : ∃ code code' u, kmemFreeChecked s q = some (code, u) ∧
    kmemFreeChecked u p = some (code', t')
  entries : entries t' = entries t
  links : links t' = links t
  globals : t' = { t with mem := t'.mem }

theorem FreedBothWays.symm {s t t' : KmemState} {p q : UInt64}
    (h : FreedBothWays s p q t t') : FreedBothWays s q p t' t where
  forth := h.back
  back := h.forth
  entries := h.entries.symm
  links := h.links.symm
  globals := by rw [h.globals]

theorem Heap.frees_meet {s : KmemState} {pre mid post : List Block} {b c : Block}
    {p q : UInt64} (h : Heap s (pre ++ b :: (mid ++ c :: post)))
    (hco : Coalesced (pre ++ b :: (mid ++ c :: post))) (hb : b.free = false)
    (hc : c.free = false) (hp : p.toNat = s.addr pre + 48)
    (hq : q.toNat = s.addr (pre ++ b :: mid) + 48) : ∃ t t', FreedBothWays s p q t t' := by
  have hcut : pre ++ b :: (mid ++ c :: post) = (pre ++ b :: mid) ++ c :: post := by simp
  obtain ⟨m₁, hfree₁, hheap₁, -⟩ := kmemFreeChecked_used h hb hp
  rw [release_front 48 hco hc] at hheap₁
  have hq' : q.toNat = KmemState.addr { s with mem := m₁ }
      (coalesce 48 (pre ++ ⟨b.size, true⟩ :: mid)) + 48 := by
    rw [hq, KmemState.addr, KmemState.addr, finish_coalesce, finish_append, finish_append]
    rfl
  obtain ⟨m₂, hfree₂, hheap₂, -⟩ := kmemFreeChecked_used hheap₁ hc hq'
  rw [release_front_back 48 hco hc] at hheap₂
  rw [hcut] at h
  obtain ⟨m₃, hfree₃, hheap₃, -⟩ := kmemFreeChecked_used h hc hq
  rw [release_back 48 hco hb] at hheap₃
  obtain ⟨m₄, hfree₄, hheap₄, -⟩ := kmemFreeChecked_used hheap₃ hb hp
  rw [release_back_front 48 hco hb] at hheap₄
  refine ⟨_, _, ⟨_, _, _, hfree₁, hfree₂⟩, ⟨_, _, _, hfree₃, hfree₄⟩, ?_, ?_, rfl⟩
  · rw [hheap₄.entries_eq, hheap₂.entries_eq]
  · exact hheap₂.links_eq hheap₄ rfl rfl

/-- In every state that is reached, two live pointers may be released in either order: the
blocks and the links that are left are the same. -/
theorem frees_commute {s t : KmemState} {base bytes : UInt64}
    (hinit : Initialised s base bytes t) {calls : List KmemCall}
    (hclient : Along Session.step ClientRule ⟨t, []⟩ calls) :
    ∃ u replies, run Session.step ⟨t, []⟩ calls = some (u, replies) ∧
      ∀ p ∈ u.live.map Prod.fst, ∀ q ∈ u.live.map Prod.fst, p ≠ q →
        ∃ v v', FreedBothWays u.kmem p q v v' := by
  obtain ⟨size, -, hstart⟩ := hinit.single
  obtain ⟨u, replies, hrun, ⟨bs, hcons, hbs⟩, -⟩ :=
    run_arranged Coalesced (fun _ _ h => h.coalesced) ⟨_, hstart, List.isChain_singleton _⟩ hclient
  refine ⟨u, replies, hrun, fun p hp q hq hne => ?_⟩
  obtain ⟨pre, b, post, rfl, hb, hpre⟩ := (hcons.live_iff p).mp hp
  obtain ⟨pre', c, post', hcut, hc, hpre'⟩ := (hcons.live_iff q).mp hq
  have haddr : u.kmem.addr pre ≠ u.kmem.addr pre' := by
    intro heq
    exact hne (eq_of_toNat_eq (by rw [hpre, hpre', heq]))
  rcases cut_twice 48 hcut haddr with ⟨mid, rfl, rfl⟩ | ⟨mid, rfl, rfl⟩
  · exact hcons.heap.frees_meet hbs hb hc hpre hpre'
  · rw [hcut] at hbs
    obtain ⟨v, v', hfreed⟩ := (hcut ▸ hcons.heap).frees_meet hbs hc hb hpre' hpre
    exact ⟨v', v, hfreed.symm⟩

theorem frees_commute_sample :
    ∃ u replies v v', run Session.step ⟨sampleHeap, []⟩ holeCalls = some (u, replies) ∧
      FreedBothWays u.kmem 4144 4288 v v' := by
  obtain ⟨u, replies, hrun, hfrees⟩ := frees_commute sampleHeap_initialised holeCalls_rule
  have hlive := holeCalls_live hrun
  obtain ⟨v, v', hfreed⟩ :=
    hfrees 4144 (by rw [hlive]; decide) 4288 (by rw [hlive]; decide) (by decide)
  exact ⟨u, replies, v, v', hrun, hfreed⟩

def Entry.block (e : Entry) : Block := ⟨e.size.toNat, e.free⟩

theorem Heap.entries_block {s : KmemState} {bs : List Block} (h : Heap s bs) :
    (entries s).map Entry.block = bs := by
  have hsizes : ∀ e ∈ layout 48 s.gHeapBase.toNat bs, (toEntry e).block = e.2 := by
    intro e he
    have hlt := h.layout_lt he
    rw [toEntry, Entry.block, toNat_ofNat_of_lt (by omega)]
  rw [h.entries_eq, List.map_map]
  exact (List.map_congr_left hsizes).trans (layout_map_snd 48 _ bs)

theorem Heap.alloc_succeeds_iff {s : KmemState} {bs : List Block} (h : Heap s bs) {n : UInt64}
    (hpos : 0 < n.toNat) (hmax : n.toNat ≤ 2 ^ 64 - 1 - 15) :
    (∃ p v, kmemAlloc s n = some (p, v) ∧ p ≠ 0) ↔ roundUp n.toNat ≤ largestFree bs := by
  have hround := roundUp_ge n.toNat
  rw [le_largestFree_iff (by omega)]
  rcases kmemAlloc_spec h n with ⟨hnull, hrefused⟩ | ⟨pre, b, post, p, m, rfl, htaken, halloc⟩
  · have hnone := (hrefused.resolve_left (by omega)).resolve_left (by omega)
    apply iff_of_false
    · intro hsome
      obtain ⟨p, v, halloc, hne⟩ := hsome
      rw [hnull] at halloc
      cases halloc
      exact hne rfl
    · intro hfits
      obtain ⟨b, hb, hfit⟩ := hfits
      exact hnone b hb hfit
  · exact iff_of_true ⟨p, _, halloc, htaken.ne_zero⟩ ⟨b, by simp, htaken.fits⟩

/-- In every state that is reached the statistics count the blocks in unbounded numbers, the
bytes of the heap are payloads and headers, and a request succeeds exactly when its rounded
size is at most the largest free block. -/
theorem stats_conserved_and_predictive {s t : KmemState} {base bytes : UInt64}
    (hinit : Initialised s base bytes t) {calls : List KmemCall}
    (hclient : Along Session.step ClientRule ⟨t, []⟩ calls) :
    ∃ u replies, run Session.step ⟨t, []⟩ calls = some (u, replies) ∧
      ∃ out, kmemGetStats u.kmem = some out ∧ Counts ((entries u.kmem).map Entry.block) out ∧
        out.totalBytes.toNat = u.kmem.gHeapEnd.toNat - u.kmem.gHeapBase.toNat ∧
        out.totalBytes.toNat =
          out.usedBytes.toNat + out.freeBytes.toNat + 48 * out.blockCount.toNat ∧
        ∀ n : UInt64, 0 < n.toNat → n.toNat ≤ 2 ^ 64 - 1 - 15 →
          ((∃ p v, kmemAlloc u.kmem n = some (p, v) ∧ p ≠ 0) ↔
            roundUp n.toNat ≤ out.largestFree.toNat) := by
  obtain ⟨u, replies, hrun, ⟨bs, hcons⟩, -⟩ := run_consistent hinit.consistent hclient
  obtain ⟨out, hout, hcounts, htotal⟩ := kmemGetStats_spec hcons.heap
  have hproper := hcons.heap.tiled.proper
  have htotal' : out.totalBytes.toNat = u.kmem.gHeapEnd.toNat - u.kmem.gHeapBase.toNat := by
    rw [htotal, UInt64.toNat_sub_of_le _ _ (UInt64.le_iff_toNat_le.mpr hproper.le)]
  refine ⟨u, replies, hrun, out, hout, ?_, htotal', ?_, fun n hpos hmax => ?_⟩
  · rw [hcons.heap.entries_block]
    exact hcounts
  · have hfinish := hcons.heap.tiled.finish
    rw [finish_eq] at hfinish
    rw [hcounts.used, hcounts.free, hcounts.blocks]
    omega
  · rw [hcounts.largest]
    exact hcons.heap.alloc_succeeds_iff hpos hmax

theorem stats_conserved_and_predictive_sample :
    ∃ u replies, run Session.step ⟨sampleHeap, []⟩ sampleCalls = some (u, replies) ∧
      ∃ out, kmemGetStats u.kmem = some out ∧ Counts ((entries u.kmem).map Entry.block) out ∧
        out.totalBytes.toNat = u.kmem.gHeapEnd.toNat - u.kmem.gHeapBase.toNat ∧
        out.totalBytes.toNat =
          out.usedBytes.toNat + out.freeBytes.toNat + 48 * out.blockCount.toNat ∧
        ∀ n : UInt64, 0 < n.toNat → n.toNat ≤ 2 ^ 64 - 1 - 15 →
          ((∃ p v, kmemAlloc u.kmem n = some (p, v) ∧ p ≠ 0) ↔
            roundUp n.toNat ≤ out.largestFree.toNat) :=
  stats_conserved_and_predictive sampleHeap_initialised sampleCalls_rule

structure ZeroedAt (p : UInt64) (n : ℕ) (v w : KmemState) : Prop where
  zero : ∀ x, p.toNat ≤ x → x < p.toNat + n → w.mem x = 0
  elsewhere : ∀ x, x < p.toNat ∨ p.toNat + n ≤ x → w.mem x = v.mem x
  inside : ∃ e ∈ entries v, e.free = false ∧ p.toNat = e.addr.toNat + 48 ∧ n ≤ e.size.toNat
  header : ∀ e ∈ entries v, ∀ x, e.addr.toNat ≤ x → x < e.addr.toNat + 48 → w.mem x = v.mem x
  others : ∀ e ∈ entries v, p.toNat ≠ e.addr.toNat + 48 → ∀ x, e.addr.toNat ≤ x →
    x < e.addr.toNat + 48 + e.size.toNat → w.mem x = v.mem x
  blocks : entries w = entries v
  links : links w = links v
  globals : w = { v with mem := w.mem }

theorem Heap.zeroedAt {s : KmemState} {pre post : List Block} {d : Block} {p : UInt64} {n : ℕ}
    (h : Heap s (pre ++ d :: post)) (hd : d.free = false) (hp : p.toNat = s.addr pre + 48)
    (hn : n ≤ d.size) : ZeroedAt p n s { s with mem := fillRange s.mem p.toNat n 0 } := by
  have hzero := h.zeroPayload hn
  rw [← hp] at hzero
  have hcut := mem_layout_cut 48 s.gHeapBase.toNat pre d post
  have hlt := h.layout_lt hcut
  rw [← KmemState.addr] at hcut hlt
  -- every block is the one that is zeroed or lies apart from it
  have happart : ∀ e ∈ entries s, e.addr.toNat = s.addr pre ∨
      e.addr.toNat + 48 + e.size.toNat ≤ s.addr pre ∨
      s.addr pre + 48 + d.size ≤ e.addr.toNat := by
    intro e he
    rw [h.entries_eq] at he
    obtain ⟨⟨q, c⟩, hq, rfl⟩ := List.mem_map.mp he
    have hltq := h.layout_lt hq
    simp only at hltq
    simp only [toEntry]
    rw [toNat_ofNat_of_lt (by omega), toNat_ofNat_of_lt (by omega)]
    exact (layout_separated 48 hq hcut).imp_left And.left
  constructor
  case zero => exact fun x hlow hhigh => fillRange_inside s.mem 0 ⟨hlow, hhigh⟩
  case elsewhere => exact fun x hx => fillRange_outside s.mem 0 hx
  case inside =>
    refine ⟨toEntry (s.addr pre, d), ?_, hd, ?_, ?_⟩
    · rw [h.entries_eq]
      exact List.mem_map_of_mem hcut
    · rw [hp, toEntry, toNat_ofNat_of_lt (by simp only at hlt ⊢; omega)]
    · rw [toEntry, toNat_ofNat_of_lt (by simp only at hlt ⊢; omega)]
      exact hn
  case header =>
    intro e he x hlow hhigh
    have hsep := happart e he
    exact fillRange_outside s.mem 0 (by omega)
  case others =>
    intro e he hne x hlow hhigh
    have hsep := happart e he
    exact fillRange_outside s.mem 0 (by omega)
  case blocks =>
    rw [h.entries_eq, hzero.entries_eq]
  case links => exact h.links_eq hzero rfl rfl
  case globals => rfl

theorem Taken.zeroedAt {s : KmemState} {pre post : List Block} {b : Block} {n : ℕ} {p : UInt64}
    {m : Memory} (h : Taken s pre b post n p m) :
    ZeroedAt p n { s with mem := m } { s with mem := fillRange m p.toNat n 0 } := by
  obtain ⟨d, ds, hcarve, hd, hwd, -⟩ := carve_eq_cons 48 32 (roundUp n) h.fits.2
  have hheap := h.heap
  rw [hcarve, List.cons_append] at hheap
  exact hheap.zeroedAt hd h.pointer ((roundUp_ge n).trans hwd)

/-- In every state that is reached `kmem_calloc` refuses an empty or overflowing product without
a change; any other request changes the block list as `kmem_alloc` of the product does, and then
only the requested bytes are set to zero. -/
theorem calloc_zeroes_exactly {s t : KmemState} {base bytes : UInt64}
    (hinit : Initialised s base bytes t) {calls : List KmemCall}
    (hclient : Along Session.step ClientRule ⟨t, []⟩ calls) :
    ∃ u replies, run Session.step ⟨t, []⟩ calls = some (u, replies) ∧ ∀ count size : UInt64,
      (count.toNat * size.toNat = 0 ∨ 2 ^ 64 ≤ count.toNat * size.toNat →
        kmemCalloc u.kmem count size = some (0, u.kmem)) ∧
      (0 < count.toNat * size.toNat → count.toNat * size.toNat < 2 ^ 64 →
        (count * size).toNat = count.toNat * size.toNat ∧
        ∃ p v w, kmemAlloc u.kmem (count * size) = some (p, v) ∧
          kmemCalloc u.kmem count size = some (p, w) ∧
          (p = 0 → v = u.kmem ∧ w = u.kmem) ∧
          (p ≠ 0 → ZeroedAt p (count.toNat * size.toNat) v w ∧
            ∀ e ∈ u.live, ∀ x, e.1.toNat ≤ x → x < e.1.toNat + e.2 →
              w.mem x = u.kmem.mem x)) := by
  obtain ⟨u, replies, hrun, ⟨bs, hcons⟩, -⟩ := run_consistent hinit.consistent hclient
  refine ⟨u, replies, hrun, fun count size => ⟨fun hrefuse => ?_, fun hpos hlt => ?_⟩⟩
  · rcases kmemCalloc_spec hcons.heap count size with ⟨hnull, -⟩ |
      ⟨pre, b, post, p, m, rfl, htaken, -, -⟩
    · exact hnull
    · have hpos := htaken.positive
      have hround := roundUp_ge (count.toNat * size.toNat)
      have hfits := htaken.fits.2
      have hupper := hcons.heap.tiled.cut.upper
      have hbound := hcons.heap.tiled.bound
      omega
  · have hproduct : (count * size).toNat = count.toNat * size.toNat := toNat_mul_of_lt _ _ hlt
    have hexact : ¬ (count ≠ 0 ∧ size > sizeMax / count) := by
      rw [product_overflow_iff]
      omega
    refine ⟨hproduct, ?_⟩
    rcases kmemAlloc_spec hcons.heap (count * size) with ⟨hnull, -⟩ |
      ⟨pre, b, post, p, m, rfl, htaken, halloc⟩
    · refine ⟨0, u.kmem, u.kmem, hnull, ?_, fun _ => ⟨rfl, rfl⟩, fun hne => absurd rfl hne⟩
      rw [kmemCalloc, if_neg hexact]
      simp only [hnull, ne_eq, not_true_eq_false, if_false]
    · refine ⟨p, _, _, halloc, htaken.calloc hcons.heap hexact halloc,
        fun hnull => absurd hnull htaken.ne_zero, fun _ => ⟨?_, ?_⟩⟩
      · rw [← hproduct]
        exact htaken.zeroedAt
      · exact fun e he => ((hcons.take htaken.zeroed).2 e he).2

theorem calloc_zeroes_exactly_sample :
    ∃ u replies p w, run Session.step ⟨sampleHeap, []⟩ holeCalls = some (u, replies) ∧
      kmemCalloc u.kmem 3 7 = some (p, w) ∧
      kmemCalloc u.kmem 0x8000000000000000 2 = some (0, u.kmem) := by
  obtain ⟨u, replies, hrun, hcalloc⟩ :=
    calloc_zeroes_exactly sampleHeap_initialised holeCalls_rule
  obtain ⟨-, p, v, w, -, hzeroed, -⟩ := (hcalloc 3 7).2 (by decide) (by decide)
  exact ⟨u, replies, p, w, hrun, hzeroed, (hcalloc _ 2).1 (Or.inr (by decide))⟩

end Mcsos.Kmem
