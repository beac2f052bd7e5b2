import Mcsos.KmemInit

/-!
# Runs of the kernel heap

A session is a heap with the list of the pointers it has handed out and not taken back, each
with the size that was asked for. A client calls the allocator with any sizes and pointers and
writes inside the payloads it owns. The blocks in use are at any time exactly the blocks of
the live pointers.
-/

namespace Mcsos.Kmem
open BoundedLoop ByteMemory WordArithmetic BlockList StepRun

inductive KmemCall
  | alloc (bytes : UInt64)
  | calloc (count bytes : UInt64)
  | free (ptr : UInt64)
  | write (ptr : UInt64) (offset : ℕ) (data : List UInt8)

inductive KmemReply
  | pointer (ptr : UInt64)
  | code (code : Int32)
  | written
  deriving DecidableEq, Repr

structure Session where
  kmem : KmemState
  live : List (UInt64 × ℕ)

def writeBytes (m : Memory) (a : ℕ) (data : List UInt8) : Memory :=
  fun x => if a ≤ x ∧ x < a + data.length then data.getD (x - a) 0 else m x

theorem writeBytes_outside (m : Memory) {a x : ℕ} {data : List UInt8}
    (h : x < a ∨ a + data.length ≤ x) : writeBytes m a data x = m x :=
  if_neg (by omega)

def handOut (live : List (UInt64 × ℕ)) (ptr : UInt64) (n : ℕ) : List (UInt64 × ℕ) :=
  if ptr = 0 then live else (ptr, n) :: live

def Session.step (s : Session) : KmemCall → Option (Session × KmemReply)
  | .alloc bytes =>
      (kmemAlloc s.kmem bytes).map fun r =>
        (⟨r.2, handOut s.live r.1 bytes.toNat⟩, .pointer r.1)
  | .calloc count bytes =>
      (kmemCalloc s.kmem count bytes).map fun r =>
        (⟨r.2, handOut s.live r.1 (count.toNat * bytes.toNat)⟩, .pointer r.1)
  | .free ptr =>
      (kmemFreeChecked s.kmem ptr).map fun r =>
        (⟨r.2, s.live.filter (fun e => e.1 ≠ ptr)⟩, .code r.1)
  | .write ptr offset data =>
      some (⟨{ s.kmem with mem := writeBytes s.kmem.mem (ptr.toNat + offset) data }, s.live⟩,
        .written)

/-- A client writes only inside the payload of a live block, and afterwards no 16-byte aligned
word of that payload is the magic number. -/
abbrev WriteRule (s : Session) (ptr : UInt64) (offset : ℕ) (data : List UInt8) : Prop :=
  ptr ∈ s.live.map Prod.fst ∧
    offset + data.length ≤ (sizeAt s.kmem.mem (kmemHeaderFromPayload ptr)).toNat ∧
    ∀ k < (sizeAt s.kmem.mem (kmemHeaderFromPayload ptr)).toNat / 16,
      loadU64 (writeBytes s.kmem.mem (ptr.toNat + offset) data) (ptr.toNat + 16 * k) ≠ kmemMagic

def ClientRule (s : Session) : KmemCall → Prop
  | .write ptr offset data => WriteRule s ptr offset data
  | _ => True

instance ClientRule.decidable (s : Session) : ∀ c, Decidable (ClientRule s c)
  | .alloc _ => isTrue trivial
  | .calloc _ _ => isTrue trivial
  | .free _ => isTrue trivial
  | .write ptr offset data => inferInstanceAs (Decidable (WriteRule s ptr offset data))

def KmemCall.Spares (ptr : UInt64) : KmemCall → Prop
  -- The call neither frees the block of `ptr` nor writes to it on the client's behalf.
  | .free q => q ≠ ptr
  | .write q _ _ => q ≠ ptr
  | _ => True

/-- The blocks in use are those of the live pointers. -/
structure Consistent (s : Session) (bs : List Block) : Prop where
  heap : Heap s.kmem bs
  owned : ∀ e ∈ s.live, ∃ u ∈ used 48 s.kmem.gHeapBase.toNat bs,
    e.1.toNat = u.1 + 48 ∧ 0 < e.2 ∧ e.2 ≤ u.2.size
  handed : ∀ u ∈ used 48 s.kmem.gHeapBase.toNat bs, ∃ e ∈ s.live, e.1.toNat = u.1 + 48
  distinct : (s.live.map Prod.fst).Nodup

structure Kept (s : Session) (c : KmemCall) (t : Session) : Prop where
  region : t.kmem.gHeapBase = s.kmem.gHeapBase ∧ t.kmem.gHeapEnd = s.kmem.gHeapEnd
  spared : ∀ e ∈ s.live, c.Spares e.1 → e ∈ t.live ∧
    ∀ x, e.1.toNat ≤ x → x < e.1.toNat + e.2 → t.kmem.mem x = s.kmem.mem x

theorem Kept.refl (s : Session) (c : KmemCall) : Kept s c s :=
  ⟨⟨rfl, rfl⟩, fun _ he _ => ⟨he, fun _ _ _ => rfl⟩⟩

inductive Rearranged : List Block → List Block → Prop
  | same {bs : List Block} : Rearranged bs bs
  | taken {pre post : List Block} {b : Block} {w : ℕ} (hfits : Fits w b) :
      Rearranged (pre ++ b :: post) (pre ++ (carve 48 32 w b ++ post))
  | released {pre post : List Block} {b : Block} (hused : b.free = false) :
      Rearranged (pre ++ b :: post) (release 48 pre b post)

theorem Consistent.separated {s : Session} {bs : List Block} (h : Consistent s bs)
    {e : UInt64 × ℕ} (he : e ∈ s.live) {q : ℕ} {c : Block}
    (hq : (q, c) ∈ layout 48 s.kmem.gHeapBase.toNat bs) :
    (e.1.toNat = q + 48 ∧ e.2 ≤ c.size ∧ c.free = false) ∨ e.1.toNat + e.2 ≤ q ∨
      q + 48 + c.size + 48 ≤ e.1.toNat := by
  obtain ⟨⟨r, d⟩, hu, hptr, -, hsize⟩ := h.owned e he
  obtain ⟨hr, hfree⟩ := (mem_used 48).mp hu
  simp only at hptr hsize hfree
  rcases layout_separated 48 hr hq with ⟨rfl, rfl⟩ | hleft | hright
  · exact Or.inl ⟨hptr, hsize, hfree⟩
  · exact Or.inr (Or.inl (by omega))
  · exact Or.inr (Or.inr (by omega))

theorem Consistent.block_of_live {s : Session} {bs : List Block} (h : Consistent s bs)
    {e : UInt64 × ℕ} (he : e ∈ s.live) :
    ∃ pre c post, bs = pre ++ c :: post ∧ c.free = false ∧
      e.1.toNat = s.kmem.addr pre + 48 ∧ e.2 ≤ c.size := by
  obtain ⟨⟨q, c⟩, hu, hptr, -, hsize⟩ := h.owned e he
  obtain ⟨hq, hused⟩ := (mem_used 48).mp hu
  obtain ⟨pre, post, hbs, rfl⟩ := exists_cut_of_mem_layout 48 hq
  exact ⟨pre, c, post, hbs, hused, hptr, hsize⟩

theorem Consistent.live_iff {s : Session} {bs : List Block} (h : Consistent s bs) (p : UInt64) :
    p ∈ s.live.map Prod.fst ↔ ∃ pre b post, bs = pre ++ b :: post ∧ b.free = false ∧
      p.toNat = s.kmem.addr pre + 48 := by
  constructor
  · intro hlive
    obtain ⟨e, he, rfl⟩ := List.mem_map.mp hlive
    obtain ⟨pre, c, post, hbs, hused, hptr, -⟩ := h.block_of_live he
    exact ⟨pre, c, post, hbs, hused, hptr⟩
  · intro hblock
    obtain ⟨pre, b, post, rfl, hused, hptr⟩ := hblock
    obtain ⟨e, he, heq⟩ := h.handed _
      ((mem_used 48).mpr ⟨mem_layout_cut 48 s.kmem.gHeapBase.toNat pre b post, hused⟩)
    exact List.mem_map.mpr ⟨e, he, eq_of_toNat_eq (heq.trans hptr.symm)⟩

theorem Consistent.take {s : Session} {pre post : List Block} {b : Block} {n : ℕ}
    {p : UInt64} {m : Memory} (h : Consistent s (pre ++ b :: post))
    (ht : Taken s.kmem pre b post n p m) :
    Consistent ⟨{ s.kmem with mem := m }, handOut s.live p n⟩
        (pre ++ (carve 48 32 (roundUp n) b ++ post)) ∧
      ∀ e ∈ s.live, e ∈ handOut s.live p n ∧
        ∀ x, e.1.toNat ≤ x → x < e.1.toNat + e.2 → m x = s.kmem.mem x := by
  have hfit := ht.fits
  have hp := ht.pointer
  rw [handOut, if_neg ht.ne_zero]
  have hold : used 48 s.kmem.gHeapBase.toNat (pre ++ b :: post) =
      used 48 s.kmem.gHeapBase.toNat pre ++ used 48 (s.kmem.addr pre + 48 + b.size) post := by
    rw [used_append, used_cons, if_pos hfit.1, ← KmemState.addr]
  obtain ⟨d, hcarve, -, hwd⟩ := used_carve 48 (s.kmem.addr pre) 32 (roundUp n) hfit.2
  have hnew : ∀ u, u ∈ used 48 s.kmem.gHeapBase.toNat
      (pre ++ (carve 48 32 (roundUp n) b ++ post)) ↔
      u = (s.kmem.addr pre, d) ∨ u ∈ used 48 s.kmem.gHeapBase.toNat (pre ++ b :: post) := by
    intro u
    rw [hold, used_append, used_append, ← KmemState.addr, hcarve, finish_carve]
    simp only [List.mem_append, List.mem_singleton]
    exact or_left_comm
  have hblock : (s.kmem.addr pre, b) ∈ layout 48 s.kmem.gHeapBase.toNat (pre ++ b :: post) :=
    mem_layout_cut 48 _ pre b post
  have hother : ∀ e ∈ s.live, e.1.toNat + e.2 ≤ s.kmem.addr pre ∨
      s.kmem.addr pre + 48 + b.size + 48 ≤ e.1.toNat := by
    intro e he
    rcases h.separated he hblock with ⟨-, -, hused⟩ | hsep
    · rw [hfit.1] at hused
      exact absurd hused (by decide)
    · exact hsep
  constructor
  · constructor
    case heap => exact ht.heap
    case owned =>
      intro e he
      rcases List.mem_cons.mp he with rfl | he
      · exact ⟨_, (hnew _).mpr (Or.inl rfl), hp, ht.positive, (roundUp_ge n).trans hwd⟩
      · obtain ⟨u, hu, howned⟩ := h.owned e he
        exact ⟨u, (hnew u).mpr (Or.inr hu), howned⟩
    case handed =>
      intro u hu
      rcases (hnew u).mp hu with rfl | hu
      · exact ⟨_, List.mem_cons_self, hp⟩
      · obtain ⟨e, he, hptr⟩ := h.handed u hu
        exact ⟨e, List.mem_cons_of_mem _ he, hptr⟩
    case distinct =>
      refine List.nodup_cons.mpr ⟨?_, h.distinct⟩
      intro hmem
      obtain ⟨e, he, heq⟩ := List.mem_map.mp hmem
      have hsep := hother e he
      have heq' : e.1 = p := heq
      rw [heq'] at hsep
      omega
  · intro e he
    refine ⟨List.mem_cons_of_mem _ he, fun x hlow hhigh => ?_⟩
    have hsep := hother e he
    exact ht.frame x (by omega)

theorem Session.step_alloc {s : Session} {bs : List Block} (h : Consistent s bs)
    (bytes : UInt64) :
    ∃ t r bs', s.step (.alloc bytes) = some (t, r) ∧ Consistent t bs' ∧
      Kept s (.alloc bytes) t ∧ Rearranged bs bs' := by
  rcases kmemAlloc_spec h.heap bytes with ⟨hnull, -⟩ | ⟨pre, b, post, p, m, rfl, ht, halloc⟩
  · refine ⟨s, .pointer 0, bs, ?_, h, Kept.refl s _, .same⟩
    simp only [Session.step, hnull, Option.map_some, handOut, if_true]
  · obtain ⟨hcons, hkept⟩ := h.take ht
    refine ⟨_, .pointer p, _, ?_, hcons, ⟨⟨rfl, rfl⟩, fun e he _ => hkept e he⟩, .taken ht.fits⟩
    simp only [Session.step, halloc, Option.map_some]

theorem Session.step_calloc {s : Session} {bs : List Block} (h : Consistent s bs)
    (count bytes : UInt64) :
    ∃ t r bs', s.step (.calloc count bytes) = some (t, r) ∧ Consistent t bs' ∧
      Kept s (.calloc count bytes) t ∧ Rearranged bs bs' := by
  rcases kmemCalloc_spec h.heap count bytes with ⟨hnull, -⟩ |
    ⟨pre, b, post, p, m, rfl, ht, hcalloc, -⟩
  · refine ⟨s, .pointer 0, bs, ?_, h, Kept.refl s _, .same⟩
    simp only [Session.step, hnull, Option.map_some, handOut, if_true]
  · obtain ⟨hcons, hkept⟩ := h.take ht
    refine ⟨_, .pointer p, _, ?_, hcons, ⟨⟨rfl, rfl⟩, fun e he _ => hkept e he⟩, .taken ht.fits⟩
    simp only [Session.step, hcalloc, Option.map_some]

theorem Consistent.outsideHeaders {s : Session} {bs : List Block} (h : Consistent s bs)
    {e : UInt64 × ℕ} (he : e ∈ s.live) {x : ℕ} (hlow : e.1.toNat ≤ x)
    (hhigh : x < e.1.toNat + e.2) : OutsideHeaders s.kmem.gHeapBase.toNat bs x := by
  intro q hq
  obtain ⟨⟨r, c⟩, hr, rfl⟩ := List.mem_map.mp hq
  have hsep := h.separated he hr
  simp only
  omega

theorem Consistent.drop {s : Session} {pre post : List Block} {b : Block} {p : UInt64}
    {m : Memory} (h : Consistent s (pre ++ b :: post)) (hb : b.free = false)
    (hp : p.toNat = s.kmem.addr pre + 48)
    (hheap : Heap { s.kmem with mem := m } (release 48 pre b post)) :
    Consistent ⟨{ s.kmem with mem := m }, s.live.filter (fun e => e.1 ≠ p)⟩
      (release 48 pre b post) := by
  have hmem : ∀ u, u ∈ used 48 s.kmem.gHeapBase.toNat (release 48 pre b post) ↔
      u ∈ used 48 s.kmem.gHeapBase.toNat (pre ++ b :: post) ∧ u.1 ≠ s.kmem.addr pre :=
    mem_used_release 48 (by decide) hb
  constructor
  case heap => exact hheap
  case owned =>
    intro e he
    obtain ⟨he, hne⟩ := List.mem_filter.mp he
    obtain ⟨u, hu, hptr, hsize⟩ := h.owned e he
    refine ⟨u, (hmem u).mpr ⟨hu, ?_⟩, hptr, hsize⟩
    intro haddr
    exact of_decide_eq_true hne (eq_of_toNat_eq (by omega))
  case handed =>
    intro u hu
    obtain ⟨hu, haddr⟩ := (hmem u).mp hu
    obtain ⟨e, he, hptr⟩ := h.handed u hu
    refine ⟨e, List.mem_filter.mpr ⟨he, decide_eq_true ?_⟩, hptr⟩
    intro heq
    rw [heq] at hptr
    omega
  case distinct => exact h.distinct.sublist (List.filter_sublist.map Prod.fst)

theorem Session.step_free {s : Session} {bs : List Block} (h : Consistent s bs)
    (ptr : UInt64) :
    ∃ t r bs', s.step (.free ptr) = some (t, r) ∧ Consistent t bs' ∧
      Kept s (.free ptr) t ∧ Rearranged bs bs' := by
  by_cases hlive : ptr ∈ s.live.map Prod.fst
  · obtain ⟨pre, b, post, rfl, hb, hp⟩ := (h.live_iff ptr).mp hlive
    obtain ⟨m, hfree, hheap, hframe⟩ := kmemFreeChecked_used h.heap hb hp
    refine ⟨_, _, _, by simp only [Session.step, hfree, Option.map_some]; rfl,
      h.drop hb hp hheap, ⟨⟨rfl, rfl⟩, ?_⟩, .released hb⟩
    intro e he hspare
    exact ⟨List.mem_filter.mpr ⟨he, decide_eq_true (Ne.symm hspare)⟩,
      fun x hlow hhigh => hframe x (h.outsideHeaders he hlow hhigh)⟩
  · obtain ⟨code, hfree, -⟩ := kmemFreeChecked_other h.heap
      (fun pre b post hbs hb hp => hlive ((h.live_iff ptr).mpr ⟨pre, b, post, hbs, hb, hp⟩))
    have hsame : s.live.filter (fun e => e.1 ≠ ptr) = s.live := by
      rw [List.filter_eq_self]
      intro e he
      apply decide_eq_true
      intro heq
      exact hlive (List.mem_map.mpr ⟨e, he, heq⟩)
    refine ⟨s, .code code, bs, ?_, h, Kept.refl s _, .same⟩
    simp only [Session.step, hfree, Option.map_some, hsame]

theorem Session.step_write {s : Session} {bs : List Block} (h : Consistent s bs)
    {ptr : UInt64} {offset : ℕ} {data : List UInt8} (hrule : WriteRule s ptr offset data) :
    ∃ t r bs', s.step (.write ptr offset data) = some (t, r) ∧ Consistent t bs' ∧
      Kept s (.write ptr offset data) t ∧ Rearranged bs bs' := by
  obtain ⟨hlive, hroom, hclean⟩ := hrule
  obtain ⟨e, he, rfl⟩ := List.mem_map.mp hlive
  obtain ⟨pre, c, post, rfl, -, hptr, -⟩ := h.block_of_live he
  have hcut := h.heap.tiled.cut
  rw [← KmemState.addr] at hcut
  have hsize : (sizeAt s.kmem.mem (kmemHeaderFromPayload e.1)).toNat = c.size := by
    rw [sizeAt, kmemHeaderFromPayload_toNat hptr]
    exact hcut.header.size
  rw [hsize] at hroom hclean
  have hmod := hcut.aligned
  have hshape := hcut.shape.1
  have hheap : Heap { s.kmem with
      mem := writeBytes s.kmem.mem (e.1.toNat + offset) data } (pre ++ c :: post) := by
    have haddr : s.kmem.addr pre = finish 48 s.kmem.gHeapBase.toNat pre := rfl
    refine ⟨h.heap.initialized, h.heap.head, h.heap.tiled.rewritePayload haddr ?_ ?_⟩
    · intro x hx
      exact writeBytes_outside _ (by omega)
    · intro x hx hlow hhigh
      have hword := hclean ((x - e.1.toNat) / 16) (by omega)
      have hpos : e.1.toNat + 16 * ((x - e.1.toNat) / 16) = x := by omega
      rw [hpos] at hword
      exact hword
  refine ⟨_, .written, _, rfl, ⟨hheap, h.owned, h.handed, h.distinct⟩, ⟨⟨rfl, rfl⟩, ?_⟩, .same⟩
  intro f hf hspare
  refine ⟨hf, fun x hlow hhigh => writeBytes_outside _ ?_⟩
  have hsep := h.separated hf (mem_layout_cut 48 _ pre c post)
  rw [← KmemState.addr] at hsep
  rcases hsep with ⟨hsame, -⟩ | hapart
  · exact absurd (eq_of_toNat_eq (hptr.trans hsame.symm)) hspare
  · omega

theorem Session.step_consistent {s : Session} {bs : List Block} (h : Consistent s bs)
    {c : KmemCall} (hrule : ClientRule s c) :
    ∃ t r bs', s.step c = some (t, r) ∧ Consistent t bs' ∧ Kept s c t ∧
      Rearranged bs bs' := by
  cases c with
  | alloc bytes => exact Session.step_alloc h bytes
  | calloc count bytes => exact Session.step_calloc h count bytes
  | free ptr => exact Session.step_free h ptr
  | write ptr offset data => exact Session.step_write h hrule

/-- The arena is a C object that contains no aligned magic word, and `kmem_init` accepts it. -/
structure Initialised (s : KmemState) (base bytes : UInt64) (t : KmemState) : Prop where
  size : bytes.toNat ≤ 2 ^ 63 - 1
  noWrap : base.toNat + bytes.toNat < 2 ^ 64
  clean : ∀ x, x % 16 = 0 → base.toNat ≤ x → x + 8 ≤ base.toNat + bytes.toNat →
    loadU64 s.mem x ≠ kmemMagic
  accepted : kmemInit s base bytes = some (0, t)

theorem Initialised.single {s t : KmemState} {base bytes : UInt64}
    (h : Initialised s base bytes t) :
    ∃ size, 32 < size ∧ Consistent ⟨t, []⟩ [⟨size, true⟩] := by
  have hsize := h.size
  obtain ⟨size, hroom, hheap⟩ := kmemInit_heap (by omega) h.noWrap h.clean h.accepted
  refine ⟨size, hroom, hheap, fun e he => absurd he List.not_mem_nil, fun u hu => ?_,
    List.nodup_nil⟩
  exact absurd hu (by simp [used_cons, used_nil])

theorem Initialised.consistent {s t : KmemState} {base bytes : UInt64}
    (h : Initialised s base bytes t) : ∃ bs, Consistent ⟨t, []⟩ bs := by
  obtain ⟨size, -, hcons⟩ := h.single
  exact ⟨_, hcons⟩

theorem run_arranged (P : List Block → Prop) (hP : ∀ bs bs', Rearranged bs bs' → P bs → P bs')
    {s : Session} (hs : ∃ bs, Consistent s bs ∧ P bs) {calls : List KmemCall}
    (hclient : Along Session.step ClientRule s calls) :
    ∃ u replies, run Session.step s calls = some (u, replies) ∧
      (∃ bs, Consistent u bs ∧ P bs) ∧ u.kmem.gHeapBase = s.kmem.gHeapBase ∧
      u.kmem.gHeapEnd = s.kmem.gHeapEnd := by
  apply run_total_along (fun u => (∃ bs, Consistent u bs ∧ P bs) ∧
    u.kmem.gHeapBase = s.kmem.gHeapBase ∧ u.kmem.gHeapEnd = s.kmem.gHeapEnd) ClientRule _
    ⟨hs, rfl, rfl⟩ hclient
  intro u c hu hrule
  obtain ⟨⟨bs, hcons, hbs⟩, hbase, hend⟩ := hu
  obtain ⟨t, r, bs', hstep, hcons', hkept, hblocks⟩ := Session.step_consistent hcons hrule
  exact ⟨t, r, hstep, ⟨bs', hcons', hP bs bs' hblocks hbs⟩, hkept.region.1.trans hbase,
    hkept.region.2.trans hend⟩

theorem run_consistent {s : Session} (hs : ∃ bs, Consistent s bs) {calls : List KmemCall}
    (hclient : Along Session.step ClientRule s calls) :
    ∃ u replies, run Session.step s calls = some (u, replies) ∧
      (∃ bs, Consistent u bs) ∧ u.kmem.gHeapBase = s.kmem.gHeapBase ∧
      u.kmem.gHeapEnd = s.kmem.gHeapEnd := by
  obtain ⟨bs, hcons⟩ := hs
  obtain ⟨u, replies, hrun, ⟨bs', hcons', -⟩, hregion⟩ :=
    run_arranged (fun _ => True) (fun _ _ _ _ => trivial) ⟨bs, hcons, trivial⟩ hclient
  exact ⟨u, replies, hrun, ⟨bs', hcons'⟩, hregion⟩

theorem run_spares {s : Session} (hs : ∃ bs, Consistent s bs) {calls : List KmemCall}
    (hclient : Along Session.step ClientRule s calls) {e : UInt64 × ℕ} (he : e ∈ s.live)
    (hspare : ∀ c ∈ calls, c.Spares e.1) :
    ∃ u replies, run Session.step s calls = some (u, replies) ∧ e ∈ u.live ∧
      ∀ x, e.1.toNat ≤ x → x < e.1.toNat + e.2 → u.kmem.mem x = s.kmem.mem x := by
  have halong : Along Session.step (fun u c => ClientRule u c ∧ c.Spares e.1) s calls :=
    hclient.mono (fun u c hc hrule => ⟨hrule, hspare c hc⟩)
  obtain ⟨u, replies, hrun, -, hkeep⟩ := run_total_along (fun u => (∃ bs, Consistent u bs) ∧
    e ∈ u.live ∧ ∀ x, e.1.toNat ≤ x → x < e.1.toNat + e.2 → u.kmem.mem x = s.kmem.mem x)
    (fun u c => ClientRule u c ∧ c.Spares e.1) (by
      intro u c hu hrule
      obtain ⟨⟨bs, hcons⟩, hlive, hbytes⟩ := hu
      obtain ⟨t, r, bs', hstep, hcons', hkept, -⟩ := Session.step_consistent hcons hrule.1
      obtain ⟨hlive', hbytes'⟩ := hkept.spared e hlive hrule.2
      exact ⟨t, r, hstep, ⟨bs', hcons'⟩, hlive', fun x hlow hhigh =>
        (hbytes' x hlow hhigh).trans (hbytes x hlow hhigh)⟩)
    ⟨hs, he, fun x _ _ => rfl⟩ halong
  exact ⟨u, replies, hrun, hkeep⟩

def Linked (m : Memory) : UInt64 → List UInt64 → Prop
  | cur, [] => cur = 0
  | cur, h :: hs => cur = h ∧ h ≠ 0 ∧ Linked m (nextAt m h) hs

structure ExactTiling (s : KmemState) (hs : List UInt64) : Prop where
  linked : Linked s.mem s.gHead hs
  first : hs.head? = some s.gHeapBase
  contiguous : hs.IsChain (fun a b => b.toNat = a.toNat + 48 + (sizeAt s.mem a).toNat)
  last : ∀ a, hs.getLast? = some a →
    a.toNat + 48 + (sizeAt s.mem a).toNat = s.gHeapEnd.toNat
  firstPrev : prevAt s.mem s.gHeapBase = 0
  prev : hs.IsChain (fun a b => prevAt s.mem b = a)
  magic : ∀ a ∈ hs, magicAt s.mem a = kmemMagic
  size : ∀ a ∈ hs, (sizeAt s.mem a).toNat % 16 = 0 ∧ 16 ≤ (sizeAt s.mem a).toNat

def headers (a : ℕ) (bs : List Block) : List UInt64 := (starts 48 a bs).map UInt64.ofNat

theorem headers_cons (a : ℕ) (b : Block) (bs : List Block) :
    headers a (b :: bs) = UInt64.ofNat a :: headers (a + 48 + b.size) bs := rfl

theorem Seg.linked {m : Memory} {E prev a : ℕ} {bs : List Block} (h : Seg m E prev a bs)
    (hfinish : finish 48 a bs = E) (hE : E < 2 ^ 64) (ha : 0 < a) :
    Linked m (UInt64.ofNat (linkTo E a)) (headers a bs) := by
  induction bs generalizing prev a with
  | nil =>
    have hend : a = E := hfinish
    rw [linkTo, if_pos hend]
    rfl
  | cons b bs ih =>
    have hle := le_finish 48 (a + 48 + b.size) bs
    have hfinish' : finish 48 (a + 48 + b.size) bs = E := hfinish
    have haddr : (UInt64.ofNat a).toNat = a := toNat_ofNat_of_lt (by omega)
    rw [headers_cons, linkTo, if_neg (by omega)]
    refine ⟨rfl, ?_, ?_⟩
    · rw [Ne, eq_zero_iff, haddr]
      omega
    · have hnext : nextAt m (UInt64.ofNat a) = UInt64.ofNat (linkTo E (a + 48 + b.size)) := by
        rw [← h.1.next, UInt64.ofNat_toNat, nextAt, haddr]
      rw [hnext]
      exact ih h.2 hfinish' (by omega)

theorem Seg.neighbours {m : Memory} {E prev a : ℕ} {bs : List Block} (h : Seg m E prev a bs)
    (hfinish : finish 48 a bs = E) (hE : E < 2 ^ 64) :
    (headers a bs).IsChain (fun a b => b.toNat = a.toNat + 48 + (sizeAt m a).toNat) ∧
      (headers a bs).IsChain (fun a b => prevAt m b = a) := by
  induction bs generalizing prev a with
  | nil => exact ⟨List.isChain_nil, List.isChain_nil⟩
  | cons b bs ih =>
    have hle := le_finish 48 (a + 48 + b.size) bs
    have hfinish' : finish 48 (a + 48 + b.size) bs = E := hfinish
    have haddr : (UInt64.ofNat a).toNat = a := toNat_ofNat_of_lt (by omega)
    obtain ⟨hcontiguous, hprev⟩ := ih h.2 hfinish'
    cases bs with
    | nil => exact ⟨List.isChain_singleton _, List.isChain_singleton _⟩
    | cons c cs =>
      have hle' := add_hdr_le_finish 48 (a + 48 + b.size) (List.cons_ne_nil c cs)
      have hnext : (UInt64.ofNat (a + 48 + b.size)).toNat = a + 48 + b.size :=
        toNat_ofNat_of_lt (by omega)
      rw [headers_cons, headers_cons]
      refine ⟨List.isChain_cons_cons.mpr ⟨?_, hcontiguous⟩,
        List.isChain_cons_cons.mpr ⟨?_, hprev⟩⟩
      · rw [hnext, haddr, sizeAt, haddr, h.1.size]
      · apply eq_of_toNat_eq
        rw [prevAt, hnext, haddr]
        exact h.2.1.prev

theorem Heap.exists_block {s : KmemState} {bs : List Block} (h : Heap s bs) {a : UInt64}
    (ha : a ∈ headers s.gHeapBase.toNat bs) :
    ∃ pre b post, bs = pre ++ b :: post ∧ a.toNat = s.addr pre := by
  obtain ⟨q, hq, rfl⟩ := List.mem_map.mp ha
  obtain ⟨⟨r, b⟩, hr, rfl⟩ := List.mem_map.mp hq
  have hbounds := layout_bounds 48 hr
  have hbound := h.tiled.bound
  rw [h.tiled.finish] at hbounds
  obtain ⟨pre, post, hbs, haddr⟩ := exists_cut_of_mem_layout 48 hr
  refine ⟨pre, b, post, hbs, ?_⟩
  rw [toNat_ofNat_of_lt (by simp only; omega), KmemState.addr, ← haddr]

theorem Heap.exactTiling {s : KmemState} {bs : List Block} (h : Heap s bs) :
    ExactTiling s (headers s.gHeapBase.toNat bs) := by
  have hproper := h.tiled.proper
  have hbase : UInt64.ofNat s.gHeapBase.toNat = s.gHeapBase := UInt64.ofNat_toNat
  have hneighbours := h.tiled.seg.neighbours h.tiled.finish h.tiled.bound
  constructor
  case linked =>
    have hlinked := h.tiled.seg.linked h.tiled.finish h.tiled.bound h.tiled.base
    rw [linkTo, if_neg (by omega), hbase] at hlinked
    rw [h.head]
    exact hlinked
  case first =>
    cases bs with
    | nil => exact absurd h.tiled.finish (by simp only [finish]; omega)
    | cons b bs => rw [headers_cons, hbase, List.head?_cons]
  case contiguous => exact hneighbours.1
  case last =>
    intro a ha
    rcases List.eq_nil_or_concat bs with rfl | ⟨front, b, rfl⟩
    · cases ha
    rw [List.concat_eq_append] at h ha
    rw [headers, starts_append, List.map_append] at ha
    have hlast : a = UInt64.ofNat (s.addr front) := by
      simpa [starts, layout, KmemState.addr] using ha.symm
    have hcut := h.tiled.cut
    have hupper := hcut.upper
    have hbound := hcut.bound
    have hend : finish 48 s.gHeapBase.toNat front + 48 + b.size = s.gHeapEnd.toNat := hcut.finish
    rw [← KmemState.addr] at hupper hend
    have haddr : a.toNat = s.addr front := by
      rw [hlast]
      exact toNat_ofNat_of_lt (by omega)
    rw [sizeAt, haddr, KmemState.addr, hcut.header.size]
    exact hend
  case firstPrev =>
    cases bs with
    | nil => exact absurd h.tiled.finish (by simp only [finish]; omega)
    | cons b bs => exact (eq_zero_iff _).mpr h.tiled.seg.1.prev
  case prev => exact hneighbours.2
  case magic =>
    intro a ha
    obtain ⟨pre, b, post, rfl, haddr⟩ := h.exists_block ha
    rw [magicAt, haddr]
    exact h.tiled.cut.header.magic
  case size =>
    intro a ha
    obtain ⟨pre, b, post, rfl, haddr⟩ := h.exists_block ha
    have hcut := h.tiled.cut
    rw [sizeAt, haddr, KmemState.addr, hcut.header.size]
    exact hcut.shape

/-- After every run of a client that keeps the rules, the block list tiles the heap. -/
theorem heap_tiling {s t : KmemState} {base bytes : UInt64} (hinit : Initialised s base bytes t)
    {calls : List KmemCall} (hclient : Along Session.step ClientRule ⟨t, []⟩ calls) :
    ∃ u replies, run Session.step ⟨t, []⟩ calls = some (u, replies) ∧
      u.kmem.gHeapBase = t.gHeapBase ∧ u.kmem.gHeapEnd = t.gHeapEnd ∧
      ∃ hs, ExactTiling u.kmem hs := by
  obtain ⟨u, replies, hrun, ⟨bs, hcons⟩, hregion⟩ := run_consistent hinit.consistent hclient
  exact ⟨u, replies, hrun, hregion.1, hregion.2, _, hcons.heap.exactTiling⟩

def sampleHeap : KmemState :=
  { mem := installHead zeroedState.mem 4096 464, gHeapBase := 4096, gHeapEnd := 4608,
    gHead := 4096, gInitialized := true }

theorem sampleHeap_initialised : Initialised zeroedState 4096 512 sampleHeap := by
  have hvalid : kmemValidate sampleHeap = some 0 := by decide +kernel
  have hinit : kmemInit zeroedState 4096 512 =
      (kmemValidate sampleHeap).map (fun code => (code, sampleHeap)) := rfl
  refine ⟨by decide, by decide, ?_, ?_⟩
  · exact fun _ _ _ _ => not_magicWord_of_zero (i := 0) (by decide) rfl
  · rw [hinit, hvalid, Option.map_some]

def sampleCalls : List KmemCall :=
  [.alloc 24, .calloc 2 8, .write 4144 4 [1, 2, 3], .free 4144, .alloc 8]

theorem sampleCalls_rule : Along Session.step ClientRule ⟨sampleHeap, []⟩ sampleCalls := by
  decide +kernel

theorem heap_tiling_sample :
    ∃ u replies, run Session.step ⟨sampleHeap, []⟩ sampleCalls = some (u, replies) ∧
      u.kmem.gHeapBase = 4096 ∧ u.kmem.gHeapEnd = 4608 ∧ ∃ hs, ExactTiling u.kmem hs :=
  heap_tiling sampleHeap_initialised sampleCalls_rule

structure Owns (s : KmemState) (hs : List UInt64) (e : UInt64 × ℕ) : Prop where
  aligned : e.1.toNat % 16 = 0
  lower : s.gHeapBase.toNat ≤ e.1.toNat
  upper : e.1.toNat + e.2 ≤ s.gHeapEnd.toNat
  header : ∀ a ∈ hs, e.1.toNat + e.2 ≤ a.toNat ∨ a.toNat + 48 ≤ e.1.toNat

theorem Consistent.owns {s : Session} {bs : List Block} (h : Consistent s bs)
    {e : UInt64 × ℕ} (he : e ∈ s.live) :
    Owns s.kmem (headers s.kmem.gHeapBase.toNat bs) e := by
  obtain ⟨pre, c, post, hbs, -, hptr, hsize⟩ := h.block_of_live he
  have hcut := (hbs ▸ h.heap).tiled.cut
  rw [← KmemState.addr] at hcut
  constructor
  case aligned =>
    have haligned := hcut.aligned
    omega
  case lower =>
    have hlower := hcut.lower
    omega
  case upper =>
    have hupper := hcut.upper
    omega
  case header =>
    intro a ha
    obtain ⟨pre, b, post, rfl, haddr⟩ := h.heap.exists_block ha
    have hsep := h.separated he (mem_layout_cut 48 _ pre b post)
    rw [← KmemState.addr, ← haddr] at hsep
    omega

theorem Consistent.disjoint {s : Session} {bs : List Block} (h : Consistent s bs) :
    s.live.Pairwise (fun e f => e.1.toNat + e.2 ≤ f.1.toNat ∨ f.1.toNat + f.2 ≤ e.1.toNat) := by
  have hne : s.live.Pairwise (fun e f => e.1 ≠ f.1) := List.pairwise_map.mp h.distinct
  refine hne.imp_of_mem ?_
  intro e f he hf hef
  obtain ⟨⟨q, c⟩, hu, hptr, -, hsize⟩ := h.owned f hf
  simp only at hptr hsize
  rcases h.separated he ((mem_used 48).mp hu).1 with ⟨hsame, -⟩ | hsep
  · exact absurd (eq_of_toNat_eq (by omega)) hef
  · omega

/-- Every live pointer owns its bytes: they lie apart from all headers and other allocations,
and no later call that spares the pointer changes them. -/
theorem live_allocations_owned {s t : KmemState} {base bytes : UInt64}
    (hinit : Initialised s base bytes t) {calls : List KmemCall}
    (hclient : Along Session.step ClientRule ⟨t, []⟩ calls) :
    ∃ u replies hs, run Session.step ⟨t, []⟩ calls = some (u, replies) ∧
      Linked u.kmem.mem u.kmem.gHead hs ∧ (∀ e ∈ u.live, Owns u.kmem hs e) ∧
      u.live.Pairwise
        (fun e f => e.1.toNat + e.2 ≤ f.1.toNat ∨ f.1.toNat + f.2 ≤ e.1.toNat) ∧
      ∀ e ∈ u.live, ∀ more, Along Session.step ClientRule u more →
        (∀ c ∈ more, c.Spares e.1) →
        ∃ v replies', run Session.step u more = some (v, replies') ∧ e ∈ v.live ∧
          ∀ x, e.1.toNat ≤ x → x < e.1.toNat + e.2 → v.kmem.mem x = u.kmem.mem x := by
  obtain ⟨u, replies, hrun, ⟨bs, hcons⟩, -⟩ := run_consistent hinit.consistent hclient
  refine ⟨u, replies, _, hrun, hcons.heap.exactTiling.linked, fun e he => hcons.owns he,
    hcons.disjoint, ?_⟩
  intro e he more hmore hspare
  exact run_spares ⟨bs, hcons⟩ hmore he hspare

theorem live_allocations_sample :
    ∃ u replies hs, run Session.step ⟨sampleHeap, []⟩ sampleCalls = some (u, replies) ∧
      u.live = [(4144, 8), (4224, 16)] ∧ Linked u.kmem.mem u.kmem.gHead hs ∧
      (∀ e ∈ u.live, Owns u.kmem hs e) ∧
      ∃ v replies', run Session.step u [.free 4144, .alloc 1] = some (v, replies') ∧
        ∀ x, 4224 ≤ x → x < 4224 + 16 → v.kmem.mem x = u.kmem.mem x := by
  obtain ⟨u, replies, hs, hrun, hlinked, howns, -, hlater⟩ :=
    live_allocations_owned sampleHeap_initialised sampleCalls_rule
  have hlive : u.live = [(4144, 8), (4224, 16)] := by
    have hrun' : (run Session.step ⟨sampleHeap, []⟩ sampleCalls).map (fun r => r.1.live) =
        some [(4144, 8), (4224, 16)] := by decide +kernel
    rw [hrun] at hrun'
    exact Option.some.inj hrun'
  obtain ⟨v, replies', hrun', -, hbytes⟩ := hlater (4224, 16) (by simp [hlive])
    [.free 4144, .alloc 1] ⟨trivial, fun _ _ _ => ⟨trivial, fun _ _ _ => trivial⟩⟩
    (by simp [KmemCall.Spares])
  exact ⟨u, replies, hs, hrun, hlive, hlinked, howns, v, replies', hrun', hbytes⟩

end Mcsos.Kmem
