import Mcsos.KmemRuns

/-!
# What the arena held before

`kmem_init` writes one header and leaves the other bytes of the arena as they are. Two heaps
whose block headers agree are driven in lockstep: the allocator reads nothing else, except that
`kmem_free_checked` looks for the magic number in front of any pointer. A header that is left
over from an earlier heap passes this test.
-/

namespace Mcsos.Kmem
open BoundedLoop ByteMemory WordArithmetic BlockList StepRun

/-- The bytes of a header that are used; the two reserved fields are not. -/
def FieldByte (q x : ℕ) : Prop := q ≤ x ∧ x < q + 20 ∨ q + 32 ≤ x ∧ x < q + 48

def SameHeaders (hs : List ℕ) (m m' : Memory) : Prop :=
  ∀ q ∈ hs, ∀ x, FieldByte q x → m' x = m x

section Fields

variable {hs : List ℕ} {m m' : Memory}

theorem SameHeaders.mono {hs' : List ℕ} (h : SameHeaders hs m m') (hsub : ∀ q ∈ hs', q ∈ hs) :
    SameHeaders hs' m m' := fun q hq => h q (hsub q hq)

theorem SameHeaders.store64 (h : SameHeaders hs m m') (a : ℕ) (v : UInt64) :
    SameHeaders hs (storeU64 m a v) (storeU64 m' a v) :=
  fun q hq x hx => storeU64_congr (Or.inl (h q hq x hx))

theorem SameHeaders.store32 (h : SameHeaders hs m m') (a : ℕ) (v : UInt32) :
    SameHeaders hs (storeU32 m a v) (storeU32 m' a v) :=
  fun q hq x hx => storeU32_congr (Or.inl (h q hq x hx))

theorem SameHeaders.fill (h : SameHeaders hs m m') (a n : ℕ) (v : UInt8) :
    SameHeaders hs (fillRange m a n v) (fillRange m' a n v) := by
  intro q hq x hx
  rw [fillRange, fillRange, h q hq x hx]

theorem SameHeaders.link (h : SameHeaders hs m m') (next b : UInt64) :
    SameHeaders hs (linkAfter m next b) (linkAfter m' next b) := by
  rw [linkAfter, linkAfter]
  split_ifs
  · exact h.store64 _ _
  · exact h

theorem SameHeaders.install (h : SameHeaders hs m m') (b size prev next : UInt64) :
    SameHeaders (b.toNat :: hs) (installHeader m b size prev next)
      (installHeader m' b size prev next) := by
  simp only [installHeader, setMagic, setSize, setFree, setPrev, setNext]
  intro q hq x hx
  rcases List.mem_cons.mp hq with rfl | hq
  · by_cases h₄₀ : b.toNat + 40 ≤ x
    · exact storeU64_congr (Or.inr (by unfold FieldByte at hx; omega))
    apply storeU64_congr (Or.inl _)
    by_cases h₃₂ : b.toNat + 32 ≤ x
    · exact storeU64_congr (Or.inr (by omega))
    apply storeU64_congr (Or.inl _)
    by_cases h₁₆ : b.toNat + 16 ≤ x
    · exact storeU32_congr (Or.inr (by unfold FieldByte at hx; omega))
    apply storeU32_congr (Or.inl _)
    by_cases h₈ : b.toNat + 8 ≤ x
    · exact storeU64_congr (Or.inr (by omega))
    apply storeU64_congr (Or.inl _)
    exact storeU64_congr (Or.inr (by unfold FieldByte at hx; omega))
  · exact ((((h.store64 _ _).store64 _ _).store32 _ _).store64 _ _).store64 _ _ q hq x hx

variable {b : UInt64}

theorem SameHeaders.magic_eq (h : SameHeaders hs m m') (hb : b.toNat ∈ hs) :
    magicAt m' b = magicAt m b :=
  loadU64_congr (fun x _ _ => h _ hb x (by unfold FieldByte; omega))

theorem SameHeaders.size_eq (h : SameHeaders hs m m') (hb : b.toNat ∈ hs) :
    sizeAt m' b = sizeAt m b :=
  loadU64_congr (fun x _ _ => h _ hb x (by unfold FieldByte; omega))

theorem SameHeaders.free_eq (h : SameHeaders hs m m') (hb : b.toNat ∈ hs) :
    freeAt m' b = freeAt m b :=
  loadU32_congr (fun x _ _ => h _ hb x (by unfold FieldByte; omega))

theorem SameHeaders.prev_eq (h : SameHeaders hs m m') (hb : b.toNat ∈ hs) :
    prevAt m' b = prevAt m b :=
  loadU64_congr (fun x _ _ => h _ hb x (by unfold FieldByte; omega))

theorem SameHeaders.next_eq (h : SameHeaders hs m m') (hb : b.toNat ∈ hs) :
    nextAt m' b = nextAt m b :=
  loadU64_congr (fun x _ _ => h _ hb x (by unfold FieldByte; omega))

theorem SameHeaders.split (h : SameHeaders hs m m') (hb : b.toNat ∈ hs) {n : UInt64}
    (hsep : b.toNat + 48 ≤ n.toNat) (wanted consumed : UInt64) :
    SameHeaders (n.toNat :: hs) (installSplit m b n wanted consumed)
      (installSplit m' b n wanted consumed) := by
  rw [installSplit_eq wanted consumed hsep, installSplit_eq wanted consumed hsep, h.size_eq hb,
    h.next_eq hb]
  exact (((h.install _ _ _ _).link _ _).store64 _ _).store64 _ _

theorem SameHeaders.clear (h : SameHeaders hs m m') (b : UInt64) :
    SameHeaders hs (clearHeader m b) (clearHeader m' b) := by
  simp only [clearHeader, setMagic, setSize, setPrev, setNext]
  exact (((h.store64 _ _).store64 _ _).store64 _ _).store64 _ _

theorem SameHeaders.absorb (h : SameHeaders hs m m') (hb : b.toNat ∈ hs) {n : UInt64}
    (hn : n.toNat ∈ hs) (hsep : b.toNat + 48 ≤ n.toNat) :
    SameHeaders hs (absorbNext m b n) (absorbNext m' b n) := by
  rw [absorbNext_eq hsep, absorbNext_eq hsep, h.size_eq hb, h.size_eq hn, h.next_eq hn]
  simp only [setSize, setNext]
  exact (((h.store64 _ _).store64 _ _).link _ _).clear n

end Fields

theorem mem_starts_cut (a : ℕ) (pre : List Block) (b : Block) (post : List Block) :
    finish 48 a pre ∈ starts 48 a (pre ++ b :: post) :=
  List.mem_map.mpr ⟨_, mem_layout_cut 48 a pre b post, rfl⟩

def Shows (s : KmemState) (bs : List Block) (m : Memory) : Prop :=
  SameHeaders (starts 48 s.gHeapBase.toNat bs) s.mem m

section Allocation

variable {s : KmemState} {bs pre post : List Block} {b : Block} {m : Memory} {p wanted : UInt64}

theorem mem_starts_at (b : Block) (post : List Block) (hp : p.toNat = s.addr pre) :
    p.toNat ∈ starts 48 s.gHeapBase.toNat (pre ++ b :: post) := by
  rw [hp]
  exact mem_starts_cut _ pre b post

theorem Shows.take (h : Shows s (pre ++ b :: post) m) (hheap : Heap s (pre ++ b :: post))
    (hp : p.toNat = s.addr pre) (hmod : wanted.toNat % 16 = 0) (hfit : wanted.toNat ≤ b.size) :
    ∃ m', takeBlock { s with mem := m } p wanted = { s with mem := m' } ∧
      SameHeaders (starts 48 s.gHeapBase.toNat (pre ++ (carve 48 32 wanted.toNat b ++ post)))
        (takeBlock s p wanted).mem m' := by
  have hmem := mem_starts_at b post hp
  have hclean : kmemSplitIfUseful s p wanted = _ := kmemSplitIfUseful_eq hheap hp hmod hfit rfl
  have hdirty := kmemSplitIfUseful_eq hheap hp hmod hfit (h.size_eq hmem)
  have hupper := hheap.tiled.cut.upper
  have hbound := hheap.tiled.bound
  rw [← KmemState.addr, ← hp] at hupper
  by_cases hroom : wanted.toNat + 80 < b.size
  · rw [if_pos hroom] at hclean hdirty
    have hnew : (kmemPayload p + wanted).toNat = p.toNat + 48 + wanted.toNat := by
      rw [toNat_add_of_lt _ _ (by rw [kmemPayload_toNat (by omega)]; omega),
        kmemPayload_toNat (by omega)]
    use setFree (installSplit m p (kmemPayload p + wanted) wanted wanted) p 0
    constructor
    · rw [takeBlock, hdirty]
    · rw [takeBlock, hclean, carve, if_pos (by omega)]
      apply ((h.split hmem (by omega) wanted wanted).store32 _ _).mono
      intro q hq
      rw [starts_append, starts_append, List.mem_append, List.mem_append] at hq
      rw [starts_append, starts_cons, List.mem_cons, List.mem_append, List.mem_cons, hnew, hp,
        KmemState.addr]
      rcases hq with hq | hq | hq
      · exact Or.inr (Or.inl hq)
      · rcases List.mem_cons.mp hq with rfl | hq
        · exact Or.inr (Or.inr (Or.inl rfl))
        · exact Or.inl (List.mem_singleton.mp hq)
      · have hend : finish 48 (finish 48 s.gHeapBase.toNat pre)
            [⟨wanted.toNat, false⟩, ⟨b.size - wanted.toNat - 48, true⟩] =
              finish 48 s.gHeapBase.toNat pre + 48 + b.size := by
          simp only [finish]
          omega
        rw [hend] at hq
        exact Or.inr (Or.inr (Or.inr hq))
  · rw [if_neg hroom] at hclean hdirty
    use setFree m p 0
    constructor
    · rw [takeBlock, hdirty]
    · rw [takeBlock, hclean, carve, if_neg (by omega)]
      have hsame : starts 48 s.gHeapBase.toNat (pre ++ ([⟨b.size, false⟩] ++ post)) =
          starts 48 s.gHeapBase.toNat (pre ++ b :: post) := by
        rw [starts_append, starts_append, starts_append]
        rfl
      rw [hsame]
      exact h.store32 _ _

def Inside (s : KmemState) (bs : List Block) (cur : UInt64) : Prop :=
  ∃ pre rest, bs = pre ++ rest ∧ At s cur pre

theorem Heap.inside_cases (hheap : Heap s bs) {cur : UInt64} (h : Inside s bs cur) :
    cur = 0 ∨ ∃ pre b post, bs = pre ++ b :: post ∧ At s cur pre ∧ cur ≠ 0 ∧
      cur.toNat = s.addr pre ∧ cur.toNat ∈ starts 48 s.gHeapBase.toNat bs ∧
      Inside s bs (nextAt s.mem cur) := by
  obtain ⟨pre, rest, rfl, hcur⟩ := h
  cases rest with
  | nil => exact Or.inl (hheap.at_nil hcur)
  | cons b post =>
    obtain ⟨hne, haddr⟩ := hheap.at_cons hcur
    right
    use pre, b, post, rfl, hcur, hne, haddr
    constructor
    · rw [haddr]
      exact mem_starts_cut _ pre b post
    · exact ⟨pre ++ [b], post, by simp, hheap.next_at haddr⟩

theorem Heap.inside_head (hheap : Heap s bs) : Inside s bs s.gHead :=
  ⟨[], bs, rfl, hheap.head_at⟩

theorem Shows.allocBody_eq (h : Shows s (pre ++ b :: post) m)
    (hheap : Heap s (pre ++ b :: post)) {cur : UInt64} (hcur : At s cur pre) (wanted : UInt64) :
    allocBody { s with mem := m } wanted cur =
      if freeAt s.mem cur ≠ 0 ∧ sizeAt s.mem cur ≥ wanted then
        some (.done (kmemPayload cur, takeBlock { s with mem := m } cur wanted))
      else some (.next (nextAt s.mem cur)) := by
  obtain ⟨hne, haddr⟩ := hheap.at_cons hcur
  have hmem := mem_starts_at b post haddr
  have hmagic : ¬ magicAt s.mem cur ≠ kmemMagic := by
    have hheader := hheap.tiled.cut.header.magic
    rw [← KmemState.addr, ← haddr] at hheader
    exact not_not.mpr hheader
  rw [allocBody, if_neg hne, h.magic_eq hmem, if_neg hmagic, h.free_eq hmem, h.size_eq hmem,
    h.next_eq hmem]
  rfl

theorem Shows.searched (h : Shows s bs m) (hheap : Heap s bs) {fuel : ℕ}
    {r : UInt64 × KmemState} (hr : loop (allocBody s wanted) fuel s.gHead = some r) :
    ∃ r', loop (allocBody { s with mem := m } wanted) fuel s.gHead = some r' ∧
      ((r = (0, s) ∧ r' = (0, { s with mem := m })) ∨
        ∃ pre b post p, bs = pre ++ b :: post ∧ p.toNat = s.addr pre ∧ Fits wanted.toNat b ∧
          r = (kmemPayload p, takeBlock s p wanted) ∧
          r' = (kmemPayload p, takeBlock { s with mem := m } p wanted)) := by
  apply loop_lockstep _ (fun cur cur' => cur' = cur ∧ Inside s bs cur) _ _
    ⟨rfl, hheap.inside_head⟩ hr
  intro cur cur' hR
  obtain ⟨rfl, hinside⟩ := hR
  rcases hheap.inside_cases hinside with hnull |
    ⟨pre, b, post, rfl, hcur, -, haddr, -, hnext⟩
  · left
    exact ⟨_, _, by rw [allocBody, if_pos hnull], by rw [allocBody, if_pos hnull],
      Or.inl ⟨rfl, rfl⟩⟩
  · have hdirty := h.allocBody_eq hheap hcur wanted
    have hself : allocBody s wanted cur' = _ :=
      Shows.allocBody_eq (fun _ _ _ _ => rfl) hheap hcur wanted
    by_cases hcond : freeAt s.mem cur' ≠ 0 ∧ sizeAt s.mem cur' ≥ wanted
    · rw [if_pos hcond] at hself hdirty
      rcases Kmem.allocBody_eq hheap hcur wanted with ⟨hfit, -⟩ | ⟨-, hclean⟩
      · exact Or.inl ⟨_, _, hself, hdirty,
          Or.inr ⟨pre, b, post, cur', rfl, haddr, hfit, rfl, rfl⟩⟩
      · cases hself.symm.trans hclean
    · rw [if_neg hcond] at hself hdirty
      exact Or.inr ⟨_, _, hself, hdirty, rfl, hnext⟩

end Allocation

def Together (s : KmemState) (r r' : KmemState) : Prop :=
  ∃ m m' bs, r = { s with mem := m } ∧ r' = { s with mem := m' } ∧
    Heap { s with mem := m } bs ∧ SameHeaders (starts 48 s.gHeapBase.toNat bs) m m'

section Calls

variable {s : KmemState} {bs pre post : List Block} {b : Block} {m : Memory}

theorem Shows.together (h : Shows s bs m) (hheap : Heap s bs) :
    Together s s { s with mem := m } := ⟨s.mem, m, bs, rfl, rfl, hheap, h⟩

theorem Shows.alloc (h : Shows s bs m) (hheap : Heap s bs) (bytes : UInt64) :
    (kmemAlloc s bytes = some (0, s) ∧
      kmemAlloc { s with mem := m } bytes = some (0, { s with mem := m })) ∨
    ∃ pre b post p m₁ m₂, bs = pre ++ b :: post ∧ p.toNat = s.addr pre + 48 ∧
      Fits (roundUp bytes.toNat) b ∧ kmemAlloc s bytes = some (p, { s with mem := m₁ }) ∧
      kmemAlloc { s with mem := m } bytes = some (p, { s with mem := m₂ }) ∧
      Heap { s with mem := m₁ } (pre ++ (carve 48 32 (roundUp bytes.toNat) b ++ post)) ∧
      SameHeaders (starts 48 s.gHeapBase.toNat
        (pre ++ (carve 48 32 (roundUp bytes.toNat) b ++ post))) m₁ m₂ := by
  simp only [kmemAlloc]
  by_cases hguard : s.gInitialized = false ∨ bytes = 0
  · rw [if_pos hguard, if_pos hguard]
    exact Or.inl ⟨rfl, rfl⟩
  by_cases hwanted : kmemAlignUpSize bytes kmemAlign = 0
  · rw [if_neg hguard, if_neg hguard, if_pos hwanted, if_pos hwanted]
    exact Or.inl ⟨rfl, rfl⟩
  rw [if_neg hguard, if_neg hguard, if_neg hwanted, if_neg hwanted]
  have hround := kmemAlignUpSize_toNat bytes
  have hfits : bytes.toNat + 15 < 2 ^ 64 := by
    by_contra hover
    rw [if_neg hover] at hround
    exact hwanted ((eq_zero_iff _).mpr hround)
  rw [if_pos hfits, ← roundUp] at hround
  obtain ⟨r, hr⟩ : ∃ r, loop (allocBody s (kmemAlignUpSize bytes kmemAlign)) wordFuel s.gHead =
      some r := by
    rcases allocLoop_spec [] hheap hheap.head_at (kmemAlignUpSize bytes kmemAlign)
      hheap.length_lt with ⟨hloop, -⟩ | ⟨mid, c, rest, q, -, -, -, -, hloop⟩
    · exact ⟨_, hloop⟩
    · exact ⟨_, hloop⟩
  obtain ⟨r', hr', hsame⟩ := h.searched hheap hr
  rw [hr, hr']
  rcases hsame with ⟨rfl, rfl⟩ | ⟨pre, b, post, q, rfl, hq, hfit, rfl, rfl⟩
  · exact Or.inl ⟨rfl, rfl⟩
  rw [hround] at hfit
  rw [eq_zero_iff, hround] at hwanted
  have hmod : (kmemAlignUpSize bytes kmemAlign).toNat % 16 = 0 := by
    rw [hround, roundUp]
    omega
  have hmin : 16 ≤ (kmemAlignUpSize bytes kmemAlign).toNat := by
    rw [roundUp] at hround hwanted
    omega
  obtain ⟨m₁, htake₁, hheap₁, -⟩ := hheap.takeBlock hq hmod hmin (hround ▸ hfit.2)
  obtain ⟨m₂, htake₂, hsame⟩ := h.take hheap hq hmod (hround ▸ hfit.2)
  rw [htake₁, hround] at hsame
  rw [hround] at hheap₁
  have hpayload : (kmemPayload q).toNat = s.addr pre + 48 := by
    have hupper := hheap.tiled.cut.upper
    have hbound := hheap.tiled.bound
    rw [← KmemState.addr, ← hq] at hupper
    rw [kmemPayload_toNat (by omega), hq]
  right
  exact ⟨pre, b, post, kmemPayload q, m₁, m₂, rfl, hpayload, hfit, by rw [htake₁],
    by rw [htake₂], hheap₁, hsame⟩

theorem Shows.alloc_together (h : Shows s bs m) (hheap : Heap s bs) (bytes : UInt64) :
    ∃ p r r', kmemAlloc s bytes = some (p, r) ∧
      kmemAlloc { s with mem := m } bytes = some (p, r') ∧ Together s r r' := by
  rcases h.alloc hheap bytes with ⟨hnull, hnull'⟩ |
    ⟨pre, b, post, p, m₁, m₂, rfl, -, -, halloc, halloc', hheap', hsame⟩
  · exact ⟨0, _, _, hnull, hnull', h.together hheap⟩
  · exact ⟨p, _, _, halloc, halloc', m₁, m₂, _, rfl, rfl, hheap', hsame⟩

theorem Shows.calloc_together (h : Shows s bs m) (hheap : Heap s bs) (count bytes : UInt64) :
    ∃ p r r', kmemCalloc s count bytes = some (p, r) ∧
      kmemCalloc { s with mem := m } count bytes = some (p, r') ∧ Together s r r' := by
  by_cases hover : count ≠ 0 ∧ bytes > sizeMax / count
  · exact ⟨0, _, _, by rw [kmemCalloc, if_pos hover], by rw [kmemCalloc, if_pos hover],
      h.together hheap⟩
  rcases h.alloc hheap (count * bytes) with ⟨hnull, hnull'⟩ |
    ⟨pre, b, post, p, m₁, m₂, rfl, hp, hfit, halloc, halloc', hheap', hsame⟩
  · exact ⟨0, _, _, kmemCalloc_of_null hover hnull, kmemCalloc_of_null hover hnull',
      h.together hheap⟩
  have hne : p ≠ 0 := by
    rw [Ne, eq_zero_iff]
    omega
  have hle := (roundUp_ge (count * bytes).toNat).trans hfit.2
  have hupper := hheap.tiled.cut.upper
  have hbound := hheap.tiled.bound
  rw [← KmemState.addr] at hupper
  have hroom : p.toNat + (count * bytes).toNat < 2 ^ 64 := by omega
  obtain ⟨d, ds, hcarve, -, hsize, -⟩ := carve_eq_cons 48 32 (roundUp (count * bytes).toNat) hfit.2
  rw [hcarve, List.cons_append] at hheap' hsame
  have hzero : Heap { s with mem := fillRange m₁ p.toNat (count * bytes).toNat 0 }
      (pre ++ d :: (ds ++ post)) := by
    rw [hp]
    exact hheap'.zeroPayload ((roundUp_ge _).trans hsize)
  exact ⟨p, _, _, kmemCalloc_of_alloc hover halloc hne hroom,
    kmemCalloc_of_alloc hover halloc' hne hroom, _, _, _, rfl, rfl, hzero, hsame.fill _ _ _⟩

theorem Shows.validate_eq (h : Shows s bs m) (hheap : Heap s bs) :
    kmemValidate { s with mem := m } = kmemValidate s := by
  have hvalid := kmemValidate_spec hheap
  have hhead := hheap.head
  simp only [kmemValidate] at hvalid ⊢
  by_cases hguard : s.gInitialized = false ∨ s.gHeapBase = 0 ∨ s.gHeapEnd ≤ s.gHeapBase ∨
      s.gHead = 0
  · rw [if_pos hguard, if_pos hguard]
  rw [if_neg hguard, if_neg (not_not.mpr hhead)] at hvalid
  rw [if_neg hguard, if_neg hguard, if_neg (not_not.mpr hhead), if_neg (not_not.mpr hhead), hvalid]
  obtain ⟨r', hr', rfl⟩ := loop_lockstep (validateBody { s with mem := m })
    (fun v v' => v' = v ∧ ∃ pre rest, bs = pre ++ rest ∧ Validated s pre v) (fun r r' => r' = r)
    (by
      intro v v' hR
      obtain ⟨rfl, pre, rest, rfl, hv⟩ := hR
      cases rest with
      | nil =>
        have hnull := hheap.at_nil hv.cur
        exact Or.inl ⟨0, 0, by rw [validateBody, if_pos hnull], by rw [validateBody, if_pos hnull],
          rfl⟩
      | cons b post =>
        have hmem := mem_starts_at b post (hheap.at_cons hv.cur).2
        have hbody : validateBody { s with mem := m } v' = validateBody s v' := by
          simp only [validateBody, h.magic_eq hmem, h.prev_eq hmem, h.size_eq hmem,
            h.next_eq hmem]
        rcases validateBody_step hheap hv with ⟨-, hdone⟩ | ⟨t, hnext, ht⟩
        · exact Or.inl ⟨_, _, hdone, hbody.trans hdone, rfl⟩
        · exact Or.inr ⟨t, t, hnext, hbody.trans hnext, rfl, pre ++ [b], post, by simp, ht⟩)
    ⟨rfl, [], bs, rfl, hheap.head_at, rfl, rfl, rfl, by simp⟩ hvalid
  exact hr'

theorem Shows.stats_eq (h : Shows s bs m) (hheap : Heap s bs) :
    kmemGetStats { s with mem := m } = kmemGetStats s := by
  obtain ⟨out, hout, -, -⟩ := kmemGetStats_spec hheap
  rw [hout]
  simp only [kmemGetStats, hheap.initialized, Bool.true_eq_false, if_false] at hout ⊢
  obtain ⟨r', hr', rfl⟩ := loop_lockstep (statsBody m)
    (fun c c' => c' = c ∧ Inside s bs c.1) (fun r r' => r' = r)
    (by
      intro c c' hR
      obtain ⟨rfl, hinside⟩ := hR
      rcases hheap.inside_cases hinside with hnull | ⟨-, -, -, -, -, hne, -, hmem, hnext⟩
      · exact Or.inl ⟨_, _, by rw [statsBody, if_pos hnull], by rw [statsBody, if_pos hnull], rfl⟩
      · have hbody : statsBody m c' = statsBody s.mem c' := by
          simp only [statsBody, countBlock, h.free_eq hmem, h.size_eq hmem, h.next_eq hmem]
        have hclean : statsBody s.mem c' =
            some (.next (nextAt s.mem c'.1, countBlock s.mem c'.1 c'.2)) := by
          rw [statsBody, if_neg hne]
        exact Or.inr ⟨_, _, hclean, hbody.trans hclean, rfl, hnext⟩)
    ⟨rfl, hheap.inside_head⟩ hout
  exact hr'

end Calls

section Release

variable {hs : List ℕ} {m m' : Memory} {B E : ℕ} {pre post : List Block} {b : Block} {p : UInt64}

theorem SameHeaders.coalesce (h : SameHeaders hs m m') (hp : p.toNat ∈ hs)
    (hnext : nextAt m p = 0 ∨ (nextAt m p).toNat ∈ hs) :
    (coalesceBody p m = some (.done m) ∧ coalesceBody p m' = some (.done m')) ∨
    nextAt m p ≠ 0 ∧ coalesceBody p m = some (.next (absorbNext m p (nextAt m p))) ∧
      coalesceBody p m' = some (.next (absorbNext m' p (nextAt m p))) := by
  simp only [coalesceBody, h.next_eq hp, h.size_eq hp]
  rcases hnext with hnull | hmem
  · left
    simp only [hnull, ne_eq, not_true_eq_false, false_and, and_false, if_false, and_self]
  rw [h.free_eq hmem]
  by_cases hcond : p ≠ 0 ∧ nextAt m p ≠ 0 ∧ freeAt m (nextAt m p) ≠ 0
  · rw [if_pos hcond, if_pos hcond]
    by_cases hexpected : kmemAlignUpPtr (kmemPayload p + sizeAt m p) kmemAlign ≠ nextAt m p
    · rw [if_pos hexpected, if_pos hexpected]
      exact Or.inl ⟨rfl, rfl⟩
    · rw [if_neg hexpected, if_neg hexpected]
      exact Or.inr ⟨hcond.2.1, rfl, rfl⟩
  · rw [if_neg hcond, if_neg hcond]
    exact Or.inl ⟨rfl, rfl⟩

def Merged (B E : ℕ) (pre : List Block) (m m' : Memory) : Prop :=
  ∃ b post, Tiled m B E (pre ++ b :: post) ∧
    SameHeaders (starts 48 B (pre ++ b :: post)) m m'

theorem Merged.step (h : Merged B E pre m m') (hp : p.toNat = finish 48 B pre) :
    (∃ r r', coalesceBody p m = some (.done r) ∧ coalesceBody p m' = some (.done r') ∧
      Merged B E pre r r') ∨
    ∃ t t', coalesceBody p m = some (.next t) ∧ coalesceBody p m' = some (.next t') ∧
      Merged B E pre t t' := by
  have hmerged := h
  obtain ⟨b, post, htiled, hsame⟩ := h
  have hmem : p.toNat ∈ starts 48 B (pre ++ b :: post) := hp ▸ mem_starts_cut B pre b post
  have hlink := htiled.cut.header.next
  have hlower := htiled.cut.lower
  have hbase := htiled.base
  rw [← hp] at hlink hlower
  rcases link_cases (by omega) hlink with ⟨hnull, -⟩ | ⟨hne, hnext, hinner⟩
  · rcases hsame.coalesce hmem (Or.inl hnull) with ⟨hdone, hdone'⟩ | ⟨hne, -⟩
    · exact Or.inl ⟨m, m', hdone, hdone', hmerged⟩
    · exact absurd hnull hne
  · cases post with
    | nil =>
      have hfinish := htiled.cut.finish
      rw [← hp] at hfinish
      exact absurd hfinish hinner
    | cons c post =>
      have hstarts : starts 48 B (pre ++ b :: c :: post) = starts 48 B pre ++
          p.toNat :: (p.toNat + 48 + b.size) ::
            starts 48 (p.toNat + 48 + b.size + 48 + c.size) post := by
        rw [starts_append, ← hp]
        rfl
      have hmem' : (nextAt m p).toNat ∈ starts 48 B (pre ++ b :: c :: post) := by
        rw [hstarts]
        exact List.mem_append_right _ (List.mem_cons_of_mem _ (hnext ▸ List.mem_cons_self))
      rcases hsame.coalesce hmem (Or.inr hmem') with ⟨hdone, hdone'⟩ | ⟨-, hstep, hstep'⟩
      · exact Or.inl ⟨m, m', hdone, hdone', hmerged⟩
      · right
        have hsep : p.toNat + 48 ≤ (nextAt m p).toNat := by
          have heq : (nextAt m p).toNat = p.toNat + 48 + b.size := hnext
          omega
        refine ⟨_, _, hstep, hstep', _, post, htiled.absorbNext hp hnext,
          (hsame.absorb hmem hmem' hsep).mono ?_⟩
        intro q hq
        have hend : p.toNat + 48 + (b.size + 48 + c.size) =
            p.toNat + 48 + b.size + 48 + c.size := by omega
        rw [starts_append, ← hp, starts_cons, hend, List.mem_append, List.mem_cons] at hq
        rw [hstarts, List.mem_append, List.mem_cons, List.mem_cons]
        exact hq.imp_right (Or.imp_right Or.inr)

theorem Merged.forward (h : Merged B E pre m m') (hp : p.toNat = finish 48 B pre) :
    ∃ m₁ m₁', kmemCoalesceForward m p = some m₁ ∧ kmemCoalesceForward m' p = some m₁' ∧
      Merged B E pre m₁ m₁' := by
  obtain ⟨b, post, htiled, -⟩ := id h
  obtain ⟨m₁, hforward, -, -⟩ := kmemCoalesceForward_spec htiled hp
  obtain ⟨m₁', hforward', hmerged⟩ := loop_lockstep (coalesceBody p) (Merged B E pre)
    (Merged B E pre) (fun _ _ hR => hR.step hp) h hforward
  exact ⟨m₁, m₁', hforward, hforward', hmerged⟩

theorem Merged.backward (h : Merged B E pre m m') (hp : p.toNat = finish 48 B pre) :
    ∃ m₁ m₁' bs, coalesceBackward m p = some m₁ ∧ coalesceBackward m' p = some m₁' ∧
      Tiled m₁ B E bs ∧ SameHeaders (starts 48 B bs) m₁ m₁' := by
  obtain ⟨b, post, htiled, hsame⟩ := h
  have hmem : p.toNat ∈ starts 48 B (pre ++ b :: post) := hp ▸ mem_starts_cut B pre b post
  have hprev := htiled.cut.header.prev
  rw [← hp] at hprev
  simp only [coalesceBackward, hsame.prev_eq hmem]
  rcases List.eq_nil_or_concat pre with rfl | ⟨front, c, rfl⟩
  · have hnull : prevAt m p = 0 := (eq_zero_iff _).mpr hprev
    simp only [hnull, ne_eq, not_true_eq_false, false_and, if_false]
    exact ⟨m, m', _, rfl, rfl, htiled, hsame⟩
  · rw [List.concat_eq_append, List.append_assoc, List.singleton_append] at htiled hsame
    rw [List.concat_eq_append, lastStart_concat] at hprev
    have hprev' : (prevAt m p).toNat = finish 48 B front := hprev
    rw [hsame.free_eq (b := prevAt m p) (hprev' ▸ mem_starts_cut B front c (b :: post))]
    split_ifs
    · obtain ⟨m₁, m₁', hforward, hforward', d, ds, htiled', hsame'⟩ :=
        Merged.forward ⟨c, b :: post, htiled, hsame⟩ hprev'
      exact ⟨m₁, m₁', _, hforward, hforward', htiled', hsame'⟩
    · exact ⟨m, m', _, rfl, rfl, htiled, hsame⟩

end Release

def blockList (m : Memory) : ℕ → UInt64 → List UInt64
  | 0, _ => []
  | fuel + 1, cur => if cur = 0 then [] else cur :: blockList m fuel (nextAt m cur)

/-- If `kmem_free_checked` gets as far as the magic number in front of the pointer and finds it,
then in the header of a block. -/
def Recognised (s : KmemState) (ptr : UInt64) : Prop :=
  ptr ≠ 0 ∧ kmemPtrInHeap s ptr = true ∧ ptr &&& (kmemAlign - 1) = 0 ∧
      kmemPtrInHeap s (kmemHeaderFromPayload ptr) = true ∧
      magicAt s.mem (kmemHeaderFromPayload ptr) = kmemMagic →
    kmemHeaderFromPayload ptr ∈ blockList s.mem wordFuel s.gHead

instance Recognised.decidable (s : KmemState) (ptr : UInt64) : Decidable (Recognised s ptr) :=
  inferInstanceAs (Decidable (_ ∧ _ → _))

theorem Linked.congr {m m' : Memory} {cur : UInt64} {hs : List UInt64} (h : Linked m cur hs)
    (hsame : ∀ a ∈ hs, nextAt m' a = nextAt m a) : Linked m' cur hs := by
  induction hs generalizing cur with
  | nil => exact h
  | cons a hs ih =>
    obtain ⟨hcur, hne, hrest⟩ := h
    use hcur, hne
    rw [hsame a List.mem_cons_self]
    exact ih hrest (fun c hc => hsame c (List.mem_cons_of_mem a hc))

theorem Linked.blockList_eq {m : Memory} {cur : UInt64} {hs : List UInt64}
    (h : Linked m cur hs) {fuel : ℕ} (hfuel : hs.length < fuel) : blockList m fuel cur = hs := by
  induction hs generalizing cur fuel with
  | nil =>
    obtain ⟨fuel, rfl⟩ : ∃ k, fuel = k + 1 := ⟨fuel - 1, by omega⟩
    have hcur : cur = 0 := h
    rw [blockList, if_pos hcur]
  | cons a hs ih =>
    rw [List.length_cons] at hfuel
    obtain ⟨fuel, rfl⟩ : ∃ k, fuel = k + 1 := ⟨fuel - 1, by omega⟩
    obtain ⟨rfl, hne, hrest⟩ := h
    rw [blockList, if_neg hne, ih hrest (by omega)]

section Pointers

variable {s : KmemState} {bs : List Block} {m : Memory} {ptr : UInt64}

theorem Heap.headers_toNat (hheap : Heap s bs) {a : UInt64}
    (ha : a ∈ headers s.gHeapBase.toNat bs) : a.toNat ∈ starts 48 s.gHeapBase.toNat bs := by
  obtain ⟨pre, b, post, rfl, haddr⟩ := hheap.exists_block ha
  exact mem_starts_at _ _ haddr

theorem Shows.blockList_eq (h : Shows s bs m) (hheap : Heap s bs) :
    blockList m wordFuel s.gHead = headers s.gHeapBase.toNat bs := by
  apply Linked.blockList_eq
  · exact hheap.exactTiling.linked.congr (fun a ha => h.next_eq (hheap.headers_toNat ha))
  · have hlength : (headers s.gHeapBase.toNat bs).length = bs.length := by
      rw [headers, List.length_map]
      exact starts_length 48 _ bs
    rw [hlength]
    exact hheap.length_lt

theorem Shows.magic_iff (h : Shows s bs m) (hheap : Heap s bs)
    (hrule : Recognised { s with mem := m } ptr) (hnull : ptr ≠ 0)
    (hptr : kmemPtrInHeap s ptr = true) (hlow : ptr &&& (kmemAlign - 1) = 0)
    (hblock : kmemPtrInHeap s (kmemHeaderFromPayload ptr) = true) :
    (magicAt s.mem (kmemHeaderFromPayload ptr) = kmemMagic ↔
      (kmemHeaderFromPayload ptr).toNat ∈ starts 48 s.gHeapBase.toNat bs) ∧
    (magicAt m (kmemHeaderFromPayload ptr) = kmemMagic ↔
      (kmemHeaderFromPayload ptr).toNat ∈ starts 48 s.gHeapBase.toNat bs) := by
  have haddr : (kmemHeaderFromPayload ptr).toNat = (2 ^ 64 - 48 + ptr.toNat) % 2 ^ 64 := by
    rw [kmemHeaderFromPayload, UInt64.toNat_sub, sizeofBlock_toNat]
  have hlt := ptr.toNat_lt
  have hmod := (low_bits_eq_zero_iff ptr).mp hlow
  have hin := (kmemPtrInHeap_iff hheap _).mp hblock
  have hstart : (kmemHeaderFromPayload ptr).toNat ∈ starts 48 s.gHeapBase.toNat bs →
      magicAt s.mem (kmemHeaderFromPayload ptr) = kmemMagic := by
    intro hmem
    obtain ⟨⟨q, b⟩, hq, heq⟩ := List.mem_map.mp hmem
    obtain ⟨pre, post, rfl, rfl⟩ := exists_cut_of_mem_layout 48 hq
    rw [magicAt, ← heq]
    exact hheap.tiled.cut.header.magic
  constructor
  · exact ⟨hheap.tiled.magic _ (by omega) hin.1 hin.2, hstart⟩
  · constructor
    · intro hmagic
      have hmem := hrule ⟨hnull, hptr, hlow, hblock, hmagic⟩
      simp only [h.blockList_eq hheap] at hmem
      exact hheap.headers_toNat hmem
    · intro hmem
      rw [h.magic_eq hmem]
      exact hstart hmem

theorem Shows.release (h : Shows s bs m) (hheap : Heap s bs) {p : UInt64}
    (hp : p.toNat ∈ starts 48 s.gHeapBase.toNat bs) :
    ∃ m₁ m₁' m₂ m₂' bs', kmemCoalesceForward (setFree s.mem p 1) p = some m₁ ∧
      kmemCoalesceForward (setFree m p 1) p = some m₁' ∧ coalesceBackward m₁ p = some m₂ ∧
      coalesceBackward m₁' p = some m₂' ∧ Heap { s with mem := m₂ } bs' ∧
      SameHeaders (starts 48 s.gHeapBase.toNat bs') m₂ m₂' := by
  obtain ⟨⟨q, b⟩, hq, heq⟩ := List.mem_map.mp hp
  obtain ⟨pre, post, rfl, rfl⟩ := exists_cut_of_mem_layout 48 hq
  have hstart : Merged s.gHeapBase.toNat s.gHeapEnd.toNat pre (setFree s.mem p 1)
      (setFree m p 1) := by
    refine ⟨_, post, hheap.tiled.setFree heq.symm (Or.inr rfl), ?_⟩
    have hsame : starts 48 s.gHeapBase.toNat (pre ++ ⟨b.size, decide ((1 : UInt32) ≠ 0)⟩ :: post) =
        starts 48 s.gHeapBase.toNat (pre ++ b :: post) := by
      rw [starts_append, starts_append]
      rfl
    rw [hsame]
    exact h.store32 _ _
  obtain ⟨m₁, m₁', hforward, hforward', hmerged⟩ := hstart.forward heq.symm
  obtain ⟨m₂, m₂', bs', hbackward, hbackward', htiled, hsame⟩ := hmerged.backward heq.symm
  exact ⟨m₁, m₁', m₂, m₂', bs', hforward, hforward', hbackward, hbackward',
    ⟨hheap.initialized, hheap.head, htiled⟩, hsame⟩

theorem Shows.free_together (h : Shows s bs m) (hheap : Heap s bs)
    (hrule : Recognised { s with mem := m } ptr) :
    ∃ code r r', kmemFreeChecked s ptr = some (code, r) ∧
      kmemFreeChecked { s with mem := m } ptr = some (code, r') ∧ Together s r r' := by
  simp only [kmemFreeChecked]
  by_cases hnull : ptr = 0
  · rw [if_pos hnull, if_pos hnull]
    exact ⟨0, _, _, rfl, rfl, h.together hheap⟩
  rw [if_neg hnull, if_neg hnull]
  have hsame : ∀ q, kmemPtrInHeap { s with mem := m } q = kmemPtrInHeap s q := fun _ => rfl
  rw [hsame, hsame]
  by_cases hin : kmemPtrInHeap s ptr = false
  · rw [if_pos hin, if_pos hin]
    exact ⟨-1, _, _, rfl, rfl, h.together hheap⟩
  rw [if_neg hin, if_neg hin]
  by_cases hlow : ptr &&& (kmemAlign - 1) ≠ 0
  · rw [if_pos hlow, if_pos hlow]
    exact ⟨-2, _, _, rfl, rfl, h.together hheap⟩
  rw [if_neg hlow, if_neg hlow]
  by_cases hblock : kmemPtrInHeap s (kmemHeaderFromPayload ptr) = false
  · rw [if_pos (Or.inl hblock), if_pos (Or.inl hblock)]
    exact ⟨-3, _, _, rfl, rfl, h.together hheap⟩
  obtain ⟨hmagic, hmagic'⟩ := h.magic_iff hheap hrule hnull (Bool.eq_true_of_not_eq_false hin)
    (not_not.mp hlow) (Bool.eq_true_of_not_eq_false hblock)
  by_cases hstart : (kmemHeaderFromPayload ptr).toNat ∈ starts 48 s.gHeapBase.toNat bs
  · have hguard : ¬ (kmemPtrInHeap s (kmemHeaderFromPayload ptr) = false ∨
        magicAt s.mem (kmemHeaderFromPayload ptr) ≠ kmemMagic) :=
      not_or.mpr ⟨hblock, not_not.mpr (hmagic.mpr hstart)⟩
    rw [h.magic_eq hstart, if_neg hguard, if_neg hguard, h.free_eq hstart]
    by_cases hfree : freeAt s.mem (kmemHeaderFromPayload ptr) ≠ 0
    · rw [if_pos hfree, if_pos hfree]
      exact ⟨-4, _, _, rfl, rfl, h.together hheap⟩
    rw [if_neg hfree, if_neg hfree]
    obtain ⟨m₁, m₁', m₂, m₂', bs', hforward, hforward', hbackward, hbackward', hheap', hsame'⟩ :=
      h.release hheap hstart
    have hvalid : kmemValidate { s with mem := m₂' } = kmemValidate { s with mem := m₂ } :=
      Shows.validate_eq (s := { s with mem := m₂ }) hsame' hheap'
    simp only [hforward, hforward', hbackward, hbackward', hvalid, kmemValidate_spec hheap',
      Option.map_some]
    exact ⟨_, _, _, rfl, rfl, m₂, m₂', bs', rfl, rfl, hheap', hsame'⟩
  · rw [if_pos (Or.inr (fun heq => hstart (hmagic.mp heq))),
      if_pos (Or.inr (fun heq => hstart (hmagic'.mp heq)))]
    exact ⟨-3, _, _, rfl, rfl, h.together hheap⟩

end Pointers

def NoStaleFree (s : KmemState) : HeapCall → Prop
  | .free ptr => Recognised s ptr
  | _ => True

instance NoStaleFree.decidable (s : KmemState) : ∀ c, Decidable (NoStaleFree s c)
  | .alloc _ => isTrue trivial
  | .calloc _ _ => isTrue trivial
  | .free ptr => Recognised.decidable s ptr
  | .getStats => isTrue trivial
  | .validate => isTrue trivial

def SameBlocks (s s' : KmemState) : Prop :=
  ∃ bs m, s' = { s with mem := m } ∧ Heap s bs ∧ Shows s bs m

theorem Together.sameBlocks {s r r' : KmemState} (h : Together s r r') : SameBlocks r r' := by
  obtain ⟨m, m', bs, rfl, rfl, hheap, hsame⟩ := h
  exact ⟨bs, m', rfl, hheap, hsame⟩

theorem SameBlocks.step {s s' : KmemState} (h : SameBlocks s s') {c : HeapCall}
    (hrule : NoStaleFree s' c) :
    ∃ t t' r, heapStep s c = some (t, r) ∧ heapStep s' c = some (t', r) ∧ SameBlocks t t' := by
  have hsame := h
  obtain ⟨bs, m, rfl, hheap, hshows⟩ := h
  cases c with
  | alloc bytes =>
    obtain ⟨p, t, t', halloc, halloc', htogether⟩ := hshows.alloc_together hheap bytes
    exact ⟨t, t', .pointer p, by simp only [heapStep, halloc, Option.map_some],
      by simp only [heapStep, halloc', Option.map_some], htogether.sameBlocks⟩
  | calloc count bytes =>
    obtain ⟨p, t, t', halloc, halloc', htogether⟩ := hshows.calloc_together hheap count bytes
    exact ⟨t, t', .pointer p, by simp only [heapStep, halloc, Option.map_some],
      by simp only [heapStep, halloc', Option.map_some], htogether.sameBlocks⟩
  | free ptr =>
    obtain ⟨code, t, t', hfree, hfree', htogether⟩ := hshows.free_together hheap hrule
    exact ⟨t, t', .code code, by simp only [heapStep, hfree, Option.map_some],
      by simp only [heapStep, hfree', Option.map_some], htogether.sameBlocks⟩
  | getStats =>
    obtain ⟨out, hout, -, -⟩ := kmemGetStats_spec hheap
    have hout' := (hshows.stats_eq hheap).trans hout
    exact ⟨s, _, .stats out, by simp only [heapStep, hout, Option.map_some],
      by simp only [heapStep, hout', Option.map_some], hsame⟩
  | validate =>
    have hcode := kmemValidate_spec hheap
    have hcode' := (hshows.validate_eq hheap).trans hcode
    generalize (if bs.length ≤ 1048576 then 0 else -3 : Int32) = code at hcode hcode'
    exact ⟨s, _, .code code, by simp only [heapStep, hcode, Option.map_some],
      by simp only [heapStep, hcode', Option.map_some], hsame⟩

theorem SameBlocks.run {s s' : KmemState} (h : SameBlocks s s') {calls : List HeapCall}
    (hrule : Along heapStep NoStaleFree s' calls) :
    ∃ u u' replies, StepRun.run heapStep s calls = some (u, replies) ∧
      StepRun.run heapStep s' calls = some (u', replies) := by
  apply run_lockstep SameBlocks NoStaleFree _ h hrule
  exact fun _ _ _ hs hc => hs.step hc

def initOnZeros (base bytes : UInt64) : KmemState :=
  let start := kmemAlignUpPtr base kmemAlign
  let usable := (bytes - (start - base)) &&& ~~~(kmemAlign - 1)
  { mem := installHead (fun _ => 0) start (usable - sizeofBlock), gHeapBase := start,
    gHeapEnd := start + usable, gHead := start, gInitialized := true }

theorem kmemInit_sameBlocks {s t : KmemState} {base bytes : UInt64}
    (hsize : bytes.toNat ≤ 2 ^ 63 - 1) (hwrap : base.toNat + bytes.toNat < 2 ^ 64)
    (h : kmemInit s base bytes = some (0, t)) : SameBlocks (initOnZeros base bytes) t := by
  rcases kmemInit_cases h with ⟨hcode, -⟩ |
    ⟨start, usable, hstart, husable, hpos, hround, hend, hmod, hroom, rfl⟩
  · exact absurd rfl hcode
  have hge := roundUp_ge base.toNat
  have haligned : start.toNat % 16 = 0 := by
    rw [hround, roundUp]
    omega
  have hheap := @heap_installHead (fun _ => 0) start usable (by omega)
    haligned hmod hroom (by omega) (by omega)
    (fun x _ _ _ => not_magicWord_of_zero (i := 0) (by decide) rfl)
  have hzeros : initOnZeros base bytes =
      { mem := installHead (fun _ => 0) start (usable - sizeofBlock), gHeapBase := start,
        gHeapEnd := start + usable, gHead := start, gInitialized := true } := by
    simp only [initOnZeros, ← hstart, ← husable]
  rw [hzeros]
  refine ⟨_, installHead s.mem start (usable - sizeofBlock), rfl, hheap, ?_⟩
  have hnothing : SameHeaders [] (fun _ => 0) s.mem := fun q hq => absurd hq List.not_mem_nil
  exact hnothing.install start (usable - sizeofBlock) 0 0

/-- Whatever the arena held before, the answers are the same, as long as no pointer is freed
behind a left-over header. -/
theorem answers_independent_of_contents {s s' t t' : KmemState} {base bytes : UInt64}
    (hsize : bytes.toNat ≤ 2 ^ 63 - 1) (hwrap : base.toNat + bytes.toNat < 2 ^ 64)
    (hinit : kmemInit s base bytes = some (0, t)) (hinit' : kmemInit s' base bytes = some (0, t'))
    {calls : List HeapCall} (hrule : Along heapStep NoStaleFree t calls)
    (hrule' : Along heapStep NoStaleFree t' calls) :
    ∃ u u' replies, run heapStep t calls = some (u, replies) ∧
      run heapStep t' calls = some (u', replies) := by
  obtain ⟨w, u, replies, hclean, hrun⟩ := (kmemInit_sameBlocks hsize hwrap hinit).run hrule
  obtain ⟨w', u', replies', hclean', hrun'⟩ := (kmemInit_sameBlocks hsize hwrap hinit').run hrule'
  cases hclean.symm.trans hclean'
  exact ⟨u, u', replies, hrun, hrun'⟩

def usedArena : KmemState :=
  ((run heapStep sampleHeap [.alloc 24, .alloc 8]).map Prod.fst).getD sampleHeap

def reusedHeap : KmemState :=
  { mem := installHead usedArena.mem 4096 464, gHeapBase := 4096, gHeapEnd := 4608,
    gHead := 4096, gInitialized := true }

theorem reusedHeap_accepted : kmemInit usedArena 4096 512 = some (0, reusedHeap) := by
  have hvalid : kmemValidate reusedHeap = some 0 := by decide +kernel
  have hinit : kmemInit usedArena 4096 512 =
      (kmemValidate reusedHeap).map (fun code => (code, reusedHeap)) := rfl
  rw [hinit, hvalid, Option.map_some]

def reuseCalls : List HeapCall :=
  [.alloc 24, .free 4160, .calloc 2 8, .getStats, .free 4144, .free 4144, .free 5000, .validate]

theorem answers_independent_sample :
    ∃ u u' replies, run heapStep sampleHeap reuseCalls = some (u, replies) ∧
      run heapStep reusedHeap reuseCalls = some (u', replies) ∧
      replies = [.pointer 4144, .code (-3), .pointer 4224,
        .stats ⟨512, 48, 320, 3, 1, 320⟩, .code 0, .code (-4), .code (-1), .code 0] := by
  obtain ⟨u, u', replies, hrun, hrun'⟩ := answers_independent_of_contents
    (by decide : (512 : UInt64).toNat ≤ 2 ^ 63 - 1)
    (by decide : (4096 : UInt64).toNat + (512 : UInt64).toNat < 2 ^ 64)
    sampleHeap_initialised.accepted reusedHeap_accepted
    (by decide +kernel : Along heapStep NoStaleFree sampleHeap reuseCalls)
    (by decide +kernel : Along heapStep NoStaleFree reusedHeap reuseCalls)
  have hreplies : (run heapStep sampleHeap reuseCalls).map Prod.snd =
      some [.pointer 4144, .code (-3), .pointer 4224, .stats ⟨512, 48, 320, 3, 1, 320⟩,
        .code 0, .code (-4), .code (-1), .code 0] := by decide +kernel
  rw [hrun] at hreplies
  exact ⟨u, u', replies, hrun, hrun', Option.some.inj hreplies⟩

/-- On the zeroed arena the pointer is refused, on the used one it is freed. -/
theorem stale_header_freed :
    kmemInit zeroedState 4096 512 = some (0, sampleHeap) ∧
    kmemInit usedArena 4096 512 = some (0, reusedHeap) ∧
    (heapStep sampleHeap (.free 4224)).map Prod.snd = some (.code (-3)) ∧
    (heapStep reusedHeap (.free 4224)).map Prod.snd = some (.code 0) := by
  use sampleHeap_initialised.accepted, reusedHeap_accepted
  constructor
  · decide +kernel
  · decide +kernel

end Mcsos.Kmem
