import Mcsos.KmemHeap

/-!
# The allocator on the block list

Each allocator call is specified on the list of blocks: which block an allocation takes and
what it leaves, how a release merges free neighbours, and which bytes stay as they were.
-/

namespace Mcsos.Kmem
open BoundedLoop ByteMemory WordArithmetic BlockList

structure Heap (s : KmemState) (bs : List Block) : Prop where
  initialized : s.gInitialized = true
  head : s.gHead = s.gHeapBase
  tiled : Tiled s.mem s.gHeapBase.toNat s.gHeapEnd.toNat bs

def KmemState.addr (s : KmemState) (pre : List Block) : ℕ := finish 48 s.gHeapBase.toNat pre

theorem kmemAlignUpPtr_of_aligned {v : UInt64} (hv : v.toNat % 16 = 0) :
    kmemAlignUpPtr v kmemAlign = v := by
  have hlt := v.toNat_lt
  have hmask : ¬ (kmemAlign &&& (kmemAlign - 1) ≠ 0) := by decide
  have hsmall : ¬ v > sizeMax - (kmemAlign - 1) := by
    have hmax : (sizeMax - (kmemAlign - 1)).toNat = 2 ^ 64 - 16 := by decide
    rw [gt_iff_lt, UInt64.lt_iff_toNat_lt, hmax]
    omega
  have hround := toNat_and_not_low (v + (kmemAlign - 1)) kmemAlign 4 rfl
  have hadd : (v + (kmemAlign - 1)).toNat = v.toNat + 15 := by
    have h15 : (kmemAlign - 1).toNat = 15 := by decide
    rw [toNat_add_of_lt _ _ (by omega), h15]
  refine eq_of_toNat_eq ?_
  simp only [kmemAlignUpPtr, hmask, if_false, hsmall]
  rw [hround, hadd]
  omega

theorem kmemAlignUpSize_toNat (v : UInt64) :
    (kmemAlignUpSize v kmemAlign).toNat =
      if v.toNat + 15 < 2 ^ 64 then (v.toNat + 15) / 16 * 16 else 0 := by
  have hlt := v.toNat_lt
  have halign : ¬ kmemAlign = 0 := by decide
  have hmask : ¬ (kmemAlign &&& (kmemAlign - 1) ≠ 0) := by decide
  have hmax : (sizeMax - (kmemAlign - 1)).toNat = 2 ^ 64 - 16 := by decide
  simp only [kmemAlignUpSize, halign, if_false, hmask, gt_iff_lt, UInt64.lt_iff_toNat_lt, hmax]
  by_cases hbig : v.toNat + 15 < 2 ^ 64
  · have hadd : (v + (kmemAlign - 1)).toNat = v.toNat + 15 := by
      have h15 : (kmemAlign - 1).toNat = 15 := by decide
      rw [toNat_add_of_lt _ _ (by omega), h15]
    rw [if_neg (by omega), if_pos hbig, toNat_and_not_low _ kmemAlign 4 rfl, hadd]
    rfl
  · rw [if_pos (by omega), if_neg hbig]
    rfl

theorem Heap.length_lt {s : KmemState} {bs : List Block} (h : Heap s bs) :
    bs.length < wordFuel := by
  have hle := length_le_finish 48 s.gHeapBase.toNat bs
  rw [h.tiled.finish] at hle
  have hbound := h.tiled.bound
  rw [wordFuel]
  omega

def At (s : KmemState) (cur : UInt64) (pre : List Block) : Prop :=
  cur.toNat = linkTo s.gHeapEnd.toNat (s.addr pre)

theorem Heap.at_nil {s : KmemState} {pre : List Block} {cur : UInt64} (h : Heap s (pre ++ []))
    (hcur : At s cur pre) : cur = 0 := by
  have hfin := h.tiled.finish
  rw [List.append_nil] at hfin
  rw [At, KmemState.addr, hfin, linkTo, if_pos rfl] at hcur
  exact (eq_zero_iff cur).mpr hcur

theorem Heap.at_cons {s : KmemState} {pre post : List Block} {b : Block} {cur : UInt64}
    (h : Heap s (pre ++ b :: post)) (hcur : At s cur pre) :
    cur ≠ 0 ∧ cur.toNat = s.addr pre := by
  have hcut := h.tiled.cut
  have hupper := hcut.upper
  have hlower := hcut.lower
  have hbase := hcut.base
  rw [At, linkTo, if_neg (by rw [KmemState.addr]; omega)] at hcur
  refine ⟨?_, hcur⟩
  rw [Ne, eq_zero_iff, hcur, KmemState.addr]
  omega

theorem Heap.next_at {s : KmemState} {pre post : List Block} {b : Block} {cur : UInt64}
    (h : Heap s (pre ++ b :: post)) (hcur : cur.toNat = s.addr pre) :
    At s (nextAt s.mem cur) (pre ++ [b]) := by
  have hcut := h.tiled.cut
  rw [At, nextAt, hcur, KmemState.addr, KmemState.addr, finish_append]
  exact hcut.header.next

theorem Heap.head_at {s : KmemState} {bs : List Block} (h : Heap s bs) : At s s.gHead [] := by
  have hproper := h.tiled.proper
  rw [At, h.head, KmemState.addr, finish, linkTo, if_neg (by omega)]

theorem sizeofBlock_toNat : sizeofBlock.toNat = 48 := rfl

theorem kmemPayload_toNat {b : UInt64} (h : b.toNat + 48 < 2 ^ 64) :
    (kmemPayload b).toNat = b.toNat + 48 := by
  rw [kmemPayload, toNat_add_of_lt _ _ (by rw [sizeofBlock_toNat]; exact h), sizeofBlock_toNat]

theorem kmemHeaderFromPayload_toNat {ptr : UInt64} {a : ℕ} (h : ptr.toNat = a + 48) :
    (kmemHeaderFromPayload ptr).toNat = a := by
  rw [kmemHeaderFromPayload, UInt64.toNat_sub_of_le, h, sizeofBlock_toNat]
  · omega
  · rw [UInt64.le_iff_toNat_le, sizeofBlock_toNat]
    omega

/-- The split happens exactly when more than 80 bytes are left over, in any memory with the same
size field. -/
theorem kmemSplitIfUseful_eq {s : KmemState} {pre post : List Block} {b : Block}
    {p wanted : UInt64} (h : Heap s (pre ++ b :: post)) (hp : p.toNat = s.addr pre)
    (hmod : wanted.toNat % 16 = 0) (hfit : wanted.toNat ≤ b.size) {m : Memory}
    (hm : sizeAt m p = sizeAt s.mem p) :
    kmemSplitIfUseful { s with mem := m } p wanted =
      if wanted.toNat + 80 < b.size then
        { s with mem := installSplit m p (kmemPayload p + wanted) wanted wanted }
      else { s with mem := m } := by
  have hcut := h.tiled.cut
  have hupper := hcut.upper
  have hlower := hcut.lower
  have hbound := hcut.bound
  have hextent := hcut.extent
  have hpmod := hcut.aligned
  rw [KmemState.addr] at hp
  rw [← hp] at hupper hlower hpmod
  have hsize : (sizeAt m p).toNat = b.size := by
    rw [hm, sizeAt, hp]
    exact hcut.header.size
  have hheader : kmemAlignUpSize sizeofBlock kmemAlign = 48 := by decide
  have h48 : (48 : UInt64).toNat = 48 := rfl
  have h32 : kmemMinSplit.toNat = 32 := rfl
  have hsizeof := sizeofBlock_toNat
  have hpay : (kmemPayload p).toNat = p.toNat + 48 := kmemPayload_toNat (by omega)
  have hnew : (kmemPayload p + wanted).toNat = p.toNat + 48 + wanted.toNat := by
    rw [toNat_add_of_lt _ _ (by omega), hpay]
  have halign : kmemAlignUpPtr (kmemPayload p + wanted) kmemAlign = kmemPayload p + wanted :=
    kmemAlignUpPtr_of_aligned (by omega)
  have hconsumed : kmemPayload p + wanted - kmemPayload p = wanted := by
    refine eq_of_toNat_eq ?_
    rw [UInt64.toNat_sub_of_le, hnew, hpay]
    · omega
    · rw [UInt64.le_iff_toNat_le, hnew, hpay]
      omega
  have hsum : (wanted + 48 + kmemMinSplit).toNat = wanted.toNat + 80 := by
    rw [toNat_add_of_lt, toNat_add_of_lt, h48, h32]
    · omega
    · rw [toNat_add_of_lt _ _ (by omega)]
      omega
  have hzero : ¬ (48 : UInt64) = 0 := by decide
  simp only [kmemSplitIfUseful, hheader, halign, hconsumed, hzero, if_false]
  by_cases hsmall : b.size < wanted.toNat + 80
  · have hlt : sizeAt m p < wanted + 48 + kmemMinSplit := by
      rw [UInt64.lt_iff_toNat_lt, hsize, hsum]
      exact hsmall
    rw [if_pos hlt, if_neg (by omega)]
  · have hlt : ¬ sizeAt m p < wanted + 48 + kmemMinSplit := by
      rw [UInt64.lt_iff_toNat_lt, hsize, hsum]
      exact hsmall
    have hnull : ¬ kmemPayload p + wanted = 0 := by
      rw [eq_zero_iff, hnew]
      omega
    have hinside : ¬ kmemPayload p + wanted + sizeofBlock ≥ s.gHeapEnd := by
      rw [ge_iff_le, UInt64.le_iff_toNat_le, toNat_add_of_lt _ _ (by omega), hnew, hsizeof]
      omega
    have hleft : sizeAt m p ≤ wanted + sizeofBlock + kmemMinSplit ↔
        ¬ wanted.toNat + 80 < b.size := by
      rw [UInt64.le_iff_toNat_le, hsize]
      rw [show sizeofBlock = 48 from rfl, hsum, not_lt]
    rw [if_neg hlt, if_neg hnull, if_neg hinside]
    by_cases hroom : wanted.toNat + 80 < b.size
    · rw [if_neg (fun hle => hleft.mp hle hroom), if_pos hroom]
    · rw [if_pos (hleft.mpr hroom), if_neg hroom]

def takeBlock (s : KmemState) (p wanted : UInt64) : KmemState :=
  { kmemSplitIfUseful s p wanted with
    mem := setFree (kmemSplitIfUseful s p wanted).mem p 0 }

theorem Heap.takeBlock {s : KmemState} {pre post : List Block} {b : Block} {p wanted : UInt64}
    (h : Heap s (pre ++ b :: post)) (hp : p.toNat = s.addr pre)
    (hmod : wanted.toNat % 16 = 0) (hmin : 16 ≤ wanted.toNat) (hfit : wanted.toNat ≤ b.size) :
    ∃ m, Kmem.takeBlock s p wanted = { s with mem := m } ∧
      Heap { s with mem := m } (pre ++ (carve 48 32 wanted.toNat b ++ post)) ∧
      ∀ x, x < s.addr pre ∨ s.addr pre + 48 + b.size + 48 ≤ x → m x = s.mem x := by
  have hcut := h.tiled.cut
  have hupper := hcut.upper
  have hbound := hcut.bound
  have hnext := hcut.header.next
  have hsplit : kmemSplitIfUseful s p wanted = _ := kmemSplitIfUseful_eq h hp hmod hfit rfl
  rw [KmemState.addr] at hp ⊢
  rw [← hp] at hupper hnext ⊢
  by_cases hroom : wanted.toNat + 80 < b.size
  · rw [if_pos hroom] at hsplit
    have hq : (kmemPayload p + wanted).toNat = p.toNat + 48 + wanted.toNat := by
      rw [toNat_add_of_lt _ _ (by rw [kmemPayload_toNat (by omega)]; omega),
        kmemPayload_toNat (by omega)]
    have htiled := (h.tiled.installSplit hp hq hmod hmin hroom).setFree hp (Or.inl rfl)
    refine ⟨setFree (installSplit s.mem p (kmemPayload p + wanted) wanted wanted) p 0,
      by rw [Kmem.takeBlock, hsplit], ⟨h.initialized, h.head, ?_⟩, ?_⟩
    · rw [carve, if_pos (by omega)]
      exact htiled
    · intro x hx
      rw [setFree_outside (by omega)]
      exact installSplit_outside (by omega) (by omega) hnext wanted (by omega) (by omega)
        (by omega)
  · rw [if_neg hroom] at hsplit
    refine ⟨setFree s.mem p 0, by rw [Kmem.takeBlock, hsplit], ⟨h.initialized, h.head, ?_⟩, ?_⟩
    · rw [carve, if_neg (by omega)]
      exact h.tiled.setFree hp (Or.inl rfl)
    · intro x hx
      exact setFree_outside (by omega) 0

def Fits (w : ℕ) (b : Block) : Prop := b.free = true ∧ w ≤ b.size

theorem allocBody_eq {s : KmemState} {pre post : List Block} {b : Block} {cur : UInt64}
    (h : Heap s (pre ++ b :: post)) (hcur : At s cur pre) (wanted : UInt64) :
    (Fits wanted.toNat b ∧
      allocBody s wanted cur = some (.done (kmemPayload cur, takeBlock s cur wanted))) ∨
    (¬ Fits wanted.toNat b ∧ allocBody s wanted cur = some (.next (nextAt s.mem cur))) := by
  obtain ⟨hne, haddr⟩ := h.at_cons hcur
  have hheader := h.tiled.cut.header
  rw [← KmemState.addr, ← haddr] at hheader
  have hmagic : ¬ magicAt s.mem cur ≠ kmemMagic := not_not.mpr hheader.magic
  have hfits : (freeAt s.mem cur ≠ 0 ∧ sizeAt s.mem cur ≥ wanted) ↔ Fits wanted.toNat b := by
    have hsize : (sizeAt s.mem cur).toNat = b.size := hheader.size
    rw [Fits, ge_iff_le, UInt64.le_iff_toNat_le, hsize]
    exact and_congr_left (fun _ => hheader.free)
  rw [allocBody, if_neg hne, if_neg hmagic]
  by_cases hfit : Fits wanted.toNat b
  · exact Or.inl ⟨hfit, by rw [if_pos (hfits.mpr hfit)]; rfl⟩
  · exact Or.inr ⟨hfit, by rw [if_neg (fun hc => hfit (hfits.mp hc))]⟩

theorem allocLoop_spec {s : KmemState} (pre : List Block) {rest : List Block} {cur : UInt64}
    {fuel : ℕ} (h : Heap s (pre ++ rest)) (hcur : At s cur pre) (wanted : UInt64)
    (hfuel : rest.length < fuel) :
    (loop (allocBody s wanted) fuel cur = some (0, s) ∧ ∀ c ∈ rest, ¬ Fits wanted.toNat c) ∨
    ∃ mid b post p, rest = mid ++ b :: post ∧ (∀ c ∈ mid, ¬ Fits wanted.toNat c) ∧
      Fits wanted.toNat b ∧ p.toNat = s.addr (pre ++ mid) ∧
      loop (allocBody s wanted) fuel cur = some (kmemPayload p, takeBlock s p wanted) := by
  induction rest generalizing pre cur fuel with
  | nil =>
    obtain ⟨fuel, rfl⟩ : ∃ k, fuel = k + 1 := ⟨fuel - 1, by omega⟩
    refine Or.inl ⟨loop_done ?_, by simp⟩
    rw [allocBody, if_pos (h.at_nil hcur)]
  | cons b rest ih =>
    obtain ⟨fuel, rfl⟩ : ∃ k, fuel = k + 1 := ⟨fuel - 1, by omega⟩
    rcases allocBody_eq h hcur wanted with ⟨hfit, hbody⟩ | ⟨hfit, hbody⟩
    · refine Or.inr ⟨[], b, rest, cur, rfl, by simp, hfit, ?_, loop_done hbody⟩
      rw [List.append_nil]
      exact (h.at_cons hcur).2
    · rw [loop_next hbody]
      have h' : Heap s ((pre ++ [b]) ++ rest) := by simpa using h
      rw [List.length_cons] at hfuel
      have hless : rest.length < fuel := by omega
      rcases ih (pre ++ [b]) h' (h.next_at (h.at_cons hcur).2) hless with
        ⟨hloop, hnone⟩ | ⟨mid, c, post, p, hrest, hmid, hc, hp, hloop⟩
      · refine Or.inl ⟨hloop, ?_⟩
        intro c hc
        rcases List.mem_cons.mp hc with rfl | hc
        · exact hfit
        · exact hnone c hc
      · refine Or.inr ⟨b :: mid, c, post, p, by rw [hrest]; rfl, ?_, hc, by simpa using hp, hloop⟩
        intro d hd
        rcases List.mem_cons.mp hd with rfl | hd
        · exact hfit
        · exact hmid d hd

def roundUp (n : ℕ) : ℕ := (n + 15) / 16 * 16

theorem roundUp_ge (n : ℕ) : n ≤ roundUp n := by
  rw [roundUp]
  omega

def Refused (bs : List Block) (n : ℕ) : Prop :=
  n = 0 ∨ 2 ^ 64 ≤ n + 15 ∨ ∀ c ∈ bs, ¬ Fits (roundUp n) c

/-- The block `b` is the first that fits a request of `n` bytes: it is taken, the pointer to
its payload is returned, and bytes change only in `b` and in the header behind it. -/
structure Taken (s : KmemState) (pre : List Block) (b : Block) (post : List Block) (n : ℕ)
    (p : UInt64) (m : Memory) : Prop where
  positive : 0 < n
  skipped : ∀ c ∈ pre, ¬ Fits (roundUp n) c
  fits : Fits (roundUp n) b
  pointer : p.toNat = s.addr pre + 48
  heap : Heap { s with mem := m } (pre ++ (carve 48 32 (roundUp n) b ++ post))
  frame : ∀ x, x < s.addr pre ∨ s.addr pre + 48 + b.size + 48 ≤ x → m x = s.mem x

theorem Taken.ne_zero {s : KmemState} {pre post : List Block} {b : Block} {n : ℕ} {p : UInt64}
    {m : Memory} (h : Taken s pre b post n p m) : p ≠ 0 := by
  have hp := h.pointer
  rw [Ne, eq_zero_iff]
  omega

theorem kmemAlloc_spec {s : KmemState} {bs : List Block} (h : Heap s bs) (bytes : UInt64) :
    (kmemAlloc s bytes = some (0, s) ∧ Refused bs bytes.toNat) ∨
    ∃ pre b post p m, bs = pre ++ b :: post ∧ Taken s pre b post bytes.toNat p m ∧
      kmemAlloc s bytes = some (p, { s with mem := m }) := by
  by_cases hzero : bytes.toNat = 0
  · refine Or.inl ⟨?_, Or.inl hzero⟩
    rw [kmemAlloc, if_pos (Or.inr ((eq_zero_iff bytes).mpr hzero))]
  have hguard : ¬ (s.gInitialized = false ∨ bytes = 0) := by
    rw [not_or, eq_zero_iff]
    exact ⟨by simp [h.initialized], hzero⟩
  have hround := kmemAlignUpSize_toNat bytes
  simp only [kmemAlloc, if_neg hguard]
  by_cases hbig : bytes.toNat + 15 < 2 ^ 64
  · rw [if_pos hbig] at hround
    have hnull : ¬ kmemAlignUpSize bytes kmemAlign = 0 := by
      rw [eq_zero_iff, hround]
      omega
    rw [if_neg hnull]
    have hspec := allocLoop_spec [] h h.head_at (kmemAlignUpSize bytes kmemAlign) h.length_lt
    have hmod : (kmemAlignUpSize bytes kmemAlign).toNat % 16 = 0 := by omega
    have hmin : 16 ≤ (kmemAlignUpSize bytes kmemAlign).toNat := by omega
    rw [← roundUp] at hround
    rw [hround] at hspec
    rcases hspec with ⟨hloop, hnone⟩ | ⟨pre, b, post, p, rfl, hpre, hfit, hp, hloop⟩
    · exact Or.inl ⟨hloop, Or.inr (Or.inr hnone)⟩
    · rw [List.nil_append] at hp
      obtain ⟨m, htake, hheap, hframe⟩ := h.takeBlock hp hmod hmin (hround ▸ hfit.2)
      rw [hround] at hheap
      have hpayload : (kmemPayload p).toNat = s.addr pre + 48 := by
        have hupper := h.tiled.cut.upper
        have hbound := h.tiled.bound
        rw [← KmemState.addr, ← hp] at hupper
        rw [kmemPayload_toNat (by omega), hp]
      exact Or.inr ⟨pre, b, post, kmemPayload p, m, rfl,
        ⟨by omega, hpre, hfit, hpayload, hheap, hframe⟩, by rw [hloop, htake]⟩
  · rw [if_neg hbig] at hround
    rw [if_pos ((eq_zero_iff _).mpr hround)]
    exact Or.inl ⟨rfl, Or.inr (Or.inl (by omega))⟩

def OutsideHeaders (a : ℕ) (bs : List Block) (x : ℕ) : Prop :=
  ∀ q ∈ starts 48 a bs, x < q ∨ q + 48 ≤ x

theorem outsideHeaders_append {a x : ℕ} {xs ys : List Block} :
    OutsideHeaders a (xs ++ ys) x ↔
      OutsideHeaders a xs x ∧ OutsideHeaders (finish 48 a xs) ys x := by
  simp only [OutsideHeaders, starts_append, List.mem_append, or_imp, forall_and]

theorem absorbNext_frame {m : Memory} {B E x : ℕ} {pre post : List Block} {b c : Block}
    {p q : UInt64} (h : Tiled m B E (pre ++ b :: c :: post)) (hp : p.toNat = finish 48 B pre)
    (hq : q.toNat = p.toNat + 48 + b.size) (hx : OutsideHeaders p.toNat (b :: c :: post) x) :
    absorbNext m p q x = m x := by
  have hcut := h.cut
  rw [← hp] at hcut
  obtain ⟨hcheader, -⟩ := hcut.after
  have hfin := hcut.finish
  rw [← hq] at hcheader hfin
  simp only [OutsideHeaders, starts_cons, List.mem_cons, forall_eq_or_imp, ← hq] at hx
  obtain ⟨hxp, hxq, hxpost⟩ := hx
  refine absorbNext_outside (by omega) (by omega) hcheader.next hxp hxq ?_
  cases post with
  | nil => exact Or.inl hfin
  | cons d post => exact Or.inr (hxpost _ List.mem_cons_self)

theorem coalesceBody_eq {m : Memory} {B E : ℕ} {pre post : List Block} {b c : Block}
    {p : UInt64} (h : Tiled m B E (pre ++ b :: c :: post)) (hp : p.toNat = finish 48 B pre) :
    ∃ q : UInt64, q.toNat = p.toNat + 48 + b.size ∧
      coalesceBody p m =
        if c.free = true then some (.next (absorbNext m p q)) else some (.done m) := by
  have hcut := h.cut
  rw [← hp] at hcut
  have hbound := hcut.bound
  have hlower := hcut.lower
  have hbase := hcut.base
  have hpmod := hcut.aligned
  have hbmod := hcut.shape.1
  obtain ⟨hcheader, hcpost⟩ := hcut.after
  have hle := le_finish 48 (p.toNat + 48 + b.size + 48 + c.size) post
  have hfin := hcut.finish
  rw [finish] at hfin
  rcases link_cases (by omega) hcut.header.next with ⟨-, hend⟩ | ⟨hne, hq, -⟩
  · omega
  · refine ⟨nextAt m p, hq, ?_⟩
    have hq' : (nextAt m p).toNat = p.toNat + 48 + b.size := hq
    rw [← hq'] at hcheader
    have hpnull : p ≠ 0 := by
      rw [Ne, eq_zero_iff]
      omega
    have hguard : (p ≠ 0 ∧ nextAt m p ≠ 0 ∧ freeAt m (nextAt m p) ≠ 0) ↔ c.free = true := by
      rw [← hcheader.free]
      exact ⟨fun hg => hg.2.2, fun hg => ⟨hpnull, hne, hg⟩⟩
    have hsize : (sizeAt m p).toNat = b.size := hcut.header.size
    have hsum : (kmemPayload p + sizeAt m p).toNat = p.toNat + 48 + b.size := by
      rw [toNat_add_of_lt _ _ (by rw [kmemPayload_toNat (by omega)]; omega),
        kmemPayload_toNat (by omega), hsize]
    have hexpected : kmemAlignUpPtr (kmemPayload p + sizeAt m p) kmemAlign = nextAt m p := by
      rw [kmemAlignUpPtr_of_aligned (by omega)]
      exact eq_of_toNat_eq (hsum.trans hq'.symm)
    rw [coalesceBody]
    by_cases hfree : c.free = true
    · rw [if_pos (hguard.mpr hfree), if_pos hfree]
      simp only [hexpected, ne_eq, not_true_eq_false, if_false]
    · rw [if_neg (fun hg => hfree (hguard.mp hg)), if_neg hfree]

theorem coalesceLoop_spec {m : Memory} {B E : ℕ} {pre post : List Block} {b : Block}
    {p : UInt64} {fuel : ℕ} (h : Tiled m B E (pre ++ b :: post))
    (hp : p.toNat = finish 48 B pre) (hfuel : post.length < fuel) :
    ∃ m', loop (coalesceBody p) fuel m = some m' ∧
      Tiled m' B E (pre ++ mergeForward 48 b post) ∧
      ∀ x, OutsideHeaders p.toNat (b :: post) x → m' x = m x := by
  induction post generalizing m b fuel with
  | nil =>
    obtain ⟨fuel, rfl⟩ : ∃ k, fuel = k + 1 := ⟨fuel - 1, by omega⟩
    refine ⟨m, loop_done ?_, h, fun x _ => rfl⟩
    have hcut := h.cut
    rw [← hp] at hcut
    have hnext := hcut.header.next
    have hfin := hcut.finish
    rw [finish] at hfin
    rw [linkTo, if_pos hfin] at hnext
    have hnull : nextAt m p = 0 := (eq_zero_iff _).mpr hnext
    rw [coalesceBody, if_neg (fun hg => hg.2.1 hnull)]
  | cons c post ih =>
    obtain ⟨fuel, rfl⟩ : ∃ k, fuel = k + 1 := ⟨fuel - 1, by omega⟩
    obtain ⟨q, hq, hbody⟩ := coalesceBody_eq h hp
    by_cases hfree : c.free = true
    · rw [if_pos hfree] at hbody
      rw [List.length_cons] at hfuel
      have hless : post.length < fuel := by omega
      obtain ⟨m', hloop, htiled, hframe⟩ := ih (h.absorbNext hp hq) hless
      rw [loop_next hbody, mergeForward, if_pos hfree]
      refine ⟨m', hloop, htiled, ?_⟩
      intro x hx
      rw [hframe x, absorbNext_frame h hp hq hx]
      have hend : p.toNat + 48 + (b.size + 48 + c.size) = p.toNat + 48 + b.size + 48 + c.size := by
        omega
      simp only [OutsideHeaders, starts_cons, List.mem_cons, forall_eq_or_imp] at hx ⊢
      rw [hend]
      exact ⟨hx.1, hx.2.2⟩
    · rw [if_neg hfree] at hbody
      rw [loop_done hbody, mergeForward, if_neg hfree]
      exact ⟨m, rfl, h, fun x _ => rfl⟩

theorem kmemCoalesceForward_spec {m : Memory} {B E : ℕ} {pre post : List Block} {b : Block}
    {p : UInt64} (h : Tiled m B E (pre ++ b :: post)) (hp : p.toNat = finish 48 B pre) :
    ∃ m', kmemCoalesceForward m p = some m' ∧
      Tiled m' B E (pre ++ mergeForward 48 b post) ∧
      ∀ x, OutsideHeaders p.toNat (b :: post) x → m' x = m x := by
  refine coalesceLoop_spec h hp ?_
  have hle := length_le_finish 48 (finish 48 B (pre ++ [b])) post
  have hbound := h.bound
  rw [← h.finish, ← List.singleton_append, ← List.append_assoc, finish_append] at hbound
  rw [wordFuel]
  omega

theorem OutsideHeaders.mergeForward {a x : ℕ} {b : Block} {cs : List Block}
    (h : OutsideHeaders a (b :: cs) x) : OutsideHeaders a (BlockList.mergeForward 48 b cs) x := by
  induction cs generalizing b with
  | nil => exact h
  | cons c cs ih =>
    rw [BlockList.mergeForward]
    split_ifs
    · refine ih ?_
      have hend : a + 48 + (b.size + 48 + c.size) = a + 48 + b.size + 48 + c.size := by omega
      simp only [OutsideHeaders, starts_cons, List.mem_cons, forall_eq_or_imp] at h ⊢
      rw [hend]
      exact ⟨h.1, h.2.2⟩
    · exact h

theorem coalesceBackward_spec {m : Memory} {B E : ℕ} {pre rest : List Block} {b : Block}
    {p : UInt64} (h : Tiled m B E (pre ++ b :: rest)) (hp : p.toNat = finish 48 B pre) :
    ∃ m', coalesceBackward m p = some m' ∧ Tiled m' B E (mergeBack 48 pre (b :: rest)) ∧
      ∀ x, OutsideHeaders B (pre ++ b :: rest) x → m' x = m x := by
  have hprev := h.cut.header.prev
  rw [← hp] at hprev
  rcases List.eq_nil_or_concat pre with rfl | ⟨front, c, rfl⟩
  · have hnull : prevAt m p = 0 := (eq_zero_iff _).mpr hprev
    exact ⟨m, by rw [coalesceBackward, if_neg (fun hg => hg.1 hnull)], h, fun x _ => rfl⟩
  · rw [List.concat_eq_append] at h hprev ⊢
    rw [lastStart_concat] at hprev
    have hprev' : (prevAt m p).toNat = finish 48 B front := hprev
    have h' : Tiled m B E (front ++ c :: b :: rest) := by simpa using h
    have hcut := h'.cut
    have hne : prevAt m p ≠ 0 := by
      have hlower := hcut.lower
      have hbase := hcut.base
      rw [Ne, eq_zero_iff, hprev']
      omega
    have hfree : freeAt m (prevAt m p) ≠ 0 ↔ c.free = true := by
      rw [freeAt, hprev']
      exact hcut.header.free
    rw [mergeBack_concat]
    by_cases hc : c.free = true
    · obtain ⟨m', hm', htiled, hframe⟩ := kmemCoalesceForward_spec h' hprev'
      refine ⟨m', by rw [coalesceBackward, if_pos ⟨hne, hfree.mpr hc⟩, hm'], ?_, ?_⟩
      · rw [if_pos hc]
        exact htiled
      · intro x hx
        refine hframe x (fun q hq => hx q ?_)
        rw [List.append_assoc, starts_append, ← hprev']
        exact List.mem_append_right _ hq
    · refine ⟨m, by rw [coalesceBackward, if_neg (fun hg => hc (hfree.mp hg.2))], ?_,
        fun x _ => rfl⟩
      rw [if_neg hc]
      exact h'

structure Reads (s : KmemState) (v : ValidateState) : Prop where
  nonnull : v.cur ≠ 0
  guard : ¬ v.guard + 1 > 1048576
  cursor : v.cur = v.cursor
  lower : s.gHeapBase ≤ v.cur
  upper : v.cur + sizeofBlock ≤ s.gHeapEnd

def cursorBehind (m : Memory) (cur : UInt64) : UInt64 :=
  kmemAlignUpPtr (kmemPayload cur + sizeAt m cur) kmemAlign

structure Passes (s : KmemState) (v : ValidateState) : Prop extends Reads s v where
  magic : magicAt s.mem v.cur = kmemMagic
  prev : prevAt s.mem v.cur = v.prev
  size : sizeAt s.mem v.cur ≤ s.gHeapEnd - kmemPayload v.cur
  behind : cursorBehind s.mem v.cur ≠ 0
  inside : cursorBehind s.mem v.cur ≤ s.gHeapEnd

def advance (s : KmemState) (v : ValidateState) : ValidateState :=
  ⟨nextAt s.mem v.cur, v.cur, cursorBehind s.mem v.cur, v.guard + 1⟩

theorem advance_cur (s : KmemState) (v : ValidateState) :
    (advance s v).cur = nextAt s.mem v.cur := by
  rw [advance]

theorem advance_cursor (s : KmemState) (v : ValidateState) :
    (advance s v).cursor = cursorBehind s.mem v.cur := by
  rw [advance]

theorem validateBody_of_passes {s : KmemState} {v : ValidateState} (h : Passes s v) :
    validateBody s v = some (.next (advance s v)) := by
  have hin : ¬ (v.cur < s.gHeapBase ∨ v.cur + sizeofBlock > s.gHeapEnd) := by
    rw [not_or, UInt64.not_lt, gt_iff_lt, UInt64.not_lt]
    exact ⟨h.lower, h.upper⟩
  have hsize : ¬ sizeAt s.mem v.cur > s.gHeapEnd - kmemPayload v.cur := by
    rw [gt_iff_lt, UInt64.not_lt]
    exact h.size
  have hend : ¬ (cursorBehind s.mem v.cur = 0 ∨ cursorBehind s.mem v.cur > s.gHeapEnd) := by
    rw [not_or, gt_iff_lt, UInt64.not_lt]
    exact ⟨h.behind, h.inside⟩
  rw [validateBody, if_neg h.nonnull, if_neg h.guard, if_neg (not_not.mpr h.cursor), if_neg hin,
    if_neg (not_not.mpr h.magic), if_neg (not_not.mpr h.prev), if_neg hsize]
  exact if_neg hend

theorem validateBody_cases (s : KmemState) (v : ValidateState) :
    (v.cur = 0 ∧ validateBody s v = some (.done 0)) ∨
    (v.cur ≠ 0 ∧ ∃ code, code < 0 ∧ validateBody s v = some (.done code)) ∨
    (Passes s v ∧ validateBody s v = some (.next (advance s v))) := by
  generalize hbody : validateBody s v = r
  simp only [validateBody] at hbody
  split_ifs at hbody with hnull hguard hcursor hin hmagic hprev hsize hend
  · exact Or.inl ⟨hnull, hbody.symm⟩
  · exact Or.inr (Or.inl ⟨hnull, -3, by decide, hbody.symm⟩)
  · exact Or.inr (Or.inl ⟨hnull, -4, by decide, hbody.symm⟩)
  · exact Or.inr (Or.inl ⟨hnull, -5, by decide, hbody.symm⟩)
  · exact Or.inr (Or.inl ⟨hnull, -6, by decide, hbody.symm⟩)
  · exact Or.inr (Or.inl ⟨hnull, -7, by decide, hbody.symm⟩)
  · exact Or.inr (Or.inl ⟨hnull, -8, by decide, hbody.symm⟩)
  · exact Or.inr (Or.inl ⟨hnull, -9, by decide, hbody.symm⟩)
  · rw [not_or, UInt64.not_lt, gt_iff_lt, UInt64.not_lt] at hin
    rw [not_or, gt_iff_lt, UInt64.not_lt] at hend
    rw [gt_iff_lt, UInt64.not_lt] at hsize
    exact Or.inr (Or.inr ⟨⟨⟨hnull, hguard, not_not.mp hcursor, hin.1, hin.2⟩,
      not_not.mp hmagic, not_not.mp hprev, hsize, hend.1, hend.2⟩, hbody.symm⟩)

structure Validated (s : KmemState) (pre : List Block) (v : ValidateState) : Prop where
  cur : At s v.cur pre
  prev : v.prev.toNat = lastStart 48 0 s.gHeapBase.toNat pre
  cursor : v.cursor.toNat = s.addr pre
  guard : v.guard.toNat = pre.length
  limit : pre.length ≤ 1048576

theorem validateBody_step {s : KmemState} {pre post : List Block} {b : Block}
    {v : ValidateState} (h : Heap s (pre ++ b :: post)) (hv : Validated s pre v) :
    (1048576 < pre.length + 1 ∧ validateBody s v = some (.done (-3))) ∨
    ∃ t, validateBody s v = some (.next t) ∧ Validated s (pre ++ [b]) t := by
  obtain ⟨hne, hcur⟩ := h.at_cons hv.cur
  have hcut := h.tiled.cut
  rw [← KmemState.addr, ← hcur] at hcut
  have hupper := hcut.upper
  have hlower := hcut.lower
  have hbound := hcut.bound
  have hpmod := hcut.aligned
  have hbmod := hcut.shape.1
  have hlimit := hv.limit
  have hguard : (v.guard + 1).toNat = pre.length + 1 := by
    have hone : (1 : UInt64).toNat = 1 := rfl
    rw [toNat_add_of_lt _ _ (by rw [hv.guard]; omega), hv.guard, hone]
  by_cases hmany : 1048576 < pre.length + 1
  · have hgt : v.guard + 1 > 1048576 := by
      rw [gt_iff_lt, UInt64.lt_iff_toNat_lt, hguard]
      exact hmany
    exact Or.inl ⟨hmany, by rw [validateBody, if_neg hne, if_pos hgt]⟩
  · have hpay := kmemPayload_toNat (b := v.cur) (by omega)
    have hsize : (sizeAt s.mem v.cur).toNat = b.size := hcut.header.size
    have hsum : (kmemPayload v.cur + sizeAt s.mem v.cur).toNat = v.cur.toNat + 48 + b.size := by
      rw [toNat_add_of_lt _ _ (by omega), hpay, hsize]
    have hcursor : cursorBehind s.mem v.cur = kmemPayload v.cur + sizeAt s.mem v.cur :=
      kmemAlignUpPtr_of_aligned (by omega)
    have hpass : Passes s v := by
      constructor
      case toReads =>
        constructor
        case nonnull => exact hne
        case guard =>
          rw [gt_iff_lt, UInt64.lt_iff_toNat_lt, hguard]
          exact hmany
        case cursor => exact eq_of_toNat_eq (hcur.trans hv.cursor.symm)
        case lower => exact UInt64.le_iff_toNat_le.mpr hlower
        case upper =>
          rw [UInt64.le_iff_toNat_le, ← kmemPayload, hpay]
          omega
      case magic => exact hcut.header.magic
      case prev => exact eq_of_toNat_eq (hcut.header.prev.trans hv.prev.symm)
      case size =>
        have hle : kmemPayload v.cur ≤ s.gHeapEnd := by
          rw [UInt64.le_iff_toNat_le, hpay]
          omega
        rw [UInt64.le_iff_toNat_le, UInt64.toNat_sub_of_le _ _ hle, hpay, hsize]
        omega
      case behind =>
        rw [hcursor, Ne, eq_zero_iff, hsum]
        omega
      case inside =>
        rw [hcursor, UInt64.le_iff_toNat_le, hsum]
        omega
    refine Or.inr ⟨advance s v, validateBody_of_passes hpass, h.next_at hcur, ?_, ?_, ?_, ?_⟩
    · rw [lastStart_concat]
      exact hcur
    · rw [advance, hcursor, KmemState.addr, finish_append, ← KmemState.addr, ← hcur]
      exact hsum
    · rw [List.length_append]
      exact hguard
    · rw [List.length_append, List.length_singleton]
      omega

theorem validateLoop_spec {s : KmemState} (pre : List Block) {rest : List Block}
    {v : ValidateState} {fuel : ℕ} (h : Heap s (pre ++ rest)) (hv : Validated s pre v)
    (hfuel : rest.length < fuel) :
    loop (validateBody s) fuel v =
      some (if (pre ++ rest).length ≤ 1048576 then 0 else -3) := by
  induction rest generalizing pre v fuel with
  | nil =>
    obtain ⟨fuel, rfl⟩ : ∃ k, fuel = k + 1 := ⟨fuel - 1, by omega⟩
    rw [List.append_nil, if_pos hv.limit]
    refine loop_done ?_
    rw [validateBody, if_pos (h.at_nil hv.cur)]
  | cons b rest ih =>
    obtain ⟨fuel, rfl⟩ : ∃ k, fuel = k + 1 := ⟨fuel - 1, by omega⟩
    rcases validateBody_step h hv with ⟨hmany, hbody⟩ | ⟨t, hbody, ht⟩
    · rw [loop_done hbody, if_neg]
      rw [List.length_append, List.length_cons]
      omega
    · have h' : Heap s ((pre ++ [b]) ++ rest) := by simpa using h
      rw [List.length_cons] at hfuel
      have hless : rest.length < fuel := by omega
      rw [loop_next hbody, ih (pre ++ [b]) h' ht hless]
      simp

/-- On a well-formed heap the validator fails only by its limit on the number of blocks. -/
theorem kmemValidate_spec {s : KmemState} {bs : List Block} (h : Heap s bs) :
    kmemValidate s = some (if bs.length ≤ 1048576 then 0 else -3) := by
  have hbase := h.tiled.base
  have hproper := h.tiled.proper
  have hnull : s.gHeapBase ≠ 0 := by
    rw [Ne, eq_zero_iff]
    omega
  have hguard : ¬ (s.gInitialized = false ∨ s.gHeapBase = 0 ∨ s.gHeapEnd ≤ s.gHeapBase ∨
      s.gHead = 0) := by
    rw [h.initialized, h.head, UInt64.le_iff_toNat_le]
    simp only [Bool.true_eq_false, hnull, false_or, or_false]
    omega
  have hstart : Validated s [] ⟨s.gHead, 0, s.gHeapBase, 0⟩ :=
    ⟨h.head_at, rfl, rfl, rfl, by simp⟩
  rw [kmemValidate, if_neg hguard, if_neg (not_not.mpr h.head),
    validateLoop_spec [] h hstart h.length_lt, List.nil_append]

theorem kmemPtrInHeap_iff {s : KmemState} {bs : List Block} (h : Heap s bs) (ptr : UInt64) :
    kmemPtrInHeap s ptr = true ↔
      s.gHeapBase.toNat ≤ ptr.toNat ∧ ptr.toNat < s.gHeapEnd.toNat := by
  simp only [kmemPtrInHeap, h.initialized, Bool.true_and, Bool.and_eq_true, decide_eq_true_eq,
    ge_iff_le, UInt64.le_iff_toNat_le, UInt64.lt_iff_toNat_lt]

theorem low_bits_eq_zero_iff (ptr : UInt64) : ptr &&& (kmemAlign - 1) = 0 ↔ ptr.toNat % 16 = 0 := by
  rw [eq_zero_iff, toNat_and_low ptr kmemAlign 4 rfl]
  rfl

theorem kmemFreeChecked_used {s : KmemState} {pre post : List Block} {b : Block} {ptr : UInt64}
    (h : Heap s (pre ++ b :: post)) (hb : b.free = false) (hptr : ptr.toNat = s.addr pre + 48) :
    ∃ m, kmemFreeChecked s ptr = some
        (if (release 48 pre b post).length ≤ 1048576 then 0 else -3, { s with mem := m }) ∧
      Heap { s with mem := m } (release 48 pre b post) ∧
      ∀ x, OutsideHeaders s.gHeapBase.toNat (pre ++ b :: post) x → m x = s.mem x := by
  have hcut := h.tiled.cut
  have hupper := hcut.upper
  have hlower := hcut.lower
  have hbound := hcut.bound
  have hamod := hcut.aligned
  have hmin := hcut.shape.2
  rw [← KmemState.addr] at hcut hupper hlower hamod
  have hblock := kmemHeaderFromPayload_toNat hptr
  have hnull : ¬ ptr = 0 := by
    rw [eq_zero_iff]
    omega
  have hin : ¬ kmemPtrInHeap s ptr = false := by
    rw [Bool.not_eq_false, kmemPtrInHeap_iff h]
    omega
  have hlow : ¬ (ptr &&& (kmemAlign - 1) ≠ 0) := by
    rw [not_not, low_bits_eq_zero_iff]
    omega
  have hhead : ¬ (kmemPtrInHeap s (kmemHeaderFromPayload ptr) = false ∨
      magicAt s.mem (kmemHeaderFromPayload ptr) ≠ kmemMagic) := by
    rw [not_or, Bool.not_eq_false, kmemPtrInHeap_iff h, hblock, not_not, magicAt, hblock]
    exact ⟨by omega, hcut.header.magic⟩
  have hused : ¬ freeAt s.mem (kmemHeaderFromPayload ptr) ≠ 0 := by
    rw [freeAt, hblock, hcut.header.free, hb]
    exact Bool.noConfusion
  have hfree := h.tiled.setFree hblock (v := 1) (Or.inr rfl)
  obtain ⟨m₁, hforward, htiled₁, hframe₁⟩ := kmemCoalesceForward_spec hfree hblock
  obtain ⟨d, ds, hmerge, -⟩ := mergeForward_eq_cons 48 ⟨b.size, true⟩ post
  have htiled₁' : Tiled m₁ s.gHeapBase.toNat s.gHeapEnd.toNat (pre ++ d :: ds) := by
    rw [← hmerge]
    exact htiled₁
  obtain ⟨m₂, hbackward, htiled₂, hframe₂⟩ := coalesceBackward_spec htiled₁' hblock
  rw [← hmerge, ← release] at htiled₂
  have hheap : Heap { s with mem := m₂ } (release 48 pre b post) :=
    ⟨h.initialized, h.head, htiled₂⟩
  refine ⟨m₂, ?_, hheap, ?_⟩
  · rw [kmemFreeChecked, if_neg hnull, if_neg hin, if_neg hlow]
    simp only [hhead, if_false, hused, hforward, hbackward, kmemValidate_spec hheap,
      Option.map_some]
  · intro x hx
    obtain ⟨hpre, hrest⟩ := outsideHeaders_append.mp hx
    have hrest' : OutsideHeaders (kmemHeaderFromPayload ptr).toNat (⟨b.size, true⟩ :: post) x := by
      rw [hblock]
      exact hrest
    have hmerged := hrest'.mergeForward
    rw [hmerge, hblock] at hmerged
    rw [hframe₂ x (outsideHeaders_append.mpr ⟨hpre, hmerged⟩), hframe₁ x hrest']
    exact setFree_outside (hrest' _ List.mem_cons_self) 1

theorem kmemFreeChecked_other {s : KmemState} {bs : List Block} {ptr : UInt64} (h : Heap s bs)
    (hptr : ∀ pre b post, bs = pre ++ b :: post → b.free = false →
      ptr.toNat ≠ s.addr pre + 48) :
    ∃ code, kmemFreeChecked s ptr = some (code, s) ∧
      if ptr = 0 then code = 0 else code < 0 := by
  by_cases hnull : ptr = 0
  · exact ⟨0, by rw [kmemFreeChecked, if_pos hnull], by rw [if_pos hnull]⟩
  have hfail : ∀ code : Int32, code < 0 → if ptr = 0 then code = 0 else code < 0 := by
    intro code hc
    rw [if_neg hnull]
    exact hc
  by_cases hin : kmemPtrInHeap s ptr = false
  · exact ⟨-1, by rw [kmemFreeChecked, if_neg hnull, if_pos hin], hfail _ (by decide)⟩
  by_cases hlow : ptr &&& (kmemAlign - 1) ≠ 0
  · exact ⟨-2, by rw [kmemFreeChecked, if_neg hnull, if_neg hin, if_pos hlow],
      hfail _ (by decide)⟩
  rw [kmemFreeChecked, if_neg hnull, if_neg hin, if_neg hlow]
  by_cases hhead : kmemPtrInHeap s (kmemHeaderFromPayload ptr) = false ∨
      magicAt s.mem (kmemHeaderFromPayload ptr) ≠ kmemMagic
  · exact ⟨-3, by simp only [hhead, if_true], hfail _ (by decide)⟩
  by_cases hfree : freeAt s.mem (kmemHeaderFromPayload ptr) ≠ 0
  · exact ⟨-4, by simp only [hhead, if_false]; rw [if_pos hfree], hfail _ (by decide)⟩
  -- the magic word now names a used block of the list
  exfalso
  rw [not_or, Bool.not_eq_false, kmemPtrInHeap_iff h, not_not] at hhead
  rw [Bool.not_eq_false, kmemPtrInHeap_iff h] at hin
  rw [not_not, low_bits_eq_zero_iff] at hlow
  obtain ⟨⟨hlow', hhigh'⟩, hmagic⟩ := hhead
  have hextent := h.tiled.extent
  have hbound := h.tiled.bound
  have hblock : (kmemHeaderFromPayload ptr).toNat = (2 ^ 64 - 48 + ptr.toNat) % 2 ^ 64 := by
    rw [kmemHeaderFromPayload, UInt64.toNat_sub, sizeofBlock_toNat]
  have hptrlt := ptr.toNat_lt
  have hsum : ptr.toNat = (kmemHeaderFromPayload ptr).toNat + 48 := by omega
  have hstart := h.tiled.magic _ (by omega) hlow' hhigh' hmagic
  obtain ⟨⟨q, b⟩, hmem, hq⟩ := List.mem_map.mp hstart
  obtain ⟨pre, post, hbs, haddr⟩ := exists_cut_of_mem_layout 48 hmem
  have hpos : (kmemHeaderFromPayload ptr).toNat = s.addr pre := by
    rw [← hq]
    exact haddr
  have hcut := (hbs ▸ h.tiled).cut
  have hused : b.free = false := by
    have hflag := hcut.header.free
    rw [← KmemState.addr, ← hpos] at hflag
    rw [← Bool.not_eq_true, ← hflag]
    exact hfree
  exact hptr pre b post hbs hused (by rw [hsum, hpos])

theorem kmemMemset_spec (m : Memory) {dst : UInt64} (value : UInt8) {bytes : UInt64}
    (h : dst.toNat + bytes.toNat < 2 ^ 64) :
    kmemMemset m dst value bytes = some (fillRange m dst.toNat bytes.toNat value) := by
  have hloop : ∃ r, kmemMemset m dst value bytes = some r ∧
      r = fillRange m dst.toNat bytes.toNat value := by
    refine loop_total
      (fun c => c.2.1.toNat + c.2.2.toNat = dst.toNat + bytes.toNat ∧ dst.toNat ≤ c.2.1.toNat ∧
        c.1 = fillRange m dst.toNat (c.2.1.toNat - dst.toNat) value)
      (· = fillRange m dst.toNat bytes.toNat value) (fun c => c.2.2.toNat) ?_ ?_ ?_
    · intro c hc
      obtain ⟨hsum, hle, hmem⟩ := hc
      by_cases hpos : c.2.2 > 0
      · have hpos' : 0 < c.2.2.toNat := UInt64.lt_iff_toNat_lt.mp hpos
        have hone : (1 : UInt64).toNat = 1 := rfl
        have hp : (c.2.1 + 1).toNat = c.2.1.toNat + 1 := by
          rw [toNat_add_of_lt _ _ (by omega), hone]
        have hb : (c.2.2 - 1).toNat = c.2.2.toNat - 1 := by
          rw [UInt64.toNat_sub_of_le, hone]
          rw [UInt64.le_iff_toNat_le, hone]
          exact hpos'
        refine Or.inr ⟨_, by rw [memsetBody, if_pos hpos], ⟨?_, ?_, ?_⟩, ?_⟩
        · simp only [hp, hb]
          omega
        · simp only [hp]
          omega
        · funext x
          simp only [hp, hmem, fillRange, Function.update_apply]
          by_cases hx : x = c.2.1.toNat
          · rw [if_pos hx, if_pos (by omega)]
          · rw [if_neg hx]
            congr 1
            apply propext
            omega
        · simp only [hb]
          omega
      · have hzero : c.2.2.toNat = 0 := by
          rw [gt_iff_lt, UInt64.lt_iff_toNat_lt] at hpos
          have hz : (0 : UInt64).toNat = 0 := rfl
          omega
        refine Or.inl ⟨c.1, by rw [memsetBody, if_neg hpos], ?_⟩
        rw [hmem]
        congr 1
        omega
    · refine ⟨rfl, le_rfl, ?_⟩
      funext x
      exact (if_neg (by simp only; omega)).symm
    · exact bytes.toNat_lt
  obtain ⟨r, hr, rfl⟩ := hloop
  exact hr

/-- The zeroing of a payload keeps the heap: a word that it touches contains a zero byte. -/
theorem Heap.zeroPayload {s : KmemState} {pre post : List Block} {d : Block} {n : ℕ}
    (h : Heap s (pre ++ d :: post)) (hn : n ≤ d.size) :
    Heap { s with mem := fillRange s.mem (s.addr pre + 48) n 0 } (pre ++ d :: post) := by
  refine ⟨h.initialized, h.head, h.tiled.rewritePayload rfl ?_ ?_⟩
  · intro x hx
    exact fillRange_outside s.mem 0 (by rw [KmemState.addr]; omega)
  · intro x hx hlow hhigh
    by_cases hin : x < s.addr pre + 48 + n
    · exact not_magicWord_of_zero (i := 0) (by decide) (fillRange_inside s.mem 0 ⟨hlow, hin⟩)
    · have hsame : loadU64 (fillRange s.mem (s.addr pre + 48) n 0) x = loadU64 s.mem x :=
        loadU64_congr fun y hy _ => fillRange_outside s.mem 0 (Or.inr (by omega))
      have hclean := h.tiled.payload_clean hx hlow hhigh
      rw [MagicWord, ← hsame] at hclean
      exact hclean

theorem product_overflow_iff (count bytes : UInt64) :
    (count ≠ 0 ∧ bytes > sizeMax / count) ↔ 2 ^ 64 ≤ count.toNat * bytes.toNat := by
  have hmax : sizeMax.toNat = 2 ^ 64 - 1 := rfl
  by_cases hzero : count = 0
  · simp [hzero]
  · have hpos : 0 < count.toNat := Nat.pos_of_ne_zero (fun hz => hzero ((eq_zero_iff _).mpr hz))
    rw [gt_iff_lt, UInt64.lt_iff_toNat_lt, UInt64.toNat_div, hmax, Nat.div_lt_iff_lt_mul hpos,
      Nat.mul_comm]
    constructor
    · intro h
      omega
    · intro h
      exact ⟨hzero, by omega⟩

theorem Taken.zeroed {s : KmemState} {pre post : List Block} {b : Block} {n : ℕ} {p : UInt64}
    {m : Memory} (h : Taken s pre b post n p m) :
    Taken s pre b post n p (fillRange m p.toNat n 0) := by
  obtain ⟨d, ds, hcarve, -, hwd, -⟩ := carve_eq_cons 48 32 (roundUp n) h.fits.2
  have hheap := h.heap
  have hroom := (roundUp_ge n).trans h.fits.2
  rw [hcarve, List.cons_append] at hheap
  rw [h.pointer]
  constructor
  case positive => exact h.positive
  case skipped => exact h.skipped
  case fits => exact h.fits
  case pointer => exact h.pointer
  case heap =>
    rw [hcarve, List.cons_append]
    exact hheap.zeroPayload ((roundUp_ge n).trans hwd)
  case frame =>
    intro x hx
    rw [fillRange_outside m 0 (by omega)]
    exact h.frame x hx

theorem kmemCalloc_of_null {s t : KmemState} {count bytes : UInt64}
    (hexact : ¬ (count ≠ 0 ∧ bytes > sizeMax / count))
    (halloc : kmemAlloc s (count * bytes) = some (0, t)) :
    kmemCalloc s count bytes = some (0, t) := by
  rw [kmemCalloc, if_neg hexact]
  simp only [halloc, ne_eq, not_true_eq_false, if_false]

theorem kmemCalloc_of_alloc {s t : KmemState} {count bytes p : UInt64}
    (hexact : ¬ (count ≠ 0 ∧ bytes > sizeMax / count))
    (halloc : kmemAlloc s (count * bytes) = some (p, t)) (hne : p ≠ 0)
    (hroom : p.toNat + (count * bytes).toNat < 2 ^ 64) :
    kmemCalloc s count bytes =
      some (p, { t with mem := fillRange t.mem p.toNat (count * bytes).toNat 0 }) := by
  have hset := kmemMemset_spec t.mem 0 hroom
  rw [kmemCalloc, if_neg hexact]
  simp only [halloc, hset, Option.map_some, ne_eq, hne, not_false_eq_true, if_true]

theorem Taken.calloc {s : KmemState} {pre post : List Block} {b : Block}
    {count bytes p : UInt64} {m : Memory} (hs : Heap s (pre ++ b :: post))
    (h : Taken s pre b post (count * bytes).toNat p m)
    (hexact : ¬ (count ≠ 0 ∧ bytes > sizeMax / count))
    (halloc : kmemAlloc s (count * bytes) = some (p, { s with mem := m })) :
    kmemCalloc s count bytes =
      some (p, { s with mem := fillRange m p.toNat (count * bytes).toNat 0 }) := by
  have hp := h.pointer
  have hupper := hs.tiled.cut.upper
  have hbound := hs.tiled.bound
  have hroom := (roundUp_ge (count * bytes).toNat).trans h.fits.2
  rw [← KmemState.addr] at hupper
  exact kmemCalloc_of_alloc hexact halloc h.ne_zero (by omega)

theorem kmemCalloc_spec {s : KmemState} {bs : List Block} (h : Heap s bs)
    (count bytes : UInt64) :
    (kmemCalloc s count bytes = some (0, s) ∧ Refused bs (count.toNat * bytes.toNat)) ∨
    ∃ pre b post p m, bs = pre ++ b :: post ∧
      Taken s pre b post (count.toNat * bytes.toNat) p m ∧
      kmemCalloc s count bytes = some (p, { s with mem := m }) ∧
      ∀ x, p.toNat ≤ x → x < p.toNat + count.toNat * bytes.toNat → m x = 0 := by
  by_cases hover : count ≠ 0 ∧ bytes > sizeMax / count
  · have hbig := (product_overflow_iff count bytes).mp hover
    exact Or.inl ⟨by rw [kmemCalloc, if_pos hover], Or.inr (Or.inl (by omega))⟩
  have hproduct : (count * bytes).toNat = count.toNat * bytes.toNat :=
    toNat_mul_of_lt _ _ (by
      rw [product_overflow_iff] at hover
      omega)
  rw [← hproduct]
  rcases kmemAlloc_spec h (count * bytes) with
    ⟨halloc, hrefused⟩ | ⟨pre, b, post, p, m, rfl, htaken, halloc⟩
  · exact Or.inl ⟨kmemCalloc_of_null hover halloc, hrefused⟩
  · exact Or.inr ⟨pre, b, post, p, _, rfl, htaken.zeroed, htaken.calloc h hover halloc,
      fun x hlow hhigh => fillRange_inside m 0 ⟨hlow, hhigh⟩⟩

theorem kmemAlignUpPtr_toNat (v : UInt64) :
    (kmemAlignUpPtr v kmemAlign).toNat = if v.toNat + 15 < 2 ^ 64 then roundUp v.toNat else 0 :=
  kmemAlignUpSize_toNat v

structure Counts (bs : List Block) (out : KmemStats) : Prop where
  used : out.usedBytes.toNat = units false bs
  free : out.freeBytes.toNat = units true bs
  blocks : out.blockCount.toNat = bs.length
  frees : out.freeCount.toNat = bs.countP Block.free
  largest : out.largestFree.toNat = largestFree bs

theorem Counts.countBlock {m : Memory} {cur : UInt64} {bs : List Block} {b : Block}
    {out : KmemStats} (h : Counts bs out) (hsize : (sizeAt m cur).toNat = b.size)
    (hfree : freeAt m cur ≠ 0 ↔ b.free = true) {a : ℕ}
    (hroom : finish 48 a (bs ++ [b]) < 2 ^ 64) : Counts (bs ++ [b]) (countBlock m cur out) := by
  have hone : (1 : UInt64).toNat = 1 := rfl
  rw [finish_eq, List.length_append, List.length_singleton, units_concat, units_concat] at hroom
  have hused := h.used
  have hunits := h.free
  have hfrees := h.frees
  have hcount := List.countP_le_length (p := Block.free) (l := bs)
  have hblocks : (out.blockCount + 1).toNat = (bs ++ [b]).length := by
    rw [toNat_add_of_lt _ _ (by rw [h.blocks, hone]; omega), h.blocks, List.length_append]
    rfl
  rw [Kmem.countBlock]
  by_cases hb : b.free = true
  · rw [if_pos hb, if_neg (by simp [hb])] at hroom
    have hunits' : (out.freeBytes + sizeAt m cur).toNat = units true (bs ++ [b]) := by
      rw [units_concat, if_pos hb, toNat_add_of_lt _ _ (by omega), hunits, hsize]
    have hfrees' : (out.freeCount + 1).toNat = (bs ++ [b]).countP Block.free := by
      rw [List.countP_append, List.countP_singleton, if_pos hb, toNat_add_of_lt _ _ (by omega),
        hfrees, hone]
    rw [if_pos (hfree.mpr hb)]
    constructor
    case used => simpa [units_concat, hb] using hused
    case free => exact hunits'
    case blocks => exact hblocks
    case frees => exact hfrees'
    case largest =>
      rw [largestFree_concat, if_pos hb, ← h.largest, ← hsize]
      simp only [gt_iff_lt, UInt64.lt_iff_toNat_lt]
      split_ifs <;> omega
  · rw [if_neg hb, if_pos (Bool.eq_false_iff.mpr hb)] at hroom
    have hused' : (out.usedBytes + sizeAt m cur).toNat = units false (bs ++ [b]) := by
      rw [units_concat, if_pos (Bool.eq_false_iff.mpr hb), toNat_add_of_lt _ _ (by omega), hused,
        hsize]
    rw [if_neg (mt hfree.mp hb)]
    constructor
    case used => exact hused'
    case free => simpa [units_concat, hb] using hunits
    case blocks => exact hblocks
    case frees => simpa [List.countP_append, hb] using hfrees
    case largest => simpa [largestFree_concat, hb] using h.largest

theorem countBlock_totalBytes (m : Memory) (cur : UInt64) (out : KmemStats) :
    (countBlock m cur out).totalBytes = out.totalBytes := by
  rw [countBlock]
  split_ifs <;> rfl

theorem statsLoop_spec {s : KmemState} (pre : List Block) {rest : List Block} {cur : UInt64}
    (h : Heap s (pre ++ rest)) (hcur : At s cur pre) {out : KmemStats} (hout : Counts pre out)
    {fuel : ℕ} (hfuel : rest.length < fuel) :
    ∃ r, loop (statsBody s.mem) fuel (cur, out) = some r ∧ Counts (pre ++ rest) r ∧
      r.totalBytes = out.totalBytes := by
  induction rest generalizing pre cur out fuel with
  | nil =>
    obtain ⟨fuel, rfl⟩ : ∃ k, fuel = k + 1 := ⟨fuel - 1, by omega⟩
    have hdone : statsBody s.mem (cur, out) = some (.done out) := by
      rw [statsBody, if_pos (h.at_nil hcur)]
    rw [List.append_nil]
    exact ⟨out, loop_done hdone, hout, rfl⟩
  | cons b rest ih =>
    obtain ⟨fuel, rfl⟩ : ∃ k, fuel = k + 1 := ⟨fuel - 1, by omega⟩
    rw [List.length_cons] at hfuel
    obtain ⟨hne, haddr⟩ := h.at_cons hcur
    have hnext : statsBody s.mem (cur, out) =
        some (.next (nextAt s.mem cur, countBlock s.mem cur out)) := by
      rw [statsBody, if_neg hne]
    have hheader := h.tiled.cut.header
    rw [← KmemState.addr, ← haddr] at hheader
    have hroom : finish 48 s.gHeapBase.toNat (pre ++ [b]) < 2 ^ 64 := by
      have hbound := h.tiled.bound
      have hupper := h.tiled.cut.upper
      rw [finish_append, finish, finish]
      omega
    have hcounted := hout.countBlock hheader.size hheader.free hroom
    have hat := h.next_at haddr
    have hcut : pre ++ b :: rest = (pre ++ [b]) ++ rest := by simp
    rw [hcut] at h ⊢
    obtain ⟨r, hr, hcounts, htotal⟩ := ih (pre ++ [b]) h hat hcounted
      (show rest.length < fuel by omega)
    refine ⟨r, (loop_next hnext).trans hr, hcounts, ?_⟩
    rw [htotal, countBlock_totalBytes]

theorem kmemGetStats_spec {s : KmemState} {bs : List Block} (h : Heap s bs) :
    ∃ out, kmemGetStats s = some out ∧ Counts bs out ∧
      out.totalBytes = s.gHeapEnd - s.gHeapBase := by
  simp only [kmemGetStats, h.initialized, Bool.true_eq_false, if_false]
  exact statsLoop_spec [] h h.head_at ⟨rfl, rfl, rfl, rfl, rfl⟩ h.length_lt

end Mcsos.Kmem
