import Mcsos.KmemRuns

/-!
# The validator on a corrupted heap

Here the headers hold arbitrary bytes. The trace of `kmem_validate` is the list of the headers
it reads; what it has checked when it accepts follows by induction over that trace.
-/

namespace Mcsos.Kmem
open BoundedLoop ByteMemory WordArithmetic

instance (s : KmemState) (v : ValidateState) : Decidable (Reads s v) :=
  decidable_of_iff (v.cur ≠ 0 ∧ ¬ v.guard + 1 > 1048576 ∧ v.cur = v.cursor ∧
      s.gHeapBase ≤ v.cur ∧ v.cur + sizeofBlock ≤ s.gHeapEnd)
    ⟨fun h => ⟨h.1, h.2.1, h.2.2.1, h.2.2.2.1, h.2.2.2.2⟩,
      fun h => ⟨h.nonnull, h.guard, h.cursor, h.lower, h.upper⟩⟩

def loopReads (s : KmemState) (fuel : ℕ) (v : ValidateState) : List UInt64 :=
  ((visits (validateBody s) fuel v).filter (fun w => Reads s w)).map ValidateState.cur

def headersRead (s : KmemState) : List UInt64 :=
  if s.gInitialized = false ∨ s.gHeapBase = 0 ∨ s.gHeapEnd ≤ s.gHeapBase ∨ s.gHead = 0 then []
  else if s.gHead ≠ s.gHeapBase then []
  else loopReads s wordFuel ⟨s.gHead, 0, s.gHeapBase, 0⟩

inductive Walk (s : KmemState) : ValidateState → List UInt64 → Int32 → Prop
  | finish {v : ValidateState} : v.cur = 0 → Walk s v [] 0
  | refuse {v : ValidateState} {code : Int32} : ¬ Reads s v → code < 0 → Walk s v [] code
  | reject {v : ValidateState} {code : Int32} : Reads s v → code < 0 → Walk s v [v.cur] code
  | pass {v : ValidateState} {hs : List UInt64} {code : Int32} :
      Passes s v → Walk s (advance s v) hs code → Walk s v (v.cur :: hs) code

section Trace

variable {s : KmemState} {v : ValidateState} {fuel : ℕ}

theorem loopReads_of_passes (h : Passes s v) :
    loopReads s (fuel + 1) v = v.cur :: loopReads s fuel (advance s v) := by
  simp only [loopReads, visits_next (validateBody_of_passes h), List.filter_cons, h.toReads,
    decide_true, if_true, List.map_cons]

theorem loopReads_of_done {code : Int32} (h : validateBody s v = some (.done code)) :
    loopReads s (fuel + 1) v = if Reads s v then [v.cur] else [] := by
  by_cases hr : Reads s v
  · simp [loopReads, visits_done h, hr]
  · simp [loopReads, visits_done h, hr]

theorem walk_of_loop {code : Int32} (h : loop (validateBody s) fuel v = some code) :
    Walk s v (loopReads s fuel v) code := by
  induction fuel generalizing v with
  | zero => cases h
  | succ fuel ih =>
    rcases validateBody_cases s v with ⟨hnull, hbody⟩ | ⟨-, c, hneg, hbody⟩ | ⟨hpass, hbody⟩
    · rw [loop_done hbody] at h
      cases h
      rw [loopReads_of_done hbody, if_neg (fun hr => hr.nonnull hnull)]
      exact Walk.finish hnull
    · rw [loop_done hbody] at h
      cases h
      rw [loopReads_of_done hbody]
      by_cases hr : Reads s v
      · rw [if_pos hr]
        exact Walk.reject hr hneg
      · rw [if_neg hr]
        exact Walk.refuse hr hneg
    · rw [loop_next hbody] at h
      rw [loopReads_of_passes hpass]
      exact Walk.pass hpass (ih h)

theorem guard_add_one (h : v.guard.toNat ≤ 1048576) (hr : Reads s v) :
    (v.guard + 1).toNat = v.guard.toNat + 1 ∧ v.guard.toNat + 1 ≤ 1048576 := by
  have hone : (1 : UInt64).toNat = 1 := rfl
  have hsum : (v.guard + 1).toNat = v.guard.toNat + 1 :=
    toNat_add_of_lt _ _ (by rw [hone]; omega)
  have hlimit := hr.guard
  rw [gt_iff_lt, UInt64.not_lt, UInt64.le_iff_toNat_le, hsum] at hlimit
  exact ⟨hsum, hlimit⟩

theorem validateLoop_total (s : KmemState) (v : ValidateState) (h : v.guard.toNat ≤ 1048576) :
    ∃ code, loop (validateBody s) wordFuel v = some code := by
  have hfuel : 1048576 - v.guard.toNat < wordFuel := by
    norm_num [wordFuel]
    omega
  have htotal := loop_total (fun w : ValidateState => w.guard.toNat ≤ 1048576)
    (fun _ => True) (fun w => 1048576 - w.guard.toNat) (fun w hw => by
      rcases validateBody_cases s w with ⟨-, hbody⟩ | ⟨-, c, -, hbody⟩ | ⟨hpass, hbody⟩
      · exact Or.inl ⟨0, hbody, trivial⟩
      · exact Or.inl ⟨c, hbody, trivial⟩
      · obtain ⟨hsum, hlimit⟩ := guard_add_one hw hpass.toReads
        have hnext : (advance s w).guard.toNat = w.guard.toNat + 1 := hsum
        exact Or.inr ⟨advance s w, hbody, by omega, by omega⟩) h hfuel
  obtain ⟨code, hcode, -⟩ := htotal
  exact ⟨code, hcode⟩

theorem mem_loopReads (h : Reads s v) : v.cur ∈ loopReads s (fuel + 1) v := by
  rcases validateBody_cases s v with ⟨hnull, -⟩ | ⟨-, c, -, hbody⟩ | ⟨hpass, -⟩
  · exact absurd hnull h.nonnull
  · rw [loopReads_of_done hbody, if_pos h]
    exact List.mem_singleton_self _
  · rw [loopReads_of_passes hpass]
    exact List.mem_cons_self

theorem kmemValidate_walk (s : KmemState) :
    (∃ code, code < 0 ∧ kmemValidate s = some code ∧ headersRead s = []) ∨
    (s.gHeapBase ≠ 0 ∧ s.gHeapBase < s.gHeapEnd ∧ s.gHead = s.gHeapBase ∧
      ∃ code, kmemValidate s = some code ∧
        Walk s ⟨s.gHead, 0, s.gHeapBase, 0⟩ (headersRead s) code) := by
  by_cases hoff :
    s.gInitialized = false ∨ s.gHeapBase = 0 ∨ s.gHeapEnd ≤ s.gHeapBase ∨ s.gHead = 0
  · exact Or.inl ⟨-1, by decide, by rw [kmemValidate, if_pos hoff],
      by rw [headersRead, if_pos hoff]⟩
  by_cases hhead : s.gHead ≠ s.gHeapBase
  · exact Or.inl ⟨-2, by decide, by rw [kmemValidate, if_neg hoff, if_pos hhead],
      by rw [headersRead, if_neg hoff, if_pos hhead]⟩
  obtain ⟨code, hcode⟩ := validateLoop_total s ⟨s.gHead, 0, s.gHeapBase, 0⟩ (Nat.zero_le _)
  rw [kmemValidate, headersRead, if_neg hoff, if_neg hhead, if_neg hoff, if_neg hhead]
  rw [not_or, not_or, not_or, UInt64.not_le] at hoff
  exact Or.inr ⟨hoff.2.1, hoff.2.2.1, not_not.mp hhead, code, hcode, walk_of_loop hcode⟩

theorem kmemValidate_accepts (h : kmemValidate s = some 0) :
    s.gHeapBase ≠ 0 ∧ s.gHeapBase < s.gHeapEnd ∧ s.gHead = s.gHeapBase ∧
      Walk s ⟨s.gHead, 0, s.gHeapBase, 0⟩ (headersRead s) 0 := by
  rcases kmemValidate_walk s with ⟨code, hneg, hcode, -⟩ | ⟨hbase, hlt, hhead, code, hcode, hwalk⟩
  · rw [h] at hcode
    cases hcode
    exact absurd hneg (by decide)
  · rw [h] at hcode
    cases hcode
    exact ⟨hbase, hlt, hhead, hwalk⟩

theorem validateBody_congr {m : Memory}
    (h : Reads s v → ∀ x, v.cur.toNat ≤ x → x < v.cur.toNat + 48 → m x = s.mem x) :
    validateBody { s with mem := m } v = validateBody s v := by
  simp only [validateBody]
  by_cases hnull : v.cur = 0
  · rw [if_pos hnull, if_pos hnull]
  by_cases hguard : v.guard + 1 > 1048576
  · rw [if_neg hnull, if_neg hnull, if_pos hguard, if_pos hguard]
  by_cases hcursor : v.cur ≠ v.cursor
  · rw [if_neg hnull, if_neg hnull, if_neg hguard, if_neg hguard, if_pos hcursor, if_pos hcursor]
  by_cases hin : v.cur < s.gHeapBase ∨ v.cur + sizeofBlock > s.gHeapEnd
  · simp only [hnull, hguard, hcursor, hin, if_true, if_false]
  rw [not_or, UInt64.not_lt, gt_iff_lt, UInt64.not_lt] at hin
  have hsame := h ⟨hnull, hguard, not_not.mp hcursor, hin.1, hin.2⟩
  have hload : ∀ k, k + 8 ≤ 48 →
      loadU64 m (v.cur.toNat + k) = loadU64 s.mem (v.cur.toNat + k) := by
    intro k hk
    exact loadU64_congr (fun x hlow hhigh => hsame x (by omega) (by omega))
  have hmagic : magicAt m v.cur = magicAt s.mem v.cur := hload 0 (by omega)
  have hsize : sizeAt m v.cur = sizeAt s.mem v.cur := hload 8 (by omega)
  have hprev : prevAt m v.cur = prevAt s.mem v.cur := hload 32 (by omega)
  have hnext : nextAt m v.cur = nextAt s.mem v.cur := hload 40 (by omega)
  rw [hmagic, hsize, hprev, hnext]

theorem validateLoop_congr {m : Memory}
    (h : ∀ a ∈ loopReads s fuel v, ∀ x, a.toNat ≤ x → x < a.toNat + 48 → m x = s.mem x) :
    loop (validateBody { s with mem := m }) fuel v = loop (validateBody s) fuel v := by
  induction fuel generalizing v with
  | zero => simp only [loop]
  | succ fuel ih =>
    rcases validateBody_cases s v with ⟨hnull, hbody⟩ | ⟨-, c, -, hbody⟩ | ⟨hpass, hbody⟩
    · have hsame : validateBody { s with mem := m } v = validateBody s v :=
        validateBody_congr (fun hr => absurd hnull hr.nonnull)
      rw [loop_done hbody, loop_done (hsame.trans hbody)]
    · rw [loopReads_of_done hbody] at h
      have hsame : validateBody { s with mem := m } v = validateBody s v :=
        validateBody_congr (fun hr => h v.cur (by rw [if_pos hr]; exact List.mem_singleton_self _))
      rw [loop_done hbody, loop_done (hsame.trans hbody)]
    · rw [loopReads_of_passes hpass] at h
      have hsame : validateBody { s with mem := m } v = validateBody s v :=
        validateBody_congr (fun _ => h v.cur List.mem_cons_self)
      rw [loop_next hbody, loop_next (hsame.trans hbody)]
      exact ih (fun a ha => h a (List.mem_cons_of_mem _ ha))

theorem kmemValidate_congr {m : Memory}
    (h : ∀ a ∈ headersRead s, ∀ x, a.toNat ≤ x → x < a.toNat + 48 → m x = s.mem x) :
    kmemValidate { s with mem := m } = kmemValidate s := by
  simp only [kmemValidate]
  by_cases hoff :
    s.gInitialized = false ∨ s.gHeapBase = 0 ∨ s.gHeapEnd ≤ s.gHeapBase ∨ s.gHead = 0
  · rw [if_pos hoff, if_pos hoff]
  by_cases hhead : s.gHead ≠ s.gHeapBase
  · rw [if_neg hoff, if_neg hoff, if_pos hhead, if_pos hhead]
  rw [headersRead, if_neg hoff, if_neg hhead] at h
  rw [if_neg hoff, if_neg hoff, if_neg hhead, if_neg hhead]
  exact validateLoop_congr h

end Trace

section Walks

variable {s : KmemState} {v : ValidateState} {hs : List UInt64} {code : Int32}

theorem Walk.head (h : Walk s v hs code) : ∀ a ∈ hs.head?, a = v.cur ∧ Reads s v := by
  cases h with
  | finish => exact fun a ha => nomatch ha
  | refuse => exact fun a ha => nomatch ha
  | reject hr => exact fun a ha => ⟨(Option.mem_some_iff.mp ha).symm, hr⟩
  | pass hpass => exact fun a ha => ⟨(Option.mem_some_iff.mp ha).symm, hpass.toReads⟩

theorem Walk.head_passes (h : Walk s v hs 0) : ∀ a ∈ hs.head?, a = v.cur ∧ Passes s v := by
  cases h with
  | finish => exact fun a ha => nomatch ha
  | refuse => exact fun a ha => nomatch ha
  | reject _ hneg => exact absurd hneg (by decide)
  | pass hpass => exact fun a ha => ⟨(Option.mem_some_iff.mp ha).symm, hpass⟩

theorem Walk.nil_code (h : Walk s v [] code) (hcur : v.cur ≠ 0) : code < 0 := by
  cases h with
  | finish hnull => exact absurd hnull hcur
  | refuse _ hneg => exact hneg

theorem Walk.chain (h : Walk s v hs code) :
    hs.IsChain (fun a b => b = cursorBehind s.mem a ∧ b ≠ 0) := by
  induction h with
  | finish => exact List.isChain_nil
  | refuse => exact List.isChain_nil
  | reject => exact List.isChain_singleton _
  | @pass v _ _ _ htail ih =>
    apply List.isChain_cons.mpr
    refine ⟨fun b hb => ?_, ih⟩
    obtain ⟨hcur, hr⟩ := htail.head b hb
    rw [hcur]
    exact ⟨hr.cursor.trans (advance_cursor s v), hr.nonnull⟩

theorem Walk.upper (h : Walk s v hs code) : ∀ a ∈ hs, a + sizeofBlock ≤ s.gHeapEnd := by
  induction h with
  | finish => exact List.forall_mem_nil _
  | refuse => exact List.forall_mem_nil _
  | reject hr => exact List.forall_mem_singleton.mpr hr.upper
  | pass hpass _ ih => exact List.forall_mem_cons.mpr ⟨hpass.upper, ih⟩

theorem Walk.linked (h : Walk s v hs code) (hcode : code = 0) : Linked s.mem v.cur hs := by
  induction h with
  | finish hnull => exact hnull
  | refuse _ hneg =>
    rw [hcode] at hneg
    exact absurd hneg (by decide)
  | reject _ hneg =>
    rw [hcode] at hneg
    exact absurd hneg (by decide)
  | pass hpass _ ih => exact ⟨rfl, hpass.nonnull, ih hcode⟩

theorem Walk.magic (h : Walk s v hs code) (hcode : code = 0) :
    ∀ a ∈ hs, magicAt s.mem a = kmemMagic := by
  induction h with
  | finish => exact List.forall_mem_nil _
  | refuse => exact List.forall_mem_nil _
  | reject _ hneg =>
    rw [hcode] at hneg
    exact absurd hneg (by decide)
  | pass hpass _ ih => exact List.forall_mem_cons.mpr ⟨hpass.magic, ih hcode⟩

theorem Walk.prev (h : Walk s v hs code) (hcode : code = 0) :
    hs.IsChain (fun a b => prevAt s.mem b = a) := by
  induction h with
  | finish => exact List.isChain_nil
  | refuse => exact List.isChain_nil
  | reject => exact List.isChain_singleton _
  | pass _ htail ih =>
    apply List.isChain_cons.mpr
    refine ⟨fun b hb => ?_, ih hcode⟩
    rw [hcode] at htail
    obtain ⟨rfl, hpass⟩ := htail.head_passes b hb
    exact hpass.prev

end Walks

def Astray (s : KmemState) (a : UInt64) : Prop :=
  -- The `next` pointer of the header goes back, stays, or leaves the arena. A pointer to a header
  -- that was read before goes back, since the headers are read in the order of addresses.
  nextAt s.mem a ≠ 0 ∧ ((nextAt s.mem a).toNat ≤ a.toNat ∨
    (nextAt s.mem a).toNat < s.gHeapBase.toNat ∨
    s.gHeapEnd.toNat < (nextAt s.mem a).toNat + 48)

structure Surveyed (s : KmemState) (hs : List UInt64) (code : Int32) : Prop where
  inside : ∀ a ∈ hs, s.gHeapBase.toNat ≤ a.toNat ∧ a.toNat + 48 ≤ s.gHeapEnd.toNat
  contiguous : hs.IsChain (fun a b => b.toNat = roundUp (a.toNat + 48 + (sizeAt s.mem a).toNat))
  ends : code = 0 → ∀ a ∈ hs, a.toNat + 48 + (sizeAt s.mem a).toNat ≤ s.gHeapEnd.toNat
  astray : ∀ a ∈ hs, Astray s a → hs.getLast? = some a ∧ code < 0

theorem surveyed_nil (s : KmemState) (code : Int32) : Surveyed s [] code where
  inside := List.forall_mem_nil _
  contiguous := List.isChain_nil
  ends := fun _ => List.forall_mem_nil _
  astray := List.forall_mem_nil _

section Survey

variable {s : KmemState} {v : ValidateState} {hs : List UInt64} {code : Int32}

theorem Reads.fits (h : Reads s v) (hE : s.gHeapEnd.toNat ≤ 2 ^ 64 - 48)
    (hcursor : v.cursor ≤ s.gHeapEnd) (hne : s.gHeapEnd ≠ v.cur) :
    s.gHeapBase.toNat ≤ v.cur.toNat ∧ v.cur.toNat + 48 ≤ s.gHeapEnd.toNat := by
  have hlower := UInt64.le_iff_toNat_le.mp h.lower
  have hupper := UInt64.le_iff_toNat_le.mp h.upper
  rw [← h.cursor, UInt64.le_iff_toNat_le] at hcursor
  have hdiffer : s.gHeapEnd.toNat ≠ v.cur.toNat := fun heq => hne (eq_of_toNat_eq heq)
  rw [← kmemPayload, kmemPayload_toNat (by omega)] at hupper
  exact ⟨hlower, hupper⟩

theorem Passes.block_end (h : Passes s v) (hfits : v.cur.toNat + 48 < 2 ^ 64) :
    v.cur.toNat + 48 + (sizeAt s.mem v.cur).toNat ≤ s.gHeapEnd.toNat ∧
    (cursorBehind s.mem v.cur).toNat =
      roundUp (v.cur.toNat + 48 + (sizeAt s.mem v.cur).toNat) := by
  have hpay := kmemPayload_toNat hfits
  have hlt := s.gHeapEnd.toNat_lt
  have hupper : kmemPayload v.cur ≤ s.gHeapEnd := h.upper
  have hsize := h.size
  rw [UInt64.le_iff_toNat_le, UInt64.toNat_sub_of_le _ _ hupper, hpay] at hsize
  rw [UInt64.le_iff_toNat_le, hpay] at hupper
  have hsum : (kmemPayload v.cur + sizeAt s.mem v.cur).toNat =
      v.cur.toNat + 48 + (sizeAt s.mem v.cur).toNat := by
    rw [toNat_add_of_lt _ _ (by omega), hpay]
  have hbehind := kmemAlignUpPtr_toNat (kmemPayload v.cur + sizeAt s.mem v.cur)
  have hne := h.behind
  rw [← cursorBehind, hsum] at hbehind
  rw [Ne, eq_zero_iff] at hne
  split_ifs at hbehind
  · exact ⟨by omega, hbehind⟩
  · exact absurd hbehind hne

theorem Walk.surveyed (h : Walk s v hs code) (hE : s.gHeapEnd.toNat ≤ 2 ^ 64 - 48)
    (hcursor : v.cursor ≤ s.gHeapEnd) (hend : s.gHeapEnd ∉ hs) : Surveyed s hs code := by
  induction h with
  | finish => exact surveyed_nil s 0
  | refuse => exact surveyed_nil s _
  | reject hr hneg =>
    have hfits := hr.fits hE hcursor (fun heq => hend (List.mem_singleton.mpr heq))
    constructor
    case inside => exact List.forall_mem_singleton.mpr hfits
    case contiguous => exact List.isChain_singleton _
    case ends =>
      intro hcode
      rw [hcode] at hneg
      exact absurd hneg (by decide)
    case astray =>
      intro a ha _
      rw [List.mem_singleton.mp ha]
      exact ⟨rfl, hneg⟩
  | @pass v hs code hpass htail ih =>
    rw [List.mem_cons, not_or] at hend
    have hfits := hpass.toReads.fits hE hcursor hend.1
    obtain ⟨hlast, hbehind⟩ := hpass.block_end (by omega)
    have hrest := ih (by rw [advance_cursor]; exact hpass.inside) hend.2
    have hnext : ∀ b ∈ hs.head?, nextAt s.mem v.cur = b ∧
        b.toNat = roundUp (v.cur.toNat + 48 + (sizeAt s.mem v.cur).toNat) := by
      intro b hb
      obtain ⟨hcur, hr⟩ := htail.head b hb
      rw [← hbehind, ← advance_cursor, ← hr.cursor, ← hcur]
      exact ⟨by rw [hcur, advance_cur], rfl⟩
    constructor
    case inside => exact List.forall_mem_cons.mpr ⟨hfits, hrest.inside⟩
    case contiguous =>
      exact List.isChain_cons.mpr ⟨fun b hb => (hnext b hb).2, hrest.contiguous⟩
    case ends => exact fun hcode => List.forall_mem_cons.mpr ⟨hlast, hrest.ends hcode⟩
    case astray =>
      intro a ha hastray
      rcases List.mem_cons.mp ha with rfl | hmem
      · cases hs with
        | nil =>
          apply And.intro rfl
          apply htail.nil_code
          rw [advance_cur]
          exact hastray.1
        | cons b hs =>
          -- The pointer led to a header that was read, so it went forward and stayed inside.
          obtain ⟨hb, hbnat⟩ := hnext b rfl
          have hinside := hrest.inside b List.mem_cons_self
          have hge := roundUp_ge (v.cur.toNat + 48 + (sizeAt s.mem v.cur).toNat)
          have hwhere := hastray.2
          rw [hb] at hwhere
          omega
      · obtain ⟨hgetLast, hneg⟩ := hrest.astray a hmem hastray
        rw [List.getLast?_cons, hgetLast]
        exact ⟨rfl, hneg⟩

theorem Surveyed.apart (h : Surveyed s hs code) :
    hs.Pairwise (fun a b => a.toNat + 48 + (sizeAt s.mem a).toNat ≤ b.toNat) := by
  have hchain : hs.IsChain (fun a b => a.toNat + 48 + (sizeAt s.mem a).toNat ≤ b.toNat) :=
    h.contiguous.imp (fun a b hab => by
      rw [hab]
      exact roundUp_ge _)
  have htrans : IsTrans UInt64
      (fun a b => a.toNat + 48 + (sizeAt s.mem a).toNat ≤ b.toNat) :=
    ⟨fun a b c hab hbc => by omega⟩
  exact List.isChain_iff_pairwise.mp hchain

end Survey

structure Accepted (s : KmemState) (hs : List UInt64) : Prop where
  linked : Linked s.mem s.gHead hs
  first : hs.head? = some s.gHeapBase
  contiguous : hs.IsChain (fun a b => b.toNat = roundUp (a.toNat + 48 + (sizeAt s.mem a).toNat))
  ends : ∀ a ∈ hs, a.toNat + 48 + (sizeAt s.mem a).toNat ≤ s.gHeapEnd.toNat
  magic : ∀ a ∈ hs, magicAt s.mem a = kmemMagic
  firstPrev : prevAt s.mem s.gHeapBase = 0
  prev : hs.IsChain (fun a b => prevAt s.mem b = a)

structure ValidatesSafely (s : KmemState) : Prop where
  returns : ∃ code, kmemValidate s = some code
  reads : ∀ a ∈ headersRead s,
    s.gHeapBase.toNat ≤ a.toNat ∧ a.toNat + 48 ≤ s.gHeapEnd.toNat
  confined : ∀ m : Memory,
    (∀ x, s.gHeapBase.toNat ≤ x → x < s.gHeapEnd.toNat → m x = s.mem x) →
      kmemValidate { s with mem := m } = kmemValidate s
  apart : (headersRead s).Pairwise
    (fun a b => a.toNat + 48 + (sizeAt s.mem a).toNat ≤ b.toNat)
  accepted : kmemValidate s = some 0 → Accepted s (headersRead s)
  astray : ∀ a ∈ headersRead s, Astray s a → (headersRead s).getLast? = some a ∧
    ∃ code, code < 0 ∧ kmemValidate s = some code

theorem headersRead_cons {s : KmemState} (h : kmemValidate s = some 0) :
    ∃ hs, headersRead s = s.gHead :: hs := by
  obtain ⟨hbase, -, hhead, hwalk⟩ := kmemValidate_accepts h
  cases hread : headersRead s with
  | nil =>
    rw [hread] at hwalk
    exact absurd (hwalk.nil_code (by rw [hhead]; exact hbase)) (by decide)
  | cons a hs => exact ⟨hs, by rw [(hwalk.head a (by rw [hread]; rfl)).1]⟩

theorem Surveyed.accepted {s : KmemState} (h : Surveyed s (headersRead s) 0)
    (hzero : kmemValidate s = some 0) : Accepted s (headersRead s) := by
  obtain ⟨-, -, hhead, hwalk⟩ := kmemValidate_accepts hzero
  obtain ⟨hs, hread⟩ := headersRead_cons hzero
  have hprev := (hwalk.head_passes s.gHead (by rw [hread]; rfl)).2.prev
  constructor
  case linked => exact hwalk.linked rfl
  case first => rw [hread, hhead]; rfl
  case contiguous => exact h.contiguous
  case ends => exact h.ends rfl
  case magic => exact hwalk.magic rfl
  case firstPrev => rw [← hhead]; exact hprev
  case prev => exact hwalk.prev rfl

theorem safe_of_end_unread {s : KmemState} (hE : s.gHeapEnd.toNat ≤ 2 ^ 64 - 48)
    (hend : s.gHeapEnd ∉ headersRead s) : ValidatesSafely s := by
  obtain ⟨code, hcode, hsurvey⟩ :
      ∃ code, kmemValidate s = some code ∧ Surveyed s (headersRead s) code := by
    rcases kmemValidate_walk s with ⟨code, -, hcode, hnone⟩ | ⟨-, hlt, -, code, hcode, hwalk⟩
    · rw [hnone]
      exact ⟨code, hcode, surveyed_nil s code⟩
    · exact ⟨code, hcode, hwalk.surveyed hE (UInt64.le_of_lt hlt) hend⟩
  constructor
  case returns => exact ⟨code, hcode⟩
  case reads => exact hsurvey.inside
  case confined =>
    intro m hm
    apply kmemValidate_congr
    intro a ha x hlow hhigh
    have hinside := hsurvey.inside a ha
    exact hm x (by omega) (by omega)
  case apart => exact hsurvey.apart
  case accepted =>
    intro hzero
    rw [hzero] at hcode
    cases hcode
    exact hsurvey.accepted hzero
  case astray =>
    intro a ha hastray
    obtain ⟨hlast, hneg⟩ := hsurvey.astray a ha hastray
    exact ⟨hlast, code, hneg, hcode⟩

def overrun (s : KmemState) : KmemState :=
  { s with
    mem := installHeader s.mem s.gHeapBase (s.gHeapEnd - s.gHeapBase - sizeofBlock) 0 s.gHeapEnd }

theorem overrun_header {s : KmemState}
    (hroom : s.gHeapBase.toNat + 48 ≤ s.gHeapEnd.toNat) :
    HeaderAt (overrun s).mem s.gHeapBase.toNat (s.gHeapEnd.toNat - s.gHeapBase.toNat - 48) true 0
      s.gHeapEnd.toNat := by
  have hspan := UInt64.toNat_sub_of_le s.gHeapEnd s.gHeapBase
    (UInt64.le_iff_toNat_le.mpr (by omega))
  have hsize : (s.gHeapEnd - s.gHeapBase - sizeofBlock).toNat =
      s.gHeapEnd.toNat - s.gHeapBase.toNat - 48 := by
    rw [UInt64.toNat_sub_of_le _ _ (UInt64.le_iff_toNat_le.mpr (by
      rw [sizeofBlock_toNat]
      omega)), hspan, sizeofBlock_toNat]
  rw [← hsize]
  exact headerAt_install s.mem s.gHeapBase _ 0 s.gHeapEnd

/-- If the arena ends 48 bytes below the end of the address space, the end of a header there is
the null pointer, which the check against the end of the heap lets through. -/
theorem overrun_reads_end {s : KmemState} (hinit : s.gInitialized = true)
    (hhead : s.gHead = s.gHeapBase) (hbase : s.gHeapBase ≠ 0)
    (hroom : s.gHeapBase.toNat + 48 ≤ s.gHeapEnd.toNat)
    (hE : s.gHeapEnd.toNat = 2 ^ 64 - 48) : s.gHeapEnd ∈ headersRead (overrun s) := by
  have hpos : 0 < s.gHeapBase.toNat := by
    rw [Ne, eq_zero_iff] at hbase
    omega
  have hle : s.gHeapBase ≤ s.gHeapEnd := UInt64.le_iff_toNat_le.mpr (by omega)
  have hheader := overrun_header hroom
  obtain ⟨hpass, hbehind⟩ := passes_first (t := overrun s) hhead hpos hroom
    (by change s.gHeapEnd.toNat % 16 = 0; omega) hheader
  set v : ValidateState := ⟨s.gHead, 0, s.gHeapBase, 0⟩
  have hcur : (advance (overrun s) v).cur = s.gHeapEnd := by
    rw [advance_cur]
    change nextAt (overrun s).mem s.gHead = _
    rw [hhead]
    exact eq_of_toNat_eq hheader.next
  have hreads : Reads (overrun s) (advance (overrun s) v) := by
    constructor
    case nonnull =>
      rw [hcur, Ne, eq_zero_iff]
      omega
    case guard => exact (by decide : ¬ (0 : UInt64) + 1 + 1 > 1048576)
    case cursor => rw [hcur, advance_cursor]; exact hbehind.symm
    case lower => rw [hcur]; exact hle
    case upper =>
      have hwrap : s.gHeapEnd + sizeofBlock = 0 := by
        rw [eq_zero_iff, UInt64.toNat_add, sizeofBlock_toNat]
        omega
      rw [hcur, hwrap]
      exact UInt64.le_iff_toNat_le.mpr (Nat.zero_le _)
  have hoff : ¬ ((overrun s).gInitialized = false ∨ (overrun s).gHeapBase = 0 ∨
      (overrun s).gHeapEnd ≤ (overrun s).gHeapBase ∨ (overrun s).gHead = 0) := by
    change ¬ (s.gInitialized = false ∨ s.gHeapBase = 0 ∨ s.gHeapEnd ≤ s.gHeapBase ∨ s.gHead = 0)
    rw [hinit, hhead, UInt64.le_iff_toNat_le]
    simp only [hbase, Bool.true_eq_false, false_or, or_false]
    omega
  have hfuel : wordFuel = 2 ^ 64 - 2 + 1 + 1 := by norm_num [wordFuel]
  have hfirst : ¬ (overrun s).gHead ≠ (overrun s).gHeapBase := not_not.mpr hhead
  have hmem : (advance (overrun s) v).cur ∈ headersRead (overrun s) := by
    rw [headersRead, if_neg hoff, if_neg hfirst, hfuel, loopReads_of_passes hpass]
    exact List.mem_cons_of_mem _ (mem_loopReads hreads)
  rw [hcur] at hmem
  exact hmem

theorem end_unread {s : KmemState} (hlt : s.gHeapBase < s.gHeapEnd)
    (hE : s.gHeapEnd.toNat ≤ 2 ^ 64 - 48)
    (h : s.gHeapEnd.toNat < 2 ^ 64 - 48 ∨ s.gHeapEnd.toNat < s.gHeapBase.toNat + 48 ∨
      s.gHeapBase = 0 ∨ s.gHead ≠ s.gHeapBase) : s.gHeapEnd ∉ headersRead s := by
  rw [UInt64.lt_iff_toNat_lt] at hlt
  rcases kmemValidate_walk s with ⟨-, -, -, hnone⟩ | ⟨hbase, -, hhead, code, -, hwalk⟩
  · rw [hnone]
    exact List.not_mem_nil
  intro hmem
  rcases h with hbelow | hsmall | hnull | hother
  · have hupper := hwalk.upper _ hmem
    rw [UInt64.le_iff_toNat_le, toNat_add_of_lt _ _ (by rw [sizeofBlock_toNat]; omega),
      sizeofBlock_toNat] at hupper
    omega
  · cases hread : headersRead s with
    | nil =>
      rw [hread] at hmem
      exact List.not_mem_nil hmem
    | cons a hs =>
      have hupper : s.gHead + sizeofBlock ≤ s.gHeapEnd :=
        (hwalk.head a (by rw [hread]; rfl)).2.upper
      rw [UInt64.le_iff_toNat_le, hhead,
        toNat_add_of_lt _ _ (by rw [sizeofBlock_toNat]; omega), sizeofBlock_toNat] at hupper
      omega
  · exact hbase hnull
  · exact hother hhead

/-- Every content of the arena is validated safely, unless the arena ends 48 bytes below the end
of the address space and the walk gets past its first header. -/
theorem validate_safe_iff {s : KmemState} (hinit : s.gInitialized = true)
    (hlt : s.gHeapBase < s.gHeapEnd) (hE : s.gHeapEnd.toNat ≤ 2 ^ 64 - 48) :
    (∀ m : Memory, ValidatesSafely { s with mem := m }) ↔
      s.gHeapEnd.toNat < 2 ^ 64 - 48 ∨ s.gHeapEnd.toNat < s.gHeapBase.toNat + 48 ∨
        s.gHeapBase = 0 ∨ s.gHead ≠ s.gHeapBase := by
  constructor
  · intro hsafe
    by_contra hnone
    rw [not_or, not_or, not_or, not_not] at hnone
    have hread := overrun_reads_end hinit hnone.2.2.2 hnone.2.2.1 (by omega) (by omega)
    have hinside : s.gHeapEnd.toNat + 48 ≤ s.gHeapEnd.toNat := ((hsafe _).reads _ hread).2
    omega
  · intro h m
    exact safe_of_end_unread hE (end_unread (s := { s with mem := m }) hlt hE h)

theorem validate_safe_iff_sample :
    (4096 : UInt64) < 8192 ∧ ∀ m : Memory, ValidatesSafely ⟨m, 4096, 8192, 4096, true⟩ :=
  ⟨by decide, (validate_safe_iff (s := ⟨fun _ => 0, 4096, 8192, 4096, true⟩) rfl (by decide)
    (by decide)).mpr (Or.inl (by decide))⟩

def edgeHeap : KmemState := overrun ⟨fun _ => 0, 4096, 0xffffffffffffffd0, 4096, true⟩

/-- The header at the end of the arena is read, and only then refused for its magic number. -/
theorem validate_reads_outside :
    edgeHeap.gInitialized = true ∧ edgeHeap.gHeapBase < edgeHeap.gHeapEnd ∧
    edgeHeap.gHeapEnd.toNat = 2 ^ 64 - 48 ∧ kmemValidate edgeHeap = some (-6) ∧
    headersRead edgeHeap = [edgeHeap.gHeapBase, edgeHeap.gHeapEnd] ∧
    ¬ ValidatesSafely edgeHeap := by
  have hread : headersRead edgeHeap = [edgeHeap.gHeapBase, edgeHeap.gHeapEnd] := by
    decide +kernel
  refine ⟨rfl, by decide, by decide, by decide +kernel, hread, fun hsafe => ?_⟩
  have hinside := (hsafe.reads edgeHeap.gHeapEnd (by
    rw [hread]
    exact List.mem_cons_of_mem _ List.mem_cons_self)).2
  omega

def coverage (m : Memory) (hs : List UInt64) : ℕ :=
  (hs.map (fun a => 48 + (sizeAt m a).toNat)).sum

structure Covers (s : KmemState) (hs : List UInt64) : Prop where
  last : ∀ a ∈ hs.getLast?, a.toNat + 48 + (sizeAt s.mem a).toNat = s.gHeapEnd.toNat
  total : coverage s.mem hs = s.gHeapEnd.toNat - s.gHeapBase.toNat

theorem Linked.unique {m : Memory} {cur : UInt64} {hs hs' : List UInt64} (h : Linked m cur hs)
    (h' : Linked m cur hs') : hs = hs' := by
  induction hs generalizing cur hs' with
  | nil =>
    cases hs' with
    | nil => rfl
    | cons a as => exact absurd (h'.1.symm.trans h) h'.2.1
  | cons a as ih =>
    cases hs' with
    | nil => exact absurd (h.1.symm.trans h') h.2.1
    | cons b bs =>
      obtain ⟨rfl, -, hrest⟩ := h
      obtain ⟨rfl, -, hrest'⟩ := h'
      rw [ih hrest hrest']

def NothingLost (s : KmemState) : Prop := ∃ hs, Linked s.mem s.gHead hs ∧ Covers s hs

theorem NothingLost.last {s : KmemState} (h : NothingLost s) {hs : List UInt64} {a : UInt64}
    (hlinked : Linked s.mem s.gHead hs) (ha : hs.getLast? = some a) :
    a.toNat + 48 + (sizeAt s.mem a).toNat = s.gHeapEnd.toNat := by
  obtain ⟨hs', hlinked', hcovers⟩ := h
  rw [hlinked.unique hlinked'] at ha
  exact hcovers.last a ha

theorem kmemPayload_wrapped {b : UInt64} (h : 2 ^ 64 ≤ b.toNat + 48) :
    (kmemPayload b).toNat = b.toNat + 48 - 2 ^ 64 := by
  have hlt := b.toNat_lt
  rw [kmemPayload, UInt64.toNat_add, sizeofBlock_toNat]
  omega

section Lost

variable {s : KmemState} (hinit : s.gInitialized = true) (hbase : s.gHeapBase ≠ 0)
  (hlt : s.gHeapBase < s.gHeapEnd) (hhead : s.gHead = s.gHeapBase)
include hinit hbase hlt hhead

theorem single_block_lost (size : UInt64)
    (hpos : 0 < (kmemPayload s.gHeapBase).toNat + size.toNat)
    (hinside : roundUp ((kmemPayload s.gHeapBase).toNat + size.toNat) ≤ s.gHeapEnd.toNat)
    (hshort : s.gHeapBase.toNat + 48 + size.toNat ≠ s.gHeapEnd.toNat) :
    ∃ m : Memory, kmemValidate { s with mem := m } = some 0 ∧
      ¬ NothingLost { s with mem := m } := by
  set m := installHeader s.mem s.gHeapBase size 0 0 with hm
  have hheader : HeaderAt m s.gHeapBase.toNat size.toNat true 0 0 := headerAt_install _ _ _ _ _
  have hnext : nextAt m s.gHeapBase = 0 := eq_of_toNat_eq hheader.next
  have hnonzero : 0 < s.gHeapBase.toNat := by
    rw [Ne, eq_zero_iff] at hbase
    omega
  obtain ⟨hpass, -⟩ := passes_of_header (t := { s with mem := m })
    (v := ⟨s.gHeapBase, 0, s.gHeapBase, 0⟩) rfl hnonzero (Nat.zero_lt_succ _) (UInt64.le_refl _)
    hheader hpos hinside
  refine ⟨m, kmemValidate_single hinit hbase hlt hhead hpass hnext, fun hcovers => hshort ?_⟩
  have hlinked : Linked m s.gHead [s.gHeapBase] := ⟨hhead, hbase, hnext⟩
  have hlast := hcovers.last hlinked rfl
  rw [← hheader.size]
  exact hlast

theorem second_header_lost (hE : s.gHeapEnd.toNat = s.gHeapBase.toNat + 48)
    (hmod : s.gHeapEnd.toNat % 16 = 0) (htop : 2 ^ 64 - 48 ≤ s.gHeapEnd.toNat) :
    ∃ m : Memory, kmemValidate { s with mem := m } = some 0 ∧
      ¬ NothingLost { s with mem := m } := by
  have hElt := s.gHeapEnd.toNat_lt
  set m := installHeader (installHeader s.mem s.gHeapBase 0 0 s.gHeapEnd) s.gHeapEnd 16
    s.gHeapBase 0 with hm
  have hfirst : HeaderAt m s.gHeapBase.toNat 0 true 0 s.gHeapEnd.toNat := by
    apply HeaderAt.congr (headerAt_install s.mem s.gHeapBase 0 0 s.gHeapEnd)
    intro x hlow hhigh
    exact installHeader_outside (by omega) _ _ _
  have hsecond : HeaderAt m s.gHeapEnd.toNat 16 true s.gHeapBase.toNat 0 :=
    headerAt_install _ _ _ _ _
  have hnext : nextAt m s.gHeapBase = s.gHeapEnd := eq_of_toNat_eq hfirst.next
  have hlastNext : nextAt m s.gHeapEnd = 0 := eq_of_toNat_eq hsecond.next
  have hnonzero : 0 < s.gHeapBase.toNat := by
    rw [Ne, eq_zero_iff] at hbase
    omega
  have hpay : (kmemPayload s.gHeapBase).toNat = s.gHeapEnd.toNat := by
    rw [kmemPayload_toNat (by omega), hE]
  have hround : roundUp ((kmemPayload s.gHeapBase).toNat + 0) = s.gHeapEnd.toNat := by
    rw [hpay, roundUp]
    omega
  have hpos : 0 < (kmemPayload s.gHeapBase).toNat + 0 := by omega
  obtain ⟨hpass, hbehind⟩ := passes_of_header (t := { s with mem := m })
    (v := ⟨s.gHeapBase, 0, s.gHeapBase, 0⟩) rfl hnonzero (Nat.zero_lt_succ _) (UInt64.le_refl _)
    hfirst hpos hround.le
  have hcursor : cursorBehind m s.gHeapBase = s.gHeapEnd :=
    eq_of_toNat_eq (hbehind.trans hround)
  have hadvance : advance { s with mem := m } ⟨s.gHeapBase, 0, s.gHeapBase, 0⟩ =
      ⟨s.gHeapEnd, s.gHeapBase, s.gHeapEnd, 1⟩ := by
    rw [advance]
    change (⟨nextAt m s.gHeapBase, s.gHeapBase, cursorBehind m s.gHeapBase, 0 + 1⟩ :
      ValidateState) = _
    rw [hnext, hcursor]
    rfl
  -- The address behind the second header has wrapped around.
  have hpay' := kmemPayload_wrapped (b := s.gHeapEnd) (by omega)
  have hinside : roundUp ((kmemPayload s.gHeapEnd).toNat + 16) ≤ s.gHeapEnd.toNat := by
    rw [roundUp]
    omega
  obtain ⟨hpass', -⟩ := passes_of_header (t := { s with mem := m })
    (v := ⟨s.gHeapEnd, s.gHeapBase, s.gHeapEnd, 1⟩) rfl (hE ▸ Nat.zero_lt_succ _)
    (Nat.lt_of_sub_pos (Nat.zero_lt_succ _)) (UInt64.le_of_lt hlt) hsecond (Nat.zero_lt_succ _)
    hinside
  have hend : s.gHeapEnd ≠ 0 := by
    rw [Ne, eq_zero_iff]
    omega
  have hfuel : wordFuel = 2 ^ 64 - 3 + 1 + 1 + 1 := by norm_num [wordFuel]
  refine ⟨m, ?_, fun hcovers => ?_⟩
  · rw [kmemValidate_of_head (t := { s with mem := m }) hinit hbase hlt hhead, hfuel]
    rw [loop_next (validateBody_of_passes hpass), hadvance,
      loop_next (validateBody_of_passes hpass')]
    exact validateLoop_of_null hlastNext
  · have hlinked : Linked m s.gHead [s.gHeapBase, s.gHeapEnd] :=
      ⟨hhead, hbase, hnext, hend, hlastNext⟩
    have hlast : s.gHeapEnd.toNat + 48 + (sizeAt m s.gHeapEnd).toNat = s.gHeapEnd.toNat :=
      hcovers.last hlinked rfl
    omega

end Lost

theorem first_block_of_accepts {s : KmemState} (h : kmemValidate s = some 0)
    (hfits : s.gHeapBase.toNat + 48 < 2 ^ 64) :
    s.gHeapBase.toNat + 48 + (sizeAt s.mem s.gHeapBase).toNat ≤ s.gHeapEnd.toNat ∧
      (cursorBehind s.mem s.gHeapBase).toNat =
        roundUp (s.gHeapBase.toNat + 48 + (sizeAt s.mem s.gHeapBase).toNat) ∧
      roundUp (s.gHeapBase.toNat + 48 + (sizeAt s.mem s.gHeapBase).toNat) ≤ s.gHeapEnd.toNat := by
  obtain ⟨-, -, hhead, hwalk⟩ := kmemValidate_accepts h
  obtain ⟨hs, hread⟩ := headersRead_cons h
  have hpass := (hwalk.head_passes s.gHead (by rw [hread]; rfl)).2
  rw [hhead] at hpass
  obtain ⟨hlast, hbehind⟩ := hpass.block_end hfits
  have hinside := hpass.inside
  rw [UInt64.le_iff_toNat_le, hbehind] at hinside
  exact ⟨hlast, hbehind, hinside⟩

theorem nothingLost_of_one_header {s : KmemState} (h : kmemValidate s = some 0)
    (hE : s.gHeapEnd.toNat = s.gHeapBase.toNat + 48) (hlow : s.gHeapEnd.toNat < 2 ^ 64 - 48) :
    NothingLost s := by
  obtain ⟨-, hlt, hhead, hwalk⟩ := kmemValidate_accepts h
  obtain ⟨hs, hread⟩ := headersRead_cons h
  obtain ⟨hlast, hbehind, hinside⟩ := first_block_of_accepts h (by omega)
  have hge := roundUp_ge (s.gHeapBase.toNat + 48 + (sizeAt s.mem s.gHeapBase).toNat)
  have hchain := hwalk.chain
  have hlinked := hwalk.linked rfl
  rw [hread, hhead] at hchain
  rw [hread] at hlinked
  cases hs with
  | nil =>
    refine ⟨[s.gHead], hlinked, ?_⟩
    rw [hhead]
    constructor
    case last =>
      intro a ha
      have hfirst : s.gHeapBase = a := Option.mem_some_iff.mp ha
      rw [← hfirst]
      omega
    case total =>
      rw [coverage, List.map_singleton, List.sum_singleton]
      omega
  | cons b hs =>
    have hb : b = s.gHeapEnd := by
      rw [(List.isChain_cons_cons.mp hchain).1.1]
      apply eq_of_toNat_eq
      omega
    have hunread := end_unread hlt (by omega) (Or.inl hlow)
    rw [hread, hb] at hunread
    exact absurd (List.mem_cons_of_mem _ List.mem_cons_self) hunread

/-- Every content of the arena that the validator accepts covers it, exactly if the globals leave
nothing to accept, or nothing but one empty block. -/
theorem validated_covers_iff (s : KmemState) :
    (∀ m : Memory, kmemValidate { s with mem := m } = some 0 →
        NothingLost { s with mem := m }) ↔
      s.gInitialized = false ∨ s.gHeapBase = 0 ∨ s.gHead ≠ s.gHeapBase ∨
        s.gHeapEnd ≤ s.gHeapBase ∨ s.gHeapBase.toNat + 48 < 2 ^ 64 ∧
          (s.gHeapEnd.toNat < roundUp (s.gHeapBase.toNat + 48) ∨
            s.gHeapEnd.toNat = s.gHeapBase.toNat + 48 ∧ s.gHeapEnd.toNat < 2 ^ 64 - 48) := by
  constructor
  · intro hall
    by_contra hnone
    simp only [not_or, not_not, Bool.not_eq_false, UInt64.not_le] at hnone
    obtain ⟨hinit, hbase, hhead, hlt, harena⟩ := hnone
    have hElt := s.gHeapEnd.toNat_lt
    obtain ⟨m, hvalid, hlost⟩ : ∃ m : Memory, kmemValidate { s with mem := m } = some 0 ∧
        ¬ NothingLost { s with mem := m } := by
      by_cases hfits : s.gHeapBase.toNat + 48 < 2 ^ 64
      swap
      · have hBlt := s.gHeapBase.toNat_lt
        have hpay := kmemPayload_wrapped (not_lt.mp hfits)
        have hsize : (16 : UInt64).toNat = 16 := rfl
        rw [UInt64.lt_iff_toNat_lt] at hlt
        apply single_block_lost hinit hbase (UInt64.lt_iff_toNat_lt.mpr hlt) hhead 16
        · omega
        · rw [hpay, hsize, roundUp]
          omega
        · omega
      have hpay := kmemPayload_toNat hfits
      have hzero : (0 : UInt64).toNat = 0 := rfl
      by_cases hE : s.gHeapEnd.toNat = s.gHeapBase.toNat + 48
      · apply second_header_lost hinit hbase hlt hhead hE
        · rw [roundUp] at harena
          omega
        · omega
      · apply single_block_lost hinit hbase hlt hhead 0
        · omega
        · rw [hpay, hzero, Nat.add_zero]
          omega
        · omega
    exact hlost (hall m hvalid)
  · intro hglobals m hvalid
    obtain ⟨hbase, hlt, hhead, -⟩ := kmemValidate_accepts hvalid
    rcases hglobals with hoff | hnull | hother | hle | ⟨hfits, hsmall | ⟨hE, hlow⟩⟩
    · rw [kmemValidate, if_pos (Or.inl hoff)] at hvalid
      exact absurd hvalid (by decide)
    · exact absurd hnull hbase
    · exact absurd hhead hother
    · exact absurd hlt (UInt64.not_lt.mpr hle)
    · have hinside : roundUp (s.gHeapBase.toNat + 48 + (sizeAt m s.gHeapBase).toNat) ≤
          s.gHeapEnd.toNat := (first_block_of_accepts hvalid hfits).2.2
      rw [roundUp] at hinside hsmall
      omega
    · exact nothingLost_of_one_header hvalid hE hlow

def shortHeap : KmemState :=
  ⟨installHeader (fun _ => 0) 4096 16 0 0, 4096, 8192, 4096, true⟩

/-- One block of 16 bytes at the start of an arena of 4096 bytes is accepted. -/
theorem validated_heap_short :
    kmemValidate shortHeap = some 0 ∧ Linked shortHeap.mem shortHeap.gHead [4096] ∧
    ¬ Covers shortHeap [4096] := by
  have hnext : nextAt shortHeap.mem 4096 = 0 := by decide +kernel
  refine ⟨by decide +kernel, ⟨rfl, by decide, hnext⟩, fun hcovers => ?_⟩
  have hsize : (sizeAt shortHeap.mem 4096).toNat = 16 := by decide +kernel
  have hend : (4096 : UInt64).toNat + 48 + (sizeAt shortHeap.mem 4096).toNat =
      shortHeap.gHeapEnd.toNat := hcovers.last 4096 rfl
  rw [hsize] at hend
  exact absurd hend (by decide)

end Mcsos.Kmem
