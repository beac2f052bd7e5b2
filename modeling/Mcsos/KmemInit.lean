import Mcsos.KmemOps
import Mcsos.StepRun

/-!
# Starting the heap

`kmem_init` makes four checks before it writes anything and validates the heap afterwards. The
last check can only fail if the arena reaches the end of the address space: then the end of the
heap wraps around, an error is returned, and the globals describe a heap that is in use.
-/

namespace Mcsos.Kmem
open BoundedLoop ByteMemory WordArithmetic BlockList StepRun

def Arena (base bytes : ℕ) : Prop :=
  0 < base ∧ base + 15 < 2 ^ 64 ∧ roundUp base + 96 ≤ base + bytes

def initStart (base : UInt64) : UInt64 := kmemAlignUpPtr base kmemAlign

def initUsable (base bytes : UInt64) : UInt64 :=
  (bytes - (initStart base - base)) &&& ~~~(kmemAlign - 1)

def installed (s : KmemState) (base bytes : UInt64) : KmemState :=
  { mem := installHead s.mem (initStart base) (initUsable base bytes - sizeofBlock),
    gHeapBase := initStart base, gHeapEnd := initStart base + initUsable base bytes,
    gHead := initStart base, gInitialized := true }

theorem roundUp_le (n : ℕ) : roundUp n ≤ n + 15 := by
  rw [roundUp]
  omega

theorem roundUp_mod (n : ℕ) : roundUp n % 16 = 0 := by
  rw [roundUp]
  omega

section Layout

variable {base : UInt64}

theorem initStart_toNat (h : base.toNat + 15 < 2 ^ 64) :
    (initStart base).toNat = roundUp base.toNat := by
  rw [initStart, kmemAlignUpPtr_toNat, if_pos h]

theorem initLost_toNat (h : base.toNat + 15 < 2 ^ 64) :
    (initStart base - base).toNat = roundUp base.toNat - base.toNat := by
  have hstart := initStart_toNat h
  have hround := roundUp_ge base.toNat
  rw [UInt64.toNat_sub_of_le _ _ (UInt64.le_iff_toNat_le.mpr (by omega)), hstart]

theorem initUsable_toNat (bytes : UInt64) (h : base.toNat + 15 < 2 ^ 64)
    (hroom : roundUp base.toNat ≤ base.toNat + bytes.toNat) :
    (initUsable base bytes).toNat =
      (base.toNat + bytes.toNat) / 16 * 16 - roundUp base.toNat := by
  have hlost := initLost_toNat h
  have hround := roundUp_ge base.toNat
  have hmod := roundUp_mod base.toNat
  have hrest : (bytes - (initStart base - base)).toNat =
      bytes.toNat - (roundUp base.toNat - base.toNat) := by
    rw [UInt64.toNat_sub_of_le _ _ (UInt64.le_iff_toNat_le.mpr (by omega)), hlost]
  rw [initUsable, toNat_and_not_low _ kmemAlign 4 rfl, hrest]
  omega

/-- The four checks accept exactly the arenas with room for the first block. -/
theorem kmemInit_exact (s : KmemState) (base bytes : UInt64) :
    (Arena base.toNat bytes.toNat ∧ kmemInit s base bytes =
      (kmemValidate (installed s base bytes)).map (fun code => (code, installed s base bytes))) ∨
    (¬ Arena base.toNat bytes.toNat ∧
      ∃ code, code < 0 ∧ kmemInit s base bytes = some (code, s)) := by
  have hround := roundUp_ge base.toNat
  have hnear := roundUp_le base.toNat
  have hmod := roundUp_mod base.toNat
  have hbytes := bytes.toNat_lt
  have h80 : (sizeofBlock + kmemMinSplit).toNat = 80 := by decide
  have halign := kmemAlignUpPtr_toNat base
  rw [← initStart] at halign
  have hunfold : kmemInit s base bytes =
      if base = 0 ∨ bytes < sizeofBlock + kmemMinSplit then some (-1, s)
      else if initStart base = 0 ∨ initStart base < base then some (-2, s)
      else if bytes ≤ initStart base - base + sizeofBlock + kmemMinSplit then some (-3, s)
      else if initUsable base bytes ≤ sizeofBlock + kmemMinSplit then some (-4, s)
      else (kmemValidate (installed s base bytes)).map
        (fun code => (code, installed s base bytes)) := rfl
  rw [Arena, hunfold]
  by_cases hsmall : base = 0 ∨ bytes < sizeofBlock + kmemMinSplit
  · rw [if_pos hsmall]
    rw [eq_zero_iff, UInt64.lt_iff_toNat_lt, h80] at hsmall
    exact Or.inr ⟨by omega, -1, by decide, rfl⟩
  rw [if_neg hsmall]
  rw [eq_zero_iff, UInt64.lt_iff_toNat_lt, h80, not_or] at hsmall
  by_cases hfits : base.toNat + 15 < 2 ^ 64
  swap
  · rw [if_neg hfits] at halign
    rw [if_pos (Or.inl ((eq_zero_iff _).mpr halign))]
    exact Or.inr ⟨by omega, -2, by decide, rfl⟩
  rw [if_pos hfits] at halign
  have hstart : ¬ (initStart base = 0 ∨ initStart base < base) := by
    rw [eq_zero_iff, UInt64.lt_iff_toNat_lt]
    omega
  have hlost : (initStart base - base + sizeofBlock + kmemMinSplit).toNat =
      roundUp base.toNat - base.toNat + 80 := by
    rw [UInt64.add_assoc, toNat_add_of_lt _ _ (by rw [initLost_toNat hfits, h80]; omega),
      initLost_toNat hfits, h80]
  rw [if_neg hstart]
  by_cases hroom : bytes ≤ initStart base - base + sizeofBlock + kmemMinSplit
  · rw [if_pos hroom]
    rw [UInt64.le_iff_toNat_le, hlost] at hroom
    exact Or.inr ⟨by omega, -3, by decide, rfl⟩
  rw [if_neg hroom]
  rw [UInt64.le_iff_toNat_le, hlost] at hroom
  have husable := initUsable_toNat bytes hfits (by omega)
  by_cases hlast : initUsable base bytes ≤ sizeofBlock + kmemMinSplit
  · rw [if_pos hlast]
    rw [UInt64.le_iff_toNat_le, h80, husable] at hlast
    exact Or.inr ⟨by omega, -4, by decide, rfl⟩
  · rw [if_neg hlast]
    rw [UInt64.le_iff_toNat_le, h80, husable] at hlast
    exact Or.inl ⟨by omega, rfl⟩

end Layout

theorem kmemInit_cases {s t : KmemState} {base bytes : UInt64} {code : Int32}
    (h : kmemInit s base bytes = some (code, t)) :
    (code ≠ 0 ∧ t = s) ∨
    ∃ start usable : UInt64, start = kmemAlignUpPtr base kmemAlign ∧
      usable = (bytes - (start - base)) &&& ~~~(kmemAlign - 1) ∧
      0 < base.toNat ∧ start.toNat = roundUp base.toNat ∧
      start.toNat + usable.toNat ≤ base.toNat + bytes.toNat ∧ usable.toNat % 16 = 0 ∧
      80 < usable.toNat ∧
      t = { mem := installHead s.mem start (usable - sizeofBlock), gHeapBase := start,
            gHeapEnd := start + usable, gHead := start, gInitialized := true } := by
  rcases kmemInit_exact s base bytes with ⟨⟨hpos, hfits, hroom⟩, hinit⟩ | ⟨-, c, hneg, hinit⟩
  · rw [hinit] at h
    obtain ⟨c, -, hc⟩ := Option.map_eq_some_iff.mp h
    cases hc
    have hmod := roundUp_mod base.toNat
    have husable := initUsable_toNat bytes hfits (by omega)
    have hstart := initStart_toNat hfits
    exact Or.inr ⟨initStart base, initUsable base bytes, rfl, rfl, hpos, hstart, by omega,
      by omega, by omega, rfl⟩
  · rw [hinit] at h
    cases h
    exact Or.inl ⟨Int32.ne_of_lt hneg, rfl⟩

theorem heap_installHead {m : Memory} {start usable : UInt64} (hstart : 0 < start.toNat)
    (haligned : start.toNat % 16 = 0) (husable : usable.toNat % 16 = 0)
    (hroom : 80 < usable.toNat) (hbound : start.toNat + usable.toNat < 2 ^ 64)
    (hextent : usable.toNat < 2 ^ 63)
    (hclean : ∀ x, x % 16 = 0 → start.toNat ≤ x → x < start.toNat + usable.toNat →
      ¬ MagicWord m x) :
    Heap { mem := installHead m start (usable - sizeofBlock), gHeapBase := start,
           gHeapEnd := start + usable, gHead := start, gInitialized := true }
      [⟨usable.toNat - 48, true⟩] := by
  have hsize : (usable - sizeofBlock).toNat = usable.toNat - 48 :=
    UInt64.toNat_sub_of_le _ _ (UInt64.le_iff_toNat_le.mpr (by rw [sizeofBlock_toNat]; omega))
  have hlast : (start + usable).toNat = start.toNat + usable.toNat :=
    toNat_add_of_lt _ _ hbound
  have hfinish : start.toNat + 48 + (usable.toNat - 48) = start.toNat + usable.toNat := by omega
  have hshape : (usable.toNat - 48) % 16 = 0 ∧ 16 ≤ usable.toNat - 48 := by omega
  refine ⟨rfl, rfl, ?_⟩
  change Tiled _ start.toNat (start + usable).toNat _
  rw [hlast]
  constructor
  case base => exact hstart
  case proper => omega
  case aligned => exact haligned
  case finish => exact hfinish
  case bound => exact hbound
  case extent => omega
  case shape =>
    intro b hb
    rw [List.mem_singleton.mp hb]
    exact hshape
  case seg =>
    refine ⟨?_, trivial⟩
    rw [hfinish, linkTo, if_pos rfl, ← hsize]
    exact headerAt_install m start (usable - sizeofBlock) 0 0
  case magic =>
    intro x hx hlow hhigh hword
    rcases magicWord_of_installHeader hx haligned rfl hword with hhead | hold
    · rw [hhead]
      exact List.mem_singleton.mpr rfl
    · exact absurd hold (hclean x hx hlow hhigh)

theorem kmemInit_heap {s t : KmemState} {base bytes : UInt64} (hbytes : bytes.toNat < 2 ^ 63)
    (hwrap : base.toNat + bytes.toNat < 2 ^ 64)
    (hclean : ∀ x, x % 16 = 0 → base.toNat ≤ x → x + 8 ≤ base.toNat + bytes.toNat →
      ¬ MagicWord s.mem x)
    (h : kmemInit s base bytes = some (0, t)) :
    ∃ size, 32 < size ∧ Heap t [⟨size, true⟩] := by
  rcases kmemInit_cases h with ⟨hcode, -⟩ |
    ⟨start, usable, -, -, hpos, hstart, hend, hmod, hroom, rfl⟩
  · exact absurd rfl hcode
  have hround := roundUp_ge base.toNat
  have haligned : start.toNat % 16 = 0 := by
    rw [hstart, roundUp]
    omega
  exact ⟨usable.toNat - 48, by omega, heap_installHead (by omega) haligned hmod hroom (by omega)
    (by omega) (fun x hx hlow hhigh => hclean x hx (by omega) (by omega))⟩

def zeroedState : KmemState := ⟨fun _ => 0, 0, 0, 0, false⟩

theorem passes_of_header {t : KmemState} {v : ValidateState} {size next : ℕ} {free : Bool}
    (hcursor : v.cur = v.cursor) (hcur : 0 < v.cur.toNat) (hguard : v.guard.toNat < 1048576)
    (hlower : t.gHeapBase ≤ v.cur)
    (hheader : HeaderAt t.mem v.cur.toNat size free v.prev.toNat next)
    (hpos : 0 < (kmemPayload v.cur).toNat + size)
    (hinside : roundUp ((kmemPayload v.cur).toNat + size) ≤ t.gHeapEnd.toNat) :
    Passes t v ∧
      (cursorBehind t.mem v.cur).toNat = roundUp ((kmemPayload v.cur).toNat + size) := by
  have hlt := t.gHeapEnd.toNat_lt
  have hround := roundUp_ge ((kmemPayload v.cur).toNat + size)
  have hsize : (sizeAt t.mem v.cur).toNat = size := hheader.size
  have hsum : (kmemPayload v.cur + sizeAt t.mem v.cur).toNat =
      (kmemPayload v.cur).toNat + size := by
    rw [toNat_add_of_lt _ _ (by omega), hsize]
  have hbehind : (cursorBehind t.mem v.cur).toNat =
      roundUp ((kmemPayload v.cur).toNat + size) := by
    have hfits : (kmemPayload v.cur).toNat + size + 15 < 2 ^ 64 := by
      rw [roundUp] at hinside
      omega
    rw [cursorBehind, kmemAlignUpPtr_toNat, hsum, if_pos hfits]
  have hupper : kmemPayload v.cur ≤ t.gHeapEnd := UInt64.le_iff_toNat_le.mpr (by omega)
  refine ⟨?_, hbehind⟩
  constructor
  case toReads =>
    constructor
    case nonnull =>
      rw [Ne, eq_zero_iff]
      exact Nat.ne_of_gt hcur
    case guard =>
      have hone : (1 : UInt64).toNat = 1 := rfl
      have hlimit : (1048576 : UInt64).toNat = 1048576 := rfl
      rw [gt_iff_lt, UInt64.lt_iff_toNat_lt, toNat_add_of_lt _ _ (by omega), hone, hlimit]
      omega
    case cursor => exact hcursor
    case lower => exact hlower
    case upper => exact hupper
  case magic => exact hheader.magic
  case prev => exact eq_of_toNat_eq hheader.prev
  case size =>
    rw [UInt64.le_iff_toNat_le, UInt64.toNat_sub_of_le _ _ hupper, hsize]
    omega
  case behind =>
    rw [Ne, eq_zero_iff, hbehind]
    omega
  case inside =>
    rw [UInt64.le_iff_toNat_le, hbehind]
    exact hinside

theorem passes_first {t : KmemState} {free : Bool} {next : ℕ} (hhead : t.gHead = t.gHeapBase)
    (hbase : 0 < t.gHeapBase.toNat) (hroom : t.gHeapBase.toNat + 48 ≤ t.gHeapEnd.toNat)
    (hmod : t.gHeapEnd.toNat % 16 = 0)
    (hheader : HeaderAt t.mem t.gHeapBase.toNat (t.gHeapEnd.toNat - t.gHeapBase.toNat - 48) free 0
      next) :
    Passes t ⟨t.gHead, 0, t.gHeapBase, 0⟩ ∧ cursorBehind t.mem t.gHead = t.gHeapEnd := by
  have hlt := t.gHeapEnd.toNat_lt
  have hpay := kmemPayload_toNat (b := t.gHeapBase) (by omega)
  have hend : roundUp ((kmemPayload t.gHeapBase).toNat +
      (t.gHeapEnd.toNat - t.gHeapBase.toNat - 48)) = t.gHeapEnd.toNat := by
    rw [hpay, roundUp]
    omega
  have hpos : 0 < (kmemPayload t.gHeapBase).toNat +
      (t.gHeapEnd.toNat - t.gHeapBase.toNat - 48) := by omega
  rw [hhead]
  obtain ⟨hpass, hbehind⟩ := passes_of_header (t := t) (v := ⟨t.gHeapBase, 0, t.gHeapBase, 0⟩) rfl
    hbase (Nat.zero_lt_succ _) (UInt64.le_refl _) hheader hpos hend.le
  exact ⟨hpass, eq_of_toNat_eq (hbehind.trans hend)⟩

theorem kmemValidate_of_head {t : KmemState} (hinit : t.gInitialized = true)
    (hbase : t.gHeapBase ≠ 0) (hlt : t.gHeapBase < t.gHeapEnd) (hhead : t.gHead = t.gHeapBase) :
    kmemValidate t = loop (validateBody t) wordFuel ⟨t.gHeapBase, 0, t.gHeapBase, 0⟩ := by
  have hguard : ¬ (t.gInitialized = false ∨ t.gHeapBase = 0 ∨ t.gHeapEnd ≤ t.gHeapBase ∨
      t.gHead = 0) := by
    rw [hinit, hhead, not_or, not_or, not_or, UInt64.not_le]
    exact ⟨Bool.noConfusion, hbase, hlt, hbase⟩
  rw [kmemValidate, if_neg hguard, if_neg (not_not.mpr hhead), hhead]

theorem validateLoop_of_null {t : KmemState} {v : ValidateState} {fuel : ℕ} (h : v.cur = 0) :
    loop (validateBody t) (fuel + 1) v = some 0 := by
  apply loop_done
  rw [validateBody, if_pos h]

theorem kmemValidate_single {t : KmemState} (hinit : t.gInitialized = true)
    (hbase : t.gHeapBase ≠ 0) (hlt : t.gHeapBase < t.gHeapEnd) (hhead : t.gHead = t.gHeapBase)
    (hpass : Passes t ⟨t.gHeapBase, 0, t.gHeapBase, 0⟩) (hnext : nextAt t.mem t.gHeapBase = 0) :
    kmemValidate t = some 0 := by
  have hfuel : wordFuel = 2 ^ 64 - 2 + 1 + 1 := by norm_num [wordFuel]
  rw [kmemValidate_of_head hinit hbase hlt hhead, hfuel, loop_next (validateBody_of_passes hpass)]
  exact validateLoop_of_null hnext

section Installed

variable {base bytes : UInt64} (h : Arena base.toNat bytes.toNat)
include h

theorem installedEnd_toNat : (initStart base + initUsable base bytes).toNat =
    (base.toNat + bytes.toNat) / 16 * 16 % 2 ^ 64 := by
  obtain ⟨-, hfits, hroom⟩ := h
  have hmod := roundUp_mod base.toNat
  rw [UInt64.toNat_add, initStart_toNat hfits, initUsable_toNat bytes hfits (by omega),
    Nat.add_sub_cancel' (by omega)]

theorem installedSize_toNat : (initUsable base bytes - sizeofBlock).toNat =
    (base.toNat + bytes.toNat) / 16 * 16 - roundUp base.toNat - 48 := by
  obtain ⟨-, hfits, hroom⟩ := h
  have hmod := roundUp_mod base.toNat
  have husable := initUsable_toNat bytes hfits (by omega)
  have hle : sizeofBlock ≤ initUsable base bytes := by
    rw [UInt64.le_iff_toNat_le, sizeofBlock_toNat]
    omega
  rw [UInt64.toNat_sub_of_le _ _ hle, sizeofBlock_toNat, husable]

end Installed

theorem kmemValidate_installed (s : KmemState) {base bytes : UInt64}
    (h : Arena base.toNat bytes.toNat) :
    kmemValidate (installed s base bytes) =
      some (if base.toNat + bytes.toNat < 2 ^ 64 then 0 else -1) := by
  have hsize := installedSize_toNat h
  set t := installed s base bytes with ht
  have hend : t.gHeapEnd.toNat = ((base.toNat + bytes.toNat) / 16 * 16) % 2 ^ 64 :=
    installedEnd_toNat h
  obtain ⟨hpos, hfits, hroom⟩ := h
  have hround := roundUp_ge base.toNat
  have hmod := roundUp_mod base.toNat
  have hbase : t.gHeapBase.toNat = roundUp base.toNat := initStart_toNat hfits
  have hnull : t.gHeapBase ≠ 0 := by
    rw [Ne, eq_zero_iff]
    omega
  have hhead : t.gHead = t.gHeapBase := rfl
  have hlt := bytes.toNat_lt
  by_cases hwrap : base.toNat + bytes.toNat < 2 ^ 64
  swap
  · have hbefore : t.gHeapEnd ≤ t.gHeapBase := by
      rw [UInt64.le_iff_toNat_le]
      omega
    rw [kmemValidate, if_pos (Or.inr (Or.inr (Or.inl hbefore))), if_neg hwrap]
  rw [if_pos hwrap]
  rw [Nat.mod_eq_of_lt (by omega)] at hend
  have hheader : HeaderAt t.mem t.gHeapBase.toNat (t.gHeapEnd.toNat - t.gHeapBase.toNat - 48)
      true 0 0 := by
    rw [hend, hbase, ← hsize, ← hbase]
    exact headerAt_install s.mem (initStart base) (initUsable base bytes - sizeofBlock) 0 0
  have hproper : t.gHeapBase < t.gHeapEnd := by
    rw [UInt64.lt_iff_toNat_lt]
    omega
  obtain ⟨hpass, -⟩ := passes_first hhead (by omega) (by omega) (by omega) hheader
  rw [hhead] at hpass
  exact kmemValidate_single rfl hnull hproper hhead hpass (eq_of_toNat_eq hheader.next)

theorem kmemInit_aligned {s : KmemState} {base bytes : UInt64} (hbase : 0 < base.toNat)
    (haligned : base.toNat % 16 = 0) (hbytes : bytes.toNat % 16 = 0)
    (hroom : 80 < bytes.toNat) (hextent : bytes.toNat < 2 ^ 63)
    (hwrap : base.toNat + bytes.toNat < 2 ^ 64)
    (hclean : ∀ x, x % 16 = 0 → base.toNat ≤ x → x < base.toNat + bytes.toNat →
      ¬ MagicWord s.mem x) :
    ∃ t, kmemInit s base bytes = some (0, t) ∧ Heap t [⟨bytes.toNat - 48, true⟩] := by
  have hround : roundUp base.toNat = base.toNat := by
    rw [roundUp]
    omega
  have harena : Arena base.toNat bytes.toNat := ⟨hbase, by omega, by omega⟩
  have hstart : initStart base = base := kmemAlignUpPtr_of_aligned haligned
  have husable : initUsable base bytes = bytes := by
    apply eq_of_toNat_eq
    rw [initUsable_toNat bytes (by omega) (by omega), hround]
    omega
  rcases kmemInit_exact s base bytes with ⟨-, hinit⟩ | ⟨hno, -⟩
  · rw [kmemValidate_installed s harena, if_pos hwrap, Option.map_some, installed, hstart,
      husable] at hinit
    exact ⟨_, hinit, heap_installHead hbase haligned hbytes hroom hwrap hextent hclean⟩
  · exact absurd harena hno

end Mcsos.Kmem
