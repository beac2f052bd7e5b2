import Mcsos.BoundedLoop

/-!
# The bitmap physical memory manager

The functions of `src/pmm.c` over an explicit `PmmState`. The bitmap is the list of
bytes of the caller's storage, and a byte access outside it is a fault, as is a loop
that does not end; both are `none`. A null `regions` or `bitmap_storage` pointer is
`none`, and `regions` with `region_count` is a list. Bit 1 of the bitmap means used,
bit 0 means free.

The functions carry assertions of what the source only relies on: a bitmap access stays below
`bitmap_bytes`, a loop counter does not wrap, and a counter that is decremented is positive.
They are written once, with a flag that turns the assertions on; the functions of the source
are those without.
-/

namespace Mcsos.Pmm
open BoundedLoop

def pmmPageSize : UInt64 := 4096
def pmmInvalidFrame : UInt64 := 0xffffffffffffffff
def bootMemUsable : UInt32 := 1

structure BootMemRegion where
  base : UInt64
  length : UInt64
  type : UInt32
deriving DecidableEq

structure PmmState where
  bitmap : List UInt8
  bitmapBytes : UInt64
  maxPhys : UInt64
  frameCount : UInt64
  freeFrames : UInt64
  usedFrames : UInt64
  reservedFrames : UInt64
  ignoredFrames : UInt64
  nextHint : UInt64
  initialized : Bool
deriving DecidableEq

def alignDown (value align : UInt64) : UInt64 := value &&& ~~~(align - 1)

def alignUp (value align : UInt64) : UInt64 := (value + align - 1) &&& ~~~(align - 1)

def checkedAddU64 (a b : UInt64) : Option UInt64 :=
  if 0xffffffffffffffff - a < b then none else some (a + b)

def bitmapSet (bitmap : List UInt8) (index : UInt64) : Option (List UInt8) := do
  let b ← bitmap[(index >>> 3).toNat]?
  return bitmap.set (index >>> 3).toNat (b ||| (1 <<< (index &&& 7).toUInt8))

def bitmapClear (bitmap : List UInt8) (index : UInt64) : Option (List UInt8) := do
  let b ← bitmap[(index >>> 3).toNat]?
  return bitmap.set (index >>> 3).toNat (b &&& ~~~(1 <<< (index &&& 7).toUInt8))

def bitmapTest (bitmap : List UInt8) (index : UInt64) : Option Bool := do
  let b ← bitmap[(index >>> 3).toNat]?
  return decide (b &&& (1 <<< (index &&& 7).toUInt8) ≠ 0)

def pmmZeroState : PmmState :=
  { bitmap := [], bitmapBytes := 0, maxPhys := 0, frameCount := 0, freeFrames := 0,
    usedFrames := 0, reservedFrames := 0, ignoredFrames := 0, nextHint := 0,
    initialized := false }

def blankState (storage : List UInt8) (bitmapBytes maxPhys frameCount : UInt64) : PmmState :=
  { pmmZeroState with
    bitmap := storage, bitmapBytes := bitmapBytes, maxPhys := maxPhys, frameCount := frameCount,
    freeFrames := 0, usedFrames := frameCount, nextHint := 0 }

namespace Checked

variable (asserted : Bool)

/-- An assertion stops the program only where assertions are on. -/
def assert (c : Prop) [Decidable c] : Option Unit :=
  if asserted = true ∧ ¬ c then none else some ()

def bitmapSet (pmm : PmmState) (index : UInt64) : Option (List UInt8) := do
  assert asserted (index >>> 3 < pmm.bitmapBytes)
  Pmm.bitmapSet pmm.bitmap index

def bitmapClear (pmm : PmmState) (index : UInt64) : Option (List UInt8) := do
  assert asserted (index >>> 3 < pmm.bitmapBytes)
  Pmm.bitmapClear pmm.bitmap index

def bitmapTest (pmm : PmmState) (index : UInt64) : Option Bool := do
  assert asserted (index >>> 3 < pmm.bitmapBytes)
  Pmm.bitmapTest pmm.bitmap index

def markFrameFree (pmm : PmmState) (frame : UInt64) : Option PmmState := do
  if frame ≥ pmm.frameCount then
    return pmm
  if ← bitmapTest asserted pmm frame then
    let bitmap ← bitmapClear asserted pmm frame
    assert asserted (pmm.usedFrames > 0)
    return { pmm with
      bitmap := bitmap
      freeFrames := pmm.freeFrames + 1
      usedFrames := if pmm.usedFrames > 0 then pmm.usedFrames - 1 else pmm.usedFrames
      nextHint := if frame < pmm.nextHint then frame else pmm.nextHint }
  return pmm

def markFrameUsed (pmm : PmmState) (frame : UInt64) : Option PmmState := do
  if frame ≥ pmm.frameCount then
    return pmm
  if !(← bitmapTest asserted pmm frame) then
    let bitmap ← bitmapSet asserted pmm frame
    assert asserted (pmm.freeFrames > 0)
    return { pmm with
      bitmap := bitmap
      freeFrames := if pmm.freeFrames > 0 then pmm.freeFrames - 1 else pmm.freeFrames
      usedFrames := pmm.usedFrames + 1 }
  return pmm

def freeRangeBody (stop : UInt64) (s : PmmState × UInt64) :
    Option (Control (PmmState × UInt64) PmmState) := do
  let (pmm, addr) := s
  if addr < stop then
    let pmm ← markFrameFree asserted pmm (addr / pmmPageSize)
    assert asserted (addr < addr + pmmPageSize)
    return .next (pmm, addr + pmmPageSize)
  return .done pmm

def markRangeFree (pmm : PmmState) (base length : UInt64) : Option PmmState :=
  if length = 0 then some pmm else
  match checkedAddU64 base length with
  | none => some pmm
  | some last =>
      let start := alignUp base pmmPageSize
      let stop := alignDown last pmmPageSize
      if stop ≤ start then some pmm
      else if start ≥ pmm.maxPhys then some pmm
      else if stop > pmm.maxPhys then
        let pmm := { pmm with ignoredFrames :=
          pmm.ignoredFrames + (alignDown last pmmPageSize - pmm.maxPhys) / pmmPageSize }
        loop (freeRangeBody asserted pmm.maxPhys) wordFuel (pmm, start)
      else loop (freeRangeBody asserted stop) wordFuel (pmm, start)

/-- One iteration of the page loop of `mark_range_used`, which tests the bit itself
before `mark_frame_used` tests it again. -/
def usedRangeBody (stop : UInt64) (s : PmmState × UInt64) :
    Option (Control (PmmState × UInt64) PmmState) := do
  let (pmm, addr) := s
  if addr < stop then
    let wasFree := !(← bitmapTest asserted pmm (addr / pmmPageSize))
    let pmm ← markFrameUsed asserted pmm (addr / pmmPageSize)
    let pmm := if wasFree then { pmm with reservedFrames := pmm.reservedFrames + 1 } else pmm
    assert asserted (addr < addr + pmmPageSize)
    return .next (pmm, addr + pmmPageSize)
  return .done pmm

def markRangeUsed (pmm : PmmState) (base length : UInt64) : Option PmmState :=
  if length = 0 then some pmm else
  match checkedAddU64 base length with
  | none => some pmm
  | some last =>
      let start := alignDown base pmmPageSize
      let stop := alignUp last pmmPageSize
      if stop ≤ start then some pmm
      else if start ≥ pmm.maxPhys then some pmm
      else if stop > pmm.maxPhys then
        loop (usedRangeBody asserted pmm.maxPhys) wordFuel (pmm, start)
      else loop (usedRangeBody asserted stop) wordFuel (pmm, start)

def fillBody (count : UInt64) (s : List UInt8 × UInt64) :
    Option (Control (List UInt8 × UInt64) (List UInt8)) := do
  let (storage, i) := s
  if i < count then
    assert asserted (i < i + 1)
    if i.toNat < storage.length then return .next (storage.set i.toNat 0xff, i + 1) else none
  else return .done storage

def freeRegions (pmm : PmmState) : List BootMemRegion → Option PmmState
  | [] => some pmm
  | r :: rs => do
      let pmm ←
        if r.type = bootMemUsable then markRangeFree asserted pmm r.base r.length else some pmm
      freeRegions pmm rs

def useRegions (pmm : PmmState) : List BootMemRegion → Option PmmState
  | [] => some pmm
  | r :: rs => do
      let pmm ←
        if r.type ≠ bootMemUsable then markRangeUsed asserted pmm r.base r.length else some pmm
      useRegions pmm rs

def pmmInitFromMap (pmm : PmmState) (regions : Option (List BootMemRegion))
    (bitmapStorage : Option (List UInt8)) (bitmapStorageBytes maxPhysBytes : UInt64) :
    Option (Bool × PmmState) :=
  match regions, bitmapStorage with
  | some regions, some storage =>
      if regions = [] then some (false, pmm)
      else if maxPhysBytes = 0 ∨ maxPhysBytes &&& (pmmPageSize - 1) ≠ 0 then some (false, pmm)
      else
        let frameCount := maxPhysBytes / pmmPageSize
        let requiredBitmapBytes := (frameCount + 7) / 8
        if bitmapStorageBytes < requiredBitmapBytes then some (false, pmm)
        else do
          let storage ← loop (fillBody asserted requiredBitmapBytes) wordFuel (storage, 0)
          let pmm ← freeRegions asserted
            (blankState storage requiredBitmapBytes maxPhysBytes frameCount) regions
          -- Frame 0 is never allocated: it catches null-like physical addresses.
          let pmm ← markRangeUsed asserted pmm 0 pmmPageSize
          let pmm ← useRegions asserted pmm regions
          return (true, { pmm with initialized := true })
  | _, _ => some (false, pmm)

def scanBody (pmm : PmmState) (limit frame : UInt64) :
    Option (Control UInt64 (Option UInt64)) := do
  if frame < limit then
    if !(← bitmapTest asserted pmm frame) then
      return .done (some frame)
    assert asserted (frame < frame + 1)
    return .next (frame + 1)
  return .done none

def takeFrame (pmm : PmmState) (frame : UInt64) : Option (UInt64 × PmmState) := do
  let pmm ← markFrameUsed asserted pmm frame
  return (frame * pmmPageSize, { pmm with nextHint := frame + 1 })

def pmmAllocFrame (pmm : PmmState) : Option (UInt64 × PmmState) := do
  if !pmm.initialized || pmm.freeFrames = 0 then
    return (pmmInvalidFrame, pmm)
  match ← loop (scanBody asserted pmm pmm.frameCount) wordFuel pmm.nextHint with
  | some frame => takeFrame asserted pmm frame
  | none =>
      match ← loop (scanBody asserted pmm pmm.nextHint) wordFuel 0 with
      | some frame => takeFrame asserted pmm frame
      | none => return (pmmInvalidFrame, pmm)

def pmmFreeFrame (pmm : PmmState) (physAddr : UInt64) : Option (Bool × PmmState) := do
  if !pmm.initialized then
    return (false, pmm)
  if physAddr &&& (pmmPageSize - 1) ≠ 0 ∨ physAddr = 0 ∨ physAddr ≥ pmm.maxPhys then
    return (false, pmm)
  let frame := physAddr / pmmPageSize
  if !(← bitmapTest asserted pmm frame) then
    return (false, pmm)
  let pmm ← markFrameFree asserted pmm frame
  return (true, pmm)

def pmmReserveRange (pmm : PmmState) (base length : UInt64) : Option (Bool × PmmState) := do
  if !pmm.initialized || length = 0 then
    return (false, pmm)
  let pmm ← markRangeUsed asserted pmm base length
  return (true, pmm)

def pmmIsFrameFree (pmm : PmmState) (physAddr : UInt64) : Option Bool := do
  if !pmm.initialized then
    return false
  if physAddr &&& (pmmPageSize - 1) ≠ 0 ∨ physAddr ≥ pmm.maxPhys then
    return false
  return !(← bitmapTest asserted pmm (physAddr / pmmPageSize))

end Checked

section Plain

variable (pmm : PmmState)

abbrev markRangeFree (base length : UInt64) : Option PmmState :=
  Checked.markRangeFree false pmm base length

abbrev pmmInitFromMap (regions : Option (List BootMemRegion))
    (bitmapStorage : Option (List UInt8)) (bitmapStorageBytes maxPhysBytes : UInt64) :
    Option (Bool × PmmState) :=
  Checked.pmmInitFromMap false pmm regions bitmapStorage bitmapStorageBytes maxPhysBytes

abbrev pmmAllocFrame : Option (UInt64 × PmmState) := Checked.pmmAllocFrame false pmm

abbrev pmmFreeFrame (physAddr : UInt64) : Option (Bool × PmmState) :=
  Checked.pmmFreeFrame false pmm physAddr

abbrev pmmReserveRange (base length : UInt64) : Option (Bool × PmmState) :=
  Checked.pmmReserveRange false pmm base length

abbrev pmmIsFrameFree (physAddr : UInt64) : Option Bool :=
  Checked.pmmIsFrameFree false pmm physAddr

end Plain

def pmmFreeCount (pmm : PmmState) : UInt64 := pmm.freeFrames
def pmmUsedCount (pmm : PmmState) : UInt64 := pmm.usedFrames

end Mcsos.Pmm
