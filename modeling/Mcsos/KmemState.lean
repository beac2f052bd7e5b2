import Mcsos.BoundedLoop
import Mcsos.ByteMemory
import Mcsos.WordArithmetic

/-!
# The kernel heap

The allocator keeps its block headers inside the arena it manages, so the model works on the
bytes of memory. A header has 48 bytes: magic, size, free flag, two reserved fields, and the
pointers to the previous and the next header. Pointers are 64-bit addresses and `0` is null;
a loop that does not end within the address space is `none`.
-/

namespace Mcsos.Kmem
open BoundedLoop ByteMemory WordArithmetic

def kmemAlign : UInt64 := 16
def kmemMagic : UInt64 := 0x4d43534f53484541
def kmemMinSplit : UInt64 := 32
def sizeofBlock : UInt64 := 48
def sizeMax : UInt64 := 0xffffffffffffffff

structure KmemState where
  mem : Memory
  gHeapBase : UInt64
  gHeapEnd : UInt64
  gHead : UInt64
  gInitialized : Bool

def magicAt (m : Memory) (b : UInt64) : UInt64 := loadU64 m b.toNat
def sizeAt (m : Memory) (b : UInt64) : UInt64 := loadU64 m (b.toNat + 8)
def freeAt (m : Memory) (b : UInt64) : UInt32 := loadU32 m (b.toNat + 16)
def prevAt (m : Memory) (b : UInt64) : UInt64 := loadU64 m (b.toNat + 32)
def nextAt (m : Memory) (b : UInt64) : UInt64 := loadU64 m (b.toNat + 40)

def setMagic (m : Memory) (b v : UInt64) : Memory := storeU64 m b.toNat v
def setSize (m : Memory) (b v : UInt64) : Memory := storeU64 m (b.toNat + 8) v
def setFree (m : Memory) (b : UInt64) (v : UInt32) : Memory := storeU32 m (b.toNat + 16) v
def setPrev (m : Memory) (b v : UInt64) : Memory := storeU64 m (b.toNat + 32) v
def setNext (m : Memory) (b v : UInt64) : Memory := storeU64 m (b.toNat + 40) v

def kmemAlignUpSize (value align : UInt64) : UInt64 :=
  if align = 0 then value
  else
    let mask := align - 1
    if align &&& mask ≠ 0 then 0
    else if value > sizeMax - mask then 0
    else (value + mask) &&& ~~~mask

def kmemAlignUpPtr (value align : UInt64) : UInt64 :=
  let mask := align - 1
  if align &&& mask ≠ 0 then 0
  else if value > sizeMax - mask then 0
  else (value + mask) &&& ~~~mask

def memsetBody (value : UInt8) (c : Memory × UInt64 × UInt64) :
    Option (Control (Memory × UInt64 × UInt64) Memory) :=
  if c.2.2 > 0 then
    some (.next (Function.update c.1 c.2.1.toNat value, c.2.1 + 1, c.2.2 - 1))
  else some (.done c.1)

def kmemMemset (m : Memory) (dst : UInt64) (value : UInt8) (bytes : UInt64) : Option Memory :=
  loop (memsetBody value) wordFuel (m, dst, bytes)

def kmemPayload (block : UInt64) : UInt64 := block + sizeofBlock

def kmemHeaderFromPayload (ptr : UInt64) : UInt64 := ptr - sizeofBlock

def kmemPtrInHeap (s : KmemState) (ptr : UInt64) : Bool :=
  s.gInitialized && decide (ptr ≥ s.gHeapBase) && decide (ptr < s.gHeapEnd)

/-- The stores of `kmem_split_if_useful` once its checks have passed. -/
def installSplit (m : Memory) (block newBlock wanted consumed : UInt64) : Memory :=
  let m := setMagic m newBlock kmemMagic
  let m := setSize m newBlock (sizeAt m block - consumed - sizeofBlock)
  let m := setFree m newBlock 1
  let m := setPrev m newBlock block
  let m := setNext m newBlock (nextAt m block)
  let m := if nextAt m block ≠ 0 then setPrev m (nextAt m block) newBlock else m
  let m := setNext m block newBlock
  setSize m block wanted

def kmemSplitIfUseful (s : KmemState) (block wanted : UInt64) : KmemState :=
  let header := kmemAlignUpSize sizeofBlock kmemAlign
  if header = 0 then s
  else if sizeAt s.mem block < wanted + header + kmemMinSplit then s
  else
    let newAddr := kmemAlignUpPtr (kmemPayload block + wanted) kmemAlign
    if newAddr = 0 then s
    else if newAddr + sizeofBlock ≥ s.gHeapEnd then s
    else
      let consumed := newAddr - kmemPayload block
      if sizeAt s.mem block ≤ consumed + sizeofBlock + kmemMinSplit then s
      else { s with mem := installSplit s.mem block newAddr wanted consumed }

/-- The stores of one round of `kmem_coalesce_forward`. -/
def absorbNext (m : Memory) (block next : UInt64) : Memory :=
  let m := setSize m block (sizeAt m block + (sizeofBlock + sizeAt m next))
  let m := setNext m block (nextAt m next)
  let m := if nextAt m next ≠ 0 then setPrev m (nextAt m next) block else m
  let m := setMagic m next 0
  let m := setSize m next 0
  let m := setPrev m next 0
  setNext m next 0

def coalesceBody (block : UInt64) (m : Memory) : Option (Control Memory Memory) :=
  if block ≠ 0 ∧ nextAt m block ≠ 0 ∧ freeAt m (nextAt m block) ≠ 0 then
    let next := nextAt m block
    let expected := kmemAlignUpPtr (kmemPayload block + sizeAt m block) kmemAlign
    if expected ≠ next then some (.done m)
    else some (.next (absorbNext m block next))
  else some (.done m)

def kmemCoalesceForward (m : Memory) (block : UInt64) : Option Memory :=
  loop (coalesceBody block) wordFuel m

structure ValidateState where
  cur : UInt64
  prev : UInt64
  cursor : UInt64
  guard : UInt64

def validateBody (s : KmemState) (v : ValidateState) : Option (Control ValidateState Int32) :=
  if v.cur = 0 then some (.done 0)
  else if v.guard + 1 > 1048576 then some (.done (-3))
  else if v.cur ≠ v.cursor then some (.done (-4))
  else if v.cur < s.gHeapBase ∨ v.cur + sizeofBlock > s.gHeapEnd then some (.done (-5))
  else if magicAt s.mem v.cur ≠ kmemMagic then some (.done (-6))
  else if prevAt s.mem v.cur ≠ v.prev then some (.done (-7))
  else if sizeAt s.mem v.cur > s.gHeapEnd - kmemPayload v.cur then some (.done (-8))
  else
    let cursor := kmemAlignUpPtr (kmemPayload v.cur + sizeAt s.mem v.cur) kmemAlign
    if cursor = 0 ∨ cursor > s.gHeapEnd then some (.done (-9))
    else some (.next ⟨nextAt s.mem v.cur, v.cur, cursor, v.guard + 1⟩)

def kmemValidate (s : KmemState) : Option Int32 :=
  if s.gInitialized = false ∨ s.gHeapBase = 0 ∨ s.gHeapEnd ≤ s.gHeapBase ∨ s.gHead = 0 then
    some (-1)
  else if s.gHead ≠ s.gHeapBase then some (-2)
  else loop (validateBody s) wordFuel ⟨s.gHead, 0, s.gHeapBase, 0⟩

/-- The stores of `kmem_init` for the first block. -/
def installHead (m : Memory) (head size : UInt64) : Memory :=
  let m := setMagic m head kmemMagic
  let m := setSize m head size
  let m := setFree m head 1
  let m := setPrev m head 0
  setNext m head 0

def kmemInit (s : KmemState) (base bytes : UInt64) : Option (Int32 × KmemState) :=
  if base = 0 ∨ bytes < sizeofBlock + kmemMinSplit then some (-1, s)
  else
    let start := kmemAlignUpPtr base kmemAlign
    if start = 0 ∨ start < base then some (-2, s)
    else
      let lost := start - base
      if bytes ≤ lost + sizeofBlock + kmemMinSplit then some (-3, s)
      else
        let usable := (bytes - lost) &&& ~~~(kmemAlign - 1)
        if usable ≤ sizeofBlock + kmemMinSplit then some (-4, s)
        else
          let t : KmemState :=
            { mem := installHead s.mem start (usable - sizeofBlock), gHeapBase := start,
              gHeapEnd := start + usable, gHead := start, gInitialized := true }
          (kmemValidate t).map (fun code => (code, t))

def allocBody (s : KmemState) (wanted cur : UInt64) :
    Option (Control UInt64 (UInt64 × KmemState)) :=
  if cur = 0 then some (.done (0, s))
  else if magicAt s.mem cur ≠ kmemMagic then some (.done (0, s))
  else if freeAt s.mem cur ≠ 0 ∧ sizeAt s.mem cur ≥ wanted then
    let t := kmemSplitIfUseful s cur wanted
    some (.done (kmemPayload cur, { t with mem := setFree t.mem cur 0 }))
  else some (.next (nextAt s.mem cur))

def kmemAlloc (s : KmemState) (bytes : UInt64) : Option (UInt64 × KmemState) :=
  if s.gInitialized = false ∨ bytes = 0 then some (0, s)
  else
    let wanted := kmemAlignUpSize bytes kmemAlign
    if wanted = 0 then some (0, s)
    else loop (allocBody s wanted) wordFuel s.gHead

def kmemCalloc (s : KmemState) (count bytes : UInt64) : Option (UInt64 × KmemState) :=
  if count ≠ 0 ∧ bytes > sizeMax / count then some (0, s)
  else
    let total := count * bytes
    match kmemAlloc s total with
    | none => none
    | some (ptr, t) =>
        if ptr ≠ 0 then
          (kmemMemset t.mem ptr 0 total).map (fun m => (ptr, { t with mem := m }))
        else some (ptr, t)

def coalesceBackward (m : Memory) (block : UInt64) : Option Memory :=
  -- Merging backwards: the previous block, if it is free, absorbs what follows it.
  if prevAt m block ≠ 0 ∧ freeAt m (prevAt m block) ≠ 0 then
    kmemCoalesceForward m (prevAt m block)
  else some m

def kmemFreeChecked (s : KmemState) (ptr : UInt64) : Option (Int32 × KmemState) :=
  if ptr = 0 then some (0, s)
  else if kmemPtrInHeap s ptr = false then some (-1, s)
  else if ptr &&& (kmemAlign - 1) ≠ 0 then some (-2, s)
  else
    let block := kmemHeaderFromPayload ptr
    if kmemPtrInHeap s block = false ∨ magicAt s.mem block ≠ kmemMagic then some (-3, s)
    else if freeAt s.mem block ≠ 0 then some (-4, s)
    else
      match kmemCoalesceForward (setFree s.mem block 1) block with
      | none => none
      | some m =>
          match coalesceBackward m block with
          | none => none
          | some m =>
              let t := { s with mem := m }
              (kmemValidate t).map (fun code => (code, t))

structure KmemStats where
  totalBytes : UInt64
  usedBytes : UInt64
  freeBytes : UInt64
  blockCount : UInt64
  freeCount : UInt64
  largestFree : UInt64
  deriving DecidableEq, Repr

def countBlock (m : Memory) (cur : UInt64) (out : KmemStats) : KmemStats :=
  let out := { out with blockCount := out.blockCount + 1 }
  if freeAt m cur ≠ 0 then
    { out with
      freeCount := out.freeCount + 1
      freeBytes := out.freeBytes + sizeAt m cur
      largestFree := if sizeAt m cur > out.largestFree then sizeAt m cur else out.largestFree }
  else { out with usedBytes := out.usedBytes + sizeAt m cur }

def statsBody (m : Memory) (c : UInt64 × KmemStats) :
    Option (Control (UInt64 × KmemStats) KmemStats) :=
  if c.1 = 0 then some (.done c.2)
  else some (.next (nextAt m c.1, countBlock m c.1 c.2))

def kmemGetStats (s : KmemState) : Option KmemStats :=
  let out : KmemStats := ⟨0, 0, 0, 0, 0, 0⟩
  if s.gInitialized = false then some out
  else
    loop (statsBody s.mem) wordFuel
      (s.gHead, { out with totalBytes := s.gHeapEnd - s.gHeapBase })

inductive HeapCall
  | alloc (bytes : UInt64)
  | calloc (count bytes : UInt64)
  | free (ptr : UInt64)
  | getStats
  | validate

inductive HeapReply
  | pointer (ptr : UInt64)
  | code (code : Int32)
  | stats (out : KmemStats)
  deriving DecidableEq, Repr

def heapStep (s : KmemState) : HeapCall → Option (KmemState × HeapReply)
  | .alloc bytes => (kmemAlloc s bytes).map (fun r => (r.2, .pointer r.1))
  | .calloc count bytes => (kmemCalloc s count bytes).map (fun r => (r.2, .pointer r.1))
  | .free ptr => (kmemFreeChecked s ptr).map (fun r => (r.2, .code r.1))
  | .getStats => (kmemGetStats s).map (fun out => (s, .stats out))
  | .validate => (kmemValidate s).map (fun code => (s, .code code))

end Mcsos.Kmem
