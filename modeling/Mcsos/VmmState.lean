import Mathlib

/-!
# Four-level page tables

Tables are arrays of 512 entries behind the pointers that `phys_to_virt` returns; `V` is the
type of these pointers. The callbacks of an address space may read and change the tables and
their own context `γ`, and any of them may be a null pointer. Each call of the frame allocator,
each `invlpg` and each write to a table records itself in a trace, the latest first.
-/

namespace Mcsos.Vmm

def vmmPageSize : UInt64 := 4096
def vmmInvalidPhys : UInt64 := 0xffffffffffffffff

def vmmPtePresent : UInt64 := (1 : UInt64) <<< 0
def vmmPteWritable : UInt64 := (1 : UInt64) <<< 1
def vmmPteUser : UInt64 := (1 : UInt64) <<< 2
def vmmPteWriteThrough : UInt64 := (1 : UInt64) <<< 3
def vmmPteCacheDisable : UInt64 := (1 : UInt64) <<< 4
def vmmPteHuge : UInt64 := (1 : UInt64) <<< 7
def vmmPteGlobal : UInt64 := (1 : UInt64) <<< 8
def vmmPteNoExecute : UInt64 := (1 : UInt64) <<< 63
def vmmPteAddrMask : UInt64 := 0x000FFFFFFFFFF000

def vmmMapOk : Int32 := 0
def vmmErrInval : Int32 := -1
def vmmErrNomem : Int32 := -2
def vmmErrExists : Int32 := -3
def vmmErrNotFound : Int32 := -4

abbrev Tables (V : Type) := V → Fin 512 → UInt64

inductive VmmEvent
  | allocated (paddr : UInt64)
  | freed (paddr : UInt64)
  | invalidated (vaddr : UInt64)
  deriving DecidableEq, Repr

inductive Effect (V : Type)
  | event (e : VmmEvent)
  | stored (table : V) (index : Fin 512) (entry : UInt64)
  deriving DecidableEq

structure VmmSpace (V γ : Type) where
  rootPaddr : UInt64
  allocFrame : Option (Tables V → γ → UInt64 × Tables V × γ)
  freeFrame : Option (Tables V → γ → UInt64 → Tables V × γ)
  physToVirt : Option (Tables V → γ → UInt64 → Option V)

structure Machine (V γ : Type) where
  tables : Tables V
  ctx : γ
  trace : List (Effect V)

structure VmmMapping where
  vaddr : UInt64
  paddr : UInt64
  flags : UInt64
  deriving DecidableEq, Repr

def vmmIsAligned4k (value : UInt64) : Bool := value &&& (vmmPageSize - 1) == 0

def vmmIsCanonical (vaddr : UInt64) : Bool :=
  let sign := (vaddr >>> 47) &&& 1
  let upper := vaddr >>> 48
  if sign ≠ 0 then upper == 0xFFFF else upper == 0

def idxPml4 (vaddr : UInt64) : Fin 512 := Fin.ofNat 512 ((vaddr >>> 39) &&& 0x1FF).toNat
def idxPdpt (vaddr : UInt64) : Fin 512 := Fin.ofNat 512 ((vaddr >>> 30) &&& 0x1FF).toNat
def idxPd (vaddr : UInt64) : Fin 512 := Fin.ofNat 512 ((vaddr >>> 21) &&& 0x1FF).toNat
def idxPt (vaddr : UInt64) : Fin 512 := Fin.ofNat 512 ((vaddr >>> 12) &&& 0x1FF).toNat

variable {V γ : Type}

def eventsOf : List (Effect V) → List VmmEvent
  | [] => []
  | .event e :: t => eventsOf t ++ [e]
  | .stored _ _ _ :: t => eventsOf t

def Machine.events (m : Machine V γ) : List VmmEvent := eventsOf m.trace

def Machine.callAlloc (m : Machine V γ) (alloc : Tables V → γ → UInt64 × Tables V × γ) :
    UInt64 × Machine V γ :=
  let r := alloc m.tables m.ctx
  (r.1, { tables := r.2.1, ctx := r.2.2, trace := .event (.allocated r.1) :: m.trace })

def Machine.callFree (m : Machine V γ) (free : Tables V → γ → UInt64 → Tables V × γ)
    (paddr : UInt64) : Machine V γ :=
  let r := free m.tables m.ctx paddr
  { tables := r.1, ctx := r.2, trace := .event (.freed paddr) :: m.trace }

def vmmInvalidatePage (m : Machine V γ) (vaddr : UInt64) : Machine V γ :=
  { m with trace := .event (.invalidated vaddr) :: m.trace }

def tableFromPhys (space : VmmSpace V γ) (m : Machine V γ) (paddr : UInt64) : Option V :=
  match space.physToVirt with
  | none => none
  | some physToVirt =>
      if vmmIsAligned4k paddr = false then none else physToVirt m.tables m.ctx paddr

def vmmSpaceInit (rootPaddr : UInt64)
    (allocFrame : Option (Tables V → γ → UInt64 × Tables V × γ))
    (freeFrame : Option (Tables V → γ → UInt64 → Tables V × γ))
    (physToVirt : Option (Tables V → γ → UInt64 → Option V)) : Except Int32 (VmmSpace V γ) :=
  if physToVirt.isNone ∨ vmmIsAligned4k rootPaddr = false then .error vmmErrInval
  else .ok ⟨rootPaddr, allocFrame, freeFrame, physToVirt⟩

def tablePath (vaddr : UInt64) : List (Fin 512) := [idxPml4 vaddr, idxPdpt vaddr, idxPd vaddr]

/-- One level of the walk that `vmm_query_page` and `vmm_unmap_page` make. -/
def nextTable (space : VmmSpace V γ) (m : Machine V γ) (table : V) (index : Fin 512) :
    Except Int32 V :=
  let e := m.tables table index
  if e &&& vmmPtePresent = 0 ∨ e &&& vmmPteHuge ≠ 0 then .error vmmErrNotFound
  else
    match tableFromPhys space m (e &&& vmmPteAddrMask) with
    | none => .error vmmErrInval
    | some next => .ok next

def findPageTable (space : VmmSpace V γ) (m : Machine V γ) (vaddr : UInt64) : Except Int32 V :=
  match tableFromPhys space m space.rootPaddr with
  | none => .error vmmErrInval
  | some pml4 =>
      match nextTable space m pml4 (idxPml4 vaddr) with
      | .error rc => .error rc
      | .ok pdpt =>
          match nextTable space m pdpt (idxPdpt vaddr) with
          | .error rc => .error rc
          | .ok pd => nextTable space m pd (idxPd vaddr)

def follow (space : VmmSpace V γ) (m : Machine V γ) : List (Fin 512) → V → Except Int32 V
  | [], table => .ok table
  | i :: path, table =>
      match nextTable space m table i with
      | .error rc => .error rc
      | .ok next => follow space m path next

theorem findPageTable_eq (space : VmmSpace V γ) (m : Machine V γ) (vaddr : UInt64) :
    findPageTable space m vaddr =
      match tableFromPhys space m space.rootPaddr with
      | none => .error vmmErrInval
      | some pml4 => follow space m (tablePath vaddr) pml4 := by
  rw [findPageTable]
  cases tableFromPhys space m space.rootPaddr with
  | none => rfl
  | some pml4 =>
    simp only [tablePath, follow]
    cases nextTable space m pml4 (idxPml4 vaddr) with
    | error rc => rfl
    | ok pdpt =>
      dsimp only
      cases nextTable space m pdpt (idxPdpt vaddr) with
      | error rc => rfl
      | ok pd =>
        dsimp only
        cases nextTable space m pd (idxPd vaddr) with
        | error rc => rfl
        | ok pt => rfl

variable [DecidableEq V]

def Machine.store (m : Machine V γ) (table : V) (index : Fin 512) (entry : UInt64) :
    Machine V γ :=
  { m with
    tables := Function.update m.tables table (Function.update (m.tables table) index entry)
    trace := .stored table index entry :: m.trace }

theorem Machine.tables_store (m : Machine V γ) (table : V) (index : Fin 512)
    (entry : UInt64) : (m.store table index entry).tables =
      Function.update m.tables table (Function.update (m.tables table) index entry) := rfl

def vmmZeroPage (m : Machine V γ) (page : V) : Machine V γ :=
  (List.finRange 512).foldl (fun m i => m.store page i 0) m

def getOrAllocNextTable (space : VmmSpace V γ) (m : Machine V γ) (table : V)
    (index : Fin 512) : Except Int32 V × Machine V γ :=
  let entry := m.tables table index
  if entry &&& vmmPtePresent ≠ 0 then
    if entry &&& vmmPteHuge ≠ 0 then (.error vmmErrExists, m)
    else
      match tableFromPhys space m (entry &&& vmmPteAddrMask) with
      | none => (.error vmmErrInval, m)
      | some next => (.ok next, m)
  else
    match space.allocFrame with
    | none => (.error vmmErrNomem, m)
    | some alloc =>
        let newPaddr := (m.callAlloc alloc).1
        let m := (m.callAlloc alloc).2
        if newPaddr = vmmInvalidPhys ∨ vmmIsAligned4k newPaddr = false then
          (.error vmmErrNomem, m)
        else
          match tableFromPhys space m newPaddr with
          | none =>
              match space.freeFrame with
              | none => (.error vmmErrInval, m)
              | some free => (.error vmmErrInval, m.callFree free newPaddr)
          | some newTable =>
              (.ok newTable, (vmmZeroPage m newTable).store table index
                ((newPaddr &&& vmmPteAddrMask) ||| vmmPtePresent ||| vmmPteWritable))

def allowedFlags : UInt64 :=
  vmmPteWritable ||| vmmPteUser ||| vmmPteWriteThrough ||| vmmPteCacheDisable |||
    vmmPteGlobal ||| vmmPteNoExecute

/-- The last step of `vmm_map_page`, in the page table itself. -/
def mapLeaf (m : Machine V γ) (pt : V) (vaddr paddr flags : UInt64) : Int32 × Machine V γ :=
  if m.tables pt (idxPt vaddr) &&& vmmPtePresent ≠ 0 then (vmmErrExists, m)
  else
    (vmmMapOk, m.store pt (idxPt vaddr)
      ((paddr &&& vmmPteAddrMask) ||| vmmPtePresent ||| (flags &&& allowedFlags)))

def vmmMapPage (space : VmmSpace V γ) (m : Machine V γ) (vaddr paddr flags : UInt64) :
    Int32 × Machine V γ :=
  if vmmIsCanonical vaddr = false ∨ vmmIsAligned4k vaddr = false ∨
      vmmIsAligned4k paddr = false then (vmmErrInval, m)
  else
    match tableFromPhys space m space.rootPaddr with
    | none => (vmmErrInval, m)
    | some pml4 =>
        match getOrAllocNextTable space m pml4 (idxPml4 vaddr) with
        | (.error rc, m) => (rc, m)
        | (.ok pdpt, m) =>
            match getOrAllocNextTable space m pdpt (idxPdpt vaddr) with
            | (.error rc, m) => (rc, m)
            | (.ok pd, m) =>
                match getOrAllocNextTable space m pd (idxPd vaddr) with
                | (.error rc, m) => (rc, m)
                | (.ok pt, m) => mapLeaf m pt vaddr paddr flags

/-- The descent of `vmm_map_page` through the levels of a path. -/
def descend (space : VmmSpace V γ) :
    List (Fin 512) → Machine V γ → V → Except Int32 V × Machine V γ
  | [], m, table => (.ok table, m)
  | i :: path, m, table =>
      match getOrAllocNextTable space m table i with
      | (.error rc, m) => (.error rc, m)
      | (.ok next, m) => descend space path m next

theorem vmmMapPage_eq (space : VmmSpace V γ) (m : Machine V γ) (vaddr paddr flags : UInt64) :
    vmmMapPage space m vaddr paddr flags =
      if vmmIsCanonical vaddr = false ∨ vmmIsAligned4k vaddr = false ∨
          vmmIsAligned4k paddr = false then (vmmErrInval, m)
      else
        match tableFromPhys space m space.rootPaddr with
        | none => (vmmErrInval, m)
        | some pml4 =>
            match descend space (tablePath vaddr) m pml4 with
            | (.error rc, m) => (rc, m)
            | (.ok pt, m) => mapLeaf m pt vaddr paddr flags := by
  rw [vmmMapPage]
  split_ifs
  · rfl
  cases tableFromPhys space m space.rootPaddr with
  | none => rfl
  | some pml4 =>
    simp only [tablePath, descend]
    obtain ⟨rc | pdpt, m₁⟩ := getOrAllocNextTable space m pml4 (idxPml4 vaddr)
    · rfl
    dsimp only
    obtain ⟨rc | pd, m₂⟩ := getOrAllocNextTable space m₁ pdpt (idxPdpt vaddr)
    · rfl
    dsimp only
    obtain ⟨rc | pt, m₃⟩ := getOrAllocNextTable space m₂ pd (idxPd vaddr)
    · rfl
    · rfl

def vmmQueryPage (space : VmmSpace V γ) (m : Machine V γ) (vaddr : UInt64)
    (out : Option VmmMapping) : Int32 × Option VmmMapping :=
  if out.isNone ∨ vmmIsCanonical vaddr = false ∨ vmmIsAligned4k vaddr = false then
    (vmmErrInval, out)
  else
    match findPageTable space m vaddr with
    | .error rc => (rc, out)
    | .ok pt =>
        let e := m.tables pt (idxPt vaddr)
        if e &&& vmmPtePresent = 0 then (vmmErrNotFound, out)
        else (vmmMapOk, some ⟨vaddr, e &&& vmmPteAddrMask, e &&& ~~~vmmPteAddrMask⟩)

def vmmUnmapPage (space : VmmSpace V γ) (m : Machine V γ) (vaddr : UInt64) :
    Int32 × Machine V γ :=
  if vmmIsCanonical vaddr = false ∨ vmmIsAligned4k vaddr = false then (vmmErrInval, m)
  else
    match findPageTable space m vaddr with
    | .error rc => (rc, m)
    | .ok pt =>
        if m.tables pt (idxPt vaddr) &&& vmmPtePresent = 0 then (vmmErrNotFound, m)
        else (vmmMapOk, vmmInvalidatePage (m.store pt (idxPt vaddr) 0) vaddr)

end Mcsos.Vmm
