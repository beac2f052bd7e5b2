import Mcsos.StepRun
import Mcsos.VmmState

/-!
# The single actions of a call

The CPU may walk the page tables at any moment, so the order of the callbacks, table writes and
invalidations of a call matters. It is read off the trace that the call leaves. For each function
the list is computed in advance: these are the actions that it records, and performing them leads
to the machine that it returns.
-/

namespace Mcsos.Vmm
open StepRun

inductive Action (V : Type)
  | callAlloc
  | callFree (paddr : UInt64)
  | store (table : V) (index : Fin 512) (entry : UInt64)
  | invlpg (vaddr : UInt64)
  deriving DecidableEq

variable {V γ : Type}

def Effect.action : Effect V → Action V
  | .event (.allocated _) => .callAlloc
  | .event (.freed paddr) => .callFree paddr
  | .event (.invalidated vaddr) => .invlpg vaddr
  | .stored table index entry => .store table index entry

/-- What the trace records, in order. -/
def Machine.actions (m : Machine V γ) : List (Action V) := (m.trace.map Effect.action).reverse

variable [DecidableEq V]

def Action.apply (space : VmmSpace V γ) (m : Machine V γ) : Action V → Machine V γ
  | .callAlloc =>
      match space.allocFrame with
      | none => m
      | some alloc => (m.callAlloc alloc).2
  | .callFree paddr =>
      match space.freeFrame with
      | none => m
      | some free => m.callFree free paddr
  | .store table index entry => m.store table index entry
  | .invlpg vaddr => vmmInvalidatePage m vaddr

def actionStep (space : VmmSpace V γ) (m : Machine V γ) (a : Action V) : Machine V γ × Unit :=
  (a.apply space m, ())

def perform (space : VmmSpace V γ) (m : Machine V γ) (as : List (Action V)) : Machine V γ :=
  (runTotal (actionStep space) m as).1

@[irreducible] def zeroActions (page : V) : List (Action V) :=
  (List.finRange 512).map (fun i => .store page i 0)

def nextTableActions (space : VmmSpace V γ) (m : Machine V γ) (table : V) (index : Fin 512) :
    List (Action V) :=
  if m.tables table index &&& vmmPtePresent ≠ 0 then []
  else
    match space.allocFrame with
    | none => []
    | some alloc =>
        let newPaddr := (m.callAlloc alloc).1
        let m := (m.callAlloc alloc).2
        if newPaddr = vmmInvalidPhys ∨ vmmIsAligned4k newPaddr = false then [.callAlloc]
        else
          match tableFromPhys space m newPaddr with
          | none =>
              match space.freeFrame with
              | none => [.callAlloc]
              | some _ => [.callAlloc, .callFree newPaddr]
          | some newTable =>
              .callAlloc :: (zeroActions newTable ++ [.store table index
                ((newPaddr &&& vmmPteAddrMask) ||| vmmPtePresent ||| vmmPteWritable)])

def leafActions (m : Machine V γ) (pt : V) (vaddr paddr flags : UInt64) : List (Action V) :=
  if m.tables pt (idxPt vaddr) &&& vmmPtePresent ≠ 0 then []
  else
    [.store pt (idxPt vaddr)
      ((paddr &&& vmmPteAddrMask) ||| vmmPtePresent ||| (flags &&& allowedFlags))]

def mapActions (space : VmmSpace V γ) (m : Machine V γ) (vaddr paddr flags : UInt64) :
    List (Action V) :=
  if vmmIsCanonical vaddr = false ∨ vmmIsAligned4k vaddr = false ∨
      vmmIsAligned4k paddr = false then []
  else
    match tableFromPhys space m space.rootPaddr with
    | none => []
    | some pml4 =>
        nextTableActions space m pml4 (idxPml4 vaddr) ++
        match getOrAllocNextTable space m pml4 (idxPml4 vaddr) with
        | (.error _, _) => []
        | (.ok pdpt, m) =>
            nextTableActions space m pdpt (idxPdpt vaddr) ++
            match getOrAllocNextTable space m pdpt (idxPdpt vaddr) with
            | (.error _, _) => []
            | (.ok pd, m) =>
                nextTableActions space m pd (idxPd vaddr) ++
                match getOrAllocNextTable space m pd (idxPd vaddr) with
                | (.error _, _) => []
                | (.ok pt, m) => leafActions m pt vaddr paddr flags

def descendActions (space : VmmSpace V γ) :
    List (Fin 512) → Machine V γ → V → List (Action V)
  | [], _, _ => []
  | i :: path, m, table =>
      nextTableActions space m table i ++
      match getOrAllocNextTable space m table i with
      | (.error _, _) => []
      | (.ok next, m) => descendActions space path m next

theorem mapActions_eq (space : VmmSpace V γ) (m : Machine V γ) (vaddr paddr flags : UInt64) :
    mapActions space m vaddr paddr flags =
      if vmmIsCanonical vaddr = false ∨ vmmIsAligned4k vaddr = false ∨
          vmmIsAligned4k paddr = false then []
      else
        match tableFromPhys space m space.rootPaddr with
        | none => []
        | some pml4 =>
            descendActions space (tablePath vaddr) m pml4 ++
            match descend space (tablePath vaddr) m pml4 with
            | (.error _, _) => []
            | (.ok pt, m) => leafActions m pt vaddr paddr flags := by
  rw [mapActions]
  split_ifs
  · rfl
  cases tableFromPhys space m space.rootPaddr with
  | none => rfl
  | some pml4 =>
    simp only [tablePath, descend, descendActions]
    obtain ⟨rc | pdpt, m₁⟩ := getOrAllocNextTable space m pml4 (idxPml4 vaddr)
    · rw [List.append_nil, List.append_nil]
    dsimp only
    obtain ⟨rc | pd, m₂⟩ := getOrAllocNextTable space m₁ pdpt (idxPdpt vaddr)
    · rw [List.append_nil, List.append_nil]
    dsimp only
    obtain ⟨rc | pt, m₃⟩ := getOrAllocNextTable space m₂ pd (idxPd vaddr)
    · simp only [List.append_nil]
    · simp only [List.append_assoc, List.append_nil]

def unmapActions (space : VmmSpace V γ) (m : Machine V γ) (vaddr : UInt64) :
    List (Action V) :=
  if vmmIsCanonical vaddr = false ∨ vmmIsAligned4k vaddr = false then []
  else
    match findPageTable space m vaddr with
    | .error _ => []
    | .ok pt =>
        if m.tables pt (idxPt vaddr) &&& vmmPtePresent = 0 then []
        else [.store pt (idxPt vaddr) 0, .invlpg vaddr]

section Perform

variable (space : VmmSpace V γ) (m : Machine V γ)

theorem perform_append (as bs : List (Action V)) :
    perform space m (as ++ bs) = perform space (perform space m as) bs :=
  runTotal_append _ m as bs

theorem perform_cons (a : Action V) (as : List (Action V)) :
    perform space m (a :: as) = perform space (a.apply space m) as := rfl

theorem apply_callAlloc {space : VmmSpace V γ} {m m₁ : Machine V γ} {c : UInt64}
    {alloc : Tables V → γ → UInt64 × Tables V × γ} (halloc : space.allocFrame = some alloc)
    (hcall : m.callAlloc alloc = (c, m₁)) : Action.callAlloc.apply space m = m₁ := by
  simp only [Action.apply, halloc, hcall]

theorem apply_callFree {space : VmmSpace V γ} {free : Tables V → γ → UInt64 → Tables V × γ}
    (hfree : space.freeFrame = some free) (m : Machine V γ) (c : UInt64) :
    (Action.callFree c).apply space m = m.callFree free c := by
  simp only [Action.apply, hfree]

/-- What `get_or_alloc_next_table` can do: its actions, its result and the machine after it. -/
inductive NextStep (space : VmmSpace V γ) (m : Machine V γ) (table : V) (index : Fin 512) :
    List (Action V) → Except Int32 V × Machine V γ → Prop
  | stay {rc : Int32} (hrc : rc ≠ vmmMapOk) : NextStep space m table index [] (.error rc, m)
  | found {next : V} (hpresent : m.tables table index &&& vmmPtePresent ≠ 0)
      (hhuge : m.tables table index &&& vmmPteHuge = 0)
      (htable : tableFromPhys space m (m.tables table index &&& vmmPteAddrMask) = some next) :
      NextStep space m table index [] (.ok next, m)
  | refused {c : UInt64} {m₁ : Machine V γ}
      {alloc : Tables V → γ → UInt64 × Tables V × γ} (halloc : space.allocFrame = some alloc)
      (hcall : m.callAlloc alloc = (c, m₁))
      (hbad : c = vmmInvalidPhys ∨ vmmIsAligned4k c = false) :
      NextStep space m table index [.callAlloc] (.error vmmErrNomem, m₁)
  | leaked {c : UInt64} {m₁ : Machine V γ}
      {alloc : Tables V → γ → UInt64 × Tables V × γ} (halloc : space.allocFrame = some alloc)
      (hcall : m.callAlloc alloc = (c, m₁)) (hfree : space.freeFrame = none) :
      NextStep space m table index [.callAlloc] (.error vmmErrInval, m₁)
  | returned {c : UInt64} {m₁ : Machine V γ}
      {alloc : Tables V → γ → UInt64 × Tables V × γ} {free : Tables V → γ → UInt64 → Tables V × γ}
      (halloc : space.allocFrame = some alloc) (hcall : m.callAlloc alloc = (c, m₁))
      (hgood : c ≠ vmmInvalidPhys) (hfree : space.freeFrame = some free) :
      NextStep space m table index [.callAlloc, .callFree c]
        (.error vmmErrInval, m₁.callFree free c)
  | linked {c : UInt64} {m₁ : Machine V γ} {newTable : V}
      {alloc : Tables V → γ → UInt64 × Tables V × γ}
      (habsent : m.tables table index &&& vmmPtePresent = 0)
      (halloc : space.allocFrame = some alloc) (hcall : m.callAlloc alloc = (c, m₁))
      (hgood : c ≠ vmmInvalidPhys) (htable : tableFromPhys space m₁ c = some newTable) :
      NextStep space m table index
        (.callAlloc :: (zeroActions newTable ++ [.store table index
          ((c &&& vmmPteAddrMask) ||| vmmPtePresent ||| vmmPteWritable)]))
        (.ok newTable, (vmmZeroPage m₁ newTable).store table index
          ((c &&& vmmPteAddrMask) ||| vmmPtePresent ||| vmmPteWritable))

theorem nextStep (table : V) (index : Fin 512) :
    NextStep space m table index (nextTableActions space m table index)
      (getOrAllocNextTable space m table index) := by
  simp only [nextTableActions, getOrAllocNextTable]
  by_cases hpresent : m.tables table index &&& vmmPtePresent ≠ 0
  · rw [if_pos hpresent, if_pos hpresent]
    by_cases hhuge : m.tables table index &&& vmmPteHuge ≠ 0
    · rw [if_pos hhuge]
      exact .stay (by decide : vmmErrExists ≠ vmmMapOk)
    · rw [if_neg hhuge]
      cases htable : tableFromPhys space m (m.tables table index &&& vmmPteAddrMask) with
      | none => exact .stay (by decide : vmmErrInval ≠ vmmMapOk)
      | some next => exact .found hpresent (not_not.mp hhuge) htable
  rw [if_neg hpresent, if_neg hpresent]
  cases halloc : space.allocFrame with
  | none => exact .stay (by decide : vmmErrNomem ≠ vmmMapOk)
  | some alloc =>
    rcases hcall : m.callAlloc alloc with ⟨c, m₁⟩
    simp only [hcall]
    by_cases hbad : c = vmmInvalidPhys ∨ vmmIsAligned4k c = false
    · rw [if_pos hbad, if_pos hbad]
      exact .refused halloc hcall hbad
    rw [if_neg hbad, if_neg hbad]
    have hgood : c ≠ vmmInvalidPhys := fun heq => hbad (Or.inl heq)
    cases htable : tableFromPhys space m₁ c with
    | none =>
      cases hfree : space.freeFrame with
      | none => exact .leaked halloc hcall hfree
      | some free => exact .returned halloc hcall hgood hfree
    | some newTable => exact .linked (not_not.mp hpresent) halloc hcall hgood htable

theorem along_append {space : VmmSpace V γ} {P : Machine V γ → Action V → Prop}
    {m : Machine V γ} {as bs : List (Action V)} :
    AlongTotal (actionStep space) P m (as ++ bs) ↔
      AlongTotal (actionStep space) P m as ∧
        AlongTotal (actionStep space) P (perform space m as) bs :=
  AlongTotal.append

theorem along_cons {space : VmmSpace V γ} {P : Machine V γ → Action V → Prop}
    {m m₁ : Machine V γ} {a : Action V} {as : List (Action V)} (happly : a.apply space m = m₁)
    (ha : P m a) (has : AlongTotal (actionStep space) P m₁ as) :
    AlongTotal (actionStep space) P m (a :: as) := by
  subst happly
  exact ⟨ha, has⟩

theorem getOrAllocNextTable_error {space : VmmSpace V γ} {m m' : Machine V γ} {table : V}
    {index : Fin 512} {rc : Int32}
    (h : getOrAllocNextTable space m table index = (.error rc, m')) : rc ≠ vmmMapOk := by
  have hstep := nextStep space m table index
  rw [h] at hstep
  generalize nextTableActions space m table index = as at hstep
  cases hstep with
  | stay hrc => exact hrc
  | refused halloc hcall hbad => decide
  | leaked halloc hcall hfree => decide
  | returned halloc hcall hgood hfree => decide

theorem descend_error {space : VmmSpace V γ} {m m' : Machine V γ} {path : List (Fin 512)}
    {table : V} {rc : Int32} (h : descend space path m table = (.error rc, m')) :
    rc ≠ vmmMapOk := by
  induction path generalizing m table with
  | nil => cases h
  | cons i path ih =>
    rw [descend] at h
    rcases hstep : getOrAllocNextTable space m table i with ⟨rc' | next, m₁⟩
    · rw [hstep] at h
      cases h
      exact getOrAllocNextTable_error hstep
    · rw [hstep] at h
      exact ih h

/-- The trace has grown by the actions `as`, and performing them leads to the same machine. -/
structure Records (space : VmmSpace V γ) (m : Machine V γ) (as : List (Action V))
    (m' : Machine V γ) : Prop where
  actions : m'.actions = m.actions ++ as
  perform : perform space m as = m'

theorem Records.refl : Records space m [] m := ⟨(List.append_nil _).symm, rfl⟩

theorem Records.trans {space : VmmSpace V γ} {m m₁ m₂ : Machine V γ} {as bs : List (Action V)}
    (h : Records space m as m₁) (h' : Records space m₁ bs m₂) : Records space m (as ++ bs) m₂ := by
  constructor
  case actions => rw [h'.actions, h.actions, List.append_assoc]
  case perform => rw [perform_append, h.perform, h'.perform]

theorem records_callAlloc {space : VmmSpace V γ} {m m₁ : Machine V γ} {c : UInt64}
    {alloc : Tables V → γ → UInt64 × Tables V × γ} (halloc : space.allocFrame = some alloc)
    (hcall : m.callAlloc alloc = (c, m₁)) : Records space m [.callAlloc] m₁ := by
  refine ⟨?_, apply_callAlloc halloc hcall⟩
  cases hcall
  exact List.reverse_cons

theorem records_callFree {space : VmmSpace V γ} {free : Tables V → γ → UInt64 → Tables V × γ}
    (hfree : space.freeFrame = some free) (m : Machine V γ) (c : UInt64) :
    Records space m [.callFree c] (m.callFree free c) :=
  ⟨List.reverse_cons, apply_callFree hfree m c⟩

theorem records_store (table : V) (index : Fin 512) (entry : UInt64) :
    Records space m [.store table index entry] (m.store table index entry) :=
  ⟨List.reverse_cons, rfl⟩

theorem records_invalidatePage (vaddr : UInt64) :
    Records space m [.invlpg vaddr] (vmmInvalidatePage m vaddr) :=
  ⟨List.reverse_cons, rfl⟩

theorem records_zeroPage (page : V) :
    Records space m (zeroActions page) (vmmZeroPage m page) := by
  unfold zeroActions
  rw [vmmZeroPage]
  generalize List.finRange 512 = l
  induction l generalizing m with
  | nil => exact Records.refl space m
  | cons i l ih => exact (records_store space m page i 0).trans (ih (m.store page i 0))

theorem records_nextTable (table : V) (index : Fin 512) :
    Records space m (nextTableActions space m table index)
      (getOrAllocNextTable space m table index).2 := by
  have hstep := nextStep space m table index
  generalize nextTableActions space m table index = as at *
  generalize getOrAllocNextTable space m table index = r at *
  cases hstep with
  | stay hrc => exact Records.refl space m
  | found hpresent hhuge htable => exact Records.refl space m
  | refused halloc hcall hbad => exact records_callAlloc halloc hcall
  | leaked halloc hcall hfree => exact records_callAlloc halloc hcall
  | returned halloc hcall hgood hfree =>
    exact (records_callAlloc halloc hcall).trans (records_callFree hfree _ _)
  | linked habsent halloc hcall hgood htable =>
    exact (records_callAlloc halloc hcall).trans
      ((records_zeroPage space _ _).trans (records_store space _ _ _ _))

theorem records_leaf (pt : V) (vaddr paddr flags : UInt64) :
    Records space m (leafActions m pt vaddr paddr flags)
      (mapLeaf m pt vaddr paddr flags).2 := by
  rw [leafActions, mapLeaf]
  split_ifs
  · exact Records.refl space m
  · exact records_store space m pt _ _

theorem records_descend (path : List (Fin 512)) (table : V) :
    Records space m (descendActions space path m table) (descend space path m table).2 := by
  induction path generalizing m table with
  | nil => exact Records.refl space m
  | cons i path ih =>
    have hnext := records_nextTable space m table i
    rw [descendActions, descend]
    generalize getOrAllocNextTable space m table i = r at hnext ⊢
    obtain ⟨rc | next, m₁⟩ := r
    · exact hnext.trans (Records.refl space m₁)
    · exact hnext.trans (ih m₁ next)

theorem records_mapPage (vaddr paddr flags : UInt64) :
    Records space m (mapActions space m vaddr paddr flags)
      (vmmMapPage space m vaddr paddr flags).2 := by
  rw [mapActions_eq, vmmMapPage_eq]
  split_ifs
  · exact Records.refl space m
  cases tableFromPhys space m space.rootPaddr with
  | none => exact Records.refl space m
  | some pml4 =>
    have hdescend := records_descend space m (tablePath vaddr) pml4
    dsimp only
    generalize descend space (tablePath vaddr) m pml4 = r at hdescend ⊢
    obtain ⟨rc | pt, m₁⟩ := r
    · exact hdescend.trans (Records.refl space m₁)
    · exact hdescend.trans (records_leaf space m₁ pt vaddr paddr flags)

theorem records_unmapPage (vaddr : UInt64) :
    Records space m (unmapActions space m vaddr) (vmmUnmapPage space m vaddr).2 := by
  rw [unmapActions, vmmUnmapPage]
  split_ifs
  · exact Records.refl space m
  cases findPageTable space m vaddr with
  | error rc => exact Records.refl space m
  | ok pt =>
    dsimp only
    split_ifs
    · exact Records.refl space m
    · exact (records_store space m pt _ 0).trans (records_invalidatePage space _ vaddr)

end Perform

end Mcsos.Vmm
