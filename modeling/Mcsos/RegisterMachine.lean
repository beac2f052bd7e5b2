import Mcsos.ByteMemory
import Mcsos.WordArithmetic

/-!
# A register machine

Registers of an arbitrary type, an instruction pointer and byte memory. The instructions
move words between registers and memory, jump through memory and return. Saving a list of
registers to the slots of a record and loading them back are specified as a whole.
-/

namespace Mcsos.RegisterMachine
open ByteMemory WordArithmetic

structure Machine (R : Type*) where
  regs : R → UInt64
  rip : UInt64
  mem : Memory

inductive Instr (R : Type*) where
  | leaLabel (dst : R)
  | store (src : R) (disp : UInt64) (base : R)
  | load (disp : UInt64) (base dst : R)
  | jmp (disp : UInt64) (base : R)
  | ret
  deriving DecidableEq

variable {R : Type*} [DecidableEq R]

def Machine.setReg (m : Machine R) (r : R) (v : UInt64) : Machine R :=
  { m with regs := Function.update m.regs r v }

def Machine.setMem (m : Machine R) (mem : Memory) : Machine R := { m with mem := mem }

/-- One instruction of a block in which `label` is the address of the only label. The
instruction pointer is updated by jumps and returns. -/
def exec (sp : R) (label : UInt64) (m : Machine R) : Instr R → Machine R
  | .leaLabel dst => m.setReg dst label
  | .store src disp base => m.setMem (storeU64 m.mem (m.regs base + disp).toNat (m.regs src))
  | .load disp base dst => m.setReg dst (loadU64 m.mem (m.regs base + disp).toNat)
  | .jmp disp base => { m with rip := loadU64 m.mem (m.regs base + disp).toNat }
  | .ret => { m.setReg sp (m.regs sp + 8) with rip := loadU64 m.mem (m.regs sp).toNat }

def execAll (sp : R) (label : UInt64) (m : Machine R) (code : List (Instr R)) : Machine R :=
  code.foldl (exec sp label) m

def Machine.push (sp : R) (m : Machine R) (ret : UInt64) : Machine R :=
  (m.setReg sp (m.regs sp - 8)).setMem (storeU64 m.mem (m.regs sp - 8).toNat ret)

def saveAll (base : R) (slots : List (R × UInt64)) : List (Instr R) :=
  slots.map (fun p => .store p.1 p.2 base)

def loadAll (base : R) (slots : List (R × UInt64)) : List (Instr R) :=
  slots.map (fun p => .load p.2 base p.1)

structure Separate (n : ℕ) (slots : List (R × UInt64)) : Prop where
  inside : ∀ p ∈ slots, p.2.toNat + 8 ≤ n
  apart : slots.Pairwise (fun p q => p.2.toNat + 8 ≤ q.2.toNat ∨ q.2.toNat + 8 ≤ p.2.toNat)

theorem execAll_append (sp : R) (label : UInt64) (m : Machine R) (c d : List (Instr R)) :
    execAll sp label m (c ++ d) = execAll sp label (execAll sp label m c) d :=
  List.foldl_append

theorem execAll_saveAll_regs (sp : R) (label : UInt64) (m : Machine R) (base : R)
    (slots : List (R × UInt64)) :
    (execAll sp label m (saveAll base slots)).regs = m.regs := by
  induction slots generalizing m with
  | nil => rfl
  | cons p slots ih => exact ih (exec sp label m (.store p.1 p.2 base))

theorem toNat_slot {a d : UInt64} {n : ℕ} (hd : d.toNat + 8 ≤ n) (hn : a.toNat + n ≤ 2 ^ 64) :
    (a + d).toNat = a.toNat + d.toNat :=
  toNat_add_of_lt a d (by omega)

theorem saveAll_mem (sp : R) (label : UInt64) (m : Machine R) (base : R)
    {slots : List (R × UInt64)} {x : ℕ}
    (hx : ∀ p ∈ slots, x < (m.regs base + p.2).toNat ∨ (m.regs base + p.2).toNat + 8 ≤ x) :
    (execAll sp label m (saveAll base slots)).mem x = m.mem x := by
  induction slots generalizing m with
  | nil => rfl
  | cons p slots ih =>
    have hrest := ih (exec sp label m (.store p.1 p.2 base))
      (fun q hq => hx q (List.mem_cons_of_mem p hq))
    exact hrest.trans (storeU64_outside _ _ _ (hx p List.mem_cons_self))

theorem saveAll_outside (sp : R) (label : UInt64) (m : Machine R) (base : R)
    {slots : List (R × UInt64)} {n : ℕ} (hslots : Separate n slots)
    (hn : (m.regs base).toNat + n ≤ 2 ^ 64) {x : ℕ}
    (hx : x < (m.regs base).toNat ∨ (m.regs base).toNat + n ≤ x) :
    (execAll sp label m (saveAll base slots)).mem x = m.mem x := by
  apply saveAll_mem
  intro p hp
  have hinside := hslots.inside p hp
  rw [toNat_slot hinside hn]
  omega

theorem loadU64_saveAll (sp : R) (label : UInt64) (m : Machine R) (base : R)
    {slots : List (R × UInt64)} {n : ℕ} (hslots : Separate n slots)
    (hn : (m.regs base).toNat + n ≤ 2 ^ 64) {p : R × UInt64} (hp : p ∈ slots) :
    loadU64 (execAll sp label m (saveAll base slots)).mem (m.regs base + p.2).toNat =
      m.regs p.1 := by
  induction slots generalizing m with
  | nil => exact absurd hp List.not_mem_nil
  | cons q slots ih =>
    have happart := List.pairwise_cons.mp hslots.apart
    have hrest : Separate n slots :=
      ⟨fun r hr => hslots.inside r (List.mem_cons_of_mem q hr), happart.2⟩
    rcases List.mem_cons.mp hp with rfl | hp
    · have hkeep : loadU64 (execAll sp label m (saveAll base (p :: slots))).mem
          (m.regs base + p.2).toNat =
          loadU64 (exec sp label m (.store p.1 p.2 base)).mem (m.regs base + p.2).toNat := by
        apply loadU64_congr
        intro x hx hx'
        apply saveAll_mem sp label (exec sp label m (.store p.1 p.2 base)) base
        intro r hr
        have hslot := toNat_slot (hslots.inside p List.mem_cons_self) hn
        have hslot' := toNat_slot (hrest.inside r hr) hn
        have hsep := happart.1 r hr
        show x < (m.regs base + r.2).toNat ∨ (m.regs base + r.2).toNat + 8 ≤ x
        omega
      rw [hkeep]
      exact loadU64_storeU64 _ _ _
    · exact ih (exec sp label m (.store q.1 q.2 base)) hrest hn hp

theorem loadAll_frame (sp : R) (label : UInt64) (m : Machine R) (base : R)
    (slots : List (R × UInt64)) :
    (execAll sp label m (loadAll base slots)).mem = m.mem ∧
      (execAll sp label m (loadAll base slots)).rip = m.rip ∧
      ∀ r, r ∉ slots.map Prod.fst →
        (execAll sp label m (loadAll base slots)).regs r = m.regs r := by
  induction slots generalizing m with
  | nil => exact ⟨rfl, rfl, fun _ _ => rfl⟩
  | cons p slots ih =>
    obtain ⟨hmem, hrip, hregs⟩ := ih (exec sp label m (.load p.2 base p.1))
    refine ⟨hmem, hrip, ?_⟩
    intro r hr
    rw [List.map_cons, List.mem_cons, not_or] at hr
    exact (hregs r hr.2).trans (Function.update_of_ne hr.1 _ _)

theorem loadAll_regs (sp : R) (label : UInt64) (m : Machine R) (base : R)
    {slots : List (R × UInt64)} (hbase : base ∉ slots.map Prod.fst)
    (hnd : (slots.map Prod.fst).Nodup) {p : R × UInt64} (hp : p ∈ slots) :
    (execAll sp label m (loadAll base slots)).regs p.1 =
      loadU64 m.mem (m.regs base + p.2).toNat := by
  induction slots generalizing m with
  | nil => exact absurd hp List.not_mem_nil
  | cons q slots ih =>
    rw [List.map_cons, List.mem_cons, not_or] at hbase
    rw [List.map_cons, List.nodup_cons] at hnd
    rcases List.mem_cons.mp hp with rfl | hp
    · have hlater := (loadAll_frame sp label (exec sp label m (.load p.2 base p.1)) base slots).2.2
        p.1 hnd.1
      exact hlater.trans (Function.update_self _ _ _)
    · have hrest := ih (exec sp label m (.load q.2 base q.1)) hbase.2 hnd.2 hp
      have hkept : (exec sp label m (.load q.2 base q.1)).regs base = m.regs base :=
        Function.update_of_ne hbase.1 _ _
      rw [hkept] at hrest
      exact hrest

end Mcsos.RegisterMachine
