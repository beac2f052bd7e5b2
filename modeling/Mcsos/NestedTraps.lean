import Mcsos.InterruptEntry

/-!
# Nested exceptions

The dispatcher of an exception is C code, in which further exceptions may strike, to any depth.
A dispatcher is a strategy: it is interrupted in some state of the CPU and goes on depending on
the state in which it is resumed. C code leaves alone the bytes that belong to the code it has
interrupted, and the frames of all exceptions that are still open. The entry code then damages
none of them either, and every interrupted state is resumed as it was.
-/

namespace Mcsos.Entry
open StackMachine WordArithmetic Kernel

inductive Activity
  | returns (k : Outcome Register)
  | interrupted (c : Cpu) (vector : Fin 32) (code : UInt64) (inner : Activity)
      (rest : Cpu → Activity)

def Cpu.resumed (c : Cpu) (vector : Fin 32) (code : UInt64) (k : Outcome Register) : Cpu :=
  iretq (afterTrapDispatch (atTrapDispatch c vector code) k)

def Activity.outcome : Activity → Outcome Register
  | .returns k => k
  | .interrupted c vector code inner rest =>
      (rest (c.resumed vector code inner.outcome)).outcome

def Cpu.frameBytes (c : Cpu) : Set UInt64 := {x | (x - (c.stackBase - 176)).toNat < 176}

def Cpu.Below (c : Cpu) (P : Set UInt64) : Prop :=
  192 ≤ (c.regs .rsp).toNat ∧ ∀ x ∈ P, (c.regs .rsp).toNat ≤ x.toNat

/-- The dispatcher is called with the memory `m` and does not write to `P`. It is interrupted
with its stack below `P`; the dispatcher inside does not write to the frame of the interruption
either. -/
def Activity.Legal : Set UInt64 → AddressSpace → Activity → Prop
  | P, m, .returns k => Set.EqOn k.mem m P
  | P, m, .interrupted c vector code inner rest =>
      Set.EqOn c.mem m P ∧ c.Below P ∧
      inner.Legal (P ∪ c.frameBytes) (atTrapDispatch c vector code).mem ∧
      (rest (c.resumed vector code inner.outcome)).Legal P inner.outcome.mem

def Activity.Transparent : Set UInt64 → Activity → Prop
  -- Every interruption resumes the registers that it has interrupted and leaves the bytes in `P`,
  -- those inside also the frames around them, as they were.
  | _, .returns _ => True
  | P, .interrupted c vector code inner rest =>
      c.resumed vector code inner.outcome = { c with mem := inner.outcome.mem } ∧
      Set.EqOn inner.outcome.mem c.mem P ∧ inner.Transparent (P ∪ c.frameBytes) ∧
      (rest (c.resumed vector code inner.outcome)).Transparent P

theorem atTrapDispatch_pointer (c : Cpu) (vector : Fin 32) (code : UInt64) :
    (atTrapDispatch c vector code).regs .rsp = c.stackBase - 176 := by
  have hpointer := (atTrapDispatch_stack c vector code).1.pointer
  rw [length_callStack] at hpointer
  exact hpointer

theorem atTrapDispatch_outside (c : Cpu) (vector : Fin 32) (code : UInt64) {x : UInt64}
    (hx : x ∉ c.frameBytes) : (atTrapDispatch c vector code).mem x = c.mem x := by
  have hroom : 8 * 22 ≤ (x - (c.stackBase - UInt64.ofNat (8 * 22))).toNat := not_lt.mp hx
  have hsix := length_stack_le c.interrupted (hardwareCode vector code)
  obtain ⟨hcpu, -⟩ := deliver_stack c (hardwareCode vector code)
  obtain ⟨hstub, -⟩ := isrStubCode_stack hcpu vector (by omega)
  have hdeliver : (c.deliver (hardwareCode vector code)).mem x = c.mem x := by
    have hempty : StackAt .rsp c.stackBase [] (⟨Function.update c.regs .rsp c.stackBase,
        decide ((c.rflags >>> 10) &&& 1 ≠ 0), c.mem⟩ : StackMachine.Machine Register) :=
      StackAt.empty (Function.update_self Register.rsp c.stackBase c.regs)
    apply hempty.pushValues_outside ([c.ss, c.regs .rsp, c.rflags, c.cs, c.rip] ++
      (hardwareCode vector code).toList) _ hroom
    cases hardwareCode vector code <;> simp
  have hcode : (execAll .rsp (c.deliver (hardwareCode vector code)) (isrStubCode vector)).mem x =
      (c.deliver (hardwareCode vector code)).mem x := by
    rw [isrStubCode]
    split_ifs
    · exact hcpu.pushValues_outside [UInt64.ofNat vector.val]
        (by rw [List.length_singleton]; omega) hroom
    · exact hcpu.pushValues_outside [0, UInt64.ofNat vector.val]
        (by change 2 + _ ≤ 22; omega) hroom
  have hcommon : (execAll .rsp (execAll .rsp (c.deliver (hardwareCode vector code))
      (isrStubCode vector)) (isrCommonPushed.map .push)).mem x =
      (execAll .rsp (c.deliver (hardwareCode vector code)) (isrStubCode vector)).mem x := by
    rw [execAll_push (by decide : Register.rsp ∉ isrCommonPushed)]
    apply hstub.pushValues_outside _ _ hroom
    rw [isrStub_stack]
    simp [isrCommonPushed]
  rw [atTrapDispatch, isrCommonEntry, execAll_append, execAll_append]
  exact (hcommon.trans hcode).trans hdeliver

theorem stackBase_le (c : Cpu) : c.stackBase.toNat ≤ (c.regs .rsp).toNat ∧
    (c.regs .rsp).toNat < c.stackBase.toNat + 16 := by
  have hround := toNat_and_not_low (c.regs .rsp) 16 4 rfl
  rw [Cpu.stackBase, hround]
  omega

theorem Cpu.Below.notMem_frame {c : Cpu} {P : Set UInt64} (h : c.Below P) {x : UInt64}
    (hx : x ∈ P) : x ∉ c.frameBytes := by
  have hpointer := h.2 x hx
  have hbase := stackBase_le c
  have hroom := h.1
  have hlt := x.toNat_lt
  have hsize : (176 : UInt64).toNat = 176 := rfl
  rw [Cpu.frameBytes, Set.mem_ofPred_eq, UInt64.toNat_sub, UInt64.toNat_sub, hsize]
  omega

theorem Cpu.Below.kept {c : Cpu} {P : Set UInt64} (h : c.Below P) {vector : Fin 32} {code : UInt64}
    {m : AddressSpace} (hm : Set.EqOn m (atTrapDispatch c vector code).mem (P ∪ c.frameBytes)) :
    Set.EqOn m c.mem P := by
  intro x hx
  rw [hm (Or.inl hx)]
  exact atTrapDispatch_outside c vector code (h.notMem_frame hx)

theorem resumed_eq {c : Cpu} {vector : Fin 32} {code : UInt64} {k : Outcome Register}
    (hkept : Set.EqOn k.mem (atTrapDispatch c vector code).mem c.frameBytes) :
    c.resumed vector code k = { c with mem := k.mem } := by
  obtain ⟨hstack, -⟩ := atTrapDispatch_stack c vector code
  obtain ⟨hregs, hrsp, hmem⟩ := afterTrapDispatch_spec (atTrapDispatch c vector code) k
  have hholds : Holds k.mem ((atTrapDispatch c vector code).regs .rsp)
      (callStack c vector code) := by
    apply hstack.holds.congr
    · rw [length_callStack]
      decide
    · rw [length_callStack, atTrapDispatch_pointer]
      exact fun x hx => hkept hx
  have hfive : Holds (afterTrapDispatch (atTrapDispatch c vector code) k).mem
      ((afterTrapDispatch (atTrapDispatch c vector code) k).regs .rsp)
      [c.rip, c.cs, c.rflags, c.regs .rsp, c.ss] := by
    rw [hmem, hrsp]
    exact (holds_append.mp hholds).2
  have hfile : Function.update (afterTrapDispatch (atTrapDispatch c vector code) k).regs .rsp
      (c.regs .rsp) = c.regs := by
    funext r
    by_cases hr : r = .rsp
    · rw [hr, Function.update_self]
    · obtain ⟨j, rfl⟩ := frameRegister_of_ne hr
      rw [Function.update_of_ne hr, hregs j, trapFrameAt_eq hholds]
  rw [Cpu.resumed, iretq_eq hfive, hfile, hmem]

theorem Activity.Legal.sound {act : Activity} {P : Set UInt64} {m : AddressSpace}
    (h : act.Legal P m) : Set.EqOn act.outcome.mem m P ∧ act.Transparent P := by
  induction act generalizing P m with
  | returns k => exact ⟨h, trivial⟩
  | interrupted c vector code inner rest ihInner ihRest =>
    obtain ⟨hcompute, hbelow, hinner, hrest⟩ := h
    obtain ⟨hkept, htransparent⟩ := ihInner hinner
    obtain ⟨hkept', htransparent'⟩ := ihRest _ hrest
    have hresumed : c.resumed vector code inner.outcome = { c with mem := inner.outcome.mem } :=
      resumed_eq (hkept.mono Set.subset_union_right)
    have hmem := hbelow.kept hkept
    exact ⟨(hkept'.trans hmem).trans hcompute, hresumed, hmem, htransparent, htransparent'⟩

/-- Exceptions nest transparently: whatever strikes in the dispatcher, to any depth, the
interrupted state is resumed, the bytes above its stack pointer that the dispatchers leave alone
are as they were, and the same holds of every interruption inside. -/
theorem nested_traps_transparent {c : Cpu} (vector : Fin 32) (code : UInt64) {P : Set UInt64}
    (hbelow : c.Below P) {act : Activity}
    (h : act.Legal (P ∪ c.frameBytes) (atTrapDispatch c vector code).mem) :
    c.resumed vector code act.outcome = { c with mem := act.outcome.mem } ∧
      Set.EqOn act.outcome.mem c.mem P ∧ act.Transparent (P ∪ c.frameBytes) := by
  obtain ⟨hkept, htransparent⟩ := h.sound
  exact ⟨resumed_eq (hkept.mono Set.subset_union_right), hbelow.kept hkept, htransparent⟩

def nestedCpu : Cpu :=
  ⟨fun r => if r = .rsp then 0xE00 else 5, 0x500000, 0x28, 0x2, 0x30,
    (atTrapDispatch sampleCpu 3 0).mem⟩

def nestedBreakpoint : Activity :=
  .interrupted nestedCpu 3 0 (.returns ⟨fun _ => 1, (atTrapDispatch nestedCpu 3 0).mem⟩)
    (fun c => .returns ⟨c.regs, c.mem⟩)

theorem nested_traps_transparent_breakpoint :
    sampleCpu.resumed 3 0 nestedBreakpoint.outcome =
        { sampleCpu with mem := nestedBreakpoint.outcome.mem } ∧
      Set.EqOn nestedBreakpoint.outcome.mem sampleCpu.mem {x | 0x1000 ≤ x.toNat} ∧
      nestedBreakpoint.Transparent ({x | 0x1000 ≤ x.toNat} ∪ sampleCpu.frameBytes) := by
  have hframe : ∀ x ∈ sampleCpu.frameBytes, 0xE00 ≤ x.toNat := by
    intro x hx
    have hbase : sampleCpu.stackBase - 176 = 0xF50 := by decide
    have hstart : (0xF50 : UInt64).toNat = 0xF50 := rfl
    rw [Cpu.frameBytes, Set.mem_ofPred_eq, hbase, UInt64.toNat_sub, hstart] at hx
    omega
  apply nested_traps_transparent 3 0 ⟨by decide, fun x hx => hx⟩
  refine ⟨Set.eqOn_refl _ _, ⟨by decide, ?_⟩, Set.eqOn_refl _ _, Set.eqOn_refl _ _⟩
  intro x hx
  rcases hx with hx | hx
  · exact le_trans (by decide) (show 0x1000 ≤ x.toNat from hx)
  · exact hframe x hx

end Mcsos.Entry
