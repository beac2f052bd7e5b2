import Mcsos.Interrupts
import Mcsos.StackMachine
import Mcsos.Syscall

/-!
# The entry code of exceptions and of the system call

The instructions of `isr.S` and `syscall_entry.S` on a machine with byte memory. The CPU aligns
the stack pointer, pushes the interrupted state and enters a stub; the stub builds a record on
the stack and passes its address to a C function, whose registers and memory after the return
are arbitrary within the calling convention. The records are read from memory with the layout
of the C structures.
-/

namespace Mcsos.Entry
open StackMachine WordArithmetic Kernel Syscall

inductive Register
  | rax | rbx | rcx | rdx | rbp | rsp | rdi | rsi
  | r8 | r9 | r10 | r11 | r12 | r13 | r14 | r15
  deriving DecidableEq, Repr

structure Cpu where
  regs : Register → UInt64
  rip : UInt64
  cs : UInt64
  rflags : UInt64
  ss : UInt64
  mem : AddressSpace

def calleeSaved : List Register := [.rbx, .rbp, .r12, .r13, .r14, .r15]

/-- The CPU enters a handler: it aligns the stack pointer down to 16 and pushes `ss`, `rsp`,
`rflags`, `cs`, `rip` and the error code if there is one. -/
def Cpu.deliver (c : Cpu) (errorCode : Option UInt64) : StackMachine.Machine Register :=
  ([c.ss, c.regs .rsp, c.rflags, c.cs, c.rip] ++ errorCode.toList).foldl
    (StackMachine.Machine.push .rsp)
    ⟨Function.update c.regs .rsp (c.regs .rsp &&& ~~~(16 - 1)),
      decide ((c.rflags >>> 10) &&& 1 ≠ 0), c.mem⟩

def hasErrorCode (vector : Fin 32) : Bool :=
  decide (vector.val ∈ [8, 10, 11, 12, 13, 14, 17, 21, 29, 30])

def hardwareCode (vector : Fin 32) (code : UInt64) : Option UInt64 :=
  if hasErrorCode vector then some code else none

def iretq (m : StackMachine.Machine Register) : Cpu where
  regs := Function.update m.regs .rsp (readWord m.mem (m.regs .rsp + 24))
  rip := readWord m.mem (m.regs .rsp)
  cs := readWord m.mem (m.regs .rsp + 8)
  rflags := readWord m.mem (m.regs .rsp + 16)
  ss := readWord m.mem (m.regs .rsp + 32)
  mem := m.mem

def isrStubCode (vector : Fin 32) : List (Instr Register) :=
  if isrErr vector then [.pushImm (UInt64.ofNat vector.val)]
  else [.pushImm 0, .pushImm (UInt64.ofNat vector.val)]

def isrCommonPushed : List Register :=
  [.rax, .rbx, .rcx, .rdx, .rbp, .rdi, .rsi, .r8, .r9, .r10, .r11, .r12, .r13, .r14, .r15]

def isrCommonPopped : List Register :=
  [.r15, .r14, .r13, .r12, .r11, .r10, .r9, .r8, .rsi, .rdi, .rbp, .rdx, .rcx, .rbx, .rax]

def isrCommonEntry : List (Instr Register) :=
  isrCommonPushed.map .push ++ [.mov .rsp .rdi]

def isrCommonExit : List (Instr Register) :=
  isrCommonPopped.map .pop ++ [.addImm 16 .rsp]

def frameRegisters : List Register :=
  [.r15, .r14, .r13, .r12, .r11, .r10, .r9, .r8, .rsi, .rdi, .rbp, .rdx, .rcx, .rbx, .rax]

def frameRegister (k : Fin 15) : Register := frameRegisters.get ⟨k.val, k.isLt⟩

def trapFrameAt (m : AddressSpace) (a : UInt64) : TrapFrame where
  registers := fun k => readWord m (a + UInt64.ofNat (8 * k.val))
  vector := readWord m (a + 120)
  errorCode := readWord m (a + 128)
  rip := readWord m (a + 136)
  cs := readWord m (a + 144)
  rflags := readWord m (a + 152)

def atTrapDispatch (c : Cpu) (vector : Fin 32) (code : UInt64) : StackMachine.Machine Register :=
  execAll .rsp (c.deliver (hardwareCode vector code)) (isrStubCode vector ++ isrCommonEntry)

def afterTrapDispatch (m : StackMachine.Machine Register) (k : Outcome Register) :
    StackMachine.Machine Register :=
  execAll .rsp (m.returned .rsp calleeSaved k) isrCommonExit

def int80Entry : List (Instr Register) :=
  [.cld, .subImm 64 .rsp, .store .rax 0 .rsp, .store .rdi 8 .rsp, .store .rsi 16 .rsp,
    .store .rdx 24 .rsp, .store .r10 32 .rsp, .store .r8 40 .rsp, .store .r9 48 .rsp,
    .storeImm 0 56 .rsp, .mov .rsp .rdi]

def int80Exit : List (Instr Register) := [.load 56 .rsp .rax, .addImm 64 .rsp]

def syscallFrameAt (m : AddressSpace) (a : UInt64) : SyscallFrame where
  nr := readWord m a
  arg0 := readWord m (a + 8)
  arg1 := readWord m (a + 16)
  arg2 := readWord m (a + 24)
  arg3 := readWord m (a + 32)
  arg4 := readWord m (a + 40)
  arg5 := readWord m (a + 48)
  ret := (readWord m (a + 56)).toInt64

variable {ε : Type*}

/-- `mcsos_syscall_dispatch_frame` called with the frame pointer in `rdi`: apart from what the
calling convention allows, only the field `ret` of the frame is written. -/
def callDispatchFrame (s : SyscallState ε) (m : StackMachine.Machine Register)
    (k : Outcome Register) : Option (StackMachine.Machine Register × SyscallState ε) :=
  let frame := if m.regs .rdi = 0 then none else some (syscallFrameAt m.mem (m.regs .rdi))
  match mcsosSyscallDispatchFrame s frame with
  | none => none
  | some (none, s) => some (m.returned .rsp calleeSaved k, s)
  | some (some frame, s) =>
      some ({ m.returned .rsp calleeSaved k with
        mem := writeWord k.mem (m.regs .rdi + 56) frame.ret.toUInt64 }, s)

def x86_64SyscallInt80Stub (s : SyscallState ε) (m : StackMachine.Machine Register)
    (k : Outcome Register) : Option (StackMachine.Machine Register × SyscallState ε) :=
  (callDispatchFrame s (execAll .rsp m int80Entry) k).map
    (fun r => (execAll .rsp r.1 int80Exit, r.2))

section Delivery

def Cpu.stackBase (c : Cpu) : UInt64 := c.regs .rsp &&& ~~~(16 - 1)

def Cpu.interrupted (c : Cpu) : Interrupted where
  registers := fun k => c.regs (frameRegister k)
  rip := c.rip
  cs := c.cs
  rflags := c.rflags
  rsp := c.regs .rsp
  ss := c.ss

theorem length_stack_le (i : Interrupted) (errorCode : Option UInt64) :
    (i.stack errorCode).length ≤ 6 := by
  cases errorCode with
  | none => exact Nat.le_succ 5
  | some code => exact le_refl 6

theorem deliver_stack (c : Cpu) (errorCode : Option UInt64) :
    StackAt .rsp c.stackBase (c.interrupted.stack errorCode) (c.deliver errorCode) ∧
      ∀ r, r ≠ .rsp → (c.deliver errorCode).regs r = c.regs r := by
  have hempty : StackAt .rsp c.stackBase []
      (⟨Function.update c.regs .rsp c.stackBase, decide ((c.rflags >>> 10) &&& 1 ≠ 0), c.mem⟩ :
        StackMachine.Machine Register) := by
    apply StackAt.empty
    exact Function.update_self Register.rsp c.stackBase c.regs
  have hwords : ([c.ss, c.regs .rsp, c.rflags, c.cs, c.rip] ++ errorCode.toList).reverse ++ [] =
      c.interrupted.stack errorCode := by
    cases errorCode <;> rfl
  have hlength : ([c.ss, c.regs .rsp, c.rflags, c.cs, c.rip] ++ errorCode.toList).length ≤ 6 := by
    cases errorCode <;> simp
  obtain ⟨hstack, hregs⟩ := hempty.pushValues
    ([c.ss, c.regs .rsp, c.rflags, c.cs, c.rip] ++ errorCode.toList)
    (by rw [List.length_nil]; omega)
  rw [hwords] at hstack
  constructor
  · exact hstack
  · intro r hr
    exact (hregs r hr).trans (Function.update_of_ne hr _ _)

theorem stackBase_aligned (c : Cpu) : c.stackBase.toNat % 16 = 0 := by
  have hround := toNat_and_not_low (c.regs .rsp) 16 4 rfl
  rw [Cpu.stackBase, hround]
  omega

end Delivery

section Exceptions

def callStack (c : Cpu) (vector : Fin 32) (code : UInt64) : List UInt64 :=
  frameRegisters.map c.regs ++ [UInt64.ofNat vector.val, (hardwareCode vector code).getD 0] ++
    [c.rip, c.cs, c.rflags, c.regs .rsp, c.ss]

theorem length_callStack (c : Cpu) (vector : Fin 32) (code : UInt64) :
    (callStack c vector code).length = 22 := rfl

theorem isrStub_stack (c : Cpu) (vector : Fin 32) (code : UInt64) :
    isrStub vector (c.interrupted.stack (hardwareCode vector code)) =
      [UInt64.ofNat vector.val, (hardwareCode vector code).getD 0] ++
        [c.rip, c.cs, c.rflags, c.regs .rsp, c.ss] := by
  have hsame : hasErrorCode vector = isrErr vector := rfl
  rw [isrStub, hardwareCode, hsame]
  by_cases h : isrErr vector = true
  · rw [if_pos h, if_pos h]
    rfl
  · rw [if_neg h, if_neg h]
    rfl

theorem isrStubCode_stack {base : UInt64} {ws : List UInt64} {m : StackMachine.Machine Register}
    (h : StackAt .rsp base ws m) (vector : Fin 32) (hroom : 8 * (2 + ws.length) ≤ 2 ^ 64) :
    StackAt .rsp base (isrStub vector ws) (execAll .rsp m (isrStubCode vector)) ∧
      ∀ r, r ≠ .rsp → (execAll .rsp m (isrStubCode vector)).regs r = m.regs r := by
  rw [isrStub, isrStubCode]
  by_cases herr : isrErr vector = true
  · rw [if_pos herr, if_pos herr]
    exact h.pushValues [UInt64.ofNat vector.val] (by rw [List.length_singleton]; omega)
  · rw [if_neg herr, if_neg herr]
    exact h.pushValues [0, UInt64.ofNat vector.val] hroom

theorem atTrapDispatch_stack (c : Cpu) (vector : Fin 32) (code : UInt64) :
    StackAt .rsp c.stackBase (callStack c vector code) (atTrapDispatch c vector code) ∧
      (atTrapDispatch c vector code).regs .rdi = (atTrapDispatch c vector code).regs .rsp := by
  have hsix := length_stack_le c.interrupted (hardwareCode vector code)
  obtain ⟨hcpu, hkept⟩ := deliver_stack c (hardwareCode vector code)
  obtain ⟨hstub, hkept'⟩ := isrStubCode_stack hcpu vector (by omega)
  rw [isrStub_stack] at hstub
  obtain ⟨hpushed, -⟩ := hstub.pushAll (by decide : Register.rsp ∉ isrCommonPushed)
    (by rw [List.length_append]; simp [isrCommonPushed])
  have hregs : (isrCommonPushed.map (execAll .rsp (c.deliver (hardwareCode vector code))
      (isrStubCode vector)).regs).reverse = frameRegisters.map c.regs := by
    have hmap : isrCommonPushed.map (execAll .rsp (c.deliver (hardwareCode vector code))
        (isrStubCode vector)).regs = isrCommonPushed.map c.regs := by
      apply List.map_congr_left
      intro r hr
      have hne : r ≠ .rsp := fun heq => absurd (heq ▸ hr) (by decide)
      exact (hkept' r hne).trans (hkept r hne)
    rw [hmap]
    rfl
  rw [hregs, ← List.append_assoc] at hpushed
  have hcall : atTrapDispatch c vector code = exec .rsp (execAll .rsp (execAll .rsp
      (c.deliver (hardwareCode vector code)) (isrStubCode vector))
      (isrCommonPushed.map .push)) (.mov .rsp .rdi) := by
    rw [atTrapDispatch, isrCommonEntry, execAll_append, execAll_append]
    rfl
  rw [hcall]
  exact ⟨hpushed.mov .rsp (by decide), rfl⟩

theorem trapFrameAt_eq {m : AddressSpace} {a : UInt64} {regs : Register → UInt64}
    {vector errorCode rip cs rflags : UInt64} {rest : List UInt64}
    (h : Holds m a (frameRegisters.map regs ++ [vector, errorCode] ++
      (rip :: cs :: rflags :: rest))) :
    trapFrameAt m a =
      ⟨fun k => regs (frameRegister k), vector, errorCode, rip, cs, rflags⟩ := by
  have hregs : (fun k : Fin 15 => readWord m (a + UInt64.ofNat (8 * k.val))) =
      fun k => regs (frameRegister k) := by
    funext k
    apply h.get
    fin_cases k <;> rfl
  have hvector := h.get (i := 15) rfl
  have hcode := h.get (i := 16) rfl
  have hrip := h.get (i := 17) rfl
  have hcs := h.get (i := 18) rfl
  have hflags := h.get (i := 19) rfl
  rw [trapFrameAt, hregs]
  exact congr (congr (congr (congr (congrArg _ hvector) hcode) hrip) hcs) hflags

theorem frameRegister_of_ne {r : Register} (h : r ≠ .rsp) : ∃ k, frameRegister k = r := by
  revert h
  cases r <;> decide

theorem frameRegister_ne_rsp (k : Fin 15) : frameRegister k ≠ .rsp := by
  revert k
  decide

theorem popped_frameRegister (f : Register → UInt64) (k : Fin 15) :
    (isrCommonPopped.map f)[k.val]? = some (f (frameRegister k)) := by
  fin_cases k <;> rfl

theorem afterTrapDispatch_spec (m : StackMachine.Machine Register) (k : Outcome Register) :
    (∀ j, (afterTrapDispatch m k).regs (frameRegister j) =
        (trapFrameAt k.mem (m.regs .rsp)).registers j) ∧
      (afterTrapDispatch m k).regs .rsp = m.regs .rsp + 136 ∧
      (afterTrapDispatch m k).mem = k.mem := by
  have hrsp : (m.returned .rsp calleeSaved k).regs .rsp = m.regs .rsp :=
    m.returned_kept k (.inl rfl)
  have hstack : StackAt .rsp (m.regs .rsp + 136)
      (words k.mem (m.regs .rsp) 15 ++ (words k.mem (m.regs .rsp + 120) 2 ++ []))
      (m.returned .rsp calleeSaved k) := by
    constructor
    · rw [hrsp]
      exact (add_sub_cancel_right _ _).symm
    · rw [hrsp, List.append_nil]
      have hsplit := words_append k.mem (m.regs .rsp) 15 2
      exact hsplit ▸ holds_words k.mem (m.regs .rsp) 17
  have hlen : (words k.mem (m.regs .rsp) 15).length = isrCommonPopped.length :=
    length_words k.mem (m.regs .rsp) 15
  obtain ⟨hpopped, hmap, hmem, -⟩ := hstack.popAll hlen (by decide) (by decide)
  have hcode : afterTrapDispatch m k = exec .rsp (execAll .rsp
      (m.returned .rsp calleeSaved k) (isrCommonPopped.map .pop)) (.addImm 16 .rsp) := by
    rw [afterTrapDispatch, isrCommonExit, execAll_append]
    rfl
  have hkept : ∀ r, r ≠ .rsp → (afterTrapDispatch m k).regs r = (execAll .rsp
      (m.returned .rsp calleeSaved k) (isrCommonPopped.map .pop)).regs r := by
    intro r hr
    rw [hcode]
    exact Function.update_of_ne hr _ _
  refine ⟨?_, ?_, ?_⟩
  · intro j
    have hword := popped_frameRegister (execAll .rsp (m.returned .rsp calleeSaved k)
      (isrCommonPopped.map .pop)).regs j
    rw [hmap] at hword
    rw [hkept _ (frameRegister_ne_rsp j)]
    exact ((holds_words k.mem (m.regs .rsp) 15).get hword).symm
  · have hreleased := hpopped.release.pointer
    rw [length_words] at hreleased
    rw [hcode]
    exact hreleased.trans (sub_zero _)
  · rw [hcode]
    exact hmem

theorem iretq_eq {m : StackMachine.Machine Register} {rip cs rflags rsp ss : UInt64}
    (h : Holds m.mem (m.regs .rsp) [rip, cs, rflags, rsp, ss]) :
    iretq m = ⟨Function.update m.regs .rsp rsp, rip, cs, rflags, ss, m.mem⟩ := by
  have hcs := h.get (i := 1) rfl
  have hflags := h.get (i := 2) rfl
  have hrsp := h.get (i := 3) rfl
  have hss := h.get (i := 4) rfl
  have hregs := congrArg (Function.update m.regs .rsp) hrsp
  rw [iretq, h.1]
  exact congr (congr (congr (congr (congr (congrArg Cpu.mk hregs) rfl) hcs) hflags) hss) rfl

/-- The frame is faithful for every vector and error code. Whatever the dispatcher leaves, the
registers are restored from the frame and `iretq` finds the pointer at the saved `rip`; if the
dispatcher leaves the 22 words alone, the interrupted state resumes. -/
theorem exception_entry_transparent (c : Cpu) (vector : Fin 32) (code : UInt64)
    (k : Outcome Register) :
    trapFrameAt (atTrapDispatch c vector code).mem ((atTrapDispatch c vector code).regs .rdi) =
        ⟨fun j => c.regs (frameRegister j), UInt64.ofNat vector.val,
          (hardwareCode vector code).getD 0, c.rip, c.cs, c.rflags⟩ ∧
      isrCommon c.interrupted.registers
          (isrStub vector (c.interrupted.stack (hardwareCode vector code))) =
        some (trapFrameAt (atTrapDispatch c vector code).mem
          ((atTrapDispatch c vector code).regs .rdi)) ∧
      (∀ j, (afterTrapDispatch (atTrapDispatch c vector code) k).regs (frameRegister j) =
        (trapFrameAt k.mem ((atTrapDispatch c vector code).regs .rdi)).registers j) ∧
      (afterTrapDispatch (atTrapDispatch c vector code) k).regs .rsp =
        (atTrapDispatch c vector code).regs .rdi + 136 ∧
      (iretq (afterTrapDispatch (atTrapDispatch c vector code) k)).rip =
        (trapFrameAt k.mem ((atTrapDispatch c vector code).regs .rdi)).rip ∧
      (k.Keeps .rsp (atTrapDispatch c vector code) 176 →
        (∀ r, r ≠ .rsp →
          (afterTrapDispatch (atTrapDispatch c vector code) k).regs r = c.regs r) ∧
        iretq (afterTrapDispatch (atTrapDispatch c vector code) k) = { c with mem := k.mem }) := by
  obtain ⟨hstack, hrdi⟩ := atTrapDispatch_stack c vector code
  obtain ⟨hregs, hrsp, hmem⟩ := afterTrapDispatch_spec (atTrapDispatch c vector code) k
  have hframe := trapFrameAt_eq hstack.holds
  rw [hrdi]
  refine ⟨hframe, ?_, hregs, hrsp, ?_, ?_⟩
  · rw [isrStub_stack, hframe]
    rfl
  · rw [iretq, hrsp, hmem]
    rfl
  · intro hkeeps
    have hkept : Holds k.mem ((atTrapDispatch c vector code).regs .rsp)
        (callStack c vector code) := by
      apply hstack.holds.congr
      · rw [length_callStack]
        decide
      · rw [length_callStack]
        exact hkeeps
    have hrestored : ∀ r, r ≠ .rsp →
        (afterTrapDispatch (atTrapDispatch c vector code) k).regs r = c.regs r := by
      intro r hr
      obtain ⟨j, rfl⟩ := frameRegister_of_ne hr
      rw [hregs j, trapFrameAt_eq hkept]
    have hfive : Holds (afterTrapDispatch (atTrapDispatch c vector code) k).mem
        ((afterTrapDispatch (atTrapDispatch c vector code) k).regs .rsp)
        [c.rip, c.cs, c.rflags, c.regs .rsp, c.ss] := by
      rw [hmem, hrsp]
      exact (holds_append.mp hkept).2
    refine ⟨hrestored, ?_⟩
    have hfile : Function.update (afterTrapDispatch (atTrapDispatch c vector code) k).regs .rsp
        (c.regs .rsp) = c.regs := by
      funext r
      by_cases hr : r = .rsp
      · rw [hr, Function.update_self]
      · rw [Function.update_of_ne hr, hrestored r hr]
    rw [iretq_eq hfive, hfile, hmem]

def sampleCpu : Cpu where
  regs := fun r => if r = .rsp then 0x1000 else if r = .rax then 9 else 7
  rip := 0x400000
  cs := 0x28
  rflags := 0x202
  ss := 0x30
  mem := fun _ => 0

theorem exception_entry_transparent_breakpoint :
    iretq (afterTrapDispatch (atTrapDispatch sampleCpu 3 0)
        ⟨fun _ => 0, (atTrapDispatch sampleCpu 3 0).mem⟩) =
      { sampleCpu with mem := (atTrapDispatch sampleCpu 3 0).mem } :=
  ((exception_entry_transparent sampleCpu 3 0 _).2.2.2.2.2 (fun _ _ => rfl)).2

end Exceptions

section SystemCall

def int80Arguments : List Register := [.rax, .rdi, .rsi, .rdx, .r10, .r8, .r9]

theorem int80Entry_eq : int80Entry = [.cld, .subImm 64 .rsp] ++
    (storeSlots .rsp int80Arguments 0 ++ [.storeImm 0 56 .rsp, .mov .rsp .rdi]) := rfl

theorem length_int80Frame (regs : Register → UInt64) (ret : UInt64) (ws : List UInt64) :
    (int80Arguments.map regs ++ ([ret] ++ ws)).length = 8 + ws.length := by
  rw [List.length_append, List.length_append, List.length_map, List.length_singleton,
    ← Nat.add_assoc]
  rfl

theorem int80Entry_stack {base : UInt64} {ws : List UInt64} {m : StackMachine.Machine Register}
    (h : StackAt .rsp base ws m) (hroom : 8 * (8 + ws.length) ≤ 2 ^ 64) :
    StackAt .rsp base (int80Arguments.map m.regs ++ ([0] ++ ws)) (execAll .rsp m int80Entry) ∧
      (execAll .rsp m int80Entry).regs .rdi = (execAll .rsp m int80Entry).regs .rsp ∧
      (execAll .rsp m int80Entry).regs .rsp = m.regs .rsp - 64 ∧
      ∀ r, r ≠ .rsp → r ≠ .rdi → (execAll .rsp m int80Entry).regs r = m.regs r := by
  have hcld : StackAt .rsp base ws (exec .rsp m .cld) := ⟨h.pointer, h.holds⟩
  have hreserved := hcld.reserve 8
  have hsplit := words_append m.mem (m.regs .rsp - 64) 7 1
  have hstart : StackAt .rsp base ([] ++ (words m.mem (m.regs .rsp - 64) 7 ++
      (words m.mem (m.regs .rsp - 64 + UInt64.ofNat (8 * 7)) 1 ++ ws)))
      (execAll .rsp m [.cld, .subImm 64 .rsp]) := by
    rw [List.nil_append, ← List.append_assoc, ← hsplit]
    exact hreserved
  have hlen : (words m.mem (m.regs .rsp - 64) 7).length = int80Arguments.length :=
    length_words _ _ _
  obtain ⟨hstored, hregs⟩ := hstart.storeAll hlen
    (by rw [List.length_append, length_words, length_words, List.length_nil]; omega)
  have hmap : int80Arguments.map (execAll .rsp m [.cld, .subImm 64 .rsp]).regs =
      int80Arguments.map m.regs := rfl
  rw [hmap, List.nil_append] at hstored
  have hseven : (int80Arguments.map m.regs).length = 7 := rfl
  -- the slot of the return value is the last of the eight that were reserved
  have hslot : (int80Arguments.map m.regs ++
      (words m.mem (m.regs .rsp - 64 + UInt64.ofNat (8 * 7)) 1 ++ ws)).set 7 0 =
      int80Arguments.map m.regs ++ ([0] ++ ws) := rfl
  have hzero := hstored.storeImm 0 (i := 7)
    (by rw [List.length_append, List.length_append, length_words, hseven]; omega)
    (by rw [List.length_append, List.length_append, length_words, hseven]; omega)
  rw [hslot] at hzero
  have hcode : execAll .rsp m int80Entry = exec .rsp (exec .rsp (execAll .rsp
      (execAll .rsp m [.cld, .subImm 64 .rsp]) (storeSlots .rsp int80Arguments 0))
      (.storeImm 0 56 .rsp)) (.mov .rsp .rdi) := by
    rw [int80Entry_eq, execAll_append, execAll_append]
    rfl
  have hrest : ∀ r, r ≠ .rdi → (execAll .rsp m int80Entry).regs r =
      (execAll .rsp m [.cld, .subImm 64 .rsp]).regs r := by
    intro r hr
    rw [hcode]
    exact (Function.update_of_ne hr _ _).trans (congrFun hregs r)
  refine ⟨?_, ?_, ?_, ?_⟩
  · rw [hcode]
    exact hzero.mov .rsp (by decide)
  · rw [hcode]
    rfl
  · rw [hrest .rsp (by decide)]
    rfl
  · intro r hr hrdi
    rw [hrest r hrdi]
    exact Function.update_of_ne hr _ _

theorem syscallFrameAt_eq {m : AddressSpace} {a ret : UInt64} {regs : Register → UInt64}
    {rest : List UInt64} (h : Holds m a (int80Arguments.map regs ++ ([ret] ++ rest))) :
    syscallFrameAt m a = ⟨regs .rax, regs .rdi, regs .rsi, regs .rdx, regs .r10, regs .r8,
      regs .r9, ret.toInt64⟩ := by
  have h1 := h.get (i := 1) rfl
  have h2 := h.get (i := 2) rfl
  have h3 := h.get (i := 3) rfl
  have h4 := h.get (i := 4) rfl
  have h5 := h.get (i := 5) rfl
  have h6 := h.get (i := 6) rfl
  have h7 := congrArg UInt64.toInt64 (h.get (i := 7) rfl)
  rw [syscallFrameAt]
  exact congr (congr (congr (congr (congr (congr (congr (congrArg _ h.1) h1) h2) h3) h4) h5)
    h6) h7

theorem int80Exit_spec {regs : Register → UInt64} {ret : UInt64} {ws : List UInt64}
    {r : StackMachine.Machine Register}
    (h : Holds r.mem (r.regs .rsp) (int80Arguments.map regs ++ ([ret] ++ ws))) :
    (execAll .rsp r int80Exit).regs .rax = ret ∧
      (execAll .rsp r int80Exit).regs .rsp = r.regs .rsp + 64 ∧
      Holds (execAll .rsp r int80Exit).mem (r.regs .rsp + 64) ws ∧
      ∀ q, q ≠ .rsp → q ≠ .rax → (execAll .rsp r int80Exit).regs q = r.regs q := by
  refine ⟨h.get (i := 7) rfl, rfl, ?_, ?_⟩
  · rw [← List.append_assoc] at h
    exact (holds_append.mp h).2
  · intro q hsp hax
    exact (Function.update_of_ne hsp _ _).trans (Function.update_of_ne hax _ _)

structure Int80Returns (m : StackMachine.Machine Register) (ret : UInt64)
    (t : StackMachine.Machine Register) : Prop where
  value : t.regs .rax = ret
  pointer : t.regs .rsp = m.regs .rsp
  frame : words t.mem (m.regs .rsp) 5 = words m.mem (m.regs .rsp) 5
  saved : ∀ r ∈ calleeSaved, t.regs r = m.regs r

theorem int80_returns (m : StackMachine.Machine Register) (k : Outcome Register) (ret : UInt64)
    {mem : AddressSpace}
    (h : Holds mem (m.regs .rsp - 64) (int80Arguments.map m.regs ++
      ([ret] ++ words m.mem (m.regs .rsp) 5))) :
    Int80Returns m ret (execAll .rsp
      { (execAll .rsp m int80Entry).returned .rsp calleeSaved k with mem := mem } int80Exit) := by
  obtain ⟨-, -, hsp, hkept⟩ := int80Entry_stack (.ofWords .rsp m 5)
    (by rw [length_words]; decide)
  have hreturned : ((execAll .rsp m int80Entry).returned .rsp calleeSaved k).regs .rsp =
      m.regs .rsp - 64 := (StackMachine.Machine.returned_kept _ k (.inl rfl)).trans hsp
  have hback : m.regs .rsp - 64 + 64 = m.regs .rsp := UInt64.sub_add_cancel _ _
  obtain ⟨hvalue, hpointer, hframe, hothers⟩ := int80Exit_spec
    (r := { (execAll .rsp m int80Entry).returned .rsp calleeSaved k with mem := mem })
    (hreturned.symm ▸ h)
  rw [hreturned, hback] at hpointer hframe
  refine ⟨hvalue, hpointer, hframe.words_eq, ?_⟩
  intro r hr
  have hne : r ≠ .rsp ∧ r ≠ .rax ∧ r ≠ .rdi := by
    revert r
    decide
  rw [hothers r hne.1 hne.2.1]
  exact (StackMachine.Machine.returned_kept _ k (.inr hr)).trans (hkept r hne.1 hne.2.2)

theorem int80_frame (m : StackMachine.Machine Register) :
    Holds (execAll .rsp m int80Entry).mem (m.regs .rsp - 64)
      (int80Arguments.map m.regs ++ ([0] ++ words m.mem (m.regs .rsp) 5)) ∧
    (execAll .rsp m int80Entry).regs .rdi = m.regs .rsp - 64 ∧
    ∀ k : Outcome Register, k.Keeps .rsp (execAll .rsp m int80Entry) 104 →
      Holds k.mem (m.regs .rsp - 64)
        (int80Arguments.map m.regs ++ ([0] ++ words m.mem (m.regs .rsp) 5)) := by
  obtain ⟨hcall, hrdi, hsp, -⟩ := int80Entry_stack (.ofWords .rsp m 5)
    (by rw [length_words]; decide)
  have hholds := hcall.holds
  rw [hsp] at hrdi hholds
  refine ⟨hholds, hrdi, ?_⟩
  intro k hkeeps
  apply hholds.congr
  · rw [length_int80Frame, length_words]
    decide
  · rw [length_int80Frame, length_words]
    intro x hx
    apply hkeeps
    rw [hsp]
    exact hx

theorem stub_none_frame (s : SyscallState ε) {m : StackMachine.Machine Register}
    (k : Outcome Register) (hnull : (execAll .rsp m int80Entry).regs .rdi = 0) :
    x86_64SyscallInt80Stub s m k = some (execAll .rsp
      ((execAll .rsp m int80Entry).returned .rsp calleeSaved k) int80Exit, s) := by
  rw [x86_64SyscallInt80Stub, callDispatchFrame, if_pos hnull]
  rfl

theorem stub_frame (s : SyscallState ε) (m : StackMachine.Machine Register)
    (k : Outcome Register) (hframe : (execAll .rsp m int80Entry).regs .rdi ≠ 0) :
    x86_64SyscallInt80Stub s m k =
      (mcsosSyscallDispatch s (m.regs .rax) (m.regs .rdi) (m.regs .rsi) (m.regs .rdx)
        (m.regs .r10) (m.regs .r8) (m.regs .r9)).map (fun r => (execAll .rsp
          { (execAll .rsp m int80Entry).returned .rsp calleeSaved k with
            mem := writeWord k.mem (m.regs .rsp - 64 + 56) r.1.toUInt64 } int80Exit, r.2)) := by
  obtain ⟨hholds, hrdi, -⟩ := int80_frame m
  rw [x86_64SyscallInt80Stub, callDispatchFrame, if_neg hframe, hrdi, syscallFrameAt_eq hholds,
    mcsosSyscallDispatchFrame]
  cases mcsosSyscallDispatch s (m.regs .rax) (m.regs .rdi) (m.regs .rsi) (m.regs .rdx)
    (m.regs .r10) (m.regs .r8) (m.regs .r9) with
  | none => rfl
  | some r => rfl

theorem deliver_pointer_ne (c : Cpu) : (c.deliver none).regs .rsp ≠ 64 := by
  obtain ⟨hstack, -⟩ := deliver_stack c none
  have hlength : (c.interrupted.stack none).length = 5 := rfl
  have haligned := hstack.aligned_iff (stackBase_aligned c) (by rw [hlength]; decide)
  intro heq
  rw [heq, hlength] at haligned
  exact absurd (haligned.mp rfl) (by decide)

/-- The stub computes `mcsos_syscall_dispatch` of the entry registers. On every return the stack
pointer, the interrupt frame above it and the callee-saved registers are those of the entry;
the value needs a frame that is not at address zero, which no entry by the CPU has. -/
theorem int80_computes_dispatch (s : SyscallState ε) (m : StackMachine.Machine Register)
    (k : Outcome Register) (hkeeps : k.Keeps .rsp (execAll .rsp m int80Entry) 104) :
    (∀ t s', x86_64SyscallInt80Stub s m k = some (t, s') →
        t.regs .rsp = m.regs .rsp ∧
        words t.mem (m.regs .rsp) 5 = words m.mem (m.regs .rsp) 5 ∧
        ∀ r ∈ calleeSaved, t.regs r = m.regs r) ∧
      (m.regs .rsp ≠ 64 →
        (x86_64SyscallInt80Stub s m k).map (fun r => ((r.1.regs .rax).toInt64, r.2)) =
          mcsosSyscallDispatch s (m.regs .rax) (m.regs .rdi) (m.regs .rsi) (m.regs .rdx)
            (m.regs .r10) (m.regs .r8) (m.regs .r9) ∧
        (m.regs .rax ≥ sysMax → ∃ t, x86_64SyscallInt80Stub s m k = some (t, s) ∧
          (t.regs .rax).toInt64 = -38)) ∧
      ∀ c : Cpu, (c.deliver none).regs .rsp ≠ 64 := by
  obtain ⟨-, hrdi, hkept⟩ := int80_frame m
  have hreturns : ∀ ret : Int64, Int80Returns m ret.toUInt64 (execAll .rsp
      { (execAll .rsp m int80Entry).returned .rsp calleeSaved k with
        mem := writeWord k.mem (m.regs .rsp - 64 + 56) ret.toUInt64 } int80Exit) := by
    intro ret
    apply int80_returns
    exact (hkept k hkeeps).set (i := 7) ret.toUInt64
      (by rw [length_int80Frame]; omega) (by rw [length_int80Frame, length_words]; decide)
  refine ⟨?_, ?_, deliver_pointer_ne⟩
  · intro t s' hstub
    by_cases hnull : (execAll .rsp m int80Entry).regs .rdi = 0
    · rw [stub_none_frame s k hnull] at hstub
      have hreturn := int80_returns m k 0 (hkept k hkeeps)
      cases hstub
      exact ⟨hreturn.pointer, hreturn.frame, hreturn.saved⟩
    · rw [stub_frame s m k hnull, Option.map_eq_some_iff] at hstub
      obtain ⟨r, -, hr⟩ := hstub
      have hreturn := hreturns r.1
      cases hr
      exact ⟨hreturn.pointer, hreturn.frame, hreturn.saved⟩
  · intro hsp
    have hframe : (execAll .rsp m int80Entry).regs .rdi ≠ 0 := by
      rw [hrdi]
      exact sub_ne_zero.mpr hsp
    constructor
    · rw [stub_frame s m k hframe]
      cases mcsosSyscallDispatch s (m.regs .rax) (m.regs .rdi) (m.regs .rsi) (m.regs .rdx)
        (m.regs .r10) (m.regs .r8) (m.regs .r9) with
      | none => rfl
      | some r =>
        have hvalue := congrArg UInt64.toInt64 (hreturns r.1).value
        exact congrArg some (Prod.ext hvalue rfl)
    · intro hmax
      rw [stub_frame s m k hframe, mcsosSyscallDispatch, if_pos hmax]
      exact ⟨_, rfl, congrArg UInt64.toInt64 (hreturns Status.enosys.code).value⟩

def writingCpu : Cpu :=
  { sampleCpu with
    regs := fun r =>
      match r with
      | .rsp => 0x1000
      | .rax => 2
      | .rdi => 0x400010
      | .rsi => 5
      | _ => 7 }

def writingState : SyscallState UInt64 :=
  ⟨⟨none, none, none, some (fun buf len _ => (len.toInt64, buf))⟩, ⟨0x400000, 0x401000⟩,
    fun _ => 0, 0, []⟩

theorem int80_computes_dispatch_write :
    (x86_64SyscallInt80Stub writingState (writingCpu.deliver none)
        ⟨fun _ => 0, (execAll .rsp (writingCpu.deliver none) int80Entry).mem⟩).map
          (fun r => ((r.1.regs .rax).toInt64, r.2.env, r.2.log.length)) =
      some (5, 0x400010, 1) ∧
    ∃ t, x86_64SyscallInt80Stub writingState (sampleCpu.deliver none)
        ⟨fun _ => 0, (execAll .rsp (sampleCpu.deliver none) int80Entry).mem⟩ =
          some (t, writingState) ∧ (t.regs .rax).toInt64 = -38 := by
  have hkeeps : ∀ m : StackMachine.Machine Register,
      Outcome.Keeps ⟨fun _ => 0, m.mem⟩ .rsp m 104 := fun _ _ _ => rfl
  have hpointer : (writingCpu.deliver none).regs .rsp ≠ 64 := by decide
  have hwrite := ((int80_computes_dispatch writingState (writingCpu.deliver none) _
    (hkeeps _)).2.1 hpointer).1
  have hunknown := ((int80_computes_dispatch writingState (sampleCpu.deliver none) _
    (hkeeps _)).2.1 (by decide)).2 (by decide)
  refine ⟨?_, hunknown⟩
  have hresult := congrArg (Option.map (fun r : Int64 × SyscallState UInt64 =>
    (r.1, r.2.env, r.2.log.length))) hwrite
  rw [Option.map_map] at hresult
  exact hresult.trans (by decide)

end SystemCall

section Alignment

inductive EntryPath
  | exception (vector : Fin 32) (code : UInt64)
  | int80
  deriving DecidableEq, Repr

def EntryPath.atCall (c : Cpu) : EntryPath → StackMachine.Machine Register
  | .exception vector code => atTrapDispatch c vector code
  | .int80 => execAll .rsp (c.deliver none) int80Entry

/-- The exceptions push an even number of words in all, the system call five and eight. -/
theorem call_aligned_iff (c : Cpu) (e : EntryPath) :
    ((e.atCall c).regs .rsp).toNat % 16 = 0 ↔ e ≠ .int80 := by
  cases e with
  | exception vector code =>
    have hstack := (atTrapDispatch_stack c vector code).1
    have hiff := hstack.aligned_iff (stackBase_aligned c) (by rw [length_callStack]; decide)
    rw [length_callStack] at hiff
    exact iff_of_true (hiff.mpr rfl) (by simp)
  | int80 =>
    have hfive : (c.interrupted.stack none).length = 5 := rfl
    obtain ⟨hstack, -⟩ := int80Entry_stack (deliver_stack c none).1 (by rw [hfive]; decide)
    have hiff := hstack.aligned_iff (stackBase_aligned c)
      (by rw [length_int80Frame, hfive]; decide)
    rw [length_int80Frame, hfive] at hiff
    exact iff_of_false (fun h => absurd (hiff.mp h) (by decide)) (by simp)

theorem int80_call_misaligned :
    ((EntryPath.int80.atCall sampleCpu).regs .rsp) = 0xF98 ∧
      ((EntryPath.int80.atCall sampleCpu).regs .rsp).toNat % 16 ≠ 0 := by
  decide

end Alignment

end Mcsos.Entry
