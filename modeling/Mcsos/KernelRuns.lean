import Mcsos.Interrupts
import Mcsos.KmemInit
import Mcsos.Syscall

/-!
# The kernel after it has enabled interrupts

`kmain` loads the descriptor table, sets up the interrupt controllers and the timer, enables
interrupts, and then runs its self tests, tries the heap and the system calls, and halts with
interrupts disabled. A run interleaves the statements of `kmain` with timer interrupts at any
point. The default build is modelled, without the two intentional test traps.
-/

namespace Mcsos.Kernel
open Pic8259 Kmem Syscall ByteMemory BlockList StepRun

inductive Phase
  | selftest
  | heapInit
  | heapAlloc
  | heapFree
  | heapStats
  | syscallInit
  | setUserRegion
  | syscallPing
  | disable
  | halted
  deriving DecidableEq, Repr

/-- `raised` counts the timer interrupts that were raised while interrupts were enabled. -/
structure KernelState where
  machine : Machine
  phase : Phase
  kmem : KmemState
  probe : UInt64
  syscall : SyscallState Machine
  raised : ℕ

def m8BootHeapSize : UInt64 := 64 * 1024

def kGetTicks (m : Machine) : UInt64 × Machine := (m.gTimerTicks, m)
def kYieldCurrent (m : Machine) : Machine := m
def kExitCurrent (_code : Int32) (m : Machine) : Machine := m

def kWriteSerial (buf len : UInt64) (m : Machine) : Int64 × Machine :=
  -- The bytes go to the serial port, which is not part of the state.
  if buf = 0 then (-1, m) else (len.toInt64, m)

def kernelOps : SyscallOps Machine :=
  ⟨some kGetTicks, some kYieldCurrent, some kExitCurrent, some kWriteSerial⟩

def KernelState.panic (k : KernelState) : KernelState :=
  { k with machine := kernelPanicAt k.machine }

def KernelState.hang (k : KernelState) : KernelState :=
  { k with machine := { k.machine with derailed := true } }

def m4Selftest (image : KernelImage) (m : Machine) : Machine :=
  kernelAssert m (decide (image.kernelEnd > image.kernelStart)) fun m =>
    kernelAssert m (sizeofIdtEntry == 16) fun m =>
      kernelAssert m (m.idtr.base != 0) fun m =>
        kernelAssert m (m.idtr.limit == 4095) fun m => m

def m8HeapInit (image : KernelImage) (k : KernelState) : KernelState :=
  match kmemInit k.kmem image.m8BootHeap m8BootHeapSize with
  | none => k.hang
  | some (code, t) =>
      if code ≠ 0 then KernelState.panic { k with kmem := t }
      else { k with kmem := t, phase := .heapAlloc }

def m8HeapAlloc (k : KernelState) : KernelState :=
  match kmemAlloc k.kmem 128 with
  | none => k.hang
  | some (probe, t) =>
      if probe = 0 then KernelState.panic { k with kmem := t }
      else { k with kmem := t, probe := probe, phase := .heapFree }

def m8HeapFree (k : KernelState) : KernelState :=
  match kmemFreeChecked k.kmem k.probe with
  | none => k.hang
  | some (code, t) =>
      if code ≠ 0 then KernelState.panic { k with kmem := t }
      else { k with kmem := t, phase := .heapStats }

def m8HeapStats (k : KernelState) : KernelState :=
  match kmemGetStats k.kmem with
  | none => k.hang
  | some _ => { k with phase := .syscallInit }

def m10SyscallSmokeDirect (k : KernelState) : KernelState :=
  match mcsosSyscallDispatch { k.syscall with env := k.machine } 0 0 0 0 0 0 0 with
  | none => k.hang
  | some (r, s) =>
      if r ≠ 0x2605020A then KernelState.panic { k with syscall := s }
      else { k with syscall := s, phase := .disable }

def KernelState.advance (image : KernelImage) (k : KernelState) : KernelState :=
  match k.phase with
  | .selftest => { k with machine := m4Selftest image k.machine, phase := .heapInit }
  | .heapInit => m8HeapInit image k
  | .heapAlloc => m8HeapAlloc k
  | .heapFree => m8HeapFree k
  | .heapStats => m8HeapStats k
  | .syscallInit =>
      { k with syscall := mcsosSyscallInit k.syscall (some kernelOps), phase := .setUserRegion }
  | .setUserRegion =>
      { k with
        syscall := mcsosSyscallSetUserRegion k.syscall ⟨0x400000, 0x800000000000⟩
        phase := .syscallPing }
  | .syscallPing => m10SyscallSmokeDirect k
  | .disable =>
      { k with machine := { k.machine with interruptFlag := false }, phase := .halted }
  | .halted => k

def KernelState.raise (image : KernelImage) (k : KernelState) (i : Interrupted) : KernelState :=
  if k.machine.interruptFlag then
    match k.machine.pic1.request 0 with
    | none => { k with raised := k.raised + 1 }
    | some (vector, chip) =>
        { k with
          machine := interrupt image { k.machine with pic1 := chip } vector i
          raised := k.raised + 1 }
  else k

inductive KernelEvent
  | advance
  | irq0 (i : Interrupted)

def KernelState.step (image : KernelImage) (k : KernelState) (e : KernelEvent) :
    KernelState × Unit :=
  if k.machine.panicked || k.machine.derailed then (k, ())
  else
    match e with
    | .advance => (k.advance image, ())
    | .irq0 i => (k.raise image i, ())

structure Firmware where
  idt : Idt
  idtr : Idtr
  pic1 : Chip
  pic2 : Chip
  pit : Pit
  memory : Memory

def Firmware.machine (hw : Firmware) : Machine where
  idt := hw.idt
  idtr := ⟨0, 0⟩
  loadedIdtr := hw.idtr
  pic1 := hw.pic1
  pic2 := hw.pic2
  pit := hw.pit
  interruptFlag := false
  gTimerTicks := 0
  trapCount := 0
  panicked := false
  derailed := false
  entered := []
  eois := 0

def setUpInterrupts (image : KernelImage) (m : Machine) : Machine :=
  let m := x86_64IdtInit image m
  if m.panicked then m
  else
    let m := picRemap m picMasterOffset picSlaveOffset
    let m := picMaskAll m
    let m := picUnmaskIrq m 0
    let m := pitConfigureHz m 100
    { m with interruptFlag := true }

/-- The kernel after `sti`. Its static data start as zeros, the heap arena among them. -/
def boot (image : KernelImage) (hw : Firmware) : KernelState where
  machine := setUpInterrupts image hw.machine
  phase := .selftest
  kmem :=
    { mem := fillRange hw.memory image.m8BootHeap.toNat m8BootHeapSize.toNat 0
      gHeapBase := 0, gHeapEnd := 0, gHead := 0, gInitialized := false }
  probe := 0
  syscall := ⟨⟨none, none, none, none⟩, ⟨0, 0⟩, hw.memory, hw.machine, []⟩
  raised := 0

/-- Every timer interrupt so far went through a present gate to the dispatcher, was counted
once and acknowledged once, and the kernel has not panicked. -/
structure TimerServed (k : KernelState) : Prop where
  alive : k.machine.panicked = false ∧ k.machine.derailed = false
  gate : 0 < k.raised → (k.machine.idt 0x20).present = true
  entered : k.machine.entered.count 0x20 = k.raised
  ticks : k.machine.gTimerTicks = UInt64.ofNat k.raised
  acknowledged : k.machine.eois = k.raised

def Quiet (k : KernelState) : KernelEvent → Prop
  | .advance => True
  | .irq0 _ => k.machine.interruptFlag = false

structure Ready (image : KernelImage) (m : Machine) : Prop where
  alive : m.panicked = false ∧ m.derailed = false
  timerGate : m.idt 0x20 = gateEntry 0 0
  faultGate : m.idt 11 = gateEntry (image.exceptionStubs 11) idtGateInterrupt
  idtr : m.idtr = ⟨4095, image.idt⟩
  loaded : m.loadedIdtr = ⟨4095, image.idt⟩
  pic : m.pic1 = ⟨.ready, 0x20, 0xFE, 0⟩
  untouched : m.entered = [] ∧ m.gTimerTicks = 0 ∧ m.eois = 0

def HeapReady (image : KernelImage) (k : KernelState) : Prop :=
  match k.phase with
  | .selftest | .heapInit =>
      ∀ x, image.m8BootHeap.toNat ≤ x → x < image.m8BootHeap.toNat + 65536 → k.kmem.mem x = 0
  | .heapAlloc => Heap k.kmem [⟨65488, true⟩]
  | .heapFree =>
      Heap k.kmem ([] ++ ⟨128, false⟩ :: [⟨65312, true⟩]) ∧ k.probe.toNat = k.kmem.addr [] + 48
  | .heapStats => ∃ bs, Heap k.kmem bs
  | _ => True

structure Booted (image : KernelImage) (k : KernelState) : Prop where
  machine : Ready image k.machine
  heap : HeapReady image k
  raised : k.raised = 0

theorem Booted.served {image : KernelImage} {k : KernelState} (h : Booted image k) :
    TimerServed k where
  alive := h.machine.alive
  gate := fun hpos => absurd h.raised (Nat.ne_of_gt hpos)
  entered := by rw [h.machine.untouched.1, h.raised, List.count_nil]
  ticks := by rw [h.machine.untouched.2.1, h.raised]; rfl
  acknowledged := by rw [h.machine.untouched.2.2, h.raised]

theorem setUpInterrupts_eq (image : KernelImage) (hw : Firmware) :
    setUpInterrupts image hw.machine =
      { hw.machine with
        idt := idtTable image hw.idt
        idtr := ⟨4095, image.idt⟩
        loadedIdtr := ⟨4095, image.idt⟩
        pic1 := ⟨.ready, 0x20, 0xFE, 0⟩
        pic2 := ⟨.ready, 0x28, 0xFF, 0⟩
        pit := ⟨0x36, [0x9B, 0x2E]⟩
        interruptFlag := true } := by
  have halive : ¬ hw.machine.panicked = true := Bool.false_ne_true
  have hmaster : picMasterOffset &&& 0xF8 = 0x20 := by decide
  have hslave : picSlaveOffset &&& 0xF8 = 0x28 := by decide
  have hmask : (0xFF : UInt8) &&& (~~~((1 : UInt32) <<< (0 : UInt8).toUInt32)).toUInt8 = 0xFE := by
    decide
  simp only [setUpInterrupts, x86_64IdtInit_eq, if_neg halive, picRemap_eq, hmaster, hslave]
  rw [picMaskAll_eq rfl rfl, picUnmaskIrq_master rfl (by decide), pitConfigureHz_hundred]
  simp only [hmask]
  rfl

theorem setUpInterrupts_ready (image : KernelImage) (hw : Firmware) :
    Ready image (setUpInterrupts image hw.machine) := by
  have htimer : idtTable image hw.idt 0x20 = gateEntry 0 0 :=
    idtTable_absent image hw.idt (by decide) (by decide)
  have hfault : idtTable image hw.idt 11 =
      gateEntry (image.exceptionStubs 11) idtGateInterrupt := idtTable_exception image hw.idt 11
  rw [setUpInterrupts_eq]
  exact {
    alive := ⟨rfl, rfl⟩
    timerGate := by dsimp only; exact htimer
    faultGate := by dsimp only; exact hfault
    idtr := rfl
    loaded := rfl
    pic := rfl
    untouched := ⟨rfl, rfl, rfl⟩ }

theorem boot_booted (image : KernelImage) (hw : Firmware) : Booted image (boot image hw) where
  machine := setUpInterrupts_ready image hw
  heap := fun _ hlow hhigh => fillRange_inside hw.memory 0 ⟨hlow, hhigh⟩
  raised := rfl

section Advance

variable {image : KernelImage} {k : KernelState}

theorem Ready.m4Selftest_eq {m : Machine} (h : Ready image m) : m4Selftest image m = m := by
  have hbase : (m.idtr.base != 0) = true := by
    rw [h.idtr]
    exact bne_iff_ne.mpr image.idt_ne_zero
  have hlimit : (m.idtr.limit == 4095) = true := by rw [h.idtr]; rfl
  rw [m4Selftest, kernelAssert, if_pos (decide_eq_true image.kernel_extent), kernelAssert,
    if_pos (by decide), kernelAssert, if_pos hbase, kernelAssert, if_pos hlimit]

theorem Booted.m8HeapInit_booted (h : Booted image k) (hphase : k.phase = .heapInit) :
    Booted image (m8HeapInit image k) := by
  have hzero := h.heap
  simp only [HeapReady, hphase] at hzero
  have hextent := image.heap_extent
  have haligned := image.heap_aligned
  have hsize : m8BootHeapSize.toNat = 65536 := by decide
  have hclean : ∀ x, x % 16 = 0 → image.m8BootHeap.toNat ≤ x →
      x < image.m8BootHeap.toNat + m8BootHeapSize.toNat → ¬ MagicWord k.kmem.mem x := by
    intro x hx hlow hhigh
    have hload : loadU64 k.kmem.mem x = 0 :=
      loadU64_zero (fun y _ _ => hzero y (by omega) (by omega))
    rw [MagicWord, hload]
    decide
  have hspec := @kmemInit_aligned k.kmem image.m8BootHeap m8BootHeapSize image.heap_pos
    (by omega) (by omega) (by omega) (by omega) (by omega) hclean
  obtain ⟨t, hinit, hheap⟩ := hspec
  rw [hsize] at hheap
  simp only [m8HeapInit, hinit, ne_eq, not_true_eq_false, if_false]
  exact ⟨h.machine, hheap, h.raised⟩

theorem Booted.m8HeapAlloc_booted (h : Booted image k) (hphase : k.phase = .heapAlloc) :
    Booted image (m8HeapAlloc k) := by
  have hheap := h.heap
  simp only [HeapReady, hphase] at hheap
  rcases kmemAlloc_spec hheap 128 with ⟨-, hrefused⟩ | ⟨pre, b, post, p, m, hsplit, htaken, halloc⟩
  · rcases hrefused with hzero | hlarge | hnone
    · exact absurd hzero (by decide)
    · exact absurd hlarge (by decide)
    · exact absurd (hnone _ (List.mem_singleton_self _)) (not_not.mpr ⟨rfl, by decide⟩)
  · rcases List.append_eq_singleton_iff.mp hsplit.symm with ⟨rfl, hrest⟩ | ⟨-, hrest⟩
    · obtain ⟨rfl, rfl⟩ := List.cons.inj hrest
      simp only [m8HeapAlloc, halloc, if_neg htaken.ne_zero]
      exact ⟨h.machine, ⟨htaken.heap, htaken.pointer⟩, h.raised⟩
    · exact absurd hrest (List.cons_ne_nil _ _)

theorem Booted.m8HeapFree_booted (h : Booted image k) (hphase : k.phase = .heapFree) :
    Booted image (m8HeapFree k) := by
  have hheap := h.heap
  simp only [HeapReady, hphase] at hheap
  obtain ⟨m, hfree, hreleased, -⟩ := kmemFreeChecked_used hheap.1 rfl hheap.2
  have hshort : (release 48 [] ⟨128, false⟩ [⟨65312, true⟩]).length ≤ 1048576 := by decide
  rw [if_pos hshort] at hfree
  simp only [m8HeapFree, hfree, ne_eq, not_true_eq_false, if_false]
  exact ⟨h.machine, ⟨_, hreleased⟩, h.raised⟩

theorem Booted.m8HeapStats_booted (h : Booted image k) (hphase : k.phase = .heapStats) :
    Booted image (m8HeapStats k) := by
  have hheap := h.heap
  simp only [HeapReady, hphase] at hheap
  obtain ⟨bs, hbs⟩ := hheap
  obtain ⟨out, hout, -, -⟩ := kmemGetStats_spec hbs
  rw [m8HeapStats, hout]
  exact ⟨h.machine, trivial, h.raised⟩

theorem Booted.m10SyscallSmokeDirect_booted (h : Booted image k) :
    Booted image (m10SyscallSmokeDirect k) := by
  have hping : mcsosSyscallDispatch { k.syscall with env := k.machine } 0 0 0 0 0 0 0 =
      some (0x2605020A, { k.syscall with env := k.machine }) := rfl
  simp only [m10SyscallSmokeDirect, hping, ne_eq, not_true_eq_false, if_false]
  exact ⟨h.machine, trivial, h.raised⟩

theorem Booted.advance_booted (h : Booted image k) : Booted image (k.advance image) := by
  cases hphase : k.phase with
  | selftest =>
    have hheap := h.heap
    simp only [HeapReady, hphase] at hheap
    rw [KernelState.advance, hphase]
    simp only [h.machine.m4Selftest_eq]
    exact ⟨h.machine, hheap, h.raised⟩
  | heapInit =>
    rw [KernelState.advance, hphase]
    exact h.m8HeapInit_booted hphase
  | heapAlloc =>
    rw [KernelState.advance, hphase]
    exact h.m8HeapAlloc_booted hphase
  | heapFree =>
    rw [KernelState.advance, hphase]
    exact h.m8HeapFree_booted hphase
  | heapStats =>
    rw [KernelState.advance, hphase]
    exact h.m8HeapStats_booted hphase
  | syscallInit =>
    rw [KernelState.advance, hphase]
    exact ⟨h.machine, trivial, h.raised⟩
  | setUserRegion =>
    rw [KernelState.advance, hphase]
    exact ⟨h.machine, trivial, h.raised⟩
  | syscallPing =>
    rw [KernelState.advance, hphase]
    exact h.m10SyscallSmokeDirect_booted
  | disable =>
    rw [KernelState.advance, hphase]
    obtain ⟨alive, timerGate, faultGate, idtr, loaded, pic, untouched⟩ := h.machine
    exact ⟨⟨alive, timerGate, faultGate, idtr, loaded, pic, untouched⟩, trivial, h.raised⟩
  | halted =>
    rw [KernelState.advance, hphase]
    exact h

end Advance

theorem Ready.deliver_timer {image : KernelImage} {m : Machine} (h : Ready image m)
    (i : Interrupted) :
    deliver image m 0x20 i = some (m.idt 11, ⟨i.registers, 11, 0x103, i.rip, i.cs, i.rflags⟩) := by
  have htimer : (m.idt 0x20).present = false := by rw [h.timerGate]; rfl
  have hfault : (m.idt 11).present = true := by
    rw [h.faultGate]
    exact (by decide : (idtGateInterrupt &&& 0x80 != 0) = true)
  have hcode : image.codeAt (m.idt 11).target = some 11 := by
    rw [h.faultGate, gateEntry_target]
    exact image.codeAt_stub 11
  have hloaded : ¬ m.loadedIdtr ≠ ⟨4095, image.idt⟩ := not_not.mpr h.loaded
  simp only [deliver, gateTaken, if_neg hloaded, htimer, hfault, Bool.false_eq_true, if_false,
    if_true, Option.bind_eq_bind, Option.bind_some, hcode]
  rfl

theorem Ready.interrupt_panics {image : KernelImage} {m : Machine} (h : Ready image m)
    (chip : Chip) (i : Interrupted) :
    (interrupt image { m with pic1 := chip } 0x20 i).panicked = true := by
  have hdeliver : deliver image { m with pic1 := chip } 0x20 i = _ := h.deliver_timer i
  rw [interrupt, hdeliver]
  rfl

theorem Booted.irq0_panics {image : KernelImage} {k : KernelState} (h : Booted image k)
    (hflag : k.machine.interruptFlag = true) (i : Interrupted) :
    (k.raise image i).machine.panicked = true := by
  have hrequest : k.machine.pic1.request 0 = some (0x20, ⟨.ready, 0x20, 0xFE, 1⟩) := by
    rw [h.machine.pic]
    decide
  rw [KernelState.raise, if_pos hflag, hrequest]
  exact h.machine.interrupt_panics _ i

theorem Booted.step_eq {image : KernelImage} {k : KernelState} (h : Booted image k)
    (e : KernelEvent) :
    k.step image e =
      match e with
      | .advance => (k.advance image, ())
      | .irq0 i => (k.raise image i, ()) := by
  simp only [KernelState.step, h.machine.alive, Bool.or_self, Bool.false_eq_true, if_false]

theorem step_panicked {image : KernelImage} {k : KernelState} (h : k.machine.panicked = true)
    (e : KernelEvent) : k.step image e = (k, ()) := by
  simp only [KernelState.step, h, Bool.true_or, if_true]

theorem Booted.step_iff {image : KernelImage} {k : KernelState} (h : Booted image k)
    (e : KernelEvent) :
    (Quiet k e ∧ Booted image (k.step image e).1) ∨
      (¬ Quiet k e ∧ (k.step image e).1.machine.panicked = true) := by
  rw [h.step_eq]
  cases e with
  | advance => exact Or.inl ⟨trivial, h.advance_booted⟩
  | irq0 i =>
    cases hflag : k.machine.interruptFlag with
    | false =>
      have hsame : k.raise image i = k := by rw [KernelState.raise, hflag]; rfl
      simp only [hsame]
      exact Or.inl ⟨hflag, h⟩
    | true => exact Or.inr ⟨by rw [Quiet, hflag]; decide, h.irq0_panics hflag i⟩

/-- The timer is served throughout a run exactly if no timer interrupt is raised while
interrupts are enabled. -/
theorem timer_served_iff_quiet (image : KernelImage) (hw : Firmware)
    (events : List KernelEvent) :
    Always (KernelState.step image) TimerServed (boot image hw) events ↔
      AlongTotal (KernelState.step image) Quiet (boot image hw) events := by
  have hpanic : ∀ k : KernelState, k.machine.panicked = true → ¬ TimerServed k := by
    intro k hk hserved
    rw [hserved.alive.1] at hk
    exact Bool.false_ne_true hk
  refine always_iff_along (fun k => k.machine.panicked = true ∨ Booted image k) TimerServed
    (fun _ _ => True) Quiet ?_ ?_ (Or.inr (boot_booted image hw)) (boot_booted image hw).served
    (AlongTotal.trivial _ _ _)
  · intro k e hk _
    rcases hk with hk | hk
    · rw [step_panicked hk]
      exact Or.inl hk
    · rcases hk.step_iff e with ⟨-, hnext⟩ | ⟨-, hnext⟩
      · exact Or.inr hnext
      · exact Or.inl hnext
  · intro k e hk hserved _
    have hbooted : Booted image k := hk.resolve_left (fun hp => hpanic k hp hserved)
    rcases hbooted.step_iff e with ⟨hquiet, hnext⟩ | ⟨hloud, hnext⟩
    · exact iff_of_true hnext.served hquiet
    · exact iff_of_false (hpanic _ hnext) hloud

instance Quiet.decidable (k : KernelState) : ∀ e, Decidable (Quiet k e)
  | .advance => inferInstanceAs (Decidable True)
  | .irq0 _ => inferInstanceAs (Decidable (k.machine.interruptFlag = false))

def sampleStub (v : Fin 32) : UInt64 := 0xFFFFFFFF80001000 + 16 * UInt64.ofNat v.val

def sampleImage : KernelImage where
  exceptionStubs := sampleStub
  syscallInt80Stub := 0xFFFFFFFF80002000
  idt := 0xFFFFFFFF80010000
  kernelStart := 0xFFFFFFFF80000000
  kernelEnd := 0xFFFFFFFF80030000
  m8BootHeap := 0xFFFFFFFF80020000
  codeAt := fun a => (List.finRange 32).find? (fun v => sampleStub v == a)
  codeAt_stub := by decide
  idt_ne_zero := by decide
  kernel_extent := by decide
  heap_aligned := by decide
  heap_pos := by decide
  heap_extent := by decide

def sampleFirmware : Firmware where
  idt := fun _ => ⟨0, 0, 0, 0, 0, 0, 0⟩
  idtr := ⟨0, 0⟩
  pic1 := ⟨.ready, 0x08, 0xB8, 0⟩
  pic2 := ⟨.ready, 0x70, 0x8E, 0⟩
  pit := ⟨0, []⟩
  memory := fun _ => 0

def sampleInterrupted : Interrupted :=
  ⟨fun _ => 0, 0xFFFFFFFF80000400, 0x28, 0x202, 0xFFFFFFFF80018000, 0x30⟩

theorem timer_served_quiet_sample :
    Always (KernelState.step sampleImage) TimerServed (boot sampleImage sampleFirmware)
      (List.replicate 9 .advance ++ [.irq0 sampleInterrupted]) :=
  (timer_served_iff_quiet sampleImage sampleFirmware _).mpr (by decide +kernel)

theorem first_timer_interrupt_panics :
    (boot sampleImage sampleFirmware).machine.interruptFlag = true ∧
    ((boot sampleImage sampleFirmware).step sampleImage
      (.irq0 sampleInterrupted)).1.machine.panicked = true ∧
    ((boot sampleImage sampleFirmware).step sampleImage
      (.irq0 sampleInterrupted)).1.machine.entered = [11] ∧
    ((boot sampleImage sampleFirmware).step sampleImage
      (.irq0 sampleInterrupted)).1.machine.gTimerTicks = 0 ∧
    ¬ TimerServed ((boot sampleImage sampleFirmware).step sampleImage
      (.irq0 sampleInterrupted)).1 := by
  have hpanicked : ((boot sampleImage sampleFirmware).step sampleImage
      (.irq0 sampleInterrupted)).1.machine.panicked = true := by decide +kernel
  refine ⟨by decide +kernel, hpanicked, by decide +kernel, by decide +kernel, fun hserved => ?_⟩
  rw [hserved.alive.1] at hpanicked
  exact Bool.false_ne_true hpanicked

end Mcsos.Kernel
