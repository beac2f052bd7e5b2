import Mcsos.KernelRuns
import Mcsos.TrapReport

/-!
# What a boot prints

`kmain` reports its progress on the line, and the timer may interrupt it at any byte after `sti`.
What is on the line is then a beginning of one fixed transcript, up to the first timer interrupt.
That one ends the boot, with the report of a fault of the missing gate and of the panic, and
nothing follows.
-/

namespace Mcsos.BootLog
open Log StepRun TrapReport Uart16550

def idtInitCalls (idtr : Kernel.Idtr) : List LogCall :=
  [.keyValueHex64 (some (ascii "idt_base")) idtr.base,
    .keyValueHex64 (some (ascii "idt_limit")) idtr.limit.toUInt64,
    .writeln (some (ascii "[M4] IDT loaded"))]

def entryCalls (image : Kernel.KernelImage) (idtr : Kernel.Idtr) (rflags : UInt64) :
    List LogCall :=
  -- `kmain` up to `sti`. The last calls are those of `x86_64_idt_init`.
  [.init, .write (some (ascii "MCSOS")), .write (some (ascii " ")),
    .write (some (ascii "260502")), .write (some (ascii " ")), .write (some (ascii "M3")),
    .writeln (some (ascii " kernel entered")),
    .keyValueHex64 (some (ascii "kernel_start")) image.kernelStart,
    .keyValueHex64 (some (ascii "kernel_end")) image.kernelEnd,
    .keyValueHex64 (some (ascii "rflags_before_idt")) rflags] ++ idtInitCalls idtr

def phaseCalls : Kernel.Phase → List LogCall
  | .selftest => [.writeln (some (ascii "[M4] selftest: IDT invariants passed"))]
  | .heapStats => [.writeln (some (ascii "[M8] kernel heap bootstrap OK"))]
  | .syscallPing =>
      [.writeln (some (ascii "[M10] syscall ping ok")),
        .writeln (some (ascii "[M4] IDT and exception dispatch path installed")),
        .writeln (some (ascii "[M4] ready for QEMU smoke test and GDB audit"))]
  | _ => []

def assertionCode : UInt64 := 0xA55E4710

def selftestPanic (file : List UInt8) (image : Kernel.KernelImage) (m : Kernel.Machine) :
    PanicInfo :=
  if ¬ image.kernelEnd > image.kernelStart then
    ⟨some file, 39, some (ascii "assertion failed: __kernel_end > __kernel_start"), assertionCode⟩
  else if ¬ m.idtr.base ≠ 0 then
    ⟨some file, 42, some (ascii "assertion failed: x86_64_idt_base_for_test() != 0u"),
      assertionCode⟩
  else
    ⟨some file, 43, some (ascii "assertion failed: x86_64_idt_limit_for_test() == 4095u"),
      assertionCode⟩

def phasePanic (file : List UInt8) (image : Kernel.KernelImage) (k : Kernel.KernelState) :
    PanicInfo :=
  match k.phase with
  | .heapInit => ⟨some file, 20, some (ascii "M8 kmem_init failed"), 0x4D3848454150⟩
  | .heapAlloc => ⟨some file, 25, some (ascii "M8 kmem_alloc failed"), 0x4D38414C4C4F⟩
  | .heapFree => ⟨some file, 29, some (ascii "M8 kmem_free failed"), 0x4D3846524545⟩
  | .syscallPing => ⟨some file, 80, some (ascii "M10 syscall ping failed"), 0x4D313050494E47⟩
  | _ => selftestPanic file image k.machine

/-- The kernel, its console, and the bytes that the running log call has still to send. -/
structure BootState where
  kernel : Kernel.KernelState
  console : Console
  pending : List UInt8

structure Files where
  trap : List UInt8
  kmain : List UInt8

inductive BootEvent
  | advance (rflags : UInt64)
  | irq0 (i : Kernel.Interrupted) (rflags : UInt64)

def BootState.send (line : ℕ → Bool) (s : BootState) (c : UInt8) (rest : List UInt8) :
    BootState :=
  { s with
    console := { s.console with uart := Uart16550.send line serialTimeoutLimit s.console.uart c }
    pending := rest }

def BootState.advance (line : ℕ → Bool) (files : Files) (image : Kernel.KernelImage)
    (s : BootState) (rflags : UInt64) : BootState :=
  match s.pending with
  | c :: rest => s.send line c rest
  | [] =>
      let k := s.kernel.advance image
      if k.machine.panicked then
        ⟨k, Log.kernelPanicAt line (phasePanic files.kmain image s.kernel) rflags s.console, []⟩
      else ⟨k, s.console, wire (logText (phaseCalls s.kernel.phase))⟩

def BootState.report (line : ℕ → Bool) (files : Files) (image : Kernel.KernelImage)
    (s : BootState) (i : Kernel.Interrupted) (rflags : UInt64) : Console :=
  let m := s.kernel.machine
  if m.interruptFlag then
    match (m.pic1.request 0).bind fun r => Kernel.deliver image m r.1 i with
    | none => s.console
    | some (_, frame) => reportTrap line files.trap ⟨frame, rflags⟩ s.console
  else s.console

def BootState.raise (line : ℕ → Bool) (files : Files) (image : Kernel.KernelImage)
    (s : BootState) (i : Kernel.Interrupted) (rflags : UInt64) : BootState :=
  { s with
    kernel := s.kernel.raise image i
    console := s.report line files image i rflags }

def BootState.step (line : ℕ → Bool) (files : Files) (image : Kernel.KernelImage)
    (s : BootState) (e : BootEvent) : BootState × Unit :=
  if s.kernel.machine.panicked || s.kernel.machine.derailed then (s, ())
  else
    match e with
    | .advance rflags => (s.advance line files image rflags, ())
    | .irq0 i rflags => (s.raise line files image i rflags, ())

def bootState (line : ℕ → Bool) (image : Kernel.KernelImage) (hw : Kernel.Firmware) (u : Uart)
    (rflags : UInt64) : BootState :=
  let k := Kernel.boot image hw
  ⟨k, logAfter line (entryCalls image k.machine.idtr rflags) ⟨u, false⟩, []⟩

def laterCalls : Kernel.Phase → List LogCall
  | .selftest => phaseCalls .selftest ++ (phaseCalls .heapStats ++ phaseCalls .syscallPing)
  | .heapInit | .heapAlloc | .heapFree | .heapStats =>
      phaseCalls .heapStats ++ phaseCalls .syscallPing
  | .syscallInit | .setUserRegion | .syscallPing => phaseCalls .syscallPing
  | .disable | .halted => []

def nextPhase : Kernel.Phase → Kernel.Phase
  | .selftest => .heapInit
  | .heapInit => .heapAlloc
  | .heapAlloc => .heapFree
  | .heapFree => .heapStats
  | .heapStats => .syscallInit
  | .syscallInit => .setUserRegion
  | .setUserRegion => .syscallPing
  | .syscallPing => .disable
  | .disable => .halted
  | .halted => .halted

def script (phase : Kernel.Phase) : List UInt8 := wire (logText (laterCalls phase))

theorem script_eq (phase : Kernel.Phase) :
    script phase = wire (logText (phaseCalls phase)) ++ script (nextPhase phase) := by
  have hcalls : laterCalls phase = phaseCalls phase ++ laterCalls (nextPhase phase) := by
    cases phase with
    | syscallPing => exact (List.append_nil _).symm
    | _ => rfl
  rw [script, script, hcalls, ← wire_append, logText, logText, logText, List.flatMap_append]

section Phases

variable {image : Kernel.KernelImage} {k : Kernel.KernelState}

def Alive (m : Kernel.Machine) : Prop := m.panicked = false ∧ m.derailed = false

theorem m8HeapInit_phase (h : Alive (Kernel.m8HeapInit image k).machine) :
    (Kernel.m8HeapInit image k).phase = .heapAlloc := by
  rw [Kernel.m8HeapInit] at h ⊢
  cases hcall : Kmem.kmemInit k.kmem image.m8BootHeap Kernel.m8BootHeapSize with
  | none =>
    rw [hcall] at h
    exact Bool.noConfusion h.2
  | some r =>
    rw [hcall] at h
    dsimp only at h ⊢
    split_ifs at h ⊢ with hcode
    · exact Bool.noConfusion h.1
    · rfl

theorem m8HeapAlloc_phase (h : Alive (Kernel.m8HeapAlloc k).machine) :
    (Kernel.m8HeapAlloc k).phase = .heapFree := by
  rw [Kernel.m8HeapAlloc] at h ⊢
  cases hcall : Kmem.kmemAlloc k.kmem 128 with
  | none =>
    rw [hcall] at h
    exact Bool.noConfusion h.2
  | some r =>
    rw [hcall] at h
    dsimp only at h ⊢
    split_ifs at h ⊢ with hnull
    · exact Bool.noConfusion h.1
    · rfl

theorem m8HeapFree_phase (h : Alive (Kernel.m8HeapFree k).machine) :
    (Kernel.m8HeapFree k).phase = .heapStats := by
  rw [Kernel.m8HeapFree] at h ⊢
  cases hcall : Kmem.kmemFreeChecked k.kmem k.probe with
  | none =>
    rw [hcall] at h
    exact Bool.noConfusion h.2
  | some r =>
    rw [hcall] at h
    dsimp only at h ⊢
    split_ifs at h ⊢ with hcode
    · exact Bool.noConfusion h.1
    · rfl

theorem m8HeapStats_phase (h : Alive (Kernel.m8HeapStats k).machine) :
    (Kernel.m8HeapStats k).phase = .syscallInit := by
  rw [Kernel.m8HeapStats] at h ⊢
  cases hcall : Kmem.kmemGetStats k.kmem with
  | none =>
    rw [hcall] at h
    exact Bool.noConfusion h.2
  | some r => rfl

theorem advance_phase (h : Kernel.Booted image k) :
    (k.advance image).phase = nextPhase k.phase := by
  have halive : Alive (k.advance image).machine := h.advance_booted.machine.alive
  rw [Kernel.KernelState.advance] at halive ⊢
  cases hphase : k.phase with
  | heapInit =>
    rw [hphase] at halive
    exact m8HeapInit_phase halive
  | heapAlloc =>
    rw [hphase] at halive
    exact m8HeapAlloc_phase halive
  | heapFree =>
    rw [hphase] at halive
    exact m8HeapFree_phase halive
  | heapStats =>
    rw [hphase] at halive
    exact m8HeapStats_phase halive
  | halted => exact hphase
  | _ => rfl

/-- What the CPU and the stub make of a timer interrupt: fault 11 for gate `0x20`. -/
def faultTrap (i : Kernel.Interrupted) (rflags : UInt64) : Trap :=
  ⟨⟨i.registers, 11, 0x103, i.rip, i.cs, i.rflags⟩, rflags⟩

end Phases

/-- The boot so far: what was sent after `base`, what the running call has to send and what later
calls will send make up the script. -/
structure Progress (image : Kernel.KernelImage) (base : List UInt8) (s : BootState) : Prop where
  booted : Kernel.Booted image s.kernel
  sound : Sound (fun _ => True) s.console
  ready : s.console.gLogReady = true
  text : ∃ sent, s.console.uart.sent = base ++ sent ∧
    sent ++ (s.pending ++ script s.kernel.phase) = script .selftest
  halted : s.kernel.phase = .halted →
    s.pending = [] ∧ s.kernel.machine.interruptFlag = false

def Stopped (file base : List UInt8) (events : List BootEvent) (s : BootState) : Prop :=
  s.kernel.machine.panicked = true ∧ ∃ sent, sent <+: script .selftest ∧
    ∃ i rflags, .irq0 i rflags ∈ events ∧
      s.console.uart.sent = base ++ sent ++ wire ((faultTrap i rflags).text file)

section Runs

variable {line : ℕ → Bool} {image : Kernel.KernelImage} {base : List UInt8} {s : BootState}
  (files : Files)

theorem Progress.not_stopped (h : Progress image base s) :
    ¬ (s.kernel.machine.panicked || s.kernel.machine.derailed) = true := by
  rw [h.booted.machine.alive.1, h.booted.machine.alive.2]
  decide

theorem Progress.send (hprompt : Prompt line serialTimeoutLimit) (h : Progress image base s)
    {c : UInt8} {rest : List UInt8} (hpending : s.pending = c :: rest) :
    Progress image base (s.send line c rest) := by
  obtain ⟨i, hi, hsetup⟩ := h.sound.ready h.ready
  have haccess : s.console.uart.setup.divisorAccess = false := by
    rw [hsetup, configured_access]
  have hspec := send_spec line serialTimeoutLimit haccess c
  have hsent : (Uart16550.send line serialTimeoutLimit s.console.uart c).sent =
      s.console.uart.sent ++ [c] := foldl_send_prompt line hprompt [c] haccess
  constructor
  case booted => exact h.booted
  case sound =>
    exact ⟨trivial, fun hready => absurd (h.ready.symm.trans hready) (by decide),
      fun _ => ⟨i, hi, hspec.1.trans hsetup⟩⟩
  case ready => exact h.ready
  case text =>
    obtain ⟨sent, hbase, htext⟩ := h.text
    rw [hpending] at htext
    refine ⟨sent ++ [c], ?_, ?_⟩
    · rw [← List.append_assoc, ← hbase]
      exact hsent
    · rw [List.append_assoc]
      exact htext
  case halted =>
    intro hphase
    have hempty := (h.halted hphase).1
    rw [hpending] at hempty
    exact absurd hempty (List.cons_ne_nil c rest)

theorem Progress.advance (hprompt : Prompt line serialTimeoutLimit) (h : Progress image base s)
    (rflags : UInt64) : Progress image base (s.advance line files image rflags) := by
  rw [BootState.advance]
  cases hpending : s.pending with
  | cons c rest => exact h.send hprompt hpending
  | nil =>
    have hbooted := h.booted.advance_booted
    have hphase := advance_phase h.booted
    obtain ⟨sent, hbase, htext⟩ := h.text
    rw [hpending, List.nil_append, script_eq s.kernel.phase] at htext
    dsimp only
    rw [if_neg (by rw [hbooted.machine.alive.1]; decide)]
    constructor
    case booted => exact hbooted
    case sound => exact h.sound
    case ready => exact h.ready
    case text =>
      refine ⟨sent, hbase, ?_⟩
      rw [hphase]
      exact htext
    case halted =>
      intro hhalted
      rw [hphase] at hhalted
      rw [Kernel.KernelState.advance]
      cases hp : s.kernel.phase with
      | disable => exact ⟨rfl, rfl⟩
      | halted => exact ⟨rfl, (h.halted hp).2⟩
      | _ =>
        rw [hp] at hhalted
        exact Kernel.Phase.noConfusion hhalted

theorem BootState.raise_disabled (hflag : ¬ s.kernel.machine.interruptFlag = true)
    (i : Kernel.Interrupted) (rflags : UInt64) : s.raise line files image i rflags = s := by
  rw [BootState.raise, Kernel.KernelState.raise, if_neg hflag, BootState.report, if_neg hflag]

theorem Progress.raise (hprompt : Prompt line serialTimeoutLimit) (h : Progress image base s)
    (i : Kernel.Interrupted) (rflags : UInt64) :
    s.raise line files image i rflags = s ∨
      Stopped files.trap base [.irq0 i rflags] (s.raise line files image i rflags) := by
  by_cases hflag : s.kernel.machine.interruptFlag = true
  · have hrequest : s.kernel.machine.pic1.request 0 = some (0x20, ⟨.ready, 0x20, 0xFE, 1⟩) := by
      rw [h.booted.machine.pic]
      decide
    have hreport : s.report line files image i rflags =
        reportTrap line files.trap (faultTrap i rflags) s.console := by
      rw [BootState.report, if_pos hflag, hrequest, Option.bind_some,
        h.booted.machine.deliver_timer]
      rfl
    have hnotTick : ¬ (faultTrap i rflags).IsTick :=
      (by decide : ¬ (11 : UInt64) = Kernel.picMasterOffset.toUInt64)
    have hsent := (prints_reportTrap line files.trap hnotTick).delivers hprompt h.sound
      (fun hready => absurd (h.ready.symm.trans hready) (by decide))
    obtain ⟨sent, hbase, htext⟩ := h.text
    refine Or.inr ⟨h.booted.irq0_panics hflag i, sent, ⟨_, htext⟩, i, rflags,
      List.mem_singleton_self _, ?_⟩
    rw [BootState.raise, hreport, ← hbase]
    exact hsent
  · exact Or.inl (BootState.raise_disabled files hflag i rflags)

variable (line image)

theorem Stopped.step {file : List UInt8} {events : List BootEvent}
    (h : Stopped file base events s) (e : BootEvent) : (s.step line files image e).1 = s := by
  cases e with
  | _ => rw [BootState.step, h.1, Bool.true_or, if_pos rfl]

theorem Stopped.run {file : List UInt8} {events : List BootEvent}
    (h : Stopped file base events s) (later : List BootEvent) :
    (runTotal (BootState.step line files image) s later).1 = s :=
  runTotal_fixed (h.step line image files) later

variable {line image}

theorem Stopped.mono {file : List UInt8} {events events' : List BootEvent}
    (h : Stopped file base events s) (hsub : events ⊆ events') :
    Stopped file base events' s := by
  obtain ⟨hpanicked, p, hp, i, rflags, hmem, hsent⟩ := h
  exact ⟨hpanicked, p, hp, i, rflags, hsub hmem, hsent⟩

theorem Progress.step (hprompt : Prompt line serialTimeoutLimit) (h : Progress image base s)
    (e : BootEvent) :
    Progress image base (s.step line files image e).1 ∨
      Stopped files.trap base [e] (s.step line files image e).1 := by
  cases e with
  | advance rflags =>
    rw [BootState.step, if_neg h.not_stopped]
    exact Or.inl (h.advance files hprompt rflags)
  | irq0 i rflags =>
    rw [BootState.step, if_neg h.not_stopped]
    rcases h.raise files hprompt i rflags with hsame | hstopped
    · dsimp only
      rw [hsame]
      exact Or.inl h
    · exact Or.inr hstopped

theorem Progress.run (hprompt : Prompt line serialTimeoutLimit) (h : Progress image base s)
    (events : List BootEvent) :
    Progress image base (runTotal (BootState.step line files image) s events).1 ∨
      Stopped files.trap base events
        (runTotal (BootState.step line files image) s events).1 := by
  induction events generalizing s with
  | nil => exact Or.inl h
  | cons e events ih =>
    rcases h.step files hprompt e with hnext | hstopped
    · rcases ih hnext with hrun | hrun
      · exact Or.inl hrun
      · exact Or.inr (hrun.mono (List.subset_cons_self e events))
    · have hrun := hstopped.run line image files events
      have hmono := hstopped.mono (List.cons_subset_cons e (List.nil_subset events))
      rw [← hrun] at hmono
      exact Or.inr hmono

def preamble (image : Kernel.KernelImage) (u : Uart) (rflags : UInt64) : List UInt8 :=
  u.sent ++ wire (logText (entryCalls image ⟨4095, image.idt⟩ rflags))

theorem boot_progress (hprompt : Prompt line serialTimeoutLimit) (image : Kernel.KernelImage)
    (hw : Kernel.Firmware) {u : Uart} (hidle : u.holding = false) (rflags : UInt64) :
    Progress image (preamble image u rflags) (bootState line image hw u rflags) where
  booted := Kernel.boot_booted image hw
  sound := ((sound_boot u).run line (entryCalls image _ rflags)).1
  ready := logAfter_ready line (List.cons_ne_nil _ _) ⟨u, false⟩
  text := by
    refine ⟨[], ?_, rfl⟩
    rw [List.append_nil, preamble, ← (Kernel.boot_booted image hw).machine.idtr]
    exact boot_delivers hprompt hidle (by simp [entryCalls, idtInitCalls])
  halted := fun hphase => Kernel.Phase.noConfusion hphase

def sampleFiles : Files := ⟨ascii "kernel/core/trap.c", ascii "kernel/core/kmain.c"⟩

def rank : Kernel.Phase → ℕ
  | .selftest => 9
  | .heapInit => 8
  | .heapAlloc => 7
  | .heapFree => 6
  | .heapStats => 5
  | .syscallInit => 4
  | .setUserRegion => 3
  | .syscallPing => 2
  | .disable => 1
  | .halted => 0

def BootState.work (s : BootState) : ℕ :=
  s.pending.length + (script s.kernel.phase).length + rank s.kernel.phase

theorem Progress.work_advance (h : Progress image base s) (rflags : UInt64) :
    (s.advance line files image rflags).work = s.work - 1 := by
  rw [BootState.advance]
  cases hpending : s.pending with
  | cons c rest =>
    rw [BootState.work, BootState.work, hpending, List.length_cons]
    change rest.length + (script s.kernel.phase).length + rank s.kernel.phase = _
    omega
  | nil =>
    have hphase := advance_phase h.booted
    have hscript := congrArg List.length (script_eq s.kernel.phase)
    have hrank : rank (nextPhase s.kernel.phase) = rank s.kernel.phase - 1 := by
      cases s.kernel.phase <;> rfl
    rw [List.length_append] at hscript
    dsimp only
    rw [if_neg (by rw [h.booted.advance_booted.machine.alive.1]; decide), BootState.work,
      BootState.work, hpending, List.length_nil]
    dsimp only
    have hzero : rank s.kernel.phase = 0 → (script s.kernel.phase).length = 0 := by
      cases s.kernel.phase with
      | halted => exact fun _ => rfl
      | _ => exact fun hrank => absurd hrank (by decide)
    rw [hphase, hrank]
    omega

theorem Progress.run_advances (hprompt : Prompt line serialTimeoutLimit)
    (h : Progress image base s) (rs : List UInt64) :
    let s' := (runTotal (BootState.step line files image) s (rs.map .advance)).1
    Progress image base s' ∧ s'.work = s.work - rs.length := by
  induction rs generalizing s with
  | nil => exact ⟨h, rfl⟩
  | cons rflags rs ih =>
    have hstep : (s.step line files image (.advance rflags)).1 =
        s.advance line files image rflags := by
      rw [BootState.step, if_neg h.not_stopped]
    obtain ⟨hprogress, hwork⟩ := ih (h.advance files hprompt rflags)
    rw [← hstep] at hprogress hwork
    refine ⟨hprogress, hwork.trans ?_⟩
    rw [hstep, h.work_advance, List.length_cons]
    omega

theorem Progress.step_halted (h : Progress image base s) (hphase : s.kernel.phase = .halted)
    (e : BootEvent) : (s.step line files image e).1 = s := by
  obtain ⟨hpending, hflag⟩ := h.halted hphase
  cases e with
  | advance rflags =>
    have hkernel : s.kernel.advance image = s.kernel := by
      rw [Kernel.KernelState.advance, hphase]
    have hcalls : wire (logText (phaseCalls s.kernel.phase)) = [] := by
      rw [hphase]
      rfl
    rw [BootState.step, if_neg h.not_stopped]
    dsimp only
    rw [BootState.advance, hpending]
    dsimp only
    rw [hkernel, if_neg (by rw [h.booted.machine.alive.1]; decide), hcalls, ← hpending]
  | irq0 i rflags =>
    rw [BootState.step, if_neg h.not_stopped]
    exact BootState.raise_disabled files (by rw [hflag]; decide) i rflags

theorem Progress.run_halted (h : Progress image base s) (hphase : s.kernel.phase = .halted)
    (later : List BootEvent) : (runTotal (BootState.step line files image) s later).1 = s :=
  runTotal_fixed (h.step_halted files hphase) later

/-- Undisturbed, every boot comes to its end with the whole script on the line, and then no timer
interrupt disturbs it any more. -/
theorem boot_completes (hprompt : Prompt line serialTimeoutLimit) (image : Kernel.KernelImage)
    (hw : Kernel.Firmware) {u : Uart} (hidle : u.holding = false) (rflags : UInt64)
    {rs : List UInt64} (henough : (script .selftest).length + 9 ≤ rs.length)
    (later : List BootEvent) :
    let s := (runTotal (BootState.step line files image) (bootState line image hw u rflags)
      (rs.map .advance ++ later)).1
    s.kernel.phase = .halted ∧ Alive s.kernel.machine ∧
      s.console.uart.sent = preamble image u rflags ++ script .selftest := by
  intro s
  obtain ⟨hprogress, hwork⟩ :=
    (boot_progress hprompt image hw hidle rflags).run_advances files hprompt rs
  have hstart : (bootState line image hw u rflags).work = (script .selftest).length + 9 := by
    rw [BootState.work]
    change 0 + (script .selftest).length + 9 = _
    omega
  have hhalted : (runTotal (BootState.step line files image) (bootState line image hw u rflags)
      (rs.map .advance)).1.kernel.phase = .halted := by
    have hzero : (runTotal (BootState.step line files image) (bootState line image hw u rflags)
        (rs.map .advance)).1.work = 0 := by omega
    rw [BootState.work] at hzero
    generalize (runTotal (BootState.step line files image) (bootState line image hw u rflags)
      (rs.map .advance)).1.kernel.phase = phase at hzero
    cases phase with
    | halted => rfl
    | _ =>
      rw [rank] at hzero
      omega
  obtain ⟨sent, hbase, htext⟩ := hprogress.text
  have hsame : s = (runTotal (BootState.step line files image) (bootState line image hw u rflags)
      (rs.map .advance)).1 := by
    rw [← hprogress.run_halted files hhalted later]
    exact runTotal_append _ _ _ _
  rw [(hprogress.halted hhalted).1, hhalted] at htext
  have hsent : sent = script .selftest := (List.append_nil sent).symm.trans htext
  rw [hsame, hbase, hsent]
  exact ⟨hhalted, hprogress.booted.machine.alive, rfl⟩

end Runs

theorem boot_completes_sample :
    let s := (runTotal (BootState.step slowLine sampleFiles Kernel.sampleImage)
      (bootState slowLine Kernel.sampleImage Kernel.sampleFirmware firmwareUart 0x2)
      ((List.replicate 200 0x202).map .advance ++ [.irq0 Kernel.sampleInterrupted 0x46])).1
    s.kernel.phase = .halted ∧ Alive s.kernel.machine ∧
      s.console.uart.sent =
        preamble Kernel.sampleImage firmwareUart 0x2 ++ script .selftest :=
  boot_completes sampleFiles slowLine_prompt Kernel.sampleImage Kernel.sampleFirmware rfl 0x2
    (by decide +kernel) [.irq0 Kernel.sampleInterrupted 0x46]

end Mcsos.BootLog
