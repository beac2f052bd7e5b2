import Mcsos.Interrupts
import Mcsos.LogRecords

/-!
# The log of traps

The dispatcher reports every trap but the timer interrupt: its name, nine words of the frame, and
then either that it returns or the report of the panic. The bytes on the line tell the traps of a
whole run, up to the one that stops the kernel.
-/

namespace Mcsos.TrapReport
open Log Uart16550 TextFormat

def exceptionNames : List String :=
  ["#DE Divide Error",
    "#DB Debug",
    "NMI Interrupt",
    "#BP Breakpoint",
    "#OF Overflow",
    "#BR Bound Range Exceeded",
    "#UD Invalid Opcode",
    "#NM Device Not Available",
    "#DF Double Fault",
    "Coprocessor Segment Overrun",
    "#TS Invalid TSS",
    "#NP Segment Not Present",
    "#SS Stack Segment Fault",
    "#GP General Protection Fault",
    "#PF Page Fault",
    "Reserved",
    "#MF x87 Floating-Point Exception",
    "#AC Alignment Check",
    "#MC Machine Check",
    "#XM SIMD Floating-Point Exception",
    "#VE Virtualization Exception",
    "#CP Control Protection Exception",
    "Reserved",
    "Reserved",
    "Reserved",
    "Reserved",
    "Reserved",
    "Reserved",
    "#HV Hypervisor Injection Exception",
    "#VC VMM Communication Exception",
    "#SX Security Exception",
    "Reserved"]

def trapName (vector : UInt64) : List UInt8 :=
  if vector < 32 then ascii (exceptionNames.getD vector.toNat "")
  else ascii "external-or-user-defined-interrupt"

def frameFields (frame : Kernel.TrapFrame) : List (String × UInt64) :=
  [("trap_vector", frame.vector), ("trap_error", frame.errorCode), ("trap_rip", frame.rip),
    ("trap_cs", frame.cs), ("trap_rflags", frame.rflags), ("trap_rax", frame.registers 14),
    ("trap_rbx", frame.registers 13), ("trap_rcx", frame.registers 12),
    ("trap_rdx", frame.registers 11)]

def logTrapFrame (line : ℕ → Bool) (frame : Kernel.TrapFrame) (k : Console) : Console :=
  (frameFields frame).foldl
    (fun k field => logKeyValueHex64 line (some (ascii field.1)) field.2 k) k

/-- A trap: the frame that the dispatcher gets, and the flags that a panic reads there. -/
structure Trap where
  frame : Kernel.TrapFrame
  rflags : UInt64

def Trap.vector (t : Trap) : UInt64 := t.frame.vector

def Trap.panicInfo (file : List UInt8) (t : Trap) : PanicInfo :=
  ⟨some file, 85, some (ascii "unrecoverable CPU exception"), t.vector⟩

def trapDispatchLabel : List UInt8 := ascii "[M4] trap dispatch: "
def breakpointHandled : List UInt8 := ascii "[M4] breakpoint handled; returning with iretq"

/-- The log calls of the dispatcher; a tick returns before the first of them. -/
def reportTrap (line : ℕ → Bool) (file : List UInt8) (t : Trap) (k : Console) : Console :=
  if t.vector = Kernel.picMasterOffset.toUInt64 then k
  else
    let k := logWrite line (some trapDispatchLabel) k
    let k := logWriteln line (some (trapName t.vector)) k
    let k := logTrapFrame line t.frame k
    if t.vector = 3 then logWriteln line (some breakpointHandled) k
    else Log.kernelPanicAt line (t.panicInfo file) t.rflags k

structure Reporting where
  machine : Kernel.Machine
  console : Console

def x86_64TrapDispatch (line : ℕ → Bool) (file : List UInt8) (r : Reporting) (t : Trap) :
    Reporting :=
  ⟨Kernel.x86_64TrapDispatch r.machine t.frame, reportTrap line file t r.console⟩

def frameText (frame : Kernel.TrapFrame) : List UInt8 :=
  (frameFields frame).flatMap fun field => keyValueText (some (ascii field.1)) field.2

def Trap.text (file : List UInt8) (t : Trap) : List UInt8 :=
  textOf (some trapDispatchLabel) ++ (textOf (some (trapName t.vector)) ++ [newline]) ++
    frameText t.frame ++
    if t.vector = 3 then textOf (some breakpointHandled) ++ [newline]
    else panicText (t.panicInfo file) t.rflags

def Trap.IsTick (t : Trap) : Prop := t.vector = Kernel.picMasterOffset.toUInt64

instance (t : Trap) : Decidable t.IsTick := inferInstanceAs (Decidable (_ = _))

def Trap.Fatal (t : Trap) : Prop := ¬ t.IsTick ∧ t.vector ≠ 3

instance (t : Trap) : Decidable t.Fatal := inferInstanceAs (Decidable (_ ∧ _))

section Dispatch

variable {line : ℕ → Bool}

theorem prints_logTrapFrame {f : Console → Console} {s : List UInt8} (hf : Prints line f s)
    (frame : Kernel.TrapFrame) :
    Prints line (fun k => logTrapFrame line frame (f k)) (s ++ frameText frame) := by
  rw [frameText]
  unfold logTrapFrame
  generalize frameFields frame = fields
  induction fields generalizing f s with
  | nil =>
    rw [List.flatMap_nil, List.append_nil]
    exact hf
  | cons field fields ih =>
    rw [List.flatMap_cons, ← List.append_assoc]
    exact ih (hf.comp (prints_logKeyValueHex64 (some (ascii field.1)) field.2))

variable (line)

theorem prints_reportTrap (file : List UInt8) {t : Trap} (ht : ¬ t.IsTick) :
    Prints line (reportTrap line file t) (t.text file) := by
  have hlabel : Prints line (logWrite line (some trapDispatchLabel)) _ := prints_logWrite _
  have hframe := prints_logTrapFrame
    (hlabel.comp (prints_logWriteln (some (trapName t.vector)))) t.frame
  intro k
  rw [reportTrap, if_neg (show ¬ t.vector = _ from ht), Trap.text]
  split_ifs with hthree
  · exact hframe.comp (prints_logWriteln (some breakpointHandled)) k
  · exact hframe.comp (prints_kernelPanicAt (t.panicInfo file) t.rflags) k

theorem reportTrap_tick (file : List UInt8) {t : Trap} (ht : t.IsTick) (k : Console) :
    reportTrap line file t k = k := by
  rw [reportTrap, if_pos (show t.vector = _ from ht)]

end Dispatch

theorem trapName_clean (vector : UInt64) : newline ∉ textOf (some (trapName vector)) := by
  have hnames : ∀ s ∈ "external-or-user-defined-interrupt" :: "" :: exceptionNames,
      newline ∉ textOf (some (ascii s)) := by
    decide +kernel
  rw [trapName]
  split_ifs with h
  · apply hnames
    have hlt : vector.toNat < exceptionNames.length := UInt64.lt_iff_toNat_lt.mp h
    rw [List.getD_eq_getElem _ _ hlt]
    exact List.mem_cons_of_mem _ (List.mem_cons_of_mem _ (List.getElem_mem hlt))
  · exact hnames _ List.mem_cons_self

def dispatchAll (line : ℕ → Bool) (file : List UInt8) (traps : List Trap) (r : Reporting) :
    Reporting :=
  -- The traps of a run; after a panic nothing runs.
  traps.foldl (fun r t => if r.machine.panicked then r else x86_64TrapDispatch line file r t) r

/-- The traps that are reported: all but the ticks, up to the first fatal one. -/
def reported : List Trap → List Trap
  | [] => []
  | t :: traps =>
      if t.IsTick then reported traps else if t.Fatal then [t] else t :: reported traps

section Runs

variable (line : ℕ → Bool) (file : List UInt8)

theorem dispatch_panicked {r : Reporting} (hr : r.machine.panicked = false) (t : Trap) :
    (x86_64TrapDispatch line file r t).machine.panicked = decide t.Fatal := by
  rw [x86_64TrapDispatch]
  by_cases htick : t.IsTick
  · have hfatal : ¬ t.Fatal := fun h => h.1 htick
    rw [Kernel.x86_64TrapDispatch, if_pos (show t.frame.vector = _ from htick),
      decide_eq_false hfatal]
    exact hr
  · rw [Kernel.x86_64TrapDispatch, if_neg (show ¬ t.frame.vector = _ from htick)]
    split_ifs with hthree
    · have hfatal : ¬ t.Fatal := fun h => h.2 hthree
      rw [decide_eq_false hfatal]
      exact hr
    · have hfatal : t.Fatal := ⟨htick, hthree⟩
      rw [decide_eq_true hfatal]
      rfl

theorem dispatchAll_panicked {r : Reporting} (hr : r.machine.panicked = true)
    (traps : List Trap) : dispatchAll line file traps r = r := by
  induction traps with
  | nil => rfl
  | cons t traps ih =>
    rw [dispatchAll, List.foldl_cons, if_pos hr]
    exact ih

theorem dispatchAll_cons {r : Reporting} (hr : r.machine.panicked = false) (t : Trap)
    (traps : List Trap) :
    dispatchAll line file (t :: traps) r =
      dispatchAll line file traps (x86_64TrapDispatch line file r t) := by
  rw [dispatchAll, List.foldl_cons, if_neg (by rw [hr]; decide)]
  rfl

variable {line}

theorem dispatchAll_spec {allowed : UInt8 → Prop} (hprompt : Prompt line serialTimeoutLimit)
    {r : Reporting} (hr : r.machine.panicked = false) (hk : Sound allowed r.console)
    (hidle : r.console.gLogReady = false → r.console.uart.holding = false)
    (traps : List Trap) :
    (dispatchAll line file traps r).console.uart.sent =
        r.console.uart.sent ++ wire ((reported traps).flatMap (Trap.text file)) ∧
      ((dispatchAll line file traps r).machine.panicked = true ↔ ∃ t ∈ traps, t.Fatal) := by
  induction traps generalizing r with
  | nil => simp [dispatchAll, reported, wire, hr]
  | cons t traps ih =>
    have hpanicked := dispatch_panicked line file hr t
    rw [dispatchAll_cons line file hr, reported, List.exists_mem_cons_iff]
    by_cases htick : t.IsTick
    · have hfatal : ¬ t.Fatal := fun h => h.1 htick
      have hconsole : (x86_64TrapDispatch line file r t).console = r.console :=
        reportTrap_tick line file htick r.console
      rw [decide_eq_false hfatal] at hpanicked
      rw [if_pos htick, ← hconsole, or_iff_right hfatal]
      exact ih hpanicked (hconsole ▸ hk) (hconsole ▸ hidle)
    · have hprints := prints_reportTrap line file htick
      have hsent := hprints.delivers hprompt hk hidle
      obtain ⟨hsound, hready⟩ := hprints.sound hk
      rw [if_neg htick]
      split_ifs with hfatal
      · rw [decide_eq_true hfatal] at hpanicked
        rw [dispatchAll_panicked line file hpanicked, List.flatMap_singleton]
        exact ⟨hsent, iff_of_true hpanicked (Or.inl hfatal)⟩
      · rw [decide_eq_false hfatal] at hpanicked
        obtain ⟨hrest, hiff⟩ := ih hpanicked hsound
          (fun h => absurd (hready.symm.trans h) (by decide))
        rw [List.flatMap_cons, wire_append, ← List.append_assoc, ← hsent, or_iff_right hfatal]
        exact ⟨hrest, hiff⟩

end Runs

structure TrapRecord where
  name : List UInt8
  fields : List (List UInt8 × UInt64)
  panic : Option PanicReport

def Trap.record (file : List UInt8) (t : Trap) : TrapRecord where
  name := textOf (some (trapName t.vector))
  fields := (frameFields t.frame).map fun field => (textOf (some (ascii field.1)), field.2)
  panic := if t.vector = 3 then none else some ((t.panicInfo file).report t.rflags)

def readTrap (l : List UInt8) : Option (TrapRecord × List UInt8) := do
  let t ← readLiteral (textOf (some trapDispatchLabel)) l
  let name ← readUntil newline t
  let fields ← readCount readRecord 9 name.2
  -- What follows the frame depends on the vector.
  if fields.1.head?.map Prod.snd = some 3 then
    let t ← readLiteral (textOf (some breakpointHandled) ++ [newline]) fields.2
    return (⟨name.1, fields.1, none⟩, t)
  else
    let p ← readPanic fields.2
    return (⟨name.1, fields.1, some p.1⟩, p.2)

theorem frameFields_clean (frame : Kernel.TrapFrame) :
    ∀ field ∈ frameFields frame, equalsSign ∉ textOf (some (ascii field.1)) := by
  have hkeys : ∀ key ∈ ["trap_vector", "trap_error", "trap_rip", "trap_cs", "trap_rflags",
      "trap_rax", "trap_rbx", "trap_rcx", "trap_rdx"],
      equalsSign ∉ textOf (some (ascii key)) := by
    decide +kernel
  intro field hfield
  exact hkeys field.1 (List.mem_map_of_mem hfield)

theorem readTrap_text {file : List UInt8} (hfile : newline ∉ textOf (some file)) (t : Trap)
    (rest : List UInt8) :
    readTrap (t.text file ++ rest) = some (t.record file, rest) := by
  have hreason : newline ∉ (t.panicInfo file).reasonText :=
    (by decide : newline ∉ textOf (some (ascii "unrecoverable CPU exception")))
  have hfields (tail : List UInt8) : readCount readRecord 9 (frameText t.frame ++ tail) =
      some ((t.record file).fields, tail) :=
    readCount_flatMap (fun field hfield tail =>
      readRecord_keyValueText (frameFields_clean t.frame field hfield) field.2 tail) tail
  have hvector : (t.record file).fields.head?.map Prod.snd = some t.vector := rfl
  have htext (tail : List UInt8) : readTrap (textOf (some trapDispatchLabel) ++
      (textOf (some (trapName t.vector)) ++ newline :: (frameText t.frame ++ tail))) =
      if t.vector = 3 then
        (readLiteral (textOf (some breakpointHandled) ++ [newline]) tail).map fun l =>
          (⟨textOf (some (trapName t.vector)), (t.record file).fields, none⟩, l)
      else (readPanic tail).map fun p =>
        (⟨textOf (some (trapName t.vector)), (t.record file).fields, some p.1⟩, p.2) := by
    rw [readTrap, readLiteral_append]
    simp only [Option.bind_eq_bind, Option.bind_some]
    rw [readUntil_append (trapName_clean t.vector), Option.bind_some, hfields, Option.bind_some,
      hvector]
    simp only [Option.some.injEq]
    split_ifs
    · exact (Option.map_eq_bind ..).symm
    · exact (Option.map_eq_bind ..).symm
  have hassoc (tail : List UInt8) : textOf (some trapDispatchLabel) ++
      (textOf (some (trapName t.vector)) ++ [newline]) ++ frameText t.frame ++ tail ++ rest =
      textOf (some trapDispatchLabel) ++ (textOf (some (trapName t.vector)) ++
        newline :: (frameText t.frame ++ (tail ++ rest))) := by
    simp only [List.append_assoc, List.cons_append, List.nil_append]
  rw [Trap.text, hassoc, htext, Trap.record]
  split_ifs with hthree
  · rw [readLiteral_append]
    rfl
  · rw [readPanic_panicText hreason hfile]
    rfl

/-- On a prompt line, after any calls of the log: the kernel stops exactly at a fatal trap, and
the traps of the run are read back from the line, with nine words of each frame, up to that one. -/
theorem trap_log_read_back {line : ℕ → Bool} (hprompt : Prompt line serialTimeoutLimit)
    {u : Uart} (hidle : u.holding = false) (calls : List LogCall) {file : List UInt8}
    (hfile : newline ∉ textOf (some file)) {m : Kernel.Machine} (hm : m.panicked = false)
    (traps : List Trap) :
    let k := logAfter line calls ⟨u, false⟩
    let r := dispatchAll line file traps ⟨m, k⟩
    let text := unwire (received k.uart r.console)
    readMany readTrap text.length text = some ((reported traps).map (Trap.record file)) ∧
      (r.machine.panicked = true ↔ ∃ t ∈ traps, t.Fatal) := by
  intro k r text
  have hsound : Sound (fun _ => True) k := ((sound_boot u).run line calls).1
  obtain ⟨hsent, hpanicked⟩ := dispatchAll_spec file hprompt (r := ⟨m, k⟩) hm hsound
    (logAfter_idle hidle calls) traps
  have htext : text = (reported traps).flatMap (Trap.text file) := by
    change unwire (received k.uart (dispatchAll line file traps ⟨m, k⟩).console) = _
    rw [received, hsent, List.drop_left, unwire_wire]
  have hne (t : Trap) : t.text file ≠ [] := by simp [Trap.text]
  refine ⟨?_, hpanicked⟩
  rw [htext]
  exact readMany_flatMap (readTrap_text hfile) hne (reported traps) (le_refl _)

def idleMachine : Kernel.Machine where
  idt := fun _ => Kernel.gateEntry 0 0
  idtr := ⟨4095, 0x10000⟩
  loadedIdtr := ⟨4095, 0x10000⟩
  pic1 := ⟨.ready, 0x20, 0xFE, 0⟩
  pic2 := ⟨.ready, 0x28, 0xFF, 0⟩
  pit := ⟨0x36, [0x9B, 0x2E]⟩
  interruptFlag := true
  gTimerTicks := 0
  trapCount := 0
  panicked := false
  derailed := false
  entered := []
  eois := 0

def sampleTrap (vector : UInt64) : Trap :=
  ⟨⟨fun j => UInt64.ofNat j.val, vector, 0, 0x1000, 0x28, 0x202⟩, 0x46⟩

def sampleTraps : List Trap := [sampleTrap 32, sampleTrap 3, sampleTrap 14, sampleTrap 3]

theorem trap_log_read_back_fault :
    let k := logAfter slowLine [] ⟨firmwareUart, false⟩
    let r := dispatchAll slowLine (ascii "trap.c") sampleTraps ⟨idleMachine, k⟩
    let text := unwire (received k.uart r.console)
    readMany readTrap text.length text =
        some [(sampleTrap 3).record (ascii "trap.c"), (sampleTrap 14).record (ascii "trap.c")] ∧
      r.machine.panicked = true := by
  have hfile : newline ∉ textOf (some (ascii "trap.c")) := by decide
  obtain ⟨hread, hpanicked⟩ := trap_log_read_back slowLine_prompt (u := firmwareUart) rfl []
    hfile (m := idleMachine) rfl sampleTraps
  have hreported : reported sampleTraps = [sampleTrap 3, sampleTrap 14] := by
    rw [sampleTraps, reported, if_pos (by decide), reported, if_neg (by decide),
      if_neg (by decide), reported, if_neg (by decide), if_pos (by decide)]
  rw [hreported] at hread
  exact ⟨hread, hpanicked.mpr ⟨sampleTrap 14, by simp [sampleTraps], by decide⟩⟩

end Mcsos.TrapReport
