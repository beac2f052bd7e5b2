import Mcsos.KernelRuns
import Mcsos.SerialLog

/-!
# The system calls and the serial line

With the callbacks of `kmain`, a program sees a terminal: a write that lies in the user region
puts its bytes on the line, every other request puts nothing there. What the program can learn,
on the line or from the results, does not depend on memory outside the user region.
-/

namespace Mcsos.SyscallConsole
open ByteMemory Log StepRun Syscall Uart16550 WordArithmetic

structure Terminal where
  machine : Kernel.Machine
  memory : Memory
  uart : Uart

def charAt (memory : Memory) (buf : UInt64) (i : ℕ) : UInt8 :=
  memory (buf + UInt64.ofNat i).toNat

def kWriteSerial (line : ℕ → Bool) (buf len : UInt64) (e : Terminal) : Int64 × Terminal :=
  let r := Kernel.kWriteSerial buf len e.machine
  let uart :=
    if buf = 0 then e.uart
    else (List.range len.toNat).foldl
      (fun u i => serialPutc line u (charAt e.memory buf i)) e.uart
  (r.1, { e with machine := r.2, uart := uart })

def kernelOps (line : ℕ → Bool) : SyscallOps Terminal where
  getTicks := some fun e =>
    let r := Kernel.kGetTicks e.machine
    (r.1, { e with machine := r.2 })
  yieldCurrent := some fun e => { e with machine := Kernel.kYieldCurrent e.machine }
  exitCurrent := some fun code e => { e with machine := Kernel.kExitCurrent code e.machine }
  writeSerial := some (kWriteSerial line)

inductive UserEvent
  | user (memory : Memory)
  | tick
  | syscall (nr arg0 arg1 arg2 arg3 arg4 arg5 : UInt64)

def userStep (s : SyscallState Terminal) :
    UserEvent → Option (SyscallState Terminal × Option Int64)
  | .user memory => some ({ s with mem := memory, env := { s.env with memory := memory } }, none)
  | .tick =>
      some ({ s with env := { s.env with machine := Kernel.timerOnIrq0 s.env.machine } }, none)
  | .syscall nr arg0 arg1 arg2 arg3 arg4 arg5 =>
      (mcsosSyscallDispatch s nr arg0 arg1 arg2 arg3 arg4 arg5).map fun r => (r.2, some r.1)

def userBytes (memory : Memory) (buf len : UInt64) : List UInt8 :=
  (List.range len.toNat).map (charAt memory buf)

theorem transmit_foldl (line : ℕ → Bool) (text : List UInt8) (u : Uart) :
    text.foldl (serialPutc line) u = transmit line text u := by
  induction text generalizing u with
  | nil => rfl
  | cons c text ih => rw [List.foldl_cons, ih, serialPutc_eq, ← transmit_append]; rfl

theorem kWriteSerial_eq (line : ℕ → Bool) {buf : UInt64} (h : buf ≠ 0) (len : UInt64)
    (e : Terminal) :
    kWriteSerial line buf len e =
      (len.toInt64, { e with uart := transmit line (userBytes e.memory buf len) e.uart }) := by
  rw [kWriteSerial, Kernel.kWriteSerial, if_neg h, if_neg h, ← transmit_foldl, userBytes,
    List.foldl_map]

def Window (region : UserRegion) (addr len : UInt64) : Prop :=
  len = 0 ∨ region.base ≠ 0 ∧ region.base < region.limit ∧ Inside region addr.toNat len.toNat

instance (region : UserRegion) (addr len : UInt64) : Decidable (Window region addr len) :=
  inferInstanceAs (Decidable (_ ∨ _ ∧ _ ∧ _ ∧ _))

theorem check_iff_window (region : UserRegion) (addr len : UInt64) :
    mcsosUserCheckRange region addr len = true ↔ Window region addr len := by
  by_cases hlen : len = 0
  · simp [hlen, mcsosUserCheckRange, Window]
  · rw [mcsosUserCheckRange_iff region addr hlen, Window, or_iff_right hlen]

def Accepted (region : UserRegion) (nr ptr len : UInt64) : Prop :=
  nr = 2 ∧ ptr ≠ 0 ∧ len ≤ 4096 ∧ Window region ptr len

instance (region : UserRegion) (nr ptr len : UInt64) : Decidable (Accepted region nr ptr len) :=
  inferInstanceAs (Decidable (_ ∧ _ ∧ _ ∧ _))

def reply (region : UserRegion) (ticks nr ptr len : UInt64) : Int64 :=
  match nr.toNat with
  | 0 => 0x2605020A
  | 1 => ticks.toInt64
  | 2 =>
      if ptr = 0 ∨ 4096 < len then Status.einval.code
      else if Window region ptr len then len.toInt64
      else Status.efault.code
  | 3 => Status.ok.code
  | 4 => Status.ok.code
  | _ => Status.enosys.code

def output (region : UserRegion) (memory : Memory) (nr ptr len : UInt64) : List UInt8 :=
  if Accepted region nr ptr len then userBytes memory ptr len else []

structure Installed (line : ℕ → Bool) (region : UserRegion) (s : SyscallState Terminal) : Prop where
  ops : s.ops = kernelOps line
  region : s.userRegion = region

section Dispatch

variable {line : ℕ → Bool} {region : UserRegion} {s : SyscallState Terminal}

structure Answers (line : ℕ → Bool) (region : UserRegion) (s s' : SyscallState Terminal)
    (text : List UInt8) : Prop where
  installed : Installed line region s'
  env : s'.env = { s.env with uart := transmit line text s.env.uart }

theorem Installed.silent (h : Installed line region s) : Answers line region s s [] := ⟨h, rfl⟩

theorem sysWriteSerial_answers (h : Installed line region s)
    (ptr len arg2 arg3 arg4 arg5 : UInt64) :
    ∃ s', sysWriteSerial s ptr len arg2 arg3 arg4 arg5 =
        some (reply region s.env.machine.gTimerTicks 2 ptr len, s') ∧
      Answers line region s s' (output region s.env.memory 2 ptr len) := by
  have hreply : reply region s.env.machine.gTimerTicks 2 ptr len =
      if ptr = 0 ∨ 4096 < len then Status.einval.code
      else if Window region ptr len then len.toInt64 else Status.efault.code := rfl
  have hrefused (hnot : ¬ Accepted region 2 ptr len) :
      Answers line region s s (output region s.env.memory 2 ptr len) := by
    rw [output, if_neg hnot]
    exact h.silent
  rw [sysWriteSerial, hreply, h.region, h.ops]
  by_cases hnull : ptr = 0
  · rw [if_pos hnull, if_pos (Or.inl hnull)]
    exact ⟨s, rfl, hrefused fun ha => ha.2.1 hnull⟩
  by_cases hlong : 4096 < len
  · rw [if_neg hnull, if_pos hlong, if_pos (Or.inr hlong)]
    exact ⟨s, rfl, hrefused fun ha => absurd hlong (UInt64.not_lt.mpr ha.2.2.1)⟩
  rw [if_neg hnull, if_neg hlong, if_neg (not_or.mpr ⟨hnull, hlong⟩)]
  by_cases hwindow : Window region ptr len
  · have haccepted : Accepted region 2 ptr len :=
      ⟨rfl, hnull, UInt64.not_lt.mp hlong, hwindow⟩
    have hcheck := (check_iff_window region ptr len).mpr hwindow
    rw [if_neg (by rw [hcheck]; decide), if_pos hwindow, output, if_pos haccepted]
    change ∃ s', some ((kWriteSerial line ptr len s.env).1, _) = _ ∧ _
    rw [kWriteSerial_eq line hnull]
    exact ⟨_, rfl, ⟨h.ops, h.region⟩, rfl⟩
  · have hcheck : mcsosUserCheckRange region ptr len = false := by
      rw [← Bool.not_eq_true, check_iff_window]
      exact hwindow
    rw [if_pos hcheck, if_neg hwindow]
    exact ⟨s, rfl, hrefused fun ha => hwindow ha.2.2.2⟩

theorem dispatch_answers (h : Installed line region s)
    (nr ptr len arg2 arg3 arg4 arg5 : UInt64) :
    ∃ s', mcsosSyscallDispatch s nr ptr len arg2 arg3 arg4 arg5 =
        some (reply region s.env.machine.gTimerTicks nr ptr len, s') ∧
      Answers line region s s' (output region s.env.memory nr ptr len) := by
  have hother (hne : nr ≠ 2) {s' : SyscallState Terminal} (hinstalled : Installed line region s')
      (henv : s'.env = s.env) :
      Answers line region s s' (output region s.env.memory nr ptr len) := by
    rw [output, if_neg (fun ha => hne ha.1)]
    exact ⟨hinstalled, henv⟩
  by_cases hmax : nr ≥ sysMax
  · have hbig : 5 ≤ nr.toNat := UInt64.le_iff_toNat_le.mp hmax
    have hreply : reply region s.env.machine.gTimerTicks nr ptr len = Status.enosys.code := by
      rw [reply]
      split <;> first | rfl | omega
    rw [mcsosSyscallDispatch, if_pos hmax, hreply]
    exact ⟨s, rfl, hother (fun heq => absurd hbig (by rw [heq]; decide)) h rfl⟩
  have hlt : nr.toNat < 5 := by
    rw [ge_iff_le, UInt64.le_iff_toNat_le, not_le] at hmax
    exact hmax
  have hnr : nr = 0 ∨ nr = 1 ∨ nr = 2 ∨ nr = 3 ∨ nr = 4 := by
    simp only [← UInt64.toNat_inj, UInt64.reduceToNat]
    omega
  have hnote (e : Event) : Installed line region (s.note e) := ⟨h.ops, h.region⟩
  rcases hnr with rfl | rfl | rfl | rfl | rfl
  · exact ⟨s, rfl, hother (by decide) h rfl⟩
  · have hcall : sysGetTicks s ptr len arg2 arg3 arg4 arg5 =
        some (s.env.machine.gTimerTicks.toInt64, s.note .getTicks) := by
      rw [sysGetTicks, h.ops]
      rfl
    exact ⟨_, hcall, hother (by decide) (hnote .getTicks) rfl⟩
  · exact sysWriteSerial_answers h ptr len arg2 arg3 arg4 arg5
  · have hcall : sysYield s ptr len arg2 arg3 arg4 arg5 =
        some (Status.ok.code, s.note .yieldCurrent) := by
      rw [sysYield, h.ops]
      rfl
    exact ⟨_, hcall, hother (by decide) (hnote .yieldCurrent) rfl⟩
  · have hcall : sysExitThread s ptr len arg2 arg3 arg4 arg5 =
        some (Status.ok.code, s.note (.exitCurrent ptr.toUInt32.toInt32)) := by
      rw [sysExitThread, h.ops]
      rfl
    exact ⟨_, hcall, hother (by decide) (hnote _) rfl⟩

end Dispatch

/-- What a program sees of the kernel: its memory, the time and a terminal. -/
structure Screen where
  memory : Memory
  ticks : UInt64
  text : List UInt8

def screenStep (region : UserRegion) (t : Screen) : UserEvent → Screen × Option Int64
  | .user memory => ({ t with memory := memory }, none)
  | .tick => ({ t with ticks := t.ticks + 1 }, none)
  | .syscall nr ptr len _ _ _ _ =>
      ({ t with text := t.text ++ output region t.memory nr ptr len },
        some (reply region t.ticks nr ptr len))

structure Shows (line : ℕ → Bool) (region : UserRegion) (u : Uart) (s : SyscallState Terminal)
    (t : Screen) : Prop where
  installed : Installed line region s
  memory : s.env.memory = t.memory
  ticks : s.env.machine.gTimerTicks = t.ticks
  uart : s.env.uart = transmit line t.text u

section Runs

variable {line : ℕ → Bool} {region : UserRegion} {u : Uart}

theorem Shows.step {s : SyscallState Terminal} {t : Screen} (h : Shows line region u s t)
    (e : UserEvent) :
    ∃ s', userStep s e = some (s', (screenStep region t e).2) ∧
      Shows line region u s' (screenStep region t e).1 := by
  cases e with
  | user memory =>
    exact ⟨_, rfl, ⟨h.installed.ops, h.installed.region⟩, rfl, h.ticks, h.uart⟩
  | tick =>
    exact ⟨_, rfl, ⟨h.installed.ops, h.installed.region⟩, h.memory,
      congrArg (· + 1) h.ticks, h.uart⟩
  | syscall nr ptr len arg2 arg3 arg4 arg5 =>
    obtain ⟨s', hcall, hanswers⟩ := dispatch_answers h.installed nr ptr len arg2 arg3 arg4 arg5
    refine ⟨s', ?_, hanswers.installed, ?_, ?_, ?_⟩
    · rw [userStep, hcall, h.ticks]
      rfl
    · rw [hanswers.env]
      exact h.memory
    · rw [hanswers.env]
      exact h.ticks
    · rw [hanswers.env, h.memory, h.uart]
      exact (transmit_append line _ _ _).symm

variable (line region)

def served (s : SyscallState Terminal) : SyscallState Terminal :=
  mcsosSyscallSetUserRegion (mcsosSyscallInit s (some (kernelOps line))) region

def screenOf (s : SyscallState Terminal) : Screen :=
  ⟨s.env.memory, s.env.machine.gTimerTicks, []⟩

theorem served_shows (s : SyscallState Terminal) (events : List UserEvent) :
    ∃ s', run userStep (served line region s) events =
        some (s', (runTotal (screenStep region) (screenOf s) events).2) ∧
      Shows line region s.env.uart s' (runTotal (screenStep region) (screenOf s) events).1 :=
  run_refines (Shows line region s.env.uart) (fun _ _ e h => h.step e)
    ⟨⟨rfl, rfl⟩, rfl, rfl, rfl⟩ events

variable {line}

/-- For every run of a program and every user region, on a prompt line: no call of a callback
faults, the results are those of the terminal, and the line gets its text with its newlines as
CR LF. -/
theorem syscalls_refine_terminal (hprompt : Prompt line serialTimeoutLimit)
    {s : SyscallState Terminal} {i : UInt8} (hsetup : s.env.uart.setup = configured i)
    (events : List UserEvent) :
    ∃ s', run userStep (served line region s) events =
        some (s', (runTotal (screenStep region) (screenOf s) events).2) ∧
      s'.env.uart.sent = s.env.uart.sent ++
        wire (runTotal (screenStep region) (screenOf s) events).1.text := by
  obtain ⟨s', hrun, hshows⟩ := served_shows line region s events
  refine ⟨s', hrun, ?_⟩
  rw [hshows.uart]
  apply foldl_send_prompt line hprompt
  rw [hsetup, configured_access]

def userWindow : UserRegion := ⟨0x400000, 0x800000000000⟩

def helloMemory (rest : UInt8) (a : ℕ) : UInt8 :=
  if a = 0x400000 then 104 else if a = 0x400001 then 105 else if a = 0x400002 then 10 else rest

def bootedState (memory : Memory) : SyscallState Terminal where
  ops := ⟨none, none, none, none⟩
  userRegion := ⟨0, 0⟩
  mem := memory
  env := ⟨Kernel.sampleFirmware.machine, memory, ⟨configured 0, false, [], 0, 0⟩⟩
  log := []

def helloEvents : List UserEvent :=
  [.syscall 2 0x400000 3 0 0 0 0, .tick, .syscall 2 0x1000 4 0 0 0 0, .syscall 2 0 1 0 0 0 0,
    .syscall 1 0 0 0 0 0 0]

theorem syscalls_refine_terminal_hello :
    ∃ s', run userStep (served slowLine userWindow (bootedState (helloMemory 0))) helloEvents =
        some (s', [some 3, none, some (-14), some (-22), some 1]) ∧
      s'.env.uart.sent = [104, 105, 13, 10] := by
  obtain ⟨s', hrun, hsent⟩ := syscalls_refine_terminal userWindow slowLine_prompt
    (s := bootedState (helloMemory 0)) (i := 0) rfl helloEvents
  have hresults : (runTotal (screenStep userWindow) (screenOf (bootedState (helloMemory 0)))
      helloEvents).2 = [some 3, none, some (-14), some (-22), some 1] := by decide +kernel
  have htext : wire (runTotal (screenStep userWindow) (screenOf (bootedState (helloMemory 0)))
      helloEvents).1.text = [104, 105, 13, 10] := by decide +kernel
  rw [hresults] at hrun
  rw [htext] at hsent
  exact ⟨s', hrun, hsent⟩

def Agree (region : UserRegion) (memory memory' : Memory) : Prop :=
  ∀ a, region.base.toNat ≤ a → a < region.limit.toNat → memory a = memory' a

inductive Alike (region : UserRegion) : UserEvent → UserEvent → Prop
  | user {memory memory' : Memory} (h : Agree region memory memory') :
      Alike region (.user memory) (.user memory')
  | same (e : UserEvent) : Alike region e e

def kernelFilled (secret : UInt8) (a : ℕ) : UInt8 :=
  if a < 0x400000 then secret else helloMemory 0 a

theorem kernelFilled_agree (secret secret' : UInt8) :
    Agree userWindow (kernelFilled secret) (kernelFilled secret') := by
  intro a hbase _
  have hnot : ¬ a < 0x400000 := Nat.not_lt.mpr hbase
  rw [kernelFilled, kernelFilled, if_neg hnot, if_neg hnot]

variable {region}

theorem userBytes_agree {memory memory' : Memory} (h : Agree region memory memory')
    {ptr len : UInt64} (hwindow : Window region ptr len) :
    userBytes memory ptr len = userBytes memory' ptr len := by
  rcases hwindow with hempty | ⟨-, -, hbase, hlimit⟩
  · rw [hempty]
    rfl
  · apply List.map_congr_left
    intro j hj
    have hj' := List.mem_range.mp hj
    have hlt := region.limit.toNat_lt
    have haddr : (ptr + UInt64.ofNat j).toNat = ptr.toNat + j := by
      rw [UInt64.toNat_add, UInt64.toNat_ofNat']
      omega
    rw [charAt, charAt, haddr]
    exact h _ (by omega) (by omega)

theorem output_agree {memory memory' : Memory} (h : Agree region memory memory')
    (nr ptr len : UInt64) :
    output region memory nr ptr len = output region memory' nr ptr len := by
  rw [output, output]
  split_ifs with haccepted
  · exact userBytes_agree h haccepted.2.2.2
  · rfl

theorem screen_agree {events events' : List UserEvent}
    (hevents : List.Forall₂ (Alike region) events events') {t t' : Screen}
    (hmemory : Agree region t.memory t'.memory) (hticks : t.ticks = t'.ticks)
    (htext : t.text = t'.text) :
    (runTotal (screenStep region) t events).2 = (runTotal (screenStep region) t' events').2 ∧
      (runTotal (screenStep region) t events).1.text =
        (runTotal (screenStep region) t' events').1.text := by
  induction hevents generalizing t t' with
  | nil => exact ⟨rfl, htext⟩
  | @cons e e' events events' hhead htail ih =>
    obtain ⟨hreply, hmemory', hticks', htext'⟩ :
        (screenStep region t e).2 = (screenStep region t' e').2 ∧
        Agree region (screenStep region t e).1.memory (screenStep region t' e').1.memory ∧
        (screenStep region t e).1.ticks = (screenStep region t' e').1.ticks ∧
        (screenStep region t e).1.text = (screenStep region t' e').1.text := by
      cases hhead with
      | user h => exact ⟨rfl, h, hticks, htext⟩
      | same e =>
        cases e with
        | user memory => exact ⟨rfl, fun _ _ _ => rfl, hticks, htext⟩
        | tick => exact ⟨rfl, hmemory, congrArg (· + 1) hticks, htext⟩
        | syscall nr ptr len =>
          simp only [screenStep, hticks, htext, output_agree hmemory]
          exact ⟨trivial, hmemory, trivial, trivial⟩
    obtain ⟨hreplies, htexts⟩ := ih hmemory' hticks' htext'
    exact ⟨congrArg₂ List.cons hreply hreplies, htexts⟩

/-- Nothing outside the user region leaks: two runs of a program, from the same port and time,
whose memories agree in the user region whenever the program has run, give the same results and
leave the port in the same state, on every line. -/
theorem syscalls_leak_nothing {s s' : SyscallState Terminal}
    (huart : s.env.uart = s'.env.uart)
    (hticks : s.env.machine.gTimerTicks = s'.env.machine.gTimerTicks)
    (hmemory : Agree region s.env.memory s'.env.memory) {events events' : List UserEvent}
    (hevents : List.Forall₂ (Alike region) events events') :
    ∃ t t' results, run userStep (served line region s) events = some (t, results) ∧
      run userStep (served line region s') events' = some (t', results) ∧
      t.env.uart = t'.env.uart := by
  obtain ⟨t, hrun, hshows⟩ := served_shows line region s events
  obtain ⟨t', hrun', hshows'⟩ := served_shows line region s' events'
  have hscreen : Agree region (screenOf s).memory (screenOf s').memory := hmemory
  obtain ⟨hresults, htext⟩ := screen_agree hevents hscreen hticks rfl
  refine ⟨t, t', _, hrun, ?_, ?_⟩
  · rw [hresults]
    exact hrun'
  · rw [hshows.uart, hshows'.uart, htext, huart]

end Runs

theorem syscalls_leak_nothing_hello :
    ∃ t t' results,
      run userStep (served slowLine userWindow (bootedState (helloMemory 0)))
        (.user (kernelFilled 1) :: helloEvents) = some (t, results) ∧
      run userStep (served slowLine userWindow (bootedState (helloMemory 0)))
        (.user (kernelFilled 2) :: helloEvents) = some (t', results) ∧
      t.env.uart = t'.env.uart :=
  syscalls_leak_nothing rfl rfl (fun _ _ _ => rfl)
    (.cons (.user (kernelFilled_agree 1 2)) (List.forall₂_same.mpr fun e _ => .same e))

end Mcsos.SyscallConsole
