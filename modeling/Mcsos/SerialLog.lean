import Mcsos.Uart16550

/-!
# The serial console

The kernel log goes out on COM1. The first call of the log sets the port up, whatever the
firmware left behind. A newline becomes a carriage return and a newline, and a byte for which the
transmitter is busy too long is dropped. Every call of the log prints a text; what arrives on the
line is the text without the dropped bytes.
-/

namespace Mcsos.Log
open Uart16550

def com1Port : UInt16 := 0x3F8
def serialTimeoutLimit : ℕ := 100000

def outb (line : ℕ → Bool) (port : UInt16) (value : UInt8) (u : Uart) : Uart :=
  if com1Port ≤ port ∧ port < com1Port + 8 then u.write line (port - com1Port).toNat value else u

def inb (line : ℕ → Bool) (port : UInt16) (u : Uart) : UInt8 × Uart :=
  if com1Port ≤ port ∧ port < com1Port + 8 then u.read line (port - com1Port).toNat
  else (0xFF, u)

def serialTransmitEmpty (line : ℕ → Bool) (u : Uart) : Bool × Uart :=
  let r := inb line (com1Port + 5) u
  (r.1 &&& 0x20 != 0, r.2)

def serialInit (line : ℕ → Bool) (u : Uart) : Uart :=
  let u := outb line (com1Port + 1) 0x00 u
  let u := outb line (com1Port + 3) 0x80 u
  let u := outb line (com1Port + 0) 0x03 u
  let u := outb line (com1Port + 1) 0x00 u
  let u := outb line (com1Port + 3) 0x03 u
  let u := outb line (com1Port + 2) 0xC7 u
  outb line (com1Port + 4) 0x0B u

def waitTransmit (line : ℕ → Bool) : ℕ → Uart → Bool × Uart
  -- The loop of `serial_putc`; `remaining` is `SERIAL_TIMEOUT_LIMIT - spin`.
  | 0, u => (false, u)
  | remaining + 1, u =>
      let r := serialTransmitEmpty line u
      if r.1 then r else waitTransmit line remaining r.2

def newline : UInt8 := 10
def carriageReturn : UInt8 := 13

def serialPutByte (line : ℕ → Bool) (u : Uart) (c : UInt8) : Uart :=
  let r := waitTransmit line serialTimeoutLimit u
  if r.1 then outb line com1Port c r.2 else r.2

def serialPutc (line : ℕ → Bool) (u : Uart) (c : UInt8) : Uart :=
  -- The recursive call is for a carriage return, so it is not followed by another one.
  let u := if c = newline then serialPutByte line u carriageReturn else u
  serialPutByte line u c

def serialChars (line : ℕ → Bool) : List UInt8 → Uart → Uart
  | [], u => u
  | c :: s, u => if c = 0 then u else serialChars line s (serialPutc line u c)

/-- A string is the list of bytes from its address on, or a null pointer. -/
def serialWrite (line : ℕ → Bool) (s : Option (List UInt8)) (u : Uart) : Uart :=
  match s with
  | none => u
  | some s => serialChars line s u

structure Console where
  uart : Uart
  gLogReady : Bool

def logInit (line : ℕ → Bool) (k : Console) : Console := ⟨serialInit line k.uart, true⟩

def ensureReady (line : ℕ → Bool) (k : Console) : Console :=
  if k.gLogReady = false then ⟨serialInit line k.uart, true⟩ else k

def logPutc (line : ℕ → Bool) (c : UInt8) (k : Console) : Console :=
  let k := ensureReady line k
  { k with uart := serialPutc line k.uart c }

def logWrite (line : ℕ → Bool) (s : Option (List UInt8)) (k : Console) : Console :=
  let k := ensureReady line k
  { k with uart := serialWrite line s k.uart }

def logWriteln (line : ℕ → Bool) (s : Option (List UInt8)) (k : Console) : Console :=
  logPutc line newline (logWrite line s k)

def ascii (s : String) : List UInt8 := s.toList.map (fun c => UInt8.ofNat c.toNat)

def hexDigits : List UInt8 := ascii "0123456789abcdef"

def hexDigit (value shift : UInt64) : UInt8 :=
  hexDigits.getD ((value >>> shift) &&& 0x0F).toNat 0

def hexShifts : List UInt64 := [60, 56, 52, 48, 44, 40, 36, 32, 28, 24, 20, 16, 12, 8, 4, 0]

def logHex64 (line : ℕ → Bool) (value : UInt64) (k : Console) : Console :=
  hexShifts.foldl (fun k shift => logPutc line (hexDigit value shift) k)
    (logWrite line (some (ascii "0x")) k)

def logKeyValueHex64 (line : ℕ → Bool) (key : Option (List UInt8)) (value : UInt64)
    (k : Console) : Console :=
  let k := logWrite line key k
  let k := logWrite line (some (ascii "=")) k
  let k := logHex64 line value k
  logPutc line newline k

def decDigits : ℕ → UInt32 → List UInt8
  -- The digits in `buf`, the last one first; `room` is `sizeof(buf) - i`.
  | 0, _ => []
  | room + 1, value =>
      if value = 0 then []
      else (48 + (value % 10).toUInt8) :: decDigits room (value / 10)

def logDecU32 (line : ℕ → Bool) (value : UInt32) (k : Console) : Console :=
  if value = 0 then logPutc line 48 k
  else (decDigits 11 value).reverse.foldl (fun k c => logPutc line c k) k

structure PanicInfo where
  file : Option (List UInt8)
  line : Int32
  reason : Option (List UInt8)
  code : UInt64

def logPanicHeader (line : ℕ → Bool) (k : Console) : Console :=
  let k := logWriteln line (some (ascii "")) k
  let k := logWriteln line
    (some (ascii "================ MCSOS KERNEL PANIC ================")) k
  let k := logWrite line (some (ascii "system=")) k
  let k := logWrite line (some (ascii "MCSOS")) k
  let k := logWrite line (some (ascii " version=")) k
  let k := logWrite line (some (ascii "260502")) k
  let k := logWrite line (some (ascii " milestone=")) k
  logWriteln line (some (ascii "M3")) k

def logPanicReason (line : ℕ → Bool) (p : PanicInfo) (k : Console) : Console :=
  let k := logWrite line (some (ascii "reason=")) k
  logWriteln line (some (p.reason.getD (ascii "<null>"))) k

def logPanicLocation (line : ℕ → Bool) (p : PanicInfo) (k : Console) : Console :=
  let k := logWrite line (some (ascii "location=")) k
  let k := logWrite line (some (p.file.getD (ascii "<unknown>"))) k
  let k := logWrite line (some (ascii ":")) k
  let k := logDecU32 line p.line.toUInt32 k
  logPutc line newline k

def logPanicFooter (line : ℕ → Bool) (k : Console) : Console :=
  let k := logWriteln line (some (ascii "state=halted")) k
  logWriteln line (some (ascii "====================================================")) k

/-- What `kernel_panic_at` prints before it halts; `rflags` was read before `cli`. -/
def kernelPanicAt (line : ℕ → Bool) (p : PanicInfo) (rflags : UInt64) (k : Console) : Console :=
  let k := logPanicHeader line k
  let k := logPanicReason line p k
  let k := logPanicLocation line p k
  let k := logKeyValueHex64 line (some (ascii "panic_code")) p.code k
  let k := logKeyValueHex64 line (some (ascii "rflags_before_cli")) rflags k
  logPanicFooter line k

def wire (text : List UInt8) : List UInt8 :=
  text.flatMap fun c => if c = newline then [carriageReturn, newline] else [c]

theorem wire_append (s t : List UInt8) : wire (s ++ t) = wire s ++ wire t := List.flatMap_append

def cString (s : List UInt8) : List UInt8 := s.takeWhile (· ≠ 0)

def textOf (s : Option (List UInt8)) : List UInt8 := cString (s.getD [])

def transmit (line : ℕ → Bool) (text : List UInt8) (u : Uart) : Uart :=
  (wire text).foldl (send line serialTimeoutLimit) u

theorem transmit_append (line : ℕ → Bool) (s t : List UInt8) (u : Uart) :
    transmit line (s ++ t) u = transmit line t (transmit line s u) := by
  rw [transmit, wire_append, List.foldl_append]
  rfl

section Driver

variable (line : ℕ → Bool)

theorem serialTransmitEmpty_eq (u : Uart) :
    serialTransmitEmpty line u = (!(u.tick line).holding, u.tick line) := by
  have hport : inb line (com1Port + 5) u = u.read line 5 := rfl
  rw [serialTransmitEmpty, hport]
  simp only [Uart.read, Uart.lineStatus, if_true]
  cases (u.tick line).holding <;> rfl

theorem waitTransmit_eq (remaining : ℕ) (u : Uart) :
    waitTransmit line remaining u = await line remaining u := by
  induction remaining generalizing u with
  | zero => rfl
  | succ remaining ih =>
    rw [waitTransmit, await, serialTransmitEmpty_eq]
    cases h : (u.tick line).holding with
    | false => rfl
    | true => exact ih _

theorem serialPutByte_eq (u : Uart) (c : UInt8) :
    serialPutByte line u c = send line serialTimeoutLimit u c := by
  rw [serialPutByte, send, waitTransmit_eq]
  rfl

theorem serialPutc_eq (u : Uart) (c : UInt8) : serialPutc line u c = transmit line [c] u := by
  simp only [serialPutc, serialPutByte_eq, transmit, wire, List.flatMap_cons, List.flatMap_nil,
    List.append_nil]
  split_ifs with hc
  · rw [hc]
    rfl
  · rfl

theorem serialWrite_eq (s : Option (List UInt8)) (u : Uart) :
    serialWrite line s u = transmit line (textOf s) u := by
  cases s with
  | none => rfl
  | some s =>
    induction s generalizing u with
    | nil => rfl
    | cons c s ih =>
      by_cases hc : c = 0
      · simp [serialWrite, serialChars, textOf, cString, hc, transmit, wire]
      · have hcons : textOf (some (c :: s)) = [c] ++ textOf (some s) := by
          simp [textOf, cString, hc]
        rw [hcons, transmit_append, ← ih, ← serialPutc_eq]
        simp [serialWrite, serialChars, hc]

theorem serialInit_eq (u : Uart) :
    serialInit line u = (((((((u.write line 1 0).write line 3 0x80).write line 0 3).write line 1
      0).write line 3 3).write line 2 0xC7).write line 4 0x0B) := rfl

/-- The port as the driver sets it up: 38400 baud, 8 data bits, no parity, the FIFO on. -/
def configured (interruptEnable : UInt8) : Setup :=
  { interruptEnable := interruptEnable, fifoControl := 0xC7, lineControl := 0x03,
    modemControl := 0x0B, divisorLow := 0x03, divisorHigh := 0 }

theorem configured_access (interruptEnable : UInt8) :
    (configured interruptEnable).divisorAccess = false := by
  simp only [configured, Setup.divisorAccess]
  decide

theorem serialInit_setup (u : Uart) :
    (serialInit line u).setup =
      configured (if u.setup.divisorAccess then u.setup.interruptEnable else 0) := by
  -- A port that is left with access to its divisor latches keeps its interrupts as they were: the
  -- first write goes to the divisor.
  have hrest (s : Setup) : (((((s.write 3 0x80).write 0 3).write 1 0).write 3 3).write 2
      0xC7).write 4 0x0B = configured s.interruptEnable := by
    simp [Setup.write, Setup.divisorAccess, configured]
  have hfirst : (u.setup.write 1 0).interruptEnable =
      if u.setup.divisorAccess then u.setup.interruptEnable else 0 := by
    rw [Setup.write]
    split_ifs <;> rfl
  simp only [serialInit_eq, Uart.write_setup]
  rw [hrest, hfirst]

theorem serialInit_programmed (u : Uart) : Programmed 7 u (serialInit line u) := by
  have hone {register : ℕ} (hne : register ≠ 0) (u : Uart) (value : UInt8) :
      Programmed 1 u (u.write line register value) :=
    Uart.write_programmed line (fun h => absurd h hne) value
  have hdivisor (u : Uart) (value : UInt8) :
      Programmed 1 (u.write line 3 0x80) ((u.write line 3 0x80).write line 0 value) :=
    Uart.write_programmed line
      (fun _ => by simp [Uart.write_setup, Setup.write, Setup.divisorAccess]) value
  rw [serialInit_eq]
  exact (((((((hone one_ne_zero u 0).trans (hone three_ne_zero _ _)).trans
    (hdivisor _ _)).trans (hone one_ne_zero _ _)).trans (hone three_ne_zero _ _)).trans
    (hone two_ne_zero _ _)).trans (hone four_ne_zero _ _))

/-- A call of the log prints a text: it sets the port up if that was not done, and transmits. -/
def Prints (f : Console → Console) (text : List UInt8) : Prop :=
  ∀ k, f k = ⟨transmit line text (ensureReady line k).uart, true⟩

variable {line}

theorem ensureReady_ready (k : Console) : (ensureReady line k).gLogReady = true := by
  rw [ensureReady]
  split_ifs with h
  · rfl
  · exact Bool.not_eq_false _ ▸ h

theorem Prints.comp {f g : Console → Console} {s t : List UInt8} (hf : Prints line f s)
    (hg : Prints line g t) : Prints line (fun k => g (f k)) (s ++ t) := by
  intro k
  change g (f k) = _
  rw [hg, hf, transmit_append]
  rfl

theorem prints_logPutc (c : UInt8) : Prints line (logPutc line c) [c] := by
  intro k
  simp only [logPutc, serialPutc_eq, ensureReady_ready]

theorem prints_logWrite (s : Option (List UInt8)) :
    Prints line (logWrite line s) (textOf s) := by
  intro k
  simp only [logWrite, serialWrite_eq, ensureReady_ready]

theorem prints_logWriteln (s : Option (List UInt8)) :
    Prints line (logWriteln line s) (textOf s ++ [newline]) :=
  (prints_logWrite s).comp (prints_logPutc newline)

theorem Prints.foldl {α : Type} {f : α → Console → Console} {c : α → UInt8}
    (hf : ∀ x, Prints line (f x) [c x]) {g : Console → Console} {s : List UInt8}
    (hg : Prints line g s) (l : List α) :
    Prints line (fun k => l.foldl (fun k x => f x k) (g k)) (s ++ l.map c) := by
  induction l generalizing g s with
  | nil =>
    rw [List.map_nil, List.append_nil]
    exact hg
  | cons x l ih =>
    rw [List.map_cons, List.append_cons]
    exact ih (hg.comp (hf x))

def hexText (value : UInt64) : List UInt8 := ascii "0x" ++ hexShifts.map (hexDigit value)

theorem prints_logHex64 (value : UInt64) : Prints line (logHex64 line value) (hexText value) :=
  Prints.foldl (fun shift => prints_logPutc (hexDigit value shift))
    (prints_logWrite (some (ascii "0x"))) hexShifts

def keyValueText (key : Option (List UInt8)) (value : UInt64) : List UInt8 :=
  textOf key ++ ascii "=" ++ hexText value ++ [newline]

theorem prints_logKeyValueHex64 (key : Option (List UInt8)) (value : UInt64) :
    Prints line (logKeyValueHex64 line key value) (keyValueText key value) :=
  (((prints_logWrite key).comp (prints_logWrite (some (ascii "=")))).comp
    (prints_logHex64 value)).comp (prints_logPutc newline)

def decText (value : UInt32) : List UInt8 :=
  if value = 0 then [48] else (decDigits 11 value).reverse

theorem decDigits_ne_nil {value : UInt32} (h : value ≠ 0) : decDigits 11 value ≠ [] := by
  rw [decDigits, if_neg h]
  exact List.cons_ne_nil _ _

theorem prints_logDecU32 (value : UInt32) : Prints line (logDecU32 line value) (decText value) := by
  intro k
  rw [logDecU32, decText]
  split_ifs with hzero
  · exact prints_logPutc 48 k
  · obtain ⟨c, l, hl⟩ : ∃ c l, (decDigits 11 value).reverse = c :: l :=
      List.exists_cons_of_ne_nil (List.reverse_ne_nil_iff.mpr (decDigits_ne_nil hzero))
    have hfirst : Prints line (logPutc line c) [c] := prints_logPutc c
    have hprints := Prints.foldl prints_logPutc hfirst l k
    rw [List.map_id'] at hprints
    rw [hl]
    exact hprints

def panicHeader : List UInt8 :=
  textOf (some (ascii "")) ++ [newline] ++
    (textOf (some (ascii "================ MCSOS KERNEL PANIC ================")) ++ [newline]) ++
    textOf (some (ascii "system=")) ++ textOf (some (ascii "MCSOS")) ++
    textOf (some (ascii " version=")) ++ textOf (some (ascii "260502")) ++
    textOf (some (ascii " milestone=")) ++ (textOf (some (ascii "M3")) ++ [newline])

theorem prints_logPanicHeader : Prints line (logPanicHeader line) panicHeader := by
  have hrule : Prints line _ _ := (prints_logWriteln (some (ascii ""))).comp (prints_logWriteln
    (some (ascii "================ MCSOS KERNEL PANIC ================")))
  have hsystem := (hrule.comp (prints_logWrite (some (ascii "system=")))).comp
    (prints_logWrite (some (ascii "MCSOS")))
  have hversion := (hsystem.comp (prints_logWrite (some (ascii " version=")))).comp
    (prints_logWrite (some (ascii "260502")))
  exact (hversion.comp (prints_logWrite (some (ascii " milestone=")))).comp
    (prints_logWriteln (some (ascii "M3")))

def PanicInfo.reasonText (p : PanicInfo) : List UInt8 :=
  textOf (some (p.reason.getD (ascii "<null>")))
def PanicInfo.fileText (p : PanicInfo) : List UInt8 :=
  textOf (some (p.file.getD (ascii "<unknown>")))

def PanicInfo.reasonLine (p : PanicInfo) : List UInt8 :=
  textOf (some (ascii "reason=")) ++ (p.reasonText ++ [newline])

theorem prints_logPanicReason (p : PanicInfo) :
    Prints line (logPanicReason line p) p.reasonLine :=
  (prints_logWrite (some (ascii "reason="))).comp (prints_logWriteln _)

def PanicInfo.locationLine (p : PanicInfo) : List UInt8 :=
  textOf (some (ascii "location=")) ++ p.fileText ++ textOf (some (ascii ":")) ++
    decText p.line.toUInt32 ++ [newline]

theorem prints_logPanicLocation (p : PanicInfo) :
    Prints line (logPanicLocation line p) p.locationLine := by
  have hfile : Prints line _ _ := ((prints_logWrite (some (ascii "location="))).comp
    (prints_logWrite (some (p.file.getD (ascii "<unknown>"))))).comp
    (prints_logWrite (some (ascii ":")))
  exact (hfile.comp (prints_logDecU32 p.line.toUInt32)).comp (prints_logPutc newline)

def panicFooter : List UInt8 :=
  (textOf (some (ascii "state=halted")) ++ [newline]) ++
    (textOf (some (ascii "====================================================")) ++ [newline])

theorem prints_logPanicFooter : Prints line (logPanicFooter line) panicFooter :=
  (prints_logWriteln (some (ascii "state=halted"))).comp (prints_logWriteln _)

def panicText (p : PanicInfo) (rflags : UInt64) : List UInt8 :=
  panicHeader ++ p.reasonLine ++ p.locationLine ++
    keyValueText (some (ascii "panic_code")) p.code ++
    keyValueText (some (ascii "rflags_before_cli")) rflags ++ panicFooter

theorem prints_kernelPanicAt (p : PanicInfo) (rflags : UInt64) :
    Prints line (kernelPanicAt line p rflags) (panicText p rflags) := by
  have hplace : Prints line _ _ :=
    (prints_logPanicHeader.comp (prints_logPanicReason p)).comp (prints_logPanicLocation p)
  have hwords := (hplace.comp (prints_logKeyValueHex64 (some (ascii "panic_code")) p.code)).comp
    (prints_logKeyValueHex64 (some (ascii "rflags_before_cli")) rflags)
  exact hwords.comp prints_logPanicFooter

end Driver

inductive LogCall
  | init
  | putc (c : UInt8)
  | write (s : Option (List UInt8))
  | writeln (s : Option (List UInt8))
  | hex64 (value : UInt64)
  | keyValueHex64 (key : Option (List UInt8)) (value : UInt64)

def LogCall.text : LogCall → List UInt8
  | .init => []
  | .putc c => [c]
  | .write s => textOf s
  | .writeln s => textOf s ++ [newline]
  | .hex64 value => hexText value
  | .keyValueHex64 key value => keyValueText key value

def logStep (line : ℕ → Bool) (k : Console) : LogCall → Console
  | .init => logInit line k
  | .putc c => logPutc line c k
  | .write s => logWrite line s k
  | .writeln s => logWriteln line s k
  | .hex64 value => logHex64 line value k
  | .keyValueHex64 key value => logKeyValueHex64 line key value k

def LogCall.prepare (line : ℕ → Bool) (k : Console) : LogCall → Uart
  | .init => serialInit line k.uart
  | _ => (ensureReady line k).uart

def logAfter (line : ℕ → Bool) (calls : List LogCall) (k : Console) : Console :=
  calls.foldl (logStep line) k

def logText (calls : List LogCall) : List UInt8 := calls.flatMap LogCall.text

/-- The port of a log that is ready is set up, with one of the `allowed` interrupt masks. -/
structure Sound (allowed : UInt8 → Prop) (k : Console) : Prop where
  zero : allowed 0
  fresh : k.gLogReady = false →
    allowed (if k.uart.setup.divisorAccess then k.uart.setup.interruptEnable else 0)
  ready : k.gLogReady = true → ∃ i, allowed i ∧ k.uart.setup = configured i

section Runs

variable (line : ℕ → Bool) {allowed : UInt8 → Prop}

theorem prints_logStep {c : LogCall} (h : c ≠ .init) :
    Prints line (fun k => logStep line k c) c.text := by
  cases c with
  | init => exact absurd rfl h
  | putc c => exact prints_logPutc c
  | write s => exact prints_logWrite s
  | writeln s => exact prints_logWriteln s
  | hex64 value => exact prints_logHex64 value
  | keyValueHex64 key value => exact prints_logKeyValueHex64 key value

theorem logStep_eq (k : Console) (c : LogCall) :
    logStep line k c = ⟨transmit line c.text (c.prepare line k), true⟩ := by
  cases c with
  | init => rfl
  | _ => exact prints_logStep line (fun h => LogCall.noConfusion h) k

theorem Sound.serialInit {k : Console} (hk : Sound allowed k) :
    ∃ i, allowed i ∧ (serialInit line k.uart).setup = configured i := by
  refine ⟨_, ?_, serialInit_setup line k.uart⟩
  cases hready : k.gLogReady with
  | false => exact hk.fresh hready
  | true =>
    obtain ⟨i, -, hsetup⟩ := hk.ready hready
    rw [hsetup, configured_access]
    exact hk.zero

theorem Sound.ensureReady {k : Console} (hk : Sound allowed k) :
    ∃ i, allowed i ∧ (ensureReady line k).uart.setup = configured i := by
  rw [Log.ensureReady]
  split_ifs with hready
  · exact hk.serialInit line
  · exact hk.ready (Bool.not_eq_false _ ▸ hready)

theorem Sound.prepare {k : Console} (hk : Sound allowed k) (c : LogCall) :
    ∃ i, allowed i ∧ (c.prepare line k).setup = configured i := by
  cases c with
  | init => exact hk.serialInit line
  | _ => exact hk.ensureReady line

theorem prepare_programmed (k : Console) (c : LogCall) :
    ∃ n ≤ 7, Programmed n k.uart (c.prepare line k) := by
  have hensure : ∃ n ≤ 7, Programmed n k.uart (ensureReady line k).uart := by
    rw [Log.ensureReady]
    split_ifs
    · exact ⟨7, le_refl 7, serialInit_programmed line k.uart⟩
    · exact ⟨0, by omega, rfl, rfl, List.Sublist.refl _, fun h => ⟨h, rfl⟩⟩
  cases c with
  | init => exact ⟨7, le_refl 7, serialInit_programmed line k.uart⟩
  | _ => exact hensure

theorem Sound.step {k : Console} (hk : Sound allowed k) (c : LogCall) :
    Sound allowed (logStep line k c) ∧
      (logStep line k c).uart.overruns = k.uart.overruns ∧
      (logStep line k c).uart.clock ≤
        k.uart.clock + 7 + (serialTimeoutLimit + 1) * (wire c.text).length ∧
      List.Sublist (logStep line k c).uart.sent (k.uart.sent ++ wire c.text) := by
  obtain ⟨i, hi, hsetup⟩ := hk.prepare line c
  obtain ⟨n, hn, hprogrammed⟩ := prepare_programmed line k c
  have haccess : (c.prepare line k).setup.divisorAccess = false := by
    rw [hsetup, configured_access]
  obtain ⟨hsetup', hoverruns, hclock, w, hw, hsent⟩ :=
    foldl_send_spec line serialTimeoutLimit (wire c.text) haccess
  rw [logStep_eq]
  refine ⟨⟨hk.zero, fun h => Bool.noConfusion h, fun _ => ⟨i, hi, hsetup'.trans hsetup⟩⟩,
    hoverruns.trans hprogrammed.overruns, ?_, ?_⟩
  · have hstart := hprogrammed.clock
    have hend : (transmit line c.text (c.prepare line k)).clock ≤
        (c.prepare line k).clock + (serialTimeoutLimit + 1) * (wire c.text).length := hclock
    dsimp only
    omega
  · change List.Sublist (transmit line c.text (c.prepare line k)).sent _
    rw [transmit, hsent]
    exact hprogrammed.sent.append hw

theorem Sound.run {k : Console} (hk : Sound allowed k) (calls : List LogCall) :
    Sound allowed (logAfter line calls k) ∧
      (logAfter line calls k).uart.overruns = k.uart.overruns ∧
      (logAfter line calls k).uart.clock ≤ k.uart.clock + 7 * calls.length +
        (serialTimeoutLimit + 1) * (wire (logText calls)).length ∧
      List.Sublist (logAfter line calls k).uart.sent
        (k.uart.sent ++ wire (logText calls)) := by
  induction calls generalizing k with
  | nil => exact ⟨hk, rfl, by simp [logAfter, logText, wire], by simp [logAfter, logText, wire]⟩
  | cons c calls ih =>
    obtain ⟨hsound, hoverruns, hclock, hsent⟩ := hk.step line c
    obtain ⟨hsound', hoverruns', hclock', hsent'⟩ := ih hsound
    have htext : wire (logText (c :: calls)) = wire c.text ++ wire (logText calls) := by
      rw [logText, List.flatMap_cons, wire_append]
      rfl
    refine ⟨hsound', hoverruns'.trans hoverruns, ?_, ?_⟩
    · rw [htext, List.length_append, List.length_cons, Nat.mul_add (serialTimeoutLimit + 1)]
      change (logAfter line calls (logStep line k c)).uart.clock ≤ _
      omega
    · rw [htext, ← List.append_assoc]
      exact hsent'.trans (hsent.append (List.Sublist.refl _))

theorem logAfter_ready {calls : List LogCall} (h : calls ≠ []) (k : Console) :
    (logAfter line calls k).gLogReady = true := by
  obtain ⟨front, c, rfl⟩ := List.eq_nil_or_concat' calls |>.resolve_left h
  rw [logAfter, List.foldl_append, List.foldl_cons, List.foldl_nil, logStep_eq]

/-- From boot on, over every port the firmware may leave, every schedule of the line and every
sequence of calls: no byte is overrun, the port is set up as the driver wants it, the number of
port accesses is bounded, and the bytes on the line are in the order of the text. -/
theorem console_never_overruns (u : Uart) (calls : List LogCall) :
    let k := logAfter line calls ⟨u, false⟩
    k.uart.overruns = u.overruns ∧
      (calls ≠ [] → ∃ i, k.uart.setup = configured i ∧
        (i = 0 ∨ u.setup.divisorAccess = true ∧ i = u.setup.interruptEnable)) ∧
      k.uart.clock ≤ u.clock + 7 * calls.length +
        (serialTimeoutLimit + 1) * (wire (logText calls)).length ∧
      List.Sublist k.uart.sent (u.sent ++ wire (logText calls)) := by
  have hboot : Sound (fun i => i = 0 ∨ u.setup.divisorAccess = true ∧
      i = u.setup.interruptEnable) ⟨u, false⟩ := by
    refine ⟨Or.inl rfl, fun _ => ?_, fun h => Bool.noConfusion h⟩
    dsimp only
    split_ifs with haccess
    · exact Or.inr ⟨haccess, rfl⟩
    · exact Or.inl rfl
  obtain ⟨hsound, hoverruns, hclock, hsent⟩ := hboot.run line calls
  refine ⟨hoverruns, fun hne => ?_, hclock, hsent⟩
  obtain ⟨i, hi, hsetup⟩ := hsound.ready (logAfter_ready line hne _)
  exact ⟨i, hsetup, hi⟩

def unwire : List UInt8 → List UInt8
  | [] => []
  | c :: rest =>
      if c = carriageReturn ∧ rest.head? = some newline then unwire rest else c :: unwire rest

theorem wire_cons (c : UInt8) (text : List UInt8) :
    wire (c :: text) = (if c = newline then [carriageReturn, newline] else [c]) ++ wire text :=
  List.flatMap_cons

theorem wire_head (text : List UInt8) : (wire text).head? ≠ some newline := by
  cases text with
  | nil => simp [wire]
  | cons c text =>
    rw [wire_cons]
    split_ifs with hc
    · exact fun h => absurd (Option.some.inj h) (by decide)
    · exact fun h => hc (Option.some.inj h)

theorem unwire_wire (text : List UInt8) : unwire (wire text) = text := by
  induction text with
  | nil => rfl
  | cons c text ih =>
    rw [wire_cons]
    split_ifs with hc
    · rw [hc, List.cons_append, List.cons_append, List.nil_append, unwire,
        if_pos ⟨rfl, rfl⟩, unwire, if_neg (fun h => absurd h.1 (by decide)), ih]
    · rw [List.cons_append, List.nil_append, unwire, if_neg (fun h => wire_head text h.2), ih]

theorem logText_cons (c : LogCall) (calls : List LogCall) :
    logText (c :: calls) = c.text ++ logText calls := List.flatMap_cons

variable {line}

theorem Prints.delivers (hprompt : Prompt line serialTimeoutLimit) {f : Console → Console}
    {text : List UInt8} (hf : Prints line f text) {k : Console} (hk : Sound allowed k)
    (hidle : k.gLogReady = false → k.uart.holding = false) :
    (f k).uart.sent = k.uart.sent ++ wire text := by
  obtain ⟨i, -, hsetup⟩ := hk.ensureReady line
  have haccess : (ensureReady line k).uart.setup.divisorAccess = false := by
    rw [hsetup, configured_access]
  have hkept : (ensureReady line k).uart.sent = k.uart.sent := by
    rw [ensureReady]
    split_ifs with hready
    · exact ((serialInit_programmed line k.uart).idle (hidle hready)).2
    · rfl
  rw [hf k, ← hkept]
  exact foldl_send_prompt line hprompt (wire text) haccess

theorem Prints.sound {f : Console → Console} {text : List UInt8} (hf : Prints line f text)
    {k : Console} (hk : Sound allowed k) :
    Sound allowed (f k) ∧ (f k).gLogReady = true := by
  obtain ⟨i, hi, hsetup⟩ := hk.ensureReady line
  have haccess : (ensureReady line k).uart.setup.divisorAccess = false := by
    rw [hsetup, configured_access]
  obtain ⟨hsetup', -⟩ := foldl_send_spec line serialTimeoutLimit (wire text) haccess
  rw [hf k]
  exact ⟨⟨hk.zero, fun h => Bool.noConfusion h, fun _ => ⟨i, hi, hsetup'.trans hsetup⟩⟩, rfl⟩

theorem Sound.run_delivers (hprompt : Prompt line serialTimeoutLimit) {k : Console}
    (hk : Sound allowed k) (hidle : k.gLogReady = false → k.uart.holding = false)
    {calls : List LogCall} (hinit : LogCall.init ∉ calls) :
    (logAfter line calls k).uart.sent = k.uart.sent ++ wire (logText calls) := by
  induction calls generalizing k with
  | nil => exact (List.append_nil _).symm
  | cons c calls ih =>
    rw [List.mem_cons, not_or] at hinit
    have hready : (logStep line k c).gLogReady = true :=
      logAfter_ready line (List.cons_ne_nil c []) k
    have hrest := ih (hk.step line c).1 (fun h => absurd h (by rw [hready]; decide)) hinit.2
    rw [logText_cons, wire_append, ← List.append_assoc,
      ← (prints_logStep line (Ne.symm hinit.1)).delivers hprompt hk hidle]
    exact hrest

theorem sound_boot (u : Uart) : Sound (fun _ => True) ⟨u, false⟩ :=
  ⟨trivial, fun _ => trivial, fun h => Bool.noConfusion h⟩

theorem boot_delivers (hprompt : Prompt line serialTimeoutLimit) {u : Uart}
    (hidle : u.holding = false) {calls : List LogCall} (hinit : LogCall.init ∉ calls.tail) :
    (logAfter line calls ⟨u, false⟩).uart.sent = u.sent ++ wire (logText calls) := by
  by_cases hfirst : LogCall.init ∈ calls
  · -- `log_init` is the first call: the port has nothing to lose yet
    cases calls with
    | nil => exact absurd hfirst List.not_mem_nil
    | cons c calls =>
      obtain rfl : LogCall.init = c := (List.mem_cons.mp hfirst).resolve_right hinit
      have hrest := ((sound_boot u).step line .init).1.run_delivers hprompt
        (fun h => Bool.noConfusion h) hinit
      have hkept := ((serialInit_programmed line u).idle hidle).2
      exact hrest.trans (congrArg (· ++ wire (logText calls)) hkept)
  · exact (sound_boot u).run_delivers hprompt (fun _ => hidle) hfirst

theorem logAfter_idle {u : Uart} (hidle : u.holding = false) (calls : List LogCall)
    (hready : (logAfter line calls ⟨u, false⟩).gLogReady = false) :
    (logAfter line calls ⟨u, false⟩).uart.holding = false := by
  cases calls with
  | nil => exact hidle
  | cons c calls =>
    exact absurd (logAfter_ready line (List.cons_ne_nil c calls) ⟨u, false⟩)
      (by rw [hready]; decide)

def received (u : Uart) (k : Console) : List UInt8 := k.uart.sent.drop u.sent.length

/-- On a line that is never busy for too long, from a port with nothing under way: every byte of
the text arrives, once and in order, and the receiver gets the text back. -/
theorem console_delivers (hprompt : Prompt line serialTimeoutLimit) {u : Uart}
    (hidle : u.holding = false) {calls : List LogCall} (hinit : LogCall.init ∉ calls.tail) :
    (logAfter line calls ⟨u, false⟩).uart.sent = u.sent ++ wire (logText calls) ∧
      unwire (received u (logAfter line calls ⟨u, false⟩)) = logText calls := by
  have hsent := boot_delivers hprompt hidle hinit
  refine ⟨hsent, ?_⟩
  rw [received, hsent, List.drop_left, unwire_wire]

end Runs

def slowLine (t : ℕ) : Bool := t % 1000 == 0

theorem slowLine_prompt : Prompt slowLine serialTimeoutLimit := by
  intro t
  refine ⟨(1000 - t % 1000) % 1000, ?_, ?_⟩
  · rw [serialTimeoutLimit]
    omega
  · rw [slowLine, beq_iff_eq]
    omega

def firmwareUart : Uart := ⟨⟨1, 0, 3, 0, 1, 0⟩, false, [80, 10], 0, 5⟩

theorem console_delivers_slow :
    unwire (received firmwareUart (logAfter slowLine
      [.init, .writeln (some (ascii "boot")), .keyValueHex64 (some (ascii "cr3")) 0x1000]
      ⟨firmwareUart, false⟩)) =
    logText [.init, .writeln (some (ascii "boot")), .keyValueHex64 (some (ascii "cr3")) 0x1000] :=
  (console_delivers slowLine_prompt rfl (by simp)).2

end Mcsos.Log
