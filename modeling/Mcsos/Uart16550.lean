import Mathlib

/-!
# Polled output through a UART

A UART has control registers, two divisor latches that share addresses with the data and the
interrupt register, and a holding register for one byte. The transmitter empties the holding
register at times of its own, given by a schedule; a byte written before that overruns it, and
clearing the FIFO loses the byte that waits there. A sender that polls the line status, a bounded
number of times for each byte, never overruns: it sends a byte or drops it.
-/

namespace Mcsos.Uart16550

structure Setup where
  interruptEnable : UInt8
  fifoControl : UInt8
  lineControl : UInt8
  modemControl : UInt8
  divisorLow : UInt8
  divisorHigh : UInt8
  deriving DecidableEq, Repr

def Setup.divisorAccess (s : Setup) : Bool := s.lineControl &&& 0x80 != 0

structure Uart where
  setup : Setup
  holding : Bool
  sent : List UInt8
  overruns : ℕ
  clock : ℕ
  deriving DecidableEq, Repr

/-- Before an access, the transmitter may have taken the byte out of the holding register. -/
def Uart.tick (line : ℕ → Bool) (u : Uart) : Uart :=
  { u with holding := u.holding && !line u.clock, clock := u.clock + 1 }

@[simp] theorem Uart.tick_setup (line : ℕ → Bool) (u : Uart) : (u.tick line).setup = u.setup := rfl
@[simp] theorem Uart.tick_sent (line : ℕ → Bool) (u : Uart) : (u.tick line).sent = u.sent := rfl
@[simp] theorem Uart.tick_overruns (line : ℕ → Bool) (u : Uart) :
    (u.tick line).overruns = u.overruns := rfl
@[simp] theorem Uart.tick_clock (line : ℕ → Bool) (u : Uart) :
    (u.tick line).clock = u.clock + 1 := rfl
@[simp] theorem Uart.tick_holding (line : ℕ → Bool) (u : Uart) :
    (u.tick line).holding = (u.holding && !line u.clock) := rfl

def Setup.write (s : Setup) (register : ℕ) (value : UInt8) : Setup :=
  match register with
  | 0 => if s.divisorAccess then { s with divisorLow := value } else s
  | 1 =>
      if s.divisorAccess then { s with divisorHigh := value }
      else { s with interruptEnable := value }
  | 2 => { s with fifoControl := value }
  | 3 => { s with lineControl := value }
  | 4 => { s with modemControl := value }
  | _ => s

def Uart.put (u : Uart) (value : UInt8) : Uart :=
  if u.holding then { u with overruns := u.overruns + 1 }
  else { u with holding := true, sent := u.sent ++ [value] }

def Uart.clearFifo (u : Uart) : Uart :=
  -- The byte that still waits in the transmit FIFO is lost.
  if u.holding then { u with holding := false, sent := u.sent.dropLast } else u

def Uart.write (line : ℕ → Bool) (register : ℕ) (value : UInt8) (u : Uart) : Uart :=
  let u' := { u.tick line with setup := u.setup.write register value }
  if register = 0 then if u.setup.divisorAccess then u' else u'.put value
  else if register = 2 ∧ value &&& 0x04 ≠ 0 then u'.clearFifo
  else u'

def Uart.lineStatus (u : Uart) : UInt8 := if u.holding then 0 else 0x60

def Uart.read (line : ℕ → Bool) (register : ℕ) (u : Uart) : UInt8 × Uart :=
  let u := u.tick line
  (if register = 5 then u.lineStatus else 0, u)

def await (line : ℕ → Bool) : ℕ → Uart → Bool × Uart
  | 0, u => (false, u)
  | limit + 1, u =>
      if (u.tick line).holding then await line limit (u.tick line) else (true, u.tick line)

def send (line : ℕ → Bool) (limit : ℕ) (u : Uart) (value : UInt8) : Uart :=
  if (await line limit u).1 then (await line limit u).2.write line 0 value
  else (await line limit u).2

/-- The transmitter is never busy for `limit` polls in a row. -/
def Prompt (line : ℕ → Bool) (limit : ℕ) : Prop := ∀ t, ∃ d, d < limit ∧ line (t + d) = true

structure Waited (limit : ℕ) (u u' : Uart) : Prop where
  setup : u'.setup = u.setup
  sent : u'.sent = u.sent
  overruns : u'.overruns = u.overruns
  clock : u'.clock ≤ u.clock + limit

structure Programmed (accesses : ℕ) (u u' : Uart) : Prop where
  overruns : u'.overruns = u.overruns
  clock : u'.clock = u.clock + accesses
  sent : List.Sublist u'.sent u.sent
  idle : u.holding = false → u'.holding = false ∧ u'.sent = u.sent

theorem Programmed.trans {m n : ℕ} {u u' u'' : Uart} (h : Programmed m u u')
    (h' : Programmed n u' u'') : Programmed (m + n) u u'' := by
  refine ⟨h'.overruns.trans h.overruns, ?_, h'.sent.trans h.sent, fun hidle => ?_⟩
  · rw [h'.clock, h.clock, add_assoc]
  · obtain ⟨hidle', hsent⟩ := h.idle hidle
    obtain ⟨hidle'', hsent'⟩ := h'.idle hidle'
    exact ⟨hidle'', hsent'.trans hsent⟩

section Sender

variable (line : ℕ → Bool)

theorem Uart.write_setup (register : ℕ) (value : UInt8) (u : Uart) :
    (u.write line register value).setup = u.setup.write register value := by
  simp only [Uart.write, Uart.put, Uart.clearFifo]
  split_ifs <;> rfl

theorem Uart.write_programmed {register : ℕ} {u : Uart}
    (h : register = 0 → u.setup.divisorAccess = true) (value : UInt8) :
    Programmed 1 u (u.write line register value) := by
  have hidle : u.holding = false → (u.tick line).holding = false := by
    intro hu
    rw [Uart.tick_holding, hu]
    rfl
  have hkept (s : Setup) : Programmed 1 u { u.tick line with setup := s } :=
    ⟨rfl, rfl, List.Sublist.refl _, fun hu => ⟨hidle hu, rfl⟩⟩
  rw [Uart.write]
  split_ifs with hzero haccess hfifo
  · exact hkept _
  · exact absurd (h hzero) haccess
  · rw [Uart.clearFifo]
    split_ifs with hholding
    · exact ⟨rfl, rfl, List.dropLast_sublist _,
        fun hu => absurd hholding (by rw [hidle hu]; exact Bool.false_ne_true)⟩
    · exact hkept _
  · exact hkept _

theorem await_waited (limit : ℕ) (u : Uart) : Waited limit u (await line limit u).2 := by
  induction limit generalizing u with
  | zero => exact ⟨rfl, rfl, rfl, le_refl _⟩
  | succ limit ih =>
    rw [await]
    split_ifs with hbusy
    · obtain ⟨hsetup, hsent, hoverruns, hclock⟩ := ih (u.tick line)
      rw [Uart.tick_clock] at hclock
      exact ⟨hsetup, hsent, hoverruns, by omega⟩
    · exact ⟨rfl, rfl, rfl, by rw [Uart.tick_clock]; omega⟩

theorem await_empty (limit : ℕ) (u : Uart) (h : (await line limit u).1 = true) :
    (await line limit u).2.holding = false := by
  induction limit generalizing u with
  | zero => cases h
  | succ limit ih =>
    rw [await] at h ⊢
    split_ifs at h ⊢ with hbusy
    · exact ih _ h
    · exact Bool.not_eq_true _ ▸ hbusy

theorem await_prompt {limit : ℕ} {u : Uart} {d : ℕ} (hd : d < limit)
    (hline : line (u.clock + d) = true) : (await line limit u).1 = true := by
  induction limit generalizing u d with
  | zero => omega
  | succ limit ih =>
    rw [await]
    split_ifs with hbusy
    · cases d with
      | zero =>
        rw [add_zero] at hline
        simp [hline] at hbusy
      | succ d =>
        apply ih (d := d) (by omega)
        rw [Uart.tick_clock, add_assoc, add_comm 1 d]
        exact hline
    · rfl

theorem send_spec (limit : ℕ) {u : Uart} (haccess : u.setup.divisorAccess = false)
    (value : UInt8) :
    (send line limit u value).setup = u.setup ∧
      (send line limit u value).overruns = u.overruns ∧
      (send line limit u value).clock ≤ u.clock + (limit + 1) ∧
      (send line limit u value).sent =
        u.sent ++ if (await line limit u).1 then [value] else [] := by
  have hwaited := await_waited line limit u
  have hempty := await_empty line limit u
  rw [send]
  generalize await line limit u = r at *
  obtain ⟨ready, u'⟩ := r
  cases ready with
  | false =>
    simp only [Bool.false_eq_true, if_false, List.append_nil]
    exact ⟨hwaited.setup, hwaited.overruns, hwaited.clock.trans (by omega), hwaited.sent⟩
  | true =>
    have hclock := hwaited.clock
    have hsent := hwaited.sent
    have hnot : (u'.tick line).holding = false := by
      rw [Uart.tick_holding, hempty rfl]
      rfl
    have haccess' : u'.setup.divisorAccess = false := hwaited.setup ▸ haccess
    simp only [if_true, Uart.write, Setup.write, haccess', Bool.false_eq_true, if_false,
      Uart.put, hnot, Uart.tick_sent, Uart.tick_clock, Uart.tick_overruns]
    dsimp only at hclock hsent
    rw [hsent]
    exact ⟨hwaited.setup, hwaited.overruns, by omega, rfl⟩

theorem foldl_send_spec (limit : ℕ) (text : List UInt8) {u : Uart}
    (haccess : u.setup.divisorAccess = false) :
    (text.foldl (send line limit) u).setup = u.setup ∧
      (text.foldl (send line limit) u).overruns = u.overruns ∧
      (text.foldl (send line limit) u).clock ≤ u.clock + (limit + 1) * text.length ∧
      ∃ w, List.Sublist w text ∧ (text.foldl (send line limit) u).sent = u.sent ++ w := by
  induction text generalizing u with
  | nil => exact ⟨rfl, rfl, by simp, [], List.Sublist.refl _, (List.append_nil _).symm⟩
  | cons c text ih =>
    obtain ⟨hsetup, hoverruns, hclock, hsent⟩ := send_spec line limit haccess c
    obtain ⟨hsetup', hoverruns', hclock', w, hw, hsent'⟩ :=
      ih (u := send line limit u c) (hsetup ▸ haccess)
    refine ⟨hsetup'.trans hsetup, hoverruns'.trans hoverruns, ?_, ?_⟩
    · rw [List.foldl_cons, List.length_cons]
      calc (text.foldl (send line limit) (send line limit u c)).clock
          ≤ (send line limit u c).clock + (limit + 1) * text.length := hclock'
        _ ≤ u.clock + (limit + 1) + (limit + 1) * text.length := by omega
        _ = u.clock + (limit + 1) * (text.length + 1) := by ring
    · rw [List.foldl_cons, hsent', hsent]
      split_ifs
      · exact ⟨c :: w, hw.cons_cons c, by rw [List.append_assoc]; rfl⟩
      · exact ⟨w, hw.cons c, by rw [List.append_nil]⟩

theorem foldl_send_prompt {limit : ℕ} (hprompt : Prompt line limit) (text : List UInt8) {u : Uart}
    (haccess : u.setup.divisorAccess = false) :
    (text.foldl (send line limit) u).sent = u.sent ++ text := by
  induction text generalizing u with
  | nil => exact (List.append_nil _).symm
  | cons c text ih =>
    obtain ⟨hsetup, -, -, hsent⟩ := send_spec line limit haccess c
    obtain ⟨d, hd, hline⟩ := hprompt u.clock
    rw [await_prompt line hd hline, if_pos rfl] at hsent
    rw [List.foldl_cons, ih (u := send line limit u c) (hsetup ▸ haccess), hsent,
      List.append_assoc]
    rfl

end Sender

end Mcsos.Uart16550
