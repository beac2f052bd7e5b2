import Mathlib

/-!
# The 8259 interrupt controller

One chip with its initialisation sequence of four command words, its mask and its in-service
register. The first command word is written to the command port and restarts the sequence; the
other three, and afterwards the mask, are written to the data port. Cascaded operation with a
fourth command word is assumed, as the first word `0x11` asks for.
-/

namespace Mcsos.Pic8259

inductive Stage
  | ready
  | icw2
  | icw3
  | icw4
  deriving DecidableEq, Repr

structure Chip where
  stage : Stage
  offset : UInt8
  mask : UInt8
  inService : UInt8
  deriving DecidableEq, Repr

/-- A write to the command port: the first initialisation word, or an end of interrupt, which
takes the line of highest priority out of service. -/
def Chip.command (c : Chip) (value : UInt8) : Chip :=
  if value &&& 0x10 ≠ 0 then { c with stage := .icw2, mask := 0, inService := 0 }
  else if value = 0x20 then { c with inService := c.inService &&& (c.inService - 1) }
  else c

def Chip.data (c : Chip) (value : UInt8) : Chip :=
  match c.stage with
  | .ready => { c with mask := value }
  | .icw2 => { c with stage := .icw3, offset := value &&& 0xF8 }
  | .icw3 => { c with stage := .icw4 }
  | .icw4 => { c with stage := .ready }

def Chip.request (c : Chip) (line : UInt8) : Option (UInt8 × Chip) :=
  if (c.mask ||| c.inService) &&& (1 <<< line) ≠ 0 then none
  else some (c.offset + line, { c with inService := c.inService ||| (1 <<< line) })

theorem Chip.initialise (c : Chip) (offset icw3 icw4 : UInt8) :
    (((c.command 0x11).data offset).data icw3).data icw4 =
      ⟨.ready, offset &&& 0xF8, 0, 0⟩ := rfl

theorem Chip.data_ready {c : Chip} (h : c.stage = .ready) (value : UInt8) :
    c.data value = { c with mask := value } := by
  rw [Chip.data, h]

end Mcsos.Pic8259
