import Mcsos.WordArithmetic
import Mcsos.SerialLog
import Mcsos.TextFormat

/-!
# Reading the log back

The log has records `key=0x...` with sixteen digits, and the report of a panic. What was printed
can be recovered from the bytes on the line: the records of a whole run, and from the report the
reason, the place, the code and the flags.
-/

namespace Mcsos.Log
open Uart16550 TextFormat WordArithmetic

def equalsSign : UInt8 := 61
def colon : UInt8 := 58

def hexDigitValue (c : UInt8) : Option ℕ := hexDigits.idxOf? c

theorem hexDigitValue_digit : ∀ d < 16, hexDigitValue (hexDigits.getD d 0) = some d := by
  decide

theorem hexDigits_ne_newline : ∀ d < 16, hexDigits.getD d 0 ≠ newline := by
  decide

theorem hexDigit_eq (value : UInt64) {j : ℕ} (hj : j < 16) :
    hexDigit value (UInt64.ofNat (4 * j)) = hexDigits.getD (value.toNat / 16 ^ j % 16) 0 := by
  have hshift : (UInt64.ofNat (4 * j)).toNat = 4 * j :=
    UInt64.toNat_ofNat_of_lt' (by rw [UInt64.size]; omega)
  have hand : ((value >>> UInt64.ofNat (4 * j)) &&& 0x0F).toNat =
      (value >>> UInt64.ofNat (4 * j)).toNat % 2 ^ 4 := toNat_and_low _ 0x10 4 rfl
  rw [hexDigit, hand, UInt64.toNat_shiftRight, hshift, Nat.mod_eq_of_lt (by omega : 4 * j < 64),
    Nat.shiftRight_eq_div_pow, pow_mul]
  norm_num

def nibbles (value : UInt64) : List ℕ := (List.range 16).map fun j => value.toNat / 16 ^ j % 16

theorem nibbles_lt (value : UInt64) : ∀ d ∈ nibbles value, d < 16 := by
  intro d hd
  obtain ⟨j, -, rfl⟩ := List.mem_map.mp hd
  exact Nat.mod_lt _ (by omega)

theorem hexShifts_map (value : UInt64) :
    hexShifts.map (hexDigit value) = ((nibbles value).map (hexDigits.getD · 0)).reverse := by
  have hshifts : hexShifts = ((List.range 16).map fun j => UInt64.ofNat (4 * j)).reverse := by
    decide
  rw [hshifts, List.map_reverse, List.map_map, nibbles, List.map_map]
  congr 1
  apply List.map_congr_left
  intro j hj
  exact hexDigit_eq value (List.mem_range.mp hj)

theorem readDigits_hex (value : UInt64) :
    readDigits 16 hexDigitValue (hexShifts.map (hexDigit value)) = some value.toNat := by
  have hlt := value.toNat_lt
  rw [hexShifts_map, readDigits_reverse_map 16 hexDigitValue hexDigitValue_digit (nibbles_lt value),
    nibbles, ofDigits_range, Nat.mod_eq_of_lt (by omega)]

theorem newline_notMem_hex (value : UInt64) : newline ∉ hexShifts.map (hexDigit value) := by
  rw [hexShifts_map, List.mem_reverse]
  intro h
  obtain ⟨d, hd, heq⟩ := List.mem_map.mp h
  exact hexDigits_ne_newline d (nibbles_lt value d hd) heq

def readRecord (l : List UInt8) : Option ((List UInt8 × UInt64) × List UInt8) :=
  (readUntil equalsSign l).bind fun key =>
    (readLiteral (ascii "0x") key.2).bind fun value =>
      (readUntil newline value).bind fun digits =>
        (readDigits 16 hexDigitValue digits.1).map fun n =>
          ((key.1, UInt64.ofNat n), digits.2)

theorem readRecord_keyValueText {key : Option (List UInt8)} (hkey : equalsSign ∉ textOf key)
    (value : UInt64) (rest : List UInt8) :
    readRecord (keyValueText key value ++ rest) = some ((textOf key, value), rest) := by
  have hline : keyValueText key value ++ rest = textOf key ++ equalsSign :: (ascii "0x" ++
      (hexShifts.map (hexDigit value) ++ newline :: rest)) := by
    have hequals : ascii "=" = [equalsSign] := by decide
    simp only [keyValueText, hexText, hequals, List.append_assoc, List.cons_append,
      List.nil_append]
  rw [hline, readRecord, readUntil_append hkey, Option.bind_some, readLiteral_append,
    Option.bind_some, readUntil_append (newline_notMem_hex value), Option.bind_some,
    readDigits_hex, Option.map_some, UInt64.ofNat_toNat]

structure LogRecord where
  key : Option (List UInt8)
  value : UInt64
  separated : equalsSign ∉ textOf key

def LogRecord.call (r : LogRecord) : LogCall := .keyValueHex64 r.key r.value
def LogRecord.content (r : LogRecord) : List UInt8 × UInt64 := (textOf r.key, r.value)

def readLog (text : List UInt8) : Option (List (List UInt8 × UInt64)) :=
  readMany readRecord text.length text

theorem keyValueText_ne_nil (key : Option (List UInt8)) (value : UInt64) :
    keyValueText key value ≠ [] := List.append_ne_nil_of_right_ne_nil _ (List.cons_ne_nil _ _)

theorem readLog_text (records : List LogRecord) :
    readLog (logText (records.map LogRecord.call)) = some (records.map LogRecord.content) := by
  have htext : logText (records.map LogRecord.call) =
      records.flatMap fun r => keyValueText r.key r.value := by
    rw [logText, List.flatMap_map]
    rfl
  rw [readLog, htext]
  exact readMany_flatMap (fun r rest => readRecord_keyValueText r.separated r.value rest)
    (fun r => keyValueText_ne_nil r.key r.value) records (le_refl _)

/-- On a prompt line the records of a run are read back from the line, all of them, in order. -/
theorem log_records_read_back {line : ℕ → Bool} (hprompt : Prompt line serialTimeoutLimit)
    {u : Uart} (hidle : u.holding = false) (records : List LogRecord) :
    readLog (unwire (received u (logAfter line (records.map LogRecord.call) ⟨u, false⟩))) =
      some (records.map LogRecord.content) := by
  have hinit : LogCall.init ∉ (records.map LogRecord.call).tail := by
    intro h
    obtain ⟨r, -, hr⟩ := List.mem_map.mp (List.mem_of_mem_tail h)
    exact LogCall.noConfusion hr
  rw [received, boot_delivers hprompt hidle hinit, List.drop_left, unwire_wire, readLog_text]

theorem log_records_read_back_slow :
    readLog (unwire (received firmwareUart (logAfter slowLine
      [.keyValueHex64 (some (ascii "pmm_free")) 0x7f3, .keyValueHex64 (some (ascii "cr3")) 0x1000]
      ⟨firmwareUart, false⟩))) =
      some [(ascii "pmm_free", 0x7f3), (ascii "cr3", 0x1000)] :=
  log_records_read_back slowLine_prompt rfl
    [⟨some (ascii "pmm_free"), 0x7f3, by decide⟩, ⟨some (ascii "cr3"), 0x1000, by decide⟩]

def decDigit (d : ℕ) : UInt8 := UInt8.ofNat (48 + d)

def decDigitValue (c : UInt8) : Option ℕ :=
  if 48 ≤ c.toNat ∧ c.toNat < 58 then some (c.toNat - 48) else none

theorem decDigitValue_digit : ∀ d < 10, decDigitValue (decDigit d) = some d := by decide

theorem decDigit_ne : ∀ d < 10, decDigit d ≠ newline ∧ decDigit d ≠ colon := by decide

/-- Eleven places are enough: the buffer never cuts a number off. -/
theorem decDigits_eq {room : ℕ} {value : UInt32} (h : value.toNat < 10 ^ room) :
    decDigits room value = (Nat.digits 10 value.toNat).map decDigit := by
  induction room generalizing value with
  | zero =>
    have hzero : value.toNat = 0 := by omega
    rw [hzero, Nat.digits_zero]
    rfl
  | succ room ih =>
    rw [decDigits]
    split_ifs with hvalue
    · rw [hvalue]
      rfl
    · have hpos : 0 < value.toNat := by
        apply Nat.pos_of_ne_zero
        intro hzero
        exact hvalue (UInt32.toNat_inj.mp hzero)
      have hdigit : 48 + (value % 10).toUInt8 = decDigit (value.toNat % 10) := by
        apply UInt8.toNat_inj.mp
        have hmod : (value % 10).toNat = value.toNat % 10 := UInt32.toNat_mod _ _
        rw [decDigit, UInt8.toNat_add, UInt32.toNat_toUInt8, hmod, UInt8.toNat_ofNat']
        have h48 : (48 : UInt8).toNat = 48 := rfl
        omega
      have hquotient : (value / 10).toNat = value.toNat / 10 := UInt32.toNat_div _ _
      rw [Nat.digits_def' (by omega) hpos, List.map_cons, hdigit, ih (by rw [hquotient]; omega),
        hquotient]

theorem decText_eq (value : UInt32) :
    decText value = if value = 0 then [decDigit 0]
      else ((Nat.digits 10 value.toNat).map decDigit).reverse := by
  have hlt := value.toNat_lt
  rw [decText, decDigits_eq (by omega)]
  rfl

theorem readDigits_dec (value : UInt32) :
    readDigits 10 decDigitValue (decText value) = some value.toNat := by
  rw [decText_eq]
  split_ifs with hzero
  · rw [hzero]
    rfl
  · rw [readDigits_reverse_map 10 decDigitValue decDigitValue_digit
      (fun d hd => Nat.digits_lt_base (by omega) hd), Nat.ofDigits_digits]

theorem decText_clean (value : UInt32) : newline ∉ decText value ∧ colon ∉ decText value := by
  have hdigits : ∀ c ∈ decText value, c ≠ newline ∧ c ≠ colon := by
    intro c hc
    rw [decText_eq] at hc
    split_ifs at hc with hzero
    · rw [List.mem_singleton.mp hc]
      exact decDigit_ne 0 (by omega)
    · obtain ⟨d, hd, rfl⟩ := List.mem_map.mp (List.mem_reverse.mp hc)
      exact decDigit_ne d (Nat.digits_lt_base (by omega) hd)
  exact ⟨fun h => (hdigits _ h).1 rfl, fun h => (hdigits _ h).2 rfl⟩

structure PanicReport where
  reason : List UInt8
  file : List UInt8
  line : ℕ
  code : UInt64
  rflags : UInt64

def readPanic (text : List UInt8) : Option (PanicReport × List UInt8) := do
  let t ← readLiteral panicHeader text
  let t ← readLiteral (textOf (some (ascii "reason="))) t
  let reason ← readUntil newline t
  let t ← readLiteral (textOf (some (ascii "location="))) reason.2
  let place ← readUntil newline t
  -- The place is split at its last colon: the name of the file may have one.
  let number ← readUntil colon place.1.reverse
  let line ← readDigits 10 decDigitValue number.1.reverse
  let code ← readRecord place.2
  let rflags ← readRecord code.2
  let t ← readLiteral panicFooter rflags.2
  return (⟨reason.1, number.2.reverse, line, code.1.2, rflags.1.2⟩, t)

def PanicInfo.report (p : PanicInfo) (rflags : UInt64) : PanicReport :=
  ⟨p.reasonText, p.fileText, p.line.toUInt32.toNat, p.code, rflags⟩

theorem readPanic_panicText {p : PanicInfo} (hreason : newline ∉ p.reasonText)
    (hfile : newline ∉ p.fileText) (rflags : UInt64) (rest : List UInt8) :
    readPanic (panicText p rflags ++ rest) = some (p.report rflags, rest) := by
  obtain ⟨hline, hcolon⟩ := decText_clean p.line.toUInt32
  have hplace : newline ∉ p.fileText ++ colon :: decText p.line.toUInt32 := by
    rw [List.mem_append, List.mem_cons]
    intro h
    obtain h | h | h := h
    · exact hfile h
    · exact absurd h (by decide)
    · exact hline h
  have hreverse : (p.fileText ++ colon :: decText p.line.toUInt32).reverse =
      (decText p.line.toUInt32).reverse ++ colon :: p.fileText.reverse := by
    simp
  have htext : panicText p rflags ++ rest = panicHeader ++
      (textOf (some (ascii "reason=")) ++ (p.reasonText ++ newline ::
      (textOf (some (ascii "location=")) ++ ((p.fileText ++ colon :: decText p.line.toUInt32) ++
      newline :: (keyValueText (some (ascii "panic_code")) p.code ++
      (keyValueText (some (ascii "rflags_before_cli")) rflags ++ (panicFooter ++ rest))))))) := by
    have hsep : textOf (some (ascii ":")) = [colon] := by decide
    simp only [panicText, PanicInfo.reasonLine, PanicInfo.locationLine, hsep,
      List.append_assoc, List.cons_append, List.nil_append]
  rw [htext, readPanic, readLiteral_append]
  simp only [Option.bind_eq_bind, Option.bind_some]
  rw [readLiteral_append, Option.bind_some, readUntil_append hreason, Option.bind_some,
    readLiteral_append, Option.bind_some, readUntil_append hplace, Option.bind_some, hreverse,
    readUntil_append (fun h => hcolon (List.mem_reverse.mp h)), Option.bind_some,
    List.reverse_reverse, readDigits_dec, Option.bind_some,
    readRecord_keyValueText (by decide), Option.bind_some,
    readRecord_keyValueText (by decide), Option.bind_some, readLiteral_append, Option.bind_some,
    List.reverse_reverse]
  rfl

/-- After any calls of the log, the report of a panic tells the reason, the place, the code and
the flags, and nothing of it is lost. -/
theorem panic_report_read_back {line : ℕ → Bool} (hprompt : Prompt line serialTimeoutLimit)
    {u : Uart} (hidle : u.holding = false) (calls : List LogCall) {p : PanicInfo}
    (hreason : newline ∉ p.reasonText) (hfile : newline ∉ p.fileText) (rflags : UInt64) :
    let k := logAfter line calls ⟨u, false⟩
    readPanic (unwire (received k.uart (kernelPanicAt line p rflags k))) =
      some (⟨p.reasonText, p.fileText, p.line.toUInt32.toNat, p.code, rflags⟩, []) := by
  intro k
  have hsound : Sound (fun _ => True) k := ((sound_boot u).run line calls).1
  rw [received, (prints_kernelPanicAt p rflags).delivers hprompt hsound
    (logAfter_idle hidle calls), List.drop_left, unwire_wire,
    ← List.append_nil (panicText p rflags), readPanic_panicText hreason hfile]
  rfl

theorem panic_report_read_back_slow :
    readPanic (unwire (received (logAfter slowLine [.init, .writeln none] ⟨firmwareUart,
      false⟩).uart (kernelPanicAt slowLine ⟨some (ascii "a:b.c"), 85, none, 14⟩ 0x246
        (logAfter slowLine [.init, .writeln none] ⟨firmwareUart, false⟩)))) =
      some (⟨ascii "<null>", ascii "a:b.c", 85, 14, 0x246⟩, []) :=
  panic_report_read_back slowLine_prompt rfl [.init, .writeln none]
    (p := ⟨some (ascii "a:b.c"), 85, none, 14⟩) (by decide) (by decide) 0x246

end Mcsos.Log
