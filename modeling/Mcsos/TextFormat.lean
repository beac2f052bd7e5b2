import Mathlib

/-!
# Reading printed text

Readers for the parts of a printed line: a fixed text, a field that ends at a separator, a number
in a given base, a sequence of records. Each is the inverse of the way such a part is printed.
-/

namespace Mcsos.TextFormat

section Fields

variable {α : Type} [DecidableEq α]

def readLiteral (literal l : List α) : Option (List α) :=
  if literal <+: l then some (l.drop literal.length) else none

theorem readLiteral_append (literal rest : List α) :
    readLiteral literal (literal ++ rest) = some rest := by
  rw [readLiteral, if_pos (List.prefix_append _ _), List.drop_left]

def readUntil (separator : α) : List α → Option (List α × List α)
  | [] => none
  | c :: l =>
      if c = separator then some ([], l)
      else (readUntil separator l).map fun r => (c :: r.1, r.2)

theorem readUntil_append {separator : α} {field : List α} (h : separator ∉ field)
    (rest : List α) : readUntil separator (field ++ separator :: rest) = some (field, rest) := by
  induction field with
  | nil => exact if_pos rfl
  | cons c field ih =>
    rw [List.mem_cons, not_or] at h
    rw [List.cons_append, readUntil, if_neg (Ne.symm h.1), ih h.2]
    rfl

end Fields

section Records

variable {α β : Type}

/-- Read records to the end of the text; every record takes at least one character. -/
def readMany (read : List α → Option (β × List α)) : ℕ → List α → Option (List β)
  | _, [] => some []
  | 0, _ :: _ => none
  | fuel + 1, c :: l =>
      (read (c :: l)).bind fun r => (readMany read fuel r.2).map (r.1 :: ·)

theorem readMany_flatMap {γ : Type} {read : List α → Option (β × List α)} {print : γ → List α}
    {value : γ → β} (hread : ∀ x rest, read (print x ++ rest) = some (value x, rest))
    (hne : ∀ x, print x ≠ []) (xs : List γ) {fuel : ℕ}
    (hfuel : (xs.flatMap print).length ≤ fuel) :
    readMany read fuel (xs.flatMap print) = some (xs.map value) := by
  induction xs generalizing fuel with
  | nil => cases fuel <;> rfl
  | cons x xs ih =>
    obtain ⟨c, l, hl⟩ := List.exists_cons_of_ne_nil (hne x)
    have hx := hread x (xs.flatMap print)
    rw [List.flatMap_cons, hl, List.cons_append, List.length_cons, List.length_append] at hfuel
    obtain ⟨fuel, rfl⟩ : ∃ f, fuel = f + 1 := Nat.exists_eq_add_one.mpr (by omega)
    rw [hl, List.cons_append] at hx
    rw [List.flatMap_cons, hl, List.cons_append, readMany, hx, Option.bind_some,
      ih (by omega)]
    rfl

def readCount (read : List α → Option (β × List α)) : ℕ → List α → Option (List β × List α)
  | 0, l => some ([], l)
  | n + 1, l => (read l).bind fun r => (readCount read n r.2).map fun rs => (r.1 :: rs.1, rs.2)

theorem readCount_flatMap {γ : Type} {read : List α → Option (β × List α)} {print : γ → List α}
    {value : γ → β} {xs : List γ}
    (hread : ∀ x ∈ xs, ∀ rest, read (print x ++ rest) = some (value x, rest)) (rest : List α) :
    readCount read xs.length (xs.flatMap print ++ rest) = some (xs.map value, rest) := by
  induction xs with
  | nil => rfl
  | cons x xs ih =>
    rw [List.length_cons, readCount, List.flatMap_cons, List.append_assoc,
      hread x List.mem_cons_self, Option.bind_some,
      ih (fun y hy => hread y (List.mem_cons_of_mem x hy))]
    rfl

end Records

section Numbers

variable {α : Type} (base : ℕ) (digitValue : α → Option ℕ)

def readDigits (l : List α) : Option ℕ :=
  l.foldlM (fun n c => (digitValue c).map (n * base + ·)) 0

theorem readDigits_concat (l : List α) (c : α) :
    readDigits base digitValue (l ++ [c]) =
      (readDigits base digitValue l).bind fun n => (digitValue c).map (n * base + ·) := by
  simp [readDigits, List.foldlM_append]

theorem readDigits_reverse_map {digit : ℕ → α}
    (hdigit : ∀ d < base, digitValue (digit d) = some d) {ds : List ℕ} (hds : ∀ d ∈ ds, d < base) :
    readDigits base digitValue (ds.map digit).reverse = some (Nat.ofDigits base ds) := by
  induction ds with
  | nil => rfl
  | cons d ds ih =>
    rw [List.map_cons, List.reverse_cons, readDigits_concat,
      ih (fun e he => hds e (List.mem_cons_of_mem d he)), Option.bind_some,
      hdigit d (hds d List.mem_cons_self), Nat.ofDigits_cons, Option.map_some]
    congr 1
    ring

theorem ofDigits_range (value n : ℕ) :
    Nat.ofDigits base ((List.range n).map fun j => value / base ^ j % base) =
      value % base ^ n := by
  induction n generalizing value with
  | zero => simp [Nat.mod_one]
  | succ n ih =>
    have hshift : (fun j => value / base ^ j % base) ∘ Nat.succ =
        fun j => value / base / base ^ j % base := by
      funext j
      rw [Function.comp_apply, Nat.pow_succ', Nat.div_div_eq_div_mul]
    rw [List.range_succ_eq_map, List.map_cons, List.map_map, hshift, Nat.ofDigits_cons, ih,
      pow_zero, Nat.div_one, Nat.pow_succ', Nat.mod_mul]

end Numbers

end Mcsos.TextFormat
