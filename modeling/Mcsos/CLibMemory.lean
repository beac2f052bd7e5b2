import Mcsos.BoundedLoop
import Mcsos.ByteMemory
import Mcsos.WordArithmetic

/-!
# The memory functions of the C library

Pointers and the counter are 64-bit words. A range may end at the top of the address space,
where the pointer past its last byte is zero again. Every loop runs as often as the counter
says; what a loop leaves is the range moved as a whole, if it never reads a byte that it has
already written.
-/

namespace Mcsos.CLib
open BoundedLoop ByteMemory WordArithmetic

structure FillState where
  mem : Memory
  d : UInt64
  count : UInt64

def fillBody (value : UInt8) (c : FillState) : Option (Control FillState Memory) :=
  if c.count = 0 then some (.done c.mem)
  else some (.next ⟨Function.update c.mem c.d.toNat value, c.d + 1, c.count - 1⟩)

def memset (m : Memory) (dest : UInt64) (value : Int32) (count : UInt64) :
    Option (UInt64 × Memory) :=
  (loop (fillBody value.toUInt32.toUInt8) wordFuel ⟨m, dest, count⟩).map (fun m' => (dest, m'))

structure CopyState where
  mem : Memory
  d : UInt64
  s : UInt64
  count : UInt64

def copyUpBody (c : CopyState) : Option (Control CopyState Memory) :=
  if c.count = 0 then some (.done c.mem)
  else some (.next
    ⟨Function.update c.mem c.d.toNat (c.mem c.s.toNat), c.d + 1, c.s + 1, c.count - 1⟩)

def copyDownBody (c : CopyState) : Option (Control CopyState Memory) :=
  -- The pointers are decremented before each copy.
  if c.count = 0 then some (.done c.mem)
  else some (.next
    ⟨Function.update c.mem (c.d - 1).toNat (c.mem (c.s - 1).toNat), c.d - 1, c.s - 1,
      c.count - 1⟩)

def memcpy (m : Memory) (dest src count : UInt64) : Option (UInt64 × Memory) :=
  (loop copyUpBody wordFuel ⟨m, dest, src, count⟩).map (fun m' => (dest, m'))

def memmove (m : Memory) (dest src count : UInt64) : Option (UInt64 × Memory) :=
  if dest = src ∨ count = 0 then some (dest, m)
  else if dest < src then
    (loop copyUpBody wordFuel ⟨m, dest, src, count⟩).map (fun m' => (dest, m'))
  else
    (loop copyDownBody wordFuel ⟨m, dest + count, src + count, count⟩).map
      (fun m' => (dest, m'))

section Counter

variable {n : ℕ}

theorem ofNat_succ_ne_zero (h : n + 1 < 2 ^ 64) : UInt64.ofNat (n + 1) ≠ 0 := by
  rw [ne_eq, eq_zero_iff, toNat_ofNat_of_lt h]
  exact Nat.succ_ne_zero n

theorem ofNat_succ (n : ℕ) : UInt64.ofNat (n + 1) = UInt64.ofNat n + 1 :=
  UInt64.ofNat_add n 1

theorem ofNat_succ_sub_one (n : ℕ) : UInt64.ofNat (n + 1) - 1 = UInt64.ofNat n := by
  rw [ofNat_succ, UInt64.add_sub_cancel]

end Counter

section Loops

variable {a b n fuel : ℕ}

theorem fillLoop_spec (value : UInt8) (m : Memory) (ha : a + n ≤ 2 ^ 64) (hn : n < 2 ^ 64)
    (hfuel : n < fuel) :
    loop (fillBody value) fuel ⟨m, UInt64.ofNat a, UInt64.ofNat n⟩ =
      some (fillRange m a n value) := by
  induction fuel generalizing m a n with
  | zero => omega
  | succ fuel ih =>
    cases n with
    | zero =>
      rw [fillRange_zero]
      exact loop_done rfl
    | succ n =>
      have hplace := toNat_ofNat_of_lt (show a < 2 ^ 64 by omega)
      have hbody : fillBody value ⟨m, UInt64.ofNat a, UInt64.ofNat (n + 1)⟩ =
          some (.next ⟨Function.update m a value, UInt64.ofNat (a + 1), UInt64.ofNat n⟩) := by
        simp only [fillBody, if_neg (ofNat_succ_ne_zero hn), hplace, ofNat_succ_sub_one,
          ofNat_succ a]
      rw [loop_next hbody, ih _ (by omega) (by omega) (by omega), fillRange_first]

theorem copyUpLoop_spec (m : Memory) (ha : a + n ≤ 2 ^ 64) (hb : b + n ≤ 2 ^ 64)
    (hn : n < 2 ^ 64) (hsafe : a ≤ b ∨ b + n ≤ a) (hfuel : n < fuel) :
    loop copyUpBody fuel ⟨m, UInt64.ofNat a, UInt64.ofNat b, UInt64.ofNat n⟩ =
      some (moveRange m a b n) := by
  induction fuel generalizing m a b n with
  | zero => omega
  | succ fuel ih =>
    cases n with
    | zero =>
      rw [moveRange_zero]
      exact loop_done rfl
    | succ n =>
      have hd := toNat_ofNat_of_lt (show a < 2 ^ 64 by omega)
      have hs := toNat_ofNat_of_lt (show b < 2 ^ 64 by omega)
      have hbody : copyUpBody ⟨m, UInt64.ofNat a, UInt64.ofNat b, UInt64.ofNat (n + 1)⟩ =
          some (.next ⟨Function.update m a (m b), UInt64.ofNat (a + 1), UInt64.ofNat (b + 1),
            UInt64.ofNat n⟩) := by
        simp only [copyUpBody, if_neg (ofNat_succ_ne_zero hn), hd, hs, ofNat_succ_sub_one,
          ofNat_succ a, ofNat_succ b]
      rw [loop_next hbody, ih _ (by omega) (by omega) (by omega) (by omega) (by omega),
        moveRange_first m (by omega)]

theorem copyDownLoop_spec (m : Memory) (ha : a + n ≤ 2 ^ 64) (hn : n < 2 ^ 64)
    (hsafe : b ≤ a) (hfuel : n < fuel) :
    loop copyDownBody fuel ⟨m, UInt64.ofNat (a + n), UInt64.ofNat (b + n), UInt64.ofNat n⟩ =
      some (moveRange m a b n) := by
  induction fuel generalizing m n with
  | zero => omega
  | succ fuel ih =>
    cases n with
    | zero =>
      rw [moveRange_zero]
      exact loop_done rfl
    | succ n =>
      have hd := toNat_ofNat_of_lt (show a + n < 2 ^ 64 by omega)
      have hs := toNat_ofNat_of_lt (show b + n < 2 ^ 64 by omega)
      have hbody : copyDownBody ⟨m, UInt64.ofNat (a + (n + 1)), UInt64.ofNat (b + (n + 1)),
          UInt64.ofNat (n + 1)⟩ =
          some (.next ⟨Function.update m (a + n) (m (b + n)), UInt64.ofNat (a + n),
            UInt64.ofNat (b + n), UInt64.ofNat n⟩) := by
        simp only [copyDownBody, if_neg (ofNat_succ_ne_zero hn), ← Nat.add_assoc,
          ofNat_succ_sub_one, hd, hs]
      rw [loop_next hbody, ih _ (by omega) (by omega) (by omega), moveRange_last m hsafe]

end Loops

variable (m : Memory) {dest src count : UInt64}

/-- `memset` fills the range with the low byte of the value and changes nothing else. -/
theorem memset_fills (value : Int32) (hdest : dest.toNat + count.toNat ≤ 2 ^ 64) :
    ∃ m', memset m dest value count = some (dest, m') ∧
      (∀ i < count.toNat, m' (dest.toNat + i) = value.toUInt32.toUInt8) ∧
      ∀ x, x < dest.toNat ∨ dest.toNat + count.toNat ≤ x → m' x = m x := by
  have hloop := fillLoop_spec value.toUInt32.toUInt8 m hdest count.toNat_lt count.toNat_lt
  rw [UInt64.ofNat_toNat, UInt64.ofNat_toNat] at hloop
  refine ⟨_, by rw [memset, wordFuel, hloop, Option.map_some], ?_, ?_⟩
  · exact fun i hi => fillRange_inside m _ (by omega)
  · exact fun x hx => fillRange_outside m _ hx

example : (memset (fun _ => 7) 0xFFFFFFFFFFFFFFFE 0x141 2).map (fun r => r.2 (2 ^ 64 - 1)) =
    some 0x41 := by
  decide +kernel

theorem memcpy_eq (hdest : dest.toNat + count.toNat ≤ 2 ^ 64)
    (hsrc : src.toNat + count.toNat ≤ 2 ^ 64)
    (hsafe : dest.toNat ≤ src.toNat ∨ src.toNat + count.toNat ≤ dest.toNat) :
    memcpy m dest src count = some (dest, moveRange m dest.toNat src.toNat count.toNat) := by
  have hloop := copyUpLoop_spec m hdest hsrc count.toNat_lt hsafe count.toNat_lt
  rw [UInt64.ofNat_toNat, UInt64.ofNat_toNat, UInt64.ofNat_toNat] at hloop
  rw [memcpy, wordFuel, hloop, Option.map_some]

theorem memmove_eq (hdest : dest.toNat + count.toNat ≤ 2 ^ 64)
    (hsrc : src.toNat + count.toNat ≤ 2 ^ 64) :
    memmove m dest src count = some (dest, moveRange m dest.toNat src.toNat count.toNat) := by
  rw [memmove]
  split_ifs with htrivial hbelow
  · rcases htrivial with rfl | rfl
    · rw [moveRange_self]
    · rw [UInt64.toNat_zero, moveRange_zero]
  · rw [UInt64.lt_iff_toNat_lt] at hbelow
    exact memcpy_eq m hdest hsrc (Or.inl hbelow.le)
  · rw [UInt64.lt_iff_toNat_lt, not_lt] at hbelow
    have hloop := copyDownLoop_spec m hdest count.toNat_lt hbelow count.toNat_lt
    rw [UInt64.ofNat_add, UInt64.ofNat_add, UInt64.ofNat_toNat, UInt64.ofNat_toNat,
      UInt64.ofNat_toNat] at hloop
    rw [wordFuel, hloop, Option.map_some]

/-- `memmove` copies the whole range at once, however the ranges overlap; `memcpy` does the
same unless the destination starts inside the source. -/
theorem memmove_simultaneous (hdest : dest.toNat + count.toNat ≤ 2 ^ 64)
    (hsrc : src.toNat + count.toNat ≤ 2 ^ 64) :
    ∃ m', memmove m dest src count = some (dest, m') ∧
      (∀ i < count.toNat, m' (dest.toNat + i) = m (src.toNat + i)) ∧
      (∀ x, x < dest.toNat ∨ dest.toNat + count.toNat ≤ x → m' x = m x) ∧
      (dest ≤ src ∨ src.toNat + count.toNat ≤ dest.toNat ∨
          dest.toNat + count.toNat ≤ src.toNat →
        memcpy m dest src count = some (dest, m')) := by
  refine ⟨_, memmove_eq m hdest hsrc, ?_, ?_, ?_⟩
  · exact fun i hi => moveRange_inside m dest.toNat src.toNat hi
  · exact fun x hx => moveRange_outside m src.toNat hx
  · intro hcase
    apply memcpy_eq m hdest hsrc
    rw [UInt64.le_iff_toNat_le] at hcase
    omega

theorem memmove_simultaneous_sample : ∃ m', memmove (fun x => UInt8.ofNat x) 0xFFFFFFFFFFFFFFF0
    0xFFFFFFFFFFFFFFEE 16 = some (0xFFFFFFFFFFFFFFF0, m') ∧ m' (2 ^ 64 - 1) = 0xFD := by
  have hdest : (0xFFFFFFFFFFFFFFF0 : UInt64).toNat + (16 : UInt64).toNat ≤ 2 ^ 64 := by decide
  have hsrc : (0xFFFFFFFFFFFFFFEE : UInt64).toNat + (16 : UInt64).toNat ≤ 2 ^ 64 := by decide
  obtain ⟨m', hmove, hinside, -, -⟩ :=
    memmove_simultaneous (fun x => UInt8.ofNat x) hdest hsrc
  exact ⟨m', hmove, hinside 15 (by decide)⟩

end Mcsos.CLib
