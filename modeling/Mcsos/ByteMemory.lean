import Mathlib

/-!
# Byte memory with little-endian words

A memory maps addresses to bytes. Words are read and written byte by byte, lowest byte
first. The rules say what a store changes, that a load sees the last store to the same
place, and that loads and stores of disjoint places commute.
-/

namespace Mcsos.ByteMemory

abbrev Memory := ℕ → UInt8

def loadBytes (m : Memory) (a : ℕ) : ℕ → ℕ
  | 0 => 0
  | n + 1 => (m a).toNat + 256 * loadBytes m (a + 1) n

def storeBytes (m : Memory) (a v : ℕ) : ℕ → Memory
  | 0 => m
  | n + 1 => storeBytes (Function.update m a (UInt8.ofNat v)) (a + 1) (v / 256) n

def loadU64 (m : Memory) (a : ℕ) : UInt64 := UInt64.ofNat (loadBytes m a 8)
def loadU32 (m : Memory) (a : ℕ) : UInt32 := UInt32.ofNat (loadBytes m a 4)
def storeU64 (m : Memory) (a : ℕ) (v : UInt64) : Memory := storeBytes m a v.toNat 8
def storeU32 (m : Memory) (a : ℕ) (v : UInt32) : Memory := storeBytes m a v.toNat 4

theorem loadBytes_lt (m : Memory) (a n : ℕ) : loadBytes m a n < 256 ^ n := by
  induction n generalizing a with
  | zero => simp [loadBytes]
  | succ n ih =>
    have hb := (m a).toNat_lt
    have hr := ih (a + 1)
    rw [loadBytes, pow_succ]
    omega

theorem loadBytes_congr {m m' : Memory} {a n : ℕ}
    (h : ∀ x, a ≤ x → x < a + n → m x = m' x) : loadBytes m a n = loadBytes m' a n := by
  induction n generalizing a with
  | zero => rfl
  | succ n ih =>
    rw [loadBytes, loadBytes, h a le_rfl (by omega), ih (fun x hx hx' => h x (by omega) (by omega))]

theorem storeBytes_outside (m : Memory) (a v : ℕ) {n x : ℕ} (h : x < a ∨ a + n ≤ x) :
    storeBytes m a v n x = m x := by
  induction n generalizing m a v with
  | zero => rfl
  | succ n ih =>
    rw [storeBytes, ih _ _ _ (by omega), Function.update_of_ne (by omega)]

theorem storeBytes_congr {m m' : Memory} {a v n x : ℕ} (h : m' x = m x ∨ a ≤ x ∧ x < a + n) :
    storeBytes m' a v n x = storeBytes m a v n x := by
  induction n generalizing m m' a v with
  | zero => exact h.resolve_right (by omega)
  | succ n ih =>
    apply ih
    by_cases hx : x = a
    · rw [hx, Function.update_self, Function.update_self]
      exact Or.inl rfl
    · rw [Function.update_of_ne hx, Function.update_of_ne hx]
      exact h.imp_right (by omega)

theorem loadBytes_storeBytes (m : Memory) (a v n : ℕ) :
    loadBytes (storeBytes m a v n) a n = v % 256 ^ n := by
  induction n generalizing m a v with
  | zero => simp [loadBytes, Nat.mod_one]
  | succ n ih =>
    have hmod : v % 256 ^ (n + 1) = v % 256 + 256 * (v / 256 % 256 ^ n) := by
      rw [Nat.pow_succ', Nat.mod_mul]
    rw [loadBytes, storeBytes, ih, storeBytes_outside _ _ _ (by omega), Function.update_self,
      UInt8.toNat_ofNat', hmod]

theorem loadBytes_storeBytes_disjoint (m : Memory) {a b v k n : ℕ}
    (h : a + n ≤ b ∨ b + k ≤ a) : loadBytes (storeBytes m b v k) a n = loadBytes m a n :=
  loadBytes_congr (fun x hx hx' => storeBytes_outside m b v (by omega))

theorem byte_of_loadBytes (m : Memory) (a : ℕ) {n i : ℕ} (h : i < n) :
    loadBytes m a n / 256 ^ i % 256 = (m (a + i)).toNat := by
  induction n generalizing a i with
  | zero => omega
  | succ n ih =>
    have hb := (m a).toNat_lt
    rw [loadBytes]
    cases i with
    | zero =>
      simp only [pow_zero, Nat.div_one, Nat.add_zero]
      omega
    | succ i =>
      have hr := ih (a + 1) (i := i) (by omega)
      have hdiv : ((m a).toNat + 256 * loadBytes m (a + 1) n) / 256 = loadBytes m (a + 1) n := by
        omega
      have haddr : a + 1 + i = a + (i + 1) := by omega
      rw [Nat.pow_succ', ← Nat.div_div_eq_div_mul, hdiv, hr, haddr]

theorem loadU64_toNat (m : Memory) (a : ℕ) : (loadU64 m a).toNat = loadBytes m a 8 := by
  have h := loadBytes_lt m a 8
  rw [loadU64, UInt64.toNat_ofNat', Nat.mod_eq_of_lt]
  omega

theorem loadU32_toNat (m : Memory) (a : ℕ) : (loadU32 m a).toNat = loadBytes m a 4 := by
  have h := loadBytes_lt m a 4
  rw [loadU32, UInt32.toNat_ofNat', Nat.mod_eq_of_lt]
  omega

theorem loadU64_congr {m m' : Memory} {a : ℕ} (h : ∀ x, a ≤ x → x < a + 8 → m x = m' x) :
    loadU64 m a = loadU64 m' a := by
  rw [loadU64, loadU64, loadBytes_congr h]

theorem loadU64_zero {m : Memory} {a : ℕ} (h : ∀ x, a ≤ x → x < a + 8 → m x = 0) :
    loadU64 m a = 0 := by
  have hsame : loadU64 m a = loadU64 (fun _ => 0) a := loadU64_congr h
  rw [hsame]
  rfl

theorem loadU32_congr {m m' : Memory} {a : ℕ} (h : ∀ x, a ≤ x → x < a + 4 → m x = m' x) :
    loadU32 m a = loadU32 m' a := by
  rw [loadU32, loadU32, loadBytes_congr h]

theorem storeU64_outside (m : Memory) (a : ℕ) (v : UInt64) {x : ℕ} (h : x < a ∨ a + 8 ≤ x) :
    storeU64 m a v x = m x :=
  storeBytes_outside m a v.toNat h

theorem storeU32_outside (m : Memory) (a : ℕ) (v : UInt32) {x : ℕ} (h : x < a ∨ a + 4 ≤ x) :
    storeU32 m a v x = m x :=
  storeBytes_outside m a v.toNat h

theorem storeU64_congr {m m' : Memory} {a x : ℕ} {v : UInt64}
    (h : m' x = m x ∨ a ≤ x ∧ x < a + 8) : storeU64 m' a v x = storeU64 m a v x :=
  storeBytes_congr h

theorem storeU32_congr {m m' : Memory} {a x : ℕ} {v : UInt32}
    (h : m' x = m x ∨ a ≤ x ∧ x < a + 4) : storeU32 m' a v x = storeU32 m a v x :=
  storeBytes_congr h

@[simp] theorem loadU64_storeU64 (m : Memory) (a : ℕ) (v : UInt64) :
    loadU64 (storeU64 m a v) a = v := by
  have hv := v.toNat_lt
  rw [loadU64, storeU64, loadBytes_storeBytes, Nat.mod_eq_of_lt (by omega), UInt64.ofNat_toNat]

@[simp] theorem loadU32_storeU32 (m : Memory) (a : ℕ) (v : UInt32) :
    loadU32 (storeU32 m a v) a = v := by
  have hv := v.toNat_lt
  rw [loadU32, storeU32, loadBytes_storeBytes, Nat.mod_eq_of_lt (by omega), UInt32.ofNat_toNat]

theorem loadU64_storeU64_disjoint (m : Memory) {a b : ℕ} (v : UInt64)
    (h : a + 8 ≤ b ∨ b + 8 ≤ a) : loadU64 (storeU64 m b v) a = loadU64 m a := by
  rw [loadU64, storeU64, loadBytes_storeBytes_disjoint m h, loadU64]

theorem loadU64_storeU32_disjoint (m : Memory) {a b : ℕ} (v : UInt32)
    (h : a + 8 ≤ b ∨ b + 4 ≤ a) : loadU64 (storeU32 m b v) a = loadU64 m a := by
  rw [loadU64, storeU32, loadBytes_storeBytes_disjoint m h, loadU64]

theorem loadU32_storeU64_disjoint (m : Memory) {a b : ℕ} (v : UInt64)
    (h : a + 4 ≤ b ∨ b + 8 ≤ a) : loadU32 (storeU64 m b v) a = loadU32 m a := by
  rw [loadU32, storeU64, loadBytes_storeBytes_disjoint m h, loadU32]

def fillRange (m : Memory) (a n : ℕ) (v : UInt8) : Memory :=
  fun x => if a ≤ x ∧ x < a + n then v else m x

theorem fillRange_inside (m : Memory) {a n x : ℕ} (v : UInt8) (h : a ≤ x ∧ x < a + n) :
    fillRange m a n v x = v := if_pos h

theorem fillRange_outside (m : Memory) {a n x : ℕ} (v : UInt8) (h : x < a ∨ a + n ≤ x) :
    fillRange m a n v x = m x := if_neg (by omega)

theorem fillRange_zero (m : Memory) (a : ℕ) (v : UInt8) : fillRange m a 0 v = m := by
  funext x
  exact fillRange_outside m v (by omega)

theorem fillRange_first (m : Memory) (a n : ℕ) (v : UInt8) :
    fillRange (Function.update m a v) (a + 1) n v = fillRange m a (n + 1) v := by
  funext x
  by_cases hx : x = a
  · rw [hx, fillRange_outside _ v (by omega), Function.update_self, fillRange_inside m v (by omega)]
  · have hin : a + 1 ≤ x ∧ x < a + 1 + n ↔ a ≤ x ∧ x < a + (n + 1) := by omega
    simp only [fillRange, Function.update_of_ne hx, hin]

/-- The `n` bytes from `a` on are replaced by the `n` bytes from `b` on, all at once. -/
def moveRange (m : Memory) (a b n : ℕ) : Memory :=
  fun x => if a ≤ x ∧ x < a + n then m (b + (x - a)) else m x

theorem moveRange_inside (m : Memory) (a b : ℕ) {n i : ℕ} (h : i < n) :
    moveRange m a b n (a + i) = m (b + i) := by
  rw [moveRange, if_pos (by omega), Nat.add_sub_cancel_left]

theorem moveRange_outside (m : Memory) {a n x : ℕ} (b : ℕ) (h : x < a ∨ a + n ≤ x) :
    moveRange m a b n x = m x := if_neg (by omega)

theorem moveRange_zero (m : Memory) (a b : ℕ) : moveRange m a b 0 = m := by
  funext x
  exact moveRange_outside m b (by omega)

theorem moveRange_self (m : Memory) (a n : ℕ) : moveRange m a a n = m := by
  funext x
  rw [moveRange]
  split_ifs with h
  · rw [Nat.add_sub_cancel' h.1]
  · rfl

theorem moveRange_first (m : Memory) {a b n : ℕ} (h : a ≤ b ∨ b + n < a) :
    moveRange (Function.update m a (m b)) (a + 1) (b + 1) n = moveRange m a b (n + 1) := by
  funext x
  by_cases hin : a + 1 ≤ x ∧ x < a + 1 + n
  · have hsource : b + 1 + (x - (a + 1)) = b + (x - a) := by omega
    rw [moveRange, moveRange, if_pos hin, if_pos (by omega), hsource,
      Function.update_of_ne (by omega)]
  · rw [moveRange, if_neg hin]
    by_cases hx : x = a
    · rw [hx, Function.update_self, moveRange, if_pos (by omega), Nat.sub_self, Nat.add_zero]
    · rw [Function.update_of_ne hx, moveRange_outside m b (by omega)]

theorem moveRange_last (m : Memory) {a b n : ℕ} (h : b ≤ a) :
    moveRange (Function.update m (a + n) (m (b + n))) a b n = moveRange m a b (n + 1) := by
  funext x
  by_cases hin : a ≤ x ∧ x < a + n
  · rw [moveRange, moveRange, if_pos hin, if_pos (by omega), Function.update_of_ne (by omega)]
  · rw [moveRange, if_neg hin]
    by_cases hx : x = a + n
    · rw [hx, Function.update_self, moveRange_inside m a b (Nat.lt_succ_self n)]
    · rw [Function.update_of_ne hx, moveRange_outside m b (by omega)]

theorem loadU64_low (m : Memory) (a : ℕ) : (loadU64 m a).toNat % 2 ^ 32 = (loadU32 m a).toNat := by
  have h0 := (m a).toNat_lt
  have h1 := (m (a + 1)).toNat_lt
  have h2 := (m (a + 1 + 1)).toNat_lt
  have h3 := (m (a + 1 + 1 + 1)).toNat_lt
  rw [loadU64_toNat, loadU32_toNat]
  simp only [loadBytes]
  omega

end Mcsos.ByteMemory
