import Mcsos.ByteMemory
import Mcsos.WordArithmetic

/-!
# A machine with a stack

Registers of an arbitrary type, one of which is the stack pointer, and the bytes of a 64-bit
address space whose addresses wrap. The words on the stack are described by a list, top first:
a push adds a word, a pop removes one, and a word may be stored at or loaded from a fixed
distance to the pointer. A call leaves the stack pointer and the callee-saved registers alone
and may change everything else.
-/

namespace Mcsos.StackMachine
open ByteMemory WordArithmetic

abbrev AddressSpace := UInt64 → UInt8

def readWord (m : AddressSpace) (a : UInt64) : UInt64 :=
  loadU64 (fun k => m (a + UInt64.ofNat k)) 0

def writeWord (m : AddressSpace) (a v : UInt64) : AddressSpace :=
  fun x => if (x - a).toNat < 8 then storeU64 (fun _ => 0) 0 v (x - a).toNat else m x

theorem distance_add (a : UInt64) {k : ℕ} (hk : k < 2 ^ 64) :
    (a + UInt64.ofNat k - a).toNat = k := by
  have ha := a.toNat_lt
  rw [UInt64.toNat_sub, UInt64.toNat_add, toNat_ofNat_of_lt hk]
  omega

theorem distance_trans (x a b : UInt64) :
    (x - b).toNat = ((x - a).toNat + (a - b).toNat) % 2 ^ 64 := by
  rw [← UInt64.toNat_add, sub_add_sub_cancel]

theorem distance_symm {a b : UInt64} (h : (a - b).toNat ≠ 0) :
    (b - a).toNat = 2 ^ 64 - (a - b).toNat := by
  have ha := a.toNat_lt
  have hb := b.toNat_lt
  rw [UInt64.toNat_sub] at h ⊢
  rw [UInt64.toNat_sub]
  omega

theorem readWord_congr {m m' : AddressSpace} {a : UInt64}
    (h : ∀ x, (x - a).toNat < 8 → m x = m' x) : readWord m a = readWord m' a := by
  apply loadU64_congr
  intro k _ hk
  apply h
  rw [distance_add a (by omega)]
  omega

theorem readWord_writeWord (m : AddressSpace) (a v : UInt64) :
    readWord (writeWord m a v) a = v := by
  have hbytes : readWord (writeWord m a v) a = loadU64 (storeU64 (fun _ => 0) 0 v) 0 := by
    apply loadU64_congr
    intro k _ hk
    rw [writeWord, distance_add a (by omega), if_pos (by omega)]
  rw [hbytes, loadU64_storeU64]

theorem writeWord_outside (m : AddressSpace) {a x : UInt64} (v : UInt64)
    (h : 8 ≤ (x - a).toNat) : writeWord m a v x = m x := if_neg (by omega)

theorem readWord_writeWord_apart (m : AddressSpace) {a b : UInt64} (v : UInt64)
    (h : 8 ≤ (b - a).toNat) (h' : 8 ≤ (a - b).toNat) :
    readWord (writeWord m a v) b = readWord m b := by
  apply readWord_congr
  intro x hx
  apply writeWord_outside
  have hsymm := distance_symm (by omega : (a - b).toNat ≠ 0)
  rw [distance_trans x b a]
  omega

def words (m : AddressSpace) : UInt64 → ℕ → List UInt64
  | _, 0 => []
  | a, n + 1 => readWord m a :: words m (a + 8) n

theorem length_words (m : AddressSpace) (a : UInt64) (n : ℕ) : (words m a n).length = n := by
  induction n generalizing a with
  | zero => rfl
  | succ n ih => rw [words, List.length_cons, ih]

def Holds (m : AddressSpace) : UInt64 → List UInt64 → Prop
  | _, [] => True
  | a, w :: ws => readWord m a = w ∧ Holds m (a + 8) ws

theorem holds_words (m : AddressSpace) (a : UInt64) (n : ℕ) : Holds m a (words m a n) := by
  induction n generalizing a with
  | zero => exact trivial
  | succ n ih => exact ⟨rfl, ih (a + 8)⟩

theorem Holds.words_eq {m : AddressSpace} {a : UInt64} {ws : List UInt64} (h : Holds m a ws) :
    words m a ws.length = ws := by
  induction ws generalizing a with
  | nil => rfl
  | cons w ws ih => rw [List.length_cons, words, h.1, ih h.2]

theorem add_succ_word (a : UInt64) (n : ℕ) :
    a + UInt64.ofNat (8 * (n + 1)) = a + 8 + UInt64.ofNat (8 * n) := by
  rw [Nat.mul_succ, Nat.add_comm (8 * n), UInt64.ofNat_add, ← UInt64.add_assoc]
  rfl

theorem sub_succ_word (a : UInt64) (n : ℕ) :
    a - UInt64.ofNat (8 * (n + 1)) = a - UInt64.ofNat (8 * n) - 8 := by
  apply eq_of_toNat_eq
  have height : (8 : UInt64).toNat = 8 := rfl
  rw [UInt64.toNat_sub, UInt64.toNat_sub, UInt64.toNat_sub, UInt64.toNat_ofNat',
    UInt64.toNat_ofNat', height]
  omega

theorem words_append (m : AddressSpace) (a : UInt64) (n k : ℕ) :
    words m a (n + k) = words m a n ++ words m (a + UInt64.ofNat (8 * n)) k := by
  induction n generalizing a with
  | zero =>
    have hfirst : a + UInt64.ofNat (8 * 0) = a := UInt64.add_zero a
    rw [hfirst, Nat.zero_add]
    rfl
  | succ n ih => rw [Nat.succ_add, words, words, ih, add_succ_word, List.cons_append]

theorem holds_append {m : AddressSpace} {a : UInt64} {vs ws : List UInt64} :
    Holds m a (vs ++ ws) ↔ Holds m a vs ∧ Holds m (a + UInt64.ofNat (8 * vs.length)) ws := by
  induction vs generalizing a with
  | nil => simp [Holds]
  | cons v vs ih =>
    rw [List.cons_append, Holds, Holds, ih, List.length_cons, add_succ_word, and_assoc]

theorem Holds.get {m : AddressSpace} {a : UInt64} {ws : List UInt64} (h : Holds m a ws)
    {i : ℕ} {w : UInt64} (hw : ws[i]? = some w) : readWord m (a + UInt64.ofNat (8 * i)) = w := by
  induction ws generalizing a i with
  | nil => cases hw
  | cons v ws ih =>
    cases i with
    | zero =>
      cases hw
      exact (congrArg (readWord m) (UInt64.add_zero a)).trans h.1
    | succ i =>
      rw [add_succ_word]
      exact ih h.2 hw

theorem Holds.congr {m m' : AddressSpace} {a : UInt64} {ws : List UInt64} (h : Holds m a ws)
    (hroom : 8 * ws.length ≤ 2 ^ 64)
    (hsame : ∀ x, (x - a).toNat < 8 * ws.length → m' x = m x) : Holds m' a ws := by
  induction ws generalizing a with
  | nil => exact trivial
  | cons w ws ih =>
    rw [List.length_cons] at hroom hsame
    constructor
    · rw [← h.1]
      exact readWord_congr (fun x hx => hsame x (by omega))
    · apply ih h.2 (by omega)
      intro x hx
      apply hsame
      have hdist : (a + 8 - a).toNat = 8 := distance_add a (by decide)
      rw [distance_trans x (a + 8) a]
      omega

theorem Holds.write_apart {m : AddressSpace} {a b : UInt64} {ws : List UInt64}
    (h : Holds m a ws) (v : UInt64) (hlow : 8 ≤ (a - b).toNat)
    (hroom : (a - b).toNat + 8 * ws.length ≤ 2 ^ 64) : Holds (writeWord m b v) a ws := by
  apply h.congr (by omega)
  intro x hx
  apply writeWord_outside
  rw [distance_trans x a b]
  omega

theorem Holds.push {m : AddressSpace} {a : UInt64} {ws : List UInt64} (h : Holds m a ws)
    (v : UInt64) (hroom : 8 * (ws.length + 1) ≤ 2 ^ 64) :
    Holds (writeWord m (a - 8) v) (a - 8) (v :: ws) := by
  have hdist : (a - (a - 8)).toNat = 8 := by rw [sub_sub_cancel]; rfl
  refine ⟨readWord_writeWord m (a - 8) v, ?_⟩
  rw [UInt64.sub_add_cancel]
  exact h.write_apart v (by omega) (by omega)

theorem Holds.set {m : AddressSpace} {a : UInt64} {ws : List UInt64} (h : Holds m a ws) {i : ℕ}
    (v : UInt64) (hi : i < ws.length) (hroom : 8 * ws.length ≤ 2 ^ 64) :
    Holds (writeWord m (a + UInt64.ofNat (8 * i)) v) a (ws.set i v) := by
  induction ws generalizing a i with
  | nil => exact absurd hi (Nat.not_lt_zero i)
  | cons w ws ih =>
    rw [List.length_cons] at hi hroom
    cases i with
    | zero =>
      have hfirst : a + UInt64.ofNat (8 * 0) = a := UInt64.add_zero a
      have hdist : (a + 8 - a).toNat = 8 := distance_add a (by decide)
      rw [hfirst]
      exact ⟨readWord_writeWord m a v, h.2.write_apart v (by omega) (by omega)⟩
    | succ i =>
      have hdist := distance_add a (by omega : 8 * (i + 1) < 2 ^ 64)
      constructor
      · have hsymm := distance_symm (by omega : (a + UInt64.ofNat (8 * (i + 1)) - a).toNat ≠ 0)
        rw [readWord_writeWord_apart m v (by omega) (by omega), h.1]
      · rw [add_succ_word]
        exact ih h.2 (by omega) (by omega)

structure Machine (R : Type*) where
  regs : R → UInt64
  direction : Bool
  mem : AddressSpace

inductive Instr (R : Type*) where
  | push (src : R)
  | pushImm (value : UInt64)
  | pop (dst : R)
  | addImm (value : UInt64) (dst : R)
  | subImm (value : UInt64) (dst : R)
  | mov (src dst : R)
  | store (src : R) (disp : UInt64) (base : R)
  | storeImm (value disp : UInt64) (base : R)
  | load (disp : UInt64) (base dst : R)
  | cld
  deriving DecidableEq

variable {R : Type*}

/-- The stack that grows down from `base` holds the words `ws`, top first. -/
structure StackAt (sp : R) (base : UInt64) (ws : List UInt64) (m : Machine R) : Prop where
  pointer : m.regs sp = base - UInt64.ofNat (8 * ws.length)
  holds : Holds m.mem (m.regs sp) ws

theorem StackAt.empty {sp : R} {base : UInt64} {m : Machine R} (h : m.regs sp = base) :
    StackAt sp base [] m := by
  constructor
  · exact h.trans (sub_zero base).symm
  · exact trivial

theorem StackAt.ofWords (sp : R) (m : Machine R) (n : ℕ) :
    StackAt sp (m.regs sp + UInt64.ofNat (8 * n)) (words m.mem (m.regs sp) n) m := by
  constructor
  · rw [length_words]
    exact (add_sub_cancel_right _ _).symm
  · exact holds_words _ _ n

theorem StackAt.aligned_iff {sp : R} {base : UInt64} {ws : List UInt64} {m : Machine R}
    (h : StackAt sp base ws m) (hbase : base.toNat % 16 = 0) (hroom : 8 * ws.length < 2 ^ 64) :
    (m.regs sp).toNat % 16 = 0 ↔ ws.length % 2 = 0 := by
  have hlt := base.toNat_lt
  rw [h.pointer, UInt64.toNat_sub, toNat_ofNat_of_lt hroom]
  omega

variable [DecidableEq R]

def Machine.setReg (m : Machine R) (r : R) (v : UInt64) : Machine R :=
  { m with regs := Function.update m.regs r v }

def Machine.push (sp : R) (m : Machine R) (v : UInt64) : Machine R :=
  { m.setReg sp (m.regs sp - 8) with mem := writeWord m.mem (m.regs sp - 8) v }

def exec (sp : R) (m : Machine R) : Instr R → Machine R
  | .push src => m.push sp (m.regs src)
  | .pushImm value => m.push sp value
  | .pop dst => (m.setReg sp (m.regs sp + 8)).setReg dst (readWord m.mem (m.regs sp))
  | .addImm value dst => m.setReg dst (m.regs dst + value)
  | .subImm value dst => m.setReg dst (m.regs dst - value)
  | .mov src dst => m.setReg dst (m.regs src)
  | .store src disp base => { m with mem := writeWord m.mem (m.regs base + disp) (m.regs src) }
  | .storeImm value disp base => { m with mem := writeWord m.mem (m.regs base + disp) value }
  | .load disp base dst => m.setReg dst (readWord m.mem (m.regs base + disp))
  | .cld => { m with direction := false }

def execAll (sp : R) (m : Machine R) (code : List (Instr R)) : Machine R :=
  code.foldl (exec sp) m

theorem execAll_append (sp : R) (m : Machine R) (c d : List (Instr R)) :
    execAll sp m (c ++ d) = execAll sp (execAll sp m c) d :=
  List.foldl_append

def storeSlots (sp : R) : List R → ℕ → List (Instr R)
  | [], _ => []
  | r :: rs, i => .store r (UInt64.ofNat (8 * i)) sp :: storeSlots sp rs (i + 1)

structure Outcome (R : Type*) where
  regs : R → UInt64
  mem : AddressSpace

/-- A call of a function that keeps the calling convention, after its return: the return
address is popped again and the registers in `saved` are restored. -/
def Machine.returned (sp : R) (saved : List R) (m : Machine R) (k : Outcome R) : Machine R where
  regs := fun r => if r = sp ∨ r ∈ saved then m.regs r else k.regs r
  direction := false
  mem := k.mem

theorem Machine.returned_kept {sp : R} {saved : List R} (m : Machine R) (k : Outcome R) {r : R}
    (h : r = sp ∨ r ∈ saved) : (m.returned sp saved k).regs r = m.regs r := if_pos h

def Outcome.Keeps (k : Outcome R) (sp : R) (m : Machine R) (n : ℕ) : Prop :=
  ∀ x, (x - m.regs sp).toNat < n → k.mem x = m.mem x

theorem execAll_push {sp : R} {m : Machine R} {rs : List R} (hsp : sp ∉ rs) :
    execAll sp m (rs.map .push) = (rs.map m.regs).foldl (Machine.push sp) m := by
  induction rs generalizing m with
  | nil => rfl
  | cons q rs ih =>
    rw [List.mem_cons, not_or] at hsp
    have hmap : rs.map (m.push sp (m.regs q)).regs = rs.map m.regs := by
      apply List.map_congr_left
      intro r hr
      have hne : r ≠ sp := fun heq => hsp.2 (heq ▸ hr)
      exact Function.update_of_ne hne _ _
    have hrest := ih (m := m.push sp (m.regs q)) hsp.2
    rw [hmap] at hrest
    exact hrest

namespace StackAt

variable {sp : R} {base : UInt64} {ws : List UInt64} {m : Machine R}

theorem push (h : StackAt sp base ws m) (v : UInt64) (hroom : 8 * (ws.length + 1) ≤ 2 ^ 64) :
    StackAt sp base (v :: ws) (m.push sp v) := by
  have hsp : (m.push sp v).regs sp = m.regs sp - 8 := Function.update_self _ _ _
  constructor
  · rw [hsp, h.pointer, List.length_cons, sub_succ_word]
  · rw [hsp]
    exact h.holds.push v hroom

theorem mov (h : StackAt sp base ws m) (src : R) {dst : R} (hdst : sp ≠ dst) :
    StackAt sp base ws (exec sp m (.mov src dst)) := by
  have hsp : (exec sp m (.mov src dst)).regs sp = m.regs sp := Function.update_of_ne hdst _ _
  constructor
  · rw [hsp]
    exact h.pointer
  · rw [hsp]
    exact h.holds

theorem store (h : StackAt sp base ws m) (src : R) {i : ℕ} (hi : i < ws.length)
    (hroom : 8 * ws.length ≤ 2 ^ 64) :
    StackAt sp base (ws.set i (m.regs src))
      (exec sp m (.store src (UInt64.ofNat (8 * i)) sp)) := by
  constructor
  · rw [List.length_set]
    exact h.pointer
  · exact h.holds.set _ hi hroom

theorem storeImm (h : StackAt sp base ws m) (v : UInt64) {i : ℕ} (hi : i < ws.length)
    (hroom : 8 * ws.length ≤ 2 ^ 64) :
    StackAt sp base (ws.set i v) (exec sp m (.storeImm v (UInt64.ofNat (8 * i)) sp)) := by
  constructor
  · rw [List.length_set]
    exact h.pointer
  · exact h.holds.set v hi hroom

theorem reserve (h : StackAt sp base ws m) (n : ℕ) :
    StackAt sp base (words m.mem (m.regs sp - UInt64.ofNat (8 * n)) n ++ ws)
      (exec sp m (.subImm (UInt64.ofNat (8 * n)) sp)) := by
  have hsp : (exec sp m (.subImm (UInt64.ofNat (8 * n)) sp)).regs sp =
      m.regs sp - UInt64.ofNat (8 * n) := Function.update_self _ _ _
  constructor
  · rw [hsp, h.pointer, List.length_append, length_words, Nat.mul_add, UInt64.ofNat_add,
      sub_sub, UInt64.add_comm]
  · rw [hsp, holds_append, length_words, UInt64.sub_add_cancel]
    exact ⟨holds_words _ _ n, h.holds⟩

theorem release {vs : List UInt64} (h : StackAt sp base (vs ++ ws) m) :
    StackAt sp base ws (exec sp m (.addImm (UInt64.ofNat (8 * vs.length)) sp)) := by
  have hsp : (exec sp m (.addImm (UInt64.ofNat (8 * vs.length)) sp)).regs sp =
      m.regs sp + UInt64.ofNat (8 * vs.length) := Function.update_self _ _ _
  constructor
  · rw [hsp, h.pointer, List.length_append, Nat.mul_add, UInt64.ofNat_add,
      UInt64.add_comm (UInt64.ofNat _), ← sub_sub, UInt64.sub_add_cancel]
  · rw [hsp]
    exact (holds_append.mp h.holds).2

theorem storeAll {before old : List UInt64} {rs : List R}
    (h : StackAt sp base (before ++ (old ++ ws)) m) (hlen : old.length = rs.length)
    (hroom : 8 * (before.length + (old.length + ws.length)) ≤ 2 ^ 64) :
    StackAt sp base (before ++ (rs.map m.regs ++ ws))
        (execAll sp m (storeSlots sp rs before.length)) ∧
      (execAll sp m (storeSlots sp rs before.length)).regs = m.regs := by
  induction rs generalizing m before old with
  | nil =>
    obtain rfl := List.length_eq_zero_iff.mp hlen
    exact ⟨h, rfl⟩
  | cons r rs ih =>
    cases old with
    | nil => cases hlen
    | cons v old =>
      rw [List.length_cons] at hroom
      -- the slot just written joins the words before the next slot
      have hslot : (before ++ (v :: old ++ ws)).set before.length (m.regs r) =
          before ++ [m.regs r] ++ (old ++ ws) := by
        rw [List.set_append_right _ _ (le_refl _), Nat.sub_self]
        simp
      have hnext := h.store r (i := before.length) (by simp) (by simp; omega)
      rw [hslot] at hnext
      have hlength : (before ++ [m.regs r]).length = before.length + 1 := by simp
      obtain ⟨hstack, hregs⟩ := ih hnext (by simpa using hlen) (by rw [hlength]; omega)
      rw [hlength] at hstack hregs
      constructor
      · rw [List.append_assoc] at hstack
        exact hstack
      · exact hregs

theorem pushValues (h : StackAt sp base ws m) (vs : List UInt64)
    (hroom : 8 * (vs.length + ws.length) ≤ 2 ^ 64) :
    StackAt sp base (vs.reverse ++ ws) (vs.foldl (Machine.push sp) m) ∧
      ∀ r, r ≠ sp → (vs.foldl (Machine.push sp) m).regs r = m.regs r := by
  induction vs generalizing m ws with
  | nil => exact ⟨h, fun _ _ => rfl⟩
  | cons v vs ih =>
    rw [List.length_cons] at hroom
    obtain ⟨hstack, hregs⟩ := ih (h.push v (by omega)) (by rw [List.length_cons]; omega)
    constructor
    · rw [List.reverse_cons, List.append_assoc]
      exact hstack
    · intro r hr
      exact (hregs r hr).trans (Function.update_of_ne hr _ _)

theorem pushValues_outside (h : StackAt sp base ws m) (vs : List UInt64) {n : ℕ}
    (hn : vs.length + ws.length ≤ n) {x : UInt64}
    (hx : 8 * n ≤ (x - (base - UInt64.ofNat (8 * n))).toNat) :
    (vs.foldl (Machine.push sp) m).mem x = m.mem x := by
  induction vs generalizing m ws with
  | nil => rfl
  | cons v vs ih =>
    rw [List.length_cons] at hn
    have hlt := (x - (base - UInt64.ofNat (8 * n))).toNat_lt
    have hnext := ih (h.push v (by omega)) (by rw [List.length_cons]; omega)
    refine hnext.trans (writeWord_outside m.mem v ?_)
    have hpointer := h.pointer
    rw [hpointer, ← sub_succ_word, UInt64.toNat_sub, UInt64.toNat_sub,
      toNat_ofNat_of_lt (by omega)]
    rw [UInt64.toNat_sub, UInt64.toNat_sub, toNat_ofNat_of_lt (by omega)] at hx
    have hbase := base.toNat_lt
    have hxlt := x.toNat_lt
    omega

theorem pushAll (h : StackAt sp base ws m) {rs : List R} (hsp : sp ∉ rs)
    (hroom : 8 * (rs.length + ws.length) ≤ 2 ^ 64) :
    StackAt sp base ((rs.map m.regs).reverse ++ ws) (execAll sp m (rs.map .push)) ∧
      ∀ r, r ≠ sp → (execAll sp m (rs.map .push)).regs r = m.regs r := by
  rw [execAll_push hsp]
  exact h.pushValues _ (by rw [List.length_map]; exact hroom)

/-- Popping restores the registers from the words on the stack. -/
theorem popAll {vs : List UInt64} (h : StackAt sp base (vs ++ ws) m) {rs : List R}
    (hlen : vs.length = rs.length) (hsp : sp ∉ rs) (hnodup : rs.Nodup) :
    StackAt sp base ws (execAll sp m (rs.map .pop)) ∧
      rs.map (execAll sp m (rs.map .pop)).regs = vs ∧
      (execAll sp m (rs.map .pop)).mem = m.mem ∧
      ∀ r, r ≠ sp → r ∉ rs → (execAll sp m (rs.map .pop)).regs r = m.regs r := by
  induction rs generalizing m vs with
  | nil =>
    obtain rfl := List.length_eq_zero_iff.mp hlen
    exact ⟨h, rfl, rfl, fun _ _ _ => rfl⟩
  | cons q rs ih =>
    rw [List.mem_cons, not_or] at hsp
    rw [List.nodup_cons] at hnodup
    cases vs with
    | nil => cases hlen
    | cons v vs =>
      have hsp' : (exec sp m (.pop q)).regs sp = m.regs sp + 8 := by
        simp only [exec, Machine.setReg]
        rw [Function.update_of_ne hsp.1, Function.update_self]
      have hq : (exec sp m (.pop q)).regs q = v := by
        simp only [exec, Machine.setReg]
        rw [Function.update_self]
        exact h.holds.1
      have hnext : StackAt sp base (vs ++ ws) (exec sp m (.pop q)) := by
        constructor
        · rw [hsp', h.pointer, List.cons_append, List.length_cons, sub_succ_word,
            UInt64.sub_add_cancel]
        · rw [hsp']
          exact h.holds.2
      obtain ⟨hstack, hmap, hmem, hregs⟩ := ih hnext (by simpa using hlen) hsp.2 hnodup.2
      refine ⟨hstack, ?_, hmem, ?_⟩
      · have hlast := (hregs q (Ne.symm hsp.1) hnodup.1).trans hq
        exact congrArg₂ List.cons hlast hmap
      · intro r hr hrs
        rw [List.mem_cons, not_or] at hrs
        have hkept : (exec sp m (.pop q)).regs r = m.regs r := by
          simp only [exec, Machine.setReg]
          rw [Function.update_of_ne hrs.1, Function.update_of_ne hr]
        exact (hregs r hr hrs.2).trans hkept

end StackAt

end Mcsos.StackMachine
