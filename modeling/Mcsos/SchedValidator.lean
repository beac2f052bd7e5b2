import Mcsos.SchedRunQueue

/-!
# Exactness of `mcsos_sched_validate`

The threads may be linked in any way: the `next` pointers may form cycles or run into one
another. The bound on the count stops the walk, and a walk that ends at the null pointer has
met no thread twice, so acceptance means that the ready queue is a list of distinct threads.
-/

namespace Mcsos.Sched
open BoundedLoop LinkedQueue WordArithmetic

structure Remaining (w : World) (s : ValidateState) (xs : List UInt64) : Prop where
  path : Chain w.nextOf 0 s.cursor xs
  ready : ∀ t ∈ xs, validThreadObject w t = true ∧ w.stateOf t = .ready
  current : w.sched.current ∉ xs
  tail : w.sched.readyTail = xs.getLastD s.last
  count : w.sched.runnableCount.toNat = s.count.toNat + xs.length

theorem remaining_start_iff (w : World) (xs : List UInt64) :
    Remaining w ⟨0, w.sched.readyHead, 0⟩ xs ↔ ReadyList w xs := by
  constructor
  · intro h
    have hcount := h.count
    rw [UInt64.toNat_zero, Nat.zero_add] at hcount
    exact ⟨h.path, h.path.nodup, h.ready, h.current, h.tail, hcount⟩
  · intro h
    have hcount := h.count
    rw [← Nat.zero_add xs.length] at hcount
    exact ⟨h.path, h.ready, h.current, h.tail, hcount⟩

theorem remaining_nil_iff {w : World} {s : ValidateState} (hcursor : s.cursor = 0) :
    (∃ xs, Remaining w s xs) ↔
      s.last = w.sched.readyTail ∧ s.count = w.sched.runnableCount := by
  constructor
  · intro h
    obtain ⟨xs, h⟩ := h
    have hnil : xs = [] := h.path.unique hcursor
    subst hnil
    exact ⟨h.tail.symm, eq_of_toNat_eq h.count.symm⟩
  · intro h
    refine ⟨[], hcursor, ?_, ?_, h.1.symm, ?_⟩
    · exact fun t ht => absurd ht List.not_mem_nil
    · exact List.not_mem_nil
    · rw [h.2]
      rfl

def advanced (w : World) (s : ValidateState) : ValidateState :=
  ⟨s.count + 1, w.nextOf s.cursor, s.cursor⟩

theorem remaining_cons_iff {w : World} {s : ValidateState} (hcursor : s.cursor ≠ 0)
    (hcount : (s.count + 1).toNat = s.count.toNat + 1) :
    (∃ xs, Remaining w s xs) ↔
      (validThreadObject w s.cursor = true ∧ w.stateOf s.cursor = .ready) ∧
      s.cursor ≠ w.sched.current ∧ ∃ xs, Remaining w (advanced w s) xs := by
  constructor
  · intro h
    obtain ⟨xs, h⟩ := h
    cases xs with
    | nil => exact absurd h.path hcursor
    | cons x xs =>
      obtain ⟨hx, -, hpath⟩ := h.path
      obtain ⟨hready, hrest⟩ := List.forall_mem_cons.mp h.ready
      obtain ⟨hcur, hout⟩ := not_or.mp (mt List.mem_cons.mpr h.current)
      have hlength := h.count
      rw [List.length_cons] at hlength
      rw [hx]
      refine ⟨hready, Ne.symm hcur, xs, ?_, hrest, hout, ?_, ?_⟩
      · rw [advanced, hx]
        exact hpath
      · rw [h.tail, List.getLastD_cons, advanced, hx]
      · rw [advanced, hcount]
        omega
  · intro h
    obtain ⟨hready, hcur, xs, h⟩ := h
    have hlength := h.count
    rw [advanced, hcount] at hlength
    refine ⟨s.cursor :: xs, ⟨rfl, hcursor, h.path⟩, ?_, ?_, ?_, ?_⟩
    · exact List.forall_mem_cons.mpr ⟨hready, h.ready⟩
    · rw [List.mem_cons, not_or]
      exact ⟨Ne.symm hcur, h.current⟩
    · rw [List.getLastD_cons]
      exact h.tail
    · rw [List.length_cons]
      omega

theorem validateBody_exact {w : World} (hbound : w.sched.runnableCount.toNat < 2 ^ 64 - 2)
    {s : ValidateState} (hs : s.count.toNat ≤ w.sched.runnableCount.toNat + 1) :
    (∃ r, validateBody w s = some (.done r) ∧ (r = .ok ↔ ∃ xs, Remaining w s xs)) ∨
      validateBody w s = some (.next (advanced w s)) ∧
        ((∃ xs, Remaining w s xs) ↔ ∃ xs, Remaining w (advanced w s) xs) ∧
        (advanced w s).count.toNat = s.count.toNat + 1 ∧
        s.count.toNat ≤ w.sched.runnableCount.toNat := by
  have hone : (1 : UInt64).toNat = 1 := rfl
  have hnext : (s.count + 1).toNat = s.count.toNat + 1 := toNat_add_of_lt _ _ (by omega)
  by_cases hcursor : s.cursor = 0
  · left
    rw [remaining_nil_iff hcursor, validateBody, if_pos hcursor]
    by_cases hlast : s.last = w.sched.readyTail
    · by_cases hcount : s.count = w.sched.runnableCount
      · rw [if_neg (not_not.mpr hlast), if_neg (not_not.mpr hcount)]
        exact ⟨.ok, rfl, iff_of_true rfl ⟨hlast, hcount⟩⟩
      · rw [if_neg (not_not.mpr hlast), if_pos hcount]
        exact ⟨.ecorrupt, rfl, iff_of_false (by decide) (fun h => hcount h.2)⟩
    · rw [if_pos hlast]
      exact ⟨.ecorrupt, rfl, iff_of_false (by decide) (fun h => hlast h.1)⟩
  · rw [remaining_cons_iff hcursor hnext, validateBody, if_neg hcursor]
    by_cases hready : validThreadObject w s.cursor = true ∧ w.stateOf s.cursor = .ready
    swap
    · left
      rw [if_pos (by rw [← Bool.not_eq_true, ← not_and_or]; exact hready)]
      exact ⟨.ecorrupt, rfl, iff_of_false (by decide) (fun h => hready h.1)⟩
    rw [if_neg (by simp [hready])]
    by_cases hcur : s.cursor = w.sched.current
    · left
      rw [if_pos hcur]
      exact ⟨.ecorrupt, rfl, iff_of_false (by decide) (fun h => h.2.1 hcur)⟩
    rw [if_neg hcur]
    have hlimit : s.count + 1 > w.sched.runnableCount + 1 ↔
        w.sched.runnableCount.toNat < s.count.toNat := by
      rw [gt_iff_lt, UInt64.lt_iff_toNat_lt, hnext, toNat_add_of_lt _ _ (by omega), hone]
      omega
    by_cases hpast : s.count + 1 > w.sched.runnableCount + 1
    · left
      rw [if_pos hpast]
      refine ⟨.ecorrupt, rfl, iff_of_false (by decide) (fun h => ?_)⟩
      obtain ⟨xs, hxs⟩ := h.2.2
      have hcount := hxs.count
      rw [advanced, hnext] at hcount
      have hlt := hlimit.mp hpast
      omega
    · right
      rw [if_neg hpast]
      refine ⟨rfl, ⟨fun h => h.2.2, fun h => ⟨hready, hcur, h⟩⟩, hnext, ?_⟩
      exact not_lt.mp (mt hlimit.mpr hpast)

theorem readyCount_loop {w : World} {xs : List UInt64} {count cursor : UInt64} {fuel : ℕ}
    (h : Chain w.nextOf 0 cursor xs) (hcount : count.toNat + xs.length < 2 ^ 64)
    (hfuel : xs.length < fuel) :
    ∃ n, loop (readyCountBody w) fuel (count, cursor) = some n ∧
      n.toNat = count.toNat + xs.length := by
  induction xs generalizing count cursor fuel with
  | nil =>
    obtain ⟨fuel, rfl⟩ := Nat.exists_eq_succ_of_ne_zero (Nat.pos_iff_ne_zero.mp hfuel)
    have hdone : readyCountBody w (count, cursor) = some (.done count) := if_pos h
    exact ⟨count, loop_done hdone, rfl⟩
  | cons x xs ih =>
    rw [List.length_cons] at hcount hfuel
    obtain ⟨fuel, rfl⟩ := Nat.exists_eq_succ_of_ne_zero (Nat.ne_zero_of_lt hfuel)
    obtain ⟨rfl, hnull, hpath⟩ := h
    have hone : (1 : UInt64).toNat = 1 := rfl
    have hnext : (count + 1).toNat = count.toNat + 1 := toNat_add_of_lt _ _ (by omega)
    have hstep : readyCountBody w (count, cursor) =
        some (.next (count + 1, w.nextOf cursor)) := if_neg hnull
    obtain ⟨n, hn, hsum⟩ := @ih (count + 1) _ fuel hpath (by omega) (by omega)
    refine ⟨n, (loop_next hstep).trans hn, ?_⟩
    rw [hsum, hnext, List.length_cons]
    omega

theorem ReadyList.readyCount {w : World} {xs : List UInt64} (h : ReadyList w xs)
    (hinit : w.sched.initialized ≠ 0) :
    mcsosSchedReadyCount w = some w.sched.runnableCount := by
  have hlt := w.sched.runnableCount.toNat_lt
  have hcount := h.count
  have hfuel : xs.length < wordFuel := by
    rw [wordFuel]
    omega
  obtain ⟨n, hn, hsum⟩ := @readyCount_loop w xs 0 _ _ h.path (by simp; omega) hfuel
  rw [mcsosSchedReadyCount, if_neg hinit, hn]
  have hsame : n = w.sched.runnableCount := by
    apply eq_of_toNat_eq
    rw [hsum, hcount, UInt64.toNat_zero, Nat.zero_add]
  rw [hsame]

structure Undecided (w : World) (s : ValidateState) : Prop where
  bound : s.count.toNat ≤ w.sched.runnableCount.toNat + 1
  decides : (∃ xs, Remaining w s xs) ↔ ∃ xs, ReadyList w xs

theorem Undecided.step {w : World} (hbound : w.sched.runnableCount.toNat < 2 ^ 64 - 2)
    {s : ValidateState} (h : Undecided w s) :
    (∃ r, validateBody w s = some (.done r) ∧ (r = .ok ↔ ∃ xs, ReadyList w xs)) ∨
      ∃ t, validateBody w s = some (.next t) ∧ Undecided w t ∧
        w.sched.runnableCount.toNat + 1 - t.count.toNat <
          w.sched.runnableCount.toNat + 1 - s.count.toNat := by
  rcases validateBody_exact hbound h.bound with ⟨r, hr, hiff⟩ | ⟨hnext, hiff, hcount, hle⟩
  · exact Or.inl ⟨r, hr, hiff.trans h.decides⟩
  · exact Or.inr ⟨advanced w s, hnext, ⟨by omega, hiff.symm.trans h.decides⟩, by omega⟩

theorem mcsosSchedValidate_returns {w : World} (hinit : w.sched.initialized ≠ 0)
    (hcur : validThreadObject w w.sched.current = true)
    (hbound : w.sched.runnableCount.toNat < 2 ^ 64 - 2) :
    ∃ r, mcsosSchedValidate w = some r ∧ (r = .ok ↔ ∃ xs, ReadyList w xs) := by
  have hguard : ¬ (w.sched.initialized = 0 ∨ validThreadObject w w.sched.current = false) := by
    simp [hinit, hcur]
  have hstart : Undecided w ⟨0, w.sched.readyHead, 0⟩ :=
    ⟨Nat.zero_le _, exists_congr (remaining_start_iff w)⟩
  have hfuel : w.sched.runnableCount.toNat + 1 - (0 : UInt64).toNat < wordFuel := by
    rw [wordFuel, UInt64.toNat_zero]
    omega
  rw [mcsosSchedValidate, if_neg hguard]
  exact loop_total (Undecided w) (fun r => r = SchedResult.ok ↔ ∃ xs, ReadyList w xs)
    (fun s => w.sched.runnableCount.toNat + 1 - s.count.toNat) (fun s hs => hs.step hbound)
    hstart hfuel

/-- The validator returns on every world, accepts exactly the well-formed ready queues, and
what it accepts is counted correctly. -/
theorem validate_exact {w : World} (hinit : w.sched.initialized ≠ 0)
    (hcur : validThreadObject w w.sched.current = true)
    (hbound : w.sched.runnableCount.toNat < 2 ^ 64 - 2) :
    (∃ r, mcsosSchedValidate w = some r) ∧
    (mcsosSchedValidate w = some .ok ↔ ∃ xs, ReadyList w xs) ∧
    (mcsosSchedValidate w = some .ok →
      mcsosSchedReadyCount w = some w.sched.runnableCount) := by
  obtain ⟨r, hr, hiff⟩ := mcsosSchedValidate_returns hinit hcur hbound
  rw [hr, Option.some_inj]
  refine ⟨⟨r, rfl⟩, hiff, fun hok => ?_⟩
  obtain ⟨xs, hxs⟩ := hiff.mp hok
  exact hxs.readyCount hinit

def loopedWorld : World := queuedWorld.setNext 2 2

theorem validate_exact_sample :
    mcsosSchedReadyCount queuedWorld = some 2 ∧
    (∃ r, mcsosSchedValidate loopedWorld = some r) ∧
    ((∃ r, mcsosSchedValidate queuedWorld = some r) ∧
      (mcsosSchedValidate queuedWorld = some .ok ↔ ∃ xs, ReadyList queuedWorld xs)) := by
  obtain ⟨hreturns, hiff, hcount⟩ :=
    validate_exact (w := queuedWorld) (by decide) (by decide) (by decide)
  exact ⟨hcount (hiff.mpr ⟨[1, 2], queuedWorld_ready⟩),
    (validate_exact (w := loopedWorld) (by decide) (by decide) (by decide)).1, hreturns, hiff⟩

end Mcsos.Sched
