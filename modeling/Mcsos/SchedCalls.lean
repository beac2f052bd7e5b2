import Mcsos.SchedRefinement

/-!
# Single calls of the scheduler in an arbitrary world

A yield takes the head of the queue before it puts the old thread back, and dequeues before
it has checked the thread that it takes. The results below say when the order shows: which
yields rotate the queue, and which failed calls leave the scheduler as it was. The last part
places the first stack frame of a thread.
-/

namespace Mcsos.Sched
open ByteMemory LinkedQueue WordArithmetic

section Yield

variable {w : World} {xs : List UInt64}

structure WellFormed (w : World) (xs : List UInt64) : Prop extends ReadyList w xs where
  initialized : w.sched.initialized ≠ 0
  validCurrent : validThreadObject w w.sched.current = true
  validIdle : validThreadObject w w.sched.idle = true

def YieldRotates (w : World) (xs : List UInt64) : Prop :=
  ∃ w', mcsosSchedYield w = (.ok, w') ∧
    w'.sched.current = (xs ++ [w.sched.current]).headD 0 ∧
    ReadyList w' (xs ++ [w.sched.current]).tail ∧
    (w.sched.idle ∉ xs → w'.sched.current ≠ w.sched.idle)

def dispatched (w : World) (old next : UInt64) : World :=
  switchTo (appendReady (w.setState old .ready) old) old next

theorem requeue_accepted {old : UInt64} (hinit : w.sched.initialized ≠ 0)
    (hold : validThreadObject w old = true) :
    mcsosSchedEnqueue (w.setState old .ready) old =
      (.ok, appendReady (w.setState old .ready) old) := by
  have hinit' : (w.setState old .ready).sched.initialized ≠ 0 := hinit
  apply mcsosSchedEnqueue_ok hinit'
  · rw [validThreadObject_congr (magicOf_setState w old .ready)]
    exact hold
  · simp

theorem mcsosSchedYield_of_running (hinit : w.sched.initialized ≠ 0)
    (hcur : validThreadObject w w.sched.current = true)
    (hrun : w.stateOf w.sched.current = .running) (hidle : w.sched.current ≠ w.sched.idle)
    {next : UInt64} {w₁ : World} (hpick : mcsosSchedPickNext w = (next, w₁))
    (hmagic : w₁.magicOf = w.magicOf) (hstate : w₁.stateOf = w.stateOf)
    (hinit₁ : w₁.sched.initialized = w.sched.initialized)
    (hidle₁ : w₁.sched.idle = w.sched.idle)
    (hnext : validThreadObject w next = true) (hne : next ≠ w.sched.current) :
    mcsosSchedYield w = (.ok, dispatched w₁ w.sched.current next) := by
  have hguard : ¬ (w.sched.initialized = 0 ∨ validThreadObject w w.sched.current = false) := by
    simp [hinit, hcur]
  have hvalid : ¬ validThreadObject w₁ next = false := by
    rw [validThreadObject_congr hmagic, hnext]
    decide
  have hrequeue : requeueOld w₁ w.sched.current =
      (.ok, appendReady (w₁.setState w.sched.current .ready) w.sched.current) := by
    rw [requeueOld, if_pos]
    · exact requeue_accepted (hinit₁ ▸ hinit) (by rw [validThreadObject_congr hmagic, hcur])
    · rw [hstate, hidle₁]
      exact ⟨hrun, hidle⟩
  simp only [mcsosSchedYield, if_neg hguard, hpick, if_neg hvalid, if_neg hne, hrequeue]
  rfl

theorem dispatched_next (w : World) (old next : UInt64) :
    (dispatched w old next).nextOf = (appendReady (w.setState old .ready) old).nextOf := by
  simp [dispatched, switchTo]

theorem dispatched_state (w : World) (old next : UInt64) :
    (dispatched w old next).stateOf =
      Function.update (Function.update w.stateOf old .ready) next .running := by
  rw [dispatched, switchTo_state, appendReady_state, stateOf_setState, Function.update_idem]

theorem dispatched_magic (w : World) (old next : UInt64) :
    (dispatched w old next).magicOf = w.magicOf := by
  simp [dispatched, switchTo, appendReady_magic]

theorem WellFormed.mcsosSchedYield_nil (h : WellFormed w [])
    (hrun : w.stateOf w.sched.current = .running) (hidle : w.sched.current ≠ w.sched.idle) :
    mcsosSchedYield w = (.ok, dispatched w w.sched.current w.sched.idle) := by
  have hpick : mcsosSchedPickNext w = (w.sched.idle, w) := by
    have hempty : w.sched.readyHead = 0 := h.path
    rw [mcsosSchedPickNext, if_neg h.initialized, if_pos hempty]
  exact mcsosSchedYield_of_running h.initialized h.validCurrent hrun hidle hpick rfl rfl rfl rfl
    h.validIdle (Ne.symm hidle)

theorem WellFormed.mcsosSchedYield_cons {x : UInt64} (h : WellFormed w (x :: xs))
    (hrun : w.stateOf w.sched.current = .running) (hidle : w.sched.current ≠ w.sched.idle) :
    mcsosSchedYield w = (.ok, dispatched (removeHead w x) w.sched.current x) := by
  have hhead : w.sched.readyHead = x := h.path.1
  have hne : x ≠ w.sched.current := fun heq => h.current (heq ▸ List.mem_cons_self)
  have hpick : mcsosSchedPickNext w = (x, removeHead w x) := by
    rw [mcsosSchedPickNext, if_neg h.initialized, hhead, if_neg h.path.2.1]
  exact mcsosSchedYield_of_running h.initialized h.validCurrent hrun hidle hpick
    (removeHead_magic w x) (removeHead_state w x) rfl rfl (h.ready x List.mem_cons_self).1 hne

theorem WellFormed.dispatched_ready {x : UInt64} (h : WellFormed w (x :: xs)) :
    ReadyList (dispatched (removeHead w x) w.sched.current x) (xs ++ [w.sched.current]) := by
  have hx : x ∉ xs := (List.nodup_cons.mp h.distinct).1
  obtain ⟨hcurx, hcurxs⟩ := not_or.mp (mt List.mem_cons.mpr h.current)
  have hnull := ((validThreadObject_eq_true w _).mp h.validCurrent).1
  have hroom : xs.length + 1 < 2 ^ 64 := by
    have hcount := h.count
    have hlt := w.sched.runnableCount.toNat_lt
    rw [List.length_cons] at hcount
    omega
  have hpop : Queue ((removeHead w x).setState w.sched.current .ready).nextOf 0
      ((removeHead w x).setState w.sched.current .ready).sched.readyHead
      ((removeHead w x).setState w.sched.current .ready).sched.readyTail xs := by
    rw [nextOf_setState]
    exact removeHead_queue ⟨h.path, h.tail⟩
  have hqueue := appendReady_queue hpop hnull hcurxs
  have hcount := appendReady_count
    (w := (removeHead w x).setState w.sched.current .ready) (removeHead_count h.count) hroom
    w.sched.current
  constructor
  case path =>
    rw [dispatched_next]
    exact hqueue.chain
  case distinct => exact hqueue.nodup
  case ready =>
    intro t ht
    rw [validThreadObject_congr ((dispatched_magic _ _ _).trans (removeHead_magic w x)),
      dispatched_state, removeHead_state]
    rcases List.mem_append.mp ht with ht | ht
    · have htx : t ≠ x := fun heq => hx (heq ▸ ht)
      have htc : t ≠ w.sched.current := fun heq => hcurxs (heq ▸ ht)
      rw [Function.update_of_ne htx, Function.update_of_ne htc]
      exact h.ready t (List.mem_cons_of_mem x ht)
    · rw [List.mem_singleton.mp ht, Function.update_of_ne hcurx, Function.update_self]
      exact ⟨h.validCurrent, rfl⟩
  case current =>
    intro hmem
    rcases List.mem_append.mp hmem with hmem | hmem
    · exact hx hmem
    · exact hcurx (List.mem_singleton.mp hmem).symm
  case tail => exact hqueue.tail_eq
  case count => exact hcount

/-- A yield of a running thread that is not the idle thread rotates the queue exactly when
another thread is queued; with an empty queue the idle thread is dispatched instead. -/
theorem yield_rotates_iff (h : WellFormed w xs)
    (hrun : w.stateOf w.sched.current = .running) (hidle : w.sched.current ≠ w.sched.idle) :
    YieldRotates w xs ↔ xs ≠ [] := by
  cases xs with
  | nil =>
    have hcall := h.mcsosSchedYield_nil hrun hidle
    apply iff_of_false _ (not_not.mpr rfl)
    intro hrotates
    obtain ⟨w', hyield, hcur, -, -⟩ := hrotates
    rw [hcall] at hyield
    cases hyield
    exact hidle hcur.symm
  | cons x xs =>
    have hcall := h.mcsosSchedYield_cons hrun hidle
    apply iff_of_true _ (List.cons_ne_nil x xs)
    refine ⟨_, hcall, rfl, h.dispatched_ready, ?_⟩
    exact fun hout heq => hout (heq ▸ List.mem_cons_self)

def runningWorld : World :=
  (queuedWorld.setState 3 .running).setSched { queuedWorld.sched with current := 3 }

theorem runningWorld_wellFormed : WellFormed runningWorld [1, 2] where
  path := by decide
  distinct := by decide
  ready := List.forall_mem_cons.mpr ⟨by decide, List.forall_mem_singleton.mpr (by decide)⟩
  current := by decide
  tail := rfl
  count := rfl
  initialized := by decide
  validCurrent := by decide
  validIdle := by decide

theorem yield_rotates_sample : WellFormed runningWorld [1, 2] ∧ YieldRotates runningWorld [1, 2] :=
  ⟨runningWorld_wellFormed,
    (yield_rotates_iff runningWorld_wellFormed (by decide) (by decide)).mpr (by decide)⟩

def loneWorld : World :=
  runningWorld.setSched
    { runningWorld.sched with readyHead := 0, readyTail := 0, runnableCount := 0 }

theorem yield_of_lone_thread_idles :
    WellFormed loneWorld [] ∧ loneWorld.stateOf loneWorld.sched.current = .running ∧
    loneWorld.sched.current ≠ loneWorld.sched.idle ∧ ¬ YieldRotates loneWorld [] ∧
    (mcsosSchedYield loneWorld).1 = .ok ∧
    (mcsosSchedYield loneWorld).2.sched.current = loneWorld.sched.idle ∧
    (mcsosSchedYield loneWorld).2.sched.readyHead = 3 := by
  -- The only runnable thread yields: the idle thread is dispatched, and the thread that could have
  -- gone on waits behind it.
  refine ⟨?_, by decide, by decide, ?_, by decide, by decide, by decide⟩
  · constructor
    case toReadyList => exact ⟨rfl, List.nodup_nil, by simp, List.not_mem_nil, rfl, rfl⟩
    case initialized => decide
    case validCurrent => decide
    case validIdle => decide
  · intro hrotates
    obtain ⟨w', hyield, hcur, -, -⟩ := hrotates
    have hcur' : (mcsosSchedYield loneWorld).2.sched.current = 3 := by
      rw [hyield]
      exact hcur
    exact absurd hcur' (by decide)

end Yield

section Errors

structure Intact (w w' : World) : Prop where
  current : w'.sched.current = w.sched.current
  readyHead : w'.sched.readyHead = w.sched.readyHead
  readyTail : w'.sched.readyTail = w.sched.readyTail
  runnableCount : w'.sched.runnableCount = w.sched.runnableCount
  contextSwitches : w'.sched.contextSwitches = w.sched.contextSwitches
  next : w'.nextOf = w.nextOf
  state : w'.stateOf = w.stateOf

def FailsIntact (w : World) (r : SchedResult × World) : Prop := r.1 ≠ .ok → Intact w r.2

/-- The calls that write before the check that stops them. -/
def WritesFirst (w : World) : SchedCall → Prop
  | .yield => w.sched.initialized ≠ 0 ∧ validThreadObject w w.sched.current = true ∧
      w.sched.readyHead ≠ 0 ∧ validThreadObject w w.sched.readyHead = false
  | .blockCurrent => w.sched.initialized ≠ 0 ∧
      validThreadObject w w.sched.current = true ∧ w.sched.current ≠ w.sched.idle ∧
      (w.sched.readyHead ≠ 0 ∧ validThreadObject w w.sched.readyHead = false ∨
        w.sched.readyHead = 0 ∧ validThreadObject w w.sched.idle = false ∧
          w.stateOf w.sched.current ≠ .blocked)
  | _ => False

variable {w w' : World}

theorem Intact.refl (w : World) : Intact w w := ⟨rfl, rfl, rfl, rfl, rfl, rfl, rfl⟩

theorem failsIntact_of_unchanged (w : World) (rc : SchedResult) : FailsIntact w (rc, w) :=
  fun _ => Intact.refl w

theorem failsIntact_ecorrupt_iff (w w' : World) :
    FailsIntact w (.ecorrupt, w') ↔ Intact w w' := by
  have hne : SchedResult.ecorrupt ≠ .ok := by decide
  exact ⟨fun h => h hne, fun h _ => h⟩

theorem not_intact_of_dequeued (hhead : w.sched.readyHead ≠ 0)
    (hready : w'.sched.readyHead = w.nextOf w.sched.readyHead)
    (hnext : w'.nextOf = Function.update w.nextOf w.sched.readyHead 0) : ¬ Intact w w' := by
  intro h
  -- The head pointer has moved, unless the head was its own successor; then it is unlinked.
  have hself : w.nextOf w.sched.readyHead = w.sched.readyHead := hready.symm.trans h.readyHead
  have hcleared := congrFun (hnext.symm.trans h.next) w.sched.readyHead
  rw [Function.update_self, hself] at hcleared
  exact hhead hcleared.symm

theorem requeueOld_ok {old : UInt64} (hinit : w.sched.initialized ≠ 0)
    (hold : validThreadObject w old = true) : (requeueOld w old).1 = .ok := by
  rw [requeueOld]
  split_ifs
  · rw [requeue_accepted hinit hold]
  · rfl

theorem mcsosSchedYield_of_pick {next : UInt64} (hinit : w.sched.initialized ≠ 0)
    (hcur : validThreadObject w w.sched.current = true)
    (hpick : mcsosSchedPickNext w = (next, w'))
    (hinit' : w'.sched.initialized = w.sched.initialized) (hmagic : w'.magicOf = w.magicOf) :
    validThreadObject w next = false ∧ mcsosSchedYield w = (.ecorrupt, w') ∨
      validThreadObject w next = true ∧ (mcsosSchedYield w).1 = .ok := by
  have hguard : ¬ (w.sched.initialized = 0 ∨ validThreadObject w w.sched.current = false) := by
    simp [hinit, hcur]
  simp only [mcsosSchedYield, if_neg hguard, hpick, validThreadObject_congr hmagic]
  cases hnext : validThreadObject w next with
  | false => exact Or.inl ⟨rfl, rfl⟩
  | true =>
    refine Or.inr ⟨rfl, ?_⟩
    have hrequeue := requeueOld_ok (hinit' ▸ hinit)
      ((validThreadObject_congr hmagic w.sched.current).trans hcur)
    simp only [hrequeue, Bool.true_eq_false, if_false, ne_eq, not_true_eq_false]
    split_ifs <;> rfl

theorem mcsosSchedYield_cases (hinit : w.sched.initialized ≠ 0)
    (hcur : validThreadObject w w.sched.current = true) :
    w.sched.readyHead = 0 ∧ validThreadObject w w.sched.idle = false ∧
        mcsosSchedYield w = (.ecorrupt, w) ∨
      w.sched.readyHead ≠ 0 ∧ validThreadObject w w.sched.readyHead = false ∧
        mcsosSchedYield w = (.ecorrupt, removeHead w w.sched.readyHead) ∨
      (w.sched.readyHead = 0 → validThreadObject w w.sched.idle = true) ∧
        (w.sched.readyHead ≠ 0 → validThreadObject w w.sched.readyHead = true) ∧
        (mcsosSchedYield w).1 = .ok := by
  by_cases hhead : w.sched.readyHead = 0
  · have hpick : mcsosSchedPickNext w = (w.sched.idle, w) := by
      rw [mcsosSchedPickNext, if_neg hinit, if_pos hhead]
    rcases mcsosSchedYield_of_pick hinit hcur hpick rfl rfl with ⟨hbad, hcall⟩ | ⟨hgood, hok⟩
    · exact Or.inl ⟨hhead, hbad, hcall⟩
    · exact Or.inr (Or.inr ⟨fun _ => hgood, fun hne => absurd hhead hne, hok⟩)
  · have hpick : mcsosSchedPickNext w =
        (w.sched.readyHead, removeHead w w.sched.readyHead) := by
      rw [mcsosSchedPickNext, if_neg hinit, if_neg hhead]
    rcases mcsosSchedYield_of_pick hinit hcur hpick rfl (removeHead_magic w _) with
      ⟨hbad, hcall⟩ | ⟨hgood, hok⟩
    · exact Or.inr (Or.inl ⟨hhead, hbad, hcall⟩)
    · exact Or.inr (Or.inr ⟨fun hzero => absurd hzero hhead, fun _ => hgood, hok⟩)

theorem mcsosSchedEnqueue_failsIntact (w : World) (thread : UInt64) :
    FailsIntact w (mcsosSchedEnqueue w thread) := by
  rw [mcsosSchedEnqueue]
  split_ifs
  · exact failsIntact_of_unchanged w .einval
  · exact failsIntact_of_unchanged w .estate
  · exact fun hne => absurd rfl hne

theorem mcsosThreadMarkReady_failsIntact (w : World) (thread : UInt64) :
    FailsIntact w (mcsosThreadMarkReady w thread) := by
  rw [mcsosThreadMarkReady]
  split_ifs
  · exact failsIntact_of_unchanged w .einval
  · exact failsIntact_of_unchanged w .estate
  · exact mcsosSchedEnqueue_failsIntact w thread

theorem refused_of_guard {P : Prop}
    (hguard : w.sched.initialized = 0 ∨ validThreadObject w w.sched.current = false) :
    ¬ (w.sched.initialized ≠ 0 ∧ validThreadObject w w.sched.current = true ∧ P) := by
  intro h
  rcases hguard with hzero | hbad
  · exact h.1 hzero
  · exact absurd (h.2.1.symm.trans hbad) (by decide)

theorem mcsosSchedYield_failsIntact_iff (w : World) :
    FailsIntact w (mcsosSchedYield w) ↔ ¬ WritesFirst w .yield := by
  by_cases hguard : w.sched.initialized = 0 ∨ validThreadObject w w.sched.current = false
  · rw [mcsosSchedYield, if_pos hguard]
    exact iff_of_true (failsIntact_of_unchanged w .einval) (refused_of_guard hguard)
  rw [not_or, Bool.not_eq_false] at hguard
  rcases mcsosSchedYield_cases hguard.1 hguard.2 with
    ⟨hhead, -, hcall⟩ | ⟨hhead, hbad, hcall⟩ | ⟨-, hgood, hok⟩
  · rw [hcall]
    exact iff_of_true (failsIntact_of_unchanged w .ecorrupt) (fun h => h.2.2.1 hhead)
  · rw [hcall]
    rw [failsIntact_ecorrupt_iff]
    apply iff_of_false
    · exact not_intact_of_dequeued hhead rfl (removeHead_next w _)
    · exact not_not.mpr ⟨hguard.1, hguard.2, hhead, hbad⟩
  · apply iff_of_true
    · exact fun hne => absurd hok hne
    · intro h
      exact absurd ((hgood h.2.2.1).symm.trans h.2.2.2) (by decide)

theorem intact_setState_iff (w : World) (p : UInt64) (state : ThreadState) :
    Intact w (w.setState p state) ↔ w.stateOf p = state := by
  constructor
  · intro h
    have hstate := congrFun h.state p
    rw [stateOf_setState, Function.update_self] at hstate
    exact hstate.symm
  · intro h
    refine ⟨rfl, rfl, rfl, rfl, rfl, nextOf_setState w p state, ?_⟩
    rw [stateOf_setState, ← h, Function.update_eq_self]

theorem mcsosThreadBlockCurrent_failsIntact_iff (w : World) :
    FailsIntact w (mcsosThreadBlockCurrent w) ↔ ¬ WritesFirst w .blockCurrent := by
  by_cases hguard : w.sched.initialized = 0 ∨ validThreadObject w w.sched.current = false
  · rw [mcsosThreadBlockCurrent, if_pos hguard]
    exact iff_of_true (failsIntact_of_unchanged w .einval) (refused_of_guard hguard)
  by_cases hidle : w.sched.current = w.sched.idle
  · rw [mcsosThreadBlockCurrent, if_neg hguard, if_pos hidle]
    exact iff_of_true (failsIntact_of_unchanged w .estate) (fun h => h.2.2.1 hidle)
  rw [mcsosThreadBlockCurrent, if_neg hguard, if_neg hidle]
  rw [not_or, Bool.not_eq_false] at hguard
  have hvalid : ∀ t, validThreadObject (w.setState w.sched.current .blocked) t =
      validThreadObject w t := fun t => validThreadObject_congr (magicOf_setState w _ _) t
  have hcases := mcsosSchedYield_cases (w := w.setState w.sched.current .blocked) hguard.1
    ((hvalid _).trans hguard.2)
  rw [sched_setState, hvalid, hvalid] at hcases
  rcases hcases with ⟨hhead, hbad, hcall⟩ | ⟨hhead, hbad, hcall⟩ | ⟨hgood, hgood', hok⟩
  · rw [hcall]
    rw [failsIntact_ecorrupt_iff, intact_setState_iff]
    constructor
    · intro hblocked h
      rcases h.2.2.2 with hin | hin
      · exact hin.1 hhead
      · exact hin.2.2 hblocked
    · intro h
      by_contra hstate
      exact h ⟨hguard.1, hguard.2, hidle, Or.inr ⟨hhead, hbad, hstate⟩⟩
  · rw [hcall]
    rw [failsIntact_ecorrupt_iff]
    apply iff_of_false
    · have hnext := nextOf_setState w w.sched.current .blocked
      apply not_intact_of_dequeued hhead
      · exact congrFun hnext w.sched.readyHead
      · rw [removeHead_next, hnext]
    · exact not_not.mpr ⟨hguard.1, hguard.2, hidle, Or.inl ⟨hhead, hbad⟩⟩
  · apply iff_of_true
    · exact fun hne => absurd hok hne
    · intro h
      rcases h.2.2.2 with hin | hin
      · exact absurd ((hgood' hin.1).symm.trans hin.2) (by decide)
      · exact absurd ((hgood hin.1).symm.trans hin.2.1) (by decide)

/-- A failed call leaves the scheduler intact unless it is a yield, or a block of the current
thread, that has written before it finds the thread that it took damaged. -/
theorem failed_call_intact_iff (trampoline : UInt64) (w : World) (c : SchedCall) :
    FailsIntact w (schedCall trampoline w c) ↔ ¬ WritesFirst w c := by
  cases c with
  | prepare thread name entry arg stackBase stackSize id =>
    apply iff_of_true _ not_false
    by_cases haccept : PrepareAccepts thread entry stackBase stackSize
    · rw [schedCall, mcsosThreadPrepare_of_accepts trampoline w name arg id haccept]
      exact fun hne => absurd rfl hne
    · obtain ⟨rc, hcall, -⟩ :=
        mcsosThreadPrepare_of_not_accepts trampoline w name arg id haccept
      rw [schedCall, hcall]
      exact failsIntact_of_unchanged w rc
  | enqueue thread => exact iff_of_true (mcsosSchedEnqueue_failsIntact w thread) not_false
  | yield => exact mcsosSchedYield_failsIntact_iff w
  | blockCurrent => exact mcsosThreadBlockCurrent_failsIntact_iff w
  | markReady thread => exact iff_of_true (mcsosThreadMarkReady_failsIntact w thread) not_false
  | tick =>
    apply iff_of_true _ not_false
    rw [schedCall, mcsosSchedTick]
    split_ifs
    · exact failsIntact_of_unchanged w .einval
    · exact fun hne => absurd rfl hne

def damagedWorld : World :=
  runningWorld.setThread 1 { runningWorld.threads 1 with magic := 0 }

theorem failed_yield_loses_thread :
    (mcsosSchedYield damagedWorld).1 = .ecorrupt ∧ damagedWorld.sched.readyHead = 1 ∧
    (mcsosSchedYield damagedWorld).2.sched.readyHead = 2 ∧
    ¬ FailsIntact damagedWorld (schedCall 0 damagedWorld .yield) ∧
    (mcsosThreadBlockCurrent damagedWorld).1 = .ecorrupt ∧
    damagedWorld.stateOf 3 = .running ∧
    (mcsosThreadBlockCurrent damagedWorld).2.stateOf 3 = .blocked ∧
    (mcsosThreadBlockCurrent damagedWorld).2.sched.current = 3 := by
  -- The failed yield has dropped thread 1 from the queue, and the failed block has also marked the
  -- running thread blocked.
  refine ⟨by decide, by decide, by decide, ?_, by decide, by decide, by decide, by decide⟩
  intro h
  exact absurd (h (by decide)).readyHead (by decide)

end Errors

section Stacks

structure StackPlaced (w w' : World) (rsp stackBase stackSize : ℕ) : Prop where
  aligned : rsp % 16 = 8
  above : stackBase ≤ rsp
  below : rsp + 8 ≤ stackBase + stackSize
  room : 4072 ≤ rsp - stackBase
  returnAddress : loadU64 w'.mem rsp = 0
  others : ∀ x, x < rsp ∨ rsp + 8 ≤ x → w'.mem x = w.mem x

/-- A thread with a stack is prepared exactly when the stack is large enough and does not
reach the end of the address space. -/
theorem prepare_places_stack (trampoline : UInt64) (w : World) (name : String)
    {thread entry stackBase stackSize : UInt64} (arg id : UInt64) (hthread : thread ≠ 0)
    (hentry : entry ≠ 0) (hbase : stackBase ≠ 0) :
    let r := mcsosThreadPrepare trampoline w thread name entry arg stackBase stackSize id
    (r.1 = .ok ↔ 4096 ≤ stackSize.toNat ∧ stackBase.toNat + stackSize.toNat < 2 ^ 64) ∧
    (r.1 = .ok → StackPlaced w r.2 (r.2.threads thread).context.rsp.toNat stackBase.toNat
      stackSize.toNat) ∧
    (r.1 ≠ .ok → r.2 = w) := by
  intro r
  by_cases haccept : PrepareAccepts thread entry stackBase stackSize
  · have hr : r = _ := mcsosThreadPrepare_of_accepts trampoline w name arg id haccept
    obtain ⟨-, -, -, hsize, hfits⟩ := haccept
    have htop := stackTop_toNat hsize hfits
    have hrsp : (r.2.threads thread).context.rsp = stackTop stackBase stackSize := by
      rw [hr]
      simp [World.setThread, preparedThread]
    have hmem : r.2.mem = storeU64 w.mem (stackTop stackBase stackSize).toNat 0 := by
      rw [hr]
      rfl
    have hok : r.1 = .ok := by rw [hr]
    refine ⟨iff_of_true hok ⟨hsize, hfits⟩, fun _ => ?_, fun hne => absurd hok hne⟩
    rw [hrsp]
    constructor
    case aligned => omega
    case above => omega
    case below => omega
    case room => omega
    case returnAddress => rw [hmem, loadU64_storeU64]
    case others =>
      intro x hx
      rw [hmem]
      exact storeU64_outside w.mem _ 0 hx
  · obtain ⟨rc, hcall, hne⟩ := mcsosThreadPrepare_of_not_accepts trampoline w name arg id haccept
    have hr : r = (rc, w) := hcall
    rw [hr]
    refine ⟨iff_of_false hne ?_, fun hok => absurd hok hne, fun _ => rfl⟩
    exact fun hfits => haccept ⟨hthread, hentry, hbase, hfits.1, hfits.2⟩

theorem prepare_places_stack_sample :
    StackPlaced queuedWorld (mcsosThreadPrepare 0x100 queuedWorld 5 "worker" 0x200 0 0xFFF1
      0x1000 7).2 0x10FE8 0xFFF1 0x1000 ∧
    (mcsosThreadPrepare 0x100 queuedWorld 5 "worker" 0x200 0 0xFFFFFFFFFFFFF000 0x1000 7).2 =
      queuedWorld := by
  have h := (@prepare_places_stack 0x100 queuedWorld "worker" 5 0x200 0xFFF1 0x1000 0 7
    (by decide) (by decide) (by decide)).2.1
  have h' := (@prepare_places_stack 0x100 queuedWorld "worker" 5 0x200 0xFFFFFFFFFFFFF000 0x1000
    0 7 (by decide) (by decide) (by decide)).2.2
  exact ⟨h (by decide), h' (by decide)⟩

end Stacks

end Mcsos.Sched
