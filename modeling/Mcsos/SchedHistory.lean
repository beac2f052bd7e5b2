import Mcsos.SchedInvariants

/-!
# The history of the ready queue

Every call is given the list of the edits it makes to the ready queue, in the order in which
the source makes them: a yield removes the next thread before it appends the old one. Over a
session the edits replay to the ready queue, so that threads leave it in the order in which
they entered it, and a thread behind `n` others is current after `n + 1` dispatches.
-/

namespace Mcsos.Sched
open BoundedLoop ByteMemory LinkedQueue WordArithmetic StepRun

def enqueueEvents (w : World) (thread : UInt64) : List (QueueEvent UInt64) :=
  if (mcsosSchedEnqueue w thread).1 = .ok then [.appended thread] else []

def pickNextEvents (w : World) : List (QueueEvent UInt64) :=
  if w.sched.initialized = 0 ∨ w.sched.readyHead = 0 then [] else [.removed w.sched.readyHead]

def requeueEvents (w : World) (old : UInt64) : List (QueueEvent UInt64) :=
  if w.stateOf old = .running ∧ old ≠ w.sched.idle then
    enqueueEvents (w.setState old .ready) old
  else []

def yieldEvents (w : World) : List (QueueEvent UInt64) :=
  if w.sched.initialized = 0 ∨ validThreadObject w w.sched.current = false then []
  else
    let old := w.sched.current
    let (next, w') := mcsosSchedPickNext w
    pickNextEvents w ++
      if validThreadObject w' next = false ∨ next = old then [] else requeueEvents w' old

def blockCurrentEvents (w : World) : List (QueueEvent UInt64) :=
  if w.sched.initialized = 0 ∨ validThreadObject w w.sched.current = false then []
  else if w.sched.current = w.sched.idle then []
  else yieldEvents (w.setState w.sched.current .blocked)

def markReadyEvents (w : World) (thread : UInt64) : List (QueueEvent UInt64) :=
  if validThreadObject w thread = false ∨ w.stateOf thread ≠ .blocked then []
  else enqueueEvents w thread

def queueEvents (w : World) : SchedCall → List (QueueEvent UInt64)
  | .prepare _ _ _ _ _ _ _ => []
  | .enqueue thread => enqueueEvents w thread
  | .yield => yieldEvents w
  | .blockCurrent => blockCurrentEvents w
  | .markReady thread => markReadyEvents w thread
  | .tick => []

def queueHistory (trampoline : UInt64) : Session → List SchedCall → List (QueueEvent UInt64)
  | _, [] => []
  | s, c :: calls =>
      queueEvents s.world c ++ queueHistory trampoline (schedStep trampoline s c).1 calls

section Edits

variable {w : World} {objects xs : List UInt64}

theorem pickNextEvents_spec (h : RunQueue w objects xs) :
    replay xs (pickNextEvents w) = some xs.tail := by
  cases xs with
  | nil =>
    rw [pickNextEvents, if_pos (Or.inr (h.queue.head_eq_null_iff.mpr rfl))]
    rfl
  | cons x xs =>
    have hhead : w.sched.readyHead = x := h.queue.chain.1
    have hnull : x ≠ 0 := h.queue.chain.2.1
    have hguard : ¬ (w.sched.initialized = 0 ∨ x = 0) := by
      simp only [h.initialized, hnull, or_self, not_false_eq_true]
    rw [pickNextEvents, hhead, if_neg hguard, replay, if_pos rfl, replay]
    rfl

theorem requeueEvents_spec (h : RunQueue w objects xs) {old : UInt64} (hold : old ∈ objects) :
    requeueEvents w old = (requeued w old).map .appended := by
  by_cases hback : w.stateOf old = .running ∧ old ≠ w.sched.idle
  · have hstate : (w.setState old .ready).stateOf old = .ready := by simp
    have hr := h.setState old .ready
    have hcall := mcsosSchedEnqueue_ok hr.initialized (hr.valid old hold)
      (Or.inr (Or.inl hstate))
    rw [requeueEvents, requeued, if_pos hback, if_pos hback, enqueueEvents, hcall, if_pos rfl]
    rfl
  · rw [requeueEvents, requeued, if_neg hback, if_neg hback]
    rfl

theorem yieldEvents_spec (h : RunQueue w objects xs) (hcur : w.sched.current ∈ objects)
    (hidle : w.sched.idle ∈ objects) (hnot : w.sched.current ∉ xs) :
    replay xs (yieldEvents w) = some (xs.tail ++ requeued w w.sched.current) := by
  obtain ⟨w₁, hpick, h₁, -, hidle₁, hstate₁⟩ := mcsosSchedPickNext_spec h
  have hnext : xs.headD w.sched.idle ∈ objects := by
    cases xs with
    | nil => exact hidle
    | cons x xs => exact h.subset x List.mem_cons_self
  have hguard : ¬ (w.sched.initialized = 0 ∨ validThreadObject w w.sched.current = false) := by
    simp [h.initialized, h.valid _ hcur]
  have hback : requeued w₁ w.sched.current = requeued w w.sched.current := by
    rw [requeued, requeued, hstate₁, hidle₁]
  simp only [yieldEvents, if_neg hguard, hpick]
  rw [replay_append, pickNextEvents_spec h, Option.bind_some]
  by_cases hsame : xs.headD w.sched.idle = w.sched.current
  · have hcase : w.sched.current = w.sched.idle := by
      cases xs with
      | nil => exact hsame.symm
      | cons x xs => exact absurd (hsame ▸ List.mem_cons_self) hnot
    have hnone : requeued w w.sched.current = [] := by
      rw [requeued, if_neg (fun hc => hc.2 hcase)]
    rw [if_pos (Or.inr hsame), hnone, List.append_nil]
    rfl
  · have hvalid := h₁.valid _ hnext
    rw [if_neg (by simp only [hvalid, hsame, or_self, Bool.true_eq_false, not_false_eq_true]),
      requeueEvents_spec h₁ hcur, hback, replay_map_appended]

end Edits

section Sessions

variable {s : Session} {a : RoundRobin UInt64} {t : UInt64}

theorem Refines.wake_events (h : Refines s a) (ht : t ∈ a.blocked ++ a.fresh) :
    replay a.ready (enqueueEvents s.world t) = some (a.wake t).ready := by
  rw [enqueueEvents, (h.wake ht).1, if_pos rfl, a.wake_ready ht]
  rfl

theorem Refines.enqueue_events (h : Refines s a) (hadm : Admissible s (.enqueue t)) :
    replay a.ready (enqueueEvents s.world t) = some (a.wake t).ready := by
  obtain ⟨hknown, hstate⟩ := hadm
  rcases hknown with hobj | hinvalid
  · have hwait := h.waiting_of_state ((h.mem_objects t).mp hobj)
    rcases hstate with hnew | hblocked
    · exact h.wake_events (List.mem_append_right _ (hwait.2 hnew))
    · exact h.wake_events (List.mem_append_left _ (hwait.1 hblocked))
  · have hout := h.not_waiting_of_invalid hinvalid
    have ht : t ∉ a.blocked ++ a.fresh := fun hmem => hout (a.mem_tasks_of_waiting hmem)
    have hcall : mcsosSchedEnqueue s.world t = (.einval, s.world) := by
      rw [mcsosSchedEnqueue, if_pos (Or.inr hinvalid)]
    simp only [enqueueEvents, hcall, RoundRobin.wake, ht, ↓reduceDIte]
    rfl

theorem Refines.markReady_events (h : Refines s a) (hadm : Admissible s (.markReady t)) :
    replay a.ready (markReadyEvents s.world t) =
      some (roundRobinStep a (.markReady t)).ready := by
  by_cases hblocked : t ∈ a.blocked
  · have hwait := List.mem_append_left a.fresh hblocked
    have hvalid := h.runQueue.valid t (a.mem_tasks_of_waiting hwait)
    have hguard : ¬ (validThreadObject s.world t = false ∨ s.world.stateOf t ≠ .blocked) := by
      simp [hvalid, h.states.blocked t hblocked]
    rw [markReadyEvents, if_neg hguard, roundRobinStep, if_pos hblocked]
    exact h.wake_events hwait
  · have hguard : validThreadObject s.world t = false ∨ s.world.stateOf t ≠ .blocked := by
      rcases hadm with hobj | hinvalid
      · have hmem := (h.mem_objects t).mp hobj
        exact Or.inr (fun hstate => hblocked ((h.waiting_of_state hmem).1 hstate))
      · exact Or.inl hinvalid
    rw [markReadyEvents, if_pos hguard, roundRobinStep, if_neg hblocked]
    rfl

theorem Refines.yield_events (h : Refines s a) :
    replay a.ready (yieldEvents s.world) = some a.yield.ready := by
  rw [yieldEvents_spec h.runQueue h.current_mem h.idle_mem h.current_not_ready,
    h.requeued_current]
  rfl

theorem Refines.blockCurrent_events (h : Refines s a) :
    replay a.ready (blockCurrentEvents s.world) = some a.block.ready := by
  rw [blockCurrentEvents, if_neg h.guard]
  by_cases hidle : a.current = a.idle
  · rw [if_pos (h.current_eq_idle_iff.mpr hidle)]
    simp only [RoundRobin.block, hidle, ↓reduceDIte]
    rfl
  · have hne : s.world.sched.current ≠ s.world.sched.idle := fun heq =>
      hidle (h.current_eq_idle_iff.mp heq)
    have hback := requeued_blocked s.world s.world.sched.current
    have hyield := yieldEvents_spec (h.runQueue.setState s.world.sched.current .blocked)
      h.current_mem h.idle_mem h.current_not_ready
    rw [if_neg hne, hyield, sched_setState, hback, List.append_nil, a.block_ready hidle]

theorem Refines.replay_step (h : Refines s a) {c : SchedCall} (hadm : Admissible s c) :
    replay a.ready (queueEvents s.world c) = some (roundRobinStep a c).ready := by
  cases c with
  | prepare thread name entry arg stackBase stackSize id =>
    rw [roundRobinStep, apply_ite RoundRobin.ready, RoundRobin.adopt_ready, ite_self]
    rfl
  | enqueue thread => exact h.enqueue_events hadm
  | yield => exact h.yield_events
  | blockCurrent => exact h.blockCurrent_events
  | markReady thread => exact h.markReady_events hadm
  | tick => rfl

theorem Refines.replay_run (trampoline : UInt64) (h : Refines s a) {calls : List SchedCall}
    (hadm : AlongTotal (schedStep trampoline) Admissible s calls) :
    replay a.ready (queueHistory trampoline s calls) =
      some (calls.foldl roundRobinStep a).ready := by
  induction calls generalizing s a with
  | nil => rfl
  | cons c calls ih =>
    rw [queueHistory, replay_append, h.replay_step hadm.1, Option.bind_some]
    exact ih (schedStep_refines trampoline s a c h hadm.1) hadm.2

end Sessions

def dispatches : SchedCall → SchedResult → Bool
  | .yield, .ok => true
  | .blockCurrent, .ok => true
  | _, _ => false

def dispatchCount (trampoline : UInt64) (s : Session) (calls : List SchedCall) : ℕ :=
  (calls.zip (runTotal (schedStep trampoline) s calls).2).countP (fun p => dispatches p.1 p.2)

/-- The thread waits for `n` later dispatches and becomes current at the next one. -/
def CurrentAfter (trampoline : UInt64) (s : Session) (t : UInt64) (n : ℕ) : Prop :=
  ∀ later, AlongTotal (schedStep trampoline) Admissible s later →
    (dispatchCount trampoline s later ≤ n →
      (runTotal (schedStep trampoline) s later).1.world.sched.current ≠ t) ∧
    (dispatchCount trampoline s later = n → ∀ c,
      let r := schedStep trampoline (runTotal (schedStep trampoline) s later).1 c
      dispatches c r.2 = true → r.1.world.sched.current = t)

theorem dispatchCount_cons (trampoline : UInt64) (s : Session) (c : SchedCall)
    (calls : List SchedCall) :
    dispatchCount trampoline s (c :: calls) =
      dispatchCount trampoline (schedStep trampoline s c).1 calls +
        if dispatches c (schedStep trampoline s c).2 = true then 1 else 0 :=
  List.countP_cons

section Turns

variable {s : Session} {a : RoundRobin UInt64} {t : UInt64}

theorem Refines.yield_ok (h : Refines s a) : (mcsosSchedYield s.world).1 = .ok := by
  obtain ⟨w', hcall, -⟩ :=
    mcsosSchedYield_spec h.runQueue h.current_mem h.idle_mem h.current_not_ready
  rw [hcall]

theorem Refines.block_ok_iff (h : Refines s a) :
    (mcsosThreadBlockCurrent s.world).1 = .ok ↔ a.current ≠ a.idle := by
  have hidle := h.current_eq_idle_iff
  rw [mcsosThreadBlockCurrent, if_neg h.guard]
  by_cases hcur : a.current = a.idle
  · rw [if_pos (hidle.mpr hcur)]
    exact ⟨fun hr => SchedResult.noConfusion hr, fun hne => absurd hcur hne⟩
  · rw [if_neg (fun heq => hcur (hidle.mp heq))]
    obtain ⟨w', hcall, -⟩ :=
      mcsosSchedYield_spec (h.runQueue.setState s.world.sched.current .blocked) h.current_mem
        h.idle_mem h.current_not_ready
    rw [hcall]
    exact ⟨fun _ => hcur, fun _ => rfl⟩

theorem dispatches_iff (c : SchedCall) (r : SchedResult) :
    dispatches c r = true ↔ (c = .yield ∨ c = .blockCurrent) ∧ r = .ok := by
  cases c <;> cases r <;> simp [dispatches]

theorem Refines.dispatch (h : Refines s a) (trampoline : UInt64) {c : SchedCall}
    (hc : dispatches c (schedStep trampoline s c).2 = true) :
    Admissible s c ∧ (roundRobinStep a c).current = a.ready.headD a.idle ∧
      a.ready.tail <+: (roundRobinStep a c).ready := by
  rw [dispatches_iff] at hc
  obtain ⟨rfl | rfl, hok⟩ := hc
  · exact ⟨trivial, rfl, List.prefix_append _ _⟩
  · have hidle := h.block_ok_iff.mp hok
    rw [roundRobinStep, a.block_ready hidle]
    exact ⟨trivial, a.block_current hidle, List.prefix_refl _⟩

theorem wake_ready_prefix (a : RoundRobin UInt64) (t : UInt64) :
    a.ready <+: (a.wake t).ready := by
  by_cases ht : t ∈ a.blocked ++ a.fresh
  · rw [a.wake_ready ht]
    exact List.prefix_append _ _
  · simp only [RoundRobin.wake, ht, ↓reduceDIte, List.prefix_refl]

theorem Refines.no_dispatch (h : Refines s a) (trampoline : UInt64) {c : SchedCall}
    (hc : ¬ dispatches c (schedStep trampoline s c).2 = true) :
    a.ready <+: (roundRobinStep a c).ready := by
  rw [dispatches_iff] at hc
  cases c with
  | prepare thread name entry arg stackBase stackSize id =>
    rw [roundRobinStep, apply_ite RoundRobin.ready, RoundRobin.adopt_ready, ite_self]
  | enqueue thread => exact wake_ready_prefix a thread
  | yield => exact absurd ⟨Or.inl rfl, h.yield_ok⟩ hc
  | blockCurrent =>
    by_cases hidle : a.current = a.idle
    · rw [roundRobinStep, RoundRobin.block, dif_pos hidle]
    · exact absurd ⟨Or.inr rfl, h.block_ok_iff.mpr hidle⟩ hc
  | markReady thread =>
    rw [roundRobinStep]
    by_cases hblocked : thread ∈ a.blocked
    · rw [if_pos hblocked]
      exact wake_ready_prefix a thread
    · rw [if_neg hblocked]
  | tick => exact List.prefix_refl _

theorem Refines.ahead_run (h : Refines s a) (trampoline : UInt64) {ahead : List UInt64}
    (hahead : ahead ++ [t] <+: a.ready) {later : List SchedCall}
    (hadm : AlongTotal (schedStep trampoline) Admissible s later)
    (hcount : dispatchCount trampoline s later ≤ ahead.length) :
    ∃ b, Refines (runTotal (schedStep trampoline) s later).1 b ∧
      ahead.drop (dispatchCount trampoline s later) ++ [t] <+: b.ready := by
  induction later generalizing s a ahead with
  | nil => exact ⟨a, h, hahead⟩
  | cons c later ih =>
    have hnext := schedStep_refines trampoline s a c h hadm.1
    rw [dispatchCount_cons] at hcount ⊢
    by_cases hc : dispatches c (schedStep trampoline s c).2 = true
    · rw [if_pos hc] at hcount ⊢
      cases ahead with
      | nil => exact absurd hcount (Nat.not_succ_le_zero _)
      | cons x ahead =>
        have htail : ahead ++ [t] <+: a.ready.tail := by
          obtain ⟨behind, hready⟩ := hahead
          rw [← hready]
          exact List.prefix_append _ _
        exact ih hnext (htail.trans (h.dispatch trampoline hc).2.2) hadm.2
          (Nat.le_of_succ_le_succ hcount)
    · rw [if_neg hc] at hcount ⊢
      exact ih hnext (hahead.trans (h.no_dispatch trampoline hc)) hadm.2 hcount

theorem Refines.currentAfter (h : Refines s a) (trampoline : UInt64) {ahead : List UInt64}
    (hahead : ahead ++ [t] <+: a.ready) : CurrentAfter trampoline s t ahead.length := by
  intro later hadm
  constructor
  · intro hcount heq
    obtain ⟨b, hb, hrest⟩ := h.ahead_run trampoline hahead hadm hcount
    have ht : t ∈ b.ready := hrest.subset (by simp)
    exact hb.current_not_ready (heq ▸ ht)
  · intro hcount c r hc
    obtain ⟨b, hb, hrest⟩ := h.ahead_run trampoline hahead hadm hcount.le
    obtain ⟨hadm', hcur, -⟩ := hb.dispatch trampoline hc
    rw [hcount, List.drop_length, List.nil_append] at hrest
    obtain ⟨behind, hready⟩ := hrest
    rw [(schedStep_refines trampoline _ b c hb hadm').current, hcur, ← hready]
    rfl

end Turns

section Appending

variable {w : World} {t : UInt64}

theorem enqueueEvents_last {thread : UInt64} (ht : .appended t ∈ enqueueEvents w thread) :
    enqueueEvents w thread = [.appended t] := by
  rw [enqueueEvents] at ht ⊢
  by_cases hok : (mcsosSchedEnqueue w thread).1 = .ok
  · rw [if_pos hok, List.mem_singleton] at ht
    rw [if_pos hok, ht]
  · rw [if_neg hok] at ht
    exact absurd ht List.not_mem_nil

theorem requeueEvents_last {old : UInt64} (ht : .appended t ∈ requeueEvents w old) :
    requeueEvents w old = [.appended t] := by
  rw [requeueEvents] at ht ⊢
  by_cases hback : w.stateOf old = .running ∧ old ≠ w.sched.idle
  · rw [if_pos hback] at ht ⊢
    exact enqueueEvents_last ht
  · rw [if_neg hback] at ht
    exact absurd ht List.not_mem_nil

theorem appended_notMem_pickNextEvents : .appended t ∉ pickNextEvents w := by
  rw [pickNextEvents]
  by_cases hguard : w.sched.initialized = 0 ∨ w.sched.readyHead = 0
  · simp [hguard]
  · simp [hguard]

theorem yieldEvents_last (ht : .appended t ∈ yieldEvents w) :
    ∃ es, yieldEvents w = es ++ [.appended t] := by
  by_cases hguard : w.sched.initialized = 0 ∨ validThreadObject w w.sched.current = false
  · rw [yieldEvents, if_pos hguard] at ht
    exact absurd ht List.not_mem_nil
  · obtain ⟨next, w', hpick⟩ : ∃ next w', mcsosSchedPickNext w = (next, w') := ⟨_, _, rfl⟩
    simp only [yieldEvents, if_neg hguard, hpick] at ht ⊢
    have hback := (List.mem_append.mp ht).resolve_left appended_notMem_pickNextEvents
    by_cases hstay : validThreadObject w' next = false ∨ next = w.sched.current
    · rw [if_pos hstay] at hback
      exact absurd hback List.not_mem_nil
    · rw [if_neg hstay] at hback ⊢
      exact ⟨pickNextEvents w, by rw [requeueEvents_last hback]⟩

theorem queueEvents_last {c : SchedCall} (ht : .appended t ∈ queueEvents w c) :
    ∃ es, queueEvents w c = es ++ [.appended t] := by
  cases c with
  | prepare thread name entry arg stackBase stackSize id => exact absurd ht List.not_mem_nil
  | enqueue thread => exact ⟨[], enqueueEvents_last ht⟩
  | yield => exact yieldEvents_last ht
  | blockCurrent =>
    rw [queueEvents, blockCurrentEvents] at ht ⊢
    split_ifs at ht ⊢
    · exact absurd ht List.not_mem_nil
    · exact absurd ht List.not_mem_nil
    · exact yieldEvents_last ht
  | markReady thread =>
    rw [queueEvents, markReadyEvents] at ht ⊢
    split_ifs at ht ⊢
    · exact absurd ht List.not_mem_nil
    · exact ⟨[], enqueueEvents_last ht⟩
  | tick => exact absurd ht List.not_mem_nil

end Appending

theorem Refines.appended_ready {s : Session} {a : RoundRobin UInt64} (h : Refines s a)
    {c : SchedCall} (hadm : Admissible s c) {t : UInt64}
    (ht : .appended t ∈ queueEvents s.world c) :
    ∃ ahead, (roundRobinStep a c).ready = ahead ++ [t] := by
  obtain ⟨es, hes⟩ := queueEvents_last ht
  have hreplay := h.replay_step hadm
  rw [hes, replay_append] at hreplay
  obtain ⟨ahead, -, hlast⟩ := Option.bind_eq_some_iff.mp hreplay
  exact ⟨ahead, (Option.some.inj hlast).symm⟩

/-- In every session of admissible calls, threads are removed from the ready queue in the
order in which they were appended to it, the queue is what has not been removed, and a
thread that a call appends behind `n` others becomes current at dispatch `n + 1`. -/
theorem ready_queue_fifo (trampoline : UInt64) (w : World) {bootThread : UInt64}
    (hinit : (mcsosSchedulerInit w bootThread).1 = .ok) {calls : List SchedCall}
    (hadm : AlongTotal (schedStep trampoline) Admissible (bootSession w bootThread) calls) :
    let s := (runTotal (schedStep trampoline) (bootSession w bootThread) calls).1
    let history := queueHistory trampoline (bootSession w bootThread) calls
    (∃ queue, Chain s.world.nextOf 0 s.world.sched.readyHead queue ∧
      appendedIn history = removedIn history ++ queue) ∧
    (∀ es, es <+: history → removedIn es <+: appendedIn es) ∧
    ∀ c t, Admissible s c → .appended t ∈ queueEvents s.world c →
      let s' := (schedStep trampoline s c).1
      ∃ ahead, Chain s'.world.nextOf 0 s'.world.sched.readyHead (ahead ++ [t]) ∧
        CurrentAfter trampoline s' t ahead.length := by
  intro s history
  have hboot := refines_boot w (boot_ne_null hinit)
  have h : Refines s _ := run_refines_roundRobin trampoline w (boot_ne_null hinit) hadm
  have hreplay : replay [] history = some _ := hboot.replay_run trampoline hadm
  refine ⟨⟨_, h.runQueue.queue.chain, replay_fifo hreplay⟩,
    fun es hes => removedIn_prefix hreplay hes, ?_⟩
  intro c t hc ht
  obtain ⟨ahead, hready⟩ := h.appended_ready hc ht
  have hnext := schedStep_refines trampoline s _ c h hc
  have hchain := hnext.runQueue.queue.chain
  rw [hready] at hchain
  exact ⟨ahead, hchain, hnext.currentAfter trampoline (hready ▸ List.prefix_refl _)⟩

theorem ready_queue_fifo_sample :
    let calls : List SchedCall := [.prepare 0x2000 "a" 0x200 0 0x8000 0x1000 1,
      .prepare 0x3000 "b" 0x300 0 0xA000 0x1000 2, .enqueue 0x2000, .enqueue 0x3000, .yield]
    let s := (runTotal (schedStep 0x100) (bootSession blankWorld 0x1000) calls).1
    let s' := (schedStep 0x100 s .yield).1
    ∃ ahead, Chain s'.world.nextOf 0 s'.world.sched.readyHead (ahead ++ [0x2000]) ∧
      CurrentAfter 0x100 s' 0x2000 ahead.length :=
  (ready_queue_fifo 0x100 blankWorld (by decide) (by decide +kernel)).2.2 .yield 0x2000 trivial
    (by decide +kernel)

end Mcsos.Sched
