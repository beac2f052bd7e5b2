import Mcsos.SchedRefinement

/-!
# What holds in every session

The ready queue of every session is a well-formed list of ready threads, no thread is lost
and the validator accepts. The idle thread keeps the state `running` when another thread is
dispatched, so that exactly one thread is running as long as no yield leaves the idle thread.
-/

namespace Mcsos.Sched
open BoundedLoop ByteMemory LinkedQueue WordArithmetic StepRun

def ExactlyOne (p q r : Prop) : Prop :=
  (p ∧ ¬ q ∧ ¬ r) ∨ (¬ p ∧ q ∧ ¬ r) ∨ (¬ p ∧ ¬ q ∧ r)

structure QueueInvariant (s : Session) (queue : List UInt64) : Prop where
  chain : Chain s.world.nextOf 0 s.world.sched.readyHead queue
  distinct : queue.Nodup
  ready : ∀ t ∈ queue, validThreadObject s.world t = true ∧ s.world.stateOf t = .ready
  tail : s.world.sched.readyTail = queue.getLastD 0
  count : s.world.sched.runnableCount.toNat = queue.length
  current : s.world.sched.current ∉ queue
  idle : s.world.sched.idle ∉ queue
  unlinked : ∀ t ∈ s.objects, t ∉ queue → s.world.nextOf t = 0
  place : ∀ t ∈ s.enqueued, t ≠ s.world.sched.idle →
    ExactlyOne (t ∈ queue) (t = s.world.sched.current) (s.world.stateOf t = .blocked)

theorem Refines.place {s : Session} {a : RoundRobin UInt64} (h : Refines s a) {t : UInt64}
    (ht : t ∈ s.enqueued) (hidle : t ≠ a.idle) :
    ExactlyOne (t ∈ a.ready) (t = a.current) (s.world.stateOf t = .blocked) := by
  obtain ⟨hroster, hfresh⟩ := h.enqueued t ht
  have hcur : t ∈ a.ready → t ≠ a.current := fun hin heq => a.current_not_mem (by
    rw [← heq]
    simp [hin])
  have htasks : t ∈ a.tasks := List.mem_cons_of_mem a.idle hroster
  rcases (a.mem_tasks t).mp htasks with heq | heq | hin | hin | hin
  · exact absurd heq hidle
  · refine Or.inr (Or.inl ⟨fun hin => hcur hin heq, heq, ?_⟩)
    rw [heq, h.states.current]
    decide
  · refine Or.inl ⟨hin, hcur hin, ?_⟩
    rw [h.states.ready t hin]
    decide
  · refine Or.inr (Or.inr ⟨?_, ?_, h.states.blocked t hin⟩)
    · intro hready
      have hstate := h.states.ready t hready
      rw [h.states.blocked t hin] at hstate
      exact ThreadState.noConfusion hstate
    · intro heq
      have hstate := h.states.blocked t hin
      rw [heq, h.states.current] at hstate
      exact ThreadState.noConfusion hstate
  · exact absurd hin hfresh

theorem Refines.queueInvariant {s : Session} {a : RoundRobin UInt64} (h : Refines s a) :
    QueueInvariant s a.ready where
  chain := h.runQueue.queue.chain
  distinct := h.runQueue.queue.nodup
  ready := fun t ht => ⟨h.runQueue.valid t (h.runQueue.subset t ht), h.states.ready t ht⟩
  tail := h.runQueue.queue.tail_eq
  count := h.runQueue.count
  current := h.current_not_ready
  idle := by
    rw [h.idle]
    intro hin
    exact a.idle_not_mem (by simp [hin])
  unlinked := fun t ht => h.runQueue.unlinked t ((h.mem_objects t).mp ht)
  place := fun t ht hidle => by
    rw [h.current]
    exact h.place ht (h.idle ▸ hidle)

theorem boot_ne_null {w : World} {bootThread : UInt64}
    (h : (mcsosSchedulerInit w bootThread).1 = .ok) : bootThread ≠ 0 := by
  intro hnull
  simp [mcsosSchedulerInit, hnull] at h

/-- In every session of admissible calls the ready queue is well formed, every enqueued
thread is queued, current or blocked, and `mcsos_sched_validate` accepts. -/
theorem run_queue_invariant (trampoline : UInt64) (w : World) {bootThread : UInt64}
    (hinit : (mcsosSchedulerInit w bootThread).1 = .ok) {calls : List SchedCall}
    (hadm : AlongTotal (schedStep trampoline) Admissible (bootSession w bootThread) calls) :
    (∃ queue, QueueInvariant
      (runTotal (schedStep trampoline) (bootSession w bootThread) calls).1 queue) ∧
    mcsosSchedValidate
      (runTotal (schedStep trampoline) (bootSession w bootThread) calls).1.world = some .ok := by
  have h := run_refines_roundRobin trampoline w (boot_ne_null hinit) hadm
  refine ⟨⟨_, h.queueInvariant⟩, ?_⟩
  exact mcsosSchedValidate_of_runQueue h.runQueue h.states.ready h.current_mem
    h.current_not_ready

def blankWorld : World :=
  { sched := { bootScheduler 0 with initialized := 0 }
    threads := fun _ => { bootThreadObject with magic := 0, name := "", state := .new }
    mem := fun _ => 0 }

theorem run_queue_invariant_sample :
    (∃ queue, QueueInvariant (runTotal (schedStep 0x100) (bootSession blankWorld 0x1000)
      [.prepare 0x2000 "a" 0x200 0 0x8000 0x1000 1, .enqueue 0x2000, .yield, .blockCurrent,
        .markReady 0x2000, .tick]).1 queue) ∧
    mcsosSchedValidate (runTotal (schedStep 0x100) (bootSession blankWorld 0x1000)
      [.prepare 0x2000 "a" 0x200 0 0x8000 0x1000 1, .enqueue 0x2000, .yield, .blockCurrent,
        .markReady 0x2000, .tick]).1.world = some .ok :=
  run_queue_invariant 0x100 blankWorld (by decide) (by decide +kernel)

def OneRunning (s : Session) : Prop :=
  s.world.sched.current ∈ s.objects ∧
    ∀ t ∈ s.objects, s.world.stateOf t = .running ↔ t = s.world.sched.current

def LeavesIdle (s : Session) : SchedCall → Prop
  | .yield => s.world.sched.current = s.world.sched.idle ∧ s.world.sched.readyHead ≠ 0
  | _ => False

instance LeavesIdle.decidable (s : Session) : ∀ c, Decidable (LeavesIdle s c)
  | .yield => inferInstanceAs (Decidable (_ ∧ _))
  | .prepare _ _ _ _ _ _ _ => isFalse not_false
  | .enqueue _ => isFalse not_false
  | .blockCurrent => isFalse not_false
  | .markReady _ => isFalse not_false
  | .tick => isFalse not_false

theorem Refines.oneRunning_iff {s : Session} {a : RoundRobin UInt64} (h : Refines s a) :
    OneRunning s ↔ a.current = a.idle := by
  constructor
  · intro hone
    have hidle := (hone.2 a.idle ((h.mem_objects _).mpr a.idle_mem_tasks)).mp h.states.idle
    rw [hidle, h.current]
  · intro heq
    refine ⟨(h.mem_objects _).mpr h.current_mem, ?_⟩
    intro t ht
    rw [h.current]
    constructor
    · intro hrun
      rcases (a.mem_tasks t).mp ((h.mem_objects t).mp ht) with hid | hcur | hin | hin | hin
      · rw [hid, heq]
      · exact hcur
      · simp [h.states.ready t hin] at hrun
      · simp [h.states.blocked t hin] at hrun
      · simp [h.states.fresh t hin] at hrun
    · intro hcur
      rw [hcur]
      exact h.states.current

theorem stays_idle_iff {s : Session} {a : RoundRobin UInt64} (h : Refines s a)
    (hidle : a.current = a.idle) (c : SchedCall) :
    (roundRobinStep a c).current = (roundRobinStep a c).idle ↔ ¬ LeavesIdle s c := by
  have hstay : ∀ b : RoundRobin UInt64, b.current = a.current ∧ b.idle = a.idle →
      b.current = b.idle := by
    intro b hb
    rw [hb.1, hb.2, hidle]
  cases c with
  | prepare thread name entry arg stackBase stackSize id =>
    simp only [LeavesIdle, not_false_eq_true, iff_true, roundRobinStep]
    by_cases haccept : PrepareAccepts thread entry stackBase stackSize
    · rw [if_pos haccept]
      exact hstay _ ⟨a.adopt_current thread, a.adopt_idle thread⟩
    · rw [if_neg haccept, hidle]
  | enqueue thread =>
    simp only [LeavesIdle, not_false_eq_true, iff_true, roundRobinStep]
    exact hstay _ ⟨a.wake_current thread, a.wake_idle thread⟩
  | yield =>
    have hcur := h.current_eq_idle_iff.mpr hidle
    simp only [LeavesIdle, hcur, true_and, not_not, h.runQueue.queue.head_eq_null_iff]
    show a.ready.headD a.idle = a.idle ↔ a.ready = []
    cases hready : a.ready with
    | nil => simp
    | cons x xs => simp [a.head_ne_idle hready]
  | blockCurrent =>
    simp only [LeavesIdle, not_false_eq_true, roundRobinStep, RoundRobin.block, hidle,
      ↓reduceDIte]
  | markReady thread =>
    simp only [LeavesIdle, not_false_eq_true, iff_true, roundRobinStep]
    by_cases hin : thread ∈ a.blocked
    · rw [if_pos hin]
      exact hstay _ ⟨a.wake_current thread, a.wake_idle thread⟩
    · rw [if_neg hin, hidle]
  | tick =>
    simp only [LeavesIdle, not_false_eq_true, iff_true, roundRobinStep]
    exact hidle

/-- In a session of admissible calls, exactly one thread is running in every state reached
if and only if no yield of the idle thread dispatches another thread. -/
theorem one_running_iff (trampoline : UInt64) (w : World) {bootThread : UInt64}
    (hinit : (mcsosSchedulerInit w bootThread).1 = .ok) {calls : List SchedCall}
    (hadm : AlongTotal (schedStep trampoline) Admissible (bootSession w bootThread) calls) :
    Always (schedStep trampoline) OneRunning (bootSession w bootThread) calls ↔
      AlongTotal (schedStep trampoline) (fun s c => ¬ LeavesIdle s c)
        (bootSession w bootThread) calls := by
  have hboot := refines_boot w (boot_ne_null hinit)
  refine always_iff_along (fun s => ∃ a, Refines s a) OneRunning Admissible _ ?_ ?_
    ⟨_, hboot⟩ (hboot.oneRunning_iff.mpr rfl) hadm
  · intro s c hs hc
    obtain ⟨a, h⟩ := hs
    exact ⟨_, schedStep_refines trampoline s a c h hc⟩
  · intro s c hs hone hc
    obtain ⟨a, h⟩ := hs
    rw [(schedStep_refines trampoline s a c h hc).oneRunning_iff]
    exact stays_idle_iff h (h.oneRunning_iff.mp hone) c

theorem one_running_sample :
    Always (schedStep 0x100) OneRunning (bootSession blankWorld 0x1000)
      [.prepare 0x2000 "a" 0x200 0 0x8000 0x1000 1, .yield, .enqueue 0x2000, .tick] :=
  (one_running_iff 0x100 blankWorld (by decide) (by decide +kernel)).mpr (by decide +kernel)

theorem two_running_after_dispatch :
    AlongTotal (schedStep 0x100) Admissible (bootSession blankWorld 0x1000)
      [.prepare 0x2000 "a" 0x200 0 0x8000 0x1000 1, .enqueue 0x2000, .yield] ∧
    ¬ OneRunning (runTotal (schedStep 0x100) (bootSession blankWorld 0x1000)
      [.prepare 0x2000 "a" 0x200 0 0x8000 0x1000 1, .enqueue 0x2000, .yield]).1 := by
  refine ⟨by decide +kernel, ?_⟩
  intro h
  have hboot := (h.2 0x1000 (by decide +kernel)).mp (by decide +kernel)
  exact absurd hboot (by decide +kernel)

end Mcsos.Sched
