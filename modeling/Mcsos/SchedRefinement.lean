import Mcsos.RoundRobin
import Mcsos.SchedRunQueue
import Mcsos.StepRun

/-!
# The scheduler refines round robin

A session is a run of scheduler calls together with its history: the threads that were
prepared and the threads that were ever enqueued. In a session whose calls are admissible
the world represents the abstract round robin, call by call.
-/

namespace Mcsos.Sched
open BoundedLoop ByteMemory LinkedQueue WordArithmetic StepRun

inductive SchedCall where
  | prepare (thread : UInt64) (name : String) (entry arg stackBase stackSize id : UInt64)
  | enqueue (thread : UInt64)
  | yield
  | blockCurrent
  | markReady (thread : UInt64)
  | tick

structure Session where
  world : World
  prepared : List UInt64
  enqueued : List UInt64

def notePrepared (s : Session) (thread : UInt64) (r : SchedResult × World) : Session :=
  { s with world := r.2, prepared := if r.1 = .ok then thread :: s.prepared else s.prepared }

def noteEnqueued (s : Session) (thread : UInt64) (r : SchedResult × World) : Session :=
  { s with world := r.2, enqueued := if r.1 = .ok then thread :: s.enqueued else s.enqueued }

def schedCall (trampoline : UInt64) (w : World) : SchedCall → SchedResult × World
  | .prepare thread name entry arg stackBase stackSize id =>
      mcsosThreadPrepare trampoline w thread name entry arg stackBase stackSize id
  | .enqueue thread => mcsosSchedEnqueue w thread
  | .yield => mcsosSchedYield w
  | .blockCurrent => mcsosThreadBlockCurrent w
  | .markReady thread => mcsosThreadMarkReady w thread
  | .tick => mcsosSchedTick w

def schedStep (trampoline : UInt64) (s : Session) (c : SchedCall) : Session × SchedResult :=
  let r := schedCall trampoline s.world c
  match c with
  | .prepare thread _ _ _ _ _ _ => (notePrepared s thread r, r.1)
  | .enqueue thread => (noteEnqueued s thread r, r.1)
  | .markReady thread => (noteEnqueued s thread r, r.1)
  | _ => ({ s with world := r.2 }, r.1)

def bootSession (w : World) (bootThread : UInt64) : Session :=
  ⟨(mcsosSchedulerInit w bootThread).2, [], []⟩

def Session.objects (s : Session) : List UInt64 := s.world.sched.idle :: s.prepared

def Session.Known (s : Session) (thread : UInt64) : Prop :=
  thread ∈ s.objects ∨ validThreadObject s.world thread = false

/-- Threads are prepared once, and only new or blocked threads are enqueued. -/
def Admissible (s : Session) : SchedCall → Prop
  | .prepare thread _ _ _ _ _ _ => thread ∉ s.objects
  | .enqueue thread => s.Known thread ∧
      (s.world.stateOf thread = .new ∨ s.world.stateOf thread = .blocked)
  | .markReady thread => s.Known thread
  | _ => True

instance (s : Session) (thread : UInt64) : Decidable (s.Known thread) :=
  inferInstanceAs (Decidable (_ ∨ _))

instance Admissible.decidable (s : Session) : ∀ c, Decidable (Admissible s c)
  | .prepare _ _ _ _ _ _ _ => inferInstanceAs (Decidable (_ ∉ _))
  | .enqueue _ => inferInstanceAs (Decidable (_ ∧ _))
  | .markReady thread => inferInstanceAs (Decidable (s.Known thread))
  | .yield => isTrue trivial
  | .blockCurrent => isTrue trivial
  | .tick => isTrue trivial

def PrepareAccepts (thread entry stackBase stackSize : UInt64) : Prop :=
  thread ≠ 0 ∧ entry ≠ 0 ∧ stackBase ≠ 0 ∧ 4096 ≤ stackSize.toNat ∧
    stackBase.toNat + stackSize.toNat < 2 ^ 64

instance (thread entry stackBase stackSize : UInt64) :
    Decidable (PrepareAccepts thread entry stackBase stackSize) :=
  inferInstanceAs (Decidable (_ ∧ _))

def roundRobinStep (a : RoundRobin UInt64) : SchedCall → RoundRobin UInt64
  | .prepare thread _ entry _ stackBase stackSize _ =>
      if PrepareAccepts thread entry stackBase stackSize then a.adopt thread else a
  | .enqueue thread => a.wake thread
  | .yield => a.yield
  | .blockCurrent => a.block
  | .markReady thread => if thread ∈ a.blocked then a.wake thread else a
  | .tick => a

/-- The state field of every task is its place in the round robin. The idle thread keeps
the state it was given at boot, whether or not it is current. -/
structure States (w : World) (a : RoundRobin UInt64) : Prop where
  idle : w.stateOf a.idle = .running
  current : w.stateOf a.current = .running
  ready : ∀ t ∈ a.ready, w.stateOf t = .ready
  blocked : ∀ t ∈ a.blocked, w.stateOf t = .blocked
  fresh : ∀ t ∈ a.fresh, w.stateOf t = .new

structure Refines (s : Session) (a : RoundRobin UInt64) : Prop where
  runQueue : RunQueue s.world a.tasks a.ready
  current : s.world.sched.current = a.current
  idle : s.world.sched.idle = a.idle
  states : States s.world a
  prepared : a.roster.Perm s.prepared
  enqueued : ∀ t ∈ s.enqueued, t ∈ a.roster ∧ t ∉ a.fresh

theorem Refines.mem_objects {s : Session} {a : RoundRobin UInt64} (h : Refines s a)
    (t : UInt64) : t ∈ s.objects ↔ t ∈ a.tasks := by
  simp only [Session.objects, RoundRobin.tasks, List.mem_cons, h.idle, h.prepared.mem_iff]

theorem refines_boot (w : World) {bootThread : UInt64} (hboot : bootThread ≠ 0) :
    Refines (bootSession w bootThread) (RoundRobin.start bootThread) := by
  have hworld : (bootSession w bootThread).world =
      (w.setThread bootThread bootThreadObject).setSched (bootScheduler bootThread) := by
    simp only [bootSession, mcsosSchedulerInit, hboot, if_false]
  have htasks : (RoundRobin.start bootThread).tasks = [bootThread] := by
    simp [RoundRobin.tasks, RoundRobin.roster, RoundRobin.active, RoundRobin.start]
  have hstate : (bootSession w bootThread).world.stateOf bootThread = .running := by
    simp [hworld, bootThreadObject]
  constructor
  case runQueue =>
    rw [hworld, htasks]
    constructor
    case initialized => simp [bootScheduler]
    case queue => exact ⟨rfl, rfl⟩
    case count => rfl
    case valid =>
      intro t ht
      rw [List.mem_singleton.mp ht, validThreadObject_eq_true]
      simp [hboot, bootThreadObject]
    case subset => simp [RoundRobin.start]
    case unlinked =>
      intro t ht _
      rw [List.mem_singleton.mp ht]
      simp [bootThreadObject]
  case current => rw [hworld]; rfl
  case idle => rw [hworld]; rfl
  case states =>
    exact ⟨hstate, hstate, by simp [RoundRobin.start], by simp [RoundRobin.start],
      by simp [RoundRobin.start]⟩
  case prepared =>
    simp [RoundRobin.roster, RoundRobin.active, RoundRobin.start, bootSession]
  case enqueued => simp [bootSession]

def stackTop (stackBase stackSize : UInt64) : UInt64 :=
  alignDownUintptr (stackBase + stackSize) stackAlign - 8

theorem alignDownUintptr_toNat (value : UInt64) :
    (alignDownUintptr value stackAlign).toNat = value.toNat / 16 * 16 :=
  toNat_and_not_low value stackAlign 4 rfl

theorem stackTop_toNat {stackBase stackSize : UInt64} (hsize : 4096 ≤ stackSize.toNat)
    (hfits : stackBase.toNat + stackSize.toNat < 2 ^ 64) :
    (stackTop stackBase stackSize).toNat =
      (stackBase.toNat + stackSize.toNat) / 16 * 16 - 8 := by
  have htop := alignDownUintptr_toNat (stackBase + stackSize)
  rw [toNat_add_of_lt _ _ hfits] at htop
  have height : (8 : UInt64).toNat = 8 := rfl
  have hle : (8 : UInt64) ≤ alignDownUintptr (stackBase + stackSize) stackAlign := by
    rw [UInt64.le_iff_toNat_le, htop, height]
    omega
  rw [stackTop, UInt64.toNat_sub_of_le _ _ hle, htop, height]

theorem mcsosThreadPrepare_of_accepts (trampoline : UInt64) (w : World) {thread entry stackBase
    stackSize : UInt64} (name : String) (arg id : UInt64)
    (h : PrepareAccepts thread entry stackBase stackSize) :
    mcsosThreadPrepare trampoline w thread name entry arg stackBase stackSize id =
      (.ok, { w with mem := storeU64 w.mem (stackTop stackBase stackSize).toNat 0 }.setThread
        thread (preparedThread trampoline name entry arg stackBase stackSize id
          (stackTop stackBase stackSize))) := by
  obtain ⟨hthread, hentry, hbase, hsize, hfits⟩ := h
  have hmin : ¬ stackSize < minKernelStack := by
    rw [UInt64.lt_iff_toNat_lt, minKernelStack]
    exact not_lt.mpr hsize
  have hsum := toNat_add_of_lt stackBase stackSize hfits
  have hhigh : ¬ stackBase + stackSize ≤ stackBase := by
    rw [UInt64.le_iff_toNat_le, hsum]
    omega
  have htop : ¬ alignDownUintptr (stackBase + stackSize) stackAlign ≤ stackBase + 128 := by
    have h128 : (128 : UInt64).toNat = 128 := rfl
    rw [UInt64.le_iff_toNat_le, alignDownUintptr_toNat, hsum,
      toNat_add_of_lt _ _ (by omega), h128]
    omega
  simp only [mcsosThreadPrepare, hthread, hentry, hbase, or_self, if_false, hmin, hhigh, htop,
    stackTop]

theorem mcsosThreadPrepare_of_not_accepts (trampoline : UInt64) (w : World) {thread entry
    stackBase stackSize : UInt64} (name : String) (arg id : UInt64)
    (h : ¬ PrepareAccepts thread entry stackBase stackSize) :
    ∃ r, mcsosThreadPrepare trampoline w thread name entry arg stackBase stackSize id =
      (r, w) ∧ r ≠ .ok := by
  by_cases hnull : thread = 0 ∨ entry = 0 ∨ stackBase = 0
  · exact ⟨.einval, by rw [mcsosThreadPrepare, if_pos hnull], by decide⟩
  · by_cases hmin : stackSize < minKernelStack
    · exact ⟨.estack, by rw [mcsosThreadPrepare, if_neg hnull, if_pos hmin], by decide⟩
    · have hhigh : stackBase + stackSize ≤ stackBase := by
        rw [not_or, not_or] at hnull
        rw [UInt64.lt_iff_toNat_lt, minKernelStack, not_lt] at hmin
        have hwrap : ¬ stackBase.toNat + stackSize.toNat < 2 ^ 64 := fun hfits =>
          h ⟨hnull.1, hnull.2.1, hnull.2.2, hmin, hfits⟩
        have hb := stackBase.toNat_lt
        have hs := stackSize.toNat_lt
        rw [UInt64.le_iff_toNat_le, UInt64.toNat_add]
        omega
      exact ⟨.estack, by simp only [mcsosThreadPrepare, hnull, if_false, hmin, hhigh, if_true],
        by decide⟩

theorem States.congr {w w' : World} {a : RoundRobin UInt64} (h : States w a)
    (hstate : ∀ t ∈ a.tasks, w'.stateOf t = w.stateOf t) : States w' a where
  idle := (hstate _ a.idle_mem_tasks).trans h.idle
  current := (hstate _ a.current_mem_tasks).trans h.current
  ready := fun t ht => (hstate t ((a.mem_tasks t).mpr (by simp [ht]))).trans (h.ready t ht)
  blocked := fun t ht => (hstate t ((a.mem_tasks t).mpr (by simp [ht]))).trans (h.blocked t ht)
  fresh := fun t ht => (hstate t ((a.mem_tasks t).mpr (by simp [ht]))).trans (h.fresh t ht)

theorem States.adopt {w : World} {a : RoundRobin UInt64} (h : States w a) {t : UInt64}
    (ht : t ∉ a.tasks) (mem : Memory) {thread : Thread} (hstate : thread.state = .new) :
    States ({ w with mem := mem }.setThread t thread) (a.adopt t) := by
  have hold : States ({ w with mem := mem }.setThread t thread) a := by
    refine h.congr (fun u hu => ?_)
    have hne : u ≠ t := fun heq => ht (heq ▸ hu)
    rw [stateOf_setThread, Function.update_of_ne hne]
    rfl
  constructor
  case idle => rw [a.adopt_idle]; exact hold.idle
  case current => rw [a.adopt_current]; exact hold.current
  case ready => rw [a.adopt_ready]; exact hold.ready
  case blocked => rw [a.adopt_blocked]; exact hold.blocked
  case fresh =>
    rw [a.adopt_fresh ht]
    intro u hu
    rcases List.mem_cons.mp hu with rfl | hu
    · rw [stateOf_setThread, Function.update_self, hstate]
    · exact hold.fresh u hu

theorem States.switch {w : World} {a : RoundRobin UInt64} (state : UInt64 → ThreadState)
    (hstate : ∀ t, w.stateOf t = if t = a.current then .running else state t)
    (hidle : state a.idle = .running) (hready : ∀ t ∈ a.ready, state t = .ready)
    (hblocked : ∀ t ∈ a.blocked, state t = .blocked)
    (hfresh : ∀ t ∈ a.fresh, state t = .new) : States w a := by
  have hother : ∀ t ∈ a.ready ++ a.blocked ++ a.fresh, w.stateOf t = state t := by
    intro t ht
    have hne : t ≠ a.current := fun heq => a.current_not_mem (heq ▸ ht)
    rw [hstate, if_neg hne]
  constructor
  case idle => rw [hstate, hidle, ite_self]
  case current => rw [hstate, if_pos rfl]
  case ready => exact fun t ht => (hother t (by simp [ht])).trans (hready t ht)
  case blocked => exact fun t ht => (hother t (by simp [ht])).trans (hblocked t ht)
  case fresh => exact fun t ht => (hother t (by simp [ht])).trans (hfresh t ht)

theorem RunQueue.adopt {w : World} {objects xs : List UInt64} (h : RunQueue w objects xs)
    {t : UInt64} (ht : t ∉ objects) (hnull : t ≠ 0) (mem : Memory) {thread : Thread}
    (hmagic : thread.magic = threadMagic) (hnext : thread.next = 0) :
    RunQueue ({ w with mem := mem }.setThread t thread) (t :: objects) xs := by
  have hne : ∀ u ∈ objects, u ≠ t := fun u hu heq => ht (heq ▸ hu)
  constructor
  case initialized => exact h.initialized
  case queue =>
    refine h.queue.congr ?_
    intro x hx
    rw [nextOf_setThread, Function.update_of_ne (hne x (h.subset x hx))]
    rfl
  case count => exact h.count
  case valid =>
    intro u hu
    rw [validThreadObject_eq_true, magicOf_setThread]
    rcases List.mem_cons.mp hu with rfl | hu
    · rw [Function.update_self]
      exact ⟨hnull, hmagic⟩
    · rw [Function.update_of_ne (hne u hu)]
      exact (validThreadObject_eq_true w u).mp (h.valid u hu)
  case subset => exact fun u hu => List.mem_cons_of_mem t (h.subset u hu)
  case unlinked =>
    intro u hu hout
    rw [nextOf_setThread]
    rcases List.mem_cons.mp hu with rfl | hu
    · rw [Function.update_self, hnext]
    · rw [Function.update_of_ne (hne u hu)]
      exact h.unlinked u hu hout

theorem Refines.prepare {s : Session} {a : RoundRobin UInt64} (h : Refines s a)
    (trampoline : UInt64) {thread : UInt64} (name : String)
    (entry arg stackBase stackSize id : UInt64) (hfresh : thread ∉ s.objects) :
    Refines (schedStep trampoline s (.prepare thread name entry arg stackBase stackSize id)).1
      (roundRobinStep a (.prepare thread name entry arg stackBase stackSize id)) := by
  rw [h.mem_objects] at hfresh
  by_cases haccept : PrepareAccepts thread entry stackBase stackSize
  · have hcall := mcsosThreadPrepare_of_accepts trampoline s.world name arg id haccept
    simp only [schedStep, schedCall, roundRobinStep, haccept, if_true, notePrepared, hcall]
    have hroster := a.roster_adopt hfresh
    have htasks : ∀ t, t ∈ (a.adopt thread).tasks ↔ t ∈ thread :: a.tasks := by
      intro t
      simp only [RoundRobin.tasks, a.adopt_idle, List.mem_cons, hroster.mem_iff]
      exact or_left_comm
    have hne : ∀ t ∈ a.tasks, t ≠ thread := fun t ht heq => hfresh (heq ▸ ht)
    constructor
    case runQueue =>
      rw [a.adopt_ready]
      exact (h.runQueue.adopt hfresh haccept.1 _ rfl rfl).mem_congr htasks
    case current => rw [a.adopt_current]; exact h.current
    case idle => rw [a.adopt_idle]; exact h.idle
    case states => exact h.states.adopt hfresh _ rfl
    case prepared => exact hroster.trans (h.prepared.cons thread)
    case enqueued =>
      intro t ht
      obtain ⟨hmem, hnew⟩ := h.enqueued t ht
      refine ⟨hroster.mem_iff.mpr (List.mem_cons_of_mem thread hmem), ?_⟩
      rw [a.adopt_fresh hfresh, List.mem_cons, not_or]
      exact ⟨hne t (List.mem_cons_of_mem a.idle hmem), hnew⟩
  · obtain ⟨r, hcall, hr⟩ := mcsosThreadPrepare_of_not_accepts trampoline s.world name arg id
      haccept
    simp only [schedStep, schedCall, roundRobinStep, haccept, if_false, notePrepared, hcall, hr]
    exact h

theorem mem_tasks_of_perm {a a' : RoundRobin UInt64} (hidle : a'.idle = a.idle)
    (hroster : a'.roster.Perm a.roster) (t : UInt64) : t ∈ a'.tasks ↔ t ∈ a.tasks := by
  simp only [RoundRobin.tasks, hidle, List.mem_cons, hroster.mem_iff]

theorem Refines.wake {s : Session} {a : RoundRobin UInt64} (h : Refines s a) {t : UInt64}
    (ht : t ∈ a.blocked ++ a.fresh) :
    mcsosSchedEnqueue s.world t = (.ok, appendReady s.world t) ∧
      Refines ⟨appendReady s.world t, s.prepared, t :: s.enqueued⟩ (a.wake t) := by
  have hnd := a.nodup_waiting
  rw [List.append_assoc, List.nodup_append] at hnd
  obtain ⟨-, hwait, hsep⟩ := hnd
  have hready : t ∉ a.ready := fun hmem => hsep t hmem t ht rfl
  have hidle : a.idle ≠ t := fun heq => a.idle_not_mem (by
    rw [heq, List.append_assoc]; exact List.mem_append_right _ ht)
  have hcur : a.current ≠ t := fun heq => a.current_not_mem (by
    rw [heq, List.append_assoc]; exact List.mem_append_right _ ht)
  obtain ⟨hndb, hndf, -⟩ := List.nodup_append.mp hwait
  have hmem := a.mem_tasks_of_waiting ht
  have hstate : s.world.stateOf t = .new ∨ s.world.stateOf t = .ready ∨
      s.world.stateOf t = .blocked := by
    rcases List.mem_append.mp ht with hb | hf
    · exact Or.inr (Or.inr (h.states.blocked t hb))
    · exact Or.inl (h.states.fresh t hf)
  have hnew : ∀ u, u ≠ t → (appendReady s.world t).stateOf u = s.world.stateOf u := by
    intro u hu
    rw [appendReady_state, Function.update_of_ne hu]
  have hroster := a.roster_wake t
  refine ⟨mcsosSchedEnqueue_ok h.runQueue.initialized (h.runQueue.valid t hmem) hstate, ?_⟩
  constructor
  case runQueue =>
    rw [a.wake_ready ht]
    exact (h.runQueue.appendReady hmem hready).mem_congr
      (mem_tasks_of_perm (a.wake_idle t) hroster)
  case current => rw [a.wake_current, appendReady_sched]; exact h.current
  case idle => rw [a.wake_idle, appendReady_sched]; exact h.idle
  case states =>
    constructor
    case idle => rw [a.wake_idle, hnew _ hidle]; exact h.states.idle
    case current => rw [a.wake_current, hnew _ hcur]; exact h.states.current
    case ready =>
      rw [a.wake_ready ht]
      intro u hu
      rcases List.mem_append.mp hu with hu | hu
      · rw [hnew u (fun heq => hready (heq ▸ hu))]
        exact h.states.ready u hu
      · rw [List.mem_singleton.mp hu, appendReady_state, Function.update_self]
    case blocked =>
      rw [a.wake_blocked ht]
      intro u hu
      obtain ⟨hne, hu⟩ := hndb.mem_erase_iff.mp hu
      rw [hnew u hne]
      exact h.states.blocked u hu
    case fresh =>
      rw [a.wake_fresh ht]
      intro u hu
      obtain ⟨hne, hu⟩ := hndf.mem_erase_iff.mp hu
      rw [hnew u hne]
      exact h.states.fresh u hu
  case prepared => exact hroster.trans h.prepared
  case enqueued =>
    intro u hu
    rw [hroster.mem_iff, a.wake_fresh ht, hndf.mem_erase_iff]
    rcases List.mem_cons.mp hu with rfl | hu
    · refine ⟨?_, fun hin => hin.1 rfl⟩
      exact (List.mem_cons.mp hmem).resolve_left (Ne.symm hidle)
    · obtain ⟨hin, hout⟩ := h.enqueued u hu
      exact ⟨hin, fun hin' => hout hin'.2⟩

theorem Refines.not_waiting_of_invalid {s : Session} {a : RoundRobin UInt64} (h : Refines s a)
    {t : UInt64} (ht : validThreadObject s.world t = false) : t ∉ a.tasks := by
  intro hmem
  rw [h.runQueue.valid t hmem] at ht
  exact Bool.noConfusion ht

theorem Refines.waiting_of_state {s : Session} {a : RoundRobin UInt64} (h : Refines s a)
    {t : UInt64} (ht : t ∈ a.tasks) :
    (s.world.stateOf t = .blocked → t ∈ a.blocked) ∧
      (s.world.stateOf t = .new → t ∈ a.fresh) := by
  rcases (a.mem_tasks t).mp ht with rfl | rfl | hin | hin | hin
  · simp [h.states.idle]
  · simp [h.states.current]
  · simp [h.states.ready t hin]
  · simp [h.states.blocked t hin, hin]
  · simp [h.states.fresh t hin, hin]

theorem Refines.enqueue {s : Session} {a : RoundRobin UInt64} (h : Refines s a)
    (trampoline : UInt64) {t : UInt64} (hadm : Admissible s (.enqueue t)) :
    Refines (schedStep trampoline s (.enqueue t)).1 (roundRobinStep a (.enqueue t)) := by
  obtain ⟨hknown, hstate⟩ := hadm
  rcases hknown with hobj | hinvalid
  · have hwait := h.waiting_of_state ((h.mem_objects t).mp hobj)
    have ht : t ∈ a.blocked ++ a.fresh := by
      rcases hstate with hnew | hblocked
      · exact List.mem_append_right _ (hwait.2 hnew)
      · exact List.mem_append_left _ (hwait.1 hblocked)
    obtain ⟨hcall, hr⟩ := h.wake ht
    simpa only [schedStep, schedCall, noteEnqueued, hcall, if_true, roundRobinStep] using hr
  · have hout := h.not_waiting_of_invalid hinvalid
    have ht : t ∉ a.blocked ++ a.fresh := fun hmem => hout (a.mem_tasks_of_waiting hmem)
    have hcall : mcsosSchedEnqueue s.world t = (.einval, s.world) := by
      rw [mcsosSchedEnqueue, if_pos (Or.inr hinvalid)]
    have hstay : a.wake t = a := by
      simp only [RoundRobin.wake, ht, ↓reduceDIte]
    simpa [schedStep, schedCall, noteEnqueued, hcall, roundRobinStep, hstay] using h

theorem Refines.markReady {s : Session} {a : RoundRobin UInt64} (h : Refines s a)
    (trampoline : UInt64) {t : UInt64} (hadm : Admissible s (.markReady t)) :
    Refines (schedStep trampoline s (.markReady t)).1 (roundRobinStep a (.markReady t)) := by
  by_cases hblocked : t ∈ a.blocked
  · obtain ⟨hcall, hr⟩ := h.wake (List.mem_append_left a.fresh hblocked)
    have hmem := a.mem_tasks_of_waiting (List.mem_append_left a.fresh hblocked)
    have hmark : mcsosThreadMarkReady s.world t = mcsosSchedEnqueue s.world t := by
      simp [mcsosThreadMarkReady, h.runQueue.valid t hmem, h.states.blocked t hblocked]
    simpa only [schedStep, schedCall, noteEnqueued, hmark, hcall, if_true, roundRobinStep,
      hblocked] using hr
  · have hcall : ∃ r, mcsosThreadMarkReady s.world t = (r, s.world) ∧ r ≠ .ok := by
      rcases hadm with hobj | hinvalid
      · have hmem := (h.mem_objects t).mp hobj
        have hstate : s.world.stateOf t ≠ .blocked := fun hb =>
          hblocked ((h.waiting_of_state hmem).1 hb)
        refine ⟨.estate, ?_, by decide⟩
        simp [mcsosThreadMarkReady, h.runQueue.valid t hmem, hstate]
      · exact ⟨.einval, by rw [mcsosThreadMarkReady, if_pos hinvalid], by decide⟩
    obtain ⟨r, hcall, hr⟩ := hcall
    simpa only [schedStep, schedCall, noteEnqueued, hcall, hr, if_false, roundRobinStep,
      hblocked] using h

theorem Refines.requeued_current {s : Session} {a : RoundRobin UInt64} (h : Refines s a) :
    requeued s.world s.world.sched.current = a.active := by
  simp only [requeued, h.current, h.states.current, h.idle, true_and, RoundRobin.active]
  by_cases hidle : a.current = a.idle
  · rw [if_pos hidle, if_neg (fun hne => hne hidle)]
  · rw [if_neg hidle, if_pos hidle]

theorem Refines.current_mem {s : Session} {a : RoundRobin UInt64} (h : Refines s a) :
    s.world.sched.current ∈ a.tasks := by
  rw [h.current]
  exact a.current_mem_tasks

theorem Refines.idle_mem {s : Session} {a : RoundRobin UInt64} (h : Refines s a) :
    s.world.sched.idle ∈ a.tasks := by
  rw [h.idle]
  exact a.idle_mem_tasks

theorem Refines.guard {s : Session} {a : RoundRobin UInt64} (h : Refines s a) :
    ¬ (s.world.sched.initialized = 0 ∨
      validThreadObject s.world s.world.sched.current = false) := by
  simp [h.runQueue.initialized, h.runQueue.valid _ h.current_mem]

theorem Refines.current_not_ready {s : Session} {a : RoundRobin UInt64} (h : Refines s a) :
    s.world.sched.current ∉ a.ready := by
  rw [h.current]
  intro hmem
  exact a.current_not_mem (by simp [hmem])

theorem Refines.yield {s : Session} {a : RoundRobin UInt64} (h : Refines s a)
    (trampoline : UInt64) :
    Refines (schedStep trampoline s .yield).1 (roundRobinStep a .yield) := by
  obtain ⟨w', hcall, hqueue, hcur, hidle, hstate⟩ :=
    mcsosSchedYield_spec h.runQueue h.current_mem h.idle_mem h.current_not_ready
  rw [h.requeued_current] at hqueue hstate
  rw [h.idle] at hcur hstate
  have hactive : ∀ t ∈ a.blocked ++ a.fresh, t ∉ a.active := by
    intro t ht hin
    refine a.current_not_mem ?_
    rw [← a.eq_current_of_mem_active hin, List.append_assoc]
    exact List.mem_append_right _ ht
  simp only [schedStep, schedCall, roundRobinStep, hcall]
  constructor
  case runQueue => exact hqueue.mem_congr (mem_tasks_of_perm rfl a.roster_yield)
  case current => exact hcur
  case idle => exact hidle.trans h.idle
  case states =>
    refine States.switch _ hstate ?_ ?_ ?_ ?_
    · exact (if_neg a.idle_not_mem_active).trans h.states.idle
    · intro t ht
      by_cases hin : t ∈ a.active
      · exact if_pos hin
      · have htail := (List.mem_append.mp ht).resolve_right hin
        exact (if_neg hin).trans (h.states.ready t (List.mem_of_mem_tail htail))
    · intro t ht
      exact (if_neg (hactive t (List.mem_append_left _ ht))).trans (h.states.blocked t ht)
    · intro t ht
      exact (if_neg (hactive t (List.mem_append_right _ ht))).trans (h.states.fresh t ht)
  case prepared => exact a.roster_yield.trans h.prepared
  case enqueued =>
    intro t ht
    obtain ⟨hin, hout⟩ := h.enqueued t ht
    exact ⟨a.roster_yield.mem_iff.mpr hin, hout⟩

theorem Refines.current_eq_idle_iff {s : Session} {a : RoundRobin UInt64} (h : Refines s a) :
    s.world.sched.current = s.world.sched.idle ↔ a.current = a.idle := by
  rw [h.current, h.idle]

theorem requeued_blocked (w : World) (p : UInt64) : requeued (w.setState p .blocked) p = [] := by
  rw [requeued, stateOf_setState, Function.update_self, if_neg (by simp)]

theorem Refines.blockCurrent_idle {s : Session} {a : RoundRobin UInt64} (h : Refines s a)
    (trampoline : UInt64) (hidle : a.current = a.idle) :
    Refines (schedStep trampoline s .blockCurrent).1 a := by
  have hcall : mcsosThreadBlockCurrent s.world = (.estate, s.world) := by
    rw [mcsosThreadBlockCurrent, if_neg h.guard, if_pos (h.current_eq_idle_iff.mpr hidle)]
  simpa only [schedStep, schedCall, hcall] using h

theorem Refines.blockCurrent_active {s : Session} {a : RoundRobin UInt64} (h : Refines s a)
    (trampoline : UInt64) (hactive : a.current ≠ a.idle) :
    Refines (schedStep trampoline s .blockCurrent).1 a.block := by
  have hne : s.world.sched.current ≠ s.world.sched.idle := fun heq =>
    hactive (h.current_eq_idle_iff.mp heq)
  have hcall : mcsosThreadBlockCurrent s.world =
      mcsosSchedYield (s.world.setState s.world.sched.current .blocked) := by
    rw [mcsosThreadBlockCurrent, if_neg h.guard, if_neg hne]
  have hback := requeued_blocked s.world s.world.sched.current
  obtain ⟨w', hyield, hqueue, hcur, hidle, hstate⟩ :=
    mcsosSchedYield_spec (h.runQueue.setState s.world.sched.current .blocked) h.current_mem
      h.idle_mem h.current_not_ready
  simp only [sched_setState, hback, List.append_nil, List.not_mem_nil, if_false,
    stateOf_setState] at hqueue hcur hidle hstate
  simp only [h.current, h.idle] at hcur hidle hstate
  have hother : ∀ t ∈ a.idle :: (a.ready ++ a.blocked ++ a.fresh),
      Function.update s.world.stateOf a.current .blocked t = s.world.stateOf t := by
    intro t ht
    refine Function.update_of_ne ?_ _ _
    intro heq
    rcases List.mem_cons.mp ht with ht | ht
    · exact hactive (heq ▸ ht)
    · exact a.current_not_mem (heq ▸ ht)
  simp only [schedStep, schedCall, hcall, hyield]
  constructor
  case runQueue =>
    rw [a.block_ready hactive]
    exact hqueue.mem_congr (mem_tasks_of_perm (a.block_idle hactive) a.roster_block)
  case current => rw [a.block_current hactive]; exact hcur
  case idle => rw [a.block_idle hactive]; exact hidle
  case states =>
    refine States.switch _ (by simpa only [a.block_current hactive] using hstate) ?_ ?_ ?_ ?_
    · rw [a.block_idle hactive, hother a.idle List.mem_cons_self]
      exact h.states.idle
    · rw [a.block_ready hactive]
      intro t ht
      have hmem := List.mem_of_mem_tail ht
      rw [hother t (by simp [hmem])]
      exact h.states.ready t hmem
    · rw [a.block_blocked hactive]
      intro t ht
      rcases List.mem_cons.mp ht with rfl | ht
      · exact Function.update_self _ _ _
      · rw [hother t (by simp [ht])]
        exact h.states.blocked t ht
    · rw [a.block_fresh hactive]
      intro t ht
      rw [hother t (by simp [ht])]
      exact h.states.fresh t ht
  case prepared => exact a.roster_block.trans h.prepared
  case enqueued =>
    intro t ht
    obtain ⟨hin, hout⟩ := h.enqueued t ht
    rw [a.block_fresh hactive]
    exact ⟨a.roster_block.mem_iff.mpr hin, hout⟩

theorem Refines.blockCurrent {s : Session} {a : RoundRobin UInt64} (h : Refines s a)
    (trampoline : UInt64) :
    Refines (schedStep trampoline s .blockCurrent).1 (roundRobinStep a .blockCurrent) := by
  by_cases hidle : a.current = a.idle
  · have hstay : a.block = a := by
      simp only [RoundRobin.block, hidle, ↓reduceDIte]
    rw [roundRobinStep, hstay]
    exact h.blockCurrent_idle trampoline hidle
  · exact h.blockCurrent_active trampoline hidle

theorem Refines.tick {s : Session} {a : RoundRobin UInt64} (h : Refines s a)
    (trampoline : UInt64) :
    Refines (schedStep trampoline s .tick).1 (roundRobinStep a .tick) := by
  simp only [schedStep, schedCall, roundRobinStep, mcsosSchedTick, h.guard, if_false]
  exact
    { runQueue := h.runQueue.congr rfl rfl rfl rfl (by simp) (by simp)
      current := h.current
      idle := h.idle
      states := h.states.congr (fun t _ => by simp)
      prepared := h.prepared
      enqueued := h.enqueued }

/-- One admissible call of the scheduler is one step of the round robin. -/
theorem schedStep_refines (trampoline : UInt64) (s : Session) (a : RoundRobin UInt64)
    (c : SchedCall) (h : Refines s a) (hadm : Admissible s c) :
    Refines (schedStep trampoline s c).1 (roundRobinStep a c) := by
  cases c with
  | prepare thread name entry arg stackBase stackSize id =>
    exact h.prepare trampoline name entry arg stackBase stackSize id hadm
  | enqueue thread => exact h.enqueue trampoline hadm
  | yield => exact h.yield trampoline
  | blockCurrent => exact h.blockCurrent trampoline
  | markReady thread => exact h.markReady trampoline hadm
  | tick => exact h.tick trampoline

theorem run_refines_roundRobin (trampoline : UInt64) (w : World) {bootThread : UInt64}
    (hboot : bootThread ≠ 0) {calls : List SchedCall}
    (hadm : AlongTotal (schedStep trampoline) Admissible (bootSession w bootThread) calls) :
    Refines (runTotal (schedStep trampoline) (bootSession w bootThread) calls).1
      (calls.foldl roundRobinStep (RoundRobin.start bootThread)) :=
  runTotal_simulates Refines Admissible (schedStep_refines trampoline) (refines_boot w hboot) hadm

end Mcsos.Sched
