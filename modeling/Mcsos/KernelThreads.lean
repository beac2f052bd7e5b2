import Mcsos.ContextSwitch
import Mcsos.SchedAccounting

/-!
# Threads of the kernel build

In the kernel build `mcsos_sched_yield` ends in `mcsos_context_switch`. The scheduler and the
switch together are coroutines: tasks in round robin, each with registers of its own. The
scheduler picks only threads whose context record is complete, which is what the switch asks
for. The fields of the thread objects are those of the host build, and the context records are
in the memory of the machine.
-/

namespace Mcsos.Sched
open ByteMemory WordArithmetic RegisterMachine StepRun

structure ThreadKernel where
  session : Session
  machine : Machine Reg

/-- The running thread computes, or it calls the scheduler. In a call that switches, `ret` is the
return address in `mcsos_sched_yield`. -/
inductive ThreadEvent where
  | work (m : Machine Reg)
  | call (c : SchedCall) (ret : UInt64)

def recordOf (thread : UInt64) : UInt64 := thread + contextOffset

def preparedMemory (m : Memory) (s : Session) : SchedCall → SchedResult → Memory
  | .prepare thread _ _ _ _ _ _, r =>
      if r = .ok then
        storeContext s.world.mem (recordOf thread).toNat (s.world.threads thread).context
      else m
  | _, _ => m

namespace ThreadKernel

def current (s : ThreadKernel) : UInt64 := s.session.world.sched.current

def loaded (s : ThreadKernel) : Session :=
  { s.session with world := { s.session.world with mem := s.machine.mem } }

def shown (s : ThreadKernel) : UInt64 × Context := (s.current, view s.machine)

variable (label trampoline : UInt64)

def call (s : ThreadKernel) (c : SchedCall) (ret : UInt64) : ThreadKernel :=
  let r := schedStep trampoline s.loaded c
  let machine := s.machine.setMem (preparedMemory s.machine.mem r.1 c r.2)
  let next := r.1.world.sched.current
  ⟨r.1, if next = s.current then machine
    else callContextSwitch label machine (recordOf s.current) (recordOf next) ret⟩

def next (s : ThreadKernel) : ThreadEvent → ThreadKernel
  | .work m => { s with machine := m }
  | .call c ret => s.call label trampoline c ret

def step (s : ThreadKernel) (e : ThreadEvent) : ThreadKernel × (UInt64 × Context) :=
  (s.next label trampoline e, (s.next label trampoline e).shown)

def boot (w : World) (m : Machine Reg) (bootThread : UInt64) : ThreadKernel :=
  ⟨bootSession w bootThread, m.setMem (storeContext m.mem (recordOf bootThread).toNat zeroContext)⟩

end ThreadKernel

/-- Tasks in round robin, each with registers of its own. Those of the current task are live. -/
structure Coroutines where
  order : RoundRobin UInt64
  registers : UInt64 → Context

def started (trampoline : UInt64) : SchedCall → Option (UInt64 × Context)
  | .prepare thread _ entry _ stackBase stackSize _ =>
      if PrepareAccepts thread entry stackBase stackSize then
        some (thread,
          { zeroContext with rsp := stackTop stackBase stackSize, rip := trampoline })
      else none
  | _ => none

namespace Coroutines

def shown (a : Coroutines) : UInt64 × Context :=
  (a.order.current, a.registers a.order.current)

def left (a : Coroutines) (order : RoundRobin UInt64) (ret : UInt64) : UInt64 → Context :=
  if order.current = a.order.current then a.registers
  else
    Function.update a.registers a.order.current { a.registers a.order.current with rip := ret }

def next (trampoline : UInt64) (a : Coroutines) : ThreadEvent → Coroutines
  | .work m => { a with registers := Function.update a.registers a.order.current (view m) }
  | .call c ret =>
      let order := roundRobinStep a.order c
      ⟨order, (started trampoline c).elim (a.left order ret)
        (fun p => Function.update (a.left order ret) p.1 p.2)⟩

def step (trampoline : UInt64) (a : Coroutines) (e : ThreadEvent) :
    Coroutines × (UInt64 × Context) :=
  (a.next trampoline e, (a.next trampoline e).shown)

def boot (m : Machine Reg) (bootThread : UInt64) : Coroutines :=
  ⟨RoundRobin.start bootThread, fun _ => view m⟩

theorem registers_call_new {trampoline : UInt64} (a : Coroutines) {c : SchedCall} (ret : UInt64)
    {p : UInt64} {context : Context} (h : started trampoline c = some (p, context)) :
    (a.next trampoline (.call c ret)).registers p = context := by
  simp only [next, h, Option.elim_some, Function.update_self]

theorem registers_call_old {trampoline : UInt64} {a : Coroutines} {c : SchedCall} (ret : UInt64)
    {p : UInt64} (hp : p ≠ a.order.current)
    (hnew : ∀ context, started trampoline c ≠ some (p, context)) :
    (a.next trampoline (.call c ret)).registers p = a.registers p := by
  have hleft : a.left (roundRobinStep a.order c) ret p = a.registers p := by
    rw [left]
    split_ifs
    · rfl
    · exact Function.update_of_ne hp _ _
  rw [next]
  cases hstart : started trampoline c with
  | none => exact hleft
  | some r =>
    have hne : p ≠ r.1 := fun heq => hnew r.2 (heq ▸ hstart)
    exact (Function.update_of_ne hne _ _).trans hleft

end Coroutines

section Calls

variable {s : Session} {a : RoundRobin UInt64} {c : SchedCall}

theorem Refines.setMem (h : Refines s a) (mem : Memory) :
    Refines { s with world := { s.world with mem := mem } } a where
  runQueue := h.runQueue.congr rfl rfl rfl rfl rfl rfl
  current := h.current
  idle := h.idle
  states := h.states.congr (fun _ _ => rfl)
  prepared := h.prepared
  enqueued := h.enqueued

variable (trampoline : UInt64)

theorem Refines.mem_objects_step (h : Refines s a) (hadm : Admissible s c) (p : UInt64) :
    p ∈ (schedStep trampoline s c).1.objects ↔
      p ∈ s.objects ∨ ∃ context, started trampoline c = some (p, context) := by
  have hidle := h.idle_kept trampoline hadm
  cases c with
  | prepare thread name entry arg stackBase stackSize id =>
    rw [Session.objects, hidle, Session.objects, started]
    by_cases haccept : PrepareAccepts thread entry stackBase stackSize
    · have hcall := mcsosThreadPrepare_of_accepts trampoline s.world name arg id haccept
      simp only [schedStep, schedCall, notePrepared, hcall, if_true, if_pos haccept, List.mem_cons,
        Option.some.injEq, Prod.mk.injEq, exists_and_left, exists_eq', and_true]
      rw [eq_comm (a := p) (b := thread)]
      tauto
    · obtain ⟨r, hcall, hr⟩ :=
        mcsosThreadPrepare_of_not_accepts trampoline s.world name arg id haccept
      simp only [schedStep, schedCall, notePrepared, hcall, if_neg hr, if_neg haccept, reduceCtorEq,
        exists_false, or_false]
  | _ =>
    rw [Session.objects, hidle]
    simp only [started, reduceCtorEq, exists_false, or_false]
    rfl

variable {trampoline}

theorem started_fresh (hadm : Admissible s c) {p : UInt64} {context : Context}
    (h : started trampoline c = some (p, context)) : p ∉ s.objects := by
  cases c with
  | prepare thread name entry arg stackBase stackSize id =>
    rw [started] at h
    split_ifs at h
    rw [← (Prod.mk.inj (Option.some.inj h)).1]
    exact hadm
  | _ => exact absurd h (Option.some_ne_none _).symm

theorem started_rip {p : UInt64} {context : Context}
    (h : started trampoline c = some (p, context)) : context.rip = trampoline := by
  cases c with
  | prepare thread name entry arg stackBase stackSize id =>
    rw [started] at h
    split_ifs at h
    rw [← (Prod.mk.inj (Option.some.inj h)).2]
  | _ => exact absurd h (Option.some_ne_none _).symm

theorem Refines.current_of_started (h : Refines s a) (hadm : Admissible s c)
    {r : UInt64 × Context} (hstart : started trampoline c = some r) :
    (schedStep trampoline s c).1.world.sched.current = s.world.sched.current := by
  rw [(schedStep_refines trampoline s a c h hadm).current, h.current]
  cases c with
  | prepare thread name entry arg stackBase stackSize id =>
    rw [roundRobinStep]
    split_ifs
    · exact a.adopt_current thread
    · rfl
  | _ => exact absurd hstart (Option.some_ne_none _).symm

end Calls

namespace ThreadLayout

variable {ι : Type*} (L : ThreadLayout ι) (label trampoline : UInt64)

def Placed : SchedCall → Prop
  | .prepare thread _ _ _ stackBase stackSize _ => ∃ t, L.object t = thread ∧
      ∀ x, stackBase.toNat ≤ x → x < stackBase.toNat + stackSize.toNat → x ∈ L.stack t
  | _ => True

def Room (s : ThreadKernel) : Prop :=
  8 ≤ (s.machine.regs .rsp).toNat ∧ ∀ t, L.object t = s.current →
    ∀ x, (s.machine.regs .rsp).toNat - 8 ≤ x → x < (s.machine.regs .rsp).toNat →
      x ∈ L.stack t ∧ x ∉ recordBytes (L.record t).toNat

/-- A thread does not write memory of another thread. It calls the scheduler on its own stack,
and prepares a thread once, with a stack of its own. -/
def Allowed (s : ThreadKernel) : ThreadEvent → Prop
  | .work m => ∀ t, L.object t ∈ s.session.objects → L.object t ≠ s.current →
      ∀ x ∈ L.owned t, m.mem x = s.machine.mem x
  | .call c _ => Admissible s.session c ∧ L.Placed c ∧ L.Room s

structure Follows (s : ThreadKernel) (a : Coroutines) : Prop where
  order : Refines s.session a.order
  live : view s.machine = a.registers a.order.current
  placed : ∀ p ∈ s.session.objects, ∃ t, L.object t = p
  parked : ∀ t, L.object t ∈ s.session.objects → L.object t ≠ s.current →
    L.Parked label s.machine.mem t (a.registers (L.object t))

theorem object_injective : Function.Injective L.object := by
  intro t u heq
  by_contra hne
  have hstart : (L.record t).toNat ∈ recordBytes (L.record t).toNat :=
    ⟨le_refl _, Nat.lt_add_of_pos_right (by decide)⟩
  have hsame : L.record t = L.record u := congrArg (· + contextOffset) heq
  exact notMem_owned hne (Or.inl hstart) (Or.inl (hsame ▸ hstart))

variable {L label trampoline} {s : ThreadKernel} {a : Coroutines}

theorem Follows.loaded (h : L.Follows label s a) : Refines s.loaded a.order :=
  h.order.setMem s.machine.mem

theorem Follows.current (h : L.Follows label s a) : s.current = a.order.current :=
  h.order.current

theorem Follows.shown (h : L.Follows label s a) : s.shown = a.shown :=
  Prod.ext h.current h.live

theorem Follows.work (h : L.Follows label s a) {m : Machine Reg}
    (hallowed : L.Allowed s (.work m)) :
    L.Follows label (s.next label trampoline (.work m)) (a.next trampoline (.work m)) where
  order := h.order
  live := (Function.update_self a.order.current (view m) a.registers).symm
  placed := h.placed
  parked := by
    intro t ht hne
    have hother : L.object t ≠ a.order.current := fun heq => hne (heq.trans h.order.current.symm)
    change L.Parked label m.mem t (Function.update a.registers a.order.current (view m) _)
    rw [Function.update_of_ne hother]
    exact (h.parked t ht hne).congr (hallowed t ht hne)

theorem prepared_outside {thread entry stackBase stackSize : UInt64} {t : ι}
    (haccept : PrepareAccepts thread entry stackBase stackSize) (ht : L.object t = thread)
    (hstack : ∀ x, stackBase.toNat ≤ x → x < stackBase.toNat + stackSize.toNat → x ∈ L.stack t)
    (m : Memory) (context : Context) {x : ℕ} (hx : x ∉ L.owned t) :
    storeContext (storeU64 m (stackTop stackBase stackSize).toNat 0) (recordOf thread).toNat
      context x = m x := by
  have htop := stackTop_mem haccept
  rw [owned, Set.mem_union, not_or, record, ht] at hx
  have houtside : x < (stackTop stackBase stackSize).toNat ∨
      (stackTop stackBase stackSize).toNat + 8 ≤ x := by
    by_contra hin
    exact hx.2 (hstack x (by omega) (by omega))
  exact (storeContext_outside _ _ (outside_record hx.1)).trans (storeU64_outside _ _ _ houtside)

theorem Follows.parked_edits (hcode : trampoline ≠ label) (h : L.Follows label s a)
    {c : SchedCall} (hadm : Admissible s.session c) (hplaced : L.Placed c)
    {registers : UInt64 → Context}
    (hkept : ∀ p, p ≠ s.current → registers p = a.registers p) {t : ι}
    (ht : L.object t ∈ (schedStep trampoline s.loaded c).1.objects)
    (hne : L.object t ≠ s.current) :
    L.Parked label
      (preparedMemory s.machine.mem (schedStep trampoline s.loaded c).1 c
        (schedStep trampoline s.loaded c).2) t
      ((started trampoline c).elim registers (fun p => Function.update registers p.1 p.2)
        (L.object t)) := by
  rw [h.loaded.mem_objects_step trampoline hadm] at ht
  have hold (hin : L.object t ∈ s.session.objects) :
      L.Parked label s.machine.mem t (registers (L.object t)) := by
    rw [hkept _ hne]
    exact h.parked t hin hne
  cases c with
  | prepare thread name entry arg stackBase stackSize id =>
    obtain ⟨u, hu, hstack⟩ := hplaced
    rw [started] at ht ⊢
    by_cases haccept : PrepareAccepts thread entry stackBase stackSize
    · have hcall := mcsosThreadPrepare_of_accepts trampoline s.loaded.world name arg id haccept
      simp only [if_pos haccept, Option.elim_some, preparedMemory, schedStep, schedCall,
        notePrepared, hcall, if_true, World.setThread, Function.update_self] at ht ⊢
      by_cases heq : L.object t = thread
      · rw [heq, Function.update_self]
        have hrecord : L.record t = recordOf thread := congrArg (· + contextOffset) heq
        rw [← hrecord]
        exact parked_storeContext _ t hcode
      · have hin : L.object t ∈ s.session.objects := by
          rcases ht with hin | ⟨context, hsome⟩
          · exact hin
          · exact absurd (Prod.mk.inj (Option.some.inj hsome)).1.symm heq
        rw [Function.update_of_ne heq]
        apply (hold hin).congr
        intro x hx
        apply prepared_outside haccept hu hstack
        exact notMem_owned (fun htu => heq ((congrArg L.object htu).trans hu)) hx
    · obtain ⟨r, hcall, hr⟩ :=
        mcsosThreadPrepare_of_not_accepts trampoline s.loaded.world name arg id haccept
      simp only [if_neg haccept, Option.elim_none, preparedMemory, schedStep, schedCall,
        notePrepared, hcall, if_neg hr, reduceCtorEq, exists_false, or_false] at ht ⊢
      exact hold ht
  | _ =>
    simp only [started, reduceCtorEq, exists_false, or_false] at ht
    exact hold ht

theorem Follows.placed_edits (h : L.Follows label s a) {c : SchedCall}
    (hadm : Admissible s.session c) (hplaced : L.Placed c) :
    ∀ p ∈ (schedStep trampoline s.loaded c).1.objects, ∃ t, L.object t = p := by
  intro p hp
  rcases (h.loaded.mem_objects_step trampoline hadm p).mp hp with hin | ⟨context, hstart⟩
  · exact h.placed p hin
  · cases c with
    | prepare thread name entry arg stackBase stackSize id =>
      obtain ⟨t, ht, -⟩ := hplaced
      rw [started] at hstart
      split_ifs at hstart
      exact ⟨t, ht.trans (Prod.mk.inj (Option.some.inj hstart)).1⟩
    | _ => exact absurd hstart (Option.some_ne_none _).symm

theorem Follows.call_stays (hcode : trampoline ≠ label) (h : L.Follows label s a) {c : SchedCall}
    (ret : UInt64) (hadm : Admissible s.session c) (hplaced : L.Placed c)
    (hsame : (schedStep trampoline s.loaded c).1.world.sched.current = s.current) :
    L.Follows label (s.next label trampoline (.call c ret))
      (a.next trampoline (.call c ret)) := by
  have hafter := schedStep_refines trampoline s.loaded a.order c h.loaded hadm
  have hcurrent : (roundRobinStep a.order c).current = a.order.current :=
    (hafter.current.symm.trans hsame).trans h.order.current
  have hleft : a.left (roundRobinStep a.order c) ret = a.registers := if_pos hcurrent
  have hmachine : (s.next label trampoline (.call c ret)).machine =
      s.machine.setMem (preparedMemory s.machine.mem (schedStep trampoline s.loaded c).1 c
        (schedStep trampoline s.loaded c).2) := if_pos hsame
  constructor
  case order => exact hafter
  case live =>
    rw [hmachine, Coroutines.next, hleft, hcurrent]
    refine h.live.trans ?_
    cases hstart : started trampoline c with
    | none => rfl
    | some r =>
      have hne : a.order.current ≠ r.1 := by
        intro heq
        apply started_fresh hadm hstart
        rw [← heq, ← h.order.current]
        exact h.order.current_mem_objects
      exact (Function.update_of_ne hne _ _).symm
  case placed => exact h.placed_edits hadm hplaced
  case parked =>
    intro t ht hne
    rw [hmachine]
    apply h.parked_edits hcode hadm hplaced
    · intro p _
      rw [hleft]
    · exact ht
    · exact fun heq => hne (heq.trans hsame.symm)

theorem Follows.call_switches (hcode : trampoline ≠ label) (h : L.Follows label s a)
    {c : SchedCall} (ret : UInt64) (hadm : Admissible s.session c) (hplaced : L.Placed c)
    (hroom : L.Room s)
    (hother : (schedStep trampoline s.loaded c).1.world.sched.current ≠ s.current) :
    L.Follows label (s.next label trampoline (.call c ret))
      (a.next trampoline (.call c ret)) := by
  have hafter := schedStep_refines trampoline s.loaded a.order c h.loaded hadm
  have hcurrent : (roundRobinStep a.order c).current ≠ a.order.current := by
    rw [← hafter.current, ← h.order.current]
    exact hother
  have hstart : started trampoline c = none := by
    by_contra hne
    obtain ⟨r, hr⟩ := Option.ne_none_iff_exists'.mp hne
    exact hother (h.loaded.current_of_started hadm hr)
  obtain ⟨old, hold⟩ := h.placed _ h.order.current_mem_objects
  obtain ⟨new, hnew⟩ := h.placed_edits hadm hplaced _ hafter.current_mem_objects
  obtain ⟨m', hm'⟩ : ∃ m', (s.next label trampoline (.call c ret)).machine = m' := ⟨_, rfl⟩
  have hswitch : callContextSwitch label (s.machine.setMem (preparedMemory s.machine.mem
      (schedStep trampoline s.loaded c).1 c (schedStep trampoline s.loaded c).2)) (L.record old)
      (L.record new) ret = m' := by
    rw [← hm', record, record, hold, hnew]
    exact (if_neg hother).symm
  obtain ⟨houtside, hparked, hview⟩ :=
    callContextSwitch_spec new ret hswitch hroom.1 (hroom.2 old hold)
  have hleft : (a.next trampoline (.call c ret)).registers =
      Function.update a.registers a.order.current
        { a.registers a.order.current with rip := ret } := by
    rw [Coroutines.next, hstart]
    exact if_neg hcurrent
  have hkept : ∀ p, p ≠ s.current →
      (a.next trampoline (.call c ret)).registers p = a.registers p := by
    intro p hp
    rw [hleft, ← h.order.current]
    exact Function.update_of_ne hp _ _
  -- The caller of the switch is parked by the switch, and the others were parked before it.
  have hothers : ∀ t, L.object t ∈ (schedStep trampoline s.loaded c).1.objects →
      L.object t ≠ s.current →
      L.Parked label m'.mem t ((a.next trampoline (.call c ret)).registers (L.object t)) := by
    intro t ht hne
    have hedits := h.parked_edits hcode hadm hplaced hkept ht hne
    rw [hstart] at hedits
    apply hedits.congr
    intro x hx
    exact houtside x (notMem_owned (fun heq => hne ((congrArg L.object heq).trans hold)) hx)
  constructor
  case order => exact hafter
  case live =>
    rw [hm', hview, (hothers new (hnew ▸ hafter.current_mem_objects) (hnew ▸ hother)).goesOn, hnew]
    exact congrArg _ hafter.current
  case placed => exact h.placed_edits hadm hplaced
  case parked =>
    intro t ht hne
    rw [hm']
    by_cases hcaller : L.object t = s.current
    · rw [object_injective L (hcaller.trans hold.symm), hold, hleft, h.order.current,
        Function.update_self, ← h.live]
      exact hparked
    · exact hothers t ht hcaller

theorem Follows.call (hcode : trampoline ≠ label) (h : L.Follows label s a) {c : SchedCall}
    {ret : UInt64} (hallowed : L.Allowed s (.call c ret)) :
    L.Follows label (s.next label trampoline (.call c ret))
      (a.next trampoline (.call c ret)) := by
  obtain ⟨hadm, hplaced, hroom⟩ := hallowed
  by_cases hsame : (schedStep trampoline s.loaded c).1.world.sched.current = s.current
  · exact h.call_stays hcode ret hadm hplaced hsame
  · exact h.call_switches hcode ret hadm hplaced hroom hsame

theorem follows_boot (L : ThreadLayout ι) (w : World) (m : Machine Reg) {bootThread : ι}
    (hnull : L.object bootThread ≠ 0) :
    L.Follows label (ThreadKernel.boot w m (L.object bootThread))
      (Coroutines.boot m (L.object bootThread)) := by
  have horder := refines_boot w hnull
  have hobjects : ∀ p ∈ (bootSession w (L.object bootThread)).objects,
      p = L.object bootThread := by
    intro p hp
    rw [Session.objects, horder.idle] at hp
    exact List.mem_singleton.mp hp
  constructor
  case order => exact horder
  case live => rfl
  case placed => exact fun p hp => ⟨bootThread, (hobjects p hp).symm⟩
  case parked => exact fun t ht hne => absurd ((hobjects _ ht).trans horder.current.symm) hne

theorem Follows.step (hcode : trampoline ≠ label) (h : L.Follows label s a) {e : ThreadEvent}
    (hallowed : L.Allowed s e) :
    L.Follows label (s.next label trampoline e) (a.next trampoline e) := by
  cases e with
  | work m => exact h.work hallowed
  | call c ret => exact h.call hcode hallowed

/-- In every run the machine shows, step by step, the thread and the registers of the
coroutines. -/
theorem threads_refine_coroutines (L : ThreadLayout ι) (hcode : trampoline ≠ label) (w : World)
    (m : Machine Reg) {bootThread : ι}
    (hinit : (mcsosSchedulerInit w (L.object bootThread)).1 = .ok) {events : List ThreadEvent}
    (hallowed : AlongTotal (ThreadKernel.step label trampoline) L.Allowed
      (ThreadKernel.boot w m (L.object bootThread)) events) :
    (runTotal (ThreadKernel.step label trampoline) (ThreadKernel.boot w m (L.object bootThread))
        events).2 =
      (runTotal (Coroutines.step trampoline) (Coroutines.boot m (L.object bootThread))
        events).2 := by
  have hstep : ∀ s a e, L.Follows label s a → L.Allowed s e →
      (s.step label trampoline e).2 = (a.step trampoline e).2 ∧
        L.Follows label (s.step label trampoline e).1 (a.step trampoline e).1 :=
    fun s a e h he => ⟨(h.step hcode he).shown, h.step hcode he⟩
  exact (runTotal_lockstep (L.Follows label) L.Allowed hstep
    (follows_boot L w m (boot_ne_null hinit)) hallowed).1

/-- `mcsos_thread_trampoline` is a loop around `hlt`: in its code a thread calls nothing and
stays there. -/
def Halting (code : Set UInt64) (s : ThreadKernel) : ThreadEvent → Prop
  | .work m => s.machine.rip ∈ code → m.rip ∈ code
  | .call _ _ => s.machine.rip ∉ code

structure InTrampoline (L : ThreadLayout ι) (label : UInt64) (code : Set UInt64)
    (bootThread : UInt64) (s : ThreadKernel) (a : Coroutines) : Prop where
  follows : L.Follows label s a
  idle : s.session.world.sched.idle = bootThread
  threads : ∀ p ∈ s.session.objects, p ≠ bootThread → (a.registers p).rip ∈ code

section Trampoline

variable {code : Set UInt64} {bootThread : UInt64}

theorem InTrampoline.running (h : InTrampoline L label code bootThread s a)
    (hne : s.current ≠ bootThread) : s.machine.rip ∈ code := by
  have hthread := h.threads s.current h.follows.order.current_mem_objects hne
  rw [h.follows.current, ← h.follows.live] at hthread
  exact hthread

theorem InTrampoline.step (hcode : trampoline ≠ label) (hstart : trampoline ∈ code)
    (h : InTrampoline L label code bootThread s a) {e : ThreadEvent} (hallowed : L.Allowed s e)
    (hhalting : Halting code s e) :
    InTrampoline L label code bootThread (s.next label trampoline e) (a.next trampoline e) ∧
      (s.current ≠ bootThread → (s.next label trampoline e).current = s.current) := by
  have hfollows := h.follows.step hcode hallowed
  cases e with
  | work m =>
    refine ⟨⟨hfollows, h.idle, ?_⟩, fun _ => rfl⟩
    intro p hp hne
    change (Function.update a.registers a.order.current (view m) p).rip ∈ code
    rw [Function.update_apply, ← h.follows.current]
    split_ifs with heq
    · exact hhalting (h.running (heq ▸ hne))
    · exact h.threads p hp hne
  | call c ret =>
    have hboot : s.current = bootThread := by
      by_contra hne
      exact hhalting (h.running hne)
    refine ⟨⟨hfollows, (h.follows.loaded.idle_kept trampoline hallowed.1).trans h.idle, ?_⟩,
      fun hne => absurd hboot hne⟩
    intro p hp hne
    rcases (h.follows.loaded.mem_objects_step trampoline hallowed.1 p).mp hp with
      hin | ⟨context, hnew⟩
    · have hother : p ≠ a.order.current := by
        rw [← h.follows.current, hboot]
        exact hne
      rw [Coroutines.registers_call_old ret hother
        (fun context hnew => started_fresh hallowed.1 hnew hin)]
      exact h.threads p hin hne
    · rw [a.registers_call_new ret hnew, started_rip hnew]
      exact hstart

theorem InTrampoline.run (hcode : trampoline ≠ label) (hstart : trampoline ∈ code)
    (h : InTrampoline L label code bootThread s a) {events : List ThreadEvent}
    (hallowed : AlongTotal (ThreadKernel.step label trampoline)
      (fun s e => L.Allowed s e ∧ Halting code s e) s events) :
    let shown := (runTotal (ThreadKernel.step label trampoline) s events).2
    (∀ r ∈ shown, r.1 ≠ bootThread → r.2.rip ∈ code) ∧
      (s.current ≠ bootThread → ∀ r ∈ shown, r.1 = s.current) ∧
      shown.Pairwise (fun r r' => r.1 ≠ bootThread → r'.1 = r.1) := by
  induction events generalizing s a with
  | nil => exact ⟨by simp [runTotal], by simp [runTotal], List.Pairwise.nil⟩
  | cons e events ih =>
    obtain ⟨hnext, hstays⟩ := h.step hcode hstart hallowed.1.1 hallowed.1.2
    obtain ⟨hcodes, hsame, hpairs⟩ := ih hnext hallowed.2
    refine ⟨?_, ?_, ?_⟩
    · intro r hr hne
      rcases List.mem_cons.mp hr with rfl | hr
      · exact hnext.running hne
      · exact hcodes r hr hne
    · intro hne r hr
      have hcurrent := hstays hne
      rcases List.mem_cons.mp hr with rfl | hr
      · exact hcurrent
      · exact (hsame (hcurrent ▸ hne) r hr).trans hcurrent
    · exact List.pairwise_cons.mpr ⟨fun r hr hne => hsame hne r hr, hpairs⟩

end Trampoline

/-- A prepared thread never gets to its entry: whenever a thread other than the boot thread runs,
it is in the trampoline, and it runs for ever. So there is at most one switch. -/
theorem prepared_threads_only_halt (L : ThreadLayout ι) (hcode : trampoline ≠ label) (w : World)
    (m : Machine Reg) {bootThread : ι}
    (hinit : (mcsosSchedulerInit w (L.object bootThread)).1 = .ok) {code : Set UInt64}
    (hstart : trampoline ∈ code) {events : List ThreadEvent}
    (hallowed : AlongTotal (ThreadKernel.step label trampoline)
      (fun s e => L.Allowed s e ∧ Halting code s e)
      (ThreadKernel.boot w m (L.object bootThread)) events) :
    let shown := (runTotal (ThreadKernel.step label trampoline)
      (ThreadKernel.boot w m (L.object bootThread)) events).2
    (∀ r ∈ shown, r.1 ≠ L.object bootThread → r.2.rip ∈ code) ∧
      shown.Pairwise (fun r r' => r.1 ≠ L.object bootThread → r'.1 = r.1) := by
  intro shown
  have hboot : InTrampoline L label code (L.object bootThread)
      (ThreadKernel.boot w m (L.object bootThread)) (Coroutines.boot m (L.object bootThread)) := by
    have hnull := boot_ne_null hinit
    have hobjects := (refines_boot w hnull).idle
    refine ⟨follows_boot L w m hnull, hobjects, fun p hp hne => ?_⟩
    change p ∈ (bootSession w (L.object bootThread)).objects at hp
    rw [Session.objects, hobjects] at hp
    exact absurd (List.mem_singleton.mp hp) hne
  obtain ⟨hcodes, -, hpairs⟩ := hboot.run hcode hstart hallowed
  exact ⟨hcodes, hpairs⟩

end ThreadLayout

theorem twoThreads_allowed_call {s : ThreadKernel} {c : SchedCall} {ret : UInt64} (top : UInt64)
    (hadm : Admissible s.session c) (hplaced : twoThreads.Placed c)
    (hrsp : s.machine.regs .rsp = top)
    (hstack : (s.current = 0x1000 ∧ 0x4008 ≤ top.toNat ∧ top.toNat ≤ 0x6000) ∨
      (s.current = 0x2000 ∧ 0x8008 ≤ top.toNat ∧ top.toNat ≤ 0x9000)) :
    twoThreads.Allowed s (.call c ret) := by
  refine ⟨hadm, hplaced, ?_⟩
  rw [ThreadLayout.Room, hrsp]
  have hroom : 8 ≤ top.toNat := by omega
  refine ⟨hroom, fun t ht x hx hx' => ?_⟩
  cases t with
  | false =>
    have hboot : s.current = 0x1000 := ht.symm
    rw [hboot] at hstack
    have hrange : 0x4008 ≤ top.toNat ∧ top.toNat ≤ 0x6000 := by
      rcases hstack with h | h
      · exact h.2
      · exact absurd h.1 (by decide)
    exact ⟨⟨by omega, by omega⟩, fun hin => absurd hin.2 (not_lt.mpr (le_trans
      (by decide : (0x1060 : ℕ) ≤ 0x4000) (by omega)))⟩
  | true =>
    have hboot : s.current = 0x2000 := ht.symm
    rw [hboot] at hstack
    have hrange : 0x8008 ≤ top.toNat ∧ top.toNat ≤ 0x9000 := by
      rcases hstack with h | h
      · exact absurd h.1 (by decide)
      · exact h.2
    exact ⟨⟨by omega, by omega⟩, fun hin => absurd hin.2 (not_lt.mpr (le_trans
      (by decide : (0x2060 : ℕ) ≤ 0x8000) (by omega)))⟩

def twoThreadsBoot : ThreadKernel := ThreadKernel.boot blankWorld bootMachine 0x1000

def startThread : List ThreadEvent :=
  [.call (.prepare 0x2000 "a" 0x200 0 0x8000 0x1000 1) 0x500, .call (.enqueue 0x2000) 0x500,
    .call .yield 0x500]

def thereAndBack : List ThreadEvent :=
  startThread ++
    [.work ((runTotal (ThreadKernel.step 0x300 0x100) twoThreadsBoot startThread).1.machine.setReg
      .rbx 7), .call .yield 0x600]

theorem twoThreads_allowed_start :
    AlongTotal (ThreadKernel.step 0x300 0x100) twoThreads.Allowed twoThreadsBoot startThread := by
  refine ⟨?_, ?_, ?_, trivial⟩
  · exact twoThreads_allowed_call 0x6000 (by decide +kernel)
      ⟨true, rfl, fun x hx hx' => ⟨hx, hx'⟩⟩ (by decide +kernel) (Or.inl (by decide +kernel))
  · exact twoThreads_allowed_call 0x6000 (by decide +kernel) trivial (by decide +kernel)
      (Or.inl (by decide +kernel))
  · exact twoThreads_allowed_call 0x6000 trivial trivial (by decide +kernel)
      (Or.inl (by decide +kernel))

theorem twoThreads_init : (mcsosSchedulerInit blankWorld (twoThreads.object false)).1 = .ok := by
  decide

theorem threads_refine_coroutines_sample :
    (runTotal (ThreadKernel.step 0x300 0x100) twoThreadsBoot thereAndBack).2 =
      (runTotal (Coroutines.step 0x100) (Coroutines.boot bootMachine 0x1000) thereAndBack).2 :=
  ThreadLayout.threads_refine_coroutines twoThreads (by decide) blankWorld bootMachine
    twoThreads_init
    (AlongTotal.append.mpr ⟨twoThreads_allowed_start, fun _ _ _ _ _ => rfl,
      twoThreads_allowed_call 0x8FF8 trivial trivial (by decide +kernel)
        (Or.inr (by decide +kernel)), trivial⟩)

theorem prepared_threads_only_halt_sample :
    let shown := (runTotal (ThreadKernel.step 0x300 0x100) twoThreadsBoot startThread).2
    (∀ r ∈ shown, r.1 ≠ 0x1000 → r.2.rip = 0x100) ∧
      shown.Pairwise (fun r r' => r.1 ≠ 0x1000 → r'.1 = r.1) := by
  obtain ⟨hprepare, henqueue, hyield, -⟩ := twoThreads_allowed_start
  have hboot : (0 : UInt64) ∉ ({0x100} : Set UInt64) := by
    rw [Set.mem_singleton_iff]
    decide
  exact ThreadLayout.prepared_threads_only_halt twoThreads (by decide) blankWorld bootMachine
    twoThreads_init (Set.mem_singleton 0x100)
    ⟨⟨hprepare, hboot⟩, ⟨henqueue, hboot⟩, ⟨hyield, hboot⟩, trivial⟩

end Mcsos.Sched
