import Mcsos.SchedHistory

/-!
# The counters of the scheduler

The scheduler counts ticks and context switches, for itself and for every thread. Over every
session the counters say what happened: how many ticks there were and during which thread, how
often the current thread changed and which threads were concerned. The parity of a thread's
switches tells whether it is current.
-/

namespace Mcsos.Sched
open StepRun

def World.ticksOf (w : World) (p : UInt64) : UInt64 := (w.threads p).ticks
def World.switchesOf (w : World) (p : UInt64) : UInt64 := (w.threads p).switches

structure Quiet (w w' : World) : Prop where
  ticksOf : w'.ticksOf = w.ticksOf
  switchesOf : w'.switchesOf = w.switchesOf
  ticks : w'.sched.ticks = w.sched.ticks
  contextSwitches : w'.sched.contextSwitches = w.sched.contextSwitches
  current : w'.sched.current = w.sched.current
  idle : w'.sched.idle = w.sched.idle

structure Switched (w w' : World) (next : UInt64) : Prop where
  changed : next ≠ w.sched.current
  ticksOf : w'.ticksOf = w.ticksOf
  switchesOf : ∀ t, w'.switchesOf t =
    if t = w.sched.current ∨ t = next then w.switchesOf t + 1 else w.switchesOf t
  ticks : w'.sched.ticks = w.sched.ticks
  contextSwitches : w'.sched.contextSwitches = w.sched.contextSwitches + 1
  current : w'.sched.current = next
  idle : w'.sched.idle = w.sched.idle

structure Ticked (w w' : World) : Prop where
  ticksOf : ∀ t, w'.ticksOf t =
    if t = w.sched.current then w.ticksOf t + 1 else w.ticksOf t
  switchesOf : w'.switchesOf = w.switchesOf
  ticks : w'.sched.ticks = w.sched.ticks + 1
  contextSwitches : w'.sched.contextSwitches = w.sched.contextSwitches
  current : w'.sched.current = w.sched.current
  idle : w'.sched.idle = w.sched.idle

theorem Quiet.refl (w : World) : Quiet w w := ⟨rfl, rfl, rfl, rfl, rfl, rfl⟩

theorem Quiet.trans {w w' w'' : World} (h : Quiet w w') (h' : Quiet w' w'') : Quiet w w'' where
  ticksOf := h'.ticksOf.trans h.ticksOf
  switchesOf := h'.switchesOf.trans h.switchesOf
  ticks := h'.ticks.trans h.ticks
  contextSwitches := h'.contextSwitches.trans h.contextSwitches
  current := h'.current.trans h.current
  idle := h'.idle.trans h.idle

theorem Quiet.switched {w w' w'' : World} {next : UInt64} (h : Quiet w w')
    (h' : Switched w' w'' next) : Switched w w'' next where
  changed := h.current ▸ h'.changed
  ticksOf := h'.ticksOf.trans h.ticksOf
  switchesOf := by
    intro t
    rw [h'.switchesOf, h.switchesOf, h.current]
  ticks := h'.ticks.trans h.ticks
  contextSwitches := by rw [h'.contextSwitches, h.contextSwitches]
  current := h'.current
  idle := h'.idle.trans h.idle

section Edits

variable (w : World)

theorem ticksOf_setThread (p : UInt64) (t : Thread) :
    (w.setThread p t).ticksOf = Function.update w.ticksOf p t.ticks := by
  funext q
  simp only [World.ticksOf, World.setThread, Function.update_apply, apply_ite Thread.ticks]

theorem switchesOf_setThread (p : UInt64) (t : Thread) :
    (w.setThread p t).switchesOf = Function.update w.switchesOf p t.switches := by
  funext q
  simp only [World.switchesOf, World.setThread, Function.update_apply, apply_ite Thread.switches]

theorem quiet_setThread (p : UInt64) {t : Thread} (hticks : t.ticks = w.ticksOf p)
    (hswitches : t.switches = w.switchesOf p) : Quiet w (w.setThread p t) where
  ticksOf := by rw [ticksOf_setThread, hticks, Function.update_eq_self]
  switchesOf := by rw [switchesOf_setThread, hswitches, Function.update_eq_self]
  ticks := rfl
  contextSwitches := rfl
  current := rfl
  idle := rfl

theorem quiet_setState (p : UInt64) (state : ThreadState) : Quiet w (w.setState p state) :=
  quiet_setThread w p rfl rfl

theorem quiet_setNext (p next : UInt64) : Quiet w (w.setNext p next) :=
  quiet_setThread w p rfl rfl

theorem quiet_linkTail (thread : UInt64) : Quiet w (linkTail w thread) := by
  rw [linkTail]
  split_ifs
  · exact ⟨rfl, rfl, rfl, rfl, rfl, rfl⟩
  · exact (quiet_setNext w w.sched.readyTail thread).trans ⟨rfl, rfl, rfl, rfl, rfl, rfl⟩

theorem quiet_appendReady (thread : UInt64) : Quiet w (appendReady w thread) :=
  (((quiet_setState w thread .ready).trans (quiet_setNext _ thread 0)).trans
    (quiet_linkTail _ thread)).trans ⟨rfl, rfl, rfl, rfl, rfl, rfl⟩

theorem quiet_enqueue (thread : UInt64) : Quiet w (mcsosSchedEnqueue w thread).2 := by
  rw [mcsosSchedEnqueue]
  split_ifs
  · exact Quiet.refl w
  · exact Quiet.refl w
  · exact quiet_appendReady w thread

theorem quiet_pickNext : Quiet w (mcsosSchedPickNext w).2 := by
  rw [mcsosSchedPickNext]
  split_ifs
  · exact Quiet.refl w
  · exact Quiet.refl w
  · exact (quiet_setNext w w.sched.readyHead 0).trans ⟨rfl, rfl, rfl, rfl, rfl, rfl⟩

theorem quiet_requeueOld (old : UInt64) : Quiet w (requeueOld w old).2 := by
  rw [requeueOld]
  split_ifs
  · exact (quiet_setState w old .ready).trans (quiet_enqueue _ old)
  · exact Quiet.refl w

theorem ticksOf_addSwitch (p : UInt64) : (w.addSwitch p).ticksOf = w.ticksOf := by
  rw [World.addSwitch, ticksOf_setThread]
  exact Function.update_eq_self p w.ticksOf

theorem switchesOf_addSwitch (p : UInt64) :
    (w.addSwitch p).switchesOf = Function.update w.switchesOf p (w.switchesOf p + 1) := by
  rw [World.addSwitch, switchesOf_setThread]
  rfl

theorem switched_switchTo {next : UInt64} (hne : next ≠ w.sched.current) :
    Switched w (switchTo w w.sched.current next) next := by
  have hstate := quiet_setState w next .running
  constructor
  case changed => exact hne
  case ticksOf =>
    change (((w.setState next .running).setSched _).addSwitch w.sched.current |>.addSwitch
      next).ticksOf = w.ticksOf
    rw [ticksOf_addSwitch, ticksOf_addSwitch]
    exact hstate.ticksOf
  case switchesOf =>
    intro t
    have hkept : ((w.setState next .running).setSched
        { w.sched with current := next }).switchesOf = w.switchesOf := hstate.switchesOf
    change (((w.setState next .running).setSched { w.sched with current := next }).addSwitch
      w.sched.current |>.addSwitch next).switchesOf t = _
    rw [switchesOf_addSwitch, switchesOf_addSwitch, hkept, Function.update_of_ne hne]
    simp only [Function.update_apply]
    by_cases hnext : t = next
    · simp [hnext]
    · simp only [hnext, if_false, or_false]
      split_ifs with hcurrent
      · rw [hcurrent]
      · rfl
  case ticks => rfl
  case contextSwitches => rfl
  case current => rfl
  case idle => rfl

theorem yield_meters :
    Quiet w (mcsosSchedYield w).2 ∨ ∃ next, Switched w (mcsosSchedYield w).2 next := by
  have hpick := quiet_pickNext w
  rw [mcsosSchedYield]
  split_ifs with hguard
  · exact Or.inl (Quiet.refl w)
  · generalize mcsosSchedPickNext w = r at hpick
    obtain ⟨next, w₁⟩ := r
    have hrequeue := hpick.trans (quiet_requeueOld w₁ w.sched.current)
    dsimp only at hpick hrequeue ⊢
    split_ifs with hcorrupt hsame hrc
    · exact Or.inl hpick
    · exact Or.inl (hpick.trans (quiet_setState w₁ _ _))
    · exact Or.inl hrequeue
    · refine Or.inr ⟨next, hrequeue.switched ?_⟩
      rw [← hrequeue.current] at hsame
      have hswitch := switched_switchTo (requeueOld w₁ w.sched.current).2 hsame
      rw [hrequeue.current] at hswitch
      exact hswitch

theorem blockCurrent_meters :
    Quiet w (mcsosThreadBlockCurrent w).2 ∨
      ∃ next, Switched w (mcsosThreadBlockCurrent w).2 next := by
  rw [mcsosThreadBlockCurrent]
  split_ifs
  · exact Or.inl (Quiet.refl w)
  · exact Or.inl (Quiet.refl w)
  · have hblocked := quiet_setState w w.sched.current .blocked
    rcases yield_meters (w.setState w.sched.current .blocked) with hquiet | ⟨next, hswitched⟩
    · exact Or.inl (hblocked.trans hquiet)
    · exact Or.inr ⟨next, hblocked.switched hswitched⟩

theorem quiet_markReady (thread : UInt64) : Quiet w (mcsosThreadMarkReady w thread).2 := by
  rw [mcsosThreadMarkReady]
  split_ifs
  · exact Quiet.refl w
  · exact Quiet.refl w
  · exact quiet_enqueue w thread

end Edits

def Session.meter (s : Session) (counter : World → UInt64 → UInt64) (t : UInt64) : ℕ :=
  if t ∈ s.objects then (counter s.world t).toNat else 0

def SchedCall.isTick : SchedCall → Bool
  | .tick => true
  | _ => false

section Tests

variable (trampoline : UInt64)

def changesCurrent (s : Session) (c : SchedCall) : Bool :=
  (schedStep trampoline s c).1.world.sched.current != s.world.sched.current

def concerns (t : UInt64) (s : Session) (c : SchedCall) : Bool :=
  changesCurrent trampoline s c &&
    (t == s.world.sched.current || t == (schedStep trampoline s c).1.world.sched.current)

def ticksDuring (t : UInt64) (s : Session) (c : SchedCall) : Bool :=
  c.isTick && t == s.world.sched.current

end Tests

inductive Metered (s s' : Session) (c : SchedCall) : Prop
  | quiet (hcall : c.isTick = false) (hobjects : s'.objects = s.objects)
      (h : Quiet s.world s'.world)
  | ticked (hcall : c.isTick = true) (hobjects : s'.objects = s.objects)
      (h : Ticked s.world s'.world)
  | switched (hcall : c.isTick = false) (hobjects : s'.objects = s.objects) (next : UInt64)
      (h : Switched s.world s'.world next)
  | prepared (hcall : c.isTick = false) (t : UInt64) (hnew : t ∉ s.objects)
      (hobjects : ∀ p, p ∈ s'.objects ↔ p = t ∨ p ∈ s.objects)
      (hticks : s'.world.ticksOf = Function.update s.world.ticksOf t 0)
      (hswitches : s'.world.switchesOf = Function.update s.world.switchesOf t 0)
      (hsched : s'.world.sched = s.world.sched)

section Steps

variable {s : Session} {a : RoundRobin UInt64} (trampoline : UInt64)

theorem ticked_tick {w : World}
    (hguard : ¬ (w.sched.initialized = 0 ∨ validThreadObject w w.sched.current = false)) :
    Ticked w (mcsosSchedTick w).2 := by
  rw [mcsosSchedTick, if_neg hguard]
  constructor
  case ticksOf =>
    intro t
    rw [World.addTick, ticksOf_setThread, Function.update_apply]
    split_ifs with hcurrent
    · rw [hcurrent]
      rfl
    · rfl
  case switchesOf =>
    rw [World.addTick, switchesOf_setThread]
    exact Function.update_eq_self _ w.switchesOf
  case ticks => rfl
  case contextSwitches => rfl
  case current => rfl
  case idle => rfl

theorem prepare_metered (thread : UInt64) (name : String)
    (entry arg stackBase stackSize id : UInt64) (hadm : thread ∉ s.objects) :
    Metered s
      (schedStep trampoline s (.prepare thread name entry arg stackBase stackSize id)).1
      (.prepare thread name entry arg stackBase stackSize id) := by
  by_cases haccepts : PrepareAccepts thread entry stackBase stackSize
  · have hcall := mcsosThreadPrepare_of_accepts trampoline s.world name arg id haccepts
    simp only [schedStep, schedCall, notePrepared, hcall, if_true]
    refine .prepared rfl thread hadm ?_ (ticksOf_setThread _ _ _) (switchesOf_setThread _ _ _) rfl
    intro p
    simp only [Session.objects, List.mem_cons]
    exact or_left_comm
  · obtain ⟨r, hcall, hr⟩ :=
      mcsosThreadPrepare_of_not_accepts trampoline s.world name arg id haccepts
    simp only [schedStep, schedCall, notePrepared, hcall, if_neg hr]
    exact .quiet rfl rfl (Quiet.refl s.world)

theorem Refines.metered (h : Refines s a) {c : SchedCall} (hadm : Admissible s c) :
    Metered s (schedStep trampoline s c).1 c := by
  have hobjects {w' : World} (hidle : w'.sched.idle = s.world.sched.idle) :
      ({ s with world := w' } : Session).objects = s.objects :=
    congrArg (· :: s.prepared) hidle
  cases c with
  | prepare thread name entry arg stackBase stackSize id =>
    exact prepare_metered trampoline thread name entry arg stackBase stackSize id hadm
  | enqueue thread =>
    have hquiet := quiet_enqueue s.world thread
    exact .quiet rfl (hobjects hquiet.idle) hquiet
  | yield =>
    rcases yield_meters s.world with hquiet | ⟨next, hswitched⟩
    · exact .quiet rfl (hobjects hquiet.idle) hquiet
    · exact .switched rfl (hobjects hswitched.idle) next hswitched
  | blockCurrent =>
    rcases blockCurrent_meters s.world with hquiet | ⟨next, hswitched⟩
    · exact .quiet rfl (hobjects hquiet.idle) hquiet
    · exact .switched rfl (hobjects hswitched.idle) next hswitched
  | markReady thread =>
    have hquiet := quiet_markReady s.world thread
    exact .quiet rfl (hobjects hquiet.idle) hquiet
  | tick =>
    have hticked := ticked_tick h.guard
    exact .ticked rfl (hobjects hticked.idle) hticked

theorem toNat_counted {x y : UInt64} {b : Bool} (h : y = if b then x + 1 else x) :
    y.toNat = (x.toNat + b.toNat) % 2 ^ 64 := by
  cases b with
  | false => rw [h, if_neg Bool.false_ne_true, Bool.toNat_false, add_zero,
      Nat.mod_eq_of_lt x.toNat_lt]
  | true => rw [h, if_pos rfl, UInt64.toNat_add]; rfl

theorem Session.meter_lt (s : Session) (counter : World → UInt64 → UInt64) (t : UInt64) :
    s.meter counter t < 2 ^ 64 := by
  rw [Session.meter]
  split_ifs
  · exact UInt64.toNat_lt _
  · exact Nat.two_pow_pos 64

theorem Session.meter_counted {s' : Session} {counter : World → UInt64 → UInt64} {t : UInt64}
    {b : Bool} (hobjects : s'.objects = s.objects) (hfalse : t ∉ s.objects → b = false)
    (hcounter : counter s'.world t =
      if b then counter s.world t + 1 else counter s.world t) :
    s'.meter counter t = (s.meter counter t + b.toNat) % 2 ^ 64 := by
  rw [Session.meter, Session.meter, hobjects]
  split_ifs with ht
  · exact toNat_counted hcounter
  · rw [hfalse ht]
    rfl

theorem Session.meter_prepared {s' : Session} {counter : World → UInt64 → UInt64}
    {p : UInt64} (hnew : p ∉ s.objects) (hobjects : ∀ q, q ∈ s'.objects ↔ q = p ∨ q ∈ s.objects)
    (hcounter : counter s'.world = Function.update (counter s.world) p 0) (t : UInt64) :
    s'.meter counter t = s.meter counter t := by
  rw [Session.meter, Session.meter, hcounter]
  by_cases ht : t = p
  · rw [ht, if_pos ((hobjects p).mpr (Or.inl rfl)), if_neg hnew, Function.update_self]
    rfl
  · simp only [hobjects, ht, false_or, Function.update_of_ne ht]

theorem Refines.current_mem_objects (h : Refines s a) : s.world.sched.current ∈ s.objects :=
  (h.mem_objects _).mpr h.current_mem

variable {c : SchedCall}

theorem Refines.count_ticks (h : Refines s a) (hadm : Admissible s c) :
    (schedStep trampoline s c).1.world.sched.ticks.toNat =
      (s.world.sched.ticks.toNat + c.isTick.toNat) % 2 ^ 64 := by
  apply toNat_counted
  rcases h.metered trampoline hadm with ⟨hcall, -, hstep⟩ | ⟨hcall, -, hstep⟩ |
    ⟨hcall, -, next, hstep⟩ | ⟨hcall, p, -, -, -, -, hsched⟩
  · rw [hcall, hstep.ticks]
    rfl
  · rw [hcall, hstep.ticks]
    rfl
  · rw [hcall, hstep.ticks]
    rfl
  · rw [hcall, hsched]
    rfl

theorem Refines.count_contextSwitches (h : Refines s a) (hadm : Admissible s c) :
    (schedStep trampoline s c).1.world.sched.contextSwitches.toNat =
      (s.world.sched.contextSwitches.toNat + (changesCurrent trampoline s c).toNat) % 2 ^ 64 := by
  apply toNat_counted
  rw [changesCurrent]
  rcases h.metered trampoline hadm with ⟨-, -, hstep⟩ | ⟨-, -, hstep⟩ |
    ⟨-, -, next, hstep⟩ | ⟨-, p, -, -, -, -, hsched⟩
  · rw [hstep.contextSwitches, hstep.current, bne_self_eq_false]
    rfl
  · rw [hstep.contextSwitches, hstep.current, bne_self_eq_false]
    rfl
  · rw [hstep.contextSwitches, hstep.current, bne_iff_ne.mpr hstep.changed]
    rfl
  · rw [hsched, bne_self_eq_false]
    rfl

theorem Refines.count_ticksOf (h : Refines s a) (hadm : Admissible s c) (t : UInt64) :
    (schedStep trampoline s c).1.meter World.ticksOf t =
      (s.meter World.ticksOf t + (ticksDuring t s c).toNat) % 2 ^ 64 := by
  have hquiet (hcall : c.isTick = false) : ticksDuring t s c = false := by
    rw [ticksDuring, hcall, Bool.false_and]
  rcases h.metered trampoline hadm with ⟨hcall, hobjects, hstep⟩ | ⟨hcall, hobjects, hstep⟩ |
    ⟨hcall, hobjects, next, hstep⟩ | ⟨hcall, p, hnew, hobjects, hticks, -, -⟩
  · apply Session.meter_counted hobjects (fun _ => hquiet hcall)
    rw [hquiet hcall, hstep.ticksOf]
    rfl
  · apply Session.meter_counted hobjects
    · intro ht
      have hne : t ≠ s.world.sched.current := fun heq => ht (heq ▸ h.current_mem_objects)
      rw [ticksDuring, beq_false_of_ne hne, Bool.and_false]
    · rw [hstep.ticksOf, ticksDuring, hcall, Bool.true_and]
      simp only [beq_iff_eq]
  · apply Session.meter_counted hobjects (fun _ => hquiet hcall)
    rw [hquiet hcall, hstep.ticksOf]
    rfl
  · rw [hquiet hcall, Session.meter_prepared hnew hobjects hticks]
    exact (Nat.mod_eq_of_lt (s.meter_lt World.ticksOf t)).symm

theorem Refines.count_switchesOf (h : Refines s a) (hadm : Admissible s c) (t : UInt64) :
    (schedStep trampoline s c).1.meter World.switchesOf t =
      (s.meter World.switchesOf t + (concerns trampoline t s c).toNat) % 2 ^ 64 := by
  have hquiet (hsame : (schedStep trampoline s c).1.world.sched.current =
      s.world.sched.current) : concerns trampoline t s c = false := by
    rw [concerns, changesCurrent, hsame, bne_self_eq_false, Bool.false_and]
  have hafter := schedStep_refines trampoline s a c h hadm
  rcases h.metered trampoline hadm with ⟨-, hobjects, hstep⟩ | ⟨-, hobjects, hstep⟩ |
    ⟨-, hobjects, next, hstep⟩ | ⟨-, p, hnew, hobjects, -, hswitches, hsched⟩
  · apply Session.meter_counted hobjects (fun _ => hquiet hstep.current)
    rw [hquiet hstep.current, hstep.switchesOf]
    rfl
  · apply Session.meter_counted hobjects (fun _ => hquiet hstep.current)
    rw [hquiet hstep.current, hstep.switchesOf]
    rfl
  · have hconcerns : concerns trampoline t s c =
        (t == s.world.sched.current || t == next) := by
      rw [concerns, changesCurrent, hstep.current, bne_iff_ne.mpr hstep.changed, Bool.true_and]
    rw [hconcerns]
    apply Session.meter_counted hobjects
    · intro ht
      have hcurrent : t ≠ s.world.sched.current := fun heq => ht (heq ▸ h.current_mem_objects)
      have hnext : t ≠ next := by
        intro heq
        apply ht
        rw [← hobjects, heq, ← hstep.current]
        exact hafter.current_mem_objects
      rw [beq_false_of_ne hcurrent, beq_false_of_ne hnext, Bool.or_false]
    · rw [hstep.switchesOf]
      simp only [Bool.or_eq_true, beq_iff_eq]
  · rw [hquiet (by rw [hsched]), Session.meter_prepared hnew hobjects hswitches]
    exact (Nat.mod_eq_of_lt (s.meter_lt World.switchesOf t)).symm

theorem Refines.idle_kept (h : Refines s a) (hadm : Admissible s c) :
    (schedStep trampoline s c).1.world.sched.idle = s.world.sched.idle := by
  rcases h.metered trampoline hadm with ⟨-, -, hstep⟩ | ⟨-, -, hstep⟩ |
    ⟨-, -, next, hstep⟩ | ⟨-, p, -, -, -, -, hsched⟩
  · exact hstep.idle
  · exact hstep.idle
  · exact hstep.idle
  · rw [hsched]

/-- The switches of a thread are odd exactly while its place, current or not, is not the one it
had at boot. -/
def Session.Parity (s : Session) : Prop :=
  ∀ t, s.meter World.switchesOf t % 2 = 1 ↔
    ¬ (t = s.world.sched.current ↔ t = s.world.sched.idle)

theorem concerns_iff (t : UInt64) (s : Session) (c : SchedCall) :
    concerns trampoline t s c = true ↔ ¬ (t = s.world.sched.current ↔
      t = (schedStep trampoline s c).1.world.sched.current) := by
  rw [concerns, changesCurrent, Bool.and_eq_true, bne_iff_ne, Bool.or_eq_true, beq_iff_eq,
    beq_iff_eq]
  generalize (schedStep trampoline s c).1.world.sched.current = next
  constructor
  · intro h hiff
    obtain ⟨hne, ht | ht⟩ := h
    · exact hne ((hiff.mp ht).symm.trans ht)
    · exact hne (ht.symm.trans (hiff.mpr ht))
  · intro h
    by_cases ht : t = s.world.sched.current
    · exact ⟨fun hne => h (by rw [hne]), Or.inl ht⟩
    · have hnext : t = next := by
        by_contra hnot
        exact h (iff_of_false ht hnot)
      exact ⟨fun hne => ht (hnext.trans hne), Or.inr hnext⟩

theorem parity_toggled {n : ℕ} {b : Bool} {p q q' : Prop} (hb : b = true ↔ ¬ (q ↔ q'))
    (h : n % 2 = 1 ↔ ¬ (q ↔ p)) : (n + b.toNat) % 2 = 1 ↔ ¬ (q' ↔ p) := by
  cases b with
  | false =>
    have hsame : q ↔ q' := not_not.mp (fun hnot => Bool.false_ne_true (hb.mpr hnot))
    rw [Bool.toNat_false, add_zero, h, hsame]
  | true =>
    have hother : q' ↔ ¬ q := by
      have hne := hb.mp rfl
      tauto
    have hflip : (n + 1) % 2 = 1 ↔ ¬ n % 2 = 1 := by omega
    rw [Bool.toNat_true, hflip, h, hother]
    tauto

theorem Refines.parity_step (h : Refines s a) (hadm : Admissible s c) (hparity : s.Parity) :
    (schedStep trampoline s c).1.Parity := by
  intro t
  have hmod : (schedStep trampoline s c).1.meter World.switchesOf t % 2 =
      (s.meter World.switchesOf t + (concerns trampoline t s c).toNat) % 2 := by
    rw [h.count_switchesOf trampoline hadm]
    omega
  rw [hmod, h.idle_kept trampoline hadm]
  exact parity_toggled (concerns_iff trampoline t s c) (hparity t)

end Steps

section Sessions

variable (trampoline : UInt64) (w : World) {bootThread : UInt64}

theorem bootSession_world (hnull : bootThread ≠ 0) : (bootSession w bootThread).world =
    (w.setThread bootThread bootThreadObject).setSched (bootScheduler bootThread) := by
  simp only [bootSession, mcsosSchedulerInit, hnull, if_false]

theorem boot_meters (hnull : bootThread ≠ 0) (t : UInt64) :
    (bootSession w bootThread).meter World.ticksOf t = 0 ∧
      (bootSession w bootThread).meter World.switchesOf t = 0 := by
  have hobjects : (bootSession w bootThread).objects = [bootThread] := by
    rw [Session.objects, bootSession_world w hnull]
    rfl
  have hthread : (bootSession w bootThread).world.threads bootThread = bootThreadObject := by
    rw [bootSession_world w hnull]
    exact Function.update_self ..
  rw [Session.meter, Session.meter, hobjects]
  split_ifs with ht
  · rw [List.mem_singleton.mp ht, World.ticksOf, World.switchesOf, hthread]
    exact ⟨rfl, rfl⟩
  · exact ⟨rfl, rfl⟩

theorem boot_parity (hnull : bootThread ≠ 0) : (bootSession w bootThread).Parity := by
  intro t
  rw [(boot_meters w hnull t).2, bootSession_world w hnull]
  exact iff_of_false (by decide) (not_not.mpr Iff.rfl)

variable {w} {calls : List SchedCall}

theorem boot_counter {counter : Session → ℕ} {test : Session → SchedCall → Bool}
    (hlt : ∀ s, counter s < 2 ^ 64)
    (hcount : ∀ s a c, Refines s a → Admissible s c →
      counter (schedStep trampoline s c).1 = (counter s + (test s c).toNat) % 2 ^ 64)
    (hnull : bootThread ≠ 0) (hzero : counter (bootSession w bootThread) = 0)
    (hadm : AlongTotal (schedStep trampoline) Admissible (bootSession w bootThread) calls) :
    counter (runTotal (schedStep trampoline) (bootSession w bootThread) calls).1 =
      countAlong (schedStep trampoline) test (bootSession w bootThread) calls % 2 ^ 64 := by
  have hrun := runTotal_counter (fun s => ∃ a, Refines s a) Admissible counter hlt
    (fun s c hs hc => hs.elim fun a h => ⟨_, schedStep_refines trampoline s a c h hc⟩)
    (fun s c hs hc => hs.elim fun a h => hcount s a c h hc) ⟨_, refines_boot w hnull⟩ hadm
  rw [hzero, zero_add] at hrun
  exact hrun

theorem run_parity (hnull : bootThread ≠ 0)
    (hadm : AlongTotal (schedStep trampoline) Admissible (bootSession w bootThread) calls) :
    (runTotal (schedStep trampoline) (bootSession w bootThread) calls).1.Parity := by
  have hrun := runTotal_invariant (fun s => ∃ a, Refines s a ∧ s.Parity) Admissible
    (fun s c hs hc => hs.elim fun a h =>
      ⟨_, schedStep_refines trampoline s a c h.1 hc, h.1.parity_step trampoline hc h.2⟩)
    ⟨_, refines_boot w hnull, boot_parity w hnull⟩ hadm
  obtain ⟨a, -, hparity⟩ := hrun
  exact hparity

end Sessions

/-- In every session of admissible calls: the ticks of the scheduler, its context switches, and
the ticks and switches of each of its threads are the numbers of the calls that they count,
modulo 2^64; and the switches of a thread are odd exactly if it is current and was not at boot,
or the other way round. -/
theorem scheduler_counters_exact (trampoline : UInt64) (w : World) {bootThread : UInt64}
    (hinit : (mcsosSchedulerInit w bootThread).1 = .ok) {calls : List SchedCall}
    (hadm : AlongTotal (schedStep trampoline) Admissible (bootSession w bootThread) calls) :
    let s₀ := bootSession w bootThread
    let s := (runTotal (schedStep trampoline) s₀ calls).1
    let count := fun test => countAlong (schedStep trampoline) test s₀ calls % 2 ^ 64
    s.world.sched.ticks.toNat = count (fun _ c => c.isTick) ∧
      s.world.sched.contextSwitches.toNat = count (changesCurrent trampoline) ∧
      ∀ t ∈ s.objects,
        (s.world.ticksOf t).toNat = count (ticksDuring t) ∧
        (s.world.switchesOf t).toNat = count (concerns trampoline t) ∧
        ((s.world.switchesOf t).toNat % 2 = 1 ↔
          ¬ (t = s.world.sched.current ↔ t = s.world.sched.idle)) := by
  intro s₀ s count
  have hnull := boot_ne_null hinit
  have hsched : s₀.world.sched = bootScheduler bootThread := by
    rw [bootSession_world w hnull]
    rfl
  have hmeter {t : UInt64} (ht : t ∈ s.objects) (counter : World → UInt64 → UInt64) :
      s.meter counter t = (counter s.world t).toNat := if_pos ht
  refine ⟨?_, ?_, fun t ht => ?_⟩
  · exact boot_counter trampoline (fun s => s.world.sched.ticks.toNat_lt)
      (fun s a c h hc => h.count_ticks trampoline hc) hnull (by rw [hsched]; rfl) hadm
  · exact boot_counter trampoline (fun s => s.world.sched.contextSwitches.toNat_lt)
      (fun s a c h hc => h.count_contextSwitches trampoline hc) hnull (by rw [hsched]; rfl) hadm
  · rw [← hmeter ht World.ticksOf, ← hmeter ht World.switchesOf]
    refine ⟨?_, ?_, run_parity trampoline hnull hadm t⟩
    · exact boot_counter trampoline (fun s => s.meter_lt World.ticksOf t)
        (fun s a c h hc => h.count_ticksOf trampoline hc t) hnull (boot_meters w hnull t).1 hadm
    · exact boot_counter trampoline (fun s => s.meter_lt World.switchesOf t)
        (fun s a c h hc => h.count_switchesOf trampoline hc t) hnull (boot_meters w hnull t).2
        hadm

def countedCalls : List SchedCall :=
  [.prepare 0x2000 "a" 0x200 0 0x8000 0x1000 1, .enqueue 0x2000, .tick, .yield, .tick, .tick]

theorem scheduler_counters_exact_sample :
    let s := (runTotal (schedStep 0x100) (bootSession blankWorld 0x1000) countedCalls).1
    s.world.sched.ticks.toNat = 3 ∧ s.world.sched.contextSwitches.toNat = 1 ∧
      (s.world.ticksOf 0x2000).toNat = 2 ∧ (s.world.switchesOf 0x2000).toNat = 1 := by
  have hboot : (mcsosSchedulerInit blankWorld 0x1000).1 = .ok := by decide
  have hadm : AlongTotal (schedStep 0x100) Admissible (bootSession blankWorld 0x1000)
      countedCalls := by decide +kernel
  obtain ⟨hticks, hswitches, hthreads⟩ := scheduler_counters_exact 0x100 blankWorld hboot hadm
  obtain ⟨hticksOf, hswitchesOf, -⟩ := hthreads 0x2000 (by decide +kernel)
  refine ⟨hticks.trans ?_, hswitches.trans ?_, hticksOf.trans ?_, hswitchesOf.trans ?_⟩
  · decide +kernel
  · decide +kernel
  · decide +kernel
  · decide +kernel

end Mcsos.Sched
