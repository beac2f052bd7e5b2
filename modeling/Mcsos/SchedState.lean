import Mcsos.BoundedLoop
import Mcsos.ByteMemory
import Mcsos.LinkedQueue
import Mcsos.WordArithmetic

/-!
# The cooperative scheduler

A pointer is a 64-bit address and `0` is the null pointer. The world holds the scheduler
record, the thread objects by address, and the bytes of the stacks. Calls update the state
as in the host build, where no register context is switched.
-/

namespace Mcsos.Sched
open BoundedLoop ByteMemory LinkedQueue WordArithmetic

def threadMagic : UInt64 := 0x4d43534f53544852
def stackAlign : UInt64 := 16
def minKernelStack : UInt64 := 4096

inductive ThreadState where
  | new
  | ready
  | running
  | blocked
  | zombie
  deriving DecidableEq, Repr

inductive SchedResult where
  | ok
  | einval
  | estate
  | estack
  | ecorrupt
  deriving DecidableEq, Repr

structure Context where
  rsp : UInt64
  rbp : UInt64
  rbx : UInt64
  r12 : UInt64
  r13 : UInt64
  r14 : UInt64
  r15 : UInt64
  rip : UInt64
  deriving DecidableEq, Repr

structure Thread where
  magic : UInt64
  id : UInt64
  name : String
  state : ThreadState
  context : Context
  entry : UInt64
  arg : UInt64
  stackBase : UInt64
  stackSize : UInt64
  next : UInt64
  switches : UInt64
  ticks : UInt64
  exitCode : Int32
  deriving DecidableEq, Repr

structure Scheduler where
  current : UInt64
  idle : UInt64
  readyHead : UInt64
  readyTail : UInt64
  nextId : UInt64
  runnableCount : UInt64
  contextSwitches : UInt64
  ticks : UInt64
  initialized : Int32
  deriving DecidableEq, Repr

structure World where
  sched : Scheduler
  threads : UInt64 → Thread
  mem : Memory

def World.nextOf (w : World) (p : UInt64) : UInt64 := (w.threads p).next
def World.stateOf (w : World) (p : UInt64) : ThreadState := (w.threads p).state
def World.magicOf (w : World) (p : UInt64) : UInt64 := (w.threads p).magic

def World.setSched (w : World) (s : Scheduler) : World := { w with sched := s }

def World.setThread (w : World) (p : UInt64) (t : Thread) : World :=
  { w with threads := Function.update w.threads p t }

def World.setNext (w : World) (p next : UInt64) : World :=
  w.setThread p { w.threads p with next := next }

def World.setState (w : World) (p : UInt64) (state : ThreadState) : World :=
  w.setThread p { w.threads p with state := state }

def World.addSwitch (w : World) (p : UInt64) : World :=
  w.setThread p { w.threads p with switches := (w.threads p).switches + 1 }

def World.addTick (w : World) (p : UInt64) : World :=
  w.setThread p { w.threads p with ticks := (w.threads p).ticks + 1 }

@[simp] theorem nextOf_setThread (w : World) (p : UInt64) (t : Thread) :
    (w.setThread p t).nextOf = Function.update w.nextOf p t.next := by
  funext q
  simp only [World.nextOf, World.setThread, Function.update_apply, apply_ite Thread.next]

@[simp] theorem stateOf_setThread (w : World) (p : UInt64) (t : Thread) :
    (w.setThread p t).stateOf = Function.update w.stateOf p t.state := by
  funext q
  simp only [World.stateOf, World.setThread, Function.update_apply, apply_ite Thread.state]

@[simp] theorem magicOf_setThread (w : World) (p : UInt64) (t : Thread) :
    (w.setThread p t).magicOf = Function.update w.magicOf p t.magic := by
  funext q
  simp only [World.magicOf, World.setThread, Function.update_apply, apply_ite Thread.magic]

@[simp] theorem nextOf_setNext (w : World) (p next : UInt64) :
    (w.setNext p next).nextOf = Function.update w.nextOf p next :=
  nextOf_setThread w p _

@[simp] theorem stateOf_setState (w : World) (p : UInt64) (state : ThreadState) :
    (w.setState p state).stateOf = Function.update w.stateOf p state :=
  stateOf_setThread w p _

@[simp] theorem stateOf_setNext (w : World) (p next : UInt64) :
    (w.setNext p next).stateOf = w.stateOf :=
  (stateOf_setThread w p _).trans (Function.update_eq_self p w.stateOf)

@[simp] theorem magicOf_setNext (w : World) (p next : UInt64) :
    (w.setNext p next).magicOf = w.magicOf :=
  (magicOf_setThread w p _).trans (Function.update_eq_self p w.magicOf)

@[simp] theorem nextOf_setState (w : World) (p : UInt64) (state : ThreadState) :
    (w.setState p state).nextOf = w.nextOf :=
  (nextOf_setThread w p _).trans (Function.update_eq_self p w.nextOf)

@[simp] theorem magicOf_setState (w : World) (p : UInt64) (state : ThreadState) :
    (w.setState p state).magicOf = w.magicOf :=
  (magicOf_setThread w p _).trans (Function.update_eq_self p w.magicOf)

@[simp] theorem nextOf_addSwitch (w : World) (p : UInt64) :
    (w.addSwitch p).nextOf = w.nextOf :=
  (nextOf_setThread w p _).trans (Function.update_eq_self p w.nextOf)

@[simp] theorem stateOf_addSwitch (w : World) (p : UInt64) :
    (w.addSwitch p).stateOf = w.stateOf :=
  (stateOf_setThread w p _).trans (Function.update_eq_self p w.stateOf)

@[simp] theorem magicOf_addSwitch (w : World) (p : UInt64) :
    (w.addSwitch p).magicOf = w.magicOf :=
  (magicOf_setThread w p _).trans (Function.update_eq_self p w.magicOf)

@[simp] theorem nextOf_addTick (w : World) (p : UInt64) :
    (w.addTick p).nextOf = w.nextOf :=
  (nextOf_setThread w p _).trans (Function.update_eq_self p w.nextOf)

@[simp] theorem stateOf_addTick (w : World) (p : UInt64) :
    (w.addTick p).stateOf = w.stateOf :=
  (stateOf_setThread w p _).trans (Function.update_eq_self p w.stateOf)

@[simp] theorem magicOf_addTick (w : World) (p : UInt64) :
    (w.addTick p).magicOf = w.magicOf :=
  (magicOf_setThread w p _).trans (Function.update_eq_self p w.magicOf)

@[simp] theorem sched_setThread (w : World) (p : UInt64) (t : Thread) :
    (w.setThread p t).sched = w.sched := rfl

@[simp] theorem sched_setNext (w : World) (p next : UInt64) :
    (w.setNext p next).sched = w.sched := rfl

@[simp] theorem sched_setState (w : World) (p : UInt64) (state : ThreadState) :
    (w.setState p state).sched = w.sched := rfl

@[simp] theorem sched_addSwitch (w : World) (p : UInt64) :
    (w.addSwitch p).sched = w.sched := rfl

@[simp] theorem sched_addTick (w : World) (p : UInt64) :
    (w.addTick p).sched = w.sched := rfl

@[simp] theorem sched_setSched (w : World) (s : Scheduler) : (w.setSched s).sched = s := rfl

@[simp] theorem nextOf_setSched (w : World) (s : Scheduler) :
    (w.setSched s).nextOf = w.nextOf := rfl

@[simp] theorem stateOf_setSched (w : World) (s : Scheduler) :
    (w.setSched s).stateOf = w.stateOf := rfl

@[simp] theorem magicOf_setSched (w : World) (s : Scheduler) :
    (w.setSched s).magicOf = w.magicOf := rfl

def alignDownUintptr (value alignment : UInt64) : UInt64 := value &&& ~~~(alignment - 1)

def validThreadObject (w : World) (thread : UInt64) : Bool :=
  decide (thread ≠ 0) && decide ((w.threads thread).magic = threadMagic)

def zeroContext : Context := ⟨0, 0, 0, 0, 0, 0, 0, 0⟩

def bootThreadObject : Thread :=
  { magic := threadMagic, id := 0, name := "boot", state := .running, context := zeroContext,
    entry := 0, arg := 0, stackBase := 0, stackSize := 0, next := 0, switches := 0, ticks := 0,
    exitCode := 0 }

def bootScheduler (bootThread : UInt64) : Scheduler :=
  { current := bootThread, idle := bootThread, readyHead := 0, readyTail := 0, nextId := 1,
    runnableCount := 0, contextSwitches := 0, ticks := 0, initialized := 1 }

def mcsosSchedulerInit (w : World) (bootThread : UInt64) : SchedResult × World :=
  if bootThread = 0 then (.einval, w)
  else
    (.ok, (w.setThread bootThread bootThreadObject).setSched (bootScheduler bootThread))

def preparedThread (trampoline : UInt64) (name : String)
    (entry arg stackBase stackSize id top : UInt64) : Thread :=
  { magic := threadMagic, id := id, name := name, state := .new,
    context := { zeroContext with rsp := top, rip := trampoline }, entry := entry, arg := arg,
    stackBase := stackBase, stackSize := stackSize, next := 0, switches := 0, ticks := 0,
    exitCode := 0 }

def mcsosThreadPrepare (trampoline : UInt64) (w : World) (thread : UInt64) (name : String)
    (entry arg stackBase stackSize id : UInt64) : SchedResult × World :=
  -- The address of `mcsos_thread_trampoline` is fixed by the linker.
  if thread = 0 ∨ entry = 0 ∨ stackBase = 0 then (.einval, w)
  else if stackSize < minKernelStack then (.estack, w)
  else
    let low := stackBase
    let high := low + stackSize
    if high ≤ low then (.estack, w)
    else
      let top := alignDownUintptr high stackAlign
      if top ≤ low + 128 then (.estack, w)
      else
        let top := top - 8
        (.ok, { w with mem := storeU64 w.mem top.toNat 0 }.setThread thread
          (preparedThread trampoline name entry arg stackBase stackSize id top))

def linkTail (w : World) (thread : UInt64) : World :=
  if w.sched.readyTail = 0 then
    w.setSched { w.sched with readyHead := thread, readyTail := thread }
  else
    (w.setNext w.sched.readyTail thread).setSched { w.sched with readyTail := thread }

/-- The edits of `mcsos_sched_enqueue` once its checks have passed. -/
def appendReady (w : World) (thread : UInt64) : World :=
  let w := linkTail ((w.setState thread .ready).setNext thread 0) thread
  w.setSched { w.sched with runnableCount := w.sched.runnableCount + 1 }

def mcsosSchedEnqueue (w : World) (thread : UInt64) : SchedResult × World :=
  if w.sched.initialized = 0 ∨ validThreadObject w thread = false then (.einval, w)
  else if w.stateOf thread ≠ .new ∧ w.stateOf thread ≠ .ready ∧ w.stateOf thread ≠ .blocked then
    (.estate, w)
  else (.ok, appendReady w thread)

/-- The edits of `mcsos_sched_pick_next` for the thread at the head of the queue. -/
def removeHead (w : World) (thread : UInt64) : World :=
  let head := w.nextOf thread
  let tail := if head = 0 then 0 else w.sched.readyTail
  let count :=
    if w.sched.runnableCount > 0 then w.sched.runnableCount - 1 else w.sched.runnableCount
  (w.setNext thread 0).setSched
    { w.sched with readyHead := head, readyTail := tail, runnableCount := count }

def mcsosSchedPickNext (w : World) : UInt64 × World :=
  if w.sched.initialized = 0 then (0, w)
  else if w.sched.readyHead = 0 then (w.sched.idle, w)
  else (w.sched.readyHead, removeHead w w.sched.readyHead)

def requeueOld (w : World) (old : UInt64) : SchedResult × World :=
  -- The running thread goes back to the tail of the ready queue; the idle thread and a blocked
  -- thread do not.
  if w.stateOf old = .running ∧ old ≠ w.sched.idle then
    mcsosSchedEnqueue (w.setState old .ready) old
  else (.ok, w)

def switchTo (w : World) (old next : UInt64) : World :=
  let w := w.setState next .running
  let w := w.setSched { w.sched with current := next }
  let w := (w.addSwitch old).addSwitch next
  w.setSched { w.sched with contextSwitches := w.sched.contextSwitches + 1 }

def mcsosSchedYield (w : World) : SchedResult × World :=
  if w.sched.initialized = 0 ∨ validThreadObject w w.sched.current = false then (.einval, w)
  else
    let old := w.sched.current
    let (next, w) := mcsosSchedPickNext w
    if validThreadObject w next = false then (.ecorrupt, w)
    else if next = old then (.ok, w.setState old .running)
    else
      let (rc, w) := requeueOld w old
      if rc ≠ .ok then (rc, w)
      else (.ok, switchTo w old next)

def mcsosSchedTick (w : World) : SchedResult × World :=
  if w.sched.initialized = 0 ∨ validThreadObject w w.sched.current = false then (.einval, w)
  else
    (.ok, (w.setSched { w.sched with ticks := w.sched.ticks + 1 }).addTick w.sched.current)

def mcsosThreadBlockCurrent (w : World) : SchedResult × World :=
  if w.sched.initialized = 0 ∨ validThreadObject w w.sched.current = false then (.einval, w)
  else if w.sched.current = w.sched.idle then (.estate, w)
  else mcsosSchedYield (w.setState w.sched.current .blocked)

def mcsosThreadMarkReady (w : World) (thread : UInt64) : SchedResult × World :=
  if validThreadObject w thread = false then (.einval, w)
  else if w.stateOf thread ≠ .blocked then (.estate, w)
  else mcsosSchedEnqueue w thread

def readyCountBody (w : World) (s : UInt64 × UInt64) :
    Option (Control (UInt64 × UInt64) UInt64) :=
  if s.2 = 0 then some (.done s.1)
  else some (.next (s.1 + 1, w.nextOf s.2))

def mcsosSchedReadyCount (w : World) : Option UInt64 :=
  if w.sched.initialized = 0 then some 0
  else loop (readyCountBody w) wordFuel (0, w.sched.readyHead)

structure ValidateState where
  count : UInt64
  cursor : UInt64
  last : UInt64

def validateBody (w : World) (s : ValidateState) : Option (Control ValidateState SchedResult) :=
  if s.cursor = 0 then
    if s.last ≠ w.sched.readyTail then some (.done .ecorrupt)
    else if s.count ≠ w.sched.runnableCount then some (.done .ecorrupt)
    else some (.done .ok)
  else if validThreadObject w s.cursor = false ∨ w.stateOf s.cursor ≠ .ready then
    some (.done .ecorrupt)
  else if s.cursor = w.sched.current then some (.done .ecorrupt)
  else if s.count + 1 > w.sched.runnableCount + 1 then some (.done .ecorrupt)
  else some (.next ⟨s.count + 1, w.nextOf s.cursor, s.cursor⟩)

def mcsosSchedValidate (w : World) : Option SchedResult :=
  if w.sched.initialized = 0 ∨ validThreadObject w w.sched.current = false then some .einval
  else loop (validateBody w) wordFuel ⟨0, w.sched.readyHead, 0⟩

end Mcsos.Sched
