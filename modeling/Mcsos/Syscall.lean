import Mcsos.BoundedLoop
import Mcsos.ByteMemory
import Mcsos.StepRun
import Mcsos.WordArithmetic

/-!
# System calls and the user memory window

The dispatcher passes user pointers to one callback and copies user bytes in one loop. A
callback is a nullable function on the state of the environment; calling a null one is a
fault. The state keeps a log of the callbacks made and the user bytes read, each with the
user region in force at that moment.
-/

namespace Mcsos.Syscall
open BoundedLoop ByteMemory StepRun WordArithmetic

variable {ε : Type*}

inductive Status where
  | ok
  | einval
  | enosys
  | efault
  | eperm
  | ebusy
  deriving DecidableEq, Repr

def Status.code : Status → Int64
  | .ok => 0
  | .einval => -22
  | .enosys => -38
  | .efault => -14
  | .eperm => -1
  | .ebusy => -16

def sysMax : UInt64 := 5

structure UserRegion where
  base : UInt64
  limit : UInt64
  deriving DecidableEq, Repr

structure SyscallOps (ε : Type*) where
  getTicks : Option (ε → UInt64 × ε)
  yieldCurrent : Option (ε → ε)
  exitCurrent : Option (Int32 → ε → ε)
  writeSerial : Option (UInt64 → UInt64 → ε → Int64 × ε)

inductive Event where
  | getTicks
  | yieldCurrent
  | exitCurrent (code : Int32)
  | writeSerial (buf len : UInt64)
  | userRead (addr : UInt64)

structure SyscallState (ε : Type*) where
  ops : SyscallOps ε
  userRegion : UserRegion
  mem : Memory
  env : ε
  log : List (UserRegion × Event)

def SyscallState.note (s : SyscallState ε) (e : Event) : SyscallState ε :=
  { s with log := (s.userRegion, e) :: s.log }

def SyscallState.readUser (s : SyscallState ε) (addr : UInt64) : UInt8 × SyscallState ε :=
  (s.mem addr.toNat, s.note (.userRead addr))

def SyscallState.callGetTicks (s : SyscallState ε) (f : ε → UInt64 × ε) :
    UInt64 × SyscallState ε :=
  let r := f s.env
  (r.1, { s.note .getTicks with env := r.2 })

def SyscallState.callYieldCurrent (s : SyscallState ε) (f : ε → ε) : SyscallState ε :=
  { s.note .yieldCurrent with env := f s.env }

def SyscallState.callExitCurrent (s : SyscallState ε) (f : Int32 → ε → ε) (code : Int32) :
    SyscallState ε :=
  { s.note (.exitCurrent code) with env := f code s.env }

def SyscallState.callWriteSerial (s : SyscallState ε) (f : UInt64 → UInt64 → ε → Int64 × ε)
    (buf len : UInt64) : Int64 × SyscallState ε :=
  let r := f buf len s.env
  (r.1, { s.note (.writeSerial buf len) with env := r.2 })

def defaultWriteSerial (_buf len : UInt64) (env : ε) : Int64 × ε := (len.toInt64, env)

def mcsosSyscallInit (s : SyscallState ε) (ops : Option (SyscallOps ε)) : SyscallState ε :=
  let base : SyscallOps ε := ⟨none, none, none, some defaultWriteSerial⟩
  match ops with
  | none => { s with ops := base }
  | some ops => { s with ops :=
      { getTicks := ops.getTicks.or base.getTicks
        yieldCurrent := ops.yieldCurrent.or base.yieldCurrent
        exitCurrent := ops.exitCurrent.or base.exitCurrent
        writeSerial := ops.writeSerial.or base.writeSerial } }

def mcsosSyscallSetUserRegion (s : SyscallState ε) (region : UserRegion) : SyscallState ε :=
  { s with userRegion := region }

def mcsosUserCheckRange (region : UserRegion) (addr len : UInt64) : Bool :=
  if len = 0 then true
  else if region.base = 0 ∨ region.limit ≤ region.base then false
  else if addr < region.base then false
  else if addr > region.limit then false
  else
    let last := addr + len - 1
    if last < addr then false
    else if last ≥ region.limit then false
    else true

def copyByte (s : SyscallState ε) (dst src i : UInt64) : SyscallState ε :=
  let r := s.readUser (src + i)
  { r.2 with mem := Function.update r.2.mem (dst + i).toNat r.1 }

def copyBody (dst src len : UInt64) (c : UInt64 × SyscallState ε) :
    Option (Control (UInt64 × SyscallState ε) (SyscallState ε)) :=
  if c.1 < len then some (.next (c.1 + 1, copyByte c.2 dst src c.1))
  else some (.done c.2)

def mcsosCopyFromUser (s : SyscallState ε) (dst src len : UInt64) :
    Option (Status × SyscallState ε) :=
  if len = 0 then some (.ok, s)
  else if dst = 0 ∨ src = 0 then some (.einval, s)
  else if mcsosUserCheckRange s.userRegion src len = false then some (.efault, s)
  else
    match loop (copyBody dst src len) wordFuel (0, s) with
    | none => none
    | some s => some (.ok, s)

abbrev SyscallFn (ε : Type*) :=
  SyscallState ε → UInt64 → UInt64 → UInt64 → UInt64 → UInt64 → UInt64 →
    Option (Int64 × SyscallState ε)

def sysPing : SyscallFn ε := fun s _ _ _ _ _ _ => some (0x2605020A, s)

def sysGetTicks : SyscallFn ε := fun s _ _ _ _ _ _ =>
  match s.ops.getTicks with
  | none => some (Status.ebusy.code, s)
  | some f =>
      let r := s.callGetTicks f
      some (r.1.toInt64, r.2)

def sysWriteSerial : SyscallFn ε := fun s ptr len _ _ _ _ =>
  if ptr = 0 then some (Status.einval.code, s)
  else if len > 4096 then some (Status.einval.code, s)
  else if mcsosUserCheckRange s.userRegion ptr len = false then some (Status.efault.code, s)
  else
    match s.ops.writeSerial with
    | none => none
    | some f => some (s.callWriteSerial f ptr len)

def sysYield : SyscallFn ε := fun s _ _ _ _ _ _ =>
  match s.ops.yieldCurrent with
  | none => some (Status.ebusy.code, s)
  | some f => some (Status.ok.code, s.callYieldCurrent f)

def sysExitThread : SyscallFn ε := fun s code _ _ _ _ _ =>
  match s.ops.exitCurrent with
  | none => some (Status.ebusy.code, s)
  | some f => some (Status.ok.code, s.callExitCurrent f code.toUInt32.toInt32)

def gTable : List (Option (SyscallFn ε)) :=
  [some sysPing, some sysGetTicks, some sysWriteSerial, some sysYield, some sysExitThread]

def mcsosSyscallDispatch (s : SyscallState ε) (nr arg0 arg1 arg2 arg3 arg4 arg5 : UInt64) :
    Option (Int64 × SyscallState ε) :=
  if nr ≥ sysMax then some (Status.enosys.code, s)
  else
    match (gTable : List (Option (SyscallFn ε)))[nr.toNat]? with
    | none => none
    | some none => some (Status.enosys.code, s)
    | some (some fn) => fn s arg0 arg1 arg2 arg3 arg4 arg5

structure SyscallFrame where
  nr : UInt64
  arg0 : UInt64
  arg1 : UInt64
  arg2 : UInt64
  arg3 : UInt64
  arg4 : UInt64
  arg5 : UInt64
  ret : Int64
  deriving DecidableEq, Repr

def mcsosSyscallDispatchFrame (s : SyscallState ε) :
    Option SyscallFrame → Option (Option SyscallFrame × SyscallState ε)
  | none => some (none, s)
  | some frame =>
      match mcsosSyscallDispatch s frame.nr frame.arg0 frame.arg1 frame.arg2 frame.arg3
        frame.arg4 frame.arg5 with
      | none => none
      | some (ret, s) => some (some { frame with ret := ret }, s)

inductive SyscallCall (ε : Type*) where
  | init (ops : Option (SyscallOps ε))
  | setUserRegion (region : UserRegion)
  | copyFromUser (dst src len : UInt64)
  | dispatch (nr arg0 arg1 arg2 arg3 arg4 arg5 : UInt64)
  | dispatchFrame (frame : Option SyscallFrame)

inductive SyscallResult where
  | unit
  | status (status : Status)
  | value (ret : Int64)
  | frame (frame : Option SyscallFrame)

def syscallStep (s : SyscallState ε) : SyscallCall ε → Option (SyscallState ε × SyscallResult)
  | .init ops => some (mcsosSyscallInit s ops, .unit)
  | .setUserRegion region => some (mcsosSyscallSetUserRegion s region, .unit)
  | .copyFromUser dst src len =>
      (mcsosCopyFromUser s dst src len).map (fun r => (r.2, .status r.1))
  | .dispatch nr arg0 arg1 arg2 arg3 arg4 arg5 =>
      (mcsosSyscallDispatch s nr arg0 arg1 arg2 arg3 arg4 arg5).map (fun r => (r.2, .value r.1))
  | .dispatchFrame frame =>
      (mcsosSyscallDispatchFrame s frame).map (fun r => (r.2, .frame r.1))

/-- The range `[addr, addr + len)` of unbounded integers lies in the user region. -/
def Inside (region : UserRegion) (addr len : ℕ) : Prop :=
  region.base.toNat ≤ addr ∧ addr + len ≤ region.limit.toNat

theorem mcsosUserCheckRange_iff (region : UserRegion) (addr : UInt64) {len : UInt64}
    (hlen : len ≠ 0) :
    mcsosUserCheckRange region addr len = true ↔
      region.base ≠ 0 ∧ region.base < region.limit ∧ Inside region addr.toNat len.toNat := by
  have hpos : 1 ≤ len.toNat := by
    rcases Nat.eq_zero_or_pos len.toNat with hz | hz
    · exact absurd ((eq_zero_iff len).mpr hz) hlen
    · exact hz
  have hlast : (addr + len - 1).toNat = (addr.toNat + len.toNat - 1) % 2 ^ 64 := by
    have ha := addr.toNat_lt
    have hl := len.toNat_lt
    have hone : (1 : UInt64).toNat = 1 := rfl
    rw [UInt64.toNat_sub, UInt64.toNat_add, hone]
    omega
  have ha := addr.toNat_lt
  have hl := len.toNat_lt
  have hlim := region.limit.toNat_lt
  simp only [mcsosUserCheckRange, hlen, if_false, Inside, UInt64.lt_iff_toNat_lt,
    UInt64.le_iff_toNat_le, gt_iff_lt, ge_iff_le, hlast]
  by_cases hregion : region.base = 0 ∨ region.limit.toNat ≤ region.base.toNat
  · rw [if_pos hregion]
    simp only [Bool.false_eq_true, false_iff]
    intro h
    rcases hregion with hb | hb
    · exact h.1 hb
    · omega
  · rw [if_neg hregion]
    rw [not_or, not_le] at hregion
    simp only [hregion.1, hregion.2, not_false_eq_true, true_and, ne_eq]
    split_ifs with h₁ h₂ h₃ h₄
    all_goals simp only [false_iff, true_iff, not_and, not_le]
    all_goals omega

theorem inside_of_check {region : UserRegion} {addr len : UInt64} (hlen : len ≠ 0)
    (h : mcsosUserCheckRange region addr len ≠ false) : Inside region addr.toNat len.toNat :=
  ((mcsosUserCheckRange_iff region addr hlen).mp (by simpa using h)).2.2

/-- What the log may record: user bytes inside the region, at most 4096 in one write. -/
def Confined (region : UserRegion) : Event → Prop
  | .writeSerial buf len => len.toNat ≤ 4096 ∧
      ∀ a, buf.toNat ≤ a → a < buf.toNat + len.toNat →
        region.base.toNat ≤ a ∧ a < region.limit.toNat
  | .userRead addr => region.base.toNat ≤ addr.toNat ∧ addr.toNat < region.limit.toNat
  | _ => True

def LogConfined (s : SyscallState ε) : Prop := ∀ x ∈ s.log, Confined x.1 x.2

structure Serving (s : SyscallState ε) : Prop where
  writer : s.ops.writeSerial.isSome = true
  log : LogConfined s

theorem LogConfined.note {s : SyscallState ε} (h : LogConfined s) {e : Event}
    (he : Confined s.userRegion e) (mem : Memory) (env : ε) :
    LogConfined { s.note e with mem := mem, env := env } := by
  intro x hx
  rcases List.mem_cons.mp hx with rfl | hx
  · exact he
  · exact h x hx

theorem Serving.note {s : SyscallState ε} (h : Serving s) {e : Event}
    (he : Confined s.userRegion e) (env : ε) : Serving { s.note e with env := env } :=
  ⟨h.writer, h.log.note he s.mem env⟩

theorem mcsosSyscallInit_writer (s : SyscallState ε) (ops : Option (SyscallOps ε)) :
    (mcsosSyscallInit s ops).ops.writeSerial.isSome = true := by
  cases ops with
  | none => rfl
  | some ops => simp [mcsosSyscallInit]

theorem mcsosSyscallInit_log (s : SyscallState ε) (ops : Option (SyscallOps ε)) :
    (mcsosSyscallInit s ops).log = s.log := by
  cases ops with
  | none => rfl
  | some ops => rfl

structure Copying (s t : SyscallState ε) : Prop where
  ops : t.ops = s.ops
  userRegion : t.userRegion = s.userRegion
  log : LogConfined t

theorem copyBody_step (I : SyscallState ε → Prop) {dst src len : UInt64}
    (hbyte : ∀ t i, I t → i < len → I (copyByte t dst src i)) {c : UInt64 × SyscallState ε}
    (hc : I c.2) :
    (∃ t, copyBody dst src len c = some (.done t) ∧ I t) ∨
      ∃ d, copyBody dst src len c = some (.next d) ∧ I d.2 ∧
        len.toNat - d.1.toNat < len.toNat - c.1.toNat := by
  by_cases hlt : c.1 < len
  · have hlt' := UInt64.lt_iff_toNat_lt.mp hlt
    have hlen := len.toNat_lt
    have hone : (1 : UInt64).toNat = 1 := rfl
    have hnext : (c.1 + 1).toNat = c.1.toNat + 1 := toNat_add_of_lt c.1 1 (by omega)
    refine Or.inr ⟨(c.1 + 1, copyByte c.2 dst src c.1), by rw [copyBody, if_pos hlt],
      hbyte c.2 c.1 hc hlt, ?_⟩
    simp only [hnext]
    omega
  · exact Or.inl ⟨c.2, by rw [copyBody, if_neg hlt], hc⟩

theorem mcsosCopyFromUser_keeps {s : SyscallState ε} (I : SyscallState ε → Prop) (hs : I s)
    {dst src len : UInt64}
    (hbyte : len ≠ 0 → mcsosUserCheckRange s.userRegion src len ≠ false →
      ∀ t i, I t → i < len → I (copyByte t dst src i)) :
    ∃ r t, mcsosCopyFromUser s dst src len = some (r, t) ∧ I t := by
  by_cases hlen : len = 0
  · exact ⟨_, s, by rw [mcsosCopyFromUser, if_pos hlen], hs⟩
  by_cases hnull : dst = 0 ∨ src = 0
  · exact ⟨_, s, by rw [mcsosCopyFromUser, if_neg hlen, if_pos hnull], hs⟩
  by_cases hcheck : mcsosUserCheckRange s.userRegion src len = false
  · exact ⟨_, s, by rw [mcsosCopyFromUser, if_neg hlen, if_neg hnull, if_pos hcheck], hs⟩
  have hfuel : len.toNat - (0 : UInt64).toNat < wordFuel := by
    have hlt := len.toNat_lt
    rw [wordFuel]
    omega
  have hrun : ∃ t, loop (copyBody dst src len) wordFuel (0, s) = some t ∧ I t :=
    loop_total (fun c => I c.2) I (fun c => len.toNat - c.1.toNat)
      (fun _ hc => copyBody_step I (hbyte hlen hcheck) hc) hs hfuel
  obtain ⟨t, ht, hkept⟩ := hrun
  refine ⟨.ok, t, ?_, hkept⟩
  rw [mcsosCopyFromUser, if_neg hlen, if_neg hnull, if_neg hcheck, ht]

theorem Copying.byte {s t : SyscallState ε} {src len : UInt64} (h : Copying s t)
    (hin : Inside s.userRegion src.toNat len.toNat) (dst : UInt64) {i : UInt64} (hi : i < len) :
    Copying s (copyByte t dst src i) := by
  have hlt := UInt64.lt_iff_toNat_lt.mp hi
  have hlimit := s.userRegion.limit.toNat_lt
  obtain ⟨hbase, hend⟩ := hin
  have haddr := toNat_add_of_lt src i (by omega)
  have hread : Confined t.userRegion (.userRead (src + i)) := by
    rw [h.userRegion, Confined, haddr]
    omega
  exact ⟨h.ops, h.userRegion, h.log.note hread _ _⟩

theorem mcsosCopyFromUser_spec {s : SyscallState ε} (h : LogConfined s)
    (dst src len : UInt64) :
    ∃ r t, mcsosCopyFromUser s dst src len = some (r, t) ∧ Copying s t :=
  mcsosCopyFromUser_keeps (Copying s) ⟨rfl, rfl, h⟩ (fun hlen hcheck _ _ ht hi =>
    ht.byte (inside_of_check hlen hcheck) dst hi)

theorem sysWriteSerial_serving {s : SyscallState ε} (h : Serving s)
    (ptr len a2 a3 a4 a5 : UInt64) :
    ∃ r t, sysWriteSerial s ptr len a2 a3 a4 a5 = some (r, t) ∧ Serving t := by
  by_cases hnull : ptr = 0
  · exact ⟨_, s, by rw [sysWriteSerial, if_pos hnull], h⟩
  by_cases hlong : len > 4096
  · exact ⟨_, s, by rw [sysWriteSerial, if_neg hnull, if_pos hlong], h⟩
  by_cases hcheck : mcsosUserCheckRange s.userRegion ptr len = false
  · exact ⟨_, s, by rw [sysWriteSerial, if_neg hnull, if_neg hlong, if_pos hcheck], h⟩
  obtain ⟨f, hf⟩ := Option.isSome_iff_exists.mp h.writer
  have hshort : len.toNat ≤ 4096 := by
    rw [gt_iff_lt, UInt64.lt_iff_toNat_lt, not_lt] at hlong
    exact hlong
  have hconfined : Confined s.userRegion (.writeSerial ptr len) := by
    refine ⟨hshort, ?_⟩
    intro a hlow hhigh
    have hlen : len ≠ 0 := by
      rw [Ne, eq_zero_iff]
      omega
    obtain ⟨hbase, hend⟩ := inside_of_check hlen hcheck
    omega
  have hcall : Serving (s.callWriteSerial f ptr len).2 := h.note hconfined _
  use (s.callWriteSerial f ptr len).1, (s.callWriteSerial f ptr len).2
  rw [sysWriteSerial, if_neg hnull, if_neg hlong, if_neg hcheck, hf]
  exact ⟨rfl, hcall⟩

theorem mcsosSyscallDispatch_serving {s : SyscallState ε} (h : Serving s)
    (nr arg0 arg1 arg2 arg3 arg4 arg5 : UInt64) :
    ∃ r t, mcsosSyscallDispatch s nr arg0 arg1 arg2 arg3 arg4 arg5 = some (r, t) ∧
      Serving t := by
  by_cases hmax : nr ≥ sysMax
  · exact ⟨_, s, by rw [mcsosSyscallDispatch, if_pos hmax], h⟩
  have hlt : nr.toNat < 5 := by
    rw [ge_iff_le, UInt64.le_iff_toNat_le, not_le] at hmax
    exact hmax
  rw [mcsosSyscallDispatch, if_neg hmax]
  generalize nr.toNat = n at hlt
  match n, hlt with
  | 0, _ => exact ⟨_, s, rfl, h⟩
  | 1, _ =>
    simp only [gTable, List.getElem?_cons_succ, List.getElem?_cons_zero, sysGetTicks]
    cases s.ops.getTicks with
    | none => exact ⟨_, s, rfl, h⟩
    | some f => exact ⟨_, _, rfl, h.note (e := .getTicks) trivial _⟩
  | 2, _ => exact sysWriteSerial_serving h arg0 arg1 arg2 arg3 arg4 arg5
  | 3, _ =>
    simp only [gTable, List.getElem?_cons_succ, List.getElem?_cons_zero, sysYield]
    cases s.ops.yieldCurrent with
    | none => exact ⟨_, s, rfl, h⟩
    | some f => exact ⟨_, _, rfl, h.note (e := .yieldCurrent) trivial _⟩
  | 4, _ =>
    simp only [gTable, List.getElem?_cons_succ, List.getElem?_cons_zero, sysExitThread]
    cases s.ops.exitCurrent with
    | none => exact ⟨_, s, rfl, h⟩
    | some f => exact ⟨_, _, rfl, h.note (e := .exitCurrent arg0.toUInt32.toInt32) trivial _⟩

theorem syscallStep_serving (s : SyscallState ε) (c : SyscallCall ε) (h : Serving s) :
    ∃ t r, syscallStep s c = some (t, r) ∧ Serving t := by
  cases c with
  | init ops =>
    refine ⟨_, _, rfl, mcsosSyscallInit_writer s ops, ?_⟩
    rw [LogConfined, mcsosSyscallInit_log]
    exact h.log
  | setUserRegion region => exact ⟨_, _, rfl, h.writer, h.log⟩
  | copyFromUser dst src len =>
    obtain ⟨r, t, ht, hcopy⟩ := mcsosCopyFromUser_spec h.log dst src len
    refine ⟨t, _, by rw [syscallStep, ht]; rfl, ?_, hcopy.log⟩
    rw [hcopy.ops]
    exact h.writer
  | dispatch nr arg0 arg1 arg2 arg3 arg4 arg5 =>
    obtain ⟨r, t, ht, hserving⟩ :=
      mcsosSyscallDispatch_serving h nr arg0 arg1 arg2 arg3 arg4 arg5
    exact ⟨t, _, by rw [syscallStep, ht]; rfl, hserving⟩
  | dispatchFrame frame =>
    cases frame with
    | none => exact ⟨s, _, rfl, h⟩
    | some frame =>
      obtain ⟨r, t, ht, hserving⟩ := mcsosSyscallDispatch_serving h frame.nr frame.arg0
        frame.arg1 frame.arg2 frame.arg3 frame.arg4 frame.arg5
      exact ⟨t, _, by rw [syscallStep, mcsosSyscallDispatchFrame, ht]; rfl, hserving⟩

def SyscallState.cleared (s : SyscallState ε) : SyscallState ε := { s with log := [] }

/-- From any globals: after `mcsos_syscall_init` no run of calls faults and every user byte
given to the serial callback or read by a copy lies in the user region in force; a copy made
before it is confined too; and a nonempty range is refused only if the region is invalid or
does not contain the range. -/
theorem user_memory_confined (s : SyscallState ε) (ops : Option (SyscallOps ε))
    (calls : List (SyscallCall ε)) :
    (∃ t results, run syscallStep (mcsosSyscallInit s.cleared ops) calls = some (t, results) ∧
      ∀ x ∈ t.log, Confined x.1 x.2) ∧
    (∀ dst src len, ∃ r t, mcsosCopyFromUser s.cleared dst src len = some (r, t) ∧
      ∀ x ∈ t.log, Confined x.1 x.2) ∧
    ∀ region addr len, len ≠ 0 → mcsosUserCheckRange region addr len = false →
      region.base = 0 ∨ region.limit ≤ region.base ∨
        ¬ Inside region addr.toNat len.toNat := by
  have hlog : LogConfined s.cleared := by simp [LogConfined, SyscallState.cleared]
  refine ⟨?_, ?_, ?_⟩
  · have hstart : Serving (mcsosSyscallInit s.cleared ops) := by
      refine ⟨mcsosSyscallInit_writer _ ops, ?_⟩
      rw [LogConfined, mcsosSyscallInit_log]
      exact hlog
    obtain ⟨t, results, hrun, ht⟩ := run_total Serving syscallStep_serving hstart calls
    exact ⟨t, results, hrun, ht.log⟩
  · intro dst src len
    obtain ⟨r, t, ht, hcopy⟩ := mcsosCopyFromUser_spec hlog dst src len
    exact ⟨r, t, ht, hcopy.log⟩
  · intro region addr len hlen hrefused
    by_contra hgood
    rw [not_or, not_or, not_not, UInt64.not_le] at hgood
    rw [(mcsosUserCheckRange_iff region addr hlen).mpr hgood] at hrefused
    exact Bool.noConfusion hrefused

end Mcsos.Syscall
