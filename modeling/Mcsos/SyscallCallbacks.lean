import Mcsos.Syscall

/-!
# Missing callbacks

The globals are zero before the first `mcsos_syscall_init`, so that no callback is set. Three
of the handlers test their callback and answer with a negative status. `sys_write_serial`
does not: a write that passes its other checks before the first `mcsos_syscall_init` calls a
null pointer, and this is the only way to do so.
-/

namespace Mcsos.Syscall
open BoundedLoop ByteMemory StepRun WordArithmetic

variable {ε : Type*}

def zeroState (mem : Memory) (env : ε) : SyscallState ε :=
  { ops := ⟨none, none, none, none⟩, userRegion := ⟨0, 0⟩, mem := mem, env := env, log := [] }

def WriteAccepted (region : UserRegion) (nr ptr len : UInt64) : Prop :=
  nr = 2 ∧ ptr ≠ 0 ∧ ¬ len > 4096 ∧ mcsosUserCheckRange region ptr len = true

instance (region : UserRegion) (nr ptr len : UInt64) :
    Decidable (WriteAccepted region nr ptr len) :=
  inferInstanceAs (Decidable (_ ∧ _))

def SyscallCall.Writes (region : UserRegion) : SyscallCall ε → Prop
  | .dispatch nr arg0 arg1 _ _ _ _ => WriteAccepted region nr arg0 arg1
  | .dispatchFrame (some frame) => WriteAccepted region frame.nr frame.arg0 frame.arg1
  | _ => False

instance SyscallCall.Writes.decidable (region : UserRegion) :
    ∀ c : SyscallCall ε, Decidable (c.Writes region)
  | .dispatch nr arg0 arg1 _ _ _ _ =>
      inferInstanceAs (Decidable (WriteAccepted region nr arg0 arg1))
  | .dispatchFrame (some frame) =>
      inferInstanceAs (Decidable (WriteAccepted region frame.nr frame.arg0 frame.arg1))
  | .dispatchFrame none => isFalse not_false
  | .init _ => isFalse not_false
  | .setUserRegion _ => isFalse not_false
  | .copyFromUser _ _ _ => isFalse not_false

def SyscallCall.regionAfter (region : UserRegion) : SyscallCall ε → UserRegion
  | .setUserRegion region => region
  | _ => region

def SyscallCall.isInit : SyscallCall ε → Bool
  | .init _ => true
  | _ => false

/-- Before the first `mcsos_syscall_init` no call dispatches a write that is accepted. -/
def NoEarlyWrite : UserRegion → List (SyscallCall ε) → Prop
  | _, [] => True
  | region, c :: calls =>
      c.isInit = true ∨ (¬ c.Writes region ∧ NoEarlyWrite (c.regionAfter region) calls)

instance NoEarlyWrite.decidable :
    ∀ (region : UserRegion) (calls : List (SyscallCall ε)), Decidable (NoEarlyWrite region calls)
  | _, [] => isTrue trivial
  | region, c :: calls =>
      have := NoEarlyWrite.decidable (c.regionAfter region) calls
      inferInstanceAs (Decidable (_ ∨ _))

def Missing (ops : SyscallOps ε) (nr : UInt64) : Prop :=
  (nr = 1 ∧ ops.getTicks = none) ∨ (nr = 2 ∧ ops.writeSerial = none) ∨
    (nr = 3 ∧ ops.yieldCurrent = none) ∨ (nr = 4 ∧ ops.exitCurrent = none)

def RefusesMissing (s : SyscallState ε) : SyscallCall ε → Prop
  | .dispatch nr arg0 arg1 arg2 arg3 arg4 arg5 => Missing s.ops nr →
      ∃ ret, mcsosSyscallDispatch s nr arg0 arg1 arg2 arg3 arg4 arg5 = some (ret, s) ∧ ret < 0
  | .dispatchFrame (some frame) => Missing s.ops frame.nr →
      ∃ ret, mcsosSyscallDispatchFrame s (some frame) = some (some { frame with ret := ret }, s) ∧
        ret < 0
  | _ => True

structure SameGlobals (s t : SyscallState ε) : Prop where
  ops : t.ops = s.ops
  userRegion : t.userRegion = s.userRegion

theorem mcsosCopyFromUser_globals (s : SyscallState ε) (dst src len : UInt64) :
    ∃ r t, mcsosCopyFromUser s dst src len = some (r, t) ∧ SameGlobals s t :=
  mcsosCopyFromUser_keeps (SameGlobals s) ⟨rfl, rfl⟩ (fun _ _ _ _ ht _ =>
    ⟨ht.ops, ht.userRegion⟩)

def Guarded (s : SyscallState ε) (missing : Prop) (r : Option (Int64 × SyscallState ε)) : Prop :=
  ∃ ret t, r = some (ret, t) ∧ SameGlobals s t ∧ (missing → ret < 0 ∧ t = s)

theorem Guarded.refused (s : SyscallState ε) (missing : Prop) {status : Status}
    (h : status.code < 0) : Guarded s missing (some (status.code, s)) :=
  ⟨_, s, rfl, ⟨rfl, rfl⟩, fun _ => ⟨h, rfl⟩⟩

theorem Guarded.called (s : SyscallState ε) {missing : Prop} (h : ¬ missing) (e : Event)
    (ret : Int64) (env : ε) : Guarded s missing (some (ret, { s.note e with env := env })) :=
  ⟨ret, _, rfl, ⟨rfl, rfl⟩, fun hm => absurd hm h⟩

theorem Guarded.imp {s : SyscallState ε} {missing missing' : Prop}
    {r : Option (Int64 × SyscallState ε)} (h : Guarded s missing r)
    (himp : missing' → missing) : Guarded s missing' r := by
  obtain ⟨ret, t, hr, hsame, hrefuse⟩ := h
  exact ⟨ret, t, hr, hsame, fun hm => hrefuse (himp hm)⟩

theorem sysGetTicks_guarded (s : SyscallState ε) (a0 a1 a2 a3 a4 a5 : UInt64) :
    Guarded s (s.ops.getTicks = none) (sysGetTicks s a0 a1 a2 a3 a4 a5) := by
  rw [sysGetTicks]
  cases s.ops.getTicks with
  | none => exact Guarded.refused s _ (by decide)
  | some f => exact Guarded.called s (Option.some_ne_none f) .getTicks _ _

theorem sysYield_guarded (s : SyscallState ε) (a0 a1 a2 a3 a4 a5 : UInt64) :
    Guarded s (s.ops.yieldCurrent = none) (sysYield s a0 a1 a2 a3 a4 a5) := by
  rw [sysYield]
  cases s.ops.yieldCurrent with
  | none => exact Guarded.refused s _ (by decide)
  | some f => exact Guarded.called s (Option.some_ne_none f) .yieldCurrent _ _

theorem sysExitThread_guarded (s : SyscallState ε) (a0 a1 a2 a3 a4 a5 : UInt64) :
    Guarded s (s.ops.exitCurrent = none) (sysExitThread s a0 a1 a2 a3 a4 a5) := by
  rw [sysExitThread]
  cases s.ops.exitCurrent with
  | none => exact Guarded.refused s _ (by decide)
  | some f => exact Guarded.called s (Option.some_ne_none f) (.exitCurrent _) _ _

def NullWrite (s : SyscallState ε) (nr ptr len : UInt64) : Prop :=
  s.ops.writeSerial = none ∧ WriteAccepted s.userRegion nr ptr len

theorem sysWriteSerial_cases (s : SyscallState ε) (ptr len a2 a3 a4 a5 : UInt64) :
    (NullWrite s 2 ptr len ∧ sysWriteSerial s ptr len a2 a3 a4 a5 = none) ∨
      (¬ NullWrite s 2 ptr len ∧
        Guarded s (s.ops.writeSerial = none) (sysWriteSerial s ptr len a2 a3 a4 a5)) := by
  rw [sysWriteSerial]
  by_cases hnull : ptr = 0
  · rw [if_pos hnull]
    exact Or.inr ⟨fun h => h.2.2.1 hnull, Guarded.refused s _ (by decide)⟩
  by_cases hlong : len > 4096
  · rw [if_neg hnull, if_pos hlong]
    exact Or.inr ⟨fun h => h.2.2.2.1 hlong, Guarded.refused s _ (by decide)⟩
  by_cases hcheck : mcsosUserCheckRange s.userRegion ptr len = false
  · rw [if_neg hnull, if_neg hlong, if_pos hcheck]
    refine Or.inr ⟨fun h => ?_, Guarded.refused s _ (by decide)⟩
    exact Bool.noConfusion (hcheck.symm.trans h.2.2.2.2)
  rw [if_neg hnull, if_neg hlong, if_neg hcheck]
  cases hf : s.ops.writeSerial with
  | none => exact Or.inl ⟨⟨hf, rfl, hnull, hlong, Bool.eq_true_of_not_eq_false hcheck⟩, rfl⟩
  | some f =>
    refine Or.inr ⟨fun h => ?_, Guarded.called s (Option.some_ne_none f) (.writeSerial _ _) _ _⟩
    exact Option.some_ne_none f (hf.symm.trans h.1)

theorem not_nullWrite_of_ne {s : SyscallState ε} {nr ptr len : UInt64} (h : nr.toNat ≠ 2) :
    ¬ NullWrite s nr ptr len := by
  intro hnull
  exact h (congrArg UInt64.toNat hnull.2.1)

theorem mcsosSyscallDispatch_cases (s : SyscallState ε)
    (nr arg0 arg1 arg2 arg3 arg4 arg5 : UInt64) :
    (NullWrite s nr arg0 arg1 ∧
      mcsosSyscallDispatch s nr arg0 arg1 arg2 arg3 arg4 arg5 = none) ∨
    (¬ NullWrite s nr arg0 arg1 ∧ Guarded s (Missing s.ops nr)
      (mcsosSyscallDispatch s nr arg0 arg1 arg2 arg3 arg4 arg5)) := by
  by_cases hmax : nr ≥ sysMax
  · have hbig : 5 ≤ nr.toNat := UInt64.le_iff_toNat_le.mp hmax
    rw [mcsosSyscallDispatch, if_pos hmax]
    exact Or.inr ⟨not_nullWrite_of_ne (by omega), Guarded.refused s _ (by decide)⟩
  have hlt : nr.toNat < 5 := by
    rw [ge_iff_le, UInt64.le_iff_toNat_le, not_le] at hmax
    exact hmax
  have hnr : nr = 0 ∨ nr = 1 ∨ nr = 2 ∨ nr = 3 ∨ nr = 4 := by
    simp only [← UInt64.toNat_inj, UInt64.reduceToNat]
    omega
  rcases hnr with rfl | rfl | rfl | rfl | rfl
  · exact Or.inr ⟨not_nullWrite_of_ne (by decide), _, s, rfl, ⟨rfl, rfl⟩,
      fun hm => absurd hm (by simp [Missing])⟩
  · exact Or.inr ⟨not_nullWrite_of_ne (by decide),
      (sysGetTicks_guarded s arg0 arg1 arg2 arg3 arg4 arg5).imp (by simp [Missing])⟩
  · rcases sysWriteSerial_cases s arg0 arg1 arg2 arg3 arg4 arg5 with hnull | ⟨hnull, hguard⟩
    · exact Or.inl hnull
    · exact Or.inr ⟨hnull, hguard.imp (by simp [Missing])⟩
  · exact Or.inr ⟨not_nullWrite_of_ne (by decide),
      (sysYield_guarded s arg0 arg1 arg2 arg3 arg4 arg5).imp (by simp [Missing])⟩
  · exact Or.inr ⟨not_nullWrite_of_ne (by decide),
      (sysExitThread_guarded s arg0 arg1 arg2 arg3 arg4 arg5).imp (by simp [Missing])⟩

def SyscallCall.opsAfter (s : SyscallState ε) : SyscallCall ε → SyscallOps ε
  | .init ops => (mcsosSyscallInit s ops).ops
  | _ => s.ops

theorem syscallStep_cases (s : SyscallState ε) (c : SyscallCall ε) :
    ((s.ops.writeSerial = none ∧ c.Writes s.userRegion) ∧ syscallStep s c = none) ∨
      (¬ (s.ops.writeSerial = none ∧ c.Writes s.userRegion) ∧
        ∃ t r, syscallStep s c = some (t, r) ∧ t.ops = c.opsAfter s ∧
          t.userRegion = c.regionAfter s.userRegion) := by
  cases c with
  | init ops =>
    refine Or.inr ⟨fun h => h.2, _, _, rfl, rfl, ?_⟩
    cases ops with
    | none => rfl
    | some ops => rfl
  | setUserRegion region => exact Or.inr ⟨fun h => h.2, _, _, rfl, rfl, rfl⟩
  | copyFromUser dst src len =>
    obtain ⟨r, t, ht, hsame⟩ := mcsosCopyFromUser_globals s dst src len
    exact Or.inr ⟨fun h => h.2, t, .status r, by rw [syscallStep, ht]; rfl, hsame.ops,
      hsame.userRegion⟩
  | dispatch nr arg0 arg1 arg2 arg3 arg4 arg5 =>
    rcases mcsosSyscallDispatch_cases s nr arg0 arg1 arg2 arg3 arg4 arg5 with
      ⟨hnull, hcall⟩ | ⟨hnull, ret, t, hcall, hsame, -⟩
    · exact Or.inl ⟨hnull, by rw [syscallStep, hcall]; rfl⟩
    · exact Or.inr ⟨hnull, t, .value ret, by rw [syscallStep, hcall]; rfl, hsame.ops,
        hsame.userRegion⟩
  | dispatchFrame frame =>
    cases frame with
    | none => exact Or.inr ⟨fun h => h.2, _, _, rfl, rfl, rfl⟩
    | some frame =>
      rcases mcsosSyscallDispatch_cases s frame.nr frame.arg0 frame.arg1 frame.arg2 frame.arg3
        frame.arg4 frame.arg5 with ⟨hnull, hcall⟩ | ⟨hnull, ret, t, hcall, hsame, -⟩
      · exact Or.inl ⟨hnull, by rw [syscallStep, mcsosSyscallDispatchFrame, hcall]; rfl⟩
      · exact Or.inr ⟨hnull, t, .frame (some { frame with ret := ret }),
          by rw [syscallStep, mcsosSyscallDispatchFrame, hcall]; rfl, hsame.ops, hsame.userRegion⟩

theorem refusesMissing_of_returns (s : SyscallState ε) (c : SyscallCall ε)
    (h : syscallStep s c ≠ none) : RefusesMissing s c := by
  cases c with
  | dispatch nr arg0 arg1 arg2 arg3 arg4 arg5 =>
    rcases mcsosSyscallDispatch_cases s nr arg0 arg1 arg2 arg3 arg4 arg5 with
      ⟨-, hcall⟩ | ⟨-, ret, t, hcall, -, hrefuse⟩
    · exact absurd (by rw [syscallStep, hcall]; rfl) h
    · intro hmissing
      obtain ⟨hneg, rfl⟩ := hrefuse hmissing
      exact ⟨ret, hcall, hneg⟩
  | dispatchFrame frame =>
    cases frame with
    | none => exact trivial
    | some frame =>
      rcases mcsosSyscallDispatch_cases s frame.nr frame.arg0 frame.arg1 frame.arg2 frame.arg3
        frame.arg4 frame.arg5 with ⟨-, hcall⟩ | ⟨-, ret, t, hcall, -, hrefuse⟩
      · exact absurd (by rw [syscallStep, mcsosSyscallDispatchFrame, hcall]; rfl) h
      · intro hmissing
        obtain ⟨hneg, rfl⟩ := hrefuse hmissing
        exact ⟨ret, by rw [mcsosSyscallDispatchFrame, hcall], hneg⟩
  | init ops => exact trivial
  | setUserRegion region => exact trivial
  | copyFromUser dst src len => exact trivial

theorem init_or_keeps (c : SyscallCall ε) :
    (∃ ops, c = .init ops) ∨ (c.isInit = false ∧ ∀ s, c.opsAfter s = s.ops) := by
  cases c with
  | init ops => exact Or.inl ⟨ops, rfl⟩
  | setUserRegion region => exact Or.inr ⟨rfl, fun _ => rfl⟩
  | copyFromUser dst src len => exact Or.inr ⟨rfl, fun _ => rfl⟩
  | dispatch nr arg0 arg1 arg2 arg3 arg4 arg5 => exact Or.inr ⟨rfl, fun _ => rfl⟩
  | dispatchFrame frame => exact Or.inr ⟨rfl, fun _ => rfl⟩

theorem writer_opsAfter_init (s : SyscallState ε) (ops : Option (SyscallOps ε)) :
    ((SyscallCall.init ops).opsAfter s).writeSerial ≠ none :=
  Option.isSome_iff_ne_none.mp (mcsosSyscallInit_writer s ops)

theorem run_of_writer {s : SyscallState ε} (h : s.ops.writeSerial ≠ none)
    (calls : List (SyscallCall ε)) : (run syscallStep s calls).isSome = true := by
  have hstep : ∀ (s : SyscallState ε) c, s.ops.writeSerial ≠ none →
      ∃ t r, syscallStep s c = some (t, r) ∧ t.ops.writeSerial ≠ none := by
    intro s c hs
    rcases syscallStep_cases s c with ⟨hnull, -⟩ | ⟨-, t, r, hstep, hops, -⟩
    · exact absurd hnull.1 hs
    · refine ⟨t, r, hstep, ?_⟩
      rw [hops]
      rcases init_or_keeps c with ⟨ops, rfl⟩ | ⟨-, hkeeps⟩
      · exact writer_opsAfter_init s ops
      · rw [hkeeps]
        exact hs
  obtain ⟨t, rs, hrun, -⟩ := run_total _ hstep h calls
  rw [hrun]
  rfl

theorem run_isSome_iff {s : SyscallState ε} (hs : s.ops.writeSerial = none)
    (calls : List (SyscallCall ε)) :
    (run syscallStep s calls).isSome = true ↔ NoEarlyWrite s.userRegion calls := by
  induction calls generalizing s with
  | nil => exact ⟨fun _ => trivial, fun _ => rfl⟩
  | cons c calls ih =>
    rw [NoEarlyWrite]
    rcases syscallStep_cases s c with ⟨hnull, hstep⟩ | ⟨hnull, t, r, hstep, hops, hregion⟩
    · have hfault : run syscallStep s (c :: calls) = none := by rw [run, hstep]
      rw [hfault]
      rcases init_or_keeps c with ⟨ops, rfl⟩ | ⟨hinit, -⟩
      · exact absurd hnull.2 not_false
      · rw [hinit]
        exact ⟨fun h => Bool.noConfusion h,
          fun h => absurd hnull.2 (h.resolve_left Bool.false_ne_true).1⟩
    · rw [run_cons_isSome hstep]
      rcases init_or_keeps c with ⟨ops, rfl⟩ | ⟨hinit, hkeeps⟩
      · have hset := writer_opsAfter_init s ops
        rw [← hops] at hset
        exact ⟨fun _ => Or.inl rfl, fun _ => run_of_writer hset calls⟩
      · rw [hkeeps] at hops
        rw [ih (hops ▸ hs), hregion, hinit]
        exact ⟨fun h => Or.inr ⟨fun hw => hnull ⟨hs, hw⟩, h⟩,
          fun h => (h.resolve_left Bool.false_ne_true).2⟩

/-- From the zero-initialised globals a run calls no null pointer exactly when no write is
accepted before the first `mcsos_syscall_init`, and then every dispatch whose callback is
missing answers with a negative status. -/
theorem no_null_callback_iff (mem : Memory) (env : ε) (calls : List (SyscallCall ε)) :
    ((run syscallStep (zeroState mem env) calls).isSome = true ↔ NoEarlyWrite ⟨0, 0⟩ calls) ∧
      (NoEarlyWrite ⟨0, 0⟩ calls →
        Along syscallStep RefusesMissing (zeroState mem env) calls) := by
  have hiff : (run syscallStep (zeroState mem env) calls).isSome = true ↔
      NoEarlyWrite ⟨0, 0⟩ calls := run_isSome_iff rfl calls
  refine ⟨hiff, ?_⟩
  intro hearly
  exact Along.of_run refusesMissing_of_returns (hiff.mpr hearly)

theorem no_null_callback_sample :
    (run syscallStep (zeroState (fun _ => 0) ())
      [.dispatch 1 0 0 0 0 0 0, .dispatch 2 0x5000 4 0 0 0 0, .setUserRegion ⟨0x4000, 0x8000⟩,
        .init none, .dispatch 2 0x5000 4 0 0 0 0, .dispatch 3 0 0 0 0 0 0]).isSome = true ∧
    Along syscallStep RefusesMissing (zeroState (fun _ => 0) ())
      [.dispatch 1 0 0 0 0 0 0, .dispatch 2 0x5000 4 0 0 0 0, .setUserRegion ⟨0x4000, 0x8000⟩,
        .init none, .dispatch 2 0x5000 4 0 0 0 0, .dispatch 3 0 0 0 0 0 0] :=
  ⟨(no_null_callback_iff _ () _).1.mpr (by decide), (no_null_callback_iff _ () _).2 (by decide)⟩

/-- An empty write before any `mcsos_syscall_init` passes every check. -/
theorem empty_write_calls_null :
    run syscallStep (zeroState (fun _ => 0) ()) [.dispatch 2 0x5000 0 0 0 0 0] = none := by
  rfl

end Mcsos.Syscall
