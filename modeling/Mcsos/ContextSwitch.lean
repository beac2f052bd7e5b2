import Mcsos.RegisterMachine
import Mcsos.SchedInvariants

/-!
# Context switches

The assembly of `mcsos_context_switch` on a register machine, with the context records in
byte memory at the offsets of `mcsos_context_t`. The address `label` of the continuation is
fixed by the linker. In a system any number of threads run one at a time and switch to one
another; `pending` notes, for every thread that is not running, the registers with which it
has to go on.
-/

namespace Mcsos.Sched
open ByteMemory WordArithmetic RegisterMachine StepRun

inductive Reg where
  | rax
  | rbx
  | rsp
  | rbp
  | rdi
  | rsi
  | r12
  | r13
  | r14
  | r15
  deriving DecidableEq, Repr

def contextSwitchCode : List (Instr Reg) :=
  [.leaLabel .rax,
    .store .rsp 0 .rdi,
    .store .rbp 8 .rdi,
    .store .rbx 16 .rdi,
    .store .r12 24 .rdi,
    .store .r13 32 .rdi,
    .store .r14 40 .rdi,
    .store .r15 48 .rdi,
    .store .rax 56 .rdi,
    .load 0 .rsi .rsp,
    .load 8 .rsi .rbp,
    .load 16 .rsi .rbx,
    .load 24 .rsi .r12,
    .load 32 .rsi .r13,
    .load 40 .rsi .r14,
    .load 48 .rsi .r15,
    .jmp 56 .rsi]

def continuationCode : List (Instr Reg) := [.ret]

def mcsosContextSwitch (label : UInt64) (m : Machine Reg) : Machine Reg :=
  let m' := execAll .rsp label m contextSwitchCode
  if m'.rip = label then execAll .rsp label m' continuationCode else m'

def callContextSwitch (label : UInt64) (m : Machine Reg) (oldContext newContext ret : UInt64) :
    Machine Reg :=
  mcsosContextSwitch label
    (((m.setReg .rdi oldContext).setReg .rsi newContext).push .rsp ret)

def registers (m : Machine Reg) (rip : UInt64) : Context :=
  ⟨m.regs .rsp, m.regs .rbp, m.regs .rbx, m.regs .r12, m.regs .r13, m.regs .r14, m.regs .r15, rip⟩

def view (m : Machine Reg) : Context := registers m m.rip

def contextAt (m : Memory) (p : ℕ) : Context :=
  ⟨loadU64 m p, loadU64 m (p + 8), loadU64 m (p + 16), loadU64 m (p + 24), loadU64 m (p + 32),
    loadU64 m (p + 40), loadU64 m (p + 48), loadU64 m (p + 56)⟩

def storeContext (m : Memory) (p : ℕ) (c : Context) : Memory :=
  let m := storeU64 m p c.rsp
  let m := storeU64 m (p + 8) c.rbp
  let m := storeU64 m (p + 16) c.rbx
  let m := storeU64 m (p + 24) c.r12
  let m := storeU64 m (p + 32) c.r13
  let m := storeU64 m (p + 40) c.r14
  let m := storeU64 m (p + 48) c.r15
  storeU64 m (p + 56) c.rip

theorem contextAt_congr {m m' : Memory} {p : ℕ} (h : ∀ x, p ≤ x → x < p + 64 → m x = m' x) :
    contextAt m p = contextAt m' p := by
  have hword : ∀ k, k ≤ 56 → loadU64 m (p + k) = loadU64 m' (p + k) := fun k hk =>
    loadU64_congr (fun x hx hx' => h x (by omega) (by omega))
  have hfirst := hword 0 (by omega)
  rw [Nat.add_zero] at hfirst
  simp only [contextAt, hfirst, hword 8 (by omega), hword 16 (by omega), hword 24 (by omega),
    hword 32 (by omega), hword 40 (by omega), hword 48 (by omega), hword 56 (by omega)]

theorem storeContext_outside (m : Memory) {p : ℕ} (c : Context) {x : ℕ}
    (hx : x < p ∨ p + 64 ≤ x) : storeContext m p c x = m x := by
  simp (disch := omega) only [storeContext, storeU64_outside]

theorem contextAt_storeContext (m : Memory) (p : ℕ) (c : Context) :
    contextAt (storeContext m p c) p = c := by
  simp (disch := omega) only [contextAt, storeContext, loadU64_storeU64,
    loadU64_storeU64_disjoint]

section Code

def savedSlots : List (Reg × UInt64) :=
  [(.rsp, 0), (.rbp, 8), (.rbx, 16), (.r12, 24), (.r13, 32), (.r14, 40), (.r15, 48), (.rax, 56)]

def loadedSlots : List (Reg × UInt64) :=
  [(.rsp, 0), (.rbp, 8), (.rbx, 16), (.r12, 24), (.r13, 32), (.r14, 40), (.r15, 48)]

theorem contextSwitchCode_eq :
    contextSwitchCode =
      [.leaLabel .rax] ++
        (saveAll .rdi savedSlots ++ (loadAll .rsi loadedSlots ++ [.jmp 56 .rsi])) :=
  rfl

theorem savedSlots_separate : Separate 64 savedSlots := by
  constructor
  · decide
  · decide

theorem loadedSlots_inside : ∀ p ∈ loadedSlots, p.2.toNat + 8 ≤ 64 := by
  decide

theorem save_spec {label old : UInt64} {m m' : Machine Reg}
    (hm' : execAll .rsp label (m.setReg .rax label) (saveAll .rdi savedSlots) = m')
    (hrdi : m.regs .rdi = old) (hold : old.toNat + 64 ≤ 2 ^ 64) :
    (∀ x, x < old.toNat ∨ old.toNat + 64 ≤ x → m'.mem x = m.mem x) ∧
      contextAt m'.mem old.toNat = registers m label ∧ m'.regs .rsi = m.regs .rsi := by
  have hbase : (m.setReg .rax label).regs .rdi = old := hrdi
  rw [← hbase] at hold
  have hslot : ∀ p ∈ savedSlots, ∀ k, p.2.toNat = k →
      loadU64 m'.mem (old.toNat + k) = (m.setReg .rax label).regs p.1 := by
    intro p hp k hk
    have hload := loadU64_saveAll .rsp label (m.setReg .rax label) .rdi savedSlots_separate hold hp
    rw [toNat_slot (savedSlots_separate.inside p hp) hold, hbase, hm', hk] at hload
    exact hload
  refine ⟨?_, ?_, ?_⟩
  · have houtside := @saveAll_outside _ _ .rsp label (m.setReg .rax label) .rdi _ _
      savedSlots_separate hold
    rw [hbase, hm'] at houtside
    exact fun x => houtside
  · simp only [contextAt, registers, Context.mk.injEq]
    exact ⟨hslot (.rsp, 0) (by decide) 0 rfl, hslot (.rbp, 8) (by decide) 8 rfl,
      hslot (.rbx, 16) (by decide) 16 rfl, hslot (.r12, 24) (by decide) 24 rfl,
      hslot (.r13, 32) (by decide) 32 rfl, hslot (.r14, 40) (by decide) 40 rfl,
      hslot (.r15, 48) (by decide) 48 rfl, hslot (.rax, 56) (by decide) 56 rfl⟩
  · rw [← hm', execAll_saveAll_regs]
    rfl

theorem load_spec {label new : UInt64} {m m' : Machine Reg}
    (hm' : execAll .rsp label m (loadAll .rsi loadedSlots ++ [.jmp 56 .rsi]) = m')
    (hrsi : m.regs .rsi = new) (hnew : new.toNat + 64 ≤ 2 ^ 64) :
    m'.mem = m.mem ∧ view m' = contextAt m.mem new.toNat := by
  obtain ⟨hmem, -, hregs⟩ := loadAll_frame .rsp label m .rsi loadedSlots
  have hslot : ∀ p ∈ loadedSlots, ∀ k, p.2.toNat = k →
      (execAll .rsp label m (loadAll .rsi loadedSlots)).regs p.1 =
        loadU64 m.mem (new.toNat + k) := by
    intro p hp k hk
    rw [← hk, ← toNat_slot (loadedSlots_inside p hp) hnew, ← hrsi]
    exact loadAll_regs .rsp label m .rsi (by decide) (by decide) hp
  rw [execAll_append] at hm'
  generalize execAll .rsp label m (loadAll .rsi loadedSlots) = m₁ at hmem hregs hslot hm'
  have hrip : loadU64 m₁.mem (m₁.regs .rsi + 56).toNat = loadU64 m.mem (new.toNat + 56) := by
    rw [hmem, hregs .rsi (by decide), hrsi, @toNat_slot new 56 64 (by decide) hnew]
    rfl
  simp only [execAll, List.foldl_cons, List.foldl_nil, exec] at hm'
  rw [← hm']
  refine ⟨hmem, ?_⟩
  simp only [view, registers, contextAt, Context.mk.injEq]
  exact ⟨hslot (.rsp, 0) (by decide) 0 rfl, hslot (.rbp, 8) (by decide) 8 rfl,
    hslot (.rbx, 16) (by decide) 16 rfl, hslot (.r12, 24) (by decide) 24 rfl,
    hslot (.r13, 32) (by decide) 32 rfl, hslot (.r14, 40) (by decide) 40 rfl,
    hslot (.r15, 48) (by decide) 48 rfl, hrip⟩

theorem contextSwitchCode_spec {label old new : UInt64} {m m' : Machine Reg}
    (hm' : execAll .rsp label m contextSwitchCode = m') (hrdi : m.regs .rdi = old)
    (hrsi : m.regs .rsi = new) (hold : old.toNat + 64 ≤ 2 ^ 64) (hnew : new.toNat + 64 ≤ 2 ^ 64) :
    (∀ x, x < old.toNat ∨ old.toNat + 64 ≤ x → m'.mem x = m.mem x) ∧
      contextAt m'.mem old.toNat = registers m label ∧
      view m' = contextAt m'.mem new.toNat := by
  have hlea : execAll .rsp label m [.leaLabel .rax] = m.setReg .rax label := rfl
  rw [contextSwitchCode_eq, execAll_append, execAll_append, hlea] at hm'
  obtain ⟨houtside, hsaved, hkept⟩ := save_spec rfl hrdi hold
  obtain ⟨hmem, hview⟩ := load_spec hm' (hkept.trans hrsi) hnew
  rw [hview, hmem]
  exact ⟨houtside, hsaved, rfl⟩

/-- The registers with which a thread goes on when the record `c` is loaded: behind the
label it returns to the address on its stack. -/
def continuation (label : UInt64) (m : Memory) (c : Context) : Context :=
  if c.rip = label then { c with rsp := c.rsp + 8, rip := loadU64 m c.rsp.toNat } else c

theorem mcsosContextSwitch_spec {label old new : UInt64} {m m' : Machine Reg}
    (hm' : mcsosContextSwitch label m = m') (hrdi : m.regs .rdi = old)
    (hrsi : m.regs .rsi = new) (hold : old.toNat + 64 ≤ 2 ^ 64) (hnew : new.toNat + 64 ≤ 2 ^ 64) :
    (∀ x, x < old.toNat ∨ old.toNat + 64 ≤ x → m'.mem x = m.mem x) ∧
      contextAt m'.mem old.toNat = registers m label ∧
      view m' = continuation label m'.mem (contextAt m'.mem new.toNat) := by
  obtain ⟨houtside, hsaved, hview⟩ := contextSwitchCode_spec rfl hrdi hrsi hold hnew
  rw [mcsosContextSwitch] at hm'
  generalize execAll .rsp label m contextSwitchCode = m₁ at houtside hsaved hview hm'
  have hrip : (view m₁).rip = m₁.rip := rfl
  by_cases hlabel : m₁.rip = label
  · have hmem : (execAll .rsp label m₁ continuationCode).mem = m₁.mem := rfl
    rw [if_pos hlabel] at hm'
    rw [← hm', hmem, ← hview, continuation, if_pos (hrip.trans hlabel)]
    exact ⟨houtside, hsaved, rfl⟩
  · rw [if_neg hlabel] at hm'
    rw [← hm', ← hview, continuation, hrip, if_neg hlabel]
    exact ⟨houtside, hsaved, rfl⟩

end Code

def recordBytes (p : ℕ) : Set ℕ := Set.Ico p (p + 64)

def contextOffset : UInt64 := 32

structure ThreadLayout (ι : Type*) where
  object : ι → UInt64
  stack : ι → Set ℕ
  fits : ∀ t, (object t + contextOffset).toNat + 64 ≤ 2 ^ 64
  apart : ∀ t u, t ≠ u →
    Disjoint (recordBytes (object t + contextOffset).toNat ∪ stack t)
      (recordBytes (object u + contextOffset).toNat ∪ stack u)

/-- The scheduler's thread objects, the machine, the running thread and, for every other
thread that has been prepared or has called the switch, the registers it has to go on with. -/
structure System (ι : Type*) where
  world : World
  machine : Machine Reg
  running : ι
  pending : ι → Option Context

inductive ThreadOp (ι : Type*) where
  | work (change : Machine Reg → Machine Reg)
  | prepare (thread : ι) (name : String) (entry arg stackBase stackSize id : UInt64)
  | switch (next : ι) (ret : UInt64)

def System.boot {ι : Type*} (w : World) (m : Machine Reg) (bootThread : ι) : System ι :=
  ⟨w, m, bootThread, fun _ => none⟩

namespace ThreadLayout

variable {ι : Type*} (L : ThreadLayout ι) (label trampoline : UInt64)

def record (t : ι) : UInt64 := L.object t + contextOffset

def owned (t : ι) : Set ℕ := recordBytes (L.record t).toNat ∪ L.stack t

/-- A thread does not write memory of another thread and calls the switch on its own stack.
A thread is prepared with its own stack, and only prepared or suspended threads are switched
to. -/
def Legal (s : System ι) : ThreadOp ι → Prop
  | .work change => ∀ t, t ≠ s.running → s.pending t ≠ none →
      ∀ x ∈ L.owned t, (change s.machine).mem x = s.machine.mem x
  | .prepare t _ _ _ stackBase stackSize _ =>
      ∀ x, stackBase.toNat ≤ x → x < stackBase.toNat + stackSize.toNat → x ∈ L.stack t
  | .switch next _ => (next = s.running ∨ s.pending next ≠ none) ∧
      8 ≤ (s.machine.regs .rsp).toNat ∧
      ∀ x, (s.machine.regs .rsp).toNat - 8 ≤ x → x < (s.machine.regs .rsp).toNat →
        x ∈ L.stack s.running ∧ x ∉ recordBytes (L.record s.running).toNat

structure Parked (m : Memory) (t : ι) (c : Context) : Prop where
  goesOn : continuation label m (contextAt m (L.record t).toNat) = c
  slot : (contextAt m (L.record t).toNat).rip = label →
    ∀ x, (contextAt m (L.record t).toNat).rsp.toNat ≤ x →
      x < (contextAt m (L.record t).toNat).rsp.toNat + 8 → x ∈ L.owned t

def Suspended (s : System ι) : Prop :=
  ∀ t, t ≠ s.running → ∀ c, s.pending t = some c → L.Parked label s.machine.mem t c

section Memory

variable {L label trampoline}

theorem outside_record {p x : ℕ} (hx : x ∉ recordBytes p) : x < p ∨ p + 64 ≤ x := by
  rw [recordBytes, Set.mem_Ico] at hx
  omega

theorem notMem_owned {t u : ι} (htu : t ≠ u) {x : ℕ} (hx : x ∈ L.owned t) : x ∉ L.owned u :=
  Set.disjoint_left.mp (L.apart t u htu) hx

theorem Parked.congr {m m' : Memory} {t : ι} {c : Context} (h : L.Parked label m t c)
    (hsame : ∀ x ∈ L.owned t, m' x = m x) : L.Parked label m' t c := by
  have hrecord : contextAt m' (L.record t).toNat = contextAt m (L.record t).toNat :=
    contextAt_congr (fun x hx hx' => hsame x (Or.inl ⟨hx, hx'⟩))
  constructor
  case goesOn =>
    rw [hrecord, ← h.goesOn, continuation, continuation]
    by_cases hlabel : (contextAt m (L.record t).toNat).rip = label
    · have hslot := h.slot hlabel
      rw [if_pos hlabel, if_pos hlabel,
        loadU64_congr (fun x hx hx' => hsame x (hslot x hx hx'))]
    · rw [if_neg hlabel, if_neg hlabel]
  case slot =>
    rw [hrecord]
    exact h.slot

theorem parked_storeContext (m : Memory) (t : ι) {c : Context} (hc : c.rip ≠ label) :
    L.Parked label (storeContext m (L.record t).toNat c) t c := by
  constructor
  case goesOn => rw [contextAt_storeContext, continuation, if_neg hc]
  case slot =>
    rw [contextAt_storeContext]
    exact fun hlabel => absurd hlabel hc

theorem callContextSwitch_spec {m m' : Machine Reg} {t : ι} (next : ι) (ret : UInt64)
    (hm' : callContextSwitch label m (L.record t) (L.record next) ret = m')
    (hroom : 8 ≤ (m.regs .rsp).toNat)
    (hslot : ∀ x, (m.regs .rsp).toNat - 8 ≤ x → x < (m.regs .rsp).toNat →
      x ∈ L.stack t ∧ x ∉ recordBytes (L.record t).toNat) :
    (∀ x, x ∉ L.owned t → m'.mem x = m.mem x) ∧
      L.Parked label m'.mem t (registers m ret) ∧
      view m' = continuation label m'.mem (contextAt m'.mem (L.record next).toNat) := by
  have height : (8 : UInt64).toNat = 8 := rfl
  have htop : (m.regs .rsp - 8).toNat = (m.regs .rsp).toNat - 8 :=
    UInt64.toNat_sub_of_le _ _ (by rw [UInt64.le_iff_toNat_le]; exact hroom)
  have hrdi : (((m.setReg .rdi (L.record t)).setReg .rsi (L.record next)).push .rsp ret).regs
      .rdi = L.record t := rfl
  have hrsi : (((m.setReg .rdi (L.record t)).setReg .rsi (L.record next)).push .rsp ret).regs
      .rsi = L.record next := rfl
  rw [callContextSwitch] at hm'
  obtain ⟨houtside, hsaved, hview⟩ :=
    mcsosContextSwitch_spec hm' hrdi hrsi (L.fits t) (L.fits next)
  have hpushed : ∀ x, x ∉ recordBytes (L.record t).toNat →
      m'.mem x = storeU64 m.mem (m.regs .rsp - 8).toNat ret x := by
    intro x hx
    apply houtside
    exact outside_record hx
  have hret : loadU64 m'.mem (m.regs .rsp - 8).toNat = ret := by
    rw [← loadU64_storeU64 m.mem (m.regs .rsp - 8).toNat ret]
    apply loadU64_congr
    intro x hx hx'
    exact hpushed x (hslot x (by omega) (by omega)).2
  have hrecord : contextAt m'.mem (L.record t).toNat =
      ⟨m.regs .rsp - 8, m.regs .rbp, m.regs .rbx, m.regs .r12, m.regs .r13, m.regs .r14,
        m.regs .r15, label⟩ := hsaved
  refine ⟨?_, ?_, hview⟩
  · intro x hx
    rw [owned, Set.mem_union, not_or] at hx
    rw [hpushed x hx.1]
    apply storeU64_outside
    by_contra hin
    exact hx.2 (hslot x (by omega) (by omega)).1
  · constructor
    case goesOn =>
      rw [hrecord, continuation, if_pos rfl, hret, UInt64.sub_add_cancel, registers]
    case slot =>
      rw [hrecord]
      intro _ x (hx : (m.regs .rsp - 8).toNat ≤ x) (hx' : x < (m.regs .rsp - 8).toNat + 8)
      exact Or.inr (hslot x (by omega) (by omega)).1

theorem stackTop_mem {thread entry stackBase stackSize : UInt64}
    (h : PrepareAccepts thread entry stackBase stackSize) :
    stackBase.toNat ≤ (stackTop stackBase stackSize).toNat ∧
      (stackTop stackBase stackSize).toNat + 8 ≤ stackBase.toNat + stackSize.toNat := by
  obtain ⟨-, -, -, hsize, hfits⟩ := h
  rw [stackTop_toNat hsize hfits]
  omega

end Memory

variable [DecidableEq ι]

def noted (s : System ι) (ret : UInt64) : ι → Option Context :=
  Function.update s.pending s.running (some (registers s.machine ret))

def step (s : System ι) : ThreadOp ι → System ι × Context
  | .work change =>
      ({ s with machine := change s.machine }, view (change s.machine))
  | .prepare t name entry arg stackBase stackSize id =>
      let r := mcsosThreadPrepare trampoline { s.world with mem := s.machine.mem } (L.object t)
        name entry arg stackBase stackSize id
      let c := (r.2.threads (L.object t)).context
      if r.1 = .ok then
        ({ s with
            world := r.2
            machine := s.machine.setMem (storeContext r.2.mem (L.record t).toNat c)
            pending := Function.update s.pending t (some c) }, view s.machine)
      else (s, view s.machine)
  | .switch next ret =>
      let m := callContextSwitch label s.machine (L.record s.running) (L.record next) ret
      ({ s with
          machine := m
          running := next
          pending := Function.update (noted s ret) next none }, view m)

def Resumes (s : System ι) : ThreadOp ι → Prop
  | .switch next ret => noted s ret next = some (L.step label trampoline s (.switch next ret)).2
  | _ => True

variable {L label trampoline}

theorem Suspended.work {s : System ι} (h : L.Suspended label s)
    {change : Machine Reg → Machine Reg} (hlegal : L.Legal s (.work change)) :
    L.Suspended label (L.step label trampoline s (.work change)).1 := by
  intro t ht c hc
  exact (h t ht c hc).congr (hlegal t ht (Option.ne_none_iff_exists'.mpr ⟨c, hc⟩))

theorem Suspended.prepare {s : System ι} (h : L.Suspended label s) (hcode : trampoline ≠ label)
    {t : ι} {name : String} {entry arg stackBase stackSize id : UInt64}
    (hlegal : L.Legal s (.prepare t name entry arg stackBase stackSize id)) :
    L.Suspended label
      (L.step label trampoline s (.prepare t name entry arg stackBase stackSize id)).1 := by
  by_cases haccept : PrepareAccepts (L.object t) entry stackBase stackSize
  · have hcall := mcsosThreadPrepare_of_accepts trampoline
      { s.world with mem := s.machine.mem } name arg id haccept
    have htop := stackTop_mem haccept
    intro u hu c hc
    simp only [step, hcall, if_true, World.setThread, Function.update_self] at hu hc ⊢
    by_cases hut : u = t
    · subst hut
      rw [Function.update_self] at hc
      rw [← Option.some.inj hc]
      exact parked_storeContext _ u hcode
    · rw [Function.update_of_ne hut] at hc
      apply (h u hu c hc).congr
      intro x hx
      have hother := notMem_owned hut hx
      rw [owned, Set.mem_union, not_or] at hother
      have htop' : x < (stackTop stackBase stackSize).toNat ∨
          (stackTop stackBase stackSize).toNat + 8 ≤ x := by
        by_contra hin
        exact hother.2 (hlegal x (by omega) (by omega))
      exact (storeContext_outside _ _ (outside_record hother.1)).trans
        (storeU64_outside _ _ _ htop')
  · obtain ⟨r, hcall, hr⟩ := mcsosThreadPrepare_of_not_accepts trampoline
      { s.world with mem := s.machine.mem } name arg id haccept
    simp only [step, hcall, hr, if_false]
    exact h

theorem Suspended.switch {s : System ι} (h : L.Suspended label s) {next : ι} {ret : UInt64}
    (hlegal : L.Legal s (.switch next ret)) :
    L.Resumes label trampoline s (.switch next ret) ∧
      L.Suspended label (L.step label trampoline s (.switch next ret)).1 := by
  obtain ⟨hnext, hroom, hslot⟩ := hlegal
  obtain ⟨m', hm'⟩ : ∃ m', callContextSwitch label s.machine (L.record s.running)
      (L.record next) ret = m' := ⟨_, rfl⟩
  have hstep : L.step label trampoline s (.switch next ret) =
      (⟨s.world, m', next, Function.update (noted s ret) next none⟩, view m') := by
    rw [step, hm']
  obtain ⟨houtside, hparked, hview⟩ := callContextSwitch_spec next ret hm' hroom hslot
  have hall : ∀ u c, noted s ret u = some c → L.Parked label m'.mem u c := by
    intro u c hc
    by_cases hu : u = s.running
    · rw [hu, noted, Function.update_self] at hc
      rw [hu, ← Option.some.inj hc]
      exact hparked
    · rw [noted, Function.update_of_ne hu] at hc
      exact (h u hu c hc).congr (fun x hx => houtside x (notMem_owned hu hx))
  have hlive : ∃ c, noted s ret next = some c := by
    by_cases hself : next = s.running
    · exact ⟨_, by rw [hself, noted, Function.update_self]⟩
    · obtain ⟨c, hc⟩ := Option.ne_none_iff_exists'.mp (hnext.resolve_left hself)
      exact ⟨c, by rw [noted, Function.update_of_ne hself, hc]⟩
  rw [Resumes, hstep]
  constructor
  · obtain ⟨c, hc⟩ := hlive
    rw [hc, hview, (hall next c hc).goesOn]
  · intro u (hu : u ≠ next) c (hc : Function.update (noted s ret) next none u = some c)
    rw [Function.update_of_ne hu] at hc
    exact hall u c hc

/-- In every run of legal steps, each switch leaves the machine with the registers, the stack
pointer and the instruction pointer that were noted when the next thread was prepared or
called the switch itself. -/
theorem every_switch_resumes (L : ThreadLayout ι) (hcode : trampoline ≠ label) (w : World)
    (m : Machine Reg) (bootThread : ι) {ops : List (ThreadOp ι)}
    (hlegal : AlongTotal (L.step label trampoline) L.Legal (System.boot w m bootThread) ops) :
    AlongTotal (L.step label trampoline) (L.Resumes label trampoline)
      (System.boot w m bootThread) ops := by
  apply AlongTotal.of_invariant (L.Suspended label) _ _ hlegal
  · intro s op hs hop
    cases op with
    | work change => exact ⟨trivial, hs.work hop⟩
    | prepare t name entry arg stackBase stackSize id => exact ⟨trivial, hs.prepare hcode hop⟩
    | switch next ret => exact hs.switch hop
  · intro t _ c hc
    exact absurd hc (Option.some_ne_none c).symm

end ThreadLayout

def twoThreads : ThreadLayout Bool where
  object := fun t => if t then 0x2000 else 0x1000
  stack := fun t => if t then Set.Ico 0x8000 0x9000 else Set.Ico 0x4000 0x6000
  fits := by decide
  apart := by
    have hboot : ∀ x ∈ recordBytes 0x1020 ∪ Set.Ico 0x4000 0x6000,
        x ∉ recordBytes 0x2020 ∪ Set.Ico 0x8000 0x9000 := by
      intro x hx hx'
      simp only [recordBytes, Set.mem_union, Set.mem_Ico] at hx hx'
      omega
    intro t u htu
    cases t with
    | false =>
      cases u with
      | false => exact absurd rfl htu
      | true => exact Set.disjoint_left.mpr hboot
    | true =>
      cases u with
      | false => exact Disjoint.symm (Set.disjoint_left.mpr hboot)
      | true => exact absurd rfl htu

def bootMachine : Machine Reg := ⟨fun r => if r = .rsp then 0x6000 else 0, 0, fun _ => 0⟩

theorem twoThreads_legal_switch {s : System Bool} {next : Bool} (top ret : UInt64)
    (hnext : s.pending next ≠ none) (hrsp : s.machine.regs .rsp = top)
    (hstack : (s.running = false ∧ 0x4008 ≤ top.toNat ∧ top.toNat ≤ 0x6000) ∨
      (s.running = true ∧ 0x8008 ≤ top.toNat ∧ top.toNat ≤ 0x9000)) :
    twoThreads.Legal s (.switch next ret) := by
  refine ⟨Or.inr hnext, ?_⟩
  rw [hrsp]
  rcases hstack with ⟨hrun, hlow, hhigh⟩ | ⟨hrun, hlow, hhigh⟩
  · refine ⟨by omega, ?_⟩
    intro x hx hx'
    have hout : ¬ (0x1020 ≤ x ∧ x < 0x1060) := by omega
    rw [hrun]
    exact ⟨⟨by omega, by omega⟩, hout⟩
  · refine ⟨by omega, ?_⟩
    intro x hx hx'
    have hout : ¬ (0x2020 ≤ x ∧ x < 0x2060) := by omega
    rw [hrun]
    exact ⟨⟨by omega, by omega⟩, hout⟩

theorem every_switch_resumes_sample :
    AlongTotal (twoThreads.step 0x300 0x100) (twoThreads.Resumes 0x300 0x100)
      (System.boot blankWorld bootMachine false)
      [.prepare true "a" 0x200 0 0x8000 0x1000 1, .switch true 0x500,
        .work (fun m => m.setReg .rbx 7), .switch false 0x600] := by
  apply ThreadLayout.every_switch_resumes twoThreads (by decide)
  refine ⟨fun x hx hx' => ⟨hx, hx'⟩, ?_, fun _ _ _ _ _ => rfl, ?_, trivial⟩
  · exact twoThreads_legal_switch 0x6000 0x500 (by decide +kernel) (by decide +kernel)
      (Or.inl (by decide +kernel))
  · exact twoThreads_legal_switch 0x8FF8 0x600 (by decide +kernel) (by decide +kernel)
      (Or.inr (by decide +kernel))

end Mcsos.Sched
