import Mcsos.SchedState

/-!
# The ready queue in memory

`RunQueue w objects xs` says that the ready queue of the world is the list `xs` of thread
objects and that no other object is linked. Enqueueing, picking and switching are specified
by the list they leave, the state of every thread and the current thread.
-/

namespace Mcsos.Sched
open BoundedLoop ByteMemory LinkedQueue WordArithmetic

structure RunQueue (w : World) (objects xs : List UInt64) : Prop where
  initialized : w.sched.initialized ≠ 0
  queue : Queue w.nextOf 0 w.sched.readyHead w.sched.readyTail xs
  count : w.sched.runnableCount.toNat = xs.length
  valid : ∀ t ∈ objects, validThreadObject w t = true
  subset : ∀ t ∈ xs, t ∈ objects
  unlinked : ∀ t ∈ objects, t ∉ xs → w.nextOf t = 0

theorem validThreadObject_eq_true (w : World) (t : UInt64) :
    validThreadObject w t = true ↔ t ≠ 0 ∧ w.magicOf t = threadMagic := by
  simp only [validThreadObject, World.magicOf, Bool.and_eq_true, decide_eq_true_eq]

theorem validThreadObject_congr {w w' : World} (h : w'.magicOf = w.magicOf) (t : UInt64) :
    validThreadObject w' t = validThreadObject w t := by
  have ht : w'.magicOf t = w.magicOf t := congrFun h t
  simp only [validThreadObject]
  rw [World.magicOf, World.magicOf] at ht
  rw [ht]

theorem RunQueue.ne_null {w : World} {objects xs : List UInt64} (h : RunQueue w objects xs)
    {t : UInt64} (ht : t ∈ objects) : t ≠ 0 :=
  ((validThreadObject_eq_true w t).mp (h.valid t ht)).1

theorem length_lt_of_nodup {xs : List UInt64} {t : UInt64} (hnd : (t :: xs).Nodup)
    (hnull : 0 ∉ t :: xs) : xs.length + 1 < 2 ^ 64 := by
  have hinj : Function.Injective UInt64.toFin := fun x y hxy => UInt64.toFin_inj.mp hxy
  have hnd' := (List.nodup_cons.mpr ⟨hnull, hnd⟩).map hinj
  have hle := hnd'.length_le_card
  simp only [List.length_map, List.length_cons, Fintype.card_fin, UInt64.size] at hle
  omega

theorem RunQueue.room {w : World} {objects xs : List UInt64} (h : RunQueue w objects xs)
    {t : UInt64} (ht : t ∈ objects) (hnot : t ∉ xs) : xs.length + 1 < 2 ^ 64 := by
  refine length_lt_of_nodup (List.nodup_cons.mpr ⟨hnot, h.queue.nodup⟩) ?_
  intro hzero
  rcases List.mem_cons.mp hzero with hzero | hzero
  · exact h.ne_null ht hzero.symm
  · exact h.ne_null (h.subset 0 hzero) rfl

theorem RunQueue.congr {w w' : World} {objects xs : List UInt64} (h : RunQueue w objects xs)
    (hinit : w'.sched.initialized = w.sched.initialized)
    (hhead : w'.sched.readyHead = w.sched.readyHead)
    (htail : w'.sched.readyTail = w.sched.readyTail)
    (hcount : w'.sched.runnableCount = w.sched.runnableCount)
    (hmagic : w'.magicOf = w.magicOf) (hnext : w'.nextOf = w.nextOf) :
    RunQueue w' objects xs where
  initialized := hinit ▸ h.initialized
  queue := by rw [hnext, hhead, htail]; exact h.queue
  count := by rw [hcount]; exact h.count
  valid := fun t ht => by rw [validThreadObject_congr hmagic]; exact h.valid t ht
  subset := h.subset
  unlinked := by rw [hnext]; exact h.unlinked

theorem RunQueue.mem_congr {w : World} {objects objects' xs : List UInt64}
    (h : RunQueue w objects xs) (hmem : ∀ t, t ∈ objects' ↔ t ∈ objects) :
    RunQueue w objects' xs where
  initialized := h.initialized
  queue := h.queue
  count := h.count
  valid := fun t ht => h.valid t ((hmem t).mp ht)
  subset := fun t ht => (hmem t).mpr (h.subset t ht)
  unlinked := fun t ht => h.unlinked t ((hmem t).mp ht)

theorem RunQueue.setState {w : World} {objects xs : List UInt64} (h : RunQueue w objects xs)
    (p : UInt64) (state : ThreadState) : RunQueue (w.setState p state) objects xs :=
  h.congr rfl rfl rfl rfl (magicOf_setState w p state) (nextOf_setState w p state)

theorem appendReady_next (w : World) (t : UInt64) :
    (appendReady w t).nextOf =
      if w.sched.readyTail = 0 then Function.update w.nextOf t 0
      else Function.update (Function.update w.nextOf t 0) w.sched.readyTail t := by
  by_cases htail : w.sched.readyTail = 0
  · simp [appendReady, linkTail, htail]
  · simp [appendReady, linkTail, htail]

theorem appendReady_state (w : World) (t : UInt64) :
    (appendReady w t).stateOf = Function.update w.stateOf t .ready := by
  by_cases htail : w.sched.readyTail = 0
  · simp [appendReady, linkTail, htail]
  · simp [appendReady, linkTail, htail]

theorem appendReady_magic (w : World) (t : UInt64) : (appendReady w t).magicOf = w.magicOf := by
  by_cases htail : w.sched.readyTail = 0
  · simp [appendReady, linkTail, htail]
  · simp [appendReady, linkTail, htail]

theorem appendReady_sched (w : World) (t : UInt64) :
    (appendReady w t).sched = { w.sched with
      readyHead := if w.sched.readyTail = 0 then t else w.sched.readyHead
      readyTail := t
      runnableCount := w.sched.runnableCount + 1 } := by
  by_cases htail : w.sched.readyTail = 0
  · simp [appendReady, linkTail, htail]
  · simp [appendReady, linkTail, htail]

theorem appendReady_queue {w : World} {xs : List UInt64}
    (h : Queue w.nextOf 0 w.sched.readyHead w.sched.readyTail xs) {t : UInt64} (hnull : t ≠ 0)
    (hnot : t ∉ xs) :
    Queue (appendReady w t).nextOf 0 (appendReady w t).sched.readyHead
      (appendReady w t).sched.readyTail (xs ++ [t]) := by
  simp only [appendReady_sched, appendReady_next, h.tail_eq_null_iff]
  by_cases hnil : xs = []
  · simp only [hnil, if_true]
    refine (hnil ▸ h).push hnull (Function.update_self t 0 _) (fun hne => absurd rfl hne) ?_
    simp
  · have hne : t ≠ w.sched.readyTail := fun heq => hnot (heq ▸ h.tail_mem hnil)
    have hpush : Queue (Function.update (Function.update w.nextOf t 0) w.sched.readyTail t) 0
        (if xs = [] then t else w.sched.readyHead) t (xs ++ [t]) := by
      refine h.push hnull (by simp [hne]) (fun _ => Function.update_self _ _ _) ?_
      intro x hx hxt
      have hxne : x ≠ t := fun heq => hnot (heq ▸ hx)
      simp [hxt, hxne]
    simpa only [hnil, if_false] using hpush

theorem appendReady_count {w : World} {xs : List UInt64}
    (h : w.sched.runnableCount.toNat = xs.length) (hroom : xs.length + 1 < 2 ^ 64) (t : UInt64) :
    (appendReady w t).sched.runnableCount.toNat = (xs ++ [t]).length := by
  have hone : (1 : UInt64).toNat = 1 := rfl
  rw [appendReady_sched, toNat_add_of_lt _ _ (by rw [h, hone]; exact hroom), h,
    List.length_append]
  rfl

theorem RunQueue.appendReady {w : World} {objects xs : List UInt64} (h : RunQueue w objects xs)
    {t : UInt64} (ht : t ∈ objects) (hnot : t ∉ xs) :
    RunQueue (appendReady w t) objects (xs ++ [t]) := by
  have htail := h.queue.tail_eq_null_iff
  constructor
  case initialized => rw [appendReady_sched]; exact h.initialized
  case queue => exact appendReady_queue h.queue (h.ne_null ht) hnot
  case count => exact appendReady_count h.count (h.room ht hnot) t
  case valid =>
    intro u hu
    rw [validThreadObject_congr (appendReady_magic w t)]
    exact h.valid u hu
  case subset =>
    intro u hu
    rcases List.mem_append.mp hu with hu | hu
    · exact h.subset u hu
    · exact List.mem_singleton.mp hu ▸ ht
  case unlinked =>
    intro u hu hout
    rw [List.mem_append, List.mem_singleton, not_or] at hout
    have hold := h.unlinked u hu hout.1
    rw [appendReady_next]
    by_cases hzero : w.sched.readyTail = 0
    · simp [hzero, hout.2, hold]
    · have hne : u ≠ w.sched.readyTail := by
        intro heq
        exact hout.1 (heq ▸ h.queue.tail_mem (fun hnil => hzero (htail.mpr hnil)))
      simp [hzero, hne, hout.2, hold]

theorem mcsosSchedEnqueue_ok {w : World} {t : UInt64} (hinit : w.sched.initialized ≠ 0)
    (ht : validThreadObject w t = true)
    (hstate : w.stateOf t = .new ∨ w.stateOf t = .ready ∨ w.stateOf t = .blocked) :
    mcsosSchedEnqueue w t = (.ok, appendReady w t) := by
  rw [mcsosSchedEnqueue, if_neg, if_neg]
  · intro hbad
    rcases hstate with hs | hs | hs
    · exact hbad.1 hs
    · exact hbad.2.1 hs
    · exact hbad.2.2 hs
  · simp [hinit, ht]

theorem removeHead_state (w : World) (t : UInt64) : (removeHead w t).stateOf = w.stateOf := by
  simp [removeHead]

theorem removeHead_magic (w : World) (t : UInt64) : (removeHead w t).magicOf = w.magicOf := by
  simp [removeHead]

theorem removeHead_next (w : World) (t : UInt64) :
    (removeHead w t).nextOf = Function.update w.nextOf t 0 := by
  simp [removeHead]

theorem removeHead_queue {w : World} {xs : List UInt64} {x : UInt64}
    (h : Queue w.nextOf 0 w.sched.readyHead w.sched.readyTail (x :: xs)) :
    Queue (removeHead w x).nextOf 0 (removeHead w x).sched.readyHead
      (removeHead w x).sched.readyTail xs := by
  have hx : x ∉ xs := (List.nodup_cons.mp h.nodup).1
  rw [removeHead_next]
  apply h.pop
  intro y hy
  have hne : y ≠ x := fun heq => hx (heq ▸ hy)
  exact Function.update_of_ne hne _ _

theorem removeHead_count {w : World} {xs : List UInt64} {x : UInt64}
    (h : w.sched.runnableCount.toNat = (x :: xs).length) :
    (removeHead w x).sched.runnableCount.toNat = xs.length := by
  rw [List.length_cons] at h
  have hpos : w.sched.runnableCount > 0 := by
    rw [gt_iff_lt, UInt64.lt_iff_toNat_lt, h]
    exact Nat.succ_pos _
  have hone : (1 : UInt64) ≤ w.sched.runnableCount := by
    rw [UInt64.le_iff_toNat_le, h]
    exact Nat.le_add_left 1 _
  simp only [removeHead, sched_setSched, hpos, if_true]
  rw [UInt64.toNat_sub_of_le _ _ hone, h]
  rfl

theorem RunQueue.removeHead {w : World} {objects xs : List UInt64} {x : UInt64}
    (h : RunQueue w objects (x :: xs)) : RunQueue (removeHead w x) objects xs := by
  constructor
  case initialized => exact h.initialized
  case queue => exact removeHead_queue h.queue
  case count => exact removeHead_count h.count
  case valid =>
    intro u hu
    rw [validThreadObject_congr (removeHead_magic w x)]
    exact h.valid u hu
  case subset => exact fun u hu => h.subset u (List.mem_cons_of_mem x hu)
  case unlinked =>
    intro u hu hout
    rw [removeHead_next]
    by_cases hux : u = x
    · rw [hux, Function.update_self]
    · rw [Function.update_of_ne hux]
      exact h.unlinked u hu (by simp [hux, hout])

theorem mcsosSchedPickNext_spec {w : World} {objects xs : List UInt64}
    (h : RunQueue w objects xs) :
    ∃ w', mcsosSchedPickNext w = (xs.headD w.sched.idle, w') ∧ RunQueue w' objects xs.tail ∧
      w'.sched.current = w.sched.current ∧ w'.sched.idle = w.sched.idle ∧
      w'.stateOf = w.stateOf := by
  cases xs with
  | nil =>
    refine ⟨w, ?_, h, rfl, rfl, rfl⟩
    rw [mcsosSchedPickNext, if_neg h.initialized, if_pos (h.queue.head_eq_null_iff.mpr rfl)]
    rfl
  | cons x xs =>
    refine ⟨removeHead w x, ?_, h.removeHead, rfl, rfl, removeHead_state w x⟩
    have hhead : w.sched.readyHead = x := h.queue.chain.1
    rw [mcsosSchedPickNext, if_neg h.initialized, hhead,
      if_neg (h.ne_null (h.subset x List.mem_cons_self))]
    rfl

def requeued (w : World) (old : UInt64) : List UInt64 :=
  if w.stateOf old = .running ∧ old ≠ w.sched.idle then [old] else []

theorem requeueOld_spec {w : World} {objects xs : List UInt64} (h : RunQueue w objects xs)
    {old : UInt64} (hold : old ∈ objects) (hnot : old ∉ xs) :
    ∃ w', requeueOld w old = (.ok, w') ∧ RunQueue w' objects (xs ++ requeued w old) ∧
      w'.sched.idle = w.sched.idle ∧
      ∀ t, w'.stateOf t = if t ∈ requeued w old then .ready else w.stateOf t := by
  by_cases hback : w.stateOf old = .running ∧ old ≠ w.sched.idle
  · have hr := h.setState old .ready
    have hstate : (w.setState old .ready).stateOf old = .ready := by simp
    refine ⟨appendReady (w.setState old .ready) old, ?_, ?_, ?_, ?_⟩
    · rw [requeueOld, if_pos hback]
      exact mcsosSchedEnqueue_ok hr.initialized (hr.valid old hold) (Or.inr (Or.inl hstate))
    · rw [requeued, if_pos hback]
      exact hr.appendReady hold hnot
    · rw [appendReady_sched]
      rfl
    · intro t
      rw [requeued, if_pos hback, appendReady_state, stateOf_setState, Function.update_idem,
        Function.update_apply]
      simp only [List.mem_singleton]
  · refine ⟨w, ?_, ?_, rfl, ?_⟩
    · rw [requeueOld, if_neg hback]
    · rw [requeued, if_neg hback, List.append_nil]
      exact h
    · intro t
      rw [requeued, if_neg hback]
      simp

theorem switchTo_state (w : World) (old next : UInt64) :
    (switchTo w old next).stateOf = Function.update w.stateOf next .running := by
  simp [switchTo]

theorem RunQueue.switchTo {w : World} {objects xs : List UInt64} (h : RunQueue w objects xs)
    (old next : UInt64) : RunQueue (switchTo w old next) objects xs :=
  h.congr rfl rfl rfl rfl (by simp [Sched.switchTo]) (by simp [Sched.switchTo])

/-- A yield makes the first queued thread, or the idle thread, current and running, and
puts the old thread at the end of the queue if it was running and is not the idle thread. -/
theorem mcsosSchedYield_spec {w : World} {objects xs : List UInt64} (h : RunQueue w objects xs)
    (hcur : w.sched.current ∈ objects) (hidle : w.sched.idle ∈ objects)
    (hnot : w.sched.current ∉ xs) :
    ∃ w', mcsosSchedYield w = (.ok, w') ∧
      RunQueue w' objects (xs.tail ++ requeued w w.sched.current) ∧
      w'.sched.current = xs.headD w.sched.idle ∧ w'.sched.idle = w.sched.idle ∧
      ∀ t, w'.stateOf t = if t = xs.headD w.sched.idle then .running
        else if t ∈ requeued w w.sched.current then .ready else w.stateOf t := by
  obtain ⟨w₁, hpick, h₁, hcur₁, hidle₁, hstate₁⟩ := mcsosSchedPickNext_spec h
  have hnext : xs.headD w.sched.idle ∈ objects := by
    cases xs with
    | nil => exact hidle
    | cons x xs => exact h.subset x List.mem_cons_self
  have hguard : ¬ (w.sched.initialized = 0 ∨ validThreadObject w w.sched.current = false) := by
    simp [h.initialized, h.valid _ hcur]
  have hvalid : ¬ validThreadObject w₁ (xs.headD w.sched.idle) = false := by
    simp only [h₁.valid _ hnext, Bool.true_eq_false, not_false_eq_true]
  simp only [mcsosSchedYield, if_neg hguard, hpick, if_neg hvalid]
  by_cases hsame : xs.headD w.sched.idle = w.sched.current
  · have hcase : w.sched.current = w.sched.idle := by
      cases xs with
      | nil => exact hsame.symm
      | cons x xs => exact absurd (hsame ▸ List.mem_cons_self) hnot
    have hback : requeued w w.sched.current = [] := by
      rw [requeued, if_neg (fun hc => hc.2 hcase)]
    rw [if_pos hsame, hback, List.append_nil]
    refine ⟨_, rfl, h₁.setState _ _, ?_, hidle₁, ?_⟩
    · rw [sched_setState, hcur₁, hsame]
    · intro t
      rw [stateOf_setState, hstate₁, hsame, Function.update_apply]
      simp
  · rw [if_neg hsame]
    have hnot₁ : w.sched.current ∉ xs.tail := fun hmem => hnot (List.mem_of_mem_tail hmem)
    obtain ⟨w₂, hre, h₂, hidle₂, hstate₂⟩ := requeueOld_spec h₁ hcur hnot₁
    have hback : requeued w₁ w.sched.current = requeued w w.sched.current := by
      rw [requeued, requeued, hstate₁, hidle₁]
    rw [hback] at h₂ hstate₂
    refine ⟨switchTo w₂ w.sched.current (xs.headD w.sched.idle), ?_, h₂.switchTo _ _, rfl,
      hidle₂.trans hidle₁, ?_⟩
    · simp [hre]
    · intro t
      rw [switchTo_state, Function.update_apply, hstate₂, hstate₁]

structure Validated (w : World) (xs : List UInt64) (s : ValidateState) : Prop where
  split : ∃ done rest, xs = done ++ rest ∧ Chain w.nextOf 0 s.cursor rest ∧
    s.count.toNat = done.length ∧ s.last = done.getLastD 0

theorem validateBody_step {w : World} {objects xs : List UInt64} (h : RunQueue w objects xs)
    (hready : ∀ t ∈ xs, w.stateOf t = .ready) (hcur : w.sched.current ∈ objects)
    (hnot : w.sched.current ∉ xs) {s : ValidateState} (hs : Validated w xs s) :
    (∃ r, validateBody w s = some (.done r) ∧ r = .ok) ∨
      ∃ t, validateBody w s = some (.next t) ∧ Validated w xs t ∧
        xs.length - t.count.toNat < xs.length - s.count.toNat := by
  obtain ⟨done, rest, hxs, hchain, hcount, hlast⟩ := hs.split
  have hlen : xs.length = done.length + rest.length := by rw [hxs, List.length_append]
  cases rest with
  | nil =>
    rw [List.append_nil] at hxs
    have htail : s.last = w.sched.readyTail := by rw [hlast, h.queue.tail_eq, hxs]
    have hall : s.count = w.sched.runnableCount := by
      refine eq_of_toNat_eq ?_
      rw [hcount, h.count, hxs]
    have hcursor : s.cursor = 0 := hchain
    exact Or.inl ⟨.ok, by simp [validateBody, hcursor, htail, hall], rfl⟩
  | cons x rest =>
    have hx : x ∈ xs := by simp [hxs]
    have hcursor : s.cursor = x := hchain.1
    have hzero : ¬ s.cursor = 0 := hcursor ▸ hchain.2.1
    have hgood : ¬ (validThreadObject w s.cursor = false ∨ w.stateOf s.cursor ≠ .ready) := by
      simp [hcursor, h.valid x (h.subset x hx), hready x hx]
    have hother : ¬ s.cursor = w.sched.current := fun heq => hnot (heq ▸ hcursor ▸ hx)
    have hroom := h.room hcur hnot
    rw [List.length_cons] at hlen
    have hone : (1 : UInt64).toNat = 1 := rfl
    have hnext : (s.count + 1).toNat = done.length + 1 := by
      rw [toNat_add_of_lt _ _ (by omega), hcount, hone]
    have hbound : ¬ s.count + 1 > w.sched.runnableCount + 1 := by
      rw [gt_iff_lt, UInt64.lt_iff_toNat_lt, hnext,
        toNat_add_of_lt _ _ (by rw [h.count, hone]; exact hroom), h.count, hone]
      omega
    refine Or.inr ⟨⟨s.count + 1, w.nextOf s.cursor, s.cursor⟩, ?_, ?_, ?_⟩
    · rw [validateBody, if_neg hzero, if_neg hgood, if_neg hother, if_neg hbound]
    · refine ⟨done ++ [x], rest, by simp [hxs], ?_, ?_, ?_⟩
      · simpa only [hcursor] using hchain.2.2
      · simpa using hnext
      · simp [hcursor]
    · simp only [hnext]
      omega

theorem mcsosSchedValidate_of_runQueue {w : World} {objects xs : List UInt64}
    (h : RunQueue w objects xs) (hready : ∀ t ∈ xs, w.stateOf t = .ready)
    (hcur : w.sched.current ∈ objects) (hnot : w.sched.current ∉ xs) :
    mcsosSchedValidate w = some .ok := by
  have hguard : ¬ (w.sched.initialized = 0 ∨ validThreadObject w w.sched.current = false) := by
    simp [h.initialized, h.valid _ hcur]
  have hroom := h.room hcur hnot
  have hstart : Validated w xs ⟨0, w.sched.readyHead, 0⟩ :=
    ⟨[], xs, rfl, h.queue.chain, rfl, rfl⟩
  have hfuel : xs.length - (0 : UInt64).toNat < wordFuel := by
    rw [wordFuel]
    omega
  obtain ⟨r, hr, rfl⟩ := loop_total (Validated w xs) (· = SchedResult.ok)
    (fun s => xs.length - s.count.toNat)
    (fun s hs => validateBody_step h hready hcur hnot hs) hstart hfuel
  rw [mcsosSchedValidate, if_neg hguard]
  exact hr

/-- The ready queue of any world is the list `xs`: a finite path of distinct ready threads
that does not contain the current one, with its tail and its count. -/
structure ReadyList (w : World) (xs : List UInt64) : Prop where
  path : Chain w.nextOf 0 w.sched.readyHead xs
  distinct : xs.Nodup
  ready : ∀ t ∈ xs, validThreadObject w t = true ∧ w.stateOf t = .ready
  current : w.sched.current ∉ xs
  tail : w.sched.readyTail = xs.getLastD 0
  count : w.sched.runnableCount.toNat = xs.length

theorem ReadyList.appendReady {w : World} {xs : List UInt64} (h : ReadyList w xs) {t : UInt64}
    (ht : validThreadObject w t = true) (hnot : t ∉ xs) (hcur : t ≠ w.sched.current) :
    ReadyList (appendReady w t) (xs ++ [t]) := by
  have hnull := ((validThreadObject_eq_true w t).mp ht).1
  have hroom : xs.length + 1 < 2 ^ 64 := by
    apply length_lt_of_nodup (List.nodup_cons.mpr ⟨hnot, h.distinct⟩)
    intro hzero
    rcases List.mem_cons.mp hzero with hzero | hzero
    · exact hnull hzero.symm
    · exact h.path.ne_null 0 hzero rfl
  have hqueue := appendReady_queue ⟨h.path, h.tail⟩ hnull hnot
  constructor
  case path => exact hqueue.chain
  case distinct => exact hqueue.nodup
  case ready =>
    intro u hu
    rw [validThreadObject_congr (appendReady_magic w t), appendReady_state, Function.update_apply]
    by_cases hut : u = t
    · rw [if_pos hut, hut]
      exact ⟨ht, rfl⟩
    · rw [if_neg hut]
      rcases List.mem_append.mp hu with hu | hu
      · exact h.ready u hu
      · exact absurd (List.mem_singleton.mp hu) hut
  case current =>
    rw [appendReady_sched, List.mem_append, List.mem_singleton, not_or]
    exact ⟨h.current, Ne.symm hcur⟩
  case tail => exact hqueue.tail_eq
  case count => exact appendReady_count h.count hroom t

def EnqueueKeeps (w : World) (xs : List UInt64) (t : UInt64) : Prop :=
  ((mcsosSchedEnqueue w t).1 = .ok → ReadyList (mcsosSchedEnqueue w t).2 (xs ++ [t])) ∧
  ((mcsosSchedEnqueue w t).1 ≠ .ok → (mcsosSchedEnqueue w t).2 = w)

/-- The call keeps the queue exactly when a thread in a state that it accepts is neither
queued already nor the current one. -/
theorem enqueue_keeps_iff {w : World} {xs : List UInt64} (h : ReadyList w xs) {t : UInt64}
    (ht : validThreadObject w t = true) :
    EnqueueKeeps w xs t ↔ (w.sched.initialized ≠ 0 →
      w.stateOf t = .new ∨ w.stateOf t = .ready ∨ w.stateOf t = .blocked →
      t ∉ xs ∧ t ≠ w.sched.current) := by
  by_cases hinit : w.sched.initialized = 0
  · have hcall : mcsosSchedEnqueue w t = (.einval, w) := by simp [mcsosSchedEnqueue, hinit]
    simp [EnqueueKeeps, hcall, hinit]
  by_cases hstate : w.stateOf t = .new ∨ w.stateOf t = .ready ∨ w.stateOf t = .blocked
  · have hcall := mcsosSchedEnqueue_ok hinit ht hstate
    simp only [EnqueueKeeps, hcall, ne_eq, hinit, not_false_eq_true, hstate, true_implies,
      not_true_eq_false, false_implies, and_true]
    constructor
    · intro hlist
      have hcur := hlist.current
      rw [appendReady_sched, List.mem_append, List.mem_singleton, not_or] at hcur
      have hnd := List.nodup_append.mp hlist.distinct
      exact ⟨fun hmem => hnd.2.2 t hmem t (List.mem_singleton_self t) rfl, Ne.symm hcur.2⟩
    · intro hfresh
      exact h.appendReady ht hfresh.1 hfresh.2
  · have hcall : mcsosSchedEnqueue w t = (.estate, w) := by
      rw [mcsosSchedEnqueue, if_neg (by simp [hinit, ht]), if_pos (by tauto)]
    simp [EnqueueKeeps, hcall, hstate]

def queuedWorld : World where
  sched := { bootScheduler 4 with readyHead := 1, readyTail := 2, runnableCount := 2 }
  threads := fun p =>
    if p = 1 then { bootThreadObject with state := .ready, next := 2 }
    else if p = 2 then { bootThreadObject with state := .ready }
    else if p = 3 then { bootThreadObject with state := .new }
    else bootThreadObject
  mem := fun _ => 0

theorem queuedWorld_ready : ReadyList queuedWorld [1, 2] where
  path := by decide
  distinct := by decide
  ready := List.forall_mem_cons.mpr ⟨by decide, List.forall_mem_singleton.mpr (by decide)⟩
  current := by decide
  tail := rfl
  count := rfl

theorem enqueue_keeps_iff_sample :
    ReadyList queuedWorld [1, 2] ∧ validThreadObject queuedWorld 3 = true ∧
    (EnqueueKeeps queuedWorld [1, 2] 3 ↔ (queuedWorld.sched.initialized ≠ 0 →
      queuedWorld.stateOf 3 = .new ∨ queuedWorld.stateOf 3 = .ready ∨
        queuedWorld.stateOf 3 = .blocked →
      (3 : UInt64) ∉ [1, 2] ∧ 3 ≠ queuedWorld.sched.current)) :=
  ⟨queuedWorld_ready, by decide, enqueue_keeps_iff queuedWorld_ready (by decide)⟩

theorem enqueue_queued_thread_corrupts :
    ReadyList queuedWorld [1, 2] ∧ validThreadObject queuedWorld 1 = true ∧
    (mcsosSchedEnqueue queuedWorld 1).1 = .ok ∧ ¬ EnqueueKeeps queuedWorld [1, 2] 1 ∧
    Chain (mcsosSchedEnqueue queuedWorld 1).2.nextOf 0
      (mcsosSchedEnqueue queuedWorld 1).2.sched.readyHead [1] ∧
    (mcsosSchedEnqueue queuedWorld 2).1 = .ok ∧
    (mcsosSchedEnqueue queuedWorld 2).2.nextOf 2 = 2 := by
  -- Enqueueing the head again loses thread 2, and enqueueing the tail again makes it its own
  -- successor; both calls report success.
  have hlost : Chain (mcsosSchedEnqueue queuedWorld 1).2.nextOf 0
      (mcsosSchedEnqueue queuedWorld 1).2.sched.readyHead [1] := by decide
  refine ⟨queuedWorld_ready, by decide, by decide, fun h => ?_, hlost, by decide, by decide⟩
  have hpath := (h.1 (by decide)).path.unique hlost
  exact absurd hpath (by decide)

end Mcsos.Sched
