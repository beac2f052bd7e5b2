import Mathlib

/-!
# Cooperative round robin

The abstract scheduler: one current task, a first-in first-out list of ready tasks, the
blocked tasks and the tasks that have been created but never woken. The idle task runs
when nothing else does and is in none of the lists. No task is in two places, and every
operation keeps the tasks it finds.
-/

namespace Mcsos

variable {P : Type*} [DecidableEq P]

structure RoundRobin (P : Type*) [DecidableEq P] where
  idle : P
  current : P
  ready : List P
  blocked : List P
  fresh : List P
  distinct : (idle :: ((if current = idle then [] else [current]) ++
    ready ++ blocked ++ fresh)).Nodup

namespace RoundRobin

def active (a : RoundRobin P) : List P := if a.current = a.idle then [] else [a.current]

def roster (a : RoundRobin P) : List P := a.active ++ a.ready ++ a.blocked ++ a.fresh

def tasks (a : RoundRobin P) : List P := a.idle :: a.roster

theorem nodup_tasks (a : RoundRobin P) : a.tasks.Nodup := a.distinct

theorem idle_not_mem_roster (a : RoundRobin P) : a.idle ∉ a.roster :=
  (List.nodup_cons.mp a.nodup_tasks).1

theorem nodup_roster (a : RoundRobin P) : a.roster.Nodup :=
  (List.nodup_cons.mp a.nodup_tasks).2

theorem nodup_of_perm (a : RoundRobin P) {xs : List P} (h : xs.Perm a.roster) :
    (a.idle :: xs).Nodup :=
  (h.cons a.idle).nodup_iff.mpr a.nodup_tasks

theorem idle_mem_tasks (a : RoundRobin P) : a.idle ∈ a.tasks := List.mem_cons_self

theorem mem_tasks (a : RoundRobin P) (t : P) :
    t ∈ a.tasks ↔ t = a.idle ∨ t = a.current ∨ t ∈ a.ready ∨ t ∈ a.blocked ∨ t ∈ a.fresh := by
  by_cases h : a.current = a.idle
  · simp only [tasks, roster, active, h, if_true, List.nil_append, List.mem_cons,
      List.mem_append]
    tauto
  · simp only [tasks, roster, active, h, if_false, List.mem_cons, List.mem_append,
      List.not_mem_nil, or_false]
    tauto

theorem current_mem_tasks (a : RoundRobin P) : a.current ∈ a.tasks :=
  (a.mem_tasks a.current).mpr (Or.inr (Or.inl rfl))

theorem mem_tasks_of_waiting (a : RoundRobin P) {t : P} (h : t ∈ a.blocked ++ a.fresh) :
    t ∈ a.tasks := by
  rw [mem_tasks]
  exact Or.inr (Or.inr (Or.inr (List.mem_append.mp h)))

theorem idle_not_mem_active (a : RoundRobin P) : a.idle ∉ a.active := fun h =>
  a.idle_not_mem_roster (by simp [roster, h])

theorem eq_current_of_mem_active (a : RoundRobin P) {t : P} (h : t ∈ a.active) :
    t = a.current := by
  by_cases hidle : a.current = a.idle
  · simp [active, hidle] at h
  · simpa [active, hidle] using h

theorem idle_not_mem (a : RoundRobin P) : a.idle ∉ a.ready ++ a.blocked ++ a.fresh := by
  intro h
  exact a.idle_not_mem_roster (by simp only [roster, List.append_assoc] at h ⊢; simp [h])

theorem current_not_mem (a : RoundRobin P) : a.current ∉ a.ready ++ a.blocked ++ a.fresh := by
  by_cases h : a.current = a.idle
  · rw [h]
    exact a.idle_not_mem
  · have hnd := a.nodup_roster
    rw [roster, active, if_neg h, List.append_assoc, List.append_assoc,
      List.singleton_append] at hnd
    rw [List.append_assoc]
    exact (List.nodup_cons.mp hnd).1

theorem nodup_waiting (a : RoundRobin P) : (a.ready ++ a.blocked ++ a.fresh).Nodup := by
  have hnd := a.nodup_roster
  rw [roster, List.append_assoc, List.append_assoc] at hnd
  rw [List.append_assoc]
  exact (List.nodup_append.mp hnd).2.1

def start (idle : P) : RoundRobin P :=
  { idle := idle, current := idle, ready := [], blocked := [], fresh := [],
    distinct := by simp }

def adopt (a : RoundRobin P) (t : P) : RoundRobin P :=
  if h : t ∈ a.tasks then a
  else
    { a with
      fresh := t :: a.fresh
      distinct := by
        have hperm : (a.idle :: (a.active ++ a.ready ++ a.blocked ++ t :: a.fresh)).Perm
            (t :: a.tasks) :=
          (List.perm_middle.cons a.idle).trans (List.Perm.swap t a.idle a.roster)
        exact hperm.nodup_iff.mpr (List.nodup_cons.mpr ⟨h, a.nodup_tasks⟩) }

theorem perm_wake (a : RoundRobin P) {t : P} (h : t ∈ a.blocked ++ a.fresh) :
    (a.active ++ (a.ready ++ [t]) ++ a.blocked.erase t ++ a.fresh.erase t).Perm a.roster := by
  have hpos := List.count_pos_iff.mpr h
  have hone := List.nodup_iff_count_le_one.mp a.nodup_roster t
  simp only [roster, List.count_append] at hpos hone
  refine List.perm_iff_count.mpr (fun x => ?_)
  by_cases hx : x = t
  · subst hx
    simp only [roster, List.count_append, List.count_erase_self, List.count_singleton_self]
    omega
  · simp only [roster, List.count_append, List.count_erase_of_ne hx, List.count_singleton,
      beq_iff_eq, Ne.symm hx, if_false]
    omega

def wake (a : RoundRobin P) (t : P) : RoundRobin P :=
  if h : t ∈ a.blocked ++ a.fresh then
    { a with
      ready := a.ready ++ [t]
      blocked := a.blocked.erase t
      fresh := a.fresh.erase t
      distinct := a.nodup_of_perm (a.perm_wake h) }
  else a

theorem head_ne_idle (a : RoundRobin P) {x : P} {xs : List P} (h : a.ready = x :: xs) :
    x ≠ a.idle := by
  intro hx
  exact a.idle_not_mem_roster (by simp [roster, h, hx])

theorem perm_yield (a : RoundRobin P) :
    ((if a.ready.headD a.idle = a.idle then [] else [a.ready.headD a.idle]) ++
      (a.ready.tail ++ a.active) ++ a.blocked ++ a.fresh).Perm a.roster := by
  cases h : a.ready with
  | nil => simp [roster, h]
  | cons x xs =>
    have hx := a.head_ne_idle h
    simp only [List.headD_cons, hx, if_false, List.tail_cons, roster, h]
    refine List.perm_iff_count.mpr (fun t => ?_)
    simp only [List.count_append, List.count_cons, List.count_nil]
    omega

/-- The first ready task becomes current, and the current task, unless idle, goes to the
end of the ready list. With no ready task the idle task becomes current. -/
def yield (a : RoundRobin P) : RoundRobin P :=
  { a with
    current := a.ready.headD a.idle
    ready := a.ready.tail ++ a.active
    distinct := a.nodup_of_perm a.perm_yield }

theorem perm_block (a : RoundRobin P) (hidle : a.current ≠ a.idle) :
    ((if a.ready.headD a.idle = a.idle then [] else [a.ready.headD a.idle]) ++
      a.ready.tail ++ (a.current :: a.blocked) ++ a.fresh).Perm a.roster := by
  have hperm := a.perm_yield
  rw [active, if_neg hidle] at hperm
  simpa only [List.append_assoc, List.cons_append, List.nil_append] using hperm

/-- The current task is blocked and the first ready task, or the idle task, takes over. -/
def block (a : RoundRobin P) : RoundRobin P :=
  if h : a.current = a.idle then a
  else
    { a with
      current := a.ready.headD a.idle
      ready := a.ready.tail
      blocked := a.current :: a.blocked
      distinct := a.nodup_of_perm (a.perm_block h) }

@[simp] theorem adopt_idle (a : RoundRobin P) (t : P) : (a.adopt t).idle = a.idle := by
  rw [adopt, apply_dite RoundRobin.idle]
  exact dite_eq_ite.trans (ite_self _)

@[simp] theorem adopt_current (a : RoundRobin P) (t : P) : (a.adopt t).current = a.current := by
  rw [adopt, apply_dite RoundRobin.current]
  exact dite_eq_ite.trans (ite_self _)

@[simp] theorem adopt_ready (a : RoundRobin P) (t : P) : (a.adopt t).ready = a.ready := by
  rw [adopt, apply_dite RoundRobin.ready]
  exact dite_eq_ite.trans (ite_self _)

@[simp] theorem adopt_blocked (a : RoundRobin P) (t : P) : (a.adopt t).blocked = a.blocked := by
  rw [adopt, apply_dite RoundRobin.blocked]
  exact dite_eq_ite.trans (ite_self _)

@[simp] theorem adopt_fresh (a : RoundRobin P) {t : P} (h : t ∉ a.tasks) :
    (a.adopt t).fresh = t :: a.fresh := by
  simp only [adopt, h, ↓reduceDIte]

@[simp] theorem wake_idle (a : RoundRobin P) (t : P) : (a.wake t).idle = a.idle := by
  rw [wake, apply_dite RoundRobin.idle]
  exact dite_eq_ite.trans (ite_self _)

@[simp] theorem wake_current (a : RoundRobin P) (t : P) : (a.wake t).current = a.current := by
  rw [wake, apply_dite RoundRobin.current]
  exact dite_eq_ite.trans (ite_self _)

@[simp] theorem wake_ready (a : RoundRobin P) {t : P} (h : t ∈ a.blocked ++ a.fresh) :
    (a.wake t).ready = a.ready ++ [t] := by
  simp only [wake, h, ↓reduceDIte]

@[simp] theorem wake_blocked (a : RoundRobin P) {t : P} (h : t ∈ a.blocked ++ a.fresh) :
    (a.wake t).blocked = a.blocked.erase t := by
  simp only [wake, h, ↓reduceDIte]

@[simp] theorem wake_fresh (a : RoundRobin P) {t : P} (h : t ∈ a.blocked ++ a.fresh) :
    (a.wake t).fresh = a.fresh.erase t := by
  simp only [wake, h, ↓reduceDIte]

@[simp] theorem block_idle (a : RoundRobin P) (h : a.current ≠ a.idle) :
    (a.block).idle = a.idle := by
  simp only [block, h, ↓reduceDIte]

@[simp] theorem block_current (a : RoundRobin P) (h : a.current ≠ a.idle) :
    (a.block).current = a.ready.headD a.idle := by
  simp only [block, h, ↓reduceDIte]

@[simp] theorem block_ready (a : RoundRobin P) (h : a.current ≠ a.idle) :
    (a.block).ready = a.ready.tail := by
  simp only [block, h, ↓reduceDIte]

@[simp] theorem block_blocked (a : RoundRobin P) (h : a.current ≠ a.idle) :
    (a.block).blocked = a.current :: a.blocked := by
  simp only [block, h, ↓reduceDIte]

@[simp] theorem block_fresh (a : RoundRobin P) (h : a.current ≠ a.idle) :
    (a.block).fresh = a.fresh := by
  simp only [block, h, ↓reduceDIte]

theorem roster_adopt (a : RoundRobin P) {t : P} (h : t ∉ a.tasks) :
    (a.adopt t).roster.Perm (t :: a.roster) := by
  simp only [adopt, h, ↓reduceDIte]
  exact List.perm_middle

theorem roster_wake (a : RoundRobin P) (t : P) : (a.wake t).roster.Perm a.roster := by
  by_cases h : t ∈ a.blocked ++ a.fresh
  · simp only [wake, h, ↓reduceDIte]
    exact a.perm_wake h
  · simp only [wake, h, ↓reduceDIte]
    exact List.Perm.refl _

theorem roster_yield (a : RoundRobin P) : a.yield.roster.Perm a.roster := a.perm_yield

theorem roster_block (a : RoundRobin P) : a.block.roster.Perm a.roster := by
  by_cases h : a.current = a.idle
  · simp only [block, h, ↓reduceDIte]
    exact List.Perm.refl _
  · simp only [block, h, ↓reduceDIte]
    exact a.perm_block h

end RoundRobin
end Mcsos
