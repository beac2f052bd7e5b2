import Mathlib

/-!
# Runs of a partial step function

A system is a step function from a state and a call to a new state and an observed
result; `none` is a fault. A run performs a list of calls. The rules lift what one
step preserves, or how one step simulates an abstract step, to every finite run.
-/

namespace Mcsos.StepRun

variable {σ τ α β : Type*}

def run (step : σ → α → Option (σ × β)) : σ → List α → Option (σ × List β)
  | s, [] => some (s, [])
  | s, a :: as =>
      match step s a with
      | none => none
      | some (t, b) =>
          match run step t as with
          | none => none
          | some (u, bs) => some (u, b :: bs)

/-- Every call of the run satisfies `P` in the state in which it is made. -/
def Along (step : σ → α → Option (σ × β)) (P : σ → α → Prop) : σ → List α → Prop
  | _, [] => True
  | s, a :: as => P s a ∧ ∀ t b, step s a = some (t, b) → Along step P t as

def runTotal (step : τ → α → τ × β) : τ → List α → τ × List β
  | t, [] => (t, [])
  | t, a :: as =>
      let r := step t a
      let rs := runTotal step r.1 as
      (rs.1, r.2 :: rs.2)

theorem run_total_along {step : σ → α → Option (σ × β)} (I : σ → Prop) (P : σ → α → Prop)
    (hstep : ∀ s a, I s → P s a → ∃ t b, step s a = some (t, b) ∧ I t)
    {s : σ} (hs : I s) {as : List α} (hP : Along step P s as) :
    ∃ u bs, run step s as = some (u, bs) ∧ I u := by
  induction as generalizing s with
  | nil => exact ⟨s, [], rfl, hs⟩
  | cons a as ih =>
    obtain ⟨t, b, ht, hI⟩ := hstep s a hs hP.1
    obtain ⟨u, bs, hu, hI'⟩ := ih hI (hP.2 t b ht)
    exact ⟨u, b :: bs, by simp only [run, ht, hu], hI'⟩

theorem Along.trivial (step : σ → α → Option (σ × β)) (s : σ) (as : List α) :
    Along step (fun _ _ => True) s as := by
  induction as generalizing s with
  | nil => exact True.intro
  | cons a as ih => exact ⟨True.intro, fun t b _ => ih t⟩

theorem Along.mono {step : σ → α → Option (σ × β)} {P Q : σ → α → Prop} {s : σ} {as : List α}
    (h : Along step P s as) (hPQ : ∀ s, ∀ a ∈ as, P s a → Q s a) : Along step Q s as := by
  induction as generalizing s with
  | nil => exact True.intro
  | cons a as ih =>
    exact ⟨hPQ s a List.mem_cons_self h.1,
      fun t b ht => ih (h.2 t b ht) (fun s c hc => hPQ s c (List.mem_cons_of_mem a hc))⟩

theorem run_cons_isSome {step : σ → α → Option (σ × β)} {s t : σ} {a : α} {b : β}
    (h : step s a = some (t, b)) (as : List α) :
    (run step s (a :: as)).isSome = (run step t as).isSome := by
  rw [run, h]
  cases hrun : run step t as with
  | none => simp only [hrun]
  | some r => simp only [hrun, Option.isSome_some]

theorem Along.of_run {step : σ → α → Option (σ × β)} {Q : σ → α → Prop}
    (hstep : ∀ s a, step s a ≠ none → Q s a) {s : σ} {as : List α}
    (hrun : (run step s as).isSome = true) : Along step Q s as := by
  induction as generalizing s with
  | nil => exact True.intro
  | cons a as ih =>
    have hsome : step s a ≠ none := by
      intro hnone
      simp [run, hnone] at hrun
    refine ⟨hstep s a hsome, ?_⟩
    intro t b ht
    rw [run_cons_isSome ht] at hrun
    exact ih hrun

theorem run_total {step : σ → α → Option (σ × β)} (I : σ → Prop)
    (hstep : ∀ s a, I s → ∃ t b, step s a = some (t, b) ∧ I t)
    {s : σ} (hs : I s) (as : List α) : ∃ u bs, run step s as = some (u, bs) ∧ I u :=
  run_total_along I (fun _ _ => True) (fun s a h _ => hstep s a h) hs (Along.trivial step s as)

instance Along.decidable (step : σ → α → Option (σ × β)) (P : σ → α → Prop)
    [∀ s a, Decidable (P s a)] : ∀ s as, Decidable (Along step P s as)
  | _, [] => isTrue True.intro
  | s, a :: as =>
      match h : step s a with
      | none => decidable_of_iff (P s a)
          ⟨fun hp => ⟨hp, fun t b hs => by rw [h] at hs; cases hs⟩, And.left⟩
      | some (t, b) =>
          have := Along.decidable step P t as
          decidable_of_iff (P s a ∧ Along step P t as)
            ⟨fun hp => ⟨hp.1, fun u c hs => by rw [h] at hs; cases hs; exact hp.2⟩,
              fun hp => ⟨hp.1, hp.2 t b h⟩⟩

/-- A forward simulation: related states make the same observation and stay related. -/
theorem run_refines {step : σ → α → Option (σ × β)} {astep : τ → α → τ × β}
    (R : σ → τ → Prop)
    (hstep : ∀ s t a, R s t → ∃ s', step s a = some (s', (astep t a).2) ∧ R s' (astep t a).1)
    {s : σ} {t : τ} (h : R s t) (as : List α) :
    ∃ s', run step s as = some (s', (runTotal astep t as).2) ∧ R s' (runTotal astep t as).1 := by
  induction as generalizing s t with
  | nil => exact ⟨s, rfl, h⟩
  | cons a as ih =>
    obtain ⟨s₁, hs₁, hR₁⟩ := hstep s t a h
    obtain ⟨s₂, hs₂, hR₂⟩ := ih hR₁
    exact ⟨s₂, by simp only [run, hs₁, hs₂, runTotal], hR₂⟩

theorem run_congr_on {step step' : σ → α → Option (σ × β)} (I : σ → Prop)
    (hsame : ∀ s a, I s → step' s a = step s a)
    (hkeep : ∀ s a t b, I s → step s a = some (t, b) → I t) {s : σ} (hs : I s) (as : List α) :
    run step' s as = run step s as := by
  induction as generalizing s with
  | nil => rfl
  | cons a as ih =>
    rw [run, run, hsame s a hs]
    cases hstep : step s a with
    | none => rfl
    | some r => simp only [ih (hkeep s a r.1 r.2 hs hstep)]

theorem run_lockstep {σ' : Type*} {step : σ → α → Option (σ × β)}
    {step' : σ' → α → Option (σ' × β)} (R : σ → σ' → Prop) (P : σ' → α → Prop)
    (hstep : ∀ s s' a, R s s' → P s' a →
      ∃ t t' b, step s a = some (t, b) ∧ step' s' a = some (t', b) ∧ R t t')
    {s : σ} {s' : σ'} (h : R s s') {as : List α} (hP : Along step' P s' as) :
    ∃ u u' bs, run step s as = some (u, bs) ∧ run step' s' as = some (u', bs) := by
  induction as generalizing s s' with
  | nil => exact ⟨s, s', [], rfl, rfl⟩
  | cons a as ih =>
    obtain ⟨t, t', b, ht, ht', hR⟩ := hstep s s' a h hP.1
    obtain ⟨u, u', bs, hu, hu'⟩ := ih hR (hP.2 t' b ht')
    exact ⟨u, u', b :: bs, by simp only [run, ht, hu], by simp only [run, ht', hu']⟩

def AlongTotal (step : σ → α → σ × β) (P : σ → α → Prop) : σ → List α → Prop
  | _, [] => True
  | s, a :: as => P s a ∧ AlongTotal step P (step s a).1 as

theorem AlongTotal.trivial (step : σ → α → σ × β) (s : σ) (as : List α) :
    AlongTotal step (fun _ _ => True) s as := by
  induction as generalizing s with
  | nil => exact True.intro
  | cons a as ih => exact ⟨True.intro, ih _⟩

instance AlongTotal.decidable (step : σ → α → σ × β) (P : σ → α → Prop)
    [∀ s a, Decidable (P s a)] : ∀ s as, Decidable (AlongTotal step P s as)
  | _, [] => isTrue True.intro
  | s, a :: as =>
      have := AlongTotal.decidable step P (step s a).1 as
      inferInstanceAs (Decidable (P s a ∧ AlongTotal step P (step s a).1 as))

theorem runTotal_invariant {step : σ → α → σ × β} (I : σ → Prop) (P : σ → α → Prop)
    (hstep : ∀ s a, I s → P s a → I (step s a).1) {s : σ} {as : List α} (hs : I s)
    (hP : AlongTotal step P s as) : I (runTotal step s as).1 := by
  induction as generalizing s with
  | nil => exact hs
  | cons a as ih => exact ih (hstep s a hs hP.1) hP.2

theorem AlongTotal.of_invariant {step : σ → α → σ × β} (I : σ → Prop) {P Q : σ → α → Prop}
    (hstep : ∀ s a, I s → P s a → Q s a ∧ I (step s a).1) {s : σ} {as : List α} (hs : I s)
    (hP : AlongTotal step P s as) : AlongTotal step Q s as := by
  induction as generalizing s with
  | nil => exact True.intro
  | cons a as ih =>
    obtain ⟨hQ, hI⟩ := hstep s a hs hP.1
    exact ⟨hQ, ih hI hP.2⟩

theorem runTotal_fixed {step : σ → α → σ × β} {s : σ} (h : ∀ a, (step s a).1 = s)
    (as : List α) : (runTotal step s as).1 = s := by
  apply runTotal_invariant (· = s) (fun _ _ => True) _ rfl (AlongTotal.trivial _ _ _)
  intro s' a hs _
  rw [hs]
  exact h a

theorem runTotal_append (step : σ → α → σ × β) (s : σ) (as bs : List α) :
    (runTotal step s (as ++ bs)).1 = (runTotal step (runTotal step s as).1 bs).1 := by
  induction as generalizing s with
  | nil => rfl
  | cons a as ih => exact ih (step s a).1

theorem AlongTotal.append {step : σ → α → σ × β} {P : σ → α → Prop} {s : σ} {as bs : List α} :
    AlongTotal step P s (as ++ bs) ↔
      AlongTotal step P s as ∧ AlongTotal step P (runTotal step s as).1 bs := by
  induction as generalizing s with
  | nil => exact ⟨fun h => ⟨True.intro, h⟩, And.right⟩
  | cons a as ih => exact (and_congr_right (fun _ => ih)).trans and_assoc.symm

def Always (step : σ → α → σ × β) (Q : σ → Prop) : σ → List α → Prop
  | s, [] => Q s
  | s, a :: as => Q s ∧ Always step Q (step s a).1 as

theorem Always.start {step : σ → α → σ × β} {Q : σ → Prop} {s : σ} {as : List α}
    (h : Always step Q s as) : Q s := by
  cases as with
  | nil => exact h
  | cons a as => exact h.1

theorem Always.of_invariant {step : σ → α → σ × β} (I : σ → Prop) {Q : σ → Prop}
    (P : σ → α → Prop) (hQ : ∀ s, I s → Q s) (hstep : ∀ s a, I s → P s a → I (step s a).1) {s : σ}
    {as : List α} (hs : I s) (hP : AlongTotal step P s as) : Always step Q s as := by
  induction as generalizing s with
  | nil => exact hQ s hs
  | cons a as ih => exact ⟨hQ s hs, ih (hstep s a hs hP.1) hP.2⟩

theorem runTotal_simulates {step : σ → α → σ × β} {astep : τ → α → τ}
    (R : σ → τ → Prop) (P : σ → α → Prop)
    (hstep : ∀ s t a, R s t → P s a → R (step s a).1 (astep t a))
    {s : σ} {t : τ} {as : List α} (h : R s t) (hP : AlongTotal step P s as) :
    R (runTotal step s as).1 (as.foldl astep t) := by
  induction as generalizing s t with
  | nil => exact h
  | cons a as ih => exact ih (hstep s t a h hP.1) hP.2

theorem runTotal_lockstep {step : σ → α → σ × β} {astep : τ → α → τ × β} (R : σ → τ → Prop)
    (P : σ → α → Prop)
    (hstep : ∀ s t a, R s t → P s a →
      (step s a).2 = (astep t a).2 ∧ R (step s a).1 (astep t a).1)
    {s : σ} {t : τ} {as : List α} (h : R s t) (hP : AlongTotal step P s as) :
    (runTotal step s as).2 = (runTotal astep t as).2 ∧
      R (runTotal step s as).1 (runTotal astep t as).1 := by
  induction as generalizing s t with
  | nil => exact ⟨rfl, h⟩
  | cons a as ih =>
    obtain ⟨hsame, hnext⟩ := hstep s t a h hP.1
    obtain ⟨hrest, hend⟩ := ih hnext hP.2
    exact ⟨congrArg₂ List.cons hsame hrest, hend⟩

theorem runTotal_observed {step : σ → α → σ × β} {next : τ → β → τ} (R : σ → τ → Prop)
    (hstep : ∀ s t a, R s t → R (step s a).1 (next t (step s a).2))
    {s : σ} {t : τ} (h : R s t) (as : List α) :
    R (runTotal step s as).1 ((runTotal step s as).2.foldl next t) := by
  induction as generalizing s t with
  | nil => exact h
  | cons a as ih => exact ih (hstep s t a h)

/-- If, in the states of the invariant, a step keeps `Q` exactly when `G` holds of it, then
`Q` holds throughout a run exactly when `G` holds of all its steps. -/
theorem always_iff_along {step : σ → α → σ × β} (I Q : σ → Prop) (P G : σ → α → Prop)
    (hinv : ∀ s a, I s → P s a → I (step s a).1)
    (hkeep : ∀ s a, I s → Q s → P s a → (Q (step s a).1 ↔ G s a))
    {s : σ} {as : List α} (hs : I s) (hQ : Q s) (hP : AlongTotal step P s as) :
    Always step Q s as ↔ AlongTotal step G s as := by
  induction as generalizing s with
  | nil => exact ⟨fun _ => trivial, fun _ => hQ⟩
  | cons a as ih =>
    have hI := hinv s a hs hP.1
    constructor
    · intro h
      have hQ' := h.2.start
      exact ⟨(hkeep s a hs hQ hP.1).mp hQ', (ih hI hQ' hP.2).mp h.2⟩
    · intro h
      have hQ' := (hkeep s a hs hQ hP.1).mpr h.1
      exact ⟨hQ, (ih hI hQ' hP.2).mpr h.2⟩

/-- The answers `bs` to the calls `as` are those of an abstract system: in the state `t` it may
answer `b` to `a` if `Ok t a b`, and `next t a b` is its state afterwards. -/
def Explained (Ok : τ → α → β → Prop) (next : τ → α → β → τ) : τ → List α → List β → Prop
  | _, [], [] => True
  | t, a :: as, b :: bs => Ok t a b ∧ Explained Ok next (next t a b) as bs
  | _, _, _ => False

theorem runTotal_explained {step : σ → α → σ × β} {Ok : τ → α → β → Prop}
    {next : τ → α → β → τ} (R : σ → τ → Prop)
    (hstep : ∀ s t a, R s t → Ok t a (step s a).2 ∧ R (step s a).1 (next t a (step s a).2))
    {s : σ} {t : τ} (h : R s t) (as : List α) :
    Explained Ok next t as (runTotal step s as).2 := by
  induction as generalizing s t with
  | nil => trivial
  | cons a as ih =>
    obtain ⟨hok, hnext⟩ := hstep s t a h
    exact ⟨hok, ih hnext⟩

def explainedState (next : τ → α → β → τ) : τ → List α → List β → τ
  | t, a :: as, b :: bs => explainedState next (next t a b) as bs
  | t, _, _ => t

theorem run_explained {step : σ → α → Option (σ × β)} {Ok : τ → α → β → Prop}
    {next : τ → α → β → τ} (R : σ → τ → Prop) (P : σ → α → Prop)
    (hstep : ∀ s t a, R s t → P s a →
      ∃ s' b, step s a = some (s', b) ∧ Ok t a b ∧ R s' (next t a b))
    {s : σ} {t : τ} (h : R s t) {as : List α} (hP : Along step P s as) :
    ∃ s' bs, run step s as = some (s', bs) ∧ Explained Ok next t as bs ∧
      R s' (explainedState next t as bs) := by
  induction as generalizing s t with
  | nil => exact ⟨s, [], rfl, trivial, h⟩
  | cons a as ih =>
    obtain ⟨s₁, b, hs₁, hok, hR⟩ := hstep s t a h hP.1
    obtain ⟨s₂, bs, hs₂, hexplained, hR'⟩ := ih hR (hP.2 s₁ b hs₁)
    exact ⟨s₂, b :: bs, by simp only [run, hs₁, hs₂], ⟨hok, hexplained⟩, hR'⟩

def countAlong (step : σ → α → σ × β) (test : σ → α → Bool) : σ → List α → ℕ
  | _, [] => 0
  | s, a :: as => (test s a).toNat + countAlong step test (step s a).1 as

theorem runTotal_counter {step : σ → α → σ × β} {test : σ → α → Bool} {n : ℕ} (I : σ → Prop)
    (P : σ → α → Prop) (counter : σ → ℕ) (hlt : ∀ s, counter s < n)
    (hinv : ∀ s a, I s → P s a → I (step s a).1)
    (hcount : ∀ s a, I s → P s a →
      counter (step s a).1 = (counter s + (test s a).toNat) % n)
    {s : σ} {as : List α} (hs : I s) (hP : AlongTotal step P s as) :
    counter (runTotal step s as).1 = (counter s + countAlong step test s as) % n := by
  induction as generalizing s with
  | nil => exact (Nat.mod_eq_of_lt (hlt s)).symm
  | cons a as ih =>
    have hrest := ih (hinv s a hs hP.1) hP.2
    rw [hcount s a hs hP.1, Nat.mod_add_mod, add_assoc] at hrest
    exact hrest

end Mcsos.StepRun
