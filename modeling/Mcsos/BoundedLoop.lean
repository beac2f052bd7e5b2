import Mathlib

/-!
# Loops with a bounded number of iterations

A C loop is a body that either continues with a new loop state or leaves the loop
with a result. The body may fault, and the fuel bounds the number of iterations; both
failures are `none`, so a result of the form `some r` is a terminating, fault-free run.
The rule below gives total correctness from an invariant and a decreasing measure.
-/

namespace Mcsos.BoundedLoop

variable {σ ρ : Type*}

inductive Control (σ ρ : Type*) where
  | next (s : σ) : Control σ ρ
  | done (r : ρ) : Control σ ρ

def loop (body : σ → Option (Control σ ρ)) : ℕ → σ → Option ρ
  | 0, _ => none
  | fuel + 1, s =>
      match body s with
      | none => none
      | some (.done r) => some r
      | some (.next t) => loop body fuel t

/-- A loop over 64-bit counters that terminates does so within this many iterations. -/
def wordFuel : ℕ := 2 ^ 64

theorem loop_done {body : σ → Option (Control σ ρ)} {fuel : ℕ} {s : σ} {r : ρ}
    (h : body s = some (.done r)) : loop body (fuel + 1) s = some r := by
  simp only [loop, h]

theorem loop_next {body : σ → Option (Control σ ρ)} {fuel : ℕ} {s t : σ}
    (h : body s = some (.next t)) : loop body (fuel + 1) s = loop body fuel t := by
  simp only [loop, h]

/-- A family of bodies that agree in the states of the invariant: one result for all of them. -/
theorem loop_total_family {ι : Type*} {body : ι → σ → Option (Control σ ρ)} (I : σ → Prop)
    (Q : ρ → Prop) (μ : σ → ℕ)
    (hstep : ∀ s, I s → (∃ r, (∀ i, body i s = some (.done r)) ∧ Q r) ∨
      ∃ t, (∀ i, body i s = some (.next t)) ∧ I t ∧ μ t < μ s)
    {fuel : ℕ} {s : σ} (hs : I s) (hfuel : μ s < fuel) :
    ∃ r, (∀ i, loop (body i) fuel s = some r) ∧ Q r := by
  induction fuel generalizing s with
  | zero => omega
  | succ fuel ih =>
    rcases hstep s hs with ⟨r, hr, hq⟩ | ⟨t, ht, hI, hμ⟩
    · exact ⟨r, fun i => loop_done (hr i), hq⟩
    · obtain ⟨r, hr, hq⟩ := ih hI (by omega)
      exact ⟨r, fun i => (loop_next (ht i)).trans (hr i), hq⟩

theorem loop_total {body : σ → Option (Control σ ρ)} (I : σ → Prop) (Q : ρ → Prop) (μ : σ → ℕ)
    (hstep : ∀ s, I s → (∃ r, body s = some (.done r) ∧ Q r) ∨
      ∃ t, body s = some (.next t) ∧ I t ∧ μ t < μ s)
    {fuel : ℕ} {s : σ} (hs : I s) (hfuel : μ s < fuel) :
    ∃ r, loop body fuel s = some r ∧ Q r := by
  have hfamily : ∃ r, (∀ _ : Unit, loop body fuel s = some r) ∧ Q r :=
    loop_total_family I Q μ (by simpa only [forall_const] using hstep) hs hfuel
  simpa only [forall_const] using hfamily

theorem loop_lockstep {σ' ρ' : Type*} {body : σ → Option (Control σ ρ)}
    (body' : σ' → Option (Control σ' ρ')) (R : σ → σ' → Prop) (Q : ρ → ρ' → Prop)
    (hstep : ∀ s s', R s s' →
      (∃ r r', body s = some (.done r) ∧ body' s' = some (.done r') ∧ Q r r') ∨
      ∃ t t', body s = some (.next t) ∧ body' s' = some (.next t') ∧ R t t')
    {fuel : ℕ} {s : σ} {s' : σ'} (hs : R s s') {r : ρ} (hr : loop body fuel s = some r) :
    ∃ r', loop body' fuel s' = some r' ∧ Q r r' := by
  induction fuel generalizing s s' with
  | zero => cases hr
  | succ fuel ih =>
    rcases hstep s s' hs with ⟨q, q', hq, hq', hQ⟩ | ⟨t, t', ht, ht', hR⟩
    · rw [loop_done hq] at hr
      cases hr
      exact ⟨q', loop_done hq', hQ⟩
    · rw [loop_next ht] at hr
      rw [loop_next ht']
      exact ih hR hr

def visits (body : σ → Option (Control σ ρ)) : ℕ → σ → List σ
  | 0, _ => []
  | fuel + 1, s =>
      match body s with
      | some (.next t) => s :: visits body fuel t
      | _ => [s]

theorem visits_done {body : σ → Option (Control σ ρ)} {fuel : ℕ} {s : σ} {r : ρ}
    (h : body s = some (.done r)) : visits body (fuel + 1) s = [s] := by
  simp only [visits, h]

theorem visits_next {body : σ → Option (Control σ ρ)} {fuel : ℕ} {s t : σ}
    (h : body s = some (.next t)) : visits body (fuel + 1) s = s :: visits body fuel t := by
  simp only [visits, h]

end Mcsos.BoundedLoop
