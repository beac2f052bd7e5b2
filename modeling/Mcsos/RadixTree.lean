import Mathlib

/-!
# Trees of tables in a store

A store links nodes by indexed edges. A path of indices is followed from a root, and the tree
is separated up to a depth if different paths of at most that length reach different nodes.
Hanging an empty fresh node on a missing edge adds exactly one path.
-/

namespace Mcsos.RadixTree

variable {N I : Type*}

def reach (next : N → I → Option N) : N → List I → Option N
  | n, [] => some n
  | n, i :: is => (next n i).bind (fun k => reach next k is)

theorem reach_append (next : N → I → Option N) (n : N) (ρ σ : List I) :
    reach next n (ρ ++ σ) = (reach next n ρ).bind (fun k => reach next k σ) := by
  induction ρ generalizing n with
  | nil => rfl
  | cons j ρ ih =>
    simp only [List.cons_append, reach]
    cases next n j with
    | none => rfl
    | some k => exact ih k

theorem reach_concat (next : N → I → Option N) (n : N) (ρ : List I) (i : I) :
    reach next n (ρ ++ [i]) = (reach next n ρ).bind (fun k => next k i) := by
  simp only [reach_append, reach, Option.bind_fun_some]

theorem reach_concat_of_some {next : N → I → Option N} {n k : N} {ρ : List I}
    (h : reach next n ρ = some k) (i : I) : reach next n (ρ ++ [i]) = next k i := by
  rw [reach_concat, h, Option.bind_some]

theorem length_concat_le {J : Type*} {ρ : List I} {σ : List J} {d : ℕ}
    (h : ρ.length + (σ.length + 1) ≤ d) (i : I) : (ρ ++ [i]).length + σ.length ≤ d := by
  rw [List.length_append, List.length_singleton]
  omega

theorem reach_congr {next next' : N → I → Option N} {root : N} {d : ℕ}
    (h : ∀ ρ k, ρ.length < d → reach next root ρ = some k → next' k = next k) {ρ : List I}
    (hρ : ρ.length ≤ d) : reach next' root ρ = reach next root ρ := by
  induction ρ using List.reverseRecOn with
  | nil => rfl
  | append_singleton ρ i ih =>
    rw [List.length_append, List.length_singleton] at hρ
    rw [reach_concat, reach_concat, ih (by omega)]
    cases hk : reach next root ρ with
    | none => rfl
    | some k => rw [Option.bind_some, Option.bind_some, h ρ k (by omega) hk]

theorem reach_mono {next next' : N → I → Option N} {root : N} {d : ℕ}
    (h : ∀ ρ k i c, ρ.length < d → reach next root ρ = some k → next k i = some c →
      next' k i = some c) {ρ : List I} {k : N} (hρ : ρ.length ≤ d)
    (hk : reach next root ρ = some k) : reach next' root ρ = some k := by
  induction ρ using List.reverseRecOn generalizing k with
  | nil => exact hk
  | append_singleton ρ i ih =>
    rw [List.length_append, List.length_singleton] at hρ
    rw [reach_concat] at hk
    obtain ⟨p, hp, hedge⟩ := Option.bind_eq_some_iff.mp hk
    rw [reach_concat_of_some (ih (by omega) hp)]
    exact h ρ p i k (by omega) hp hedge

def Separated (next : N → I → Option N) (root : N) (d : ℕ) : Prop :=
  ∀ ρ σ k, ρ.length ≤ d → σ.length ≤ d → reach next root ρ = some k →
    reach next root σ = some k → ρ = σ

theorem separated_of_no_edges {next : N → I → Option N} {root : N} (d : ℕ)
    (h : ∀ i, next root i = none) : Separated next root d := by
  have hnil : ∀ ρ k, reach next root ρ = some k → ρ = [] := by
    intro ρ k hρ
    cases ρ with
    | nil => rfl
    | cons i ρ =>
      rw [reach, h i] at hρ
      cases hρ
  intro ρ σ k _ _ hρ hσ
  rw [hnil ρ k hρ, hnil σ k hσ]

theorem Separated.congr {next next' : N → I → Option N} {root : N} {d : ℕ}
    (h : Separated next root d)
    (heq : ∀ ρ, ρ.length ≤ d → reach next' root ρ = reach next root ρ) :
    Separated next' root d := by
  intro ρ σ k hρ hσ hk hk'
  rw [heq ρ hρ] at hk
  rw [heq σ hσ] at hk'
  exact h ρ σ k hρ hσ hk hk'

section Attach

variable [DecidableEq N] [DecidableEq I]

/-- The fresh node `c` without edges hangs on edge `i` of `n`. -/
def attach (next : N → I → Option N) (n : N) (i : I) (c : N) : N → I → Option N :=
  fun k j => if k = c then none else if k = n ∧ j = i then some c else next k j

variable {next : N → I → Option N} {root n c : N} {π : List I} {i : I} {d : ℕ}

theorem reach_attach (hsep : Separated next root d) (hπ : π.length < d)
    (hn : reach next root π = some n) (hi : next n i = none)
    (hc : ∀ ρ, ρ.length ≤ d → reach next root ρ ≠ some c) {ρ : List I} (hρ : ρ.length ≤ d) :
    reach (attach next n i c) root ρ =
      if ρ = π ++ [i] then some c else reach next root ρ := by
  induction ρ using List.reverseRecOn with
  | nil => rw [if_neg (by simp), reach, reach]
  | append_singleton ρ j ih =>
    rw [List.length_append, List.length_singleton] at hρ
    rw [reach_concat, ih (by omega)]
    by_cases hnew : ρ = π ++ [i]
    · -- below the fresh node there is nothing, before or after
      have hlen := congrArg List.length hnew
      rw [List.length_append, List.length_singleton] at hlen
      have hne : ρ ++ [j] ≠ π ++ [i] := by
        intro h
        have hlen' := congrArg List.length h
        simp only [List.length_append, List.length_singleton] at hlen'
        omega
      rw [if_pos hnew, if_neg hne, Option.bind_some, attach, if_pos rfl, reach_concat, hnew,
        reach_concat_of_some hn, hi, Option.bind_none]
    · rw [if_neg hnew]
      cases hk : reach next root ρ with
      | none =>
        have hne : ρ ++ [j] ≠ π ++ [i] := by
          intro h
          rw [(List.append_inj' h rfl).1, hn] at hk
          cases hk
        rw [Option.bind_none, if_neg hne, reach_concat, hk, Option.bind_none]
      | some k =>
        have hkc : k ≠ c := fun h => hc ρ (by omega) (h ▸ hk)
        rw [Option.bind_some, attach, if_neg hkc, reach_concat_of_some hk]
        by_cases hedge : k = n ∧ j = i
        · obtain ⟨rfl, rfl⟩ := hedge
          have hpath := hsep ρ π k (by omega) (by omega) hk hn
          rw [if_pos ⟨rfl, rfl⟩, hpath, if_pos rfl]
        · have hne : ρ ++ [j] ≠ π ++ [i] := by
            intro h
            obtain ⟨h₁, h₂⟩ := List.append_inj' h rfl
            rw [h₁, hn] at hk
            exact hedge ⟨(Option.some.inj hk).symm, List.singleton_inj.mp h₂⟩
          rw [if_neg hedge, if_neg hne]

theorem separated_attach (hsep : Separated next root d) (hπ : π.length < d)
    (hn : reach next root π = some n) (hi : next n i = none)
    (hc : ∀ ρ, ρ.length ≤ d → reach next root ρ ≠ some c) :
    Separated (attach next n i c) root d := by
  intro ρ σ k hρ hσ hk hk'
  rw [reach_attach hsep hπ hn hi hc hρ] at hk
  rw [reach_attach hsep hπ hn hi hc hσ] at hk'
  split_ifs at hk hk' with h₁ h₂ h₂
  · rw [h₁, h₂]
  · cases hk
    exact absurd hk' (hc σ hσ)
  · cases hk'
    exact absurd hk (hc ρ hρ)
  · exact hsep ρ σ k hρ hσ hk hk'

end Attach

end Mcsos.RadixTree
