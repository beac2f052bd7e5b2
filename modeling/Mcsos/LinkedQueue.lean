import Mathlib

/-!
# Queues threaded through a `next` field

A queue is stored as a head pointer, a tail pointer and a `next` pointer in every element.
`Chain` says which list of elements is visited from a pointer, and `Queue` adds the tail
pointer. Appending at the tail and removing the head are the two edits; both are stated for
an arbitrary new `next` field that agrees with the old one where the edit does not write.
The history of a queue is the list of its edits, and `replay` is the queue they leave.
-/

namespace Mcsos.LinkedQueue

variable {P : Type*}

/-- Following `next` from the pointer visits the elements of the list and then `null`. -/
def Chain (next : P → P) (null : P) : P → List P → Prop
  | p, [] => p = null
  | p, x :: xs => p = x ∧ x ≠ null ∧ Chain next null (next x) xs

instance Chain.decidable [DecidableEq P] (next : P → P) (null : P) :
    (p : P) → (xs : List P) → Decidable (Chain next null p xs)
  | p, [] => inferInstanceAs (Decidable (p = null))
  | p, x :: xs =>
      have := Chain.decidable next null (next x) xs
      inferInstanceAs (Decidable (p = x ∧ x ≠ null ∧ Chain next null (next x) xs))

structure Queue (next : P → P) (null head tail : P) (xs : List P) : Prop where
  chain : Chain next null head xs
  tail_eq : tail = xs.getLastD null

theorem Chain.ne_null {next : P → P} {null p : P} {xs : List P} (h : Chain next null p xs) :
    ∀ x ∈ xs, x ≠ null := by
  induction xs generalizing p with
  | nil => simp
  | cons y ys ih =>
    intro x hx
    rcases List.mem_cons.mp hx with rfl | hx
    · exact h.2.1
    · exact ih h.2.2 x hx

theorem Chain.congr {next next' : P → P} {null p : P} {xs : List P}
    (h : Chain next null p xs) (hagree : ∀ x ∈ xs, next' x = next x) :
    Chain next' null p xs := by
  induction xs generalizing p with
  | nil => exact h
  | cons y ys ih =>
    refine ⟨h.1, h.2.1, ?_⟩
    rw [hagree y List.mem_cons_self]
    exact ih h.2.2 (fun x hx => hagree x (List.mem_cons_of_mem y hx))

theorem Chain.unique {next : P → P} {null p : P} {xs ys : List P}
    (hx : Chain next null p xs) (hy : Chain next null p ys) : xs = ys := by
  induction xs generalizing p ys with
  | nil =>
    cases ys with
    | nil => rfl
    | cons y ys => exact absurd (hy.1.symm.trans hx) hy.2.1
  | cons x xs ih =>
    cases ys with
    | nil => exact absurd (hx.1.symm.trans hy) hx.2.1
    | cons y ys =>
      have hxy : x = y := hx.1.symm.trans hy.1
      subst hxy
      rw [ih hx.2.2 hy.2.2]

theorem Chain.suffix_of_mem {next : P → P} {null p x : P} {xs : List P}
    (h : Chain next null p xs) (hx : x ∈ xs) :
    ∃ ys, Chain next null x (x :: ys) ∧ ys.length < xs.length := by
  induction xs generalizing p with
  | nil => simp at hx
  | cons y ys ih =>
    rcases List.mem_cons.mp hx with rfl | hx
    · exact ⟨ys, ⟨rfl, h.2.1, h.2.2⟩, by simp⟩
    · obtain ⟨zs, hz, hlen⟩ := ih h.2.2 hx
      exact ⟨zs, hz, by simp only [List.length_cons]; omega⟩

theorem Chain.nodup {next : P → P} {null p : P} {xs : List P}
    (h : Chain next null p xs) : xs.Nodup := by
  induction xs generalizing p with
  | nil => exact List.nodup_nil
  | cons x xs ih =>
    refine List.nodup_cons.mpr ⟨?_, ih h.2.2⟩
    intro hx
    obtain ⟨ys, hy, hlen⟩ := h.2.2.suffix_of_mem hx
    have hsame : x :: ys = x :: xs := hy.unique ⟨rfl, h.2.1, h.2.2⟩
    rw [(List.cons.inj hsame).2] at hlen
    omega

theorem Chain.concat {next next' : P → P} {null p t : P} {xs : List P}
    (h : Chain next null p xs) (hnd : xs.Nodup) (ht : t ≠ null) (hnull : next' t = null)
    (hlast : xs ≠ [] → next' (xs.getLastD null) = t)
    (hagree : ∀ x ∈ xs, x ≠ xs.getLastD null → next' x = next x) :
    Chain next' null (if xs = [] then t else p) (xs ++ [t]) := by
  induction xs generalizing p with
  | nil => exact ⟨by simp, ht, hnull⟩
  | cons y ys ih =>
    refine ⟨by simpa using h.1, h.2.1, ?_⟩
    rw [List.nodup_cons] at hnd
    cases ys with
    | nil =>
      have hy : next' y = t := hlast (by simp)
      rw [hy]
      exact ⟨rfl, ht, hnull⟩
    | cons z zs =>
      have hyne : y ≠ (z :: zs).getLastD null := by
        intro hy
        refine hnd.1 ?_
        rw [hy, List.getLastD_cons]
        exact List.getLastD_mem_cons
      have hrest := ih h.2.2 hnd.2 (fun _ => hlast (by simp))
        (fun x hx hne => hagree x (List.mem_cons_of_mem y hx) hne)
      rw [hagree y List.mem_cons_self hyne]
      simpa using hrest

theorem Queue.nodup {next : P → P} {null head tail : P} {xs : List P}
    (h : Queue next null head tail xs) : xs.Nodup :=
  h.chain.nodup

theorem Queue.head_eq_null_iff {next : P → P} {null head tail : P} {xs : List P}
    (h : Queue next null head tail xs) : head = null ↔ xs = [] := by
  cases xs with
  | nil => exact ⟨fun _ => rfl, fun _ => h.chain⟩
  | cons x xs => simpa [h.chain.1] using h.chain.2.1

theorem Queue.tail_mem {next : P → P} {null head tail : P} {xs : List P}
    (h : Queue next null head tail xs) (hne : xs ≠ []) : tail ∈ xs := by
  cases xs with
  | nil => exact absurd rfl hne
  | cons x xs =>
    rw [h.tail_eq, List.getLastD_cons]
    exact List.getLastD_mem_cons

theorem Queue.tail_eq_null_iff {next : P → P} {null head tail : P} {xs : List P}
    (h : Queue next null head tail xs) : tail = null ↔ xs = [] := by
  constructor
  · intro ht
    by_contra hne
    exact h.chain.ne_null tail (h.tail_mem hne) ht
  · intro hnil
    simpa [hnil] using h.tail_eq

theorem Queue.congr {next next' : P → P} {null head tail : P} {xs : List P}
    (h : Queue next null head tail xs) (hagree : ∀ x ∈ xs, next' x = next x) :
    Queue next' null head tail xs :=
  ⟨h.chain.congr hagree, h.tail_eq⟩

theorem Queue.push {next next' : P → P} {null head tail t : P} {xs : List P}
    (h : Queue next null head tail xs) (ht : t ≠ null) (hnull : next' t = null)
    (hlast : xs ≠ [] → next' tail = t) (hagree : ∀ x ∈ xs, x ≠ tail → next' x = next x) :
    Queue next' null (if xs = [] then t else head) t (xs ++ [t]) := by
  obtain rfl := h.tail_eq
  exact ⟨h.chain.concat h.nodup ht hnull hlast hagree, by simp⟩

theorem Queue.pop {next next' : P → P} [DecidableEq P] {null head tail x : P} {xs : List P}
    (h : Queue next null head tail (x :: xs)) (hagree : ∀ y ∈ xs, next' y = next y) :
    Queue next' null (next x) (if next x = null then null else tail) xs := by
  have hchain := h.chain.2.2.congr hagree
  refine ⟨hchain, ?_⟩
  cases xs with
  | nil => exact if_pos hchain
  | cons y ys =>
    rw [if_neg (hchain.1 ▸ hchain.2.1), h.tail_eq]
    rfl

inductive QueueEvent (P : Type*) where
  | appended (x : P)
  | removed (x : P)
  deriving DecidableEq

def appendedIn : List (QueueEvent P) → List P
  | [] => []
  | .appended x :: es => x :: appendedIn es
  | .removed _ :: es => appendedIn es

def removedIn : List (QueueEvent P) → List P
  | [] => []
  | .appended _ :: es => removedIn es
  | .removed x :: es => x :: removedIn es

def replay [DecidableEq P] : List P → List (QueueEvent P) → Option (List P)
  | xs, [] => some xs
  | xs, .appended x :: es => replay (xs ++ [x]) es
  | [], .removed _ :: _ => none
  | y :: xs, .removed x :: es => if y = x then replay xs es else none

section Histories

variable [DecidableEq P]

theorem replay_append (xs : List P) (es fs : List (QueueEvent P)) :
    replay xs (es ++ fs) = (replay xs es).bind (fun ys => replay ys fs) := by
  induction es generalizing xs with
  | nil => rfl
  | cons e es ih =>
    cases e with
    | appended x => exact ih (xs ++ [x])
    | removed x =>
      cases xs with
      | nil => rfl
      | cons y xs =>
        simp only [List.cons_append, replay]
        by_cases hy : y = x
        · rw [if_pos hy, if_pos hy]
          exact ih xs
        · rw [if_neg hy, if_neg hy]
          rfl

theorem replay_map_appended (xs ys : List P) :
    replay xs (ys.map .appended) = some (xs ++ ys) := by
  induction ys generalizing xs with
  | nil => simp [replay]
  | cons y ys ih =>
    rw [List.map_cons, replay, ih, List.append_assoc, List.singleton_append]

/-- First in, first out: the removed elements are the first of those that were queued or
appended, and the rest is the queue. -/
theorem replay_fifo {xs ys : List P} {es : List (QueueEvent P)} (h : replay xs es = some ys) :
    xs ++ appendedIn es = removedIn es ++ ys := by
  induction es generalizing xs with
  | nil =>
    cases h
    rw [appendedIn, removedIn, List.append_nil, List.nil_append]
  | cons e es ih =>
    cases e with
    | appended x =>
      simpa only [appendedIn, removedIn, List.append_assoc, List.singleton_append] using ih h
    | removed x =>
      cases xs with
      | nil => cases h
      | cons y xs =>
        rw [replay] at h
        by_cases hy : y = x
        · rw [if_pos hy] at h
          rw [appendedIn, removedIn, hy, List.cons_append, List.cons_append, ih h]
        · rw [if_neg hy] at h
          cases h

theorem removedIn_prefix {es fs : List (QueueEvent P)} {ys : List P}
    (h : replay [] fs = some ys) (hes : es <+: fs) : removedIn es <+: appendedIn es := by
  obtain ⟨gs, rfl⟩ := hes
  rw [replay_append] at h
  obtain ⟨zs, hzs, -⟩ := Option.bind_eq_some_iff.mp h
  exact ⟨zs, (replay_fifo hzs).symm⟩

end Histories

end Mcsos.LinkedQueue
