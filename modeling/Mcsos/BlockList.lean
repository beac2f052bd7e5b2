import Mathlib

/-!
# Blocks that tile an interval

A list of blocks, each with a header of `hdr` units in front of its payload, is laid out from
an address without gaps. The lemmas place the blocks of a list that is cut at one block, and
say that splitting a block or merging neighbours keeps the end of the tiling.
-/

namespace Mcsos.BlockList

structure Block where
  size : ℕ
  free : Bool
  deriving DecidableEq, Repr

variable (hdr : ℕ)

def finish (a : ℕ) : List Block → ℕ
  | [] => a
  | b :: bs => finish (a + hdr + b.size) bs

def layout (a : ℕ) : List Block → List (ℕ × Block)
  | [] => []
  | b :: bs => (a, b) :: layout (a + hdr + b.size) bs

def starts (a : ℕ) (bs : List Block) : List ℕ := (layout hdr a bs).map Prod.fst

def lastStart (prev a : ℕ) : List Block → ℕ
  | [] => prev
  | b :: bs => lastStart a (a + hdr + b.size) bs

def mergeForward (b : Block) : List Block → List Block
  | [] => [b]
  | c :: cs => if c.free then mergeForward ⟨b.size + hdr + c.size, b.free⟩ cs else b :: c :: cs

def mergeBack : List Block → List Block → List Block
  | [], rest => rest
  | [c], rest => if c.free then mergeForward hdr c rest else c :: rest
  | c :: d :: pre, rest => c :: mergeBack (d :: pre) rest

/-- A used block is released and merged with its free neighbours. -/
def release (pre : List Block) (b : Block) (post : List Block) : List Block :=
  mergeBack hdr pre (mergeForward hdr ⟨b.size, true⟩ post)

/-- A block of which `w` units are used: the rest becomes a free block if it can hold more
than `slack` units. -/
def carve (slack w : ℕ) (b : Block) : List Block :=
  if b.size > w + hdr + slack then [⟨w, false⟩, ⟨b.size - w - hdr, true⟩]
  else [⟨b.size, false⟩]

theorem finish_append (a : ℕ) (xs ys : List Block) :
    finish hdr a (xs ++ ys) = finish hdr (finish hdr a xs) ys := by
  induction xs generalizing a with
  | nil => rfl
  | cons x xs ih => exact ih (a + hdr + x.size)

theorem layout_append (a : ℕ) (xs ys : List Block) :
    layout hdr a (xs ++ ys) = layout hdr a xs ++ layout hdr (finish hdr a xs) ys := by
  induction xs generalizing a with
  | nil => rfl
  | cons x xs ih => simp only [List.cons_append, layout, finish, ih]

theorem layout_map_snd (a : ℕ) (bs : List Block) : (layout hdr a bs).map Prod.snd = bs := by
  induction bs generalizing a with
  | nil => rfl
  | cons b bs ih => rw [layout, List.map_cons, ih]

theorem starts_cons (a : ℕ) (b : Block) (bs : List Block) :
    starts hdr a (b :: bs) = a :: starts hdr (a + hdr + b.size) bs := rfl

theorem starts_append (a : ℕ) (xs ys : List Block) :
    starts hdr a (xs ++ ys) = starts hdr a xs ++ starts hdr (finish hdr a xs) ys := by
  rw [starts, layout_append, List.map_append, starts, starts]

theorem starts_length (a : ℕ) (bs : List Block) : (starts hdr a bs).length = bs.length := by
  induction bs generalizing a with
  | nil => rfl
  | cons b bs ih => rw [starts_cons, List.length_cons, List.length_cons, ih]

theorem lastStart_concat (prev a : ℕ) (xs : List Block) (b : Block) :
    lastStart hdr prev a (xs ++ [b]) = finish hdr a xs := by
  induction xs generalizing prev a with
  | nil => rfl
  | cons x xs ih => exact ih a (a + hdr + x.size)

theorem le_finish (a : ℕ) (bs : List Block) : a ≤ finish hdr a bs := by
  induction bs generalizing a with
  | nil => exact le_rfl
  | cons b bs ih => exact le_trans (by omega) (ih (a + hdr + b.size))

theorem length_le_finish (a : ℕ) (bs : List Block) :
    a + hdr * bs.length ≤ finish hdr a bs := by
  induction bs generalizing a with
  | nil => simp [finish]
  | cons b bs ih =>
    have hrest := ih (a + hdr + b.size)
    simp only [finish, List.length_cons, Nat.mul_succ]
    omega

theorem add_hdr_le_finish (a : ℕ) {bs : List Block} (h : bs ≠ []) :
    a + hdr ≤ finish hdr a bs := by
  cases bs with
  | nil => exact absurd rfl h
  | cons b bs => exact le_trans (by omega) (le_finish hdr (a + hdr + b.size) bs)

theorem layout_bounds {a q : ℕ} {bs : List Block} {c : Block} (h : (q, c) ∈ layout hdr a bs) :
    a ≤ q ∧ q + hdr + c.size ≤ finish hdr a bs := by
  induction bs generalizing a with
  | nil => simp [layout] at h
  | cons b bs ih =>
    rcases List.mem_cons.mp h with h | h
    · cases h
      exact ⟨le_rfl, le_finish hdr _ bs⟩
    · have hrest := ih h
      exact ⟨by omega, hrest.2⟩

theorem exists_cut_of_mem_layout {a q : ℕ} {bs : List Block} {c : Block}
    (h : (q, c) ∈ layout hdr a bs) :
    ∃ pre post, bs = pre ++ c :: post ∧ q = finish hdr a pre := by
  induction bs generalizing a with
  | nil => simp [layout] at h
  | cons b bs ih =>
    rcases List.mem_cons.mp h with h | h
    · cases h
      exact ⟨[], bs, rfl, rfl⟩
    · obtain ⟨pre, post, rfl, hq⟩ := ih h
      exact ⟨b :: pre, post, rfl, hq⟩

theorem mem_layout_cut (a : ℕ) (pre : List Block) (c : Block) (post : List Block) :
    (finish hdr a pre, c) ∈ layout hdr a (pre ++ c :: post) := by
  rw [layout_append]
  exact List.mem_append_right _ List.mem_cons_self

theorem mergeBack_concat (pre : List Block) (c : Block) (rest : List Block) :
    mergeBack hdr (pre ++ [c]) rest =
      pre ++ if c.free then mergeForward hdr c rest else c :: rest := by
  induction pre with
  | nil => rfl
  | cons d pre ih =>
    cases pre with
    | nil => rfl
    | cons e pre =>
      simp only [List.cons_append, mergeBack] at ih ⊢
      rw [ih]

theorem mergeForward_eq_cons (b : Block) (cs : List Block) :
    ∃ d ds, mergeForward hdr b cs = d :: ds ∧ d.free = b.free ∧ b.size ≤ d.size := by
  induction cs generalizing b with
  | nil => exact ⟨b, [], rfl, rfl, le_rfl⟩
  | cons c cs ih =>
    by_cases hc : c.free = true
    · obtain ⟨d, ds, hd, hfree, hle⟩ := ih ⟨b.size + hdr + c.size, b.free⟩
      simp only at hle
      exact ⟨d, ds, by rw [mergeForward, if_pos hc, hd], hfree, by omega⟩
    · exact ⟨b, c :: cs, by rw [mergeForward, if_neg hc], rfl, le_rfl⟩

theorem carve_eq_cons (slack w : ℕ) {b : Block} (h : w ≤ b.size) :
    ∃ d ds, carve hdr slack w b = d :: ds ∧ d.free = false ∧ w ≤ d.size ∧ d.size ≤ b.size := by
  by_cases hroom : b.size > w + hdr + slack
  · exact ⟨⟨w, false⟩, _, by rw [carve, if_pos hroom], rfl, le_rfl, h⟩
  · exact ⟨⟨b.size, false⟩, [], by rw [carve, if_neg hroom], rfl, h, le_rfl⟩

theorem not_mem_starts_of_payload {a x : ℕ} {pre post : List Block} {b : Block} (hpos : 0 < hdr)
    (hlow : finish hdr a pre + hdr ≤ x) (hhigh : x < finish hdr a pre + hdr + b.size) :
    x ∉ starts hdr a (pre ++ b :: post) := by
  intro hx
  rw [starts_append, starts_cons] at hx
  rcases List.mem_append.mp hx with hx | hx
  · obtain ⟨⟨q, c⟩, hq, rfl⟩ := List.mem_map.mp hx
    have hbounds := layout_bounds hdr hq
    simp only at hlow hhigh
    omega
  · rcases List.mem_cons.mp hx with rfl | hx
    · omega
    · obtain ⟨⟨q, c⟩, hq, rfl⟩ := List.mem_map.mp hx
      have hbounds := layout_bounds hdr hq
      simp only at hlow hhigh
      omega

theorem finish_carve (a slack w : ℕ) (b : Block) :
    finish hdr a (carve hdr slack w b) = a + hdr + b.size := by
  simp only [carve]
  split_ifs
  · simp only [finish]
    omega
  · rfl

theorem finish_mod {k a : ℕ} (hk : hdr % k = 0) (ha : a % k = 0) {bs : List Block}
    (hbs : ∀ b ∈ bs, b.size % k = 0) : finish hdr a bs % k = 0 := by
  induction bs generalizing a with
  | nil => exact ha
  | cons b bs ih =>
    refine ih ?_ (fun c hc => hbs c (List.mem_cons_of_mem b hc))
    have hb := hbs b List.mem_cons_self
    rw [Nat.add_mod, Nat.add_mod a, ha, hk, hb]
    simp

theorem layout_separated {a q r : ℕ} {bs : List Block} {c d : Block}
    (hq : (q, c) ∈ layout hdr a bs) (hr : (r, d) ∈ layout hdr a bs) :
    (q = r ∧ c = d) ∨ q + hdr + c.size ≤ r ∨ r + hdr + d.size ≤ q := by
  induction bs generalizing a with
  | nil => simp [layout] at hq
  | cons b bs ih =>
    rcases List.mem_cons.mp hq with hq | hq
    · cases hq
      rcases List.mem_cons.mp hr with hr | hr
      · cases hr
        exact Or.inl ⟨rfl, rfl⟩
      · exact Or.inr (Or.inl (layout_bounds hdr hr).1)
    · rcases List.mem_cons.mp hr with hr | hr
      · cases hr
        exact Or.inr (Or.inr (layout_bounds hdr hq).1)
      · exact ih hq hr

theorem layout_sorted (a : ℕ) (bs : List Block) :
    (layout hdr a bs).Pairwise (fun e f => e.1 + hdr + e.2.size ≤ f.1) := by
  induction bs generalizing a with
  | nil => exact List.Pairwise.nil
  | cons b bs ih =>
    apply List.pairwise_cons.mpr
    exact ⟨fun f hf => (layout_bounds hdr hf).1, ih _⟩

def used (a : ℕ) (bs : List Block) : List (ℕ × Block) :=
  (layout hdr a bs).filter (fun e => !e.2.free)

theorem used_nil (a : ℕ) : used hdr a [] = [] := rfl

theorem mem_used {a : ℕ} {bs : List Block} {e : ℕ × Block} :
    e ∈ used hdr a bs ↔ e ∈ layout hdr a bs ∧ e.2.free = false := by
  rw [used, List.mem_filter, Bool.not_eq_eq_eq_not, Bool.not_true]

theorem used_append (a : ℕ) (xs ys : List Block) :
    used hdr a (xs ++ ys) = used hdr a xs ++ used hdr (finish hdr a xs) ys := by
  rw [used, layout_append, List.filter_append, used, used]

theorem used_cons (a : ℕ) (b : Block) (bs : List Block) :
    used hdr a (b :: bs) =
      if b.free then used hdr (a + hdr + b.size) bs
      else (a, b) :: used hdr (a + hdr + b.size) bs := by
  rw [used, layout, List.filter_cons]
  cases b.free
  · rfl
  · rfl

theorem used_mergeForward (a : ℕ) {b : Block} (hb : b.free = true) (cs : List Block) :
    used hdr a (mergeForward hdr b cs) = used hdr (a + hdr + b.size) cs := by
  induction cs generalizing b with
  | nil => rw [mergeForward, used_cons, if_pos hb]
  | cons c cs ih =>
    rw [mergeForward]
    split_ifs with hc
    · have haddr : a + hdr + (b.size + hdr + c.size) = a + hdr + b.size + hdr + c.size := by omega
      have hmerged := ih (b := ⟨b.size + hdr + c.size, b.free⟩) hb
      rw [hmerged, used_cons, if_pos hc, haddr]
    · rw [used_cons, if_pos hb]

theorem used_release (a : ℕ) (pre : List Block) (b : Block) (post : List Block) :
    used hdr a (release hdr pre b post) =
      used hdr a pre ++ used hdr (finish hdr a pre + hdr + b.size) post := by
  have hforward : used hdr (finish hdr a pre) (mergeForward hdr ⟨b.size, true⟩ post) =
      used hdr (finish hdr a pre + hdr + b.size) post := used_mergeForward hdr _ rfl post
  rw [release]
  rcases List.eq_nil_or_concat pre with rfl | ⟨front, c, rfl⟩
  · exact hforward
  · rw [List.concat_eq_append] at hforward ⊢
    rw [mergeBack_concat, used_append, used_append]
    rw [finish_append] at hforward ⊢
    simp only [finish] at hforward ⊢
    rw [← hforward, used_cons]
    split_ifs with hc
    · rw [used_mergeForward hdr _ hc, used_nil, List.append_nil]
    · rw [used_cons, if_neg hc, used_nil, List.append_assoc, List.singleton_append]

theorem mem_used_release {a : ℕ} {pre : List Block} {b : Block} {post : List Block}
    (hpos : 0 < hdr) (hb : b.free = false) (u : ℕ × Block) :
    u ∈ used hdr a (release hdr pre b post) ↔
      u ∈ used hdr a (pre ++ b :: post) ∧ u.1 ≠ finish hdr a pre := by
  rw [used_release, used_append, used_cons, if_neg (by simp [hb]), List.mem_append,
    List.mem_append, List.mem_cons]
  constructor
  · intro hu
    rcases hu with hu | hu
    · have hbounds := layout_bounds hdr ((mem_used hdr).mp hu).1
      exact ⟨Or.inl hu, by omega⟩
    · have hbounds := layout_bounds hdr ((mem_used hdr).mp hu).1
      exact ⟨Or.inr (Or.inr hu), by omega⟩
  · intro hu
    rcases hu.1 with hin | hin | hin
    · exact Or.inl hin
    · exact absurd (congrArg Prod.fst hin) hu.2
    · exact Or.inr hin

theorem used_carve (a slack w : ℕ) {b : Block} (h : w ≤ b.size) :
    ∃ d, used hdr a (carve hdr slack w b) = [(a, d)] ∧ d.free = false ∧ w ≤ d.size := by
  by_cases hroom : b.size > w + hdr + slack
  · exact ⟨⟨w, false⟩, by rw [carve, if_pos hroom]; rfl, rfl, le_rfl⟩
  · exact ⟨⟨b.size, false⟩, by rw [carve, if_neg hroom]; rfl, rfl, h⟩

def Coalesced (bs : List Block) : Prop :=
  bs.IsChain (fun b c => ¬ (b.free = true ∧ c.free = true))

theorem coalesced_append {xs ys : List Block} : Coalesced (xs ++ ys) ↔
    Coalesced xs ∧ Coalesced ys ∧
      ∀ b ∈ xs.getLast?, ∀ c ∈ ys.head?, ¬ (b.free = true ∧ c.free = true) :=
  List.isChain_append

theorem Coalesced.cons_used {b : Block} (hb : b.free = false) {bs : List Block}
    (h : Coalesced bs) : Coalesced (b :: bs) := by
  apply List.isChain_cons.mpr
  exact ⟨fun c _ hfree => absurd hfree.1 (by simp [hb]), h⟩

theorem coalesced_mergeForward (b : Block) {cs : List Block} (h : Coalesced cs) :
    Coalesced (mergeForward hdr b cs) := by
  induction cs generalizing b with
  | nil => exact List.isChain_singleton b
  | cons c cs ih =>
    rw [mergeForward]
    split_ifs with hc
    · exact ih _ (List.isChain_of_isChain_cons h)
    · exact List.isChain_cons_cons.mpr ⟨fun hfree => hc hfree.2, h⟩

theorem coalesced_release {pre : List Block} {b : Block} {post : List Block}
    (h : Coalesced (pre ++ b :: post)) : Coalesced (release hdr pre b post) := by
  obtain ⟨hpre, hpost, -⟩ := coalesced_append.mp h
  have hforward : Coalesced (mergeForward hdr ⟨b.size, true⟩ post) :=
    coalesced_mergeForward hdr _ (List.isChain_of_isChain_cons hpost)
  rw [release]
  rcases List.eq_nil_or_concat pre with rfl | ⟨front, c, rfl⟩
  · exact hforward
  rw [List.concat_eq_append] at hpre ⊢
  obtain ⟨hfront, -, hjoin⟩ := coalesced_append.mp hpre
  rw [mergeBack_concat]
  split_ifs with hc
  · obtain ⟨d, ds, hmerge, hfree, -⟩ := mergeForward_eq_cons hdr c
      (mergeForward hdr ⟨b.size, true⟩ post)
    apply coalesced_append.mpr
    refine ⟨hfront, coalesced_mergeForward hdr c hforward, ?_⟩
    intro e he f hf
    rw [hmerge] at hf
    cases hf
    rw [hfree]
    exact hjoin e he c rfl
  · apply coalesced_append.mpr
    exact ⟨hfront, hforward.cons_used (Bool.eq_false_iff.mpr hc), hjoin⟩

theorem coalesced_carve {pre : List Block} {b : Block} {post : List Block} (slack w : ℕ)
    (h : Coalesced (pre ++ b :: post)) (hb : b.free = true) :
    Coalesced (pre ++ (carve hdr slack w b ++ post)) := by
  obtain ⟨hpre, hpost, -⟩ := coalesced_append.mp h
  have hrest : Coalesced post := List.isChain_of_isChain_cons hpost
  have hused : ∀ c ∈ post.head?, ¬ (true = true ∧ c.free = true) := by
    intro c hc hfree
    exact (List.isChain_cons.mp hpost).1 c hc ⟨hb, hfree.2⟩
  have hjoin : ∀ d : Block, d.free = false → ∀ ds, Coalesced ds →
      Coalesced (pre ++ d :: ds) := by
    intro d hd ds hds
    apply coalesced_append.mpr
    refine ⟨hpre, hds.cons_used hd, ?_⟩
    intro e _ c hc
    cases hc
    exact fun hfree => absurd hfree.2 (by simp [hd])
  rw [carve]
  split_ifs
  · exact hjoin _ rfl _ (List.isChain_cons.mpr ⟨hused, hrest⟩)
  · exact hjoin _ rfl _ hrest

theorem mergeForward_of_used (b : Block) {cs : List Block}
    (h : ∀ c ∈ cs.head?, c.free = false) : mergeForward hdr b cs = b :: cs := by
  cases cs with
  | nil => rfl
  | cons c cs => rw [mergeForward, if_neg (by simp [h c rfl])]

theorem mergeBack_of_used {pre : List Block} (h : ∀ c ∈ pre.getLast?, c.free = false)
    (rest : List Block) : mergeBack hdr pre rest = pre ++ rest := by
  rcases List.eq_nil_or_concat pre with rfl | ⟨front, c, rfl⟩
  · rfl
  · rw [List.concat_eq_append] at h ⊢
    have hc : c.free = false := h c (by simp)
    rw [mergeBack_concat, if_neg (by simp [hc]), List.append_assoc]
    rfl

theorem Coalesced.neighbours {pre : List Block} {b : Block} {post : List Block}
    (h : Coalesced (pre ++ b :: post)) (hb : b.free = true) :
    (∀ c ∈ pre.getLast?, c.free = false) ∧ ∀ c ∈ post.head?, c.free = false := by
  obtain ⟨-, hrest, hjoin⟩ := coalesced_append.mp h
  constructor
  · intro c hc
    apply Bool.eq_false_iff.mpr
    exact fun hfree => hjoin c hc b rfl ⟨hfree, hb⟩
  · intro c hc
    apply Bool.eq_false_iff.mpr
    exact fun hfree => (List.isChain_cons.mp hrest).1 c hc ⟨hb, hfree⟩

theorem release_carve {pre : List Block} {b : Block} {post : List Block} (slack w : ℕ)
    (h : Coalesced (pre ++ b :: post)) (hb : b.free = true) :
    ∃ d ds, carve hdr slack w b = d :: ds ∧ d.free = false ∧
      release hdr pre d (ds ++ post) = pre ++ b :: post := by
  obtain ⟨hpre, hpost⟩ := h.neighbours hb
  have hwhole : mergeForward hdr ⟨b.size, true⟩ post = b :: post := by
    rw [mergeForward_of_used hdr _ hpost, ← hb]
  by_cases hroom : b.size > w + hdr + slack
  · have hsize : w + hdr + (b.size - w - hdr) = b.size := by omega
    refine ⟨⟨w, false⟩, [⟨b.size - w - hdr, true⟩], by rw [carve, if_pos hroom], rfl, ?_⟩
    rw [release, List.singleton_append, mergeForward, if_pos rfl, hsize, hwhole,
      mergeBack_of_used hdr hpre]
  · refine ⟨⟨b.size, false⟩, [], by rw [carve, if_neg hroom], rfl, ?_⟩
    rw [release, List.nil_append, hwhole, mergeBack_of_used hdr hpre]

theorem release_covers (a : ℕ) (pre : List Block) (b : Block) (post : List Block) :
    ∃ q c, (q, c) ∈ layout hdr a (release hdr pre b post) ∧ c.free = true ∧
      q ≤ finish hdr a pre ∧ finish hdr a pre + b.size ≤ q + c.size := by
  obtain ⟨d, ds, hmerge, hfree, hle⟩ := mergeForward_eq_cons hdr ⟨b.size, true⟩ post
  simp only at hfree hle
  rw [release, hmerge]
  have halone : ∀ front : List Block, mergeBack hdr front (d :: ds) = front ++ d :: ds →
      ∃ q c, (q, c) ∈ layout hdr a (mergeBack hdr front (d :: ds)) ∧ c.free = true ∧
        q ≤ finish hdr a front ∧ finish hdr a front + b.size ≤ q + c.size := by
    intro front hfront
    rw [hfront]
    exact ⟨_, d, mem_layout_cut hdr a front d ds, hfree, le_rfl, by omega⟩
  rcases List.eq_nil_or_concat pre with rfl | ⟨front, c, rfl⟩
  · exact halone [] rfl
  rw [List.concat_eq_append]
  by_cases hc : c.free = true
  · obtain ⟨e, es, hmerge', hfree', hle'⟩ :=
      mergeForward_eq_cons hdr ⟨c.size + hdr + d.size, c.free⟩ ds
    simp only at hle'
    rw [mergeBack_concat, if_pos hc, mergeForward, if_pos hfree, hmerge', finish_append]
    refine ⟨_, e, mem_layout_cut hdr a front e es, hfree'.trans hc, ?_, ?_⟩
    · exact le_finish hdr _ _
    · simp only [finish]
      omega
  · apply halone
    rw [mergeBack_concat, if_neg hc, List.append_assoc]
    rfl

theorem Coalesced.eq_singleton {bs : List Block} (h : Coalesced bs)
    (hfree : ∀ b ∈ bs, b.free = true) (hne : bs ≠ []) : ∃ b, bs = [b] ∧ b.free = true := by
  cases bs with
  | nil => exact absurd rfl hne
  | cons b bs =>
    cases bs with
    | nil => exact ⟨b, rfl, hfree b List.mem_cons_self⟩
    | cons c bs =>
      have hpair := (List.isChain_cons_cons.mp h).1
      exact absurd ⟨hfree b (by simp), hfree c (by simp)⟩ hpair

def LastAbove (k : ℕ) (bs : List Block) : Prop := ∀ b ∈ bs.getLast?, k < b.size

theorem lastAbove_append {k : ℕ} (xs : List Block) {ys : List Block} (hys : ys ≠ []) :
    LastAbove k (xs ++ ys) ↔ LastAbove k ys := by
  rw [LastAbove, List.getLast?_append_of_ne_nil xs hys, LastAbove]

theorem lastAbove_cons_cons {k : ℕ} {b c : Block} {bs : List Block} :
    LastAbove k (b :: c :: bs) ↔ LastAbove k (c :: bs) :=
  lastAbove_append [b] (List.cons_ne_nil c bs)

theorem lastAbove_singleton {k : ℕ} {b : Block} : LastAbove k [b] ↔ k < b.size :=
  ⟨fun h => h b rfl, fun h c hc => by cases hc; exact h⟩

theorem lastAbove_mergeForward {k : ℕ} {b : Block} {cs : List Block}
    (h : LastAbove k (b :: cs)) : LastAbove k (mergeForward hdr b cs) := by
  induction cs generalizing b with
  | nil => exact h
  | cons c cs ih =>
    rw [mergeForward]
    split_ifs
    · apply ih
      cases cs with
      | nil =>
        rw [lastAbove_cons_cons, lastAbove_singleton] at h
        rw [lastAbove_singleton]
        simp only
        omega
      | cons d cs =>
        rw [lastAbove_cons_cons, lastAbove_cons_cons] at h
        rw [lastAbove_cons_cons]
        exact h
    · exact h

theorem lastAbove_release {k : ℕ} {pre : List Block} {b : Block} {post : List Block}
    (h : LastAbove k (pre ++ b :: post)) : LastAbove k (release hdr pre b post) := by
  rw [lastAbove_append pre (List.cons_ne_nil b post)] at h
  have hfree : LastAbove k (⟨b.size, true⟩ :: post) := by
    cases post with
    | nil =>
      rw [lastAbove_singleton] at h ⊢
      exact h
    | cons c post =>
      rw [lastAbove_cons_cons] at h ⊢
      exact h
  have hforward := lastAbove_mergeForward hdr hfree
  obtain ⟨d, ds, hmerge, -⟩ := mergeForward_eq_cons hdr ⟨b.size, true⟩ post
  rw [release, hmerge]
  rw [hmerge] at hforward
  rcases List.eq_nil_or_concat pre with rfl | ⟨front, c, rfl⟩
  · exact hforward
  rw [List.concat_eq_append, mergeBack_concat]
  have hback : LastAbove k (c :: d :: ds) := lastAbove_cons_cons.mpr hforward
  split_ifs
  · obtain ⟨e, es, hmerge', -⟩ := mergeForward_eq_cons hdr c (d :: ds)
    rw [lastAbove_append _ (by simp [hmerge'])]
    exact lastAbove_mergeForward hdr hback
  · rw [lastAbove_append _ (List.cons_ne_nil c _)]
    exact hback

theorem lastAbove_carve {pre : List Block} {b : Block} {post : List Block} {slack w : ℕ}
    (h : LastAbove slack (pre ++ b :: post)) :
    LastAbove slack (pre ++ (carve hdr slack w b ++ post)) := by
  rw [lastAbove_append pre (List.cons_ne_nil b post)] at h
  have hcarve : carve hdr slack w b ≠ [] := by
    rw [carve]
    split_ifs
    · exact List.cons_ne_nil _ _
    · exact List.cons_ne_nil _ _
  rw [lastAbove_append _ (by simp [hcarve])]
  cases post with
  | nil =>
    rw [lastAbove_singleton] at h
    rw [List.append_nil, carve]
    split_ifs
    · rw [lastAbove_cons_cons, lastAbove_singleton]
      simp only
      omega
    · exact lastAbove_singleton.mpr h
  | cons c post =>
    rw [lastAbove_cons_cons] at h
    rw [lastAbove_append _ (List.cons_ne_nil c post)]
    exact h

/-- How many blocks fit: all but the last have at least `u` units. -/
theorem LastAbove.length_le {k u a : ℕ} {bs : List Block} (h : LastAbove k bs) (hne : bs ≠ [])
    (hsize : ∀ b ∈ bs, u ≤ b.size) :
    a + (hdr + u) * bs.length + k < finish hdr a bs + u := by
  induction bs generalizing a with
  | nil => exact absurd rfl hne
  | cons b bs ih =>
    cases bs with
    | nil =>
      rw [lastAbove_singleton] at h
      simp only [List.length_singleton, finish]
      omega
    | cons c bs =>
      have hb := hsize b List.mem_cons_self
      have hrest := ih (a := a + hdr + b.size) (lastAbove_cons_cons.mp h) (List.cons_ne_nil c bs)
        (fun d hd => hsize d (List.mem_cons_of_mem b hd))
      rw [List.length_cons, Nat.mul_succ, finish]
      omega

def coalesce : List Block → List Block
  | [] => []
  | b :: bs => if b.free then mergeForward hdr b (coalesce bs) else b :: coalesce bs

theorem coalesce_cons_free {b : Block} (hb : b.free = true) (bs : List Block) :
    coalesce hdr (b :: bs) = mergeForward hdr b (coalesce hdr bs) := if_pos hb

theorem coalesce_cons_used {b : Block} (hb : b.free = false) (bs : List Block) :
    coalesce hdr (b :: bs) = b :: coalesce hdr bs := if_neg (by simp [hb])

theorem mergeForward_mergeForward (b : Block) {c : Block} (hc : c.free = true)
    (ds : List Block) : mergeForward hdr b (mergeForward hdr c ds) =
      mergeForward hdr ⟨b.size + hdr + c.size, b.free⟩ ds := by
  induction ds generalizing c with
  | nil => simp only [mergeForward, hc, if_true]
  | cons d ds ih =>
    by_cases hd : d.free = true
    · have hmerged := ih (c := ⟨c.size + hdr + d.size, c.free⟩) hc
      have hsize : b.size + hdr + (c.size + hdr + d.size) =
          b.size + hdr + c.size + hdr + d.size := by omega
      rw [mergeForward, if_pos hd, hmerged, hsize, mergeForward, if_pos hd]
    · rw [mergeForward, if_neg hd, mergeForward, if_pos hc]

theorem mergeForward_append_used (b : Block) (xs : List Block) {c : Block} (hc : c.free = false)
    (ys : List Block) :
    mergeForward hdr b (xs ++ c :: ys) = mergeForward hdr b xs ++ c :: ys := by
  induction xs generalizing b with
  | nil => exact mergeForward_of_used hdr b (fun d hd => by cases hd; exact hc)
  | cons x xs ih =>
    rw [List.cons_append, mergeForward, mergeForward]
    split_ifs
    · exact ih _
    · rfl

theorem coalesce_append_used (xs : List Block) {c : Block} (hc : c.free = false)
    (ys : List Block) :
    coalesce hdr (xs ++ c :: ys) = coalesce hdr xs ++ c :: coalesce hdr ys := by
  induction xs with
  | nil => exact coalesce_cons_used hdr hc ys
  | cons x xs ih =>
    rw [List.cons_append, coalesce, coalesce, ih]
    split_ifs
    · exact mergeForward_append_used hdr x _ hc _
    · rfl

theorem coalesced_coalesce (bs : List Block) : Coalesced (coalesce hdr bs) := by
  induction bs with
  | nil => exact List.isChain_nil
  | cons b bs ih =>
    rw [coalesce]
    split_ifs with hb
    · exact coalesced_mergeForward hdr b ih
    · exact ih.cons_used (Bool.eq_false_iff.mpr hb)

theorem Coalesced.coalesce_eq {bs : List Block} (h : Coalesced bs) : coalesce hdr bs = bs := by
  induction bs with
  | nil => rfl
  | cons b bs ih =>
    obtain ⟨hhead, hrest⟩ := List.isChain_cons.mp h
    rw [coalesce, ih hrest]
    split_ifs with hb
    · apply mergeForward_of_used
      exact fun c hc => Bool.eq_false_iff.mpr (fun hfree => hhead c hc ⟨hb, hfree⟩)
    · rfl

theorem coalesce_append_coalesce (xs ys : List Block) :
    coalesce hdr (xs ++ coalesce hdr ys) = coalesce hdr (xs ++ ys) := by
  induction xs with
  | nil => exact (coalesced_coalesce hdr ys).coalesce_eq hdr
  | cons x xs ih => rw [List.cons_append, List.cons_append, coalesce, coalesce, ih]

theorem coalesce_mergeForward_append {b : Block} (hb : b.free = true) (xs ys : List Block) :
    coalesce hdr (mergeForward hdr b xs ++ ys) = coalesce hdr (b :: (xs ++ ys)) := by
  induction xs generalizing b with
  | nil => rfl
  | cons x xs ih =>
    rw [mergeForward]
    split_ifs with hx
    · have hmerged := ih (b := ⟨b.size + hdr + x.size, b.free⟩) hb
      have hb' : (⟨b.size + hdr + x.size, b.free⟩ : Block).free = true := hb
      rw [hmerged, List.cons_append, coalesce_cons_free hdr hb', coalesce_cons_free hdr hb,
        coalesce_cons_free hdr hx, mergeForward_mergeForward hdr b hx]
    · rfl

theorem coalesce_coalesce_append (xs ys : List Block) :
    coalesce hdr (coalesce hdr xs ++ ys) = coalesce hdr (xs ++ ys) := by
  induction xs with
  | nil => rfl
  | cons x xs ih =>
    rw [List.cons_append]
    cases hx : x.free with
    | true =>
      rw [coalesce_cons_free hdr hx, coalesce_mergeForward_append hdr hx,
        coalesce_cons_free hdr hx, ih, coalesce_cons_free hdr hx]
    | false =>
      rw [coalesce_cons_used hdr hx, List.cons_append, coalesce_cons_used hdr hx, ih,
        coalesce_cons_used hdr hx]

theorem finish_mergeForward (a : ℕ) (b : Block) (cs : List Block) :
    finish hdr a (mergeForward hdr b cs) = finish hdr a (b :: cs) := by
  induction cs generalizing b with
  | nil => rfl
  | cons c cs ih =>
    rw [mergeForward]
    split_ifs
    · have hsize : a + hdr + (b.size + hdr + c.size) = a + hdr + b.size + hdr + c.size := by omega
      rw [ih, finish, finish, finish, hsize]
    · rfl

theorem finish_coalesce (a : ℕ) (bs : List Block) :
    finish hdr a (coalesce hdr bs) = finish hdr a bs := by
  induction bs generalizing a with
  | nil => rfl
  | cons b bs ih =>
    rw [coalesce]
    split_ifs
    · rw [finish_mergeForward, finish, finish, ih]
    · rw [finish, finish, ih]

theorem Coalesced.coalesce_append {xs : List Block} (h : Coalesced xs)
    (hlast : ∀ c ∈ xs.getLast?, c.free = false) (ys : List Block) :
    coalesce hdr (xs ++ ys) = xs ++ coalesce hdr ys := by
  rcases List.eq_nil_or_concat xs with rfl | ⟨front, c, rfl⟩
  · rfl
  rw [List.concat_eq_append] at h hlast ⊢
  have hc : c.free = false := hlast c (by simp)
  have hfront := (coalesced_append.mp h).1.coalesce_eq hdr
  rw [List.append_assoc, List.singleton_append, coalesce_append_used hdr front hc, hfront,
    List.append_assoc, List.singleton_append]

theorem release_eq_coalesce {pre : List Block} {b : Block} {post : List Block}
    (h : Coalesced (pre ++ b :: post)) :
    release hdr pre b post = coalesce hdr (pre ++ ⟨b.size, true⟩ :: post) := by
  obtain ⟨hpre, hrest, -⟩ := coalesced_append.mp h
  have hpost : coalesce hdr (⟨b.size, true⟩ :: post) =
      mergeForward hdr ⟨b.size, true⟩ post := by
    have hpost : Coalesced post := List.isChain_of_isChain_cons hrest
    rw [coalesce_cons_free hdr rfl, hpost.coalesce_eq hdr]
  rcases List.eq_nil_or_concat pre with rfl | ⟨front, c, rfl⟩
  · rw [List.nil_append, hpost]
    rfl
  rw [List.concat_eq_append] at hpre ⊢
  obtain ⟨hfront, -, hjoin⟩ := coalesced_append.mp hpre
  rw [release, mergeBack_concat, List.append_assoc, List.singleton_append]
  by_cases hc : c.free = true
  · have hlast : ∀ d ∈ front.getLast?, d.free = false := fun d hd =>
      Bool.eq_false_iff.mpr (fun hfree => hjoin d hd c rfl ⟨hfree, hc⟩)
    rw [if_pos hc, hfront.coalesce_append hdr hlast, coalesce_cons_free hdr hc, hpost]
  · rw [if_neg hc, coalesce_append_used hdr front (Bool.eq_false_iff.mpr hc), hpost,
      hfront.coalesce_eq hdr]

theorem cut_twice {a : ℕ} {pre post pre' post' : List Block} {b c : Block}
    (h : pre ++ b :: post = pre' ++ c :: post') (hne : finish hdr a pre ≠ finish hdr a pre') :
    (∃ mid, pre' = pre ++ b :: mid ∧ post = mid ++ c :: post') ∨
      ∃ mid, pre = pre' ++ c :: mid ∧ post' = mid ++ b :: post := by
  rcases List.append_eq_append_iff.mp h with ⟨mid, hpre, hrest⟩ | ⟨mid, hpre, hrest⟩
  · cases mid with
    | nil =>
      rw [List.append_nil] at hpre
      exact absurd (hpre ▸ rfl) hne
    | cons d mid =>
      rw [List.cons_append, List.cons.injEq] at hrest
      obtain ⟨rfl, hpost⟩ := hrest
      exact Or.inl ⟨mid, hpre, hpost⟩
  · cases mid with
    | nil =>
      rw [List.append_nil] at hpre
      exact absurd (hpre ▸ rfl) hne
    | cons d mid =>
      rw [List.cons_append, List.cons.injEq] at hrest
      obtain ⟨rfl, hpost⟩ := hrest
      exact Or.inr ⟨mid, hpre, hpost⟩

section TwoReleases

variable {pre mid post : List Block} {b c : Block}

theorem release_front (h : Coalesced (pre ++ b :: (mid ++ c :: post))) (hc : c.free = false) :
    release hdr pre b (mid ++ c :: post) =
      coalesce hdr (pre ++ ⟨b.size, true⟩ :: mid) ++ c :: post := by
  have hpost : Coalesced post := by
    have hrest := (coalesced_append.mp h).2.1
    exact List.isChain_of_isChain_cons
      (coalesced_append.mp (List.isChain_of_isChain_cons hrest)).2.1
  have hcut : pre ++ ⟨b.size, true⟩ :: (mid ++ c :: post) =
      (pre ++ ⟨b.size, true⟩ :: mid) ++ c :: post := by simp
  rw [release_eq_coalesce hdr h, hcut, coalesce_append_used hdr _ hc, hpost.coalesce_eq hdr]

theorem release_back (h : Coalesced (pre ++ b :: (mid ++ c :: post))) (hb : b.free = false) :
    release hdr (pre ++ b :: mid) c post =
      pre ++ b :: coalesce hdr (mid ++ ⟨c.size, true⟩ :: post) := by
  have hpre := (coalesced_append.mp h).1
  have hcut : pre ++ b :: (mid ++ c :: post) = (pre ++ b :: mid) ++ c :: post := by simp
  rw [hcut] at h
  rw [release_eq_coalesce hdr h, List.append_assoc, List.cons_append,
    coalesce_append_used hdr pre hb, hpre.coalesce_eq hdr]

/-- In either order the two releases leave the list with both blocks free and merged. -/
theorem release_front_back (h : Coalesced (pre ++ b :: (mid ++ c :: post)))
    (hc : c.free = false) :
    release hdr (coalesce hdr (pre ++ ⟨b.size, true⟩ :: mid)) c post =
      coalesce hdr (pre ++ ⟨b.size, true⟩ :: (mid ++ ⟨c.size, true⟩ :: post)) := by
  have hfirst := coalesced_release hdr h
  rw [release_front hdr h hc] at hfirst
  rw [release_eq_coalesce hdr hfirst, coalesce_coalesce_append, List.append_assoc,
    List.cons_append]

theorem release_back_front (h : Coalesced (pre ++ b :: (mid ++ c :: post)))
    (hb : b.free = false) :
    release hdr pre b (coalesce hdr (mid ++ ⟨c.size, true⟩ :: post)) =
      coalesce hdr (pre ++ ⟨b.size, true⟩ :: (mid ++ ⟨c.size, true⟩ :: post)) := by
  have hcut : pre ++ b :: (mid ++ c :: post) = (pre ++ b :: mid) ++ c :: post := by simp
  have hfirst := coalesced_release hdr (hcut ▸ h)
  rw [release_back hdr h hb] at hfirst
  have hinner := coalesce_append_coalesce hdr (pre ++ [⟨b.size, true⟩])
    (mid ++ ⟨c.size, true⟩ :: post)
  simp only [List.append_assoc, List.singleton_append] at hinner
  rw [release_eq_coalesce hdr hfirst, hinner]

end TwoReleases

def units (free : Bool) (bs : List Block) : ℕ :=
  ((bs.filter (fun b => b.free == free)).map Block.size).sum

theorem units_concat (free : Bool) (bs : List Block) (b : Block) :
    units free (bs ++ [b]) = units free bs + if b.free = free then b.size else 0 := by
  rw [units, units, List.filter_append, List.map_append, List.sum_append]
  by_cases hb : b.free = free
  · simp [hb]
  · simp [hb]

theorem finish_eq (a : ℕ) (bs : List Block) :
    finish hdr a bs = a + hdr * bs.length + units false bs + units true bs := by
  induction bs using List.reverseRecOn with
  | nil => rfl
  | append_singleton bs b ih =>
    have hlength : hdr * (bs ++ [b]).length = hdr * bs.length + hdr := by
      rw [List.length_append, List.length_singleton, Nat.mul_succ]
    rw [finish_append, ih, hlength, units_concat, units_concat, finish, finish]
    cases b.free
    · simp only [if_true, Bool.false_eq_true, if_false]
      omega
    · simp only [if_true, Bool.true_eq_false, if_false]
      omega

def largestFree : List Block → ℕ
  | [] => 0
  | b :: bs => max (if b.free then b.size else 0) (largestFree bs)

theorem largestFree_concat (bs : List Block) (b : Block) :
    largestFree (bs ++ [b]) = max (largestFree bs) (if b.free then b.size else 0) := by
  induction bs with
  | nil => exact Nat.max_comm _ _
  | cons c bs ih => rw [List.cons_append, largestFree, largestFree, ih, Nat.max_assoc]

theorem le_largestFree_iff {w : ℕ} (hw : 0 < w) (bs : List Block) :
    w ≤ largestFree bs ↔ ∃ b ∈ bs, b.free = true ∧ w ≤ b.size := by
  induction bs with
  | nil => simp [largestFree, Nat.pos_iff_ne_zero.mp hw]
  | cons b bs ih =>
    have hfirst : w ≤ (if b.free then b.size else 0) ↔ b.free = true ∧ w ≤ b.size := by
      split_ifs with hb
      · exact ⟨fun hle => ⟨hb, hle⟩, fun hle => hle.2⟩
      · exact ⟨fun hle => absurd hle (by omega), fun hle => absurd hle.1 hb⟩
    rw [largestFree, le_max_iff, ih, hfirst, List.exists_mem_cons_iff]

end Mcsos.BlockList
