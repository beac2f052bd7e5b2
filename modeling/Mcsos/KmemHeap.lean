import Mcsos.BlockList
import Mcsos.KmemState

/-!
# The block list in memory

`Seg` says that the headers of a list of blocks stand in memory from an address on, with the
links between neighbours. The two header edits of the allocator, installing the second half
of a split block and absorbing the next block, are specified by the headers they leave, the
bytes they do not touch, and the 16-byte aligned words that carry the magic number.
-/

namespace Mcsos.Kmem
open BoundedLoop ByteMemory WordArithmetic BlockList

/-- The header at address `a`; the two reserved fields are arbitrary. -/
structure HeaderAt (m : Memory) (a size : ℕ) (free : Bool) (prev next : ℕ) : Prop where
  magic : loadU64 m a = kmemMagic
  size : (loadU64 m (a + 8)).toNat = size
  free : loadU32 m (a + 16) ≠ 0 ↔ free = true
  prev : (loadU64 m (a + 32)).toNat = prev
  next : (loadU64 m (a + 40)).toNat = next

theorem HeaderAt.congr {m m' : Memory} {a size prev next : ℕ} {free : Bool}
    (h : HeaderAt m a size free prev next) (hagree : ∀ x, a ≤ x → x < a + 48 → m' x = m x) :
    HeaderAt m' a size free prev next where
  magic := by
    rw [loadU64_congr (fun x _ _ => hagree x (by omega) (by omega))]
    exact h.magic
  size := by
    rw [loadU64_congr (fun x _ _ => hagree x (by omega) (by omega))]
    exact h.size
  free := by
    rw [loadU32_congr (fun x _ _ => hagree x (by omega) (by omega))]
    exact h.free
  prev := by
    rw [loadU64_congr (fun x _ _ => hagree x (by omega) (by omega))]
    exact h.prev
  next := by
    rw [loadU64_congr (fun x _ _ => hagree x (by omega) (by omega))]
    exact h.next

theorem HeaderAt.storeSize {m : Memory} {a size prev next : ℕ} {free : Bool}
    (h : HeaderAt m a size free prev next) (v : UInt64) :
    HeaderAt (storeU64 m (a + 8) v) a v.toNat free prev next where
  magic := by rw [loadU64_storeU64_disjoint m v (by omega)]; exact h.magic
  size := by rw [loadU64_storeU64]
  free := by rw [loadU32_storeU64_disjoint m v (by omega)]; exact h.free
  prev := by rw [loadU64_storeU64_disjoint m v (by omega)]; exact h.prev
  next := by rw [loadU64_storeU64_disjoint m v (by omega)]; exact h.next

theorem HeaderAt.storeFree {m : Memory} {a size prev next : ℕ} {free : Bool}
    (h : HeaderAt m a size free prev next) (v : UInt32) :
    HeaderAt (storeU32 m (a + 16) v) a size (decide (v ≠ 0)) prev next where
  magic := by rw [loadU64_storeU32_disjoint m v (by omega)]; exact h.magic
  size := by rw [loadU64_storeU32_disjoint m v (by omega)]; exact h.size
  free := by rw [loadU32_storeU32, decide_eq_true_eq]
  prev := by rw [loadU64_storeU32_disjoint m v (by omega)]; exact h.prev
  next := by rw [loadU64_storeU32_disjoint m v (by omega)]; exact h.next

theorem HeaderAt.storePrev {m : Memory} {a size prev next : ℕ} {free : Bool}
    (h : HeaderAt m a size free prev next) (v : UInt64) :
    HeaderAt (storeU64 m (a + 32) v) a size free v.toNat next where
  magic := by rw [loadU64_storeU64_disjoint m v (by omega)]; exact h.magic
  size := by rw [loadU64_storeU64_disjoint m v (by omega)]; exact h.size
  free := by rw [loadU32_storeU64_disjoint m v (by omega)]; exact h.free
  prev := by rw [loadU64_storeU64]
  next := by rw [loadU64_storeU64_disjoint m v (by omega)]; exact h.next

theorem HeaderAt.storeNext {m : Memory} {a size prev next : ℕ} {free : Bool}
    (h : HeaderAt m a size free prev next) (v : UInt64) :
    HeaderAt (storeU64 m (a + 40) v) a size free prev v.toNat where
  magic := by rw [loadU64_storeU64_disjoint m v (by omega)]; exact h.magic
  size := by rw [loadU64_storeU64_disjoint m v (by omega)]; exact h.size
  free := by rw [loadU32_storeU64_disjoint m v (by omega)]; exact h.free
  prev := by rw [loadU64_storeU64_disjoint m v (by omega)]; exact h.prev
  next := by rw [loadU64_storeU64]

def installHeader (m : Memory) (b size prev next : UInt64) : Memory :=
  setNext (setPrev (setFree (setSize (setMagic m b kmemMagic) b size) b 1) b prev) b next

theorem freeAt_installHeader (m : Memory) (b size prev next : UInt64) :
    freeAt (installHeader m b size prev next) b = 1 := by
  simp only [freeAt, installHeader, setMagic, setSize, setFree, setPrev, setNext]
  rw [loadU32_storeU64_disjoint _ _ (by omega), loadU32_storeU64_disjoint _ _ (by omega),
    loadU32_storeU32]

theorem headerAt_install (m : Memory) (b size prev next : UInt64) :
    HeaderAt (installHeader m b size prev next) b.toNat size.toNat true prev.toNat
      next.toNat := by
  have hfree := freeAt_installHeader m b size prev next
  simp only [freeAt, installHeader, setMagic, setSize, setFree, setPrev, setNext] at hfree ⊢
  constructor
  case magic =>
    rw [loadU64_storeU64_disjoint _ _ (by omega), loadU64_storeU64_disjoint _ _ (by omega),
      loadU64_storeU32_disjoint _ _ (by omega), loadU64_storeU64_disjoint _ _ (by omega),
      loadU64_storeU64]
  case size =>
    rw [loadU64_storeU64_disjoint _ _ (by omega), loadU64_storeU64_disjoint _ _ (by omega),
      loadU64_storeU32_disjoint _ _ (by omega), loadU64_storeU64]
  case free =>
    rw [hfree]
    decide
  case prev => rw [loadU64_storeU64_disjoint _ _ (by omega), loadU64_storeU64]
  case next => rw [loadU64_storeU64]

def clearHeader (m : Memory) (b : UInt64) : Memory :=
  setNext (setPrev (setSize (setMagic m b 0) b 0) b 0) b 0

def linkAfter (m : Memory) (next b : UInt64) : Memory :=
  if next ≠ 0 then setPrev m next b else m

section Outside

variable {m : Memory} {x : ℕ} {b : UInt64} (h : x < b.toNat ∨ b.toNat + 48 ≤ x)
include h

theorem setSize_outside (v : UInt64) : setSize m b v x = m x :=
  storeU64_outside m _ v (by omega)

theorem setFree_outside (v : UInt32) : setFree m b v x = m x :=
  storeU32_outside m _ v (by omega)

theorem setNext_outside (v : UInt64) : setNext m b v x = m x :=
  storeU64_outside m _ v (by omega)

theorem installHeader_outside (size prev next : UInt64) :
    installHeader m b size prev next x = m x := by
  simp only [installHeader, setMagic, setSize, setFree, setPrev, setNext]
  rw [storeU64_outside _ _ _ (by omega), storeU64_outside _ _ _ (by omega),
    storeU32_outside _ _ _ (by omega), storeU64_outside _ _ _ (by omega),
    storeU64_outside _ _ _ (by omega)]

theorem clearHeader_outside : clearHeader m b x = m x := by
  simp only [clearHeader, setMagic, setSize, setPrev, setNext]
  rw [storeU64_outside _ _ _ (by omega), storeU64_outside _ _ _ (by omega),
    storeU64_outside _ _ _ (by omega), storeU64_outside _ _ _ (by omega)]

end Outside

theorem linkAfter_outside {m : Memory} {next : UInt64} (b : UInt64) {x : ℕ}
    (h : next = 0 ∨ x < next.toNat ∨ next.toNat + 48 ≤ x) : linkAfter m next b x = m x := by
  rw [linkAfter]
  split_ifs with hz
  · exact storeU64_outside m _ b (by
      rcases h with h | h
      · exact absurd h hz
      · omega)
  · rfl

def linkTo (E x : ℕ) : ℕ := if x = E then 0 else x

/-- The headers of the blocks stand in memory from `a` on; `prev` is the header before. -/
def Seg (m : Memory) (E : ℕ) : ℕ → ℕ → List Block → Prop
  | _, _, [] => True
  | prev, a, b :: bs =>
      HeaderAt m a b.size b.free prev (linkTo E (a + 48 + b.size)) ∧
        Seg m E a (a + 48 + b.size) bs

theorem seg_append {m : Memory} {E prev a : ℕ} {xs ys : List Block} :
    Seg m E prev a (xs ++ ys) ↔
      Seg m E prev a xs ∧ Seg m E (lastStart 48 prev a xs) (finish 48 a xs) ys := by
  induction xs generalizing prev a with
  | nil => simp [Seg, lastStart, finish]
  | cons x xs ih => simp only [List.cons_append, Seg, ih, lastStart, finish, and_assoc]

theorem Seg.congr {m m' : Memory} {E prev a : ℕ} {bs : List Block} (h : Seg m E prev a bs)
    (hagree : ∀ x, a ≤ x → x < finish 48 a bs → m' x = m x) : Seg m' E prev a bs := by
  induction bs generalizing prev a with
  | nil => trivial
  | cons b bs ih =>
    have hle := le_finish 48 (a + 48 + b.size) bs
    refine ⟨h.1.congr (fun x h₁ h₂ => hagree x h₁ ?_), ih h.2 (fun x h₁ h₂ => hagree x ?_ h₂)⟩
    · simp only [finish]
      omega
    · omega

theorem Seg.relink {m m' : Memory} {E prev prev' a : ℕ} {bs : List Block}
    (h : Seg m E prev a bs)
    (hfirst : ∀ size free next, bs ≠ [] → HeaderAt m a size free prev next →
      HeaderAt m' a size free prev' next)
    (hagree : ∀ x, a + 48 ≤ x → x < finish 48 a bs → m' x = m x) : Seg m' E prev' a bs := by
  cases bs with
  | nil => trivial
  | cons b bs =>
    refine ⟨hfirst _ _ _ (List.cons_ne_nil b bs) h.1, h.2.congr (fun x h₁ h₂ => hagree x ?_ h₂)⟩
    omega

def MagicWord (m : Memory) (x : ℕ) : Prop := loadU64 m x = kmemMagic

theorem kmemMagic_mod : kmemMagic.toNat % 16 = 1 := by decide

section MagicWords

variable {m : Memory} {x : ℕ} {b : UInt64} (hx : x % 16 = 0) (hb : b.toNat % 16 = 0)
include hx hb

theorem magicWord_setSize (v : UInt64) : MagicWord (setSize m b v) x ↔ MagicWord m x := by
  rw [MagicWord, setSize, loadU64_storeU64_disjoint m v (by omega), MagicWord]

theorem magicWord_setNext (v : UInt64) : MagicWord (setNext m b v) x ↔ MagicWord m x := by
  rw [MagicWord, setNext, loadU64_storeU64_disjoint m v (by omega), MagicWord]

theorem magicWord_of_setPrev {v : UInt64} (hv : v.toNat % 16 = 0)
    (h : MagicWord (setPrev m b v) x) : MagicWord m x := by
  by_cases heq : x = b.toNat + 32
  · rw [MagicWord, setPrev, heq, loadU64_storeU64] at h
    have hmod := kmemMagic_mod
    rw [← h] at hmod
    omega
  · rwa [MagicWord, setPrev, loadU64_storeU64_disjoint m v (by omega)] at h

theorem magicWord_of_setFree {v : UInt32} (hv : v = 0 ∨ v = 1)
    (h : MagicWord (setFree m b v) x) : MagicWord m x := by
  by_cases heq : x = b.toNat + 16
  · have hlow := loadU64_low (setFree m b v) x
    rw [MagicWord] at h
    rw [h, setFree, heq, loadU32_storeU32] at hlow
    have hmagic : kmemMagic.toNat % 2 ^ 32 = 0x53484541 := by decide
    rw [hmagic] at hlow
    rcases hv with rfl | rfl
    · exact absurd hlow (by decide)
    · exact absurd hlow (by decide)
  · rwa [MagicWord, setFree, loadU64_storeU32_disjoint m v (by omega)] at h

theorem magicWord_of_setMagic {v : UInt64} (h : MagicWord (setMagic m b v) x) :
    (x = b.toNat ∧ v = kmemMagic) ∨ (x ≠ b.toNat ∧ MagicWord m x) := by
  by_cases heq : x = b.toNat
  · rw [MagicWord, setMagic, heq, loadU64_storeU64] at h
    exact Or.inl ⟨heq, h⟩
  · rw [MagicWord, setMagic, loadU64_storeU64_disjoint m v (by omega)] at h
    exact Or.inr ⟨heq, h⟩

end MagicWords

theorem magicWord_of_installHeader {m : Memory} {x : ℕ} {b size prev next : UInt64}
    (hx : x % 16 = 0) (hb : b.toNat % 16 = 0) (hprev : prev.toNat % 16 = 0)
    (h : MagicWord (installHeader m b size prev next) x) : x = b.toNat ∨ MagicWord m x := by
  rw [installHeader, magicWord_setNext hx hb] at h
  have h₁ := magicWord_of_setFree hx hb (Or.inr rfl) (magicWord_of_setPrev hx hb hprev h)
  rw [magicWord_setSize hx hb] at h₁
  rcases magicWord_of_setMagic hx hb h₁ with h₂ | h₂
  · exact Or.inl h₂.1
  · exact Or.inr h₂.2

theorem magicWord_of_clearHeader {m : Memory} {x : ℕ} {b : UInt64} (hx : x % 16 = 0)
    (hb : b.toNat % 16 = 0) (h : MagicWord (clearHeader m b) x) :
    x ≠ b.toNat ∧ MagicWord m x := by
  rw [clearHeader, magicWord_setNext hx hb] at h
  have h₁ := magicWord_of_setPrev hx hb rfl h
  rw [magicWord_setSize hx hb] at h₁
  rcases magicWord_of_setMagic hx hb h₁ with h₂ | h₂
  · exact absurd h₂.2 (by decide)
  · exact h₂

theorem magicWord_of_linkAfter {m : Memory} {x : ℕ} {next b : UInt64} (hx : x % 16 = 0)
    (hnext : next.toNat % 16 = 0) (hb : b.toNat % 16 = 0)
    (h : MagicWord (linkAfter m next b) x) : MagicWord m x := by
  rw [linkAfter] at h
  split_ifs at h
  · exact magicWord_of_setPrev hx hnext hb h
  · exact h

theorem absorbNext_eq {m : Memory} {block next : UInt64}
    (hsep : block.toNat + 48 ≤ next.toNat) :
    absorbNext m block next = clearHeader
      (linkAfter (setNext (setSize m block (sizeAt m block + (sizeofBlock + sizeAt m next)))
        block (nextAt m next)) (nextAt m next) block) next := by
  have h₁ : ∀ v, nextAt (setSize m block v) next = nextAt m next := fun v =>
    loadU64_storeU64_disjoint m v (by omega)
  have h₂ : ∀ v w, nextAt (setNext (setSize m block v) block w) next = nextAt m next :=
    fun v w => (loadU64_storeU64_disjoint _ w (by omega)).trans (h₁ v)
  simp only [absorbNext, h₁, h₂]
  rfl

theorem installSplit_eq {m : Memory} {block newBlock : UInt64} (wanted consumed : UInt64)
    (hsep : block.toNat + 48 ≤ newBlock.toNat) :
    installSplit m block newBlock wanted consumed =
      setSize (setNext (linkAfter (installHeader m newBlock
        (sizeAt m block - consumed - sizeofBlock) block (nextAt m block)) (nextAt m block)
        newBlock) block newBlock) block wanted := by
  have hsize : sizeAt (setMagic m newBlock kmemMagic) block = sizeAt m block :=
    loadU64_storeU64_disjoint m _ (by omega)
  have hnext : ∀ v, nextAt (setPrev (setFree (setSize (setMagic m newBlock kmemMagic) newBlock v)
      newBlock 1) newBlock block) block = nextAt m block := by
    intro v
    simp only [nextAt, setMagic, setSize, setFree, setPrev]
    rw [loadU64_storeU64_disjoint _ _ (by omega), loadU64_storeU32_disjoint _ _ (by omega),
      loadU64_storeU64_disjoint _ _ (by omega), loadU64_storeU64_disjoint _ _ (by omega)]
  have hnext' : ∀ v w, nextAt (setNext (setPrev (setFree (setSize (setMagic m newBlock
      kmemMagic) newBlock v) newBlock 1) newBlock block) newBlock w) block = nextAt m block :=
    fun v w => (loadU64_storeU64_disjoint _ w (by omega)).trans (hnext v)
  simp only [installSplit, hsize, hnext, hnext']
  rfl

/-- The blocks tile the heap `[B, E)` and no other aligned word carries the magic number. -/
structure Tiled (m : Memory) (B E : ℕ) (bs : List Block) : Prop where
  base : 0 < B
  proper : B < E
  aligned : B % 16 = 0
  finish : finish 48 B bs = E
  bound : E < 2 ^ 64
  extent : E - B < 2 ^ 63
  shape : ∀ b ∈ bs, b.size % 16 = 0 ∧ 16 ≤ b.size
  seg : Seg m E 0 B bs
  magic : ∀ x, x % 16 = 0 → B ≤ x → x < E → MagicWord m x → x ∈ starts 48 B bs

structure Cut (m : Memory) (B E : ℕ) (pre : List Block) (b : Block) (post : List Block)
    (a : ℕ) : Prop where
  base : 0 < B
  aligned : a % 16 = 0
  lower : B ≤ a
  upper : a + 48 + b.size ≤ E
  bound : E < 2 ^ 64
  extent : E - B < 2 ^ 63
  shape : b.size % 16 = 0 ∧ 16 ≤ b.size
  before : Seg m E 0 B pre
  header : HeaderAt m a b.size b.free (lastStart 48 0 B pre) (linkTo E (a + 48 + b.size))
  after : Seg m E a (a + 48 + b.size) post
  finish : finish 48 (a + 48 + b.size) post = E

theorem Tiled.cut {m : Memory} {B E : ℕ} {pre post : List Block} {b : Block}
    (h : Tiled m B E (pre ++ b :: post)) : Cut m B E pre b post (BlockList.finish 48 B pre) := by
  have hseg := seg_append.mp h.seg
  have hfinish := h.finish
  rw [finish_append] at hfinish
  have hend := le_finish 48 (BlockList.finish 48 B pre + 48 + b.size) post
  have hmod : BlockList.finish 48 B pre % 16 = 0 :=
    finish_mod 48 (by decide) h.aligned (fun c hc => (h.shape c (by simp [hc])).1)
  exact
    { base := h.base
      aligned := hmod
      lower := le_finish 48 B pre
      upper := hend.trans (le_of_eq hfinish)
      bound := h.bound
      extent := h.extent
      shape := h.shape b (by simp)
      before := hseg.1
      header := hseg.2.1
      after := hseg.2.2
      finish := hfinish }

theorem Tiled.replace {m m' : Memory} {B E a : ℕ} {pre mid post : List Block}
    (h : Tiled m B E (pre ++ (mid ++ post))) (mid' : List Block)
    (ha : a = BlockList.finish 48 B pre)
    (hfinish : BlockList.finish 48 a mid' = BlockList.finish 48 a mid)
    (hshape : ∀ b ∈ mid', b.size % 16 = 0 ∧ 16 ≤ b.size)
    (hbefore : ∀ x, x < a → m' x = m x)
    (hmid : Seg m' E (lastStart 48 0 B pre) a mid')
    (hpost : Seg m' E (lastStart 48 (lastStart 48 0 B pre) a mid')
      (BlockList.finish 48 a mid) post)
    (hmagic : ∀ x, x % 16 = 0 → MagicWord m' x → x ∈ starts 48 a mid' ∨
      (MagicWord m x ∧ (x ∈ starts 48 a mid → x ∈ starts 48 a mid'))) :
    Tiled m' B E (pre ++ (mid' ++ post)) := by
  have hold := h.finish
  rw [finish_append, finish_append, ← ha] at hold
  constructor
  case base => exact h.base
  case proper => exact h.proper
  case aligned => exact h.aligned
  case finish => rw [finish_append, finish_append, ← ha, hfinish, hold]
  case bound => exact h.bound
  case extent => exact h.extent
  case shape =>
    intro b hb
    rcases List.mem_append.mp hb with hb | hb
    · exact h.shape b (by simp [hb])
    · rcases List.mem_append.mp hb with hb | hb
      · exact hshape b hb
      · exact h.shape b (by simp [hb])
  case seg =>
    refine seg_append.mpr ⟨?_, seg_append.mpr ⟨?_, ?_⟩⟩
    · exact (seg_append.mp h.seg).1.congr (fun x _ hx => hbefore x (ha ▸ hx))
    · rw [← ha]
      exact hmid
    · rw [← ha, hfinish]
      exact hpost
  case magic =>
    intro x hx hlow hhigh hword
    rw [starts_append, starts_append, ← ha, hfinish]
    rcases hmagic x hx hword with hnew | ⟨hword, hkeep⟩
    · simp [hnew]
    · have hstart := h.magic x hx hlow hhigh hword
      rw [starts_append, starts_append, ← ha] at hstart
      rcases List.mem_append.mp hstart with hin | hin
      · simp [hin]
      · rcases List.mem_append.mp hin with hin | hin
        · simp [hkeep hin]
        · simp [hin]

theorem Tiled.setFree {m : Memory} {B E : ℕ} {pre post : List Block} {b : Block} {p : UInt64}
    (h : Tiled m B E (pre ++ b :: post)) (hp : p.toNat = BlockList.finish 48 B pre)
    {v : UInt32} (hv : v = 0 ∨ v = 1) :
    Tiled (setFree m p v) B E (pre ++ ⟨b.size, decide (v ≠ 0)⟩ :: post) := by
  have hcut := h.cut
  rw [← hp] at hcut
  have hout : ∀ x, x < p.toNat ∨ p.toNat + 48 ≤ x → Kmem.setFree m p v x = m x :=
    fun x hx => setFree_outside hx v
  have h' : Tiled m B E (pre ++ ([b] ++ post)) := h
  refine h'.replace [⟨b.size, decide (v ≠ 0)⟩] hp rfl ?_ (fun x hx => hout x (Or.inl hx))
    ⟨hcut.header.storeFree v, trivial⟩
    (hcut.after.congr (fun x hx _ => hout x (Or.inr (by omega)))) ?_
  · intro c hc
    rw [List.mem_singleton.mp hc]
    exact hcut.shape
  · intro x hx hword
    exact Or.inr ⟨magicWord_of_setFree hx hcut.aligned hv hword, fun hin => hin⟩

theorem Tiled.payload_clean {m : Memory} {B E x : ℕ} {pre post : List Block} {b : Block}
    (h : Tiled m B E (pre ++ b :: post)) (hx : x % 16 = 0)
    (hlow : BlockList.finish 48 B pre + 48 ≤ x)
    (hhigh : x < BlockList.finish 48 B pre + 48 + b.size) : ¬ MagicWord m x := by
  intro hword
  have hlower := h.cut.lower
  have hupper := h.cut.upper
  exact not_mem_starts_of_payload 48 (by decide) hlow hhigh
    (h.magic x hx (by omega) (by omega) hword)

theorem Tiled.rewritePayload {m m' : Memory} {B E a : ℕ} {pre post : List Block} {b : Block}
    (h : Tiled m B E (pre ++ b :: post)) (ha : a = BlockList.finish 48 B pre)
    (hout : ∀ x, x < a + 48 ∨ a + 48 + b.size ≤ x → m' x = m x)
    (hclean : ∀ x, x % 16 = 0 → a + 48 ≤ x → x < a + 48 + b.size → ¬ MagicWord m' x) :
    Tiled m' B E (pre ++ b :: post) := by
  have hcut := h.cut
  rw [← ha] at hcut
  have hamod := hcut.aligned
  have hbmod := hcut.shape.1
  have h' : Tiled m B E (pre ++ ([b] ++ post)) := h
  refine h'.replace [b] ha rfl ?_ (fun x hx => hout x (by omega)) ⟨?_, trivial⟩ ?_ ?_
  · intro c hc
    rw [List.mem_singleton.mp hc]
    exact hcut.shape
  · exact hcut.header.congr (fun x _ _ => hout x (by omega))
  · exact hcut.after.congr (fun x hx _ => hout x (Or.inr hx))
  · intro x hx hword
    refine Or.inr ⟨?_, fun hin => hin⟩
    by_cases hin : a + 48 ≤ x ∧ x < a + 48 + b.size
    · exact absurd hword (hclean x hx hin.1 hin.2)
    · rw [MagicWord, ← loadU64_congr (m := m') (fun y _ _ => hout y (by omega))]
      exact hword

theorem not_magicWord_of_zero {m : Memory} {x i : ℕ} (hi : i < 8) (hzero : m (x + i) = 0) :
    ¬ MagicWord m x := by
  intro hword
  have hbyte := byte_of_loadBytes m x hi
  rw [← loadU64_toNat, hword, hzero] at hbyte
  interval_cases i
  all_goals exact absurd hbyte (by decide)

theorem linkTo_mod {E x : ℕ} (hx : x % 16 = 0) : linkTo E x % 16 = 0 := by
  rw [linkTo]
  split_ifs
  · rfl
  · exact hx

theorem link_cases {E x : ℕ} {v : UInt64} (hx : 0 < x) (hv : v.toNat = linkTo E x) :
    (v = 0 ∧ x = E) ∨ (v ≠ 0 ∧ v.toNat = x ∧ x ≠ E) := by
  by_cases hE : x = E
  · rw [linkTo, if_pos hE] at hv
    exact Or.inl ⟨(eq_zero_iff v).mpr hv, hE⟩
  · rw [linkTo, if_neg hE] at hv
    refine Or.inr ⟨?_, hv, hE⟩
    rw [Ne, eq_zero_iff]
    omega

theorem linkAfter_outside_of_link {m : Memory} {E a : ℕ} {next : UInt64} (b : UInt64)
    (ha : 0 < a) (hnext : next.toNat = linkTo E a) {x : ℕ} (hx : a = E ∨ x < a ∨ a + 48 ≤ x) :
    linkAfter m next b x = m x := by
  refine linkAfter_outside b ?_
  rcases link_cases ha hnext with h | h
  · exact Or.inl h.1
  · exact Or.inr (h.2.1 ▸ hx.resolve_left h.2.2)

theorem Seg.linkAfter {m : Memory} {E prev a : ℕ} {post : List Block} {next : UInt64}
    (h : Seg m E prev a post) (ha : 0 < a) (hfinish : finish 48 a post = E)
    (hnext : next.toNat = linkTo E a) (b : UInt64) :
    Seg (linkAfter m next b) E b.toNat a post := by
  refine h.relink ?_ (fun x hx _ => linkAfter_outside_of_link b ha hnext (Or.inr (Or.inr hx)))
  intro size free link hpost hheader
  have hle := add_hdr_le_finish 48 a hpost
  rcases link_cases ha hnext with hend | ⟨hne, heq, -⟩
  · omega
  · rw [Kmem.linkAfter, if_pos hne, setPrev, heq]
    exact hheader.storePrev b

theorem absorbNext_outside {m : Memory} {E a x : ℕ} {p q : UInt64}
    (hsep : p.toNat + 48 ≤ q.toNat) (ha : 0 < a) (hafter : (nextAt m q).toNat = linkTo E a)
    (hp : x < p.toNat ∨ p.toNat + 48 ≤ x) (hq : x < q.toNat ∨ q.toNat + 48 ≤ x)
    (hx : a = E ∨ x < a ∨ a + 48 ≤ x) : absorbNext m p q x = m x := by
  rw [absorbNext_eq hsep, clearHeader_outside hq, linkAfter_outside_of_link p ha hafter hx,
    setNext_outside hp, setSize_outside hp]

theorem installSplit_outside {m : Memory} {E a x : ℕ} {p q : UInt64}
    (hsep : p.toNat + 48 ≤ q.toNat) (ha : 0 < a) (hafter : (nextAt m p).toNat = linkTo E a)
    (wanted : UInt64) (hp : x < p.toNat ∨ p.toNat + 48 ≤ x)
    (hq : x < q.toNat ∨ q.toNat + 48 ≤ x) (hx : a = E ∨ x < a ∨ a + 48 ≤ x) :
    installSplit m p q wanted wanted x = m x := by
  rw [installSplit_eq wanted wanted hsep, setSize_outside hp, setNext_outside hp,
    linkAfter_outside_of_link q ha hafter hx, installHeader_outside hq]

theorem Tiled.absorbNext {m : Memory} {B E : ℕ} {pre post : List Block} {b c : Block}
    {p q : UInt64} (h : Tiled m B E (pre ++ b :: c :: post))
    (hp : p.toNat = BlockList.finish 48 B pre) (hq : q.toNat = p.toNat + 48 + b.size) :
    Tiled (absorbNext m p q) B E (pre ++ ⟨b.size + 48 + c.size, b.free⟩ :: post) := by
  have hcut := h.cut
  rw [← hp] at hcut
  obtain ⟨hcheader, hcpost⟩ := hcut.after
  have hfin := hcut.finish
  rw [← hq] at hcheader hcpost hfin
  rw [BlockList.finish] at hfin
  have hle := le_finish 48 (q.toNat + 48 + c.size) post
  have hbound := hcut.bound
  have hbmod := hcut.shape.1
  have hpmod := hcut.aligned
  have hcshape := h.shape c (by simp)
  have hqmod : q.toNat % 16 = 0 := by omega
  have hafter : (nextAt m q).toNat = linkTo E (q.toNat + 48 + c.size) := hcheader.next
  have hamod : (nextAt m q).toNat % 16 = 0 := hafter ▸ linkTo_mod (by omega)
  have hpos : 0 < q.toNat + 48 + c.size := by omega
  set size := sizeAt m p + (sizeofBlock + sizeAt m q) with hsize
  have hsizeNat : size.toNat = b.size + 48 + c.size := by
    have h₁ : (sizeAt m p).toNat = b.size := hcut.header.size
    have h₂ : (sizeAt m q).toNat = c.size := hcheader.size
    have h₃ : sizeofBlock.toNat = 48 := rfl
    rw [hsize, toNat_add_of_lt, toNat_add_of_lt, h₁, h₂, h₃]
    · omega
    · omega
    · rw [toNat_add_of_lt _ _ (by omega)]
      omega
  have hbefore : ∀ x, x < p.toNat → Kmem.absorbNext m p q x = m x := fun x hx =>
    absorbNext_outside (by omega) hpos hafter (by omega) (by omega) (by omega)
  rw [absorbNext_eq (by omega), ← hsize] at hbefore ⊢
  -- the three stages of the edit and what each leaves alone
  have hgrow : ∀ x, x < p.toNat ∨ p.toNat + 48 ≤ x →
      setNext (setSize m p size) p (nextAt m q) x = m x := fun x hx =>
    (setNext_outside hx _).trans (setSize_outside hx _)
  have hclear : ∀ {m' : Memory} {x}, x < q.toNat ∨ q.toNat + 48 ≤ x → clearHeader m' q x = m' x :=
    fun hx => clearHeader_outside hx
  have h' : Tiled m B E (pre ++ ([b, c] ++ post)) := h
  refine h'.replace [⟨b.size + 48 + c.size, b.free⟩] hp ?_ ?_ hbefore ?_ ?_ ?_
  · simp only [BlockList.finish]
    omega
  · intro d hd
    rw [List.mem_singleton.mp hd]
    exact ⟨by simp only; omega, by simp only; omega⟩
  · have hheader := (hcut.header.storeSize size).storeNext (nextAt m q)
    rw [hsizeNat, hafter] at hheader
    have hend : p.toNat + 48 + (b.size + 48 + c.size) = q.toNat + 48 + c.size := by omega
    refine ⟨?_, trivial⟩
    rw [hend]
    refine hheader.congr (fun x _ _ => ?_)
    rw [hclear (by omega), linkAfter_outside_of_link p hpos hafter (by omega)]
    rfl
  · have hend : BlockList.finish 48 p.toNat [b, c] = q.toNat + 48 + c.size := by
      simp only [BlockList.finish]
      omega
    rw [hend]
    have hgrown := hcpost.congr (fun x _ _ => hgrow x (by omega))
    refine (hgrown.linkAfter hpos hfin hafter p).congr (fun x _ _ => ?_)
    exact hclear (by omega)
  · intro x hx hword
    obtain ⟨hne, hword⟩ := magicWord_of_clearHeader hx hqmod hword
    have hword := magicWord_of_linkAfter hx hamod hpmod hword
    rw [magicWord_setNext hx hpmod, magicWord_setSize hx hpmod] at hword
    refine Or.inr ⟨hword, ?_⟩
    simp only [starts_cons, List.mem_cons, ← hq, hne, false_or]
    exact fun hin => hin

theorem Tiled.installSplit {m : Memory} {B E : ℕ} {pre post : List Block} {b : Block}
    {p q wanted : UInt64} (h : Tiled m B E (pre ++ b :: post))
    (hp : p.toNat = BlockList.finish 48 B pre) (hq : q.toNat = p.toNat + 48 + wanted.toNat)
    (hmod : wanted.toNat % 16 = 0) (hmin : 16 ≤ wanted.toNat)
    (hroom : wanted.toNat + 80 < b.size) :
    Tiled (installSplit m p q wanted wanted) B E
      (pre ++ ⟨wanted.toNat, b.free⟩ :: ⟨b.size - wanted.toNat - 48, true⟩ :: post) := by
  have hcut := h.cut
  rw [← hp] at hcut
  have hbound := hcut.bound
  have hupper := hcut.upper
  have hbmod := hcut.shape.1
  have hpmod := hcut.aligned
  have hqmod : q.toNat % 16 = 0 := by omega
  have hafter : (nextAt m p).toNat = linkTo E (p.toNat + 48 + b.size) := hcut.header.next
  have hamod : (nextAt m p).toNat % 16 = 0 := hafter ▸ linkTo_mod (by omega)
  have hpos : 0 < p.toNat + 48 + b.size := by omega
  set rest := sizeAt m p - wanted - sizeofBlock with hrest
  have hrestNat : rest.toNat = b.size - wanted.toNat - 48 := by
    have h₁ : (sizeAt m p).toNat = b.size := hcut.header.size
    have h₃ : sizeofBlock.toNat = 48 := rfl
    have h₄ : (sizeAt m p - wanted).toNat = b.size - wanted.toNat := by
      rw [UInt64.toNat_sub_of_le, h₁]
      rw [UInt64.le_iff_toNat_le, h₁]
      omega
    rw [hrest, UInt64.toNat_sub_of_le, h₄, h₃]
    rw [UInt64.le_iff_toNat_le, h₄, h₃]
    omega
  have hbefore : ∀ x, x < p.toNat → Kmem.installSplit m p q wanted wanted x = m x :=
    fun x hx =>
      installSplit_outside (by omega) hpos hafter wanted (by omega) (by omega) (by omega)
  rw [installSplit_eq wanted wanted (by omega), ← hrest] at hbefore ⊢
  -- the three stages of the edit and what each leaves alone
  have hnew : ∀ x, x < q.toNat ∨ q.toNat + 48 ≤ x →
      installHeader m q rest p (nextAt m p) x = m x := fun x hx => installHeader_outside hx _ _ _
  have hshrink : ∀ {m' : Memory} {x}, x < p.toNat ∨ p.toNat + 48 ≤ x →
      setSize (setNext m' p q) p wanted x = m' x := fun hx =>
    (setSize_outside hx _).trans (setNext_outside hx _)
  have h' : Tiled m B E (pre ++ ([b] ++ post)) := h
  refine h'.replace [⟨wanted.toNat, b.free⟩, ⟨b.size - wanted.toNat - 48, true⟩] hp ?_ ?_
    hbefore ?_ ?_ ?_
  · simp only [BlockList.finish]
    omega
  · intro d hd
    simp only [List.mem_cons, List.not_mem_nil, or_false] at hd
    rcases hd with rfl | rfl
    · exact ⟨hmod, hmin⟩
    · exact ⟨by simp only; omega, by simp only; omega⟩
  · have hlink : linkTo E (p.toNat + 48 + wanted.toNat) = q.toNat := by
      rw [linkTo, if_neg (by omega), hq]
    have hend : p.toNat + 48 + wanted.toNat + 48 + (b.size - wanted.toNat - 48) =
        p.toNat + 48 + b.size := by omega
    have hfirst : HeaderAt (linkAfter (installHeader m q rest p (nextAt m p)) (nextAt m p) q)
        p.toNat b.size b.free (lastStart 48 0 B pre) (linkTo E (p.toNat + 48 + b.size)) :=
      hcut.header.congr (fun x _ _ => by
        rw [linkAfter_outside_of_link q hpos hafter (by omega), hnew x (by omega)])
    have hsecond := headerAt_install m q rest p (nextAt m p)
    refine ⟨?_, ?_, trivial⟩
    · rw [hlink]
      exact (hfirst.storeNext q).storeSize wanted
    · simp only [hend]
      rw [← hrestNat, ← hafter, ← hq]
      refine hsecond.congr (fun x _ _ => ?_)
      rw [hshrink (by omega), linkAfter_outside_of_link q hpos hafter (by omega)]
  · have hinstalled := hcut.after.congr (fun x _ _ => hnew x (by omega))
    have hlinked := hinstalled.linkAfter hpos hcut.finish hafter q
    simp only [lastStart, BlockList.finish, ← hq]
    refine hlinked.congr (fun x _ _ => ?_)
    exact hshrink (by omega)
  · intro x hx hword
    rw [magicWord_setSize hx hpmod, magicWord_setNext hx hpmod] at hword
    have hword := magicWord_of_linkAfter hx hamod hqmod hword
    rcases magicWord_of_installHeader hx hqmod hpmod hword with heq | hword
    · left
      simp only [starts_cons, List.mem_cons, ← hq, heq, true_or, or_true]
    · refine Or.inr ⟨hword, ?_⟩
      simp only [starts_cons, List.mem_cons]
      exact fun hin => hin.imp_right (fun hnil => absurd hnil List.not_mem_nil)

end Mcsos.Kmem
