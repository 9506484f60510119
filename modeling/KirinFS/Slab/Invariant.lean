import KirinFS.Slab.Geometry
import KirinFS.Slab.Free
import KirinFS.Foundation.Tiling
import KirinFS.Foundation.IntrusiveRing

/-! # The page map of a pool

The managed pages are tiled by free runs, allocated runs and chunk pages. The
invariant ties the tiling to the descriptor words, to the free list and to the
slot lists; a `hole` is a block that is on no list while it is being freed.
-/

namespace KirinFS.Slab
open Foundation.Tiling Foundation.IntrusiveRing Function

/-- What the pages of a block are used for. -/
inductive Use where
  | free
  | hole
  | busy
  | chunks (s : ℕ)
  deriving DecidableEq

def Use.isVacant : Use → Bool
  | .free => true
  | .hole => true
  | _ => false

/-- The `prev` word of a listed page. -/
def backLink (t : PageType) (r : PageRef) : TaggedRef := ⟨r, t⟩

theorem backLink_injective (t : PageType) : Injective (backLink t) :=
  fun _ _ h => congrArg TaggedRef.ref h

abbrev PageMap := ℕ → Block Use

section Definitions
variable (ps : PageShift) (pool : StlSlab) (own : PageMap)

/-- The bit that marks chunk `c` of a page of class `s` as taken. -/
def chunkBit (i s c : ℕ) : Bool :=
  if s < ps - 6 then (pool.bitmap (pool.pageAddr (geo ps) i) (c / 64)).getLsbD (c % 64)
  else if s = ps - 6 then (pool.slab (.page i)).getLsbD c
  else (pool.slab (.page i)).getLsbD (32 + c)

def Full (i s : ℕ) : Prop := ∀ c < chunkCount ps s, chunkBit ps pool i s c = true

/-- What else the `slab` word of a chunk page holds. -/
def SlabShape (s : ℕ) (w : Word) : Prop :=
  if s < ps - 6 then w = BitVec.ofNat 64 s
  else ps - 6 < s → w &&& slabShiftMask = BitVec.ofNat 64 s ∧
    ∀ j, 32 + chunkCount ps s ≤ j → w.getLsbD j = false

def Blank (i : ℕ) : Prop :=
  pool.slab (.page i) = 0 ∧ pool.next (.page i) = .null ∧ (pool.prev (.page i)).tag = .page

/-- The words of descriptor `i` as its block requires them. -/
def PageDesc (b : Block Use) (i : ℕ) : Prop :=
  match b.label with
  | .free => if i = b.head then pool.slab (.page i) = BitVec.ofNat 64 b.len else Blank pool i
  | .hole => if i = b.head then pool.slab (.page i) = BitVec.ofNat 64 b.len else Blank pool i
  | .busy =>
    pool.slab (.page i) =
        (if i = b.head then BitVec.ofNat 64 b.len ||| slabPageStart else slabPageBusy) ∧
      pool.next (.page i) = .null ∧ pool.prev (.page i) = bareTag .page
  | .chunks s =>
    b.len = 1 ∧ IsClass ps s ∧ SlabShape ps s (pool.slab (.page i)) ∧
      (∀ c < reserved ps s, chunkBit ps pool i s c = true) ∧
      (Full ps pool i s → pool.next (.page i) = .null ∧
        pool.prev (.page i) = bareTag (kind ps s))

/-- The heads of the free runs. A pool without pages keeps an empty run on its list. -/
def freeHeads : Set PageRef :=
  {r | ∃ i, r = .page i ∧
    (i < pool.last ∧ (own i).label = .free ∧ (own i).head = i ∨ pool.last = 0 ∧ i = 0)}

def listed (s : ℕ) : Set PageRef :=
  {r | ∃ i, r = .page i ∧ i < pool.last ∧ (own i).label = .chunks s ∧ ¬ Full ps pool i s}

/-- The parts of a pool that allocation and freeing leave alone. -/
structure Base : Prop where
  minShift : pool.minShift = 3
  minSize : pool.minSize = 8
  nslots : pool.nslots = ps - 3
  aligned : 2 ^ ps.val ∣ pool.start
  room : 0 < pool.last → 0 < pool.start ∧ pool.start + pool.last * 2 ^ ps.val ≤ pool.stop
  bound : pool.last < 2 ^ 60

/-- The page map invariant. `fresh` holds until the first page allocation succeeds. -/
structure Inv (fresh : Bool) : Prop where
  base : Base ps pool
  tiling : IsTiling own pool.last
  gap : ∀ i < pool.last, (own i).label = .free → (own i).stop < pool.last →
    (own (own i).stop).label ≠ .free
  desc : ∀ i < pool.last, PageDesc ps pool (own i) i
  void : pool.last = 0 → pool.slab (.page 0) = 0
  freeRing : Ring pool.next pool.prev (backLink .page) .free (freeHeads pool own)
  slotRing : ∀ k < ps.val - 3, Ring pool.next pool.prev (backLink (kind ps (k + 3))) (.slot k)
    (listed ps pool own (k + 3))
  backPtr : fresh = false → ∀ i < pool.last, (own i).label = .free → (own i).head = i →
    2 ≤ (own i).len → pool.prev (.page (i + (own i).len - 1)) = backLink .page (.page i)
  untouched : fresh = true → ∀ i < pool.last, own i = ⟨0, pool.last, .free⟩
  pfree : pool.pfree = BitVec.ofNat 64 (count own pool.last Use.isVacant)

/-- Two pools agree on the chunk map of page `i`, read for class `s`. -/
def SameBits (pool pool' : StlSlab) (i s : ℕ) : Prop :=
  ∀ c < chunkCount ps s, chunkBit ps pool' i s c = chunkBit ps pool i s c

end Definitions

variable {ps : PageShift} {pool pool' : StlSlab} {own own' : PageMap} {fresh : Bool}

theorem Base.slot_eq {k : ℕ} (hb : Base ps pool) (hk : k < ps.val - 3) :
    wsub (k + 3) pool.minShift = k := by
  have hhi := ps.hi
  rw [hb.minShift, wsub]
  omega

theorem chunkBit_small {i s : ℕ} (hs : s < ps - 6) (c : ℕ) : chunkBit ps pool i s c =
    (pool.bitmap (pool.pageAddr (geo ps) i) (c / 64)).getLsbD (c % 64) := if_pos hs

theorem chunkBit_exact {i s : ℕ} (hs : s = ps - 6) (c : ℕ) :
    chunkBit ps pool i s c = (pool.slab (.page i)).getLsbD c := by
  rw [chunkBit, if_neg (by omega), if_pos hs]

theorem chunkBit_big {i s : ℕ} (hs : ps - 6 < s) (c : ℕ) :
    chunkBit ps pool i s c = (pool.slab (.page i)).getLsbD (32 + c) := by
  rw [chunkBit, if_neg (by omega), if_neg (by omega)]

theorem SameBits.full_iff {i s : ℕ} (h : SameBits ps pool pool' i s) :
    Full ps pool' i s ↔ Full ps pool i s := by
  constructor
  · intro hf c hc
    rw [← h c hc]
    exact hf c hc
  · intro hf c hc
    rw [h c hc]
    exact hf c hc

/-- Descriptors that no list threads: their links are pinned by the invariant. -/
def OffRing (ps : PageShift) (pool : StlSlab) (b : Block Use) (i : ℕ) : Prop :=
  match b.label with
  | .free => i ≠ b.head
  | .hole => i ≠ b.head
  | .busy => True
  | .chunks s => Full ps pool i s

/-- A descriptor keeps its shape when its bits stay and, off the rings, its links do. -/
theorem PageDesc.frame {b : Block Use} {i : ℕ} (h : PageDesc ps pool b i)
    (hslab : pool'.slab (.page i) = pool.slab (.page i))
    (hbits : ∀ s, b.label = .chunks s → SameBits ps pool pool' i s)
    (hoff : OffRing ps pool b i → pool'.next (.page i) = pool.next (.page i) ∧
      pool'.prev (.page i) = pool.prev (.page i)) : PageDesc ps pool' b i := by
  unfold PageDesc OffRing at *
  cases hl : b.label with
  | free =>
    simp only [hl, Blank, hslab] at h hoff ⊢
    by_cases hi : i = b.head
    · simpa [hi] using h
    · rw [(hoff hi).1, (hoff hi).2]
      exact h
  | hole =>
    simp only [hl, Blank, hslab] at h hoff ⊢
    by_cases hi : i = b.head
    · simpa [hi] using h
    · rw [(hoff hi).1, (hoff hi).2]
      exact h
  | busy =>
    simp only [hl, hslab] at h hoff ⊢
    rw [(hoff trivial).1, (hoff trivial).2]
    exact h
  | chunks s =>
    have hbits := hbits s hl
    simp only [hl, hslab] at h hoff ⊢
    obtain ⟨hlen, hs, hshape, hres, hfull⟩ := h
    refine ⟨hlen, hs, hshape, ?_, ?_⟩
    · intro c hc
      have hlt := reserved_lt hs
      rw [hbits c (by omega)]
      exact hres c hc
    · intro hf
      have hf' := hbits.full_iff.mp hf
      rw [(hoff hf').1, (hoff hf').2]
      exact hfull hf'

end KirinFS.Slab
