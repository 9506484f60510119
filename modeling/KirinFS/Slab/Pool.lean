import Mathlib.Algebra.Group.Nat.Defs
import Mathlib.Logic.Function.Basic
import Mathlib.Data.Nat.Notation
import Mathlib.Data.List.Basic

/-! # Pages, descriptors and set-up of a slab pool

The three words of a page descriptor are kept as three maps over descriptor
references, so that one store touches one map. References stand for the
addresses of `pool->pages[i]`, of the slot heads and of `pool->free`; the two
low bits that `prev` borrows for the page kind are a field of their own.
-/

namespace KirinFS.Slab
open Function

abbrev Word := BitVec 64

/-- The kinds that `STL_SLAB_PAGE_MASK` selects from a `prev` word. -/
inductive PageType where
  | page
  | big
  | exact
  | small
  deriving DecidableEq, Repr

/-- The values of a `stl_slab_page *` inside a pool. -/
inductive PageRef where
  | null
  | free
  | slot (i : ℕ)
  | page (i : ℕ)
  deriving DecidableEq, Repr

/-- The descriptors `pages[lo], …, pages[lo + n - 1]`. -/
def PageRef.within (lo n : ℕ) : PageRef → Bool
  | .page i => decide (lo ≤ i ∧ i < lo + n)
  | _ => false

/-- `stl_slab_pageype` of a `prev` word in memory. -/
def PageType.ofWord (prev : Word) : PageType :=
  if prev &&& 3 = 0 then .page
  else if prev &&& 3 = 1 then .big
  else if prev &&& 3 = 2 then .exact
  else .small

/-- A `prev` word: a descriptor address with a page kind in its low bits. -/
structure TaggedRef where
  ref : PageRef
  tag : PageType
  deriving DecidableEq, Repr

def slabPageFree : Word := 0
def slabPageBusy : Word := 0xffffffffffffffff
def slabPageStart : Word := 0x8000000000000000
def slabShiftMask : Word := 0xf
def slabMapMask : Word := 0xffffffff00000000
def slabMapShift : ℕ := 32
def slabBusy : Word := 0xffffffffffffffff

/-- Bytes of a `stl_slab_page`, of a `stl_slab_stat` and bits of a `uintptr_t`. -/
def pageBytes : ℕ := 24
def statBytes : ℕ := 32
def wordBits : ℕ := 64

def wsub (a b : ℕ) : ℕ := (a + 2 ^ 64 - b % 2 ^ 64) % 2 ^ 64

/-- Iterations of `for (; n >>= 1; count++)` on a 64-bit value. -/
def halvings : (fuel : ℕ) → ℕ → ℕ
  | 0, _ => 0
  | fuel + 1, n => if n >>> 1 = 0 then 0 else halvings fuel (n >>> 1) + 1

/-- The file-level variables that `stl_slab_sizes_init` computes. -/
structure SlabGlobals where
  stlPagesize : ℕ
  stlPagesizeShift : ℕ
  stlSlabMaxSize : ℕ
  stlSlabExactSize : ℕ
  stlSlabExactShift : ℕ
  deriving DecidableEq, Repr

def SlabGlobals.zero : SlabGlobals := ⟨0, 0, 0, 0, 0⟩

structure StlSlabStat where
  total : Word
  used : Word
  reqs : Word
  fails : Word
  deriving DecidableEq, Repr

/-- A pool. `nslots` is the number of slot heads and statistics in the block,
`last` counts the managed pages, `spare` the descriptors that set-up cleared for
pages it then gave up, and `mem` holds the words behind all descriptors. -/
structure StlSlab where
  minSize : ℕ
  minShift : ℕ
  nslots : ℕ
  last : ℕ
  spare : ℕ
  slab : PageRef → Word
  next : PageRef → PageRef
  prev : PageRef → TaggedRef
  stats : ℕ → StlSlabStat
  pfree : Word
  start : ℕ
  stop : ℕ
  addr : ℕ
  mem : ℕ → Word

/-- `prev` words without a descriptor address. -/
def bareTag (t : PageType) : TaggedRef := ⟨.null, t⟩

/-- The file-level part of `stl_slab_sizes_init`; both shifts count up from what they hold. -/
def stlSlabSizesInit (g : SlabGlobals) (pagesize : ℕ) : SlabGlobals where
  stlPagesize := pagesize
  stlPagesizeShift := g.stlPagesizeShift + halvings 64 pagesize
  stlSlabMaxSize := pagesize / 2
  stlSlabExactSize := pagesize / (8 * 8)
  stlSlabExactShift := g.stlSlabExactShift + halvings 64 (pagesize / (8 * 8))

/-- `stl_align_ptr` for a power of two `a`, in 64-bit arithmetic. -/
def stlAlignPtr (p a : ℕ) : ℕ := (p + (a - 1)) % 2 ^ 64 / a * a

/-- Number of slot heads: `stl_pagesize_shift - pool->min_shift`. -/
def slotCount (g : SlabGlobals) : ℕ := wsub g.stlPagesizeShift 3

/-- Bytes taken by the slot heads and the statistics. -/
def tableBytes (g : SlabGlobals) : ℕ := slotCount g * (pageBytes + statBytes)

/-- The number of page descriptors that set-up clears. -/
def clearedPages (g : SlabGlobals) (poolSize : ℕ) : ℕ :=
  wsub poolSize (tableBytes g) / (g.stlPagesize + pageBytes)

/-- The pool that `stl_slab_init` leaves in the block. -/
def newPool (g : SlabGlobals) (addr poolSize : ℕ) : StlSlab :=
  let n := slotCount g
  let p := addr + n * pageBytes + n * statBytes
  let cleared := clearedPages g poolSize
  let start := stlAlignPtr (p + cleared * pageBytes) g.stlPagesize
  let stop := addr + poolSize
  let m := wsub cleared (wsub stop start / g.stlPagesize)
  let pages := if 0 < m ∧ m < 2 ^ 63 then cleared - m else cleared
  { minSize := 1 <<< 3
    minShift := 3
    nslots := n
    last := pages
    spare := cleared - pages
    slab := fun r => if r = .page 0 then BitVec.ofNat 64 pages else 0
    next := fun r => match r with
      | .slot i => .slot i
      | .free => .page 0
      | .page i => if i = 0 then .free else .null
      | .null => .null
    prev := fun r => if r = .page 0 then ⟨.free, .page⟩ else bareTag .page
    stats := fun _ => ⟨0, 0, 0, 0⟩
    pfree := BitVec.ofNat 64 pages
    start := start
    stop := stop
    addr := addr
    mem := fun _ => 0xA5A5A5A5A5A5A5A5 }

/-- `stl_slab_init` with `malloc` returning `addr`, which is 0 if it fails. It is undefined to write
outside of the block, and the first descriptor is always written; `some none` is the error return. -/
def stlSlabInit (g₀ : SlabGlobals) (pagesize addr poolSize : ℕ) :
    Option (Option (SlabGlobals × StlSlab)) :=
  let g := stlSlabSizesInit g₀ pagesize
  if poolSize = 0 then some none
  else if addr = 0 ∨ poolSize < tableBytes g + max (clearedPages g poolSize) 1 * pageBytes then none
  else some (some (g, newPool g addr poolSize))

namespace StlSlab
variable (pool : StlSlab)

/-- Descriptors that can be read and written; anything else is undefined behaviour. Set-up
writes the first page descriptor even when the pool has no pages. -/
def valid : PageRef → Bool
  | .null => false
  | .free => true
  | .slot i => decide (i < pool.nslots)
  | .page i => decide (i < max pool.last 1)

def setSlab (r : PageRef) (w : Word) : Option StlSlab :=
  if pool.valid r then some { pool with slab := update pool.slab r w } else none

def setNext (r v : PageRef) : Option StlSlab :=
  if pool.valid r then some { pool with next := update pool.next r v } else none

def setPrev (r : PageRef) (v : TaggedRef) : Option StlSlab :=
  if pool.valid r then some { pool with prev := update pool.prev r v } else none

def setPage (r : PageRef) (w : Word) (n : PageRef) (p : TaggedRef) : Option StlSlab :=
  if pool.valid r then
    some { pool with
      slab := update pool.slab r w
      next := update pool.next r n
      prev := update pool.prev r p }
  else none

/-- One value in all of the `n` descriptors from `pages[lo]` on. -/
def fillPages (lo n : ℕ) (w : Word) : Option StlSlab :=
  if n = 0 ∨ lo + n ≤ pool.last then
    some { pool with
      slab := fun r => if r.within lo n then w else pool.slab r
      next := fun r => if r.within lo n then .null else pool.next r
      prev := fun r => if r.within lo n then bareTag .page else pool.prev r }
  else none

def setStat (slot : ℕ) (f : StlSlabStat → StlSlabStat) : Option StlSlab :=
  if slot < pool.nslots then
    some { pool with stats := update pool.stats slot (f (pool.stats slot)) }
  else none

/-- `prev->next = page->next; page->next->prev = page->prev` with
`prev = stl_slab_page_prev(page)`. -/
def unlinkPage (r : PageRef) : Option StlSlab :=
  (pool.setNext (pool.prev r).ref (pool.next r)).bind fun pool' =>
    pool'.setPrev (pool.next r) (pool.prev r)

/-- The address of `pool->pages[i]`. -/
def descriptorAddr (i : ℕ) : ℕ :=
  pool.addr + pool.nslots * (pageBytes + statBytes) + i * pageBytes

def pageAddr (g : SlabGlobals) (i : ℕ) : ℕ := (i <<< g.stlPagesizeShift) + pool.start

/-- `memset(p, 0, size)` on whole words. -/
def clearMem (p size : ℕ) : StlSlab :=
  { pool with mem := fun w => if p / 8 ≤ w ∧ w < (p + size) / 8 then 0 else pool.mem w }

/-- The word `bitmap[n]` of the bitmap that starts at address `a`. -/
def bitmap (a n : ℕ) : Word := pool.mem (a / 8 + n)

def setBitmap (a n : ℕ) (w : Word) : StlSlab :=
  { pool with mem := update pool.mem (a / 8 + n) w }

end StlSlab

end KirinFS.Slab
