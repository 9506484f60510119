import KirinFS.Slab.Pool
import KirinFS.Slab.Alloc

/-! # Freeing chunks and page runs, with coalescing -/

namespace KirinFS.Slab
namespace StlSlab
variable (g : SlabGlobals) (pool : StlSlab)

/-- Swallow the free run that starts right behind the block at `pages[i]`.
The second component is the source's `pages`, one less than the block length. -/
def joinNext (i tail : ℕ) : Option (StlSlab × ℕ) :=
  let join := i + (pool.slab (.page i)).toNat
  if join < pool.last ∧ (pool.prev (.page join)).tag = .page ∧ pool.next (.page join) ≠ .null
  then do
    let more := pool.slab (.page join)
    let pool ← pool.setSlab (.page i) (pool.slab (.page i) + more)
    let pool ← pool.unlinkPage (.page join)
    let pool ← pool.setPage (.page join) slabPageFree .null (bareTag .page)
    some (pool, tail + more.toNat)
  else some (pool, tail)

/-- The head of the run that ends at `pages[i - 1]`, as the source finds it. -/
def joinHead (i : ℕ) : PageRef :=
  if pool.slab (.page (i - 1)) = slabPageFree then (pool.prev (.page (i - 1))).ref
  else .page (i - 1)

/-- Let the free run that ends right before `pages[i]` swallow the block. -/
def joinPrev (i tail : ℕ) : Option (StlSlab × PageRef × ℕ) :=
  if 0 < i ∧ (pool.prev (.page (i - 1))).tag = .page then
    let join := pool.joinHead i
    if pool.valid join then
      if pool.next join ≠ .null then do
        let more := pool.slab join
        let pool ← pool.setSlab join (more + pool.slab (.page i))
        let pool ← pool.unlinkPage join
        let pool ← pool.setPage (.page i) slabPageFree .null (bareTag .page)
        some (pool, join, tail + more.toNat)
      else some (pool, .page i, tail)
    else none
  else some (pool, .page i, tail)

/-- Write the back pointer of the block and put the block at the front of the free list. -/
def pushRun (page : PageRef) (tail : ℕ) : Option StlSlab :=
  match page with
  | .page i => do
    let pool ← if tail ≠ 0 then pool.setPrev (.page (i + tail)) ⟨.page i, .page⟩ else some pool
    let pool ← pool.setPrev (.page i) ⟨.free, .page⟩
    let pool ← pool.setNext (.page i) (pool.next .free)
    let pool ← pool.setPrev (pool.next (.page i)) ⟨.page i, .page⟩
    pool.setNext .free (.page i)
  | _ => none

def stlSlabFreePages (i pages : ℕ) : Option StlSlab := do
  let pool := { pool with pfree := pool.pfree + BitVec.ofNat 64 pages }
  let pool ← pool.setSlab (.page i) (BitVec.ofNat 64 pages)
  let pool ← pool.fillPages (i + 1) (pages - 1) 0
  let pool ← if pool.next (.page i) ≠ .null then pool.unlinkPage (.page i) else some pool
  let (pool, tail) ← pool.joinNext i (pages - 1)
  let (pool, page, tail) ← pool.joinPrev i tail
  pool.pushRun page tail

/-- Put a page that was full back at the front of its slot list. -/
def relistPage (i slot : ℕ) (t : PageType) : Option StlSlab := do
  let pool ← if pool.valid (.slot slot) then pool.setNext (.page i) (pool.next (.slot slot))
    else none
  let pool ← pool.setNext (.slot slot) (.page i)
  let pool ← pool.setPrev (.page i) ⟨.slot slot, t⟩
  pool.setPrev (pool.next (.page i)) ⟨.page i, t⟩

/-- The `done` exit: statistics and `memset` of the chunk. -/
def freeDone (p size slot : ℕ) : Option StlSlab := do
  let pool ← pool.setStat slot fun st => { st with used := st.used - 1 }
  some (pool.clearMem p size)

/-- Is the bitmap at `a` clear outside of the `n` chunks that hold it? -/
def bitmapClear (a n map : ℕ) : Prop :=
  pool.bitmap a (n / wordBits) &&& ~~~(BitVec.twoPow 64 (n % wordBits) - 1#64) = 0 ∧
    ∀ k ∈ List.range' (n / wordBits + 1) (map - (n / wordBits + 1)), pool.bitmap a k = 0

instance (a n map : ℕ) : Decidable (pool.bitmapClear a n map) :=
  inferInstanceAs (Decidable (_ ∧ ∀ _ ∈ _, _))

def freeSmall (i p : ℕ) : Option StlSlab :=
  let shift := (pool.slab (.page i) &&& slabShiftMask).toNat
  let size := 1 <<< shift
  if p % size ≠ 0 then some pool
  else
    let c := (p % g.stlPagesize) >>> shift
    let a := p / g.stlPagesize * g.stlPagesize
    let m : Word := BitVec.twoPow 64 (c % wordBits)
    let slot := wsub shift pool.minShift
    if pool.bitmap a (c / wordBits) &&& m ≠ 0 then do
      let pool ← if pool.next (.page i) = .null then pool.relistPage i slot .small else some pool
      let pool := pool.setBitmap a (c / wordBits) (pool.bitmap a (c / wordBits) &&& ~~~m)
      let n := bitmapChunks g shift
      let pool ← if pool.bitmapClear a n ((g.stlPagesize >>> shift) / wordBits) then do
          let pool ← pool.stlSlabFreePages i 1
          pool.setStat slot fun st =>
            { st with total := st.total - BitVec.ofNat 64 ((g.stlPagesize >>> shift) - n) }
        else some pool
      pool.freeDone p size slot
    else some pool

def freeExact (i p : ℕ) : Option StlSlab :=
  let slab := pool.slab (.page i)
  let m : Word := BitVec.twoPow 64 ((p % g.stlPagesize) >>> g.stlSlabExactShift)
  let size := g.stlSlabExactSize
  if p % size ≠ 0 then some pool
  else
    let slot := wsub g.stlSlabExactShift pool.minShift
    if slab &&& m ≠ 0 then do
      let pool ← if slab = slabBusy then pool.relistPage i slot .exact else some pool
      let pool ← pool.setSlab (.page i) (pool.slab (.page i) &&& ~~~m)
      let pool ← if pool.slab (.page i) = 0 then do
          let pool ← pool.stlSlabFreePages i 1
          pool.setStat slot fun st => { st with total := st.total - BitVec.ofNat 64 wordBits }
        else some pool
      pool.freeDone p size slot
    else some pool

def freeBig (i p : ℕ) : Option StlSlab :=
  let slab := pool.slab (.page i)
  let shift := (slab &&& slabShiftMask).toNat
  let size := 1 <<< shift
  if p % size ≠ 0 then some pool
  else
    let m : Word := BitVec.twoPow 64 (((p % g.stlPagesize) >>> shift) + slabMapShift)
    let slot := wsub shift pool.minShift
    if slab &&& m ≠ 0 then do
      let pool ← if pool.next (.page i) = .null then pool.relistPage i slot .big else some pool
      let pool ← pool.setSlab (.page i) (pool.slab (.page i) &&& ~~~m)
      let pool ← if pool.slab (.page i) &&& slabMapMask = 0 then do
          let pool ← pool.stlSlabFreePages i 1
          pool.setStat slot fun st =>
            { st with total := st.total - BitVec.ofNat 64 (g.stlPagesize >>> shift) }
        else some pool
      pool.freeDone p size slot
    else some pool

def freeRun (i p : ℕ) : Option StlSlab :=
  let slab := pool.slab (.page i)
  if p % g.stlPagesize ≠ 0 then some pool
  else if slab &&& slabPageStart = 0 then some pool
  else if slab = slabPageBusy then some pool
  else do
    let size := (slab &&& ~~~slabPageStart).toNat
    let pool ← pool.stlSlabFreePages i size
    some (pool.clearMem p (size <<< g.stlPagesizeShift))

/-- Do the words behind the descriptors, read as `pages[i]`, pass for a block in use at `p`? They
are whole words of `mem`, as `malloc` aligns the block. A read behind the block and a shift by the
word size are undefined and count as passing. -/
def strayInUse (i p : ℕ) : Bool :=
  let a := pool.descriptorAddr i
  let slab := pool.mem (a / 8)
  let shift := (slab &&& slabShiftMask).toNat
  let c := (p % g.stlPagesize) >>> shift
  decide (pool.stop < a + pageBytes) ||
    match PageType.ofWord (pool.mem (a / 8 + 2)) with
    | .small =>
      let bits := p / g.stlPagesize * g.stlPagesize
      decide (p % (1 <<< shift) = 0 ∧ (pool.stop < bits + c / wordBits * 8 + 8 ∨
        pool.bitmap bits (c / wordBits) &&& BitVec.twoPow 64 (c % wordBits) ≠ 0))
    | .exact => decide (p % g.stlSlabExactSize = 0 ∧
        slab &&& BitVec.twoPow 64 ((p % g.stlPagesize) >>> g.stlSlabExactShift) ≠ 0)
    | .big => decide (p % (1 <<< shift) = 0 ∧ (wordBits ≤ c + slabMapShift ∨
        slab &&& BitVec.twoPow 64 (c + slabMapShift) ≠ 0))
    | .page => decide (p % g.stlPagesize = 0 ∧ slab &&& slabPageStart ≠ 0 ∧ slab ≠ slabPageBusy)

/-- Words behind the descriptors that pass for a block in use lead to a write, which clears at least
one bit, of these words or of a bitmap. The result is `none` then, as they are no descriptor and what
follows is not modelled. -/
def stlSlabFree (p : ℕ) : Option StlSlab :=
  if p < pool.start ∨ pool.stop < p then some pool
  else
    let i := (p - pool.start) >>> g.stlPagesizeShift
    if i < max (pool.last + pool.spare) 1 then
      match (pool.prev (.page i)).tag with
      | .small => pool.freeSmall g i p
      | .exact => pool.freeExact g i p
      | .big => pool.freeBig g i p
      | .page => pool.freeRun g i p
    else if pool.strayInUse g i p then none
    else some pool

end StlSlab
end KirinFS.Slab
