import KirinFS.Slab.Pool

/-! # Allocation of page runs and of chunks

`none` stands for undefined behaviour: a NULL or out-of-range descriptor, or a
statistics entry outside its table. Address `0` is the NULL result.
-/

namespace KirinFS.Slab
namespace StlSlab
variable (g : SlabGlobals) (pool : StlSlab)

/-- The search of `stl_slab_alloc_pages`: the first page of the list whose run is long enough,
or the list head. -/
def searchRun (pages : ℕ) : (fuel : ℕ) → PageRef → Option PageRef
  | 0, _ => none
  | fuel + 1, page =>
    if page = .free then some .free
    else if pool.valid page then
      if pages ≤ (pool.slab page).toNat then some page
      else searchRun pages fuel (pool.next page)
    else none

/-- Cut `pages` pages off the front of the free run that starts at `pages[i]`. -/
def splitRun (i pages : ℕ) : Option StlSlab := do
  let page := PageRef.page i
  let rest := PageRef.page (i + pages)
  let len := (pool.slab page).toNat
  let pool ← pool.setPrev (.page (i + len - 1)) ⟨rest, .page⟩
  let pool ← pool.setPage rest (BitVec.ofNat 64 (len - pages)) (pool.next page) (pool.prev page)
  let pool ← pool.setNext (pool.prev page).ref rest
  pool.setPrev (pool.next page) ⟨rest, .page⟩

def stlSlabAllocPages (pages : ℕ) : Option (StlSlab × PageRef) := do
  match ← pool.searchRun pages (pool.last + 2) (pool.next .free) with
  | .page i =>
    let pool ← if pages < (pool.slab (.page i)).toNat then pool.splitRun i pages
      else pool.unlinkPage (.page i)
    let pool ← pool.setPage (.page i) (BitVec.ofNat 64 pages ||| slabPageStart) .null
      (bareTag .page)
    let pool := { pool with pfree := pool.pfree - BitVec.ofNat 64 pages }
    let pool ← pool.fillPages (i + 1) (pages - 1) slabPageBusy
    some (pool, .page i)
  | _ => some (pool, .null)

/-- `for (m = first, i = 0; m & mask; m <<= 1, i++)` up to the first `m` clear in `w`. -/
def scanBits (w mask : Word) : (fuel : ℕ) → Word → ℕ → Option ℕ
  | 0, _, _ => none
  | fuel + 1, m, i =>
    if m &&& mask = 0 then none
    else if w &&& m ≠ 0 then scanBits w mask fuel (m <<< 1) (i + 1)
    else some i

/-- The word and bit of the first clear bit among the first `map` words at `a`. -/
def scanBitmap (a map : ℕ) : Option (ℕ × ℕ) :=
  (List.range map).findSome? fun n =>
    if pool.bitmap a n = slabBusy then none
    else (scanBits (pool.bitmap a n) slabBusy 64 (BitVec.twoPow 64 0) 0).map fun i => (n, i)

/-- The word `n` and all later ones are full; the earlier ones were found full by the search. -/
def bitmapFull (a n map : ℕ) : Prop :=
  pool.bitmap a n = slabBusy ∧
    ∀ k ∈ List.range' (n + 1) (map - (n + 1)), pool.bitmap a k = slabBusy

instance (a n map : ℕ) : Decidable (pool.bitmapFull a n map) :=
  inferInstanceAs (Decidable (_ ∧ ∀ _ ∈ _, _))

/-- Take a page that has become full off its slot list. -/
def retirePage (i : ℕ) (t : PageType) : Option StlSlab := do
  let pool ← pool.unlinkPage (.page i)
  let pool ← pool.setNext (.page i) .null
  pool.setPrev (.page i) (bareTag t)

/-- The branch `shift < stl_slab_exact_shift` on a listed page. -/
def takeSmall (i shift slot : ℕ) : Option (Option (StlSlab × ℕ)) :=
  let a := pool.pageAddr g i
  let map := (g.stlPagesize >>> shift) / wordBits
  match pool.scanBitmap a map with
  | none => some none
  | some (n, b) => do
    let pool := pool.setBitmap a n (pool.bitmap a n ||| BitVec.twoPow 64 b)
    let pool ← pool.setStat slot fun st => { st with used := st.used + 1 }
    let pool ← if pool.bitmapFull a n map then pool.retirePage i .small else some pool
    some (some (pool, a + ((n * wordBits + b) <<< shift)))

/-- The branch `shift == stl_slab_exact_shift` on a listed page. -/
def takeExact (i shift slot : ℕ) : Option (Option (StlSlab × ℕ)) :=
  match scanBits (pool.slab (.page i)) slabBusy 64 (BitVec.twoPow 64 0) 0 with
  | none => some none
  | some b => do
    let w := pool.slab (.page i) ||| BitVec.twoPow 64 b
    let pool ← pool.setSlab (.page i) w
    let pool ← if w = slabBusy then pool.retirePage i .exact else some pool
    let pool ← pool.setStat slot fun st => { st with used := st.used + 1 }
    some (some (pool, pool.pageAddr g i + (b <<< shift)))

/-- The map bits of a page of `2 ^ shift`-byte chunks: `((1 << (pagesize >> shift)) - 1) << 32`. -/
def bigMask (shift : ℕ) : Word :=
  (BitVec.twoPow 64 (g.stlPagesize >>> shift) - 1#64) <<< slabMapShift

/-- The branch `shift > stl_slab_exact_shift` on a listed page. -/
def takeBig (i shift slot : ℕ) : Option (Option (StlSlab × ℕ)) :=
  let mask := bigMask g shift
  let first := BitVec.twoPow 64 slabMapShift
  match scanBits (pool.slab (.page i)) mask 64 first 0 with
  | none => some none
  | some b => do
    let w := pool.slab (.page i) ||| BitVec.twoPow 64 (slabMapShift + b)
    let pool ← pool.setSlab (.page i) w
    let pool ← if w &&& slabMapMask = mask then pool.retirePage i .big else some pool
    let pool ← pool.setStat slot fun st => { st with used := st.used + 1 }
    some (some (pool, pool.pageAddr g i + (b <<< shift)))

/-- Chunks at the start of a small page that hold its own bitmap. -/
def bitmapChunks (shift : ℕ) : ℕ :=
  let n := (g.stlPagesize >>> shift) / ((1 <<< shift) * 8)
  if n = 0 then 1 else n

/-- The initial bitmap: `n + 1` bits set, the rest of the `map` words clear. -/
def initBitmap (a n map : ℕ) : StlSlab :=
  { pool with mem := fun w =>
      if a / 8 ≤ w ∧ w < a / 8 + (n + 1) / wordBits then slabBusy
      else if w = a / 8 + (n + 1) / wordBits then BitVec.twoPow 64 ((n + 1) % wordBits) - 1#64
      else if a / 8 + (n + 1) / wordBits < w ∧ w < a / 8 + map then 0
      else pool.mem w }

/-- Make `pages[i]` the only page of the list of its slot. -/
def listPage (i slot : ℕ) (w : Word) (t : PageType) : Option StlSlab := do
  let pool ← pool.setPage (.page i) w (.slot slot) ⟨.slot slot, t⟩
  pool.setNext (.slot slot) (.page i)

def newSmall (i shift slot : ℕ) : Option (StlSlab × ℕ) := do
  let a := pool.pageAddr g i
  let n := bitmapChunks g shift
  let pool := pool.initBitmap a n ((g.stlPagesize >>> shift) / wordBits)
  let pool ← pool.listPage i slot (BitVec.ofNat 64 shift) .small
  let pool ← pool.setStat slot fun st =>
    { st with
      total := st.total + BitVec.ofNat 64 ((g.stlPagesize >>> shift) - n)
      used := st.used + 1 }
  some (pool, a + (n <<< shift))

def newExact (i slot : ℕ) : Option (StlSlab × ℕ) := do
  let pool ← pool.listPage i slot 1 .exact
  let pool ← pool.setStat slot fun st =>
    { st with total := st.total + BitVec.ofNat 64 wordBits, used := st.used + 1 }
  some (pool, pool.pageAddr g i)

def newBig (i shift slot : ℕ) : Option (StlSlab × ℕ) := do
  let pool ← pool.listPage i slot (BitVec.twoPow 64 slabMapShift ||| BitVec.ofNat 64 shift) .big
  let pool ← pool.setStat slot fun st =>
    { st with
      total := st.total + BitVec.ofNat 64 (g.stlPagesize >>> shift)
      used := st.used + 1 }
  some (pool, pool.pageAddr g i)

/-- The size class of a request: `shift` with `2 ^ shift` the chunk size. -/
def classShift (size : ℕ) : ℕ :=
  if pool.minSize < size then 1 + halvings 64 (size - 1) else pool.minShift

/-- The first page of the slot list, if any, is tried for a free chunk. -/
def takeChunk (page : PageRef) (shift slot : ℕ) : Option (Option (StlSlab × ℕ)) :=
  match page with
  | .page i =>
    if shift < g.stlSlabExactShift then pool.takeSmall g i shift slot
    else if shift = g.stlSlabExactShift then pool.takeExact g i shift slot
    else pool.takeBig g i shift slot
  | _ => none

/-- A fresh page for the class, or the failure count. -/
def newChunkPage (shift slot : ℕ) : Option (StlSlab × ℕ) := do
  let (pool, page) ← pool.stlSlabAllocPages 1
  match page with
  | .page i =>
    if shift < g.stlSlabExactShift then pool.newSmall g i shift slot
    else if shift = g.stlSlabExactShift then pool.newExact g i slot
    else pool.newBig g i shift slot
  | _ =>
    let pool ← pool.setStat slot fun st => { st with fails := st.fails + 1 }
    some (pool, 0)

/-- Pages that a request above `stl_slab_max_size` takes. -/
def pagesFor (size : ℕ) : ℕ :=
  (size >>> g.stlPagesizeShift) + if size % g.stlPagesize ≠ 0 then 1 else 0

def stlSlabAlloc (size : ℕ) : Option (StlSlab × ℕ) :=
  if g.stlSlabMaxSize < size then do
    let (pool, page) ← pool.stlSlabAllocPages (pagesFor g size)
    match page with
    | .page i => some (pool, pool.pageAddr g i)
    | _ => some (pool, 0)
  else do
    let shift := pool.classShift size
    let slot := wsub shift pool.minShift
    let pool ← pool.setStat slot fun st => { st with reqs := st.reqs + 1 }
    let page := pool.next (.slot slot)
    let taken ← if pool.valid page then
        if pool.next page ≠ page then pool.takeChunk g page shift slot else some none
      else none
    match taken with
    | some r => some r
    | none => pool.newChunkPage g shift slot

end StlSlab
end KirinFS.Slab
