import KirinFS.Slab.PageLists

/-! # Local changes of the page map

Taking and returning page runs rewrites one stretch of descriptors and the
links of the free list. Everything outside keeps its part of the invariant.
-/

namespace KirinFS.Slab
open Foundation.Tiling Foundation.IntrusiveRing Function

variable {ps : PageShift} {pool pool' : StlSlab} {own own' : PageMap} {fresh : Bool} {lo n : ℕ}

structure SameFrame (pool pool' : StlSlab) : Prop where
  minShift : pool'.minShift = pool.minShift
  minSize : pool'.minSize = pool.minSize
  nslots : pool'.nslots = pool.nslots
  last : pool'.last = pool.last
  start : pool'.start = pool.start
  stop : pool'.stop = pool.stop

structure Frozen (pool pool' : StlSlab) : Prop extends SameFrame pool pool' where
  stats : pool'.stats = pool.stats
  mem : pool'.mem = pool.mem

theorem SameFrame.refl (pool : StlSlab) : SameFrame pool pool :=
  ⟨rfl, rfl, rfl, rfl, rfl, rfl⟩

theorem SameFrame.trans {q : StlSlab} (h : SameFrame pool pool') (h' : SameFrame pool' q) :
    SameFrame pool q where
  minShift := h'.minShift.trans h.minShift
  minSize := h'.minSize.trans h.minSize
  nslots := h'.nslots.trans h.nslots
  last := h'.last.trans h.last
  start := h'.start.trans h.start
  stop := h'.stop.trans h.stop

theorem Frozen.refl (pool : StlSlab) : Frozen pool pool :=
  ⟨.refl pool, rfl, rfl⟩

theorem Frozen.trans {q : StlSlab} (h : Frozen pool pool') (h' : Frozen pool' q) :
    Frozen pool q where
  toSameFrame := h.toSameFrame.trans h'.toSameFrame
  stats := h'.stats.trans h.stats
  mem := h'.mem.trans h.mem

theorem SameFrame.base (h : SameFrame pool pool') (hb : Base ps pool) : Base ps pool' where
  minShift := h.minShift.trans hb.minShift
  minSize := h.minSize.trans hb.minSize
  nslots := h.nslots.trans hb.nslots
  aligned := h.start.symm ▸ hb.aligned
  room := by rw [h.start, h.last, h.stop]; exact hb.room
  bound := h.last.symm ▸ hb.bound

theorem Frozen.sameBits (h : Frozen pool pool') {i s : ℕ}
    (hs : pool'.slab (.page i) = pool.slab (.page i)) : SameBits ps pool pool' i s := by
  intro c _
  simp only [chunkBit, StlSlab.bitmap, StlSlab.pageAddr, h.start, h.mem, hs]

theorem page_mem_freeHeads {i : ℕ} (hi : i < pool.last) :
    .page i ∈ freeHeads pool own ↔ (own i).label = .free ∧ (own i).head = i := by
  constructor
  · rintro ⟨j, hj, h⟩
    obtain rfl := PageRef.page.inj hj
    rcases h with ⟨-, hl, hh⟩ | ⟨h0, -⟩
    · exact ⟨hl, hh⟩
    · omega
  · rintro ⟨hl, hh⟩
    exact ⟨i, rfl, Or.inl ⟨hi, hl, hh⟩⟩

theorem mem_freeHeads_iff (h0 : 0 < pool.last) {r : PageRef} : r ∈ freeHeads pool own ↔
    ∃ i < pool.last, r = .page i ∧ (own i).label = .free ∧ (own i).head = i := by
  constructor
  · rintro ⟨i, rfl, h | ⟨h, -⟩⟩
    · exact ⟨i, h.1, rfl, h.2⟩
    · omega
  · rintro ⟨i, hi, rfl, h⟩
    exact ⟨i, rfl, Or.inl ⟨hi, h⟩⟩

theorem page_mem_listed {i s : ℕ} :
    .page i ∈ listed ps pool own s ↔
      i < pool.last ∧ (own i).label = .chunks s ∧ ¬ Full ps pool i s := by
  constructor
  · rintro ⟨j, hj, h⟩
    obtain rfl := PageRef.page.inj hj
    exact h
  · intro h
    exact ⟨i, rfl, h⟩

theorem freeHeads_lt {r : PageRef} (hr : r ∈ freeHeads pool own) :
    ∃ i < max pool.last 1, r = .page i := by
  obtain ⟨i, rfl, h | h⟩ := hr
  · exact ⟨i, by omega, rfl⟩
  · exact ⟨i, by omega, rfl⟩

theorem pages_ext {M N : Set PageRef} {m : ℕ} (hM : ∀ r ∈ M, ∃ i < m, r = .page i)
    (hN : ∀ r ∈ N, ∃ i < m, r = .page i) (h : ∀ i < m, .page i ∈ M ↔ .page i ∈ N)
    (r : PageRef) : r ∈ M ↔ r ∈ N := by
  constructor
  · intro hr
    obtain ⟨i, hi, rfl⟩ := hM r hr
    exact (h i hi).mp hr
  · intro hr
    obtain ⟨i, hi, rfl⟩ := hN r hr
    exact (h i hi).mpr hr

/-- In a pool with pages every head is a page of the pool. -/
theorem freeHeads_page (h0 : 0 < pool.last) (r : PageRef) (hr : r ∈ freeHeads pool own) :
    ∃ i < pool.last, r = .page i := by
  obtain ⟨i, hi, rfl⟩ := freeHeads_lt hr
  exact ⟨i, by omega, rfl⟩

theorem freeHeads_valid (r : PageRef) (hr : r = .free ∨ r ∈ freeHeads pool own) :
    pool.valid r = true := by
  rcases hr with rfl | hr
  · rfl
  · obtain ⟨i, hi, rfl⟩ := freeHeads_lt hr
    simpa [StlSlab.valid] using hi

theorem listed_valid {k s : ℕ} (hk : k < pool.nslots) (r : PageRef)
    (hr : r = .slot k ∨ r ∈ listed ps pool own s) : pool.valid r = true := by
  rcases hr with rfl | ⟨i, rfl, hi, -⟩
  · exact StlSlab.valid_slot hk
  · exact StlSlab.valid_page hi

/-- A change of the descriptors in `[lo, lo + n)` and of free list links. -/
structure Surgery (ps : PageShift) (pool pool' : StlSlab) (own own' : PageMap) (lo n : ℕ) :
    Prop where
  frozen : Frozen pool pool'
  fits : lo + n ≤ pool.last
  edgeLo : Edge own pool.last lo
  edgeHi : Edge own pool.last (lo + n)
  outside : ∀ j, j < lo ∨ lo + n ≤ j → own' j = own j
  slabOut : ∀ j, j < lo ∨ lo + n ≤ j → pool'.slab (.page j) = pool.slab (.page j)
  linksOut : ∀ r, r ≠ .free → r ∉ freeHeads pool own →
    (∀ j, lo ≤ j → j < lo + n → r ≠ .page j) →
      pool'.next r = pool.next r ∧ pool'.prev r = pool.prev r
  noChunks : ∀ j, lo ≤ j → j < lo + n → ∀ s, (own j).label ≠ .chunks s ∧
    (own' j).label ≠ .chunks s

namespace Surgery

theorem listed_eq (hs : Surgery ps pool pool' own own' lo n) {s : ℕ}
    (r : PageRef) : r ∈ listed ps pool own s ↔ r ∈ listed ps pool' own' s := by
  have key : ∀ j, (own j).label = .chunks s ∧ ¬ Full ps pool j s ↔
      (own' j).label = .chunks s ∧ ¬ Full ps pool' j s := by
    intro j
    by_cases hj : lo ≤ j ∧ j < lo + n
    · have hno := hs.noChunks j hj.1 hj.2 s
      simp [hno.1, hno.2]
    · rw [hs.outside j (by omega),
        (hs.frozen.sameBits (hs.slabOut j (by omega))).full_iff]
  constructor
  · rintro ⟨j, rfl, hj, h⟩
    exact ⟨j, rfl, by rw [hs.frozen.last]; exact hj, (key j).mp h⟩
  · rintro ⟨j, rfl, hj, h⟩
    exact ⟨j, rfl, by rw [← hs.frozen.last]; exact hj, (key j).mpr h⟩

theorem slotRing (hs : Surgery ps pool pool' own own' lo n) {k : ℕ} (hk : k < ps.val - 3)
    (hI : Inv ps pool own fresh) :
    Ring pool'.next pool'.prev (backLink (kind ps (k + 3))) (.slot k)
      (listed ps pool' own' (k + 3)) := by
  have hout : ∀ r, r = .slot k ∨ r ∈ listed ps pool own (k + 3) →
      pool'.next r = pool.next r ∧ pool'.prev r = pool.prev r := by
    rintro r (rfl | ⟨i, rfl, hi, hl, -⟩)
    · apply hs.linksOut
      · simp
      · rintro ⟨i, h, -⟩
        simp at h
      · simp
    · apply hs.linksOut
      · simp
      · rw [page_mem_freeHeads hi, hl]
        simp
      · rintro j hlo hhi h
        obtain rfl := PageRef.page.inj h
        exact (hs.noChunks i hlo hhi _).1 hl
  refine ((hI.slotRing k hk).frame (hout _ (Or.inl rfl)).1 ?_ ?_).congr_set hs.listed_eq
  · intro r hr
    exact (hout r (Or.inr hr)).1
  · intro r hr
    exact (hout r (Or.inr hr)).2

theorem desc_outside (hs : Surgery ps pool pool' own own' lo n) (hI : Inv ps pool own fresh)
    {i : ℕ} (hi : i < pool.last) (ho : i < lo ∨ lo + n ≤ i) : PageDesc ps pool' (own' i) i := by
  rw [hs.outside i ho]
  refine (hI.desc i hi).frame (hs.slabOut i ho)
    (fun _ _ => hs.frozen.sameBits (hs.slabOut i ho)) ?_
  intro hoff
  apply hs.linksOut
  · simp
  · rw [page_mem_freeHeads hi]
    rintro ⟨hl, hh⟩
    simp only [OffRing, hl] at hoff
    exact hoff hh.symm
  · rintro j hlo hhi h
    have hij := PageRef.page.inj h
    omega

end Surgery

/-- Repainting a block that is not a chunk page is a surgery on its pages. -/
theorem Inv.repaint (hI : Inv ps pool own fresh) (hn : 0 < n) (hfit : lo + n ≤ pool.last)
    {l l' : Use} (hown : ∀ j, lo ≤ j → j < lo + n → own j = ⟨lo, n, l⟩)
    (hl : ∀ s, l ≠ .chunks s ∧ l' ≠ .chunks s) (hfrozen : Frozen pool pool')
    (hslab : ∀ j, j < lo ∨ lo + n ≤ j → pool'.slab (.page j) = pool.slab (.page j))
    (hlinks : ∀ r, r ≠ .free → r ∉ freeHeads pool own →
      (∀ j, lo ≤ j → j < lo + n → r ≠ .page j) →
        pool'.next r = pool.next r ∧ pool'.prev r = pool.prev r) :
    Surgery ps pool pool' own (paint own lo n l') lo n where
  frozen := hfrozen
  fits := hfit
  edgeLo := by
    have he := hI.tiling.edge_head (i := lo) (by omega)
    rwa [hown lo le_rfl (by omega)] at he
  edgeHi := by
    have he := hI.tiling.edge_stop (i := lo) (by omega)
    rwa [hown lo le_rfl (by omega)] at he
  outside := fun _ hj => paint_outside hj
  slabOut := hslab
  linksOut := hlinks
  noChunks := by
    intro j h₁ h₂ s
    rw [hown j h₁ h₂, paint_inside ⟨h₁, h₂⟩]
    exact hl s

/-- A page heads a free run of the repainted map inside of the block only as its first page. -/
theorem page_mem_freeHeads_paint {j : ℕ} {l : Use} (hj : j < pool.last) :
    .page j ∈ freeHeads pool (paint own lo n l) ↔
      if lo ≤ j ∧ j < lo + n then l = .free ∧ lo = j else .page j ∈ freeHeads pool own := by
  rw [page_mem_freeHeads hj]
  split
  · next hin => rw [paint_inside hin]
  · next hout => rw [paint_outside (by omega), page_mem_freeHeads hj]

/-- The invariant after a surgery, from what happened inside the stretch. -/
theorem Inv.surgery (hI : Inv ps pool own fresh)
    (hs : Surgery ps pool pool' own own' lo n) (hn : 0 < n)
    (htiling : IsTiling own' pool.last)
    (hgapLo : ∀ i < lo, (own i).label = .free → (own i).stop = lo → (own' lo).label ≠ .free)
    (hgapIn : ∀ i, lo ≤ i → i < lo + n → (own' i).label = .free → (own' i).stop < pool.last →
      (own' (own' i).stop).label ≠ .free)
    (hdesc : ∀ i, lo ≤ i → i < lo + n → PageDesc ps pool' (own' i) i)
    (hring : Ring pool'.next pool'.prev (backLink .page) .free (freeHeads pool' own'))
    (hback : ∀ i, lo ≤ i → i < lo + n → (own' i).label = .free → (own' i).head = i →
      2 ≤ (own' i).len →
        pool'.prev (.page (i + (own' i).len - 1)) = backLink .page (.page i))
    (hfresh : fresh = true → lo = 0 ∧ n = pool.last)
    (hpfree : pool'.pfree = BitVec.ofNat 64 (count own' pool.last Use.isVacant)) :
    Inv ps pool' own' false := by
  have hlast := hs.frozen.last
  have hfits := hs.fits
  refine {
    base := hs.frozen.toSameFrame.base hI.base
    tiling := by rw [hlast]; exact htiling
    gap := ?_
    desc := ?_
    void := ?_
    freeRing := hring
    slotRing := fun k hk => hs.slotRing hk hI
    backPtr := ?_
    untouched := by simp
    pfree := by rw [hlast]; exact hpfree }
  · intro i hi hl hst
    rw [hlast] at hi hst
    by_cases hin : lo ≤ i ∧ i < lo + n
    · exact hgapIn i hin.1 hin.2 hl hst
    · have ho := hs.outside i (by omega)
      rw [ho] at hl hst ⊢
      have hb := hI.tiling.has hi
      have he := hs.edgeLo i hi
      by_cases hlo : (own i).stop = lo
      · rw [hlo]
        by_cases hil : i < lo
        · exact hgapLo i hil hl hlo
        · omega
      · rw [hs.outside _ (by omega)]
        exact hI.gap i hi hl hst
  · intro i hi
    rw [hlast] at hi
    by_cases hin : lo ≤ i ∧ i < lo + n
    · exact hdesc i hin.1 hin.2
    · exact hs.desc_outside hI hi (by omega)
  · intro h0
    omega
  · intro _ i hi hl hh h2
    rw [hlast] at hi
    by_cases hin : lo ≤ i ∧ i < lo + n
    · exact hback i hin.1 hin.2 hl hh h2
    · have hf : fresh = false := by
        by_contra hf
        have h := hfresh (by simpa using hf)
        omega
      have ho := hs.outside i (by omega)
      rw [ho] at hl hh h2 ⊢
      rw [← hI.backPtr hf i hi hl hh h2]
      have hb := hI.tiling.has hi
      have hst := hI.tiling.stop_le hi
      have hel := hs.edgeLo i hi
      have heh := hs.edgeHi i hi
      simp only [Block.stop] at hb hst hel heh
      have hlt : i + (own i).len - 1 < pool.last := by omega
      have hsame := hI.tiling.same hi (j := i + (own i).len - 1)
        ⟨by omega, by simp only [Block.stop]; omega⟩
      refine (hs.linksOut _ (by simp) ?_ ?_).2
      · rw [page_mem_freeHeads hlt, hsame]
        rintro ⟨-, h⟩
        omega
      · rintro j hjlo hjhi h
        have hij := PageRef.page.inj h
        omega

end KirinFS.Slab
