import KirinFS.Slab.ChunkMaps

/-! # Chunks on listed, full and fresh pages -/

namespace KirinFS.Slab
open Foundation.Tiling Foundation.IntrusiveRing Function

variable {ps : PageShift} {pool q : StlSlab} {own : PageMap} {fresh : Bool} {i k c : ℕ} {v : Bool}

theorem Inv.isClass (hI : Inv ps pool own fresh) {s : ℕ} (hi : i < pool.last)
    (hl : (own i).label = .chunks s) : IsClass ps s := by
  have hd := hI.desc i hi
  simp only [PageDesc, hl] at hd
  exact hd.2.1

theorem Inv.shape (hI : Inv ps pool own fresh) {s : ℕ} (hi : i < pool.last)
    (hl : (own i).label = .chunks s) : SlabShape ps s (pool.slab (.page i)) := by
  have hd := hI.desc i hi
  simp only [PageDesc, hl] at hd
  exact hd.2.2.1

theorem Inv.own_chunks (hI : Inv ps pool own fresh) {s : ℕ} (hi : i < pool.last)
    (hl : (own i).label = .chunks s) : own i = ⟨i, 1, .chunks s⟩ := by
  have hd := hI.desc i hi
  simp only [PageDesc, hl] at hd
  have hb := hI.tiling.has hi
  simp only [Block.stop, hd.1] at hb
  have hh : (own i).head = i := by omega
  calc own i = ⟨(own i).head, (own i).len, (own i).label⟩ := rfl
    _ = ⟨i, 1, .chunks s⟩ := by rw [hh, hd.1, hl]

/-- A chunk page is off its list exactly when it is full. -/
theorem Inv.next_null_iff (hI : Inv ps pool own fresh) (hi : i < pool.last)
    (hk : k < ps.val - 3) (hl : (own i).label = .chunks (k + 3)) :
    pool.next (.page i) = .null ↔ Full ps pool i (k + 3) := by
  constructor
  · intro hn
    by_contra hf
    have hx : PageRef.page i ∈ listed ps pool own (k + 3) := page_mem_listed.mpr ⟨hi, hl, hf⟩
    obtain ⟨-, -, -, -, -, hnext, -⟩ := (hI.slotRing k hk).neighbours hx
    rw [hn] at hnext
    rcases hnext with h | ⟨j, hj, -⟩
    · simp at h
    · simp at hj
  · intro hf
    have hd := hI.desc i hi
    simp only [PageDesc, hl] at hd
    exact (hd.2.2.2.2 hf).1

theorem listed_slot_valid (hI : Inv ps pool own fresh) (hk : k < ps.val - 3) (r : PageRef)
    (hr : r = .slot k ∨ r ∈ listed ps pool own (k + 3)) : pool.valid r = true :=
  listed_valid (by rw [hI.base.nslots]; exact hk) r hr

/-- A pool with other links and one bit of page `i` changed, as a change of one page. -/
theorem BitWrite.slotStep {n : PageRef → PageRef} {p : PageRef → TaggedRef}
    (hI : Inv ps pool own fresh) (hi : i < pool.last) (hk : k < ps.val - 3) (hown : own i = ⟨i, 1, .chunks (k + 3)⟩)
    (hw : BitWrite ps pool q i (k + 3) c v)
    (hlinks : ∀ r, r ≠ .slot k → r ∉ listed ps pool own (k + 3) → r ≠ .page i →
      n r = pool.next r ∧ p r = pool.prev r) :
    SlotStep ps pool (q.withLinks n p) own own i k (.chunks (k + 3)) (.chunks (k + 3)) := by
  refine ⟨⟨hw.frame.minShift, hw.frame.minSize, hw.frame.nslots, hw.frame.last, hw.frame.start,
    hw.frame.stop⟩, hi, hk, hown, hown, fun _ _ => rfl, by simp, ?_, hw.slabOut, ?_, hlinks⟩
  · rintro s (h | h)
    · exact (Use.chunks.inj h).symm
    · exact (Use.chunks.inj h).symm
  · intro j hjl hj s hl
    exact hw.bitsOut j hj s (hI.isClass hjl hl)

theorem listed_after (hown : own i = ⟨i, 1, .chunks (k + 3)⟩)
    {pool' : StlSlab} (h : SlotStep ps pool pool' own own i k (.chunks (k + 3)) (.chunks (k + 3)))
    (r : PageRef) : r ∈ listed ps pool' own (k + 3) ↔
      (r ∈ listed ps pool own (k + 3) ∧ r ≠ .page i) ∨ r = .page i ∧ ¬ Full ps pool' i (k + 3) := by
  have hk := h.slot
  have hlast := h.frame.last
  have hi := h.inPool
  constructor
  · rintro ⟨j, rfl, hj, hl, hf⟩
    by_cases hji : j = i
    · subst hji
      exact Or.inr ⟨rfl, hf⟩
    · rw [(h.bitsOut j (by omega) hji _ hl).full_iff] at hf
      exact Or.inl ⟨⟨j, rfl, by omega, hl, hf⟩, by simpa using hji⟩
  · rintro (⟨⟨j, rfl, hj, hl, hf⟩, hne⟩ | ⟨rfl, hf⟩)
    · have hji : j ≠ i := by simpa using hne
      refine ⟨j, rfl, by omega, hl, ?_⟩
      rwa [(h.bitsOut j hj hji _ hl).full_iff]
    · exact ⟨i, rfl, by omega, by rw [hown], hf⟩

/-- The descriptor of a chunk page after a change of one of its client bits. -/
theorem BitWrite.desc {n : PageRef → PageRef} {p : PageRef → TaggedRef}
    (hI : Inv ps pool own fresh) (hi : i < pool.last) (hown : own i = ⟨i, 1, .chunks (k + 3)⟩)
    (hw : BitWrite ps pool q i (k + 3) c v) (hc : v = true ∨ reserved ps (k + 3) ≤ c)
    (hfull : Full ps q i (k + 3) → n (.page i) = .null ∧ p (.page i) = bareTag (kind ps (k + 3))) :
    PageDesc ps (q.withLinks n p) (own i) i := by
  have hd := hI.desc i hi
  rw [hown] at hd ⊢
  simp only [PageDesc] at hd ⊢
  obtain ⟨-, hs, hshape, hres, -⟩ := hd
  refine ⟨trivial, hs, hw.shape hshape, ?_, hfull⟩
  intro d hd
  have hlt := reserved_lt hs
  refine (hw.bit d (by omega)).trans ?_
  by_cases hdc : d = c
  · rw [if_pos hdc]
    rcases hc with h | h
    · exact h
    · omega
  · rw [if_neg hdc]
    exact hres d hd

/-- Writing a bit of a listed page that has another clear one. -/
theorem Inv.writeListed (hI : Inv ps pool own fresh) (hi : i < pool.last) (hk : k < ps.val - 3)
    (hown : own i = ⟨i, 1, .chunks (k + 3)⟩) (hnf : ¬ Full ps pool i (k + 3))
    (hw : BitWrite ps pool q i (k + 3) c v) (hc : v = true ∨ reserved ps (k + 3) ≤ c)
    (hq : ¬ Full ps q i (k + 3)) : Inv ps q own false := by
  have hstep : SlotStep ps pool q own own i k (.chunks (k + 3)) (.chunks (k + 3)) :=
    hw.slotStep (n := q.next) (p := q.prev) hI hi hk hown (fun r _ _ _ => by
      rw [hw.next, hw.prev]
      exact ⟨rfl, rfl⟩)
  refine hI.slotStep hstep ?_ (hw.desc hI hi hown hc (fun hf => absurd hf hq)) ?_
  · rw [hw.next, hw.prev]
    refine (hI.slotRing k hk).congr_set ?_
    intro r
    rw [listed_after hown hstep]
    constructor
    · intro hr
      by_cases hri : r = .page i
      · exact Or.inr ⟨hri, hq⟩
      · exact Or.inl ⟨hr, hri⟩
    · rintro (⟨hr, -⟩ | ⟨rfl, -⟩)
      · exact hr
      · exact page_mem_listed.mpr ⟨hi, by rw [hown], hnf⟩
  · exact hw.pfree.trans hI.pfree

theorem Inv.takeLast (hI : Inv ps pool own fresh) (hi : i < pool.last) (hk : k < ps.val - 3)
    (hown : own i = ⟨i, 1, .chunks (k + 3)⟩) (hnf : ¬ Full ps pool i (k + 3))
    (hw : BitWrite ps pool q i (k + 3) c true) (hq : Full ps q i (k + 3)) :
    ∃ n p, q.retirePage i (kind ps (k + 3)) = some (q.withLinks n p) ∧
      Inv ps (q.withLinks n p) own false := by
  have hx : PageRef.page i ∈ listed ps pool own (k + 3) :=
    page_mem_listed.mpr ⟨hi, by rw [hown], hnf⟩
  have hring : Ring q.next q.prev (backLink (kind ps (k + 3))) (.slot k)
      (listed ps pool own (k + 3)) := by
    rw [hw.next, hw.prev]
    exact hI.slotRing k hk
  obtain ⟨n, p, heq, hring', hnext, hprev, hkeep⟩ := StlSlab.retirePage_spec hring hx (by simp)
    (fun r hr => StlSlab.valid_congr hw.frame.nslots hw.frame.last (listed_slot_valid hI hk r hr))
  have hstep := hw.slotStep (n := n) (p := p) hI hi hk hown (fun r hr hrM _ => by
    have h := hkeep r hr hrM
    rwa [hw.next, hw.prev] at h)
  refine ⟨n, p, heq, hI.slotStep hstep ?_ (hw.desc hI hi hown (Or.inl rfl) ?_) ?_⟩
  · refine hring'.congr_set ?_
    intro r
    rw [listed_after hown hstep]
    constructor
    · intro hr
      exact Or.inl hr
    · rintro (hr | ⟨-, hf⟩)
      · exact hr
      · exact absurd hq hf
  · exact fun _ => ⟨hnext, hprev⟩
  · exact hw.pfree.trans hI.pfree

/-- A chunk is taken, and the page retired if it was the last one. -/
theorem Inv.takeBit (hI : Inv ps pool own fresh) (hi : i < pool.last) (hk : k < ps.val - 3)
    (hown : own i = ⟨i, 1, .chunks (k + 3)⟩) (hnf : ¬ Full ps pool i (k + 3))
    (hw : BitWrite ps pool q i (k + 3) c true) {full : Prop} [Decidable full]
    (hfull : full ↔ Full ps q i (k + 3)) :
    ∃ n p, (if full then q.retirePage i (kind ps (k + 3)) else some q) =
        some (q.withLinks n p) ∧ Inv ps (q.withLinks n p) own false := by
  by_cases hf : full
  · obtain ⟨n, p, heq, hinv⟩ := hI.takeLast hi hk hown hnf hw (hfull.mp hf)
    exact ⟨n, p, by rw [if_pos hf]; exact heq, hinv⟩
  · refine ⟨q.next, q.prev, by rw [if_neg hf]; rfl, ?_⟩
    exact hI.writeListed hi hk hown hnf hw (Or.inl rfl) (fun h => hf (hfull.mpr h))

theorem BitWrite.not_full (hw : BitWrite ps pool q i (k + 3) c false)
    (hcc : c < chunkCount ps (k + 3)) : ¬ Full ps q i (k + 3) := by
  intro hf
  have hb := hw.bit c hcc
  rw [hf c hcc, if_pos rfl] at hb
  exact absurd hb (by simp)

/-- Clearing a bit of a full page, which goes back on its list first. -/
theorem Inv.clearFull (hI : Inv ps pool own fresh) (hi : i < pool.last) (hk : k < ps.val - 3)
    (hown : own i = ⟨i, 1, .chunks (k + 3)⟩) (hfull : Full ps pool i (k + 3)) :
    ∃ n p, pool.relistPage i k (kind ps (k + 3)) = some (pool.withLinks n p) ∧
      ∀ q c, BitWrite ps (pool.withLinks n p) q i (k + 3) c false → reserved ps (k + 3) ≤ c →
        c < chunkCount ps (k + 3) → Inv ps q own false := by
  have hx : PageRef.page i ∉ listed ps pool own (k + 3) := by
    rw [page_mem_listed]
    rintro ⟨-, -, hf⟩
    exact hf hfull
  obtain ⟨n, p, heq, hring, hkeep⟩ := StlSlab.relistPage_spec (hI.slotRing k hk) hx hi
    (listed_slot_valid hI hk)
  refine ⟨n, p, heq, ?_⟩
  intro q c hw hc hcc
  have hq : ¬ Full ps q i (k + 3) := hw.not_full hcc
  have hw' : BitWrite ps pool (q.withLinks pool.next pool.prev) i (k + 3) c false :=
    ⟨⟨hw.frame.minShift, hw.frame.minSize, hw.frame.nslots, hw.frame.last, hw.frame.start,
      hw.frame.stop⟩, rfl, rfl, hw.pfree, hw.slabOut, hw.shape, hw.bit, hw.bitsOut⟩
  have hstep := hw'.slotStep (n := n) (p := p) hI hi hk hown (fun r hr hrM hri =>
    hkeep r hr (by
      rw [Set.mem_insert_iff]
      rintro (h | h)
      · exact hri h
      · exact hrM h))
  have hqq : (q.withLinks pool.next pool.prev).withLinks n p = q := by
    have hn := hw.next
    have hp := hw.prev
    cases q
    simp only [StlSlab.withLinks] at hn hp ⊢
    rw [hn, hp]
  rw [hqq] at hstep
  refine hI.slotStep hstep ?_ ?_ ?_
  · rw [hw.next, hw.prev]
    refine hring.congr_set ?_
    intro r
    rw [listed_after hown hstep, Set.mem_insert_iff]
    constructor
    · rintro (h | h)
      · exact Or.inr ⟨h, hq⟩
      · exact Or.inl ⟨h, fun hri => hx (hri ▸ h)⟩
    · rintro (⟨h, -⟩ | ⟨h, -⟩)
      · exact Or.inr h
      · exact Or.inl h
  · have hd := hw'.desc hI hi hown (Or.inr hc) (n := n) (p := p) (fun hf => absurd hf hq)
    rwa [hqq] at hd
  · exact hw.pfree.trans hI.pfree

/-- A fresh page with its first client chunk taken, alone on the list of its class. -/
structure PageInit (ps : PageShift) (pool q : StlSlab) (i k : ℕ) : Prop where
  frame : SameFrame pool q
  pfree : q.pfree = pool.pfree
  slabOut : ∀ j, j ≠ i → q.slab (.page j) = pool.slab (.page j)
  shape : SlabShape ps (k + 3) (q.slab (.page i))
  bit : ∀ d < chunkCount ps (k + 3),
    chunkBit ps q i (k + 3) d = decide (d ≤ reserved ps (k + 3))
  bitsOut : ∀ j, j ≠ i → ∀ t, IsClass ps t → SameBits ps pool q j t
  nextSlot : q.next (.slot k) = .page i
  nextPage : q.next (.page i) = .slot k
  prevPage : q.prev (.page i) = ⟨.slot k, kind ps (k + 3)⟩
  links : ∀ r, r ≠ .slot k → r ≠ .page i → q.next r = pool.next r ∧ q.prev r = pool.prev r

theorem Inv.newPage (hI : Inv ps pool own fresh) (hi : i < pool.last) (hk : k < ps.val - 3)
    (hown : own i = ⟨i, 1, .busy⟩) (hempty : listed ps pool own (k + 3) = ∅)
    (hq : PageInit ps pool q i k) : Inv ps q (paint own i 1 (.chunks (k + 3))) false := by
  have hs : IsClass ps (k + 3) := ⟨by omega, by omega⟩
  have hstep : SlotStep ps pool q own (paint own i 1 (.chunks (k + 3))) i k .busy
      (.chunks (k + 3)) := by
    refine ⟨hq.frame, hi, hk, hown, paint_inside (by omega), fun j hj => paint_outside (by omega),
      by simp, ?_, hq.slabOut, fun j hjl hj t hl => hq.bitsOut j hj t (hI.isClass hjl hl), fun r hr _ hri => hq.links r hr hri⟩
    rintro s (h | h)
    · simp at h
    · exact (Use.chunks.inj h).symm
  have hnf : ¬ Full ps q i (k + 3) := by
    intro hf
    have hlt : reserved ps (k + 3) + 1 < chunkCount ps (k + 3) := by
      unfold reserved
      split
      · next hsm => exact (bitmapChunks_spec hs hsm).2.1
      · exact two_le_chunkCount hs
    have hb := hq.bit _ hlt
    rw [hf _ hlt] at hb
    simp at hb
  refine hI.slotStep hstep ?_ ?_ ?_
  · refine (Ring.single hq.nextSlot hq.prevPage hq.nextPage (by simp)).congr_set ?_
    intro r
    rw [Set.mem_singleton_iff]
    constructor
    · rintro rfl
      exact ⟨i, rfl, by rw [hq.frame.last]; exact hi, by rw [paint_inside (by omega)], hnf⟩
    · rintro ⟨j, rfl, hj, hl, hf⟩
      by_cases hji : j = i
      · rw [hji]
      · rw [paint_outside (by omega)] at hl
        rw [hq.frame.last] at hj
        rw [(hq.bitsOut j hji _ hs).full_iff] at hf
        have hx : PageRef.page j ∈ listed ps pool own (k + 3) := page_mem_listed.mpr ⟨hj, hl, hf⟩
        rw [hempty] at hx
        exact absurd hx (Set.notMem_empty _)
  · rw [hstep.after]
    refine ⟨rfl, hs, hq.shape, ?_, fun hf => absurd hf hnf⟩
    intro d hd
    have hlt := reserved_lt hs
    rw [hq.bit d (by omega)]
    simpa using hd.le
  · rw [hq.pfree, hI.pfree, count_paint_same]
    intro j h₁ h₂
    rw [show j = i by omega, hown]
    rfl

theorem Inv.withStats (hI : Inv ps pool own fresh) (st : ℕ → StlSlabStat) :
    Inv ps (pool.withStats st) own fresh :=
  ⟨⟨hI.base.minShift, hI.base.minSize, hI.base.nslots, hI.base.aligned, hI.base.room,
    hI.base.bound⟩, hI.tiling, hI.gap, hI.desc, hI.void, hI.freeRing, hI.slotRing, hI.backPtr,
    hI.untouched, hI.pfree⟩

theorem Inv.withMem (hI : Inv ps pool own fresh) {mem : ℕ → Word}
    (hbits : ∀ j < pool.last, ∀ s, (own j).label = .chunks s →
      SameBits ps pool { pool with mem := mem } j s) :
    Inv ps { pool with mem := mem } own fresh := by
  refine ⟨⟨hI.base.minShift, hI.base.minSize, hI.base.nslots, hI.base.aligned, hI.base.room,
    hI.base.bound⟩, hI.tiling, hI.gap, ?_, hI.void, hI.freeRing, ?_, hI.backPtr, hI.untouched,
    hI.pfree⟩
  · intro j hj
    exact (hI.desc j hj).frame rfl (hbits j hj) (fun _ => ⟨rfl, rfl⟩)
  · intro k hk
    refine (hI.slotRing k hk).congr_set ?_
    have hs : IsClass ps (k + 3) := ⟨by omega, by omega⟩
    intro r
    constructor
    · rintro ⟨j, rfl, hj, hl, hf⟩
      exact ⟨j, rfl, hj, hl, by rwa [(hbits j hj _ hl).full_iff]⟩
    · rintro ⟨j, rfl, hj, hl, hf⟩
      exact ⟨j, rfl, hj, hl, by rwa [(hbits j hj _ hl).full_iff] at hf⟩

end KirinFS.Slab
