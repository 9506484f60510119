import KirinFS.Slab.Surgery

/-! # Changes of one page and of the list of its class

Handing out a chunk, taking one back, and turning a page into a chunk page or
out of it all write one descriptor, one chunk map and the links of one slot list.
-/

namespace KirinFS.Slab
open Foundation.Tiling Foundation.IntrusiveRing Function

variable {ps : PageShift} {pool pool' : StlSlab} {own own' : PageMap} {fresh : Bool}
  {i k : ℕ} {l l' : Use}

/-- Page `i` passes from use `l` to `l'` with list `k`; the rest only sees links of the list. -/
structure SlotStep (ps : PageShift) (pool pool' : StlSlab) (own own' : PageMap) (i k : ℕ)
    (l l' : Use) : Prop where
  frame : SameFrame pool pool'
  inPool : i < pool.last
  slot : k < ps.val - 3
  before : own i = ⟨i, 1, l⟩
  after : own' i = ⟨i, 1, l'⟩
  outside : ∀ j, j ≠ i → own' j = own j
  notFree : l ≠ .free ∧ l' ≠ .free
  class' : ∀ s, l = .chunks s ∨ l' = .chunks s → s = k + 3
  slabOut : ∀ j, j ≠ i → pool'.slab (.page j) = pool.slab (.page j)
  bitsOut : ∀ j < pool.last, j ≠ i → ∀ s, (own j).label = .chunks s → SameBits ps pool pool' j s
  linksOut : ∀ r, r ≠ .slot k → r ∉ listed ps pool own (k + 3) → r ≠ .page i →
    pool'.next r = pool.next r ∧ pool'.prev r = pool.prev r

namespace SlotStep

theorem own_eq (h : SlotStep ps pool pool' own own' i k l l') : own' = paint own i 1 l' := by
  funext j
  by_cases hj : j = i
  · subst hj
    rw [h.after, paint_inside (by omega)]
  · rw [h.outside j hj, paint_outside (by omega)]

theorem tiling (h : SlotStep ps pool pool' own own' i k l l') (ht : IsTiling own pool.last) :
    IsTiling own' pool.last := by
  have hlo := ht.edge_head h.inPool
  have hhi := ht.edge_stop h.inPool
  rw [h.own_eq]
  rw [h.before] at hlo hhi
  exact ht.paint hlo hhi h.inPool

/-- Blocks that do not start out or end up at `i` keep their label. -/
theorem label_iff (h : SlotStep ps pool pool' own own' i k l l') {m : Use} (hl : l ≠ m)
    (hl' : l' ≠ m) (j : ℕ) : (own' j).label = m ↔ (own j).label = m := by
  by_cases hj : j = i
  · subst hj
    simp [h.before, h.after, hl, hl']
  · rw [h.outside j hj]

theorem ne_of_label (h : SlotStep ps pool pool' own own' i k l l') {m : Use} (hl : l ≠ m) {j : ℕ}
    (hj : (own j).label = m) : j ≠ i := by
  rintro rfl
  rw [h.before] at hj
  exact hl hj

theorem links_free (h : SlotStep ps pool pool' own own' i k l l') {j : ℕ}
    (hj : (own j).label = .free) :
    pool'.next (.page j) = pool.next (.page j) ∧ pool'.prev (.page j) = pool.prev (.page j) := by
  apply h.linksOut
  · simp
  · rw [page_mem_listed, hj]
    simp
  · simpa using h.ne_of_label h.notFree.1 hj

theorem freeRing (h : SlotStep ps pool pool' own own' i k l l') (hI : Inv ps pool own fresh) :
    Ring pool'.next pool'.prev (backLink .page) .free (freeHeads pool' own') := by
  have hpos := h.inPool
  have hmem : ∀ r ∈ freeHeads pool own, pool'.next r = pool.next r ∧
      pool'.prev r = pool.prev r := by
    rintro r ⟨j, rfl, ⟨hj, hl, -⟩ | ⟨h0, -⟩⟩
    · exact h.links_free hl
    · omega
  have hs := h.linksOut .free (by simp) (by rintro ⟨j, hj, -⟩; simp at hj) (by simp)
  refine (hI.freeRing.frame hs.1 (fun r hr => (hmem r hr).1)
    (fun r hr => (hmem r hr).2)).congr_set ?_
  intro r
  have key : ∀ j, (own j).label = .free ∧ (own j).head = j ↔
      (own' j).label = .free ∧ (own' j).head = j := by
    intro j
    by_cases hj : j = i
    · subst hj
      simp [h.before, h.after, h.notFree.1, h.notFree.2]
    · rw [h.outside j hj]
  simp only [freeHeads, h.frame.last, key]

theorem slotRing (h : SlotStep ps pool pool' own own' i k l l') (hI : Inv ps pool own fresh)
    {k' : ℕ} (hk : k' < ps.val - 3) (hne : k' ≠ k) :
    Ring pool'.next pool'.prev (backLink (kind ps (k' + 3))) (.slot k')
      (listed ps pool' own' (k' + 3)) := by
  have hl : l ≠ .chunks (k' + 3) := by
    intro hl
    have hs := h.class' _ (Or.inl hl)
    omega
  have hl' : l' ≠ .chunks (k' + 3) := by
    intro hl
    have hs := h.class' _ (Or.inr hl)
    omega
  have hmem : ∀ r ∈ listed ps pool own (k' + 3), pool'.next r = pool.next r ∧
      pool'.prev r = pool.prev r := by
    rintro r ⟨j, rfl, hj, hjl, -⟩
    apply h.linksOut
    · simp
    · rw [page_mem_listed, hjl]
      simp [hne]
    · simpa using h.ne_of_label hl hjl
  have hs := h.linksOut (.slot k') (by simpa using hne) (by rintro ⟨j, hj, -⟩; simp at hj)
    (by simp)
  refine ((hI.slotRing k' hk).frame hs.1 (fun r hr => (hmem r hr).1)
    (fun r hr => (hmem r hr).2)).congr_set ?_
  have key : ∀ j, (j < pool.last ∧ (own j).label = .chunks (k' + 3) ∧ ¬ Full ps pool j (k' + 3)) ↔
      (j < pool'.last ∧ (own' j).label = .chunks (k' + 3) ∧ ¬ Full ps pool' j (k' + 3)) := by
    intro j
    rw [h.label_iff hl hl', h.frame.last]
    constructor
    · rintro ⟨hj, hjl, hf⟩
      rw [(h.bitsOut j hj (h.ne_of_label hl hjl) _ hjl).full_iff]
      exact ⟨hj, hjl, hf⟩
    · rintro ⟨hj, hjl, hf⟩
      rw [(h.bitsOut j hj (h.ne_of_label hl hjl) _ hjl).full_iff] at hf
      exact ⟨hj, hjl, hf⟩
  intro r
  simp only [listed, Set.mem_ofPred_eq, key]

end SlotStep

/-- The invariant after a change of one page, from what happened on its list. -/
theorem Inv.slotStep (hI : Inv ps pool own fresh)
    (h : SlotStep ps pool pool' own own' i k l l')
    (hring : Ring pool'.next pool'.prev (backLink (kind ps (k + 3))) (.slot k)
      (listed ps pool' own' (k + 3)))
    (hdesc : PageDesc ps pool' (own' i) i)
    (hpfree : pool'.pfree = BitVec.ofNat 64 (count own' pool.last Use.isVacant)) :
    Inv ps pool' own' false := by
  have hlast := h.frame.last
  have hpos := h.inPool
  have hfresh : fresh = false := by
    by_contra hf
    have hu := hI.untouched (by simpa using hf) i hpos
    rw [h.before] at hu
    exact h.notFree.1 (congrArg Block.label hu)
  refine {
    base := h.frame.base hI.base
    tiling := by rw [hlast]; exact h.tiling hI.tiling
    gap := ?_
    desc := ?_
    void := fun h0 => by omega
    freeRing := h.freeRing hI
    slotRing := ?_
    backPtr := ?_
    untouched := by simp
    pfree := by rw [hlast]; exact hpfree }
  · intro j hj hl hst
    rw [hlast] at hj hst
    rw [h.label_iff h.notFree.1 h.notFree.2] at hl
    rw [h.outside j (h.ne_of_label h.notFree.1 hl)] at hst ⊢
    intro hl'
    exact hI.gap j hj hl hst ((h.label_iff h.notFree.1 h.notFree.2 _).mp hl')
  · intro j hj
    rw [hlast] at hj
    by_cases hji : j = i
    · rw [hji]
      exact hdesc
    · rw [h.outside j hji]
      refine (hI.desc j hj).frame (h.slabOut j hji) (h.bitsOut j hj hji) ?_
      intro hoff
      apply h.linksOut
      · simp
      · rw [page_mem_listed]
        rintro ⟨-, hl, hnf⟩
        simp only [OffRing, hl] at hoff
        exact hnf hoff
      · simpa using hji
  · intro k' hk'
    by_cases hkk : k' = k
    · rw [hkk]
      exact hring
    · exact h.slotRing hI hk' hkk
  · intro _ j hj hl hh h2
    rw [hlast] at hj
    rw [h.label_iff h.notFree.1 h.notFree.2] at hl
    rw [h.outside j (h.ne_of_label h.notFree.1 hl)] at hh h2 ⊢
    have hsame := hI.tiling.same hj (j := j + (own j).len - 1)
      ⟨by omega, by simp only [Block.stop]; omega⟩
    rw [(h.links_free (by rw [hsame]; exact hl)).2]
    exact hI.backPtr hfresh j hj hl hh h2

end KirinFS.Slab
