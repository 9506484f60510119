import KirinFS.Slab.Coalesce
import KirinFS.Slab.SlotStep

/-! # Returning a page run to the free list -/

namespace KirinFS.Slab
open Foundation.Tiling Foundation.IntrusiveRing Function

variable {ps : PageShift} {pool pool' : StlSlab} {own own' : PageMap} {fresh : Bool}
  {i k n : ℕ}

namespace Pending

theorem notMem_freeHeads (h : Pending ps pool own i n) {j : ℕ} (hlo : i ≤ j) (hhi : j < i + n) :
    .page j ∉ freeHeads pool own := by
  have hfit := h.fits
  rw [page_mem_freeHeads (by omega), h.hole j hlo hhi]
  simp

theorem freeHeads_free (h : Pending ps pool own i n) {q : StlSlab} (hq : q.last = pool.last)
    (r : PageRef) :
    r ∈ insert (.page i) (freeHeads pool own) ↔ r ∈ freeHeads q (paint own i n .free) := by
  have hpos := h.pos
  have hfit := h.fits
  refine pages_ext (m := pool.last) ?_ ?_ ?_ r
  · rintro r (rfl | hr)
    · exact ⟨i, by omega, rfl⟩
    · exact freeHeads_page (by omega) r hr
  · rw [← hq]
    exact freeHeads_page (by omega)
  · intro j hj
    rw [page_mem_freeHeads_paint (by omega), Set.mem_insert_iff, PageRef.page.injEq]
    split
    · next hin => simp [h.notMem_freeHeads hin.1 hin.2, eq_comm]
    · next hout =>
      rw [page_mem_freeHeads hj, page_mem_freeHeads (by omega)]
      exact or_iff_right (by omega)

section Pushed
variable {nx : PageRef → PageRef} {pv : PageRef → TaggedRef}

/-- Pushing the hole writes its last back pointer and no other word inside. -/
theorem desc_pushed (h : Pending ps pool own i n)
    (hback : n - 1 ≠ 0 → pv (.page (i + (n - 1))) = backLink .page (.page i))
    (hout : ∀ r, r ≠ .free → r ∉ insert (.page i) (freeHeads pool own) → nx r = pool.next r ∧
      (r ≠ .page (i + (n - 1)) → pv r = pool.prev r)) {j : ℕ} (h₁ : i ≤ j) (h₂ : j < i + n) :
    PageDesc ps (pool.withLinks nx pv) ⟨i, n, .free⟩ j := by
  have hfit := h.fits
  have hd := h.inv.desc j (by omega)
  rw [h.hole j h₁ h₂] at hd
  simp only [PageDesc] at hd ⊢
  by_cases hj : j = i
  · rw [if_pos hj] at hd ⊢
    exact hd
  · rw [if_neg hj] at hd ⊢
    have ho := hout (.page j) (by simp) (by
      rw [Set.mem_insert_iff]
      rintro (hri | hri)
      · exact hj (PageRef.page.inj hri)
      · exact h.notMem_freeHeads h₁ h₂ hri)
    refine ⟨hd.1, ho.1.trans hd.2.1, ?_⟩
    change (pv _).tag = _
    by_cases hjn : j = i + (n - 1)
    · rw [hjn, hback (by omega)]
      rfl
    · rw [ho.2 (by simpa using hjn)]
      exact hd.2.2

end Pushed

theorem pushRun (h : Pending ps pool own i n) (hl : BoundedLeft own i)
    (hr : BoundedRight pool own (i + n)) :
    ∃ pool', pool.pushRun (.page i) (n - 1) = some pool' ∧
      Inv ps pool' (paint own i n .free) false ∧
      VacantOnly pool pool' own (paint own i n .free) ∧
      Settled pool' (paint own i n .free) := by
  have hpos := h.pos
  have hfit := h.fits
  obtain ⟨nx, pv, heq, hring, hback, hout⟩ := StlSlab.pushRun_spec h.inv.freeRing
    (h.notMem_freeHeads le_rfl (by omega)) (h.notMem_freeHeads (j := i + (n - 1)) (by omega)
      (by omega)) (by omega) freeHeads_valid
  have hfrozen : Frozen pool (pool.withLinks nx pv) :=
    ⟨⟨rfl, rfl, rfl, rfl, rfl, rfl⟩, rfl, rfl⟩
  have hs : Surgery ps pool (pool.withLinks nx pv) own (paint own i n .free) i n := by
    refine h.inv.repaint hpos hfit h.hole (by simp) hfrozen (fun _ _ => rfl) ?_
    intro r hr hrM hrin
    have ho := hout r hr (by
      rw [Set.mem_insert_iff]
      rintro (hri | hri)
      · exact hrin i le_rfl (by omega) hri
      · exact hrM hri)
    exact ⟨ho.1, ho.2 (hrin _ (by omega) (by omega))⟩
  refine ⟨_, heq, ?_, ⟨hfrozen, ?_, fun _ _ _ => rfl⟩, ?_⟩
  · refine h.inv.surgery hs hpos (h.inv.tiling.paint hs.edgeLo hs.edgeHi hfit) ?_ ?_ ?_
      (hring.congr_set (h.freeHeads_free hfrozen.last)) ?_ (by simp) ?_
    · intro j hj hjl hjs
      have hstep := h.inv.tiling.same (i := j) (j := i - 1) (by omega)
        ⟨by have := (h.inv.tiling.has (i := j) (by omega)).1; omega, by omega⟩
      have hleft := hl (by omega)
      rw [hstep] at hleft
      exact absurd hjl hleft
    · intro j h₁ h₂ _ hst
      rw [paint_inside ⟨h₁, h₂⟩] at hst ⊢
      simp only [Block.stop] at hst ⊢
      rw [paint_outside (by omega)]
      exact hr hst
    · intro j h₁ h₂
      rw [paint_inside ⟨h₁, h₂⟩]
      exact h.desc_pushed hback hout h₁ h₂
    · intro j h₁ h₂ _ hjh hj2
      rw [paint_inside ⟨h₁, h₂⟩] at hjh hj2 ⊢
      simp only at hjh hj2 ⊢
      rw [← hjh, show i + n - 1 = i + (n - 1) by omega]
      exact hback (by omega)
    · change pool.pfree = _
      rw [h.inv.pfree, count_paint_same]
      intro j h₁ h₂
      rw [h.hole j h₁ h₂]
      rfl
  · intro j
    by_cases hin : i ≤ j ∧ j < i + n
    · rw [paint_inside hin, h.hole j hin.1 hin.2]
      exact Or.inr ⟨rfl, rfl⟩
    · exact Or.inl (paint_outside (by omega))
  · intro j hj hjl
    by_cases hin : i ≤ j ∧ j < i + n
    · rw [paint_inside hin] at hjl
      simp at hjl
    · rw [paint_outside (by omega)] at hjl
      have ho := h.only j hj hjl
      omega

end Pending

def StlSlab.blankRun (pool : StlSlab) (i k : ℕ) : StlSlab :=
  { pool with
    slab := fun r => if r.within (i + 1) (k - 1) then 0
      else update pool.slab (.page i) (BitVec.ofNat 64 k) r
    next := fun r => if r.within (i + 1) (k - 1) then .null else pool.next r
    prev := fun r => if r.within (i + 1) (k - 1) then bareTag .page else pool.prev r
    pfree := pool.pfree + BitVec.ofNat 64 k }

namespace StlSlab

theorem frozen_blankRun (pool : StlSlab) (i k : ℕ) : Frozen pool (pool.blankRun i k) :=
  ⟨⟨rfl, rfl, rfl, rfl, rfl, rfl⟩, rfl, rfl⟩

theorem blankRun_head : (pool.blankRun i k).slab (.page i) = BitVec.ofNat 64 k ∧
    (pool.blankRun i k).next (.page i) = pool.next (.page i) ∧
    (pool.blankRun i k).prev (.page i) = pool.prev (.page i) := by
  simp [blankRun, PageRef.within]

theorem blankRun_inside {j : ℕ} (h : i < j ∧ j < i + k) : Blank (pool.blankRun i k) j := by
  have hw : (PageRef.page j).within (i + 1) (k - 1) = true := by
    rw [within_page]
    omega
  simp [Blank, blankRun, hw, bareTag]

theorem blankRun_outside {r : PageRef} (hk : 0 < k) (h : ∀ j, i ≤ j → j < i + k → r ≠ .page j) :
    (pool.blankRun i k).slab r = pool.slab r ∧ (pool.blankRun i k).next r = pool.next r ∧
      (pool.blankRun i k).prev r = pool.prev r := by
  have hi : r ≠ .page i := h i le_rfl (by omega)
  have hw := within_outside hk h
  simp [blankRun, hw, update_of_ne hi]

theorem stlSlabFreePages_eq {q q₁ q₂ q₃ : StlSlab} {page : PageRef} {t₁ t₂ : ℕ} (hk : 0 < k)
    (hfit : i + k ≤ pool.last)
    (hq : (if pool.next (.page i) = .null then some (pool.blankRun i k)
      else (pool.blankRun i k).unlinkPage (.page i)) = some q)
    (h₁ : q.joinNext i (k - 1) = some (q₁, t₁)) (h₂ : q₁.joinPrev i t₁ = some (q₂, page, t₂))
    (h₃ : q₂.pushRun page t₂ = some q₃) : pool.stlSlabFreePages i k = some q₃ := by
  let p : StlSlab := { pool with pfree := pool.pfree + BitVec.ofNat 64 k }
  have hv : p.valid (.page i) = true := valid_page (by change i < pool.last; omega)
  have hfill : ({ pool with
      slab := update pool.slab (.page i) (BitVec.ofNat 64 k)
      pfree := pool.pfree + BitVec.ofNat 64 k } : StlSlab).fillPages (i + 1) (k - 1) 0 =
        some (pool.blankRun i k) := by
    rw [fillPages, if_pos]
    · rfl
    · change _ ∨ _ ≤ pool.last
      omega
  have hset : p.setSlab (.page i) (BitVec.ofNat 64 k) = some { pool with
      slab := update pool.slab (.page i) (BitVec.ofNat 64 k)
      pfree := pool.pfree + BitVec.ofNat 64 k } := by
    simp [setSlab, hv, p]
  simp only [stlSlabFreePages, p] at hset ⊢
  rw [hset]
  simp only [Option.bind_eq_bind, Option.bind_some, hfill, blankRun_head.2.1]
  by_cases hn : pool.next (.page i) = .null
  · rw [if_pos hn] at hq
    simp [hn, Option.some.inj hq, h₁, h₂, h₃]
  · rw [if_neg hn] at hq
    simp [hn, hq, h₁, h₂, h₃]

end StlSlab

/-- Pages `[i, i + k)` have been turned into free pages. -/
structure RunGiven (ps : PageShift) (pool pool' : StlSlab) (own own' : PageMap) (i k : ℕ) :
    Prop where
  inv : Inv ps pool' own' false
  settled : Settled pool' own'
  frozen : Frozen pool pool'
  given : ∀ j, i ≤ j → j < i + k → (own' j).label = .free
  others : ∀ j < pool.last, j < i ∨ i + k ≤ j →
    own' j = own j ∨ (own j).label = .free ∧ (own' j).label = .free
  bits : ∀ j < pool.last, j < i ∨ i + k ≤ j → ∀ s, (own j).label = .chunks s →
    SameBits ps pool pool' j s

theorem Pending.finish (h : Pending ps pool own i k) :
    ∃ q₁ q₂ q₃ own' page t₁ t₂, pool.joinNext i (k - 1) = some (q₁, t₁) ∧
      q₁.joinPrev i t₁ = some (q₂, page, t₂) ∧ q₂.pushRun page t₂ = some q₃ ∧
      Inv ps q₃ own' false ∧ Settled q₃ own' ∧ VacantOnly pool q₃ own own' ∧
      ∀ j, i ≤ j → j < i + k → (own' j).label = .free := by
  have hpos := h.pos
  obtain ⟨q₁, own₁, m₁, e₁, hp₁, hv₁, hr₁⟩ := joinNext_spec (k - 1) h
  obtain ⟨q₂, own₂, h₀, m₂, e₂, hh, hp₂, hv₂, hr₂, hl₂⟩ :=
    joinPrev_spec (k - 1 + m₁) hp₁ hr₁
  obtain ⟨q₃, e₃, hI, hv₃, hs⟩ := hp₂.pushRun hl₂ hr₂
  rw [show m₂ + (k + m₁) - 1 = k - 1 + m₁ + m₂ by omega] at e₃
  refine ⟨q₁, q₂, q₃, _, _, _, _, e₁, e₂, e₃, hI, hs, (hv₁.trans hv₂).trans hv₃, ?_⟩
  intro j h₁ h₂
  rw [paint_inside (by omega)]

/-- The page map a hole was cut into keeps everything but the hole and its free neighbours. -/
theorem Pending.given {q q₃ : StlSlab} {own' : PageMap} (hset : Settled pool own)
    (hfrozen : Frozen pool q) (hslab : ∀ j, j < i ∨ i + k ≤ j → q.slab (.page j) = pool.slab (.page j))
    (hI : Inv ps q₃ own' false) (hs : Settled q₃ own')
    (hv : VacantOnly q q₃ (paint own i k .hole) own')
    (hfree : ∀ j, i ≤ j → j < i + k → (own' j).label = .free) :
    RunGiven ps pool q₃ own own' i k := by
  refine ⟨hI, hs, hfrozen.trans hv.frozen, hfree, ?_, ?_⟩
  · intro j hj hout
    rcases hv.blocks j with h | h
    · exact Or.inl (h.trans (paint_outside hout))
    · rw [paint_outside hout] at h
      have h₁ := hset j hj
      have h₂ := hs j (by rw [hv.frozen.last, hfrozen.last]; exact hj)
      refine Or.inr ⟨?_, ?_⟩
      · cases hl : (own j).label <;> simp_all [Use.isVacant]
      · cases hl : (own' j).label <;> simp_all [Use.isVacant]
  · intro j hj hout s hl
    refine (hfrozen.trans hv.frozen).sameBits ?_
    rw [hv.slab j (by rw [hfrozen.last]; exact hj), hslab j hout]
    rw [paint_outside hout, hl]
    rfl

/-- The free list does not notice that a busy run becomes a hole. -/
theorem freeHeads_hole {q : StlSlab} (hq : q.last = pool.last) (hpos : 0 < k)
    (hfit : i + k ≤ pool.last) (hown : ∀ j, i ≤ j → j < i + k → own j = ⟨i, k, .busy⟩)
    (r : PageRef) : r ∈ freeHeads pool own ↔ r ∈ freeHeads q (paint own i k .hole) := by
  refine pages_ext (freeHeads_page (by omega)) ?_ ?_ r
  · rw [← hq]
    exact freeHeads_page (by omega)
  · intro j hj
    rw [page_mem_freeHeads_paint (by omega)]
    split
    · next hin => simp [page_mem_freeHeads hj, hown j hin.1 hin.2]
    · rw [page_mem_freeHeads hj, page_mem_freeHeads (by omega)]

theorem Inv.blankBusy (hI : Inv ps pool own fresh) (hset : Settled pool own) (hi : i < pool.last)
    (hown : own i = ⟨i, k, .busy⟩) :
    Pending ps (pool.blankRun i k) (paint own i k .hole) i k ∧
      pool.next (.page i) = .null := by
  have hst := hI.tiling.stop_le hi
  have hk := hI.tiling.len_pos hi
  simp only [Block.stop, hown] at hst hk
  have hsame : ∀ j, i ≤ j → j < i + k → own j = ⟨i, k, .busy⟩ := by
    intro j h₁ h₂
    rw [← hown]
    exact hI.tiling.same hi (by rw [hown]; exact ⟨h₁, h₂⟩)
  have hfresh : fresh = false := by
    by_contra hf
    have hu := hI.untouched (by simpa using hf) i hi
    rw [hown] at hu
    simp at hu
  have hnull : pool.next (.page i) = .null := by
    have hd := hI.desc i hi
    rw [hown] at hd
    exact hd.2.1
  have hs : Surgery ps pool (pool.blankRun i k) own (paint own i k .hole) i k := by
    refine hI.repaint hk hst hsame (by simp) (StlSlab.frozen_blankRun pool i k) ?_ ?_
    · intro j hj
      exact (StlSlab.blankRun_outside hk (by simp; omega)).1
    · intro r _ _ hrin
      exact (StlSlab.blankRun_outside hk hrin).2
  have hlisted : ∀ r ∈ freeHeads pool own, ∀ j, i ≤ j → j < i + k → r ≠ .page j := by
    rintro r hr j h₁ h₂ rfl
    rw [page_mem_freeHeads (by omega), hsame j h₁ h₂] at hr
    simp at hr
  refine ⟨⟨?_, hk, hst, fun j h₁ h₂ => paint_inside ⟨h₁, h₂⟩, ?_⟩, hnull⟩
  · refine hI.surgery hs hk (hI.tiling.paint hs.edgeLo hs.edgeHi hst) ?_ ?_ ?_ ?_ ?_
      (by simp [hfresh]) ?_
    · intro j _ _ _
      rw [paint_inside (by omega)]
      simp
    · intro j h₁ h₂ hl
      rw [paint_inside ⟨h₁, h₂⟩] at hl
      simp at hl
    · intro j h₁ h₂
      rw [paint_inside ⟨h₁, h₂⟩]
      simp only [PageDesc]
      by_cases hj : j = i
      · rw [if_pos hj, hj]
        exact StlSlab.blankRun_head.1
      · rw [if_neg hj]
        exact StlSlab.blankRun_inside (by omega)
    · refine (hI.freeRing.frame ?_ ?_ ?_).congr_set (freeHeads_hole rfl hk hst hsame)
      · exact (StlSlab.blankRun_outside hk (by simp)).2.1
      · intro r hr
        exact (StlSlab.blankRun_outside hk (hlisted r hr)).2.1
      · intro r hr
        exact (StlSlab.blankRun_outside hk (hlisted r hr)).2.2
    · intro j h₁ h₂ hl
      rw [paint_inside ⟨h₁, h₂⟩] at hl
      simp at hl
    · change pool.pfree + _ = _
      rw [hI.pfree, count_paint_add _ hst rfl, BitVec.ofNat_add]
      intro j h₁ h₂
      rw [hsame j h₁ h₂]
      rfl
  · intro j hj hl
    by_cases hin : i ≤ j ∧ j < i + k
    · exact hin
    · rw [paint_outside (by omega)] at hl
      exact absurd hl (hset j hj)

theorem stlSlabFreePages_busy (hI : Inv ps pool own fresh) (hset : Settled pool own)
    (hi : i < pool.last) (hown : own i = ⟨i, k, .busy⟩) :
    ∃ pool' own', pool.stlSlabFreePages i k = some pool' ∧ RunGiven ps pool pool' own own' i k := by
  obtain ⟨hpend, hnull⟩ := hI.blankBusy hset hi hown
  obtain ⟨q₁, q₂, q₃, own', page, t₁, t₂, e₁, e₂, e₃, hI', hs', hv, hfree⟩ := hpend.finish
  refine ⟨q₃, own', ?_, Pending.given hset (StlSlab.frozen_blankRun pool i k) ?_ hI' hs' hv hfree⟩
  · exact StlSlab.stlSlabFreePages_eq hpend.pos hpend.fits (by rw [if_pos hnull]) e₁ e₂ e₃
  · intro j hj
    exact (StlSlab.blankRun_outside hpend.pos (by simp; omega)).1

theorem blankRun_one (pool : StlSlab) (i : ℕ) : pool.blankRun i 1 = { pool with
    slab := update pool.slab (.page i) 1
    pfree := pool.pfree + 1 } := by
  have hw : ∀ r : PageRef, r.within (i + 1) 0 = false := by
    intro r
    cases r with
    | page j =>
      simp only [PageRef.within, decide_eq_false_iff_not]
      omega
    | null => rfl
    | free => rfl
    | slot _ => rfl
  simp [StlSlab.blankRun, hw]

theorem Inv.blankChunks (hI : Inv ps pool own fresh) (hset : Settled pool own)
    (hi : i < pool.last) (hk : k < ps.val - 3) (hown : own i = ⟨i, 1, .chunks (k + 3)⟩)
    (hfull : ¬ Full ps pool i (k + 3)) :
    ∃ q, (pool.blankRun i 1).unlinkPage (.page i) = some q ∧ pool.next (.page i) ≠ .null ∧
      Frozen pool q ∧ (∀ j, j ≠ i → q.slab (.page j) = pool.slab (.page j)) ∧
      Pending ps q (paint own i 1 .hole) i 1 := by
  have hx : PageRef.page i ∈ listed ps pool own (k + 3) :=
    page_mem_listed.mpr ⟨hi, by rw [hown], hfull⟩
  have hring := hI.slotRing k hk
  have hnull : pool.next (.page i) ≠ .null := by
    obtain ⟨-, -, -, -, -, hnext, -⟩ := hring.neighbours hx
    rcases hnext with h | ⟨j, hj, -⟩
    · simp [h]
    · simp [hj]
  let q₀ : StlSlab := { pool with
    slab := update pool.slab (.page i) 1
    pfree := pool.pfree + 1 }
  have hv : ∀ r, r = .slot k ∨ r ∈ listed ps pool own (k + 3) → q₀.valid r = true := fun r hr =>
    @StlSlab.valid_congr pool q₀ rfl rfl r
      (listed_valid (by rw [hI.base.nslots]; exact hk) r hr)
  obtain ⟨nx, pv, hun, hring', hkeep⟩ := StlSlab.unlinkPage_spec q₀ hring hx hv
  have hfrozen : Frozen pool (q₀.withLinks nx pv) :=
    ⟨⟨rfl, rfl, rfl, rfl, rfl, rfl⟩, rfl, rfl⟩
  have hslab : ∀ j, j ≠ i → (q₀.withLinks nx pv).slab (.page j) = pool.slab (.page j) := by
    intro j hj
    exact update_of_ne (by simpa using hj) _ _
  refine ⟨q₀.withLinks nx pv, by rw [blankRun_one]; exact hun, hnull, hfrozen, hslab, ?_⟩
  · have hs : SlotStep ps pool (q₀.withLinks nx pv) own (paint own i 1 .hole) i k
        (.chunks (k + 3)) .hole := by
      refine ⟨hfrozen.toSameFrame, hi, hk, hown, paint_inside (by omega),
        fun j hj => paint_outside (by omega), by simp, ?_, hslab, ?_, ?_⟩
      · rintro s (h | h)
        · exact (Use.chunks.inj h).symm
        · simp at h
      · intro j _ hj s _
        exact hfrozen.sameBits (hslab j hj)
      · intro r hr hrM _
        exact hkeep r hr hrM
    refine ⟨hI.slotStep hs ?_ ?_ ?_, by omega, by change i + 1 ≤ pool.last; omega,
      fun j h₁ h₂ => paint_inside ⟨h₁, h₂⟩, ?_⟩
    · refine hring'.congr_set ?_
      intro r
      constructor
      · rintro ⟨⟨j, rfl, hj, hl, hf⟩, hne⟩
        have hji : j ≠ i := by
          rintro rfl
          exact hne rfl
        refine ⟨j, rfl, hj, by rw [paint_outside (by omega)]; exact hl, ?_⟩
        rwa [(hs.bitsOut j hj hji _ hl).full_iff]
      · rintro ⟨j, rfl, hj, hl, hf⟩
        by_cases hji : j = i
        · rw [paint_inside (by omega)] at hl
          simp at hl
        · rw [paint_outside (by omega)] at hl
          refine ⟨⟨j, rfl, hj, hl, ?_⟩, by simpa using hji⟩
          rwa [(hs.bitsOut j hj hji _ hl).full_iff] at hf
    · rw [hs.after]
      simp only [PageDesc, if_true]
      exact update_self _ _ _
    · change pool.pfree + _ = _
      rw [hI.pfree, count_paint_add _ hi rfl, BitVec.ofNat_add]
      · rfl
      · intro j h₁ h₂
        rw [show j = i by omega, hown]
        rfl
    · intro j hj hl
      by_cases hin : i ≤ j ∧ j < i + 1
      · exact hin
      · rw [paint_outside (by omega)] at hl
        exact absurd hl (hset j hj)

theorem stlSlabFreePages_chunks (hI : Inv ps pool own fresh) (hset : Settled pool own)
    (hi : i < pool.last) (hk : k < ps.val - 3) (hown : own i = ⟨i, 1, .chunks (k + 3)⟩)
    (hfull : ¬ Full ps pool i (k + 3)) :
    ∃ pool' own', pool.stlSlabFreePages i 1 = some pool' ∧ RunGiven ps pool pool' own own' i 1 := by
  obtain ⟨q, hun, hnull, hfrozen, hslab, hpend⟩ := hI.blankChunks hset hi hk hown hfull
  obtain ⟨q₁, q₂, q₃, own', page, t₁, t₂, e₁, e₂, e₃, hI', hs', hv, hfree⟩ := hpend.finish
  refine ⟨q₃, own', ?_, Pending.given hset hfrozen ?_ hI' hs' hv hfree⟩
  · exact StlSlab.stlSlabFreePages_eq (by omega) hi (by rw [if_neg hnull]; exact hun) e₁ e₂ e₃
  · intro j hj
    exact hslab j (by omega)

end KirinFS.Slab
