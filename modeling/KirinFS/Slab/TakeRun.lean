import KirinFS.Slab.Surgery

/-! # Taking a page run off the free list -/

namespace KirinFS.Slab
open Foundation.Tiling Foundation.IntrusiveRing Function

variable {ps : PageShift} {pool : StlSlab} {own : PageMap} {fresh : Bool} {i k : ℕ}

/-- The page map after the first `k` pages of the free run at `i` have been taken. -/
def cutRun (own : PageMap) (i k : ℕ) : PageMap :=
  paint (paint own i k .busy) (i + k) ((own i).len - k) .free

theorem cutRun_taken {j : ℕ} (h : i ≤ j ∧ j < i + k) : cutRun own i k j = ⟨i, k, .busy⟩ := by
  rw [cutRun, paint_outside (by omega), paint_inside h]

theorem cutRun_rest {j : ℕ} (h : i + k ≤ j ∧ j < i + (own i).len) :
    cutRun own i k j = ⟨i + k, (own i).len - k, .free⟩ :=
  paint_inside (by omega)

theorem cutRun_outside {j : ℕ} (hk : k ≤ (own i).len) (h : j < i ∨ i + (own i).len ≤ j) :
    cutRun own i k j = own j := by
  rw [cutRun, paint_outside (by omega), paint_outside (by omega)]

def StlSlab.markBusy (pool : StlSlab) (i k : ℕ) : StlSlab :=
  { pool with
    slab := fun r => if r.within (i + 1) (k - 1) then slabPageBusy
      else update pool.slab (.page i) (BitVec.ofNat 64 k ||| slabPageStart) r
    next := fun r => if r.within (i + 1) (k - 1) then .null
      else update pool.next (.page i) .null r
    prev := fun r => if r.within (i + 1) (k - 1) then bareTag .page
      else update pool.prev (.page i) (bareTag .page) r
    pfree := pool.pfree - BitVec.ofNat 64 k }

namespace StlSlab

theorem markBusy_inside {j : ℕ} (h : i ≤ j ∧ j < i + k) :
    (pool.markBusy i k).slab (.page j) =
        (if j = i then BitVec.ofNat 64 k ||| slabPageStart else slabPageBusy) ∧
      (pool.markBusy i k).next (.page j) = .null ∧
      (pool.markBusy i k).prev (.page j) = bareTag .page := by
  by_cases hj : j = i
  · subst hj
    simp [markBusy]
  · have hw : (PageRef.page j).within (i + 1) (k - 1) = true := by
      rw [within_page]
      omega
    simp [markBusy, hw, hj]

theorem markBusy_outside (pool : StlSlab) {r : PageRef}
    (h : ∀ j, i ≤ j → j < i + k → r ≠ .page j) (hk : 0 < k) :
    (pool.markBusy i k).slab r = pool.slab r ∧ (pool.markBusy i k).next r = pool.next r ∧
      (pool.markBusy i k).prev r = pool.prev r := by
  have hi : r ≠ .page i := h i le_rfl (by omega)
  have hw := within_outside hk h
  simp [markBusy, hw, update_of_ne hi]

theorem frozen_markBusy (pool : StlSlab) (i k : ℕ) : Frozen pool (pool.markBusy i k) :=
  ⟨⟨rfl, rfl, rfl, rfl, rfl, rfl⟩, rfl, rfl⟩

/-- The steps of `stl_slab_alloc_pages` after the run has left the list. -/
theorem mark_eq (pool : StlSlab) (hfit : i + k ≤ pool.last) (hk : 0 < k) :
    ((pool.setPage (.page i) (BitVec.ofNat 64 k ||| slabPageStart) .null
        (bareTag .page)).bind fun q =>
      ({ q with pfree := q.pfree - BitVec.ofNat 64 k } : StlSlab).fillPages (i + 1) (k - 1)
        slabPageBusy) = some (pool.markBusy i k) := by
  have hv : pool.valid (.page i) = true := valid_page (by omega)
  simp [setPage, hv, fillPages, markBusy]
  omega

end StlSlab

structure Cuttable (pool : StlSlab) (own : PageMap) (i k : ℕ) : Prop where
  lt : i < pool.last
  free : (own i).label = .free
  head : (own i).head = i
  pos : 0 < k
  le : k ≤ (own i).len

namespace Cuttable

theorem fits (hc : Cuttable pool own i k) (hI : Inv ps pool own fresh) :
    i + (own i).len ≤ pool.last := by
  have hst := hI.tiling.stop_le hc.lt
  rwa [Block.stop, hc.head] at hst

theorem same (hc : Cuttable pool own i k) (hI : Inv ps pool own fresh) {j : ℕ} (hlo : i ≤ j)
    (hhi : j < i + (own i).len) : own j = own i :=
  hI.tiling.same hc.lt ⟨by rw [hc.head]; exact hlo, by rw [Block.stop, hc.head]; exact hhi⟩

theorem listed (hc : Cuttable pool own i k) : .page i ∈ freeHeads pool own :=
  (page_mem_freeHeads hc.lt).mpr ⟨hc.free, hc.head⟩

end Cuttable

theorem freeHeads_cut (hI : Inv ps pool own fresh) (hc : Cuttable pool own i k)
    (r : PageRef) : r ∈ freeHeads pool (cutRun own i k) ↔
      k < (own i).len ∧ r = .page (i + k) ∨ r ∈ freeHeads pool own ∧ r ≠ .page i := by
  have hst := hc.fits hI
  have hpos := hc.pos
  have hle := hc.le
  have h0 : 0 < pool.last := by have := hc.lt; omega
  refine pages_ext (M := freeHeads pool (cutRun own i k))
    (N := {r | k < (own i).len ∧ r = .page (i + k) ∨ r ∈ freeHeads pool own ∧ r ≠ .page i})
    (freeHeads_page h0) ?_ ?_ r
  · rintro r (⟨h, rfl⟩ | ⟨h, -⟩)
    · exact ⟨_, by omega, rfl⟩
    · exact freeHeads_page h0 r h
  · intro j hj
    simp only [Set.mem_ofPred_eq, PageRef.page.injEq, ne_eq]
    rw [page_mem_freeHeads hj, page_mem_freeHeads hj]
    by_cases hin : i ≤ j ∧ j < i + k
    · rw [cutRun_taken hin, hc.same hI hin.1 (by omega)]
      simp only [reduceCtorEq, false_and, hc.free, hc.head, true_and, false_iff]
      omega
    · by_cases hrest : i + k ≤ j ∧ j < i + (own i).len
      · rw [cutRun_rest hrest, hc.same hI (by omega) hrest.2]
        simp only [true_and, hc.free, hc.head]
        omega
      · rw [cutRun_outside hle (by omega)]
        constructor
        · rintro h
          exact Or.inr ⟨h, by omega⟩
        · rintro (⟨h₁, h₂⟩ | h)
          · omega
          · exact h.1

/-- Cutting takes `k` pages out of the count of vacant ones. -/
theorem count_cut (hI : Inv ps pool own fresh) (hc : Cuttable pool own i k) :
    count (cutRun own i k) pool.last Use.isVacant + k = count own pool.last Use.isVacant := by
  have hst := hc.fits hI
  have hle := hc.le
  have hbusy : count (paint own i k .busy) pool.last Use.isVacant + k =
      count own pool.last Use.isVacant := by
    apply count_paint_sub _ (by omega) rfl
    intro j h₁ h₂
    rw [hc.same hI h₁ (by omega), hc.free]
    rfl
  have hrest : count (cutRun own i k) pool.last Use.isVacant =
      count (paint own i k .busy) pool.last Use.isVacant := by
    apply count_paint_same
    intro j h₁ h₂
    rw [paint_outside (by omega), hc.same hI (by omega) (by omega), hc.free]
  rw [hrest, hbusy]

/-- Pages `[i, i + k)` have been turned from free into one busy run. -/
structure RunTaken (ps : PageShift) (pool pool' : StlSlab) (own own' : PageMap) (i k : ℕ) :
    Prop where
  inv : Inv ps pool' own' false
  frozen : Frozen pool pool'
  fits : i + k ≤ pool.last
  wasFree : ∀ j, i ≤ j → j < i + k → (own j).label = .free
  taken : ∀ j, i ≤ j → j < i + k → own' j = ⟨i, k, .busy⟩
  others : ∀ j, j < i ∨ i + k ≤ j →
    own' j = own j ∨ (own j).label = .free ∧ (own' j).label = .free
  bits : ∀ j < pool.last, ∀ s, (own j).label = .chunks s → SameBits ps pool pool' j s

/-- The pool when `k` pages have left the run at `i` on the free list and are not marked yet. -/
structure CutOff (pool q : StlSlab) (own : PageMap) (i k : ℕ) : Prop where
  frozen : Frozen pool q
  pfree : q.pfree = pool.pfree
  ring : Ring q.next q.prev (backLink .page) .free (freeHeads pool (cutRun own i k))
  slab : ∀ r, r ≠ .page (i + k) → q.slab r = pool.slab r
  rest : if k < (own i).len then q.slab (.page (i + k)) = BitVec.ofNat 64 ((own i).len - k)
    else q.slab (.page (i + k)) = pool.slab (.page (i + k))
  back : k + 1 < (own i).len →
    q.prev (.page (i + (own i).len - 1)) = backLink .page (.page (i + k))
  links : ∀ r, r ≠ .free → r ∉ freeHeads pool own →
    (k < (own i).len → r ≠ .page (i + k)) → q.next r = pool.next r ∧
      ((k < (own i).len → r ≠ .page (i + (own i).len - 1)) → q.prev r = pool.prev r)

namespace CutOff
variable {q : StlSlab}

theorem slab_outside (hq : CutOff pool q own i k) (hc : Cuttable pool own i k) {j : ℕ}
    (hj : j < i ∨ i + (own i).len ≤ j) :
    (q.markBusy i k).slab (.page j) = pool.slab (.page j) := by
  have hle := hc.le
  rw [(StlSlab.markBusy_outside q (by simp; omega) hc.pos).1]
  by_cases hjk : j = i + k
  · have hrest := hq.rest
    rw [if_neg (by omega)] at hrest
    rw [hjk, hrest]
  · exact hq.slab _ (by simpa using hjk)

theorem surgery (hq : CutOff pool q own i k) (hc : Cuttable pool own i k)
    (hI : Inv ps pool own fresh) :
    Surgery ps pool (q.markBusy i k) own (cutRun own i k) i (own i).len where
  frozen := hq.frozen.trans (StlSlab.frozen_markBusy q i k)
  fits := hc.fits hI
  edgeLo := by
    have h := hI.tiling.edge_head hc.lt
    rwa [hc.head] at h
  edgeHi := by
    have h := hI.tiling.edge_stop hc.lt
    rwa [Block.stop, hc.head] at h
  outside := fun _ hj => cutRun_outside hc.le hj
  slabOut := fun _ hj => hq.slab_outside hc hj
  linksOut := by
    intro r hr hrM hrin
    have hpos := hc.pos
    have hle := hc.le
    have hm := StlSlab.markBusy_outside q (r := r) (i := i) (k := k)
      (fun j h₁ h₂ => hrin j h₁ (by omega)) hpos
    have ho := hq.links r hr hrM (fun h => hrin _ (by omega) (by omega))
    rw [hm.2.1, hm.2.2]
    exact ⟨ho.1, ho.2 fun h => hrin _ (by omega) (by omega)⟩
  noChunks := by
    intro j h₁ h₂ s
    rw [hc.same hI h₁ h₂, hc.free]
    refine ⟨by simp, ?_⟩
    by_cases hjk : j < i + k
    · rw [cutRun_taken ⟨h₁, hjk⟩]
      simp
    · rw [cutRun_rest ⟨by omega, h₂⟩]
      simp

/-- The descriptors of the taken pages and of the rest of the run. -/
theorem desc (hq : CutOff pool q own i k) (hc : Cuttable pool own i k)
    (hI : Inv ps pool own fresh) {j : ℕ} (h₁ : i ≤ j) (h₂ : j < i + (own i).len) :
    PageDesc ps (q.markBusy i k) (cutRun own i k j) j := by
  have hst := hc.fits hI
  have hpos := hc.pos
  by_cases hjk : j < i + k
  · rw [cutRun_taken ⟨h₁, hjk⟩]
    exact StlSlab.markBusy_inside ⟨h₁, hjk⟩
  · have hm := StlSlab.markBusy_outside q (r := .page j) (i := i) (k := k) (by simp; omega) hpos
    rw [cutRun_rest ⟨by omega, h₂⟩]
    simp only [PageDesc, Blank, hm.1, hm.2.1, hm.2.2]
    by_cases hji : j = i + k
    · have hrest := hq.rest
      rw [if_pos (by omega)] at hrest
      simp [hji, hrest]
    · have hold := hI.desc j (by omega)
      rw [hc.same hI h₁ h₂] at hold
      simp only [PageDesc, hc.free, hc.head] at hold
      rw [if_neg (by omega)] at hold
      have hnm : PageRef.page j ∉ freeHeads pool own := by
        rw [page_mem_freeHeads (by omega), hc.same hI h₁ h₂, hc.head]
        omega
      have ho := hq.links (.page j) (by simp) hnm (by simpa using fun _ => hji)
      rw [if_neg hji, hq.slab _ (by simpa using hji), ho.1]
      refine ⟨hold.1, hold.2.1, ?_⟩
      by_cases hjl : j = i + (own i).len - 1
      · rw [hjl, hq.back (by omega)]
        rfl
      · rw [ho.2 (by simpa using fun _ => hjl)]
        exact hold.2.2

/-- Marking the taken pages does not write to the list. -/
theorem marked_ring (hq : CutOff pool q own i k) (hc : Cuttable pool own i k)
    (hI : Inv ps pool own fresh) :
    Ring (q.markBusy i k).next (q.markBusy i k).prev (backLink .page) .free
      (freeHeads (q.markBusy i k) (cutRun own i k)) := by
  have hst := hc.fits hI
  have hle := hc.le
  have hlisted : ∀ r ∈ freeHeads pool (cutRun own i k), ∀ j, i ≤ j → j < i + k → r ≠ .page j := by
    rintro r hr j h₁ h₂ rfl
    rw [page_mem_freeHeads (by omega), cutRun_taken ⟨h₁, h₂⟩] at hr
    simp at hr
  refine (hq.ring.frame ?_ ?_ ?_).congr_set ?_
  · exact (StlSlab.markBusy_outside q (by simp) hc.pos).2.1
  · intro r hr
    exact (StlSlab.markBusy_outside q (hlisted r hr) hc.pos).2.1
  · intro r hr
    exact (StlSlab.markBusy_outside q (hlisted r hr) hc.pos).2.2
  · intro r
    simp only [freeHeads, (hq.frozen.trans (StlSlab.frozen_markBusy q i k)).last]

/-- Marking a run that has been cut out of the list keeps the invariant. -/
theorem inv (hq : CutOff pool q own i k) (hc : Cuttable pool own i k)
    (hI : Inv ps pool own fresh) : Inv ps (q.markBusy i k) (cutRun own i k) false := by
  have hst := hc.fits hI
  have hpos := hc.pos
  have hle := hc.le
  have hsur := hq.surgery hc hI
  refine hI.surgery hsur (by omega) ?_ ?_ ?_ (fun j h₁ h₂ => hq.desc hc hI h₁ h₂)
    (hq.marked_ring hc hI) ?_ ?_ ?_
  · exact hI.tiling.cut hsur.edgeLo hsur.edgeHi hst hle
  · intro j hj hjl hjs
    rw [cutRun_taken ⟨le_rfl, by omega⟩]
    simp
  · intro j h₁ h₂ hjl hjs
    by_cases hjk : j < i + k
    · rw [cutRun_taken ⟨h₁, hjk⟩] at hjl
      simp at hjl
    · rw [cutRun_rest ⟨by omega, h₂⟩] at hjs ⊢
      simp only [Block.stop] at hjs ⊢
      have hgap := hI.gap i hc.lt hc.free (by simp only [Block.stop, hc.head]; omega)
      simp only [Block.stop, hc.head] at hgap
      rw [cutRun_outside hle (by omega), show i + k + ((own i).len - k) = i + (own i).len by omega]
      exact hgap
  · intro j h₁ h₂ hjl hjh hj2
    by_cases hjk : j < i + k
    · rw [cutRun_taken ⟨h₁, hjk⟩] at hjl
      simp at hjl
    · rw [cutRun_rest ⟨by omega, h₂⟩] at hjh hj2 ⊢
      simp only at hjh hj2 ⊢
      rw [(StlSlab.markBusy_outside q (by simp; omega) hpos).2.2, ← hjh,
        show i + k + ((own i).len - k) - 1 = i + (own i).len - 1 by omega]
      exact hq.back (by omega)
  · intro hf
    have hh := hc.head
    have hu := hI.untouched hf i hc.lt
    rw [hu] at hh ⊢
    exact ⟨hh.symm, rfl⟩
  · change q.pfree - BitVec.ofNat 64 k = _
    rw [hq.pfree, hI.pfree, ← count_cut hI hc, BitVec.ofNat_add]
    exact BitVec.add_sub_cancel _ _

theorem taken (hq : CutOff pool q own i k) (hc : Cuttable pool own i k)
    (hI : Inv ps pool own fresh) :
    RunTaken ps pool (q.markBusy i k) own (cutRun own i k) i k where
  inv := hq.inv hc hI
  frozen := (hq.surgery hc hI).frozen
  fits := by
    have hst := hc.fits hI
    have hle := hc.le
    omega
  wasFree := by
    intro j h₁ h₂
    have hle := hc.le
    rw [hc.same hI h₁ (by omega), hc.free]
  taken := fun _ h₁ h₂ => cutRun_taken ⟨h₁, h₂⟩
  others := by
    intro j hj
    by_cases hjn : j < i ∨ i + (own i).len ≤ j
    · exact Or.inl (cutRun_outside hc.le hjn)
    · rw [cutRun_rest ⟨by omega, by omega⟩, hc.same (j := j) hI (by omega) (by omega)]
      exact Or.inr ⟨hc.free, rfl⟩
  bits := by
    intro j hj s hjs
    by_cases hjn : j < i ∨ i + (own i).len ≤ j
    · exact (hq.surgery hc hI).frozen.sameBits (hq.slab_outside hc hjn)
    · rw [hc.same hI (by omega) (by omega), hc.free] at hjs
      simp at hjs

end CutOff

theorem toNat_ofNat_len {n : ℕ} (h : n < 2 ^ 60) : (BitVec.ofNat 64 n).toNat = n := by
  rw [BitVec.toNat_ofNat]
  exact Nat.mod_eq_of_lt (by omega)

theorem Inv.slab_head (hI : Inv ps pool own fresh) (hi : i < pool.last)
    (hl : (own i).label = .free) (hh : (own i).head = i) :
    (pool.slab (.page i)).toNat = (own i).len := by
  have hd := hI.desc i hi
  simp only [PageDesc, hl, hh, if_true] at hd
  have hst := hI.tiling.stop_le hi
  have hb := hI.base.bound
  simp only [Block.stop] at hst
  rw [hd, toNat_ofNat_len (by omega)]

namespace StlSlab

theorem splitRun_taken (hI : Inv ps pool own fresh) (hc : Cuttable pool own i k)
    (hkl : k < (own i).len) :
    ∃ q, pool.splitRun i k = some q ∧ q.last = pool.last ∧
      RunTaken ps pool (q.markBusy i k) own (cutRun own i k) i k := by
  have hst := hc.fits hI
  have hpos := hc.pos
  have hnot : ∀ j, i < j → j < i + (own i).len → .page j ∉ freeHeads pool own := by
    intro j h₁ h₂
    rw [page_mem_freeHeads (by omega), hc.same hI h₁.le h₂, hc.head]
    omega
  obtain ⟨n, p, heq, hring, hback, hout⟩ := splitRun_spec hI.freeRing hc.listed
    (hI.slab_head hc.lt hc.free hc.head) hkl hst (hnot _ (by omega) (by omega))
    (hnot _ (by omega) (by omega)) freeHeads_valid
  refine ⟨_, heq, rfl, CutOff.taken ?_ hc hI⟩
  refine ⟨⟨⟨rfl, rfl, rfl, rfl, rfl, rfl⟩, rfl, rfl⟩, rfl, ?_, ?_, ?_, hback, ?_⟩
  · refine hring.congr_set ?_
    intro r
    rw [freeHeads_cut hI hc]
    simp [hkl]
  · intro r hr
    exact update_of_ne hr _ _
  · rw [if_pos hkl]
    exact update_self _ _ _
  · intro r hr hrM hrk
    have ho := hout r hr hrM (hrk hkl)
    exact ⟨ho.1, fun h => ho.2 (h hkl)⟩

/-- A run of exactly the requested length leaves the list. -/
theorem unlinkPage_taken (hI : Inv ps pool own fresh) (hc : Cuttable pool own i k)
    (hkl : k = (own i).len) :
    ∃ q, pool.unlinkPage (.page i) = some q ∧ q.last = pool.last ∧
      RunTaken ps pool (q.markBusy i k) own (cutRun own i k) i k := by
  obtain ⟨n, p, heq, hring, hout⟩ := unlinkPage_spec pool hI.freeRing hc.listed freeHeads_valid
  refine ⟨_, heq, rfl, CutOff.taken ?_ hc hI⟩
  refine ⟨⟨⟨rfl, rfl, rfl, rfl, rfl, rfl⟩, rfl, rfl⟩, rfl, ?_, fun _ _ => rfl, ?_, by omega, ?_⟩
  · refine hring.congr_set ?_
    intro r
    rw [freeHeads_cut hI hc]
    simp [hkl]
  · rw [if_neg (by omega)]
    rfl
  · intro r hr hrM _
    have ho := hout r hr hrM
    exact ⟨ho.1, fun _ => ho.2⟩

/-- `stl_slab_alloc_pages` takes a run, or every free run is too short. -/
theorem stlSlabAllocPages_spec (hI : Inv ps pool own fresh) (hk : 0 < k) :
    (pool.stlSlabAllocPages k = some (pool, .null) ∧
        ∀ i < pool.last, (own i).label = .free → (own i).len < k) ∨
      ∃ i pool' own', pool.stlSlabAllocPages k = some (pool', .page i) ∧
        RunTaken ps pool pool' own own' i k := by
  have hsearch := searchRun_spec (k := k) (pool.last + 2) hI.freeRing
    (by omega : max pool.last 1 < _) le_rfl (fun r hr => freeHeads_lt hr)
  rcases hsearch with ⟨heq, hshort⟩ | ⟨r, hr, heq, hlong⟩
  · refine Or.inl ⟨by simp [stlSlabAllocPages, heq], ?_⟩
    intro i hi hl
    have hhead := hI.tiling.own_head hi
    have hi' := hI.tiling.head_lt hi
    have hl' : (own (own i).head).label = .free := by rw [hhead, hl]
    have hlt := hshort _ ((page_mem_freeHeads hi').mpr ⟨hl', by rw [hhead]⟩)
    rwa [hI.slab_head hi' hl' (by rw [hhead]), hhead] at hlt
  · obtain ⟨i, rfl, ⟨hi, hl, hh⟩ | ⟨h0, rfl⟩⟩ := hr
    · have hlen := hI.slab_head hi hl hh
      have hc : Cuttable pool own i k := ⟨hi, hl, hh, hk, by omega⟩
      have hst := hc.fits hI
      by_cases hkl : k < (own i).len
      · obtain ⟨q, hq, hql, htaken⟩ := splitRun_taken hI hc hkl
        have hmark := mark_eq q (by omega : i + k ≤ _) hk
        refine Or.inr ⟨i, _, _, ?_, htaken⟩
        simp only [Option.bind_eq_some_iff] at hmark
        obtain ⟨q', hset, hfill⟩ := hmark
        simp [stlSlabAllocPages, heq, hlen, hkl, hq, hset, hfill]
      · obtain ⟨q, hq, hql, htaken⟩ := unlinkPage_taken hI hc (by omega)
        have hmark := mark_eq q (by omega : i + k ≤ _) hk
        refine Or.inr ⟨i, _, _, ?_, htaken⟩
        simp only [Option.bind_eq_some_iff] at hmark
        obtain ⟨q', hset, hfill⟩ := hmark
        simp [stlSlabAllocPages, heq, hlen, hkl, hq, hset, hfill]
    · rw [hI.void h0] at hlong
      simp at hlong
      omega

end StlSlab

end KirinFS.Slab
