import KirinFS.Slab.TakeRun

/-! # Coalescing a released block with its neighbours

While `stl_slab_free_pages` runs, the block it returns is on no list: it is the
only hole of the page map. Both joins let the hole swallow a free neighbour.
-/

namespace KirinFS.Slab
open Foundation.Tiling Foundation.IntrusiveRing Function

variable {ps : PageShift} {pool pool' : StlSlab} {own own' : PageMap} {fresh : Bool}
  {i n : ℕ}

def Settled (pool : StlSlab) (own : PageMap) : Prop :=
  ∀ j < pool.last, (own j).label ≠ .hole

theorem Settled.frame (h : Settled pool own) (hf : SameFrame pool pool') : Settled pool' own := by
  intro j hj
  rw [hf.last] at hj
  exact h j hj

/-- The hole `[i, i + n)` is the only block on no list. -/
structure Pending (ps : PageShift) (pool : StlSlab) (own : PageMap) (i n : ℕ) : Prop where
  inv : Inv ps pool own false
  pos : 0 < n
  fits : i + n ≤ pool.last
  hole : ∀ j, i ≤ j → j < i + n → own j = ⟨i, n, .hole⟩
  only : ∀ j < pool.last, (own j).label = .hole → i ≤ j ∧ j < i + n

structure VacantOnly (pool pool' : StlSlab) (own own' : PageMap) : Prop where
  frozen : Frozen pool pool'
  blocks : ∀ j, own' j = own j ∨ (own j).label.isVacant ∧ (own' j).label.isVacant
  slab : ∀ j < pool.last, (own j).label.isVacant = false →
    pool'.slab (.page j) = pool.slab (.page j)

theorem VacantOnly.refl (pool : StlSlab) (own : PageMap) : VacantOnly pool pool own own :=
  ⟨.refl pool, fun _ => Or.inl rfl, fun _ _ _ => rfl⟩

theorem VacantOnly.trans {q : StlSlab} {own'' : PageMap} (h : VacantOnly pool pool' own own')
    (h' : VacantOnly pool' q own' own'') : VacantOnly pool q own own'' := by
  refine ⟨h.frozen.trans h'.frozen, ?_, ?_⟩
  · intro j
    rcases h.blocks j with h₁ | h₁ <;> rcases h'.blocks j with h₂ | h₂
    · exact Or.inl (h₂.trans h₁)
    · rw [h₁] at h₂
      exact Or.inr h₂
    · rw [h₂]
      exact Or.inr h₁
    · exact Or.inr ⟨h₁.1, h₂.2⟩
  · intro j hj hv
    have hv' : (own' j).label.isVacant = false := by
      rcases h.blocks j with h₁ | h₁
      · rw [h₁, hv]
      · rw [h₁.1] at hv
        exact absurd hv (by simp)
    rw [h'.slab j (by rw [h.frozen.last]; exact hj) hv', h.slab j hj hv]

/-- Two adjacent vacant blocks become one hole at the head of the first. -/
structure Merge (ps : PageShift) (pool pool' : StlSlab) (own : PageMap) (lo a b x : ℕ) :
    Prop where
  inv : Inv ps pool own false
  posA : 0 < a
  posB : 0 < b
  fits : lo + a + b ≤ pool.last
  side : x = lo ∨ x = lo + a
  first : ∃ l, Use.isVacant l ∧ (x = lo ↔ l = .free) ∧
    ∀ j, lo ≤ j → j < lo + a → own j = ⟨lo, a, l⟩
  second : ∃ l, Use.isVacant l ∧ (x = lo + a ↔ l = .free) ∧
    ∀ j, lo + a ≤ j → j < lo + a + b → own j = ⟨lo + a, b, l⟩
  frozen : Frozen pool pool'
  pfree : pool'.pfree = pool.pfree
  head : pool'.slab (.page lo) = BitVec.ofNat 64 (a + b)
  seam : Blank pool' (lo + a)
  slabOut : ∀ j, j ≠ lo → j ≠ lo + a → pool'.slab (.page j) = pool.slab (.page j)
  linksOut : ∀ r, r ≠ .free → r ∉ freeHeads pool own → r ≠ .page (lo + a) →
    pool'.next r = pool.next r ∧ pool'.prev r = pool.prev r
  ring : Ring pool'.next pool'.prev (backLink .page) .free (freeHeads pool own \ {.page x})

namespace Merge
variable {lo a b x : ℕ}

theorem vacant (h : Merge ps pool pool' own lo a b x) {j : ℕ} (h₁ : lo ≤ j)
    (h₂ : j < lo + (a + b)) : (own j).label.isVacant = true := by
  obtain ⟨l, hl, -, hown⟩ := h.first
  obtain ⟨m, hm, -, hown'⟩ := h.second
  by_cases hj : j < lo + a
  · rw [hown j h₁ hj]
    exact hl
  · rw [hown' j (by omega) (by omega)]
    exact hm

/-- Inside the two blocks only the run that leaves the list is a list member. -/
theorem mem_freeHeads (h : Merge ps pool pool' own lo a b x) {j : ℕ} (h₁ : lo ≤ j)
    (h₂ : j < lo + (a + b)) : .page j ∈ freeHeads pool own → j = x := by
  have hfit := h.fits
  obtain ⟨l, -, hxl, hown⟩ := h.first
  obtain ⟨m, -, hxm, hown'⟩ := h.second
  rw [page_mem_freeHeads (by omega)]
  rintro ⟨hf, hh⟩
  by_cases hj : j < lo + a
  · rw [hown j h₁ hj] at hf hh
    rw [hxl.mpr hf]
    exact hh.symm
  · rw [hown' j (by omega) (by omega)] at hf hh
    rw [hxm.mpr hf]
    exact hh.symm

theorem blank (h : Merge ps pool pool' own lo a b x) {j : ℕ} (h₁ : lo ≤ j)
    (h₂ : j < lo + (a + b)) (hj : j ≠ lo) (hja : j ≠ lo + a) : Blank pool j := by
  have hfit := h.fits
  have hd := h.inv.desc j (by omega)
  obtain ⟨l, hl, -, hown⟩ := h.first
  obtain ⟨m, hm, -, hown'⟩ := h.second
  by_cases hlt : j < lo + a
  · rw [hown j h₁ hlt] at hd
    cases l <;> simp_all [PageDesc, Use.isVacant]
  · rw [hown' j (by omega) (by omega)] at hd
    cases m <;> simp_all [PageDesc, Use.isVacant]

theorem surgery (h : Merge ps pool pool' own lo a b x) :
    Surgery ps pool pool' own (paint own lo (a + b) .hole) lo (a + b) := by
  have hfit := h.fits
  have ha := h.posA
  have hb := h.posB
  obtain ⟨l, -, -, hown⟩ := h.first
  obtain ⟨m, -, -, hown'⟩ := h.second
  have hlo := h.inv.tiling.edge_head (i := lo) (by omega)
  have hhi := h.inv.tiling.edge_stop (i := lo + a) (by omega)
  rw [hown lo le_rfl (by omega)] at hlo
  rw [hown' (lo + a) le_rfl (by omega), Block.stop, Nat.add_assoc] at hhi
  refine ⟨h.frozen, by omega, hlo, hhi, fun j hj => paint_outside hj, ?_, ?_, ?_⟩
  · intro j hj
    exact h.slabOut j (by omega) (by omega)
  · intro r hr hrM hrin
    exact h.linksOut r hr hrM (hrin _ (by omega) (by omega))
  · intro j h₁ h₂ s
    have hv := h.vacant h₁ h₂
    rw [paint_inside ⟨h₁, h₂⟩]
    refine ⟨?_, by simp⟩
    intro hl
    rw [hl] at hv
    exact absurd hv (by simp [Use.isVacant])

/-- Behind the two heads no page of the blocks is a list member. -/
theorem notMem_freeHeads (h : Merge ps pool pool' own lo a b x) {j : ℕ} (h₁ : lo ≤ j)
    (h₂ : j < lo + (a + b)) (hj : j ≠ lo) (hja : j ≠ lo + a) : .page j ∉ freeHeads pool own := by
  intro hm
  have hx := h.mem_freeHeads h₁ h₂ hm
  have hside := h.side
  omega

theorem desc (h : Merge ps pool pool' own lo a b x) {j : ℕ} (h₁ : lo ≤ j)
    (h₂ : j < lo + (a + b)) : PageDesc ps pool' ⟨lo, a + b, .hole⟩ j := by
  simp only [PageDesc]
  by_cases hj : j = lo
  · rw [if_pos hj, hj]
    exact h.head
  · rw [if_neg hj]
    by_cases hja : j = lo + a
    · rw [hja]
      exact h.seam
    · have hbl := h.blank h₁ h₂ hj hja
      have hk := h.linksOut _ (by simp) (h.notMem_freeHeads h₁ h₂ hj hja) (by simpa using hja)
      unfold Blank at hbl ⊢
      rw [h.slabOut j hj hja, hk.1, hk.2]
      exact hbl

/-- The merged hole heads no run, and `x` has left the list. -/
theorem freeHeads_eq (h : Merge ps pool pool' own lo a b x) (r : PageRef) :
    r ∈ freeHeads pool own \ {.page x} ↔ r ∈ freeHeads pool' (paint own lo (a + b) .hole) := by
  have hfit := h.fits
  have hb := h.posB
  have hside := h.side
  have hlast := h.frozen.last
  refine pages_ext (m := pool.last) ?_ ?_ ?_ r
  · rintro r ⟨hr, -⟩
    exact freeHeads_page (by omega) r hr
  · rw [← hlast]
    exact freeHeads_page (by omega)
  · intro j hj
    rw [page_mem_freeHeads_paint (by omega), Set.mem_sdiff, Set.mem_singleton_iff,
      PageRef.page.injEq]
    split
    · next hin =>
      constructor
      · rintro ⟨hm, hx⟩
        exact absurd (h.mem_freeHeads hin.1 hin.2 hm) hx
      · rintro ⟨hl, -⟩
        cases hl
    · next hout =>
      rw [page_mem_freeHeads hj, page_mem_freeHeads (by omega)]
      exact and_iff_left (by omega)

theorem inv_merged (h : Merge ps pool pool' own lo a b x) :
    Inv ps pool' (paint own lo (a + b) .hole) false := by
  have hb := h.posB
  have hs := h.surgery
  refine h.inv.surgery hs (by omega) (h.inv.tiling.paint hs.edgeLo hs.edgeHi hs.fits) ?_ ?_ ?_
    (h.ring.congr_set h.freeHeads_eq) ?_ (by simp) ?_
  · intro j _ _ _
    rw [paint_inside (by omega)]
    simp
  · intro j h₁ h₂ hl
    rw [paint_inside ⟨h₁, h₂⟩] at hl
    simp at hl
  · intro j h₁ h₂
    rw [paint_inside ⟨h₁, h₂⟩]
    exact h.desc h₁ h₂
  · intro j h₁ h₂ hl
    rw [paint_inside ⟨h₁, h₂⟩] at hl
    simp at hl
  · rw [h.pfree, h.inv.pfree, count_paint_same]
    intro j h₁ h₂
    exact h.vacant h₁ h₂

theorem pending (h : Merge ps pool pool' own lo a b x)
    (honly : ∀ j < pool.last, (own j).label = .hole → lo ≤ j ∧ j < lo + (a + b)) :
    Pending ps pool' (paint own lo (a + b) .hole) lo (a + b) ∧
      VacantOnly pool pool' own (paint own lo (a + b) .hole) := by
  have hfit := h.fits
  have ha := h.posA
  have hlast := h.frozen.last
  refine ⟨⟨h.inv_merged, by omega, by omega, fun j h₁ h₂ => paint_inside ⟨h₁, h₂⟩, ?_⟩, h.frozen, ?_, ?_⟩
  · intro j hj hl
    by_cases hin : lo ≤ j ∧ j < lo + (a + b)
    · exact hin
    · rw [paint_outside (by omega)] at hl
      exact honly j (by omega) hl
  · intro j
    by_cases hin : lo ≤ j ∧ j < lo + (a + b)
    · rw [paint_inside hin]
      exact Or.inr ⟨h.vacant hin.1 hin.2, rfl⟩
    · exact Or.inl (paint_outside (by omega))
  · intro j hj hv
    refine h.surgery.slabOut j ?_
    by_contra hin
    rw [h.vacant (j := j) (by omega) (by omega)] at hv
    exact absurd hv (by simp)

end Merge

/-- The words of two neighbours that become one block, after the links `nx` and `pv` of the list. -/
def StlSlab.fused (pool : StlSlab) (lo a b : ℕ) (nx : PageRef → PageRef)
    (pv : PageRef → TaggedRef) : StlSlab :=
  { pool with
    slab := update (update pool.slab (.page lo) (BitVec.ofNat 64 a + BitVec.ofNat 64 b))
      (.page (lo + a)) slabPageFree
    next := update nx (.page (lo + a)) .null
    prev := update pv (.page (lo + a)) (bareTag .page) }

/-- Fusing two vacant blocks, one of which has left the list, merges them. -/
theorem Inv.fused_merge {lo a b x : ℕ} {l k : Use} {nx : PageRef → PageRef}
    {pv : PageRef → TaggedRef} (hI : Inv ps pool own false) (ha : 0 < a) (hb : 0 < b)
    (hfit : lo + a + b ≤ pool.last) (hside : x = lo ∨ x = lo + a)
    (hl : l.isVacant ∧ (x = lo ↔ l = .free)) (hk : k.isVacant ∧ (x = lo + a ↔ k = .free))
    (hown : ∀ j, lo ≤ j → j < lo + a → own j = ⟨lo, a, l⟩)
    (hown' : ∀ j, lo + a ≤ j → j < lo + a + b → own j = ⟨lo + a, b, k⟩)
    (hring : Ring nx pv (backLink .page) .free (freeHeads pool own \ {.page x}))
    (hkeep : ∀ r, r ≠ .free → r ∉ freeHeads pool own → nx r = pool.next r ∧ pv r = pool.prev r) :
    Merge ps pool (pool.fused lo a b nx pv) own lo a b x := by
  have hseam : ∀ r ∈ freeHeads pool own \ {.page x}, r ≠ .page (lo + a) := by
    rintro r ⟨hr, hrx⟩ rfl
    rw [page_mem_freeHeads (by omega), hown' _ le_rfl (by omega)] at hr
    exact hrx (congrArg _ (hk.2.mpr hr.1).symm)
  refine ⟨hI, ha, hb, hfit, hside, ⟨l, hl.1, hl.2, hown⟩, ⟨k, hk.1, hk.2, hown'⟩,
    ⟨⟨rfl, rfl, rfl, rfl, rfl, rfl⟩, rfl, rfl⟩, rfl, ?_, ?_, ?_, ?_, ?_⟩
  · rw [BitVec.ofNat_add, StlSlab.fused]
    simp only
    rw [update_of_ne (by simp; omega)]
    exact update_self _ _ _
  · simp [Blank, StlSlab.fused, slabPageFree, bareTag]
  · intro j hji hjn
    exact (update_of_ne (by simpa using hjn) _ _).trans (update_of_ne (by simpa using hji) _ _)
  · intro r hr hrM hrx
    have hrk := hkeep r hr hrM
    exact ⟨(update_of_ne hrx _ _).trans hrk.1, (update_of_ne hrx _ _).trans hrk.2⟩
  · have hfree : PageRef.free ≠ .page (lo + a) := by simp
    refine hring.frame ?_ ?_ ?_
    · exact update_of_ne hfree .null nx
    · intro r hr
      exact update_of_ne (hseam r hr) .null nx
    · intro r hr
      exact update_of_ne (hseam r hr) (bareTag .page) pv

/-- The block in front of, or behind, the hole is not free. -/
def BoundedLeft (own : PageMap) (i : ℕ) : Prop := 0 < i → (own (i - 1)).label ≠ .free
def BoundedRight (pool : StlSlab) (own : PageMap) (j : ℕ) : Prop :=
  j < pool.last → (own j).label ≠ .free

namespace Pending

theorem slab_eq (h : Pending ps pool own i n) : pool.slab (.page i) = BitVec.ofNat 64 n := by
  have hp := h.pos
  have hf := h.fits
  have hd := h.inv.desc i (by omega)
  rw [h.hole i le_rfl (by omega)] at hd
  simpa [PageDesc] using hd

theorem lt_bound (h : Pending ps pool own i n) : i + n < 2 ^ 60 :=
  lt_of_le_of_lt h.fits h.inv.base.bound

end Pending

theorem kind_ne_page (ps : PageShift) (s : ℕ) : kind ps s ≠ .page := by
  unfold kind
  split
  · simp
  · split <;> simp

theorem Inv.chunk_tag (hI : Inv ps pool own fresh) {j s : ℕ} (hj : j < pool.last)
    (hl : (own j).label = .chunks s) : (pool.prev (.page j)).tag = kind ps s := by
  have hd := hI.desc j hj
  simp only [PageDesc, hl] at hd
  obtain ⟨-, hs, -, -, hfull⟩ := hd
  by_cases hf : Full ps pool j s
  · rw [(hfull hf).2]
    rfl
  · obtain ⟨k, rfl⟩ : ∃ k, s = k + 3 := ⟨s - 3, by have h := hs.1; omega⟩
    have hx : PageRef.page j ∈ listed ps pool own (k + 3) := page_mem_listed.mpr ⟨hj, hl, hf⟩
    have hlt := hs.2
    obtain ⟨a, ha, -⟩ := (hI.slotRing k (by omega)).neighbours hx
    rw [ha]
    rfl

theorem Inv.page_tag (hI : Inv ps pool own fresh) {j : ℕ} (hj : j < pool.last)
    (hh : (own j).label ≠ .hole) (hl : ∀ s, (own j).label ≠ .chunks s) :
    (pool.prev (.page j)).tag = .page := by
  have hd := hI.desc j hj
  cases hlabel : (own j).label with
  | free =>
    simp only [PageDesc, hlabel] at hd
    by_cases hhead : j = (own j).head
    · obtain ⟨a, ha, -⟩ := hI.freeRing.neighbours
        ((page_mem_freeHeads hj).mpr ⟨hlabel, hhead.symm⟩)
      rw [ha]
      rfl
    · rw [if_neg hhead] at hd
      exact hd.2.2
  | hole => exact absurd hlabel hh
  | busy =>
    simp only [PageDesc, hlabel] at hd
    rw [hd.2.2]
    rfl
  | chunks s => exact absurd hlabel (hl s)

/-- A page descriptor reads as a free run exactly at the pages of free runs that are on the list. -/
theorem Inv.reads_free_iff (hI : Inv ps pool own fresh) {j : ℕ} (hj : j < pool.last)
    (hh : (own j).head = j) (hn : (own j).label ≠ .hole) :
    (pool.prev (.page j)).tag = .page ∧ pool.next (.page j) ≠ .null ↔
      (own j).label = .free := by
  have hd := hI.desc j hj
  cases hl : (own j).label with
  | free =>
    have hx : PageRef.page j ∈ freeHeads pool own := (page_mem_freeHeads hj).mpr ⟨hl, hh⟩
    obtain ⟨a, ha, -, -, -, hnext, -⟩ := hI.freeRing.neighbours hx
    simp only [iff_true, ha, backLink, true_and]
    rcases hnext with h | h
    · simp [h]
    · obtain ⟨m, -, hm⟩ := freeHeads_lt h
      simp [hm]
  | hole => exact absurd hl hn
  | busy =>
    simp only [PageDesc, hl] at hd
    simp [hd.2.1]
  | chunks s => simp [hI.chunk_tag hj hl, kind_ne_page]

namespace Pending
variable {m : ℕ}

theorem free_block (h : Pending ps pool own i n) {j : ℕ} (hj : j < pool.last)
    (hl : (own j).label = .free) : own (own j).head = own j ∧ 0 < (own j).len ∧
      (∀ t, (own j).head ≤ t → t < (own j).head + (own j).len → own t = own j) ∧
      (own j).head + (own j).len ≤ pool.last ∧
      pool.slab (.page (own j).head) = BitVec.ofNat 64 (own j).len := by
  have ht := h.inv.tiling
  have hd := h.inv.desc _ (ht.head_lt hj)
  rw [ht.own_head hj] at hd
  simp only [PageDesc, hl, if_true] at hd
  exact ⟨ht.own_head hj, ht.len_pos hj, fun t h₁ h₂ => ht.same hj ⟨h₁, h₂⟩, ht.stop_le hj, hd⟩

theorem joinNext_free (tail : ℕ) (h : Pending ps pool own i n) (hj : i + n < pool.last)
    (hl : (own (i + n)).label = .free) (hh : (own (i + n)).head = i + n)
    (hm : (own (i + n)).len = m) :
    ∃ pool', pool.joinNext i tail = some (pool', tail + m) ∧
      Merge ps pool pool' own i n m (i + n) := by
  have hpos := h.pos
  have hbound := h.lt_bound
  have hlast := h.inv.base.bound
  obtain ⟨-, hmpos, hsame, hfit, hslab⟩ := h.free_block hj hl
  rw [hh, hm] at hsame hfit hslab
  rw [hm] at hmpos
  have hlenN := toNat_ofNat_len (by omega : n < 2 ^ 60)
  have hlenM := toNat_ofNat_len (by omega : m < 2 ^ 60)
  have hown : own (i + n) = ⟨i + n, m, .free⟩ := by
    rw [← hl, ← hm]
    nth_rewrite 2 [← hh]
    rfl
  have hx : PageRef.page (i + n) ∈ freeHeads pool own := (page_mem_freeHeads hj).mpr ⟨hl, hh⟩
  have hreads := (h.inv.reads_free_iff hj hh (by rw [hl]; simp)).mpr hl
  let q : StlSlab := { pool with
    slab := update pool.slab (.page i) (BitVec.ofNat 64 n + BitVec.ofNat 64 m) }
  obtain ⟨nx, pv, hun, hring, hkeep⟩ := StlSlab.unlinkPage_spec q h.inv.freeRing hx
    freeHeads_valid
  have hvi : pool.valid (.page i) = true := StlSlab.valid_page (by omega)
  have hvj := StlSlab.valid_congr (q := q.withLinks nx pv) rfl rfl (StlSlab.valid_page hj)
  have hset : pool.setSlab (.page i) (BitVec.ofNat 64 n + BitVec.ofNat 64 m) = some q := by
    simp [StlSlab.setSlab, hvi, q]
  refine ⟨pool.fused i n m nx pv, ?_, ?_⟩
  · simp only [StlSlab.joinNext, h.slab_eq, hlenN, hslab, hlenM, hj, hreads, true_and,
      ne_eq, not_false_iff, if_true, hset, hun, Option.bind_eq_bind, Option.bind_some]
    simp only [StlSlab.setPage, hvj, if_true, Option.bind_some]
    rfl
  · exact h.inv.fused_merge hpos hmpos hfit (Or.inr rfl) ⟨rfl, by simp; omega⟩ ⟨rfl, by simp⟩
      h.hole (fun t h₁ h₂ => (hsame t h₁ h₂).trans hown) hring hkeep

end Pending

theorem joinNext_spec (tail : ℕ) (h : Pending ps pool own i n) :
    ∃ pool' own' m, pool.joinNext i tail = some (pool', tail + m) ∧
      Pending ps pool' own' i (n + m) ∧ VacantOnly pool pool' own own' ∧
      BoundedRight pool' own' (i + (n + m)) := by
  have hpos := h.pos
  have hfit := h.fits
  have hlen := toNat_ofNat_len (by have := h.lt_bound; omega : n < 2 ^ 60)
  by_cases hj : i + n < pool.last
  · have hedge := h.inv.tiling.edge_stop (i := i) (by omega)
    rw [h.hole i le_rfl (by omega)] at hedge
    have hhas := h.inv.tiling.has hj
    have hh : (own (i + n)).head = i + n := by
      have he := hedge _ hj
      simp only [Block.stop] at he hhas
      omega
    have hhole : (own (i + n)).label ≠ .hole := by
      intro hl
      have ho := h.only _ hj hl
      omega
    have hreads := h.inv.reads_free_iff hj hh hhole
    by_cases hl : (own (i + n)).label = .free
    · obtain ⟨pool', heq, hmerge⟩ := h.joinNext_free tail hj hl hh rfl
      obtain ⟨hpend, hvac⟩ := hmerge.pending (by
        intro j hjl hjh
        have ho := h.only j hjl hjh
        omega)
      refine ⟨pool', _, _, heq, hpend, hvac, ?_⟩
      intro hlt
      rw [hmerge.frozen.last] at hlt
      rw [paint_outside (by omega)]
      have hgap := h.inv.gap _ hj hl
      simp only [Block.stop, hh, Nat.add_assoc] at hgap
      exact hgap hlt
    · refine ⟨pool, own, 0, ?_, h, .refl pool own, fun _ => hl⟩
      have hcond : ¬ (i + n < pool.last ∧ (pool.prev (.page (i + n))).tag = .page ∧
          pool.next (.page (i + n)) ≠ .null) := fun hc => hl (hreads.mp hc.2)
      simp only [StlSlab.joinNext, h.slab_eq, hlen, if_neg hcond, Nat.add_zero]
  · refine ⟨pool, own, 0, ?_, h, .refl pool own, fun hlt => absurd hlt hj⟩
    have hcond : ¬ (i + n < pool.last ∧ (pool.prev (.page (i + n))).tag = .page ∧
        pool.next (.page (i + n)) ≠ .null) := fun hc => hj hc.1
    simp only [StlSlab.joinNext, h.slab_eq, hlen, if_neg hcond, Nat.add_zero]

namespace Pending
variable {m h₀ : ℕ}

/-- The back pointer leads from the last page of a free run to its head. -/
theorem joinHead_free (h : Pending ps pool own i n) (hi : 0 < i)
    (hl : (own (i - 1)).label = .free) : (pool.prev (.page (i - 1))).tag = .page ∧
      pool.joinHead i = .page (own (i - 1)).head := by
  have hfit := h.fits
  have hpos := h.pos
  have hj : i - 1 < pool.last := by omega
  have hlast := h.inv.base.bound
  obtain ⟨hown, hlen, hsame, hst, hslab⟩ := h.free_block hj hl
  have hhas := h.inv.tiling.has hj
  have hedge := h.inv.tiling.edge_head (i := i) (by omega) _ hj
  rw [h.hole i le_rfl (by omega)] at hedge
  simp only [Block.stop] at hhas hedge
  have hnot : (own (i - 1)).label ≠ .hole := by
    rw [hl]
    simp
  by_cases hh : (own (i - 1)).head = i - 1
  · have hreads := (h.inv.reads_free_iff hj hh hnot).mpr hl
    refine ⟨hreads.1, ?_⟩
    have hne : pool.slab (.page (i - 1)) ≠ slabPageFree := by
      intro h0
      rw [hh, h0] at hslab
      have hnat := congrArg BitVec.toNat hslab
      rw [toNat_ofNat_len (by omega)] at hnat
      exact hlen.ne hnat
    rw [StlSlab.joinHead, if_neg hne, hh]
  · have hd := h.inv.desc _ hj
    simp only [PageDesc, hl] at hd
    rw [if_neg (Ne.symm hh)] at hd
    refine ⟨hd.2.2, ?_⟩
    have hback := h.inv.backPtr rfl _ (h.inv.tiling.head_lt hj) (by rw [hown]; exact hl)
      (by rw [hown]) (by rw [hown]; omega)
    rw [hown, show (own (i - 1)).head + (own (i - 1)).len - 1 = i - 1 by omega] at hback
    have hz : pool.slab (.page (i - 1)) = slabPageFree := hd.1
    rw [StlSlab.joinHead, if_pos hz, hback]
    rfl

theorem joinPrev_free (tail : ℕ) (h : Pending ps pool own i n) (hi : 0 < i)
    (hl : (own (i - 1)).label = .free) (hh : (own (i - 1)).head = h₀)
    (hm : (own (i - 1)).len = m) :
    ∃ pool', pool.joinPrev i tail = some (pool', .page h₀, tail + m) ∧ h₀ + m = i ∧
      Merge ps pool pool' own h₀ m n h₀ := by
  have hpos := h.pos
  have hfit := h.fits
  have hlast := h.inv.base.bound
  have hj : i - 1 < pool.last := by omega
  have hhas := h.inv.tiling.has hj
  have hedge := h.inv.tiling.edge_head (i := i) (by omega) _ hj
  rw [h.hole i le_rfl (by omega)] at hedge
  obtain ⟨hown, hmpos, hsame, hst, hslab⟩ := h.free_block hj hl
  obtain ⟨htag, hhead⟩ := h.joinHead_free hi hl
  simp only [Block.stop, hh, hm] at hhas hedge hsame hst hslab hown hmpos hhead
  have hhi : h₀ + m = i := by omega
  have hlenM := toNat_ofNat_len (by omega : m < 2 ^ 60)
  have hblock : own (i - 1) = ⟨h₀, m, .free⟩ := by
    rw [← hl, ← hm, ← hh]
  have hx : PageRef.page h₀ ∈ freeHeads pool own := (page_mem_freeHeads (by omega)).mpr
    ⟨by rw [hown]; exact hl, by rw [hown]; exact hh⟩
  have hreads := (h.inv.reads_free_iff (j := h₀) (by omega) (by rw [hown]; exact hh)
    (by rw [hown, hl]; simp)).mpr (by rw [hown]; exact hl)
  let q : StlSlab := { pool with
    slab := update pool.slab (.page h₀) (BitVec.ofNat 64 m + BitVec.ofNat 64 n) }
  obtain ⟨nx, pv, hun, hring, hkeep⟩ := StlSlab.unlinkPage_spec q h.inv.freeRing hx
    freeHeads_valid
  have hv₀ : pool.valid (.page h₀) = true := StlSlab.valid_page (by omega)
  have hvi := StlSlab.valid_congr (q := q.withLinks nx pv) rfl rfl
    (StlSlab.valid_page (by omega : i < pool.last))
  have hset : pool.setSlab (.page h₀) (BitVec.ofNat 64 m + BitVec.ofNat 64 n) = some q := by
    simp [StlSlab.setSlab, hv₀, q]
  refine ⟨pool.fused h₀ m n nx pv, ?_, hhi, ?_⟩
  · simp only [StlSlab.joinPrev, hhead, h.slab_eq, hslab, hlenM, hi, htag, hv₀, hreads,
      ne_eq, not_false_iff, if_true, hset, hun, Option.bind_eq_bind, Option.bind_some, and_self]
    simp only [StlSlab.setPage, hvi, if_true, Option.bind_some, StlSlab.fused, hhi]
    rfl
  · refine h.inv.fused_merge (l := .free) (k := .hole) hmpos hpos (by omega) (Or.inl rfl)
      ⟨rfl, by simp⟩ ⟨rfl, by simp; omega⟩ ?_ (by rw [hhi]; exact h.hole) hring hkeep
    intro t h₁ h₂
    rw [hsame t h₁ h₂, hblock]

/-- A busy or chunk page in front of the hole is left alone. -/
theorem joinPrev_other (tail : ℕ) (h : Pending ps pool own i n) (hi : 0 < i)
    (hl : (own (i - 1)).label ≠ .free) :
    pool.joinPrev i tail = some (pool, .page i, tail) := by
  have hfit := h.fits
  have hpos := h.pos
  have hj : i - 1 < pool.last := by omega
  have hd := h.inv.desc _ hj
  cases hlab : (own (i - 1)).label with
  | free => exact absurd hlab hl
  | hole =>
    have ho := h.only _ hj hlab
    omega
  | busy =>
    simp only [PageDesc, hlab] at hd
    obtain ⟨hslab, hnext, -⟩ := hd
    have hne : pool.slab (.page (i - 1)) ≠ slabPageFree := by
      rw [hslab]
      intro h0
      have hbit := congrArg (fun w => BitVec.getLsbD w 63) h0
      revert hbit
      split <;> simp [slabPageStart, slabPageBusy, slabPageFree]
    simp [StlSlab.joinPrev, StlSlab.joinHead, hne, hnext, StlSlab.valid_page hj]
  | chunks s =>
    have htag := h.inv.chunk_tag hj hlab
    simp [StlSlab.joinPrev, htag, kind_ne_page]

end Pending

/-- The hole is swallowed by a free run in front of it. -/
theorem joinPrev_spec (tail : ℕ) (h : Pending ps pool own i n) (hr : BoundedRight pool own (i + n)) :
    ∃ pool' own' h₀ m, pool.joinPrev i tail = some (pool', .page h₀, tail + m) ∧ h₀ + m = i ∧
      Pending ps pool' own' h₀ (m + n) ∧ VacantOnly pool pool' own own' ∧
      BoundedRight pool' own' (h₀ + (m + n)) ∧ BoundedLeft own' h₀ := by
  have hfit := h.fits
  have hpos := h.pos
  by_cases hi : 0 < i
  · by_cases hl : (own (i - 1)).label = .free
    · obtain ⟨pool', heq, hhi, hmerge⟩ := h.joinPrev_free tail hi hl rfl rfl
      obtain ⟨hpend, hvac⟩ := hmerge.pending (by
        intro j hjl hjh
        have ho := h.only j hjl hjh
        omega)
      refine ⟨pool', _, _, _, heq, hhi, hpend, hvac, ?_, ?_⟩
      · intro hlt
        rw [hmerge.frozen.last] at hlt
        rw [paint_outside (by omega), ← Nat.add_assoc, hhi]
        exact hr (by omega)
      · intro h0
        rw [paint_outside (by omega)]
        intro hfree
        have hj : (own (i - 1)).head - 1 < pool.last := by omega
        have hhas := h.inv.tiling.has hj
        have hedge := h.inv.tiling.edge_head (i := i - 1) (by omega) _ hj
        have hstop : (own ((own (i - 1)).head - 1)).stop = (own (i - 1)).head := by omega
        have hgap := h.inv.gap _ hj hfree
        rw [hstop] at hgap
        refine hgap (by omega) ?_
        rw [h.inv.tiling.own_head (by omega)]
        exact hl
    · refine ⟨pool, own, i, 0, h.joinPrev_other tail hi hl, rfl, ?_, .refl pool own, ?_, fun _ => hl⟩
      · rwa [Nat.zero_add]
      · rwa [Nat.zero_add]
  · refine ⟨pool, own, i, 0, ?_, rfl, ?_, .refl pool own, ?_, fun h0 => absurd h0 hi⟩
    · simp [StlSlab.joinPrev, hi]
    · rwa [Nat.zero_add]
    · rwa [Nat.zero_add]

end KirinFS.Slab
