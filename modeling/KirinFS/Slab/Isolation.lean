import KirinFS.Slab.Session

/-! # Live allocations of a pool never overlap

The statement speaks about the words of the pool and the client's list only.
-/

namespace KirinFS.Slab
open Foundation.Tiling Foundation.IntrusiveRing Function

/-- The bytes an allocation of `size` bytes occupies: a power-of-two chunk or whole pages. -/
def granted (g : SlabGlobals) (pool : StlSlab) (size : ℕ) : ℕ :=
  if g.stlSlabMaxSize < size then StlSlab.pagesFor g size * g.stlPagesize
  else 2 ^ pool.classShift size

/-- The boundary an allocation of `size` bytes starts at. -/
def boundary (g : SlabGlobals) (pool : StlSlab) (size : ℕ) : ℕ :=
  if g.stlSlabMaxSize < size then g.stlPagesize else 2 ^ pool.classShift size

def Apart (a m b n : ℕ) : Prop := a + m ≤ b ∨ b + n ≤ a

/-- Every allowed call is defined and the live allocations are kept apart, from each other and
from the bitmaps in the small pages. -/
structure Isolated (g : SlabGlobals) (σ : Session) : Prop where
  defined : ∀ c, σ.Allows c → (σ.step g c).isSome
  apart : σ.live.Pairwise fun x y =>
    Apart x.1 (granted g σ.pool x.2) y.1 (granted g σ.pool y.2)
  inPages : ∀ x ∈ σ.live, σ.pool.start ≤ x.1 ∧
    x.1 + granted g σ.pool x.2 ≤ σ.pool.start + σ.pool.last * g.stlPagesize
  long : ∀ x ∈ σ.live, x.2 ≤ granted g σ.pool x.2
  aligned : ∀ x ∈ σ.live, boundary g σ.pool x.2 ∣ x.1
  bitmaps : ∀ x ∈ σ.live, ∀ i < σ.pool.last, (σ.pool.prev (.page i)).tag = .small →
    Apart x.1 (granted g σ.pool x.2) (σ.pool.pageAddr g i)
      ((g.stlPagesize >>> (σ.pool.slab (.page i) &&& slabShiftMask).toNat) / wordBits * 8)

variable {ps : PageShift} {pool : StlSlab} {own : PageMap} {fresh : Bool} {σ : Session}

theorem Grant.Serves.granted_eq {w : Grant} {n : ℕ} (hw : w.Serves ps pool n) :
    granted (geo ps) pool n = w.bytes ps := by
  cases w with
  | run i k => rw [granted, if_pos hw.1, Grant.bytes, hw.2]; rfl
  | chunk i s c => rw [granted, if_neg (not_lt.mpr hw.1), Grant.bytes, hw.2]

theorem Grant.Held.boundary_dvd (hG : Good ps pool own fresh) {w : Grant} {n : ℕ}
    (hw : w.Held ps pool own) (hs : w.Serves ps pool n) :
    boundary (geo ps) pool n ∣ w.addr ps pool := by
  have hpage := pageAddr_dvd hG.inv.base
  cases w with
  | run i k =>
    rw [boundary, if_pos hs.1]
    exact hpage i
  | chunk i s c =>
    rw [boundary, if_neg (not_lt.mpr hs.1), ← hs.2]
    have hc := (hG.inv.isClass hw.1 hw.2.1).2
    exact Nat.dvd_add ((Nat.pow_dvd_pow 2 hc.le).trans (hpage i)) (Nat.dvd_mul_left _ _)

/-- Only small chunk pages carry the kind of a small page. -/
theorem Inv.small_of_tag (hI : Inv ps pool own fresh) {i : ℕ} (hi : i < pool.last)
    (hh : (own i).label ≠ .hole) (ht : (pool.prev (.page i)).tag = .small) :
    ∃ s, (own i).label = .chunks s ∧ s < ps - 6 := by
  cases hl : (own i).label with
  | hole => exact absurd hl hh
  | chunks s =>
    rw [hI.chunk_tag hi hl, kind] at ht
    refine ⟨s, rfl, ?_⟩
    by_contra hs
    rw [if_neg hs] at ht
    split at ht <;> simp at ht
  | _ =>
    rw [hI.page_tag hi hh (by simp [hl])] at ht
    simp at ht

/-- The bitmap of a small page is not part of any grant. -/
theorem Grant.Held.bitmap_apart (hG : Good ps pool own fresh) {w : Grant}
    (hw : w.Held ps pool own) {i : ℕ} (hi : i < pool.last)
    (ht : (pool.prev (.page i)).tag = .small) :
    Apart (w.addr ps pool) (w.bytes ps) (pool.pageAddr (geo ps) i)
      (((geo ps).stlPagesize >>> (pool.slab (.page i) &&& slabShiftMask).toNat) / wordBits * 8) := by
  obtain ⟨s, hl, hsm⟩ := hG.inv.small_of_tag hi (hG.settled i hi) ht
  have hs := hG.inv.isClass hi hl
  rw [shape_shift hs (by omega) (hG.inv.shape hi hl), pagesize_shiftRight hs, wordBits]
  have hcount := chunkCount_small hsm
  obtain ⟨a, ha⟩ := (hw.word_dvd hG).1
  obtain ⟨b, hb⟩ := (hw.word_dvd hG).2
  have hpage := pagesize_dvd_eight.trans (pageAddr_dvd hG.inv.base i)
  obtain ⟨p, hp⟩ := hpage
  have hpos := hw.bytes_pos hG
  by_contra hc
  rw [Apart, not_or] at hc
  have hout := fun d hd => hw.words_out (d := d) hG hl hs hsm hd
  have hword := hout ((max a p - p) * 64) (by omega)
  omega

theorem Sound.isolated (h : Sound ps σ own) : Isolated (geo ps) σ := by
  have hbacked : ∀ x ∈ σ.live, ∃ w : Grant, w.Held ps σ.pool own ∧ w.addr ps σ.pool = x.1 ∧
      w.bytes ps = granted (geo ps) σ.pool x.2 ∧ w.Serves ps σ.pool x.2 := by
    intro x hx
    obtain ⟨w, hw, ha, hs⟩ := h.backed x hx
    exact ⟨w, hw, ha, hs.granted_eq.symm, hs⟩
  refine ⟨?_, ?_, ?_, ?_, ?_, ?_⟩
  · intro c hc
    obtain ⟨σ', own', heq, -⟩ := h.step hc
    rw [heq]
    rfl
  · have hne := List.pairwise_map.mp h.distinct
    refine hne.imp_of_mem ?_
    intro x y hx hy hxy
    obtain ⟨v, hv, hva, hvb, -⟩ := hbacked x hx
    obtain ⟨w, hw, hwa, hwb, -⟩ := hbacked y hy
    have hd := hv.disjoint h.good hw (by
      rintro rfl
      exact hxy (hva.symm.trans hwa))
    rw [hva, hvb, hwa, hwb] at hd
    exact hd
  · intro x hx
    obtain ⟨w, hw, ha, hb, -⟩ := hbacked x hx
    obtain ⟨h₁, h₂, -⟩ := hw.span h.good
    have hm := @pageAddr_mono ps σ.pool _ _ (h.good.inv.tiling.stop_le hw.page_lt)
    rw [← ha, ← hb]
    rw [pageAddr_geo] at h₁
    rw [pageAddr_geo σ.pool σ.pool.last] at hm
    exact ⟨by omega, h₂.trans hm⟩
  · intro x hx
    obtain ⟨w, hw, -, hb, hs⟩ := hbacked x hx
    rw [← hb]
    exact hs.le_bytes h.good.inv.base
  · intro x hx
    obtain ⟨w, hw, ha, -, hs⟩ := hbacked x hx
    rw [← ha]
    exact hw.boundary_dvd h.good hs
  · intro x hx i hi ht
    obtain ⟨w, hw, ha, hb, -⟩ := hbacked x hx
    rw [← ha, ← hb]
    exact hw.bitmap_apart h.good hi ht

/-- With pages of 16 to 65536 bytes, and room for the tables and one descriptor, set-up returns a
pool, and in every session on it the live allocations stay isolated. -/
theorem session_isolated (ps : PageShift) {addr poolSize : ℕ} (haddr : 0 < addr)
    (hend : addr + poolSize ≤ 2 ^ 64) (htab : tableBytes (geo ps) + pageBytes ≤ poolSize) :
    ∃ pool, stlSlabInit .zero (2 ^ ps.val) addr poolSize = some (some (geo ps, pool)) ∧
      ∀ cs σ, (Session.new pool).run (geo ps) cs = some σ → Isolated (geo ps) σ := by
  obtain ⟨pool, hinit⟩ := exists_init ps haddr hend htab
  refine ⟨pool, hinit, fun cs σ hr => ?_⟩
  obtain ⟨-, own, hs, -⟩ := sound_of_init hend hinit hr
  exact hs.isolated

theorem session_isolated_4096 : ∃ g pool σ,
    stlSlabInit .zero (2 ^ 12) 4096 20000 = some (some (g, pool)) ∧
      (Session.new pool).run g [.alloc 100, .alloc 5000, .store 8200 5, .free 12288] = some σ ∧
      σ.live = [(8192, 100)] ∧ Isolated g σ := by
  have h : ((stlSlabInit .zero (2 ^ 12) 4096 20000).join.bind fun r =>
      ((Session.new r.2).run r.1 [.alloc 100, .alloc 5000, .store 8200 5, .free 12288]).map
        Session.live) = some [(8192, 100)] := by
    decide +kernel
  simp only [Option.bind_eq_some_iff, Option.join_eq_some_iff, Option.map_eq_some_iff] at h
  obtain ⟨⟨g, pool⟩, hinit, σ, hrun, hlive⟩ := h
  obtain ⟨pool', hinit', hsession⟩ := @session_isolated ⟨12, by decide, by decide⟩ 4096
    20000 (by decide) (by decide) (by decide)
  obtain ⟨rfl, rfl⟩ := Prod.mk.inj (Option.some.inj (Option.some.inj (hinit.symm.trans hinit')))
  exact ⟨_, pool, σ, hinit, hrun, hlive, hsession _ σ hrun⟩

/-- Pages of 131072 bytes have a class that does not fit `STL_SLAB_SHIFT_MASK`: freeing a chunk
of a full page of that class reads the slot table out of range. -/
theorem free_undefined_131072 : ∃ g pool σ,
    stlSlabInit .zero (2 ^ 17) 4096 700000 = some (some (g, pool)) ∧ tableBytes g + pageBytes ≤ 700000 ∧
      0 < pool.last ∧ (Session.new pool).run g [.alloc 65536, .alloc 65536] = some σ ∧
      σ.Allows (.free 131072) ∧ σ.step g (.free 131072) = none := by
  have h : ((stlSlabInit .zero (2 ^ 17) 4096 700000).join.bind fun r =>
      ((Session.new r.2).run r.1 [.alloc 65536, .alloc 65536]).map fun σ =>
        (decide (tableBytes r.1 + pageBytes ≤ 700000), decide (0 < r.2.last), decide (σ.Allows (.free 131072)),
          (σ.step r.1 (.free 131072)).isSome)) = some (true, true, true, false) := by
    decide +kernel
  simp only [Option.bind_eq_some_iff, Option.join_eq_some_iff, Option.map_eq_some_iff, Prod.mk.injEq,
    decide_eq_true_eq, Option.isSome_eq_false_iff, Option.isNone_iff_eq_none] at h
  obtain ⟨⟨g, pool⟩, hinit, σ, hrun, htab, hlast, hallow, hnone⟩ := h
  exact ⟨g, pool, σ, hinit, htab, hlast, hrun, hallow, hnone⟩

/-- Pages of 8 bytes have no class at all: the first allocation counts in a statistics entry that
does not exist. -/
theorem alloc_undefined_8 : ∃ g pool,
    stlSlabInit .zero (2 ^ 3) 4096 700 = some (some (g, pool)) ∧ tableBytes g + pageBytes ≤ 700 ∧
      (Session.new pool).step g (.alloc 1) = none := by
  have h : ((stlSlabInit .zero (2 ^ 3) 4096 700).join.map fun r =>
      (decide (tableBytes r.1 + pageBytes ≤ 700), ((Session.new r.2).step r.1 (.alloc 1)).isSome)) =
        some (true, false) := by decide
  simp only [Option.join_eq_some_iff, Option.map_eq_some_iff, Prod.mk.injEq, decide_eq_true_eq,
    Option.isSome_eq_false_iff, Option.isNone_iff_eq_none] at h
  obtain ⟨⟨g, pool⟩, hinit, htab, hnone⟩ := h
  exact ⟨g, pool, hinit, htab, hnone⟩

/-- Page sizes for which a session gets stuck, so that isolation fails. -/
theorem page_size_unsafe :
    (∃ g pool σ, stlSlabInit .zero (2 ^ 17) 4096 700000 = some (some (g, pool)) ∧
        tableBytes g + pageBytes ≤ 700000 ∧
        (Session.new pool).run g [.alloc 65536, .alloc 65536] = some σ ∧ ¬ Isolated g σ) ∧
      ∃ g pool, stlSlabInit .zero (2 ^ 3) 4096 700 = some (some (g, pool)) ∧ tableBytes g + pageBytes ≤ 700 ∧
        (Session.new pool).run g [] = some (Session.new pool) ∧
        ¬ Isolated g (Session.new pool) := by
  obtain ⟨g, pool, σ, hinit, htab, -, hrun, hallow, hnone⟩ := free_undefined_131072
  obtain ⟨g', pool', hinit', htab', hnone'⟩ := alloc_undefined_8
  refine ⟨⟨g, pool, σ, hinit, htab, hrun, ?_⟩, g', pool', hinit', htab', rfl, ?_⟩
  · intro h
    have hdef := h.defined _ hallow
    rw [hnone] at hdef
    exact absurd hdef (by simp)
  · intro h
    have hdef := h.defined (.alloc 1) trivial
    rw [hnone'] at hdef
    exact absurd hdef (by simp)

end KirinFS.Slab
