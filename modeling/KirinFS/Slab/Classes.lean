import KirinFS.Slab.FreeRuns

/-! # Slot lists and counters of the size classes

The class of a page is read from its descriptor, and which chunks are out from
the words that hold its chunk map.
-/

namespace KirinFS.Slab
open Foundation.Tiling Foundation.IntrusiveRing Function

/-- The shift of the chunks of `pages[i]`, if it is a chunk page. -/
def classOf (g : SlabGlobals) (pool : StlSlab) (i : ℕ) : Option ℕ :=
  match (pool.prev (.page i)).tag with
  | .small => some (pool.slab (.page i) &&& slabShiftMask).toNat
  | .exact => some g.stlSlabExactShift
  | .big => some (pool.slab (.page i) &&& slabShiftMask).toNat
  | .page => none

/-- Bit `c` of the chunk map of `pages[i]`, a page of class `s`. -/
def chunkTaken (g : SlabGlobals) (pool : StlSlab) (i s c : ℕ) : Bool :=
  if s < g.stlSlabExactShift then (pool.bitmap (pool.pageAddr g i) (c / 64)).getLsbD (c % 64)
  else if s = g.stlSlabExactShift then (pool.slab (.page i)).getLsbD c
  else (pool.slab (.page i)).getLsbD (32 + c)

def HasChunk (g : SlabGlobals) (pool : StlSlab) (i s : ℕ) : Prop :=
  ∃ c < g.stlPagesize >>> s, chunkTaken g pool i s c = false

/-- The list of slot `k` from descriptor `r` on, up to the list head. -/
def FollowsPages (pool : StlSlab) (k : ℕ) : PageRef → List ℕ → Prop
  | r, [] => pool.next r = .slot k
  | r, i :: l => pool.next r = .page i ∧ FollowsPages pool k (.page i) l

def pagesIn (g : SlabGlobals) (pool : StlSlab) (k : ℕ) : ℕ :=
  (List.range pool.last).countP fun i => decide (classOf g pool i = some (k + pool.minShift))

/-- Requests of a class fail only when it is exhausted, the slot lists hold exactly the pages with
a chunk left, and the counters are exact. -/
structure Classed (g : SlabGlobals) (σ : Session) : Prop where
  defined : ∀ c, σ.Allows c → (σ.step g c).isSome
  exhausted : ∀ size ≤ g.stlSlabMaxSize, ∀ pool', σ.pool.stlSlabAlloc g size = some (pool', 0) →
    ∀ i < σ.pool.last, σ.Touches g i ∧ (classOf g σ.pool i = some (σ.pool.classShift size) →
      ¬ HasChunk g σ.pool i (σ.pool.classShift size))
  listed : ∀ k < σ.pool.nslots, ∃ l : List ℕ, FollowsPages σ.pool k (.slot k) l ∧ l.Nodup ∧
    ∀ i, i ∈ l ↔ i < σ.pool.last ∧ classOf g σ.pool i = some (k + σ.pool.minShift) ∧
      HasChunk g σ.pool i (k + σ.pool.minShift)
  full : ∀ i < σ.pool.last, ∀ s, classOf g σ.pool i = some s → ¬ HasChunk g σ.pool i s →
    σ.pool.next (.page i) = .null ∧ ∀ k l, FollowsPages σ.pool k (.slot k) l → i ∉ l
  used : ∀ k < σ.pool.nslots, (σ.pool.stats k).used.toNat = σ.liveIn g k
  total : ∀ k < σ.pool.nslots, (σ.pool.stats k).total.toNat =
    pagesIn g σ.pool k * StlSlab.usable g (k + σ.pool.minShift)

section Descriptors
variable {ps : PageShift} {pool : StlSlab} {own : PageMap} {fresh : Bool} {i s k : ℕ}

/-- What the descriptor says is what the page is used for. -/
theorem Good.classOf_iff (hG : Good ps pool own fresh) (hi : i < pool.last) :
    classOf (geo ps) pool i = some s ↔ (own i).label = .chunks s := by
  cases hl : (own i).label with
  | hole => exact absurd hl (hG.settled i hi)
  | chunks t =>
    have ht := hG.inv.isClass hi hl
    have htag := hG.inv.chunk_tag hi hl
    have hshape := hG.inv.shape hi hl
    have hclass : classOf (geo ps) pool i = some t := by
      rw [classOf, htag, kind]
      split_ifs with hsm hex
      · exact congrArg some (shape_shift ht (by omega) hshape)
      · exact congrArg some hex.symm
      · exact congrArg some (shape_shift ht hex hshape)
    rw [hclass]
    simp
  | _ =>
    have htag := hG.inv.page_tag hi (hG.settled i hi) (by simp [hl])
    simp [classOf, htag]

theorem hasChunk_iff (hs : IsClass ps s) : HasChunk (geo ps) pool i s ↔ ¬ Full ps pool i s := by
  rw [HasChunk, pagesize_shiftRight hs, Full]
  constructor
  · rintro ⟨c, hc, hbit⟩ hfull
    have hset : chunkTaken (geo ps) pool i s c = true := hfull c hc
    rw [hbit] at hset
    exact Bool.false_ne_true hset
  · intro h
    obtain ⟨c, hc⟩ := not_forall.mp h
    obtain ⟨hc, hbit⟩ := Classical.not_imp.mp hc
    exact ⟨c, hc, Bool.eq_false_iff.mpr hbit⟩

theorem followsPages_of_links {t : PageType} {a : PageRef} {l : List ℕ}
    (hl : Links pool.next pool.prev (backLink t) a (l.map PageRef.page) (.slot k)) :
    FollowsPages pool k a l := by
  induction l generalizing a with
  | nil => exact hl
  | cons i l ih => exact ⟨hl.1, ih hl.2.2⟩

theorem FollowsPages.next_ne_null {a : PageRef} {l : List ℕ} (h : FollowsPages pool k a l)
    (hi : i ∈ l) : pool.next (.page i) ≠ .null := by
  induction l generalizing a with
  | nil => exact absurd hi List.not_mem_nil
  | cons j l ih =>
    rcases List.mem_cons.mp hi with rfl | hi
    · cases l with
      | nil =>
        rw [show pool.next (.page i) = .slot k from h.2]
        simp
      | cons m l =>
        rw [h.2.1]
        simp
    · exact ih h.2 hi

theorem Inv.slotList (hI : Inv ps pool own fresh) (hk : k < ps.val - 3) :
    ∃ l : List ℕ, FollowsPages pool k (.slot k) l ∧ l.Nodup ∧
      ∀ i, i ∈ l ↔ i < pool.last ∧ (own i).label = .chunks (k + 3) ∧ ¬ Full ps pool i (k + 3) := by
  obtain ⟨l, hl, hd, hm⟩ := hI.slotRing k hk
  obtain ⟨l, rfl⟩ := pages_of_refs fun r hr => by
    obtain ⟨i, rfl, -⟩ := (hm r).mp hr
    exact ⟨i, rfl⟩
  refine ⟨l, followsPages_of_links hl, (List.nodup_cons.mp hd).2.of_map _, fun i => ?_⟩
  have hi : PageRef.page i ∈ l.map PageRef.page ↔ i ∈ l := by simp
  rw [← hi, hm, page_mem_listed]

theorem Good.pagesIn_eq (hG : Good ps pool own fresh) (k : ℕ) :
    pagesIn (geo ps) pool k = chunkPages own pool.last (k + 3) := by
  have hcount : chunkPages own pool.last (k + 3) =
      ((List.range pool.last).filter fun i => decide ((own i).label = .chunks (k + 3))).length := by
    simp only [chunkPages, count, decide_eq_true_eq]
    rfl
  rw [hcount, pagesIn, ← List.countP_eq_length_filter, hG.inv.base.minShift]
  refine List.countP_congr fun i hi => ?_
  rw [decide_eq_true_eq, decide_eq_true_eq, hG.classOf_iff (List.mem_range.mp hi)]

theorem usable_le (hk : k < ps.val - 3) : StlSlab.usable (geo ps) (k + 3) ≤ 2 ^ ps.val := by
  have hs : IsClass ps (k + 3) := ⟨by omega, by omega⟩
  have hle : chunkCount ps (k + 3) ≤ 2 ^ ps.val :=
    Nat.pow_le_pow_right (by omega) (Nat.sub_le _ _)
  have hexact : (geo ps).stlSlabExactShift = ps.val - 6 := rfl
  rw [StlSlab.usable, pagesize_shiftRight hs, hexact]
  split_ifs with hsm hex
  · omega
  · rw [wordBits, ← chunkCount_exact hex hs]
    exact hle
  · exact hle

end Descriptors

section Sessions
variable {ps : PageShift} {σ : Session} {own : PageMap} {i k : ℕ}

/-- Distinct positive numbers below `N` are fewer than `N`. -/
theorem length_lt_of_nodup {l : List ℕ} {N : ℕ} (hN : 0 < N) (hd : l.Nodup)
    (h : ∀ a ∈ l, 0 < a ∧ a < N) : l.length < N := by
  have hsub : l.toFinset ⊆ Finset.Ioo 0 N := by
    intro a ha
    exact Finset.mem_Ioo.mpr (h a (List.mem_toFinset.mp ha))
  have hcard := Finset.card_le_card hsub
  rw [List.toFinset_card_of_nodup hd, Nat.card_Ioo] at hcard
  omega

theorem Sound.liveIn_lt (h : Sound ps σ own) (hstop : σ.pool.stop ≤ 2 ^ 64) :
    σ.liveIn (geo ps) k < 2 ^ 64 := by
  have hlive : (σ.live.map Prod.fst).length < 2 ^ 64 := by
    refine length_lt_of_nodup (by decide) h.distinct fun a ha => ?_
    obtain ⟨x, hx, rfl⟩ := List.mem_map.mp ha
    obtain ⟨w, hw, hwa, -⟩ := h.backed x hx
    have hpos := hw.addr_pos h.good
    have hbytes := hw.bytes_pos h.good
    have hspan := (hw.span h.good).2.1
    have hedge := h.good.inv.tiling.stop_le hw.page_lt
    have hroom := (h.good.inv.base.room (by have := hw.page_lt; omega)).2
    have hmono := @pageAddr_mono ps σ.pool _ _ hedge
    rw [pageAddr_geo σ.pool σ.pool.last] at hmono
    rw [← hwa]
    omega
  rw [List.length_map] at hlive
  exact Nat.lt_of_le_of_lt List.countP_le_length hlive

theorem Sound.total_lt (h : Sound ps σ own) (hstop : σ.pool.stop ≤ 2 ^ 64) (hk : k < ps.val - 3) :
    pagesIn (geo ps) σ.pool k * StlSlab.usable (geo ps) (k + 3) < 2 ^ 64 := by
  have hpages : pagesIn (geo ps) σ.pool k ≤ σ.pool.last := by
    refine List.countP_le_length.trans ?_
    rw [List.length_range]
  have hle := Nat.mul_le_mul hpages (@usable_le ps k hk)
  rcases Nat.eq_zero_or_pos σ.pool.last with h0 | h0
  · rw [h0, Nat.zero_mul] at hle
    omega
  · have hroom := h.good.inv.base.room h0
    omega

theorem Sound.exhausted (h : Sound ps σ own) {size : ℕ} (hsize : size ≤ (geo ps).stlSlabMaxSize)
    {pool' : StlSlab} (heq : σ.pool.stlSlabAlloc (geo ps) size = some (pool', 0))
    (hi : i < σ.pool.last) :
    σ.Touches (geo ps) i ∧ (classOf (geo ps) σ.pool i = some (σ.pool.classShift size) →
      ¬ HasChunk (geo ps) σ.pool i (σ.pool.classShift size)) := by
  rcases stlSlabAlloc_counted h.good size with
    ⟨st, -, -, hshort, hempty⟩ | ⟨pool₁, own₁, w, heq₁, -, hgr, -⟩
  · rw [pagesNeeded, if_neg (by omega)] at hshort
    refine ⟨?_, fun hclass hchunk => ?_⟩
    · by_contra htouch
      have hfree := (h.touches_iff hi).mp htouch
      have hlen := h.good.inv.tiling.len_pos hi
      have hlt := hshort i hi hfree
      omega
    · have hl := (h.good.classOf_iff hi).mp hclass
      have hnf := (hasChunk_iff (h.good.inv.isClass hi hl)).mp hchunk
      have hmem : PageRef.page i ∈ listed ps σ.pool own (σ.pool.classShift size) :=
        page_mem_listed.mpr ⟨hi, hl, hnf⟩
      rw [hempty hsize] at hmem
      exact Set.notMem_empty _ hmem
  · have hheld : w.Held ps pool₁ own₁ := (hgr.held w).mpr (Or.inr rfl)
    have hpos := hheld.addr_pos hgr.good
    rw [hgr.frame.addr] at hpos
    rw [heq₁] at heq
    have hzero := (Prod.mk.inj (Option.some.inj heq)).2
    omega

theorem Sound.classed (h : Sound ps σ own) (hu : Counted ps σ.pool own (σ.liveIn (geo ps)))
    (hstop : σ.pool.stop ≤ 2 ^ 64) : Classed (geo ps) σ := by
  have hI := h.good.inv
  have hslots : ∀ {k}, k < σ.pool.nslots → k < ps.val - 3 := fun hk => by
    rwa [hI.base.nslots] at hk
  refine ⟨?_, ?_, ?_, ?_, ?_, ?_⟩
  · intro c hc
    obtain ⟨σ', own', heq, -⟩ := h.step hc
    rw [heq]
    rfl
  · intro size hsize pool' heq i hi
    exact h.exhausted hsize heq hi
  · intro k hk
    obtain ⟨l, hf, hd, hm⟩ := hI.slotList (hslots hk)
    refine ⟨l, hf, hd, fun i => ?_⟩
    rw [hm, hI.base.minShift]
    refine and_congr_right fun hi => ?_
    rw [h.good.classOf_iff hi]
    refine and_congr_right fun hl => ?_
    rw [hasChunk_iff (hI.isClass hi hl)]
  · intro i hi s hclass hfull
    have hl := (h.good.classOf_iff hi).mp hclass
    have hs := hI.isClass hi hl
    obtain ⟨k, rfl⟩ : ∃ k, s = k + 3 := ⟨s - 3, by have h3 := hs.1; omega⟩
    have hlt := hs.2
    rw [hasChunk_iff hs, not_not] at hfull
    have hnull := (hI.next_null_iff hi (by omega) hl).mpr hfull
    exact ⟨hnull, fun m l hf hmem => hf.next_ne_null hmem hnull⟩
  · intro k hk
    rw [hu.used k (hslots hk), BitVec.toNat_ofNat, Nat.mod_eq_of_lt (h.liveIn_lt hstop)]
  · intro k hk
    rw [hu.total k (hslots hk), ← h.good.pagesIn_eq, BitVec.toNat_ofNat,
      Nat.mod_eq_of_lt (h.total_lt hstop (hslots hk)), hI.base.minShift]

end Sessions

/-- With pages of 16 to 65536 bytes, and room for the tables and one descriptor, set-up returns a
pool, and in every session on it the classes are kept exactly. -/
theorem session_classed (ps : PageShift) {addr poolSize : ℕ} (haddr : 0 < addr)
    (hend : addr + poolSize ≤ 2 ^ 64) (htab : tableBytes (geo ps) + pageBytes ≤ poolSize) :
    ∃ pool, stlSlabInit .zero (2 ^ ps.val) addr poolSize = some (some (geo ps, pool)) ∧
      ∀ cs σ, (Session.new pool).run (geo ps) cs = some σ → Classed (geo ps) σ := by
  obtain ⟨pool, hinit⟩ := exists_init ps haddr hend htab
  refine ⟨pool, hinit, fun cs σ hr => ?_⟩
  obtain ⟨-, own, hs, hf, hu⟩ := sound_counted_of_init hend hinit hr
  refine hs.classed hu ?_
  rw [hf.stop, (stlSlabInit_new hinit).1]
  exact hend

theorem session_classed_4096 : ∃ g pool σ,
    stlSlabInit .zero (2 ^ 12) 4096 20000 = some (some (g, pool)) ∧
      (Session.new pool).run g [.alloc 100, .alloc 2048, .alloc 2048, .free 8192] = some σ ∧
      σ.liveIn g 8 = 2 ∧ Classed g σ := by
  have h : ((stlSlabInit .zero (2 ^ 12) 4096 20000).join.bind fun r =>
      ((Session.new r.2).run r.1 [.alloc 100, .alloc 2048, .alloc 2048, .free 8192]).map
        fun σ => σ.liveIn r.1 8) = some 2 := by
    decide +kernel
  simp only [Option.bind_eq_some_iff, Option.join_eq_some_iff, Option.map_eq_some_iff] at h
  obtain ⟨⟨g, pool⟩, hinit, σ, hrun, hlive⟩ := h
  obtain ⟨pool', hinit', hsession⟩ := @session_classed ⟨12, by decide, by decide⟩ 4096
    20000 (by decide) (by decide) (by decide)
  obtain ⟨rfl, rfl⟩ := Prod.mk.inj (Option.some.inj (Option.some.inj (hinit.symm.trans hinit')))
  exact ⟨_, pool, σ, hinit, hrun, hlive, hsession _ σ hrun⟩

/-- On pages of 1048576 bytes the class of 524288 bytes is stored as that of 8 bytes: freeing its
one chunk takes it from the counters of the wrong slot. -/
theorem counters_wrong_1048576 : ∃ g pool σ,
    stlSlabInit .zero (2 ^ 20) 4096 4000000 = some (some (g, pool)) ∧ tableBytes g + pageBytes ≤ 4000000 ∧
      (Session.new pool).run g [.alloc 524288, .free 1048576] = some σ ∧ σ.live = [] ∧
      σ.pool.nslots = 17 ∧ (σ.pool.stats 0).used = -1 ∧ ¬ Classed g σ := by
  have h : ((stlSlabInit .zero (2 ^ 20) 4096 4000000).join.bind fun r =>
      ((Session.new r.2).run r.1 [.alloc 524288, .free 1048576]).map fun σ =>
        (decide (tableBytes r.1 + pageBytes ≤ 4000000), σ.live, σ.pool.nslots, (σ.pool.stats 0).used)) =
      some (true, [], 17, -1) := by
    decide +kernel
  simp only [Option.bind_eq_some_iff, Option.join_eq_some_iff, Option.map_eq_some_iff, Prod.mk.injEq,
    decide_eq_true_eq] at h
  obtain ⟨⟨g, pool⟩, hinit, σ, hrun, htab, hlive, hslots, hused⟩ := h
  refine ⟨g, pool, σ, hinit, htab, hrun, hlive, hslots, hused, fun hc => ?_⟩
  have hcount := hc.used 0 (by rw [hslots]; decide)
  rw [hused, Session.liveIn, hlive, List.countP_nil] at hcount
  exact absurd hcount (by decide)

end KirinFS.Slab
