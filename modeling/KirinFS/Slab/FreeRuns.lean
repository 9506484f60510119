import KirinFS.Slab.Isolation

/-! # The page free list describes the vacant pages

The list is read through the words of the pool, as runs of pages. What is
vacant is said through the client's list of live allocations.
-/

namespace KirinFS.Slab
open Foundation.Tiling Foundation.IntrusiveRing Function

/-- The free list from descriptor `r` on: heads and lengths of the runs up to the list head. -/
def FollowsRuns (pool : StlSlab) : PageRef → List (ℕ × ℕ) → Prop
  | r, [] => pool.next r = .free
  | r, (h, n) :: l =>
    pool.next r = .page h ∧ (pool.slab (.page h)).toNat = n ∧ FollowsRuns pool (.page h) l

def Session.Touches (g : SlabGlobals) (σ : Session) (i : ℕ) : Prop :=
  ∃ x ∈ σ.live, x.1 < σ.pool.pageAddr g i + g.stlPagesize ∧
    σ.pool.pageAddr g i < x.1 + granted g σ.pool x.2

/-- The runs on the list are the vacant pages, each stretch of them as one run. -/
structure VacantRuns (g : SlabGlobals) (σ : Session) (runs : List (ℕ × ℕ)) : Prop where
  follows : FollowsRuns σ.pool .free runs
  fits : ∀ r ∈ runs, 0 < r.2 ∧ r.1 + r.2 ≤ σ.pool.last
  coalesced : runs.Pairwise fun x y => x.1 + x.2 < y.1 ∨ y.1 + y.2 < x.1
  vacant : ∀ i < σ.pool.last, (∃ r ∈ runs, r.1 ≤ i ∧ i < r.1 + r.2) ↔ ¬ σ.Touches g i
  counted : σ.pool.pfree.toNat = (runs.map Prod.snd).sum

/-- The last descriptor of every longer run leads back to its head. -/
def BackPointers (pool : StlSlab) (runs : List (ℕ × ℕ)) : Prop :=
  ∀ r ∈ runs, 2 ≤ r.2 → pool.prev (.page (r.1 + r.2 - 1)) = ⟨.page r.1, .page⟩

/-- The free list is exact, and a client that has given everything back can have it all. -/
structure Coalesced (g : SlabGlobals) (σ : Session) : Prop where
  defined : ∀ c, σ.Allows c → (σ.step g c).isSome
  runs : ∃ runs, VacantRuns g σ runs ∧ (σ.started = true → BackPointers σ.pool runs)
  whole : σ.live = [] → FollowsRuns σ.pool .free [(0, σ.pool.last)] ∧
    ∃ pool' a, σ.pool.stlSlabAlloc g (σ.pool.last * g.stlPagesize) = some (pool', a) ∧ a ≠ 0

variable {ps : PageShift} {pool : StlSlab} {own : PageMap} {fresh : Bool} {σ : Session}

def runAt (own : PageMap) (i : ℕ) : ℕ × ℕ := (i, (own i).len)

theorem followsRuns_of_links {a : PageRef} {l : List ℕ}
    (hl : Links pool.next pool.prev (backLink .page) a (l.map PageRef.page) .free)
    (hlen : ∀ i ∈ l, (pool.slab (.page i)).toNat = (own i).len) :
    FollowsRuns pool a (l.map (runAt own)) := by
  induction l generalizing a with
  | nil => exact hl
  | cons i l ih =>
    obtain ⟨hn, -, hl⟩ := hl
    refine ⟨hn, hlen i (by simp), ih hl ?_⟩
    intro j hj
    exact hlen j (List.mem_cons_of_mem i hj)

theorem pages_of_refs {l : List PageRef} (h : ∀ r ∈ l, ∃ i, PageRef.page i = r) :
    ∃ l' : List ℕ, l'.map PageRef.page = l := by
  induction l with
  | nil => exact ⟨[], rfl⟩
  | cons r l ih =>
    obtain ⟨i, rfl⟩ := h r (by simp)
    obtain ⟨l', rfl⟩ := ih fun r hr => h r (List.mem_cons_of_mem _ hr)
    exact ⟨i :: l', rfl⟩

theorem Inv.freeList (hI : Inv ps pool own fresh) (h0 : 0 < pool.last) :
    ∃ l : List ℕ, FollowsRuns pool .free (l.map (runAt own)) ∧ l.Nodup ∧
      ∀ i, i ∈ l ↔ i < pool.last ∧ (own i).label = .free ∧ (own i).head = i := by
  obtain ⟨l, hl, hd, hm⟩ := hI.freeRing
  obtain ⟨l, rfl⟩ := pages_of_refs fun r hr => by
    obtain ⟨i, rfl, -⟩ := (hm r).mp hr
    exact ⟨i, rfl⟩
  have hmem : ∀ i, i ∈ l ↔ i < pool.last ∧ (own i).label = .free ∧ (own i).head = i := by
    intro i
    have hi : PageRef.page i ∈ l.map PageRef.page ↔ i ∈ l := by simp
    rw [← hi, hm, mem_freeHeads_iff h0]
    simp
  refine ⟨l, followsRuns_of_links hl ?_, (List.nodup_cons.mp hd).2.of_map _, hmem⟩
  intro i hi
  obtain ⟨hlt, hlabel, hhead⟩ := (hmem i).mp hi
  exact hI.slab_head hlt hlabel hhead

/-- Two free runs never meet. -/
theorem Inv.free_apart (hI : Inv ps pool own fresh) {i j : ℕ} (hne : i ≠ j)
    (hi : i < pool.last ∧ (own i).label = .free ∧ (own i).head = i)
    (hj : j < pool.last ∧ (own j).label = .free ∧ (own j).head = j) :
    i + (own i).len < j ∨ j + (own j).len < i := by
  have hij := hI.tiling.edge_head hj.1 i hi.1
  have hji := hI.tiling.edge_head hi.1 j hj.1
  have hgi := hI.gap i hi.1 hi.2.1
  have hgj := hI.gap j hj.1 hj.2.1
  rw [hj.2.2] at hij hji
  rw [hi.2.2] at hij hji
  simp only [Block.stop, hi.2.2] at hij hgi
  simp only [Block.stop, hj.2.2] at hji hgj
  have hnext : i + (own i).len ≠ j := by
    rintro rfl
    exact hgi hj.1 hj.2.1
  have hprev : j + (own j).len ≠ i := by
    rintro rfl
    exact hgj hi.1 hi.2.1
  omega

/-- Every page that is not free carries bytes of a grant, and no free page does. -/
theorem Good.free_iff (hG : Good ps pool own fresh) {i : ℕ} (hi : i < pool.last) :
    (own i).label = .free ↔ ∀ w : Grant, w.Held ps pool own →
      pool.pageAddr (geo ps) (i + 1) ≤ w.addr ps pool ∨
        w.addr ps pool + w.bytes ps ≤ pool.pageAddr (geo ps) i := by
  constructor
  · intro hfree w hw
    obtain ⟨h₁, h₂, h₃⟩ := hw.span hG
    have hout : ¬ (own w.page).Has i := by
      intro hhas
      rw [hG.inv.tiling.same hw.page_lt hhas] at hfree
      cases w with
      | run j k =>
        rw [Grant.page, hw.2] at hfree
        simp at hfree
      | chunk j s c =>
        rw [Grant.page, hw.2.1] at hfree
        simp at hfree
    rw [Block.Has, h₃] at hout
    by_cases hlt : i < w.page
    · exact Or.inl ((pageAddr_mono pool hlt).trans h₁)
    · exact Or.inr (h₂.trans (pageAddr_mono pool (by omega)))
  · intro hall
    have hpos := Nat.two_pow_pos ps.val
    have hstep : pool.pageAddr (geo ps) (i + 1) = pool.pageAddr (geo ps) i + 2 ^ ps.val := by
      rw [pageAddr_geo, pageAddr_geo, Nat.add_mul, Nat.one_mul, Nat.add_assoc]
    cases hl : (own i).label with
    | free => rfl
    | hole => exact absurd hl (hG.settled i hi)
    | busy =>
      have hhas := hG.inv.tiling.has hi
      have hrun : (Grant.run (own i).head (own i).len).Held ps pool own := by
        refine ⟨hG.inv.tiling.head_lt hi, ?_⟩
        rw [hG.inv.tiling.own_head hi, ← hl]
      have hout := hall _ hrun
      simp only [Grant.addr, Grant.bytes, pageAddr_geo] at hout
      have hlo := Nat.mul_le_mul_right (2 ^ ps.val) hhas.1
      have hhi : (i + 1) * 2 ^ ps.val ≤ (own i).stop * 2 ^ ps.val :=
        Nat.mul_le_mul_right _ hhas.2
      rw [Block.stop, Nat.add_mul, Nat.add_mul] at hhi
      rw [Nat.add_mul] at hout
      omega
    | chunks s =>
      obtain ⟨c, hres, hc, hbit⟩ := hG.occupied i hi s hl
      have hchunk : (Grant.chunk i s c).Held ps pool own := ⟨hi, hl, hres, hc, hbit⟩
      have hout := hall _ hchunk
      have hfit := (hchunk.class_of hG).2
      have hbytes := Nat.two_pow_pos s
      rw [Nat.add_mul] at hfit
      simp only [Grant.addr, Grant.bytes, hstep] at hout
      omega

theorem Sound.touches_iff (h : Sound ps σ own) {i : ℕ} (hi : i < σ.pool.last) :
    ¬ σ.Touches (geo ps) i ↔ (own i).label = .free := by
  have hstep : σ.pool.pageAddr (geo ps) (i + 1) =
      σ.pool.pageAddr (geo ps) i + (geo ps).stlPagesize := by
    rw [pageAddr_geo, pageAddr_geo, Nat.add_mul, Nat.one_mul, Nat.add_assoc]
    rfl
  rw [h.good.free_iff hi, hstep]
  constructor
  · intro hnot w hw
    obtain ⟨n, hn⟩ := h.recorded w hw
    obtain ⟨v, hv, ha, hs⟩ := h.backed _ hn
    obtain rfl := hv.addr_inj h.good hw ha
    by_contra hc
    rw [not_or, not_le, not_le] at hc
    refine hnot ⟨_, hn, hc.1, ?_⟩
    rw [hs.granted_eq]
    exact hc.2
  · rintro hall ⟨x, hx, hlo, hhi⟩
    obtain ⟨w, hw, ha, hs⟩ := h.backed x hx
    rw [hs.granted_eq] at hhi
    have hout := hall w hw
    omega

/-- The lengths on the free list add up to the counter. -/
theorem Good.pfree_sum (hG : Good ps pool own fresh) {l : List ℕ} (hd : l.Nodup)
    (hm : ∀ i, i ∈ l ↔ i < pool.last ∧ (own i).label = .free ∧ (own i).head = i) :
    pool.pfree.toNat = (l.map fun i => (own i).len).sum := by
  have hcount : count own pool.last Use.isVacant ≤ pool.last := by
    rw [count]
    exact (Finset.card_filter_le _ _).trans (Finset.card_range _).le
  rw [hG.inv.pfree, toNat_ofNat_len (hcount.trans_lt hG.inv.base.bound),
    ← sum_len Use.isVacant hG.inv.tiling, ← List.sum_toFinset _ hd]
  refine Finset.sum_congr ?_ fun _ _ => rfl
  ext i
  rw [List.mem_toFinset, hm, Finset.mem_filter, Finset.mem_range]
  refine and_congr_right fun hi => ?_
  have hset := hG.settled i hi
  constructor
  · rintro ⟨hh, hv⟩
    refine ⟨?_, hh⟩
    cases hl : (own i).label with
    | free => rfl
    | hole => exact absurd hl hset
    | busy => simp [hl, Use.isVacant] at hv
    | chunks s => simp [hl, Use.isVacant] at hv
  · rintro ⟨hl, hh⟩
    rw [hl]
    exact ⟨hh, rfl⟩

/-- Without live allocations the pool is a single free run. -/
theorem Sound.own_whole (h : Sound ps σ own) (h0 : 0 < σ.pool.last) (hlive : σ.live = []) :
    own 0 = ⟨0, σ.pool.last, .free⟩ := by
  have hfree : ∀ i < σ.pool.last, (own i).label = .free := by
    intro i hi
    rw [← h.touches_iff hi]
    rintro ⟨x, hx, -⟩
    rw [hlive] at hx
    exact absurd hx List.not_mem_nil
  have hhead : (own 0).head = 0 := Nat.le_zero.mp (h.good.inv.tiling.has h0).1
  have hstop : (own 0).stop = σ.pool.last := by
    have hle := h.good.inv.tiling.stop_le h0
    by_contra hne
    have hlt : (own 0).stop < σ.pool.last := by omega
    exact h.good.inv.gap 0 h0 (hfree 0 h0) hlt (hfree _ hlt)
  rw [Block.stop, hhead, Nat.zero_add] at hstop
  rw [← hfree 0 h0, ← hstop]
  nth_rewrite 2 [← hhead]
  rfl

theorem Sound.vacantRuns (h : Sound ps σ own) {l : List ℕ}
    (hfollow : FollowsRuns σ.pool .free (l.map (runAt own))) (hd : l.Nodup)
    (hm : ∀ i, i ∈ l ↔ i < σ.pool.last ∧ (own i).label = .free ∧ (own i).head = i) :
    VacantRuns (geo ps) σ (l.map (runAt own)) := by
  have hI := h.good.inv
  refine ⟨hfollow, ?_, ?_, ?_, ?_⟩
  · intro r hr
    obtain ⟨i, hi, rfl⟩ := List.mem_map.mp hr
    obtain ⟨hlt, -, hh⟩ := (hm i).mp hi
    have hst := hI.tiling.stop_le hlt
    rw [Block.stop, hh] at hst
    exact ⟨hI.tiling.len_pos hlt, hst⟩
  · rw [List.pairwise_map]
    refine hd.imp_of_mem ?_
    intro i j hi hj hne
    exact hI.free_apart hne ((hm i).mp hi) ((hm j).mp hj)
  · intro i hi
    rw [h.touches_iff hi]
    constructor
    · rintro ⟨r, hr, hlo, hhi⟩
      obtain ⟨j, hj, rfl⟩ := List.mem_map.mp hr
      obtain ⟨hlt, hl, hh⟩ := (hm j).mp hj
      rw [hI.tiling.same hlt (j := i) ⟨by rw [hh]; exact hlo, by rw [Block.stop, hh]; exact hhi⟩]
      exact hl
    · intro hl
      have hhas := hI.tiling.has hi
      have hown := hI.tiling.own_head hi
      refine ⟨_, List.mem_map_of_mem ((hm (own i).head).mpr ⟨hI.tiling.head_lt hi, ?_, ?_⟩), ?_⟩
      · rw [hown, hl]
      · rw [hown]
      · simp only [runAt, hown]
        exact hhas
  · rw [h.good.pfree_sum hd hm, List.map_map]
    rfl

/-- Without live allocations all pages are in one run of the list. -/
theorem Sound.whole_list (h : Sound ps σ own) (h0 : 0 < σ.pool.last) (hlive : σ.live = [])
    {l : List ℕ} (hfollow : FollowsRuns σ.pool .free (l.map (runAt own))) (hd : l.Nodup)
    (hm : ∀ i, i ∈ l ↔ i < σ.pool.last ∧ (own i).label = .free ∧ (own i).head = i) :
    FollowsRuns σ.pool .free [(0, σ.pool.last)] := by
  have hown := h.own_whole h0 hlive
  have hpages : ∀ i, i ∈ l ↔ i = 0 := by
    intro i
    rw [hm]
    constructor
    · rintro ⟨hi, -, hh⟩
      have hsame := h.good.inv.tiling.same h0 (j := i)
        (by rw [hown]; exact ⟨Nat.zero_le i, by simpa [Block.stop] using hi⟩)
      rw [hsame, hown] at hh
      exact hh.symm
    · rintro rfl
      rw [hown]
      exact ⟨h0, rfl, rfl⟩
  have hl : l = [0] := by
    refine List.perm_singleton.mp ((List.perm_ext_iff_of_nodup hd (List.nodup_singleton 0)).mpr ?_)
    simpa using hpages
  rw [hl] at hfollow
  simpa [runAt, hown] using hfollow

/-- Then a request for all pages succeeds. -/
theorem Sound.whole_alloc (h : Sound ps σ own) (h0 : 0 < σ.pool.last) (hlive : σ.live = []) :
    ∃ pool' a, σ.pool.stlSlabAlloc (geo ps) (σ.pool.last * (geo ps).stlPagesize) =
      some (pool', a) ∧ a ≠ 0 := by
  have hown := h.own_whole h0 hlive
  rcases stlSlabAlloc_spec h.good (σ.pool.last * (geo ps).stlPagesize) with
    ⟨st, -, hshort⟩ | ⟨pool', own', w, heq, -, hgr⟩
  · have hlen := hshort 0 h0 (by rw [hown])
    have hbig : (geo ps).stlSlabMaxSize < σ.pool.last * (geo ps).stlPagesize := by
      have hone : 1 * 2 ^ ps.val ≤ σ.pool.last * 2 ^ ps.val := Nat.mul_le_mul_right _ h0
      have hge := @pagesize_ge ps
      change 2 ^ ps.val / 2 < σ.pool.last * 2 ^ ps.val
      omega
    have hfor : StlSlab.pagesFor (geo ps) (σ.pool.last * (geo ps).stlPagesize) = σ.pool.last :=
      pagesFor_mul _
    rw [pagesNeeded, if_pos hbig, hfor, hown] at hlen
    exact absurd hlen (lt_irrefl _)
  · refine ⟨pool', w.addr ps σ.pool, heq, ?_⟩
    have hheld : w.Held ps pool' own' := (hgr.held w).mpr (Or.inr rfl)
    have hpos := hheld.addr_pos hgr.good
    rw [hgr.frame.addr] at hpos
    exact hpos.ne'

theorem Sound.coalesced (h : Sound ps σ own) (h0 : 0 < σ.pool.last) : Coalesced (geo ps) σ := by
  obtain ⟨l, hfollow, hd, hm⟩ := h.good.inv.freeList h0
  refine ⟨?_, ⟨l.map (runAt own), h.vacantRuns hfollow hd hm, ?_⟩, fun hlive =>
    ⟨h.whole_list h0 hlive hfollow hd hm, h.whole_alloc h0 hlive⟩⟩
  · intro c hc
    obtain ⟨σ', own', heq, -⟩ := h.step hc
    rw [heq]
    rfl
  · intro hs r hr htwo
    obtain ⟨i, hi, rfl⟩ := List.mem_map.mp hr
    obtain ⟨hlt, hl, hh⟩ := (hm i).mp hi
    exact h.good.inv.backPtr (by rw [hs]; rfl) i hlt hl hh htwo

/-- In every session on a pool with a page, of 16 to 65536 bytes, the free list stays exact. -/
theorem session_coalesced (ps : PageShift) {addr poolSize : ℕ} {g : SlabGlobals} {pool : StlSlab}
    {cs : List Call} {σ : Session} (hend : addr + poolSize ≤ 2 ^ 64)
    (hinit : stlSlabInit .zero (2 ^ ps.val) addr poolSize = some (some (g, pool)))
    (hpage : 0 < pool.last) (hr : (Session.new pool).run g cs = some σ) : Coalesced g σ := by
  obtain ⟨rfl, own, hs, hf⟩ := sound_of_init hend hinit hr
  exact hs.coalesced (by rw [hf.last]; exact hpage)

theorem session_coalesced_4096 : ∃ g pool σ,
    stlSlabInit .zero (2 ^ 12) 4096 20000 = some (some (g, pool)) ∧
      (Session.new pool).run g [.alloc 100, .alloc 5000, .free 8192, .free 12288] = some σ ∧
      σ.live = [] ∧ Coalesced g σ := by
  have h : ((stlSlabInit .zero (2 ^ 12) 4096 20000).join.bind fun r =>
      ((Session.new r.2).run r.1 [.alloc 100, .alloc 5000, .free 8192, .free 12288]).map
        fun σ => (σ.live, decide (0 < r.2.last))) = some ([], true) := by
    decide +kernel
  simp only [Option.bind_eq_some_iff, Option.join_eq_some_iff, Option.map_eq_some_iff, Prod.mk.injEq,
    decide_eq_true_eq] at h
  obtain ⟨⟨g, pool⟩, hinit, σ, hrun, hlive, hpage⟩ := h
  exact ⟨g, pool, σ, hinit, hrun, hlive,
    session_coalesced ⟨12, by decide, by decide⟩ (by decide) hinit hpage hrun⟩

/-- Set-up does not write the back pointer of the first run, and on pages of 131072 bytes a client
cannot free what it holds. -/
theorem new_run_without_back_pointer :
    (∃ g pool, stlSlabInit .zero (2 ^ 12) 4096 20000 = some (some (g, pool)) ∧ 0 < pool.last ∧
        (Session.new pool).run g [] = some (Session.new pool) ∧
        ∀ runs, VacantRuns g (Session.new pool) runs → ¬ BackPointers pool runs) ∧
      ∃ g pool σ, stlSlabInit .zero (2 ^ 17) 4096 700000 = some (some (g, pool)) ∧ 0 < pool.last ∧
        (Session.new pool).run g [.alloc 65536, .alloc 65536] = some σ ∧ ¬ Coalesced g σ := by
  constructor
  · have h : ((stlSlabInit .zero (2 ^ 12) 4096 20000).join.map fun r =>
        (r.2.next .free, (r.2.slab (.page 0)).toNat, r.2.last, r.2.prev (.page 2))) =
          some (.page 0, 3, 3, bareTag .page) := by decide +kernel
    simp only [Option.join_eq_some_iff, Option.map_eq_some_iff, Prod.mk.injEq] at h
    obtain ⟨⟨g, pool⟩, hinit, hnext, hlen, hlast, hprev⟩ := h
    refine ⟨g, pool, hinit, by rw [hlast]; decide, rfl, ?_⟩
    intro runs hv hb
    have hf : FollowsRuns pool .free runs := hv.follows
    cases runs with
    | nil =>
      rw [FollowsRuns, hnext] at hf
      exact absurd hf (by simp)
    | cons r runs =>
      obtain ⟨a, n⟩ := r
      obtain ⟨ha, hn, -⟩ := hf
      obtain rfl : 0 = a := PageRef.page.inj (hnext.symm.trans ha)
      obtain rfl : 3 = n := hlen.symm.trans hn
      have hback := hb (0, 3) (by simp) (by decide)
      change pool.prev (.page 2) = _ at hback
      rw [hprev] at hback
      simp [bareTag] at hback
  · obtain ⟨g, pool, σ, hinit, -, hlast, hrun, hallow, hnone⟩ := free_undefined_131072
    refine ⟨g, pool, σ, hinit, hlast, hrun, ?_⟩
    intro h
    have hdef := h.defined _ hallow
    rw [hnone] at hdef
    exact absurd hdef (by simp)

end KirinFS.Slab
