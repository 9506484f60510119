import KirinFS.Slab.Grants
import KirinFS.Slab.Stats

/-! # Taking chunks back -/

namespace KirinFS.Slab
open Foundation.Tiling Foundation.IntrusiveRing Foundation.WordBits Function

variable {ps : PageShift} {pool pool' q : StlSlab} {own own' : PageMap} {fresh : Bool}
  {i k c s p n : ℕ}

/-- Chunk `c` of page `i` has been given back, and the page is on its list. -/
structure ChunkCleared (ps : PageShift) (pool q : StlSlab) (own : PageMap) (i s c : ℕ) :
    Prop where
  inv : Inv ps q own false
  frame : SameFrame pool q
  notFull : ¬ Full ps q i s
  bit : ∀ d < chunkCount ps s, chunkBit ps q i s d = if d = c then false else chunkBit ps pool i s d
  bitsOut : ∀ j, j ≠ i → ∀ t, IsClass ps t → SameBits ps pool q j t

/-- A chunk bit can be cleared once the page is on its list. -/
theorem Inv.clearBit (hI : Inv ps pool own fresh) (hi : i < pool.last) (hk : k < ps.val - 3)
    (hown : own i = ⟨i, 1, .chunks (k + 3)⟩) {full : Prop} [Decidable full]
    (hfull : full ↔ Full ps pool i (k + 3)) :
    ∃ n p, (if full then pool.relistPage i k (kind ps (k + 3)) else some pool) =
        some (pool.withLinks n p) ∧
      ∀ q c, BitWrite ps (pool.withLinks n p) q i (k + 3) c false → reserved ps (k + 3) ≤ c →
        c < chunkCount ps (k + 3) → ChunkCleared ps pool q own i (k + 3) c := by
  by_cases hf : full
  · obtain ⟨n, p, heq, hclear⟩ := hI.clearFull hi hk hown (hfull.mp hf)
    refine ⟨n, p, by rw [if_pos hf]; exact heq, ?_⟩
    intro q c hw hc hcc
    exact ⟨hclear q c hw hc hcc, ⟨hw.frame.minShift, hw.frame.minSize, hw.frame.nslots,
      hw.frame.last, hw.frame.start, hw.frame.stop⟩, hw.not_full hcc, hw.bit, hw.bitsOut⟩
  · refine ⟨pool.next, pool.prev, by rw [if_neg hf]; rfl, ?_⟩
    intro q c hw hc hcc
    exact ⟨hI.writeListed hi hk hown (fun h => hf (hfull.mpr h)) hw (Or.inr hc) (hw.not_full hcc),
      hw.frame, hw.not_full hcc, hw.bit, hw.bitsOut⟩

structure Released (ps : PageShift) (pool pool' : StlSlab) (own own' : PageMap) (w : Grant) :
    Prop where
  good : Good ps pool' own' false
  frame : SameFrame pool pool'
  held : ∀ v : Grant, v.Held ps pool' own' ↔ v.Held ps pool own ∧ v ≠ w

namespace RunGiven

theorem held_iff (h : RunGiven ps pool pool' own own' i k) (w : Grant) : w.Held ps pool' own' ↔
      w.Held ps pool own ∧ (w.page < i ∨ i + k ≤ w.page) := by
  have hpage : ∀ l : Use, l ≠ .free → ∀ j < pool.last, (own' j).label = l ↔
      (own j).label = l ∧ (j < i ∨ i + k ≤ j) := by
    intro l hl j hj
    by_cases hin : j < i ∨ i + k ≤ j
    · rcases h.others j hj hin with heq | ⟨h₁, h₂⟩
      · simp [heq, hin]
      · simp [h₁, h₂, hl.symm]
    · rw [h.given j (by omega) (by omega)]
      simp [hin, hl.symm]
  cases w with
  | run j m =>
    simp only [Grant.Held, Grant.page, h.frozen.last]
    rw [and_assoc]
    refine and_congr_right fun hj => ?_
    constructor
    · intro heq
      have hout := ((hpage .busy (by simp) j hj).mp (by rw [heq])).2
      rcases h.others j hj hout with h' | ⟨-, h₂⟩
      · exact ⟨h'.symm.trans heq, hout⟩
      · rw [heq] at h₂
        simp at h₂
    · rintro ⟨heq, hout⟩
      rcases h.others j hj hout with h' | ⟨h₁, -⟩
      · rw [h', heq]
      · rw [heq] at h₁
        simp at h₁
  | chunk j s c =>
    simp only [Grant.Held, Grant.page, h.frozen.last]
    rw [and_assoc]
    refine and_congr_right fun hj => ?_
    rw [hpage (.chunks s) (by simp) j hj]
    constructor
    · rintro ⟨⟨hl, hout⟩, h₁, h₂, hbit⟩
      rw [h.bits j hj hout s hl c h₂] at hbit
      exact ⟨⟨hl, h₁, h₂, hbit⟩, hout⟩
    · rintro ⟨⟨hl, h₁, h₂, hbit⟩, hout⟩
      rw [← h.bits j hj hout s hl c h₂] at hbit
      exact ⟨⟨hl, hout⟩, h₁, h₂, hbit⟩

theorem good (h : RunGiven ps pool pool' own own' i k)
    (hocc : ∀ j < pool.last, j < i ∨ i + k ≤ j → ∀ s, (own j).label = .chunks s →
      Occupied ps pool j s) : Good ps pool' own' false := by
  have hlast := h.frozen.last
  refine ⟨h.inv, h.settled, ?_⟩
  intro j hj s hl
  rw [hlast] at hj
  by_cases hout : j < i ∨ i + k ≤ j
  · rcases h.others j hj hout with heq | ⟨-, h₂⟩
    · rw [heq] at hl
      rw [(h.bits j hj hout s hl).occupied_iff]
      exact hocc j hj hout s hl
    · rw [h₂] at hl
      simp at hl
  · rw [h.given j (by omega) (by omega)] at hl
    simp at hl

end RunGiven

section Clearing

theorem clearMem_sameBits {j t : ℕ}
    (hout : t < ps - 6 → ∀ d < chunkCount ps t,
      pool.pageAddr (geo ps) j / 8 + d / 64 < p / 8 ∨
        (p + n) / 8 ≤ pool.pageAddr (geo ps) j / 8 + d / 64) :
    SameBits ps pool (pool.clearMem p n) j t := by
  intro d hd
  simp only [chunkBit]
  split
  · next hsm =>
    have ho := hout hsm d hd
    change (if p / 8 ≤ pool.pageAddr (geo ps) j / 8 + d / 64 ∧
      pool.pageAddr (geo ps) j / 8 + d / 64 < (p + n) / 8 then 0 else _ : Word).getLsbD _ = _
    rw [if_neg (by omega)]
    rfl
  · rfl

end Clearing

/-- Giving a run back leaves the other pages of a class alone. -/
theorem RunGiven.chunkPages_eq (h : RunGiven ps pool pool' own own' i 1) (hi : i < pool.last)
    {l : Use} (hl : (own i).label = l) (t : ℕ) :
    chunkPages own pool.last t = chunkPages own' pool.last t + if l = .chunks t then 1 else 0 := by
  have hgiven := h.given i le_rfl (by omega)
  have hback : chunkPages own pool.last t = chunkPages (paint own' i 1 l) pool.last t := by
    refine count_congr _ fun j hj => ?_
    by_cases hji : j = i
    · rw [hji, paint_inside (by omega), hl]
    · rw [paint_outside (by omega)]
      rcases h.others j hj (by omega) with heq | ⟨h₁, h₂⟩
      · rw [heq]
      · rw [h₁, h₂]
  have hfree : ∀ j, i ≤ j → j < i + 1 → decide ((own' j).label = .chunks t) = false := by
    intro j hlo hhi
    obtain rfl : j = i := by omega
    rw [hgiven]
    exact decide_eq_false (by simp)
  rw [hback]
  by_cases hlt : l = .chunks t
  · rw [if_pos hlt]
    exact count_paint_add _ (by omega) (decide_eq_true hlt) hfree
  · rw [if_neg hlt, Nat.add_zero]
    exact count_paint_same _ fun j hlo hhi => (hfree j hlo hhi).trans (decide_eq_false hlt).symm

theorem RunGiven.chunks_eq {m : ℕ} (h : RunGiven ps pool pool' own own' i m) {j t : ℕ}
    (hj : j < pool.last) (hl : (own' j).label = .chunks t) : own' j = own j := by
  have hout : j < i ∨ i + m ≤ j := by
    by_contra hin
    rw [h.given j (by omega) (by omega)] at hl
    simp at hl
  rcases h.others j hj hout with heq | ⟨-, hfree⟩
  · exact heq
  · rw [hfree] at hl
    simp at hl

theorem freeDone_eq (hk : k < pool.nslots) :
    ∃ st, pool.freeDone p n k = some ((pool.withStats st).clearMem p n) := by
  obtain ⟨st, hst⟩ := setStat_eq pool hk fun st => { st with used := st.used - 1 }
  exact ⟨st, by simp only [StlSlab.freeDone, hst, Option.bind_eq_bind, Option.bind_some]⟩

theorem Good.withMem (hG : Good ps pool own fresh) {mem : ℕ → Word}
    (hbits : ∀ j < pool.last, ∀ s, (own j).label = .chunks s →
      SameBits ps pool { pool with mem := mem } j s) :
    Good ps { pool with mem := mem } own fresh ∧
      ∀ v : Grant, v.Held ps { pool with mem := mem } own ↔ v.Held ps pool own := by
  refine ⟨⟨hG.inv.withMem hbits, hG.settled, ?_⟩, ?_⟩
  · intro j hj s hl
    rw [(hbits j hj s hl).occupied_iff]
    exact hG.occupied j hj s hl
  · intro v
    cases v with
    | run j m => exact Iff.rfl
    | chunk j s c =>
      refine and_congr_right fun hj => and_congr_right fun hl => and_congr_right fun _ =>
        and_congr_right fun hc => ?_
      rw [hbits j hj s hl c hc]

theorem Good.clearMem (hG : Good ps pool own fresh)
    (hbits : ∀ j < pool.last, ∀ s, (own j).label = .chunks s →
      SameBits ps pool (pool.clearMem p n) j s) :
    Good ps (pool.clearMem p n) own fresh ∧
      ∀ v : Grant, v.Held ps (pool.clearMem p n) own ↔ v.Held ps pool own :=
  hG.withMem hbits

section Finish
variable (hG : Good ps pool own fresh) (hw : (Grant.chunk i (k + 3) c).Held ps pool own)
  (hq : ChunkCleared ps pool q own i (k + 3) c) (hst : q.stats = pool.stats)

include hw hq

theorem ChunkCleared.page_ne (hocc : ¬ Occupied ps q i (k + 3)) {v : Grant}
    (hv : v.Held ps pool own) (hne : v ≠ .chunk i (k + 3) c) : v.page ≠ i := by
  obtain ⟨hi, hl, -⟩ := hw
  rintro rfl
  cases v with
  | run j m =>
    have hrun : (own j).label = .busy := congrArg Block.label hv.2
    rw [Grant.page, hrun] at hl
    simp at hl
  | chunk j t d =>
    obtain rfl : k + 3 = t := Use.chunks.inj (hl.symm.trans hv.2.1)
    have hd : d ≠ c := by
      rintro rfl
      exact hne rfl
    refine hocc ⟨d, hv.2.2.1, hv.2.2.2.1, ?_⟩
    have hbit := hq.bit d hv.2.2.2.1
    rw [if_neg hd] at hbit
    exact hbit.trans hv.2.2.2.2

include hG

theorem ChunkCleared.held_iff (v : Grant) :
    v.Held ps q own ↔ v.Held ps pool own ∧ v ≠ .chunk i (k + 3) c := by
  obtain ⟨hi, hl, -⟩ := hw
  have hlast := hq.frame.last
  cases v with
  | run j m => simp [Grant.Held, hlast]
  | chunk j t d =>
    simp only [Grant.Held, hlast, ne_eq, Grant.chunk.injEq]
    by_cases hj : j = i
    · subst hj
      constructor
      · rintro ⟨hj, hlj, h₁, h₂, hbit⟩
        obtain rfl : k + 3 = t := Use.chunks.inj (hl.symm.trans hlj)
        rw [hq.bit d h₂] at hbit
        by_cases hd : d = c
        · simp [hd] at hbit
        · rw [if_neg hd] at hbit
          exact ⟨⟨hj, hlj, h₁, h₂, hbit⟩, fun h => hd h.2.2⟩
      · rintro ⟨⟨hj, hlj, h₁, h₂, hbit⟩, hne⟩
        obtain rfl : k + 3 = t := Use.chunks.inj (hl.symm.trans hlj)
        refine ⟨hj, hlj, h₁, h₂, ?_⟩
        rw [hq.bit d h₂, if_neg (fun hd => hne ⟨rfl, rfl, hd⟩)]
        exact hbit
    · simp only [hj, false_and, not_false_eq_true, and_true]
      refine and_congr_right fun hjl => and_congr_right fun hlj => and_congr_right fun _ =>
        and_congr_right fun hd => ?_
      rw [hq.bitsOut j hj t (hG.inv.isClass hjl hlj) d hd]

include hst

/-- The page keeps a chunk out: only the bytes are cleared. -/
theorem ChunkCleared.kept (hocc : Occupied ps q i (k + 3)) :
    ∃ pool', q.freeDone ((Grant.chunk i (k + 3) c).addr ps pool) (2 ^ (k + 3)) k = some pool' ∧
      Released ps pool pool' own own (.chunk i (k + 3) c) ∧
      ∀ u, 0 < u k → Counted ps pool own u → Counted ps pool' own (update u k (u k - 1)) := by
  have hi := hw.1
  have hl := hw.2.1
  have hs := hG.inv.isClass hi hl
  have hslots : k < q.nslots := by
    rw [hq.inv.base.nslots]
    have h := hs.2
    omega
  obtain ⟨st, hdone⟩ := freeDone_eq (p := (Grant.chunk i (k + 3) c).addr ps pool)
    (n := 2 ^ (k + 3)) hslots
  have hGq : Good ps (q.withStats st) own false := by
    refine Good.withStats ⟨hq.inv, hG.settled.frame hq.frame, ?_⟩ st
    intro j hj t hlj
    rw [hq.frame.last] at hj
    by_cases hji : j = i
    · subst hji
      obtain rfl : k + 3 = t := Use.chunks.inj (hl.symm.trans hlj)
      exact hocc
    · rw [(hq.bitsOut j hji t (hG.inv.isClass hj hlj)).occupied_iff]
      exact hG.occupied j hj t hlj
  obtain ⟨hgood, hheld⟩ := hGq.clearMem (p := (Grant.chunk i (k + 3) c).addr ps pool)
    (n := 2 ^ (k + 3)) (by
      intro j hj t hlj
      apply clearMem_sameBits
      intro hsm d hd
      change q.pageAddr (geo ps) j / 8 + d / 64 < _ ∨ _ ≤ q.pageAddr (geo ps) j / 8 + d / 64
      rw [StlSlab.pageAddr, hq.frame.start]
      exact hw.words_out hG hlj (hGq.inv.isClass hj hlj) hsm hd)
  have hstats := StlSlab.freeDone_stats hdone
  rw [hst] at hstats
  exact ⟨_, hdone, ⟨hgood, ⟨hq.frame.minShift, hq.frame.minSize, hq.frame.nslots, hq.frame.last,
    hq.frame.start, hq.frame.stop⟩, fun v => (hheld v).trans (hq.held_iff hG hw v)⟩,
    fun u hpos hu => hu.give hpos hq.frame.last hstats⟩

omit hG in
/-- The statistics after the last chunk of a page has gone. -/
theorem ChunkCleared.vacated_counted {q₁ q₂ : StlSlab} (hgiven : RunGiven ps q q₁ own own' i 1)
    (h₂ : (q₁.setStat k fun st => st.lose (StlSlab.usable (geo ps) (k + 3))) = some q₂)
    (h₃ : q₂.freeDone p n k = some pool') (h₄ : pool'.last = q₁.last) {u : ℕ → ℕ} (hpos : 0 < u k)
    (hu : Counted ps pool own u) : Counted ps pool' own' (update u k (u k - 1)) := by
  obtain ⟨hi, hl, -⟩ := hw
  have hlast := hq.frame.last
  have hstats := StlSlab.freeDone_stats h₃
  rw [StlSlab.setStat_stats h₂, hgiven.frozen.stats, hst, update_self, update_idem] at hstats
  have hpages := hgiven.chunkPages_eq (by rw [hlast]; exact hi) hl
  rw [hlast] at hpages
  refine hu.lose hpos (h₄.trans (hgiven.frozen.last.trans hlast)) hstats ?_ fun t ht => ?_
  · rw [hpages, if_pos rfl]
  · rw [hpages, if_neg (fun h => ht (Use.chunks.inj h).symm), Nat.add_zero]

/-- The last chunk of a page goes, and the page with it. -/
theorem ChunkCleared.vacated (hocc : ¬ Occupied ps q i (k + 3)) :
    ∃ q₁ q₂ pool' own', q.stlSlabFreePages i 1 = some q₁ ∧
      (q₁.setStat k fun st => st.lose (StlSlab.usable (geo ps) (k + 3))) = some q₂ ∧
      q₂.freeDone ((Grant.chunk i (k + 3) c).addr ps pool) (2 ^ (k + 3)) k = some pool' ∧
      Released ps pool pool' own own' (.chunk i (k + 3) c) ∧
      ∀ u, 0 < u k → Counted ps pool own u → Counted ps pool' own' (update u k (u k - 1)) := by
  have hi := hw.1
  have hl := hw.2.1
  have hs := hG.inv.isClass hi hl
  have hk : k < ps.val - 3 := by
    have h := hs.2
    omega
  have hlast := hq.frame.last
  obtain ⟨q₁, own', hfree, hgiven⟩ := stlSlabFreePages_chunks hq.inv (hG.settled.frame hq.frame)
    (by rw [hlast]; exact hi) hk (hG.inv.own_chunks hi hl) hq.notFull
  have hslots : k < q₁.nslots := by
    rw [hgiven.inv.base.nslots]
    exact hk
  obtain ⟨st₁, hst₁⟩ := setStat_eq q₁ hslots fun st =>
    st.lose (StlSlab.usable (geo ps) (k + 3))
  obtain ⟨st₂, hdone⟩ := freeDone_eq (p := (Grant.chunk i (k + 3) c).addr ps pool) (n := 2 ^ (k + 3))
    (show k < (q₁.withStats st₁).nslots from hslots)
  have hG₁ : Good ps q₁ own' false := by
    refine hgiven.good ?_
    intro j hj hout t hlj
    rw [hlast] at hj
    rw [(hq.bitsOut j (by omega) t (hG.inv.isClass hj hlj)).occupied_iff]
    exact hG.occupied j hj t hlj
  have hstart : q₁.start = pool.start := hgiven.frozen.start.trans hq.frame.start
  obtain ⟨hgood, hheld⟩ := ((hG₁.withStats st₁).withStats st₂).clearMem
    (p := (Grant.chunk i (k + 3) c).addr ps pool) (n := 2 ^ (k + 3)) (by
      intro j hj t hlj
      apply clearMem_sameBits
      intro hsm d hd
      change q₁.pageAddr (geo ps) j / 8 + d / 64 < _ ∨ _ ≤ q₁.pageAddr (geo ps) j / 8 + d / 64
      change j < q₁.last at hj
      rw [hgiven.frozen.last] at hj
      rw [hgiven.chunks_eq hj hlj] at hlj
      rw [StlSlab.pageAddr, hstart]
      rw [hlast] at hj
      exact hw.words_out hG hlj (hG.inv.isClass hj hlj) hsm hd)
  refine ⟨q₁, _, _, own', hfree, hst₁, hdone, ⟨hgood,
    hq.frame.trans (hgiven.frozen.toSameFrame.trans ⟨rfl, rfl, rfl, rfl, rfl, rfl⟩), ?_⟩,
    fun u hpos hu => hq.vacated_counted hw hst hgiven hst₁ hdone rfl hpos hu⟩
  intro v
  refine ((hheld v).trans (hgiven.held_iff v)).trans ?_
  rw [hq.held_iff hG hw]
  constructor
  · exact fun h => h.1
  · rintro ⟨hv, hne⟩
    have hpage := hq.page_ne hw hocc hv hne
    exact ⟨⟨hv, hne⟩, by omega⟩

theorem ChunkCleared.finish {b : Prop} [Decidable b] (hb : b ↔ ¬ Occupied ps q i (k + 3))
    {f : StlSlabStat → StlSlabStat}
    (hf : f = fun st => st.lose (StlSlab.usable (geo ps) (k + 3))) :
    ∃ pool' own', (if b then (q.stlSlabFreePages i 1).bind fun q₁ => (q₁.setStat k f).bind fun q₂ =>
          q₂.freeDone ((Grant.chunk i (k + 3) c).addr ps pool) (2 ^ (k + 3)) k
        else q.freeDone ((Grant.chunk i (k + 3) c).addr ps pool) (2 ^ (k + 3)) k) = some pool' ∧
      Released ps pool pool' own own' (.chunk i (k + 3) c) ∧
      ∀ u, 0 < u k → Counted ps pool own u → Counted ps pool' own' (update u k (u k - 1)) := by
  by_cases hocc : Occupied ps q i (k + 3)
  · obtain ⟨pool', heq, hr⟩ := hq.kept hG hw hst hocc
    exact ⟨pool', own, by rw [if_neg (fun h => hb.mp h hocc), heq], hr⟩
  · obtain ⟨q₁, q₂, pool', own', h₁, h₂, h₃, hr⟩ := hq.vacated hG hw hst hocc
    refine ⟨pool', own', ?_, hr⟩
    rw [if_pos (hb.mpr hocc), h₁, Option.bind_some, hf, h₂, Option.bind_some, h₃]

end Finish

end KirinFS.Slab
