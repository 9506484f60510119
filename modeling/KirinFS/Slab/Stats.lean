import KirinFS.Slab.Chunks
import KirinFS.Slab.Writes

/-! # The statistics of a pool

A slot counts the chunks of its pages and those of them that are out. Only
`setStat` writes the counters; page surgery leaves them alone.
-/

namespace KirinFS.Slab
open Foundation.Tiling Function

namespace StlSlabStat

def take (st : StlSlabStat) : StlSlabStat := { st with used := st.used + 1 }

def give (st : StlSlabStat) : StlSlabStat := { st with used := st.used - 1 }

def gain (st : StlSlabStat) (n : ℕ) : StlSlabStat := { st with total := st.total + BitVec.ofNat 64 n }

def lose (st : StlSlabStat) (n : ℕ) : StlSlabStat := { st with total := st.total - BitVec.ofNat 64 n }

end StlSlabStat

namespace StlSlab
variable {g : SlabGlobals} {pool q : StlSlab} {i shift slot a : ℕ}

theorem setStat_stats {f : StlSlabStat → StlSlabStat} (h : pool.setStat slot f = some q) :
    q.stats = update pool.stats slot (f (pool.stats slot)) :=
  (setStat_counts h).stats

theorem takeChunk_stats (h : pool.takeChunk g (.page i) shift slot = some (some (q, a))) :
    q.stats = update pool.stats slot (pool.stats slot).take :=
  (takeChunk_counts h).stats

/-- Chunks of a page of `2 ^ shift`-byte chunks that clients can have. -/
def usable (g : SlabGlobals) (shift : ℕ) : ℕ :=
  if shift < g.stlSlabExactShift then (g.stlPagesize >>> shift) - bitmapChunks g shift
  else if shift = g.stlSlabExactShift then wordBits
  else g.stlPagesize >>> shift

theorem newChunkPage_stats
    (h : (if shift < g.stlSlabExactShift then pool.newSmall g i shift slot
        else if shift = g.stlSlabExactShift then pool.newExact g i slot
        else pool.newBig g i shift slot) = some (q, a)) :
    q.stats = update pool.stats slot ((pool.stats slot).take.gain (usable g shift)) := by
  rw [usable]
  split at h
  · rename_i hsm
    rw [if_pos hsm]
    exact (counts_withMem (listed_counts (x := fun _ => _) h)).stats
  · rename_i hsm
    split at h
    · rename_i hex
      rw [if_neg hsm, if_pos hex]
      exact (listed_counts h).stats
    · rename_i hex
      rw [if_neg hsm, if_neg hex]
      exact (listed_counts h).stats

theorem freeDone_stats {p n : ℕ} (h : pool.freeDone p n slot = some q) :
    q.stats = update pool.stats slot (pool.stats slot).give :=
  (freeDone_counts h).stats

end StlSlab

def chunkPages (own : PageMap) (N s : ℕ) : ℕ := count own N fun l => decide (l = .chunks s)

/-- The counters are right when `u k` chunks of slot `k` are out. -/
structure Counted (ps : PageShift) (pool : StlSlab) (own : PageMap) (u : ℕ → ℕ) : Prop where
  total : ∀ k < ps.val - 3, (pool.stats k).total =
    BitVec.ofNat 64 (chunkPages own pool.last (k + 3) * StlSlab.usable (geo ps) (k + 3))
  used : ∀ k < ps.val - 3, (pool.stats k).used = BitVec.ofNat 64 (u k)

namespace Counted
variable {ps : PageShift} {pool pool' : StlSlab} {own own' : PageMap} {u : ℕ → ℕ} {k : ℕ}

theorem congr (h : Counted ps pool own u) (hlast : pool'.last = pool.last)
    (hpages : ∀ s, chunkPages own' pool.last s = chunkPages own pool.last s)
    (htotal : ∀ k, (pool'.stats k).total = (pool.stats k).total)
    (hused : ∀ k, (pool'.stats k).used = (pool.stats k).used) : Counted ps pool' own' u := by
  refine ⟨?_, ?_⟩
  · intro k hk
    rw [htotal, hlast, hpages]
    exact h.total k hk
  · intro k hk
    rw [hused]
    exact h.used k hk

theorem change (h : Counted ps pool own u) {st : StlSlabStat} {n : ℕ} (hlast : pool'.last = pool.last)
    (hstats : pool'.stats = update pool.stats k st)
    (htotal : k < ps.val - 3 → st.total =
      BitVec.ofNat 64 (chunkPages own' pool.last (k + 3) * StlSlab.usable (geo ps) (k + 3)))
    (hused : k < ps.val - 3 → st.used = BitVec.ofNat 64 n)
    (hpages : ∀ s, s ≠ k + 3 → chunkPages own' pool.last s = chunkPages own pool.last s) :
    Counted ps pool' own' (update u k n) := by
  refine ⟨?_, ?_⟩
  · intro m hm
    rw [hlast, hstats]
    by_cases hmk : m = k
    · subst hmk
      rw [update_self]
      exact htotal hm
    · rw [update_of_ne hmk, hpages _ (by omega)]
      exact h.total m hm
  · intro m hm
    rw [hstats]
    by_cases hmk : m = k
    · subst hmk
      rw [update_self, update_self]
      exact hused hm
    · rw [update_of_ne hmk, update_of_ne hmk]
      exact h.used m hm

theorem take_used (h : Counted ps pool own u) (hk : k < ps.val - 3) :
    (pool.stats k).take.used = BitVec.ofNat 64 (u k + 1) := by
  rw [StlSlabStat.take, h.used k hk, BitVec.ofNat_add]
  rfl

theorem give_used (h : Counted ps pool own u) (hk : k < ps.val - 3) (hpos : 0 < u k) :
    (pool.stats k).give.used = BitVec.ofNat 64 (u k - 1) := by
  obtain ⟨n, hn⟩ : ∃ n, u k = n + 1 := ⟨u k - 1, by omega⟩
  rw [StlSlabStat.give, h.used k hk, hn, BitVec.ofNat_add, Nat.add_sub_cancel]
  exact BitVec.add_sub_cancel _ _

theorem take (h : Counted ps pool own u) (hlast : pool'.last = pool.last)
    (hstats : pool'.stats = update pool.stats k (pool.stats k).take) :
    Counted ps pool' own (update u k (u k + 1)) :=
  h.change hlast hstats (h.total k) h.take_used fun _ _ => rfl

theorem give (h : Counted ps pool own u) (hpos : 0 < u k) (hlast : pool'.last = pool.last)
    (hstats : pool'.stats = update pool.stats k (pool.stats k).give) :
    Counted ps pool' own (update u k (u k - 1)) :=
  h.change hlast hstats (h.total k) (fun hk => h.give_used hk hpos) fun _ _ => rfl

theorem gain (h : Counted ps pool own u) (hlast : pool'.last = pool.last)
    (hstats : pool'.stats = update pool.stats k
      ((pool.stats k).take.gain (StlSlab.usable (geo ps) (k + 3))))
    (hnew : chunkPages own' pool.last (k + 3) = chunkPages own pool.last (k + 3) + 1)
    (hpages : ∀ s, s ≠ k + 3 → chunkPages own' pool.last s = chunkPages own pool.last s) :
    Counted ps pool' own' (update u k (u k + 1)) := by
  refine h.change hlast hstats ?_ h.take_used hpages
  intro hk
  rw [hnew, Nat.add_mul, Nat.one_mul, BitVec.ofNat_add, ← h.total k hk]
  rfl

theorem lose (h : Counted ps pool own u) (hpos : 0 < u k) (hlast : pool'.last = pool.last)
    (hstats : pool'.stats = update pool.stats k
      ((pool.stats k).lose (StlSlab.usable (geo ps) (k + 3))).give)
    (hgone : chunkPages own pool.last (k + 3) = chunkPages own' pool.last (k + 3) + 1)
    (hpages : ∀ s, s ≠ k + 3 → chunkPages own' pool.last s = chunkPages own pool.last s) :
    Counted ps pool' own' (update u k (u k - 1)) := by
  refine h.change hlast hstats ?_ (fun hk => h.give_used hk hpos) hpages
  intro hk
  have htotal := h.total k hk
  rw [hgone, Nat.add_mul, Nat.one_mul, BitVec.ofNat_add] at htotal
  rw [StlSlabStat.give, StlSlabStat.lose]
  simp only [htotal]
  exact BitVec.add_sub_cancel _ _

end Counted

/-- A page passes from a use that holds no chunks of class `s` to class `s`. -/
theorem chunkPages_paint {own : PageMap} {N i s : ℕ} {l : Use} (hi : i < N)
    (hown : (own i).label = l) (hl : ∀ s, l ≠ .chunks s) (s' : ℕ) :
    chunkPages (paint own i 1 (.chunks s)) N s' =
      chunkPages own N s' + if s' = s then 1 else 0 := by
  have hbefore : ∀ j, i ≤ j → j < i + 1 → decide ((own j).label = .chunks s') = false := by
    intro j hlo hhi
    obtain rfl : j = i := by omega
    rw [hown]
    exact decide_eq_false (hl s')
  by_cases hs : s' = s
  · rw [if_pos hs]
    exact count_paint_add _ (by omega) (decide_eq_true (by rw [hs])) hbefore
  · rw [if_neg hs, Nat.add_zero]
    refine count_paint_same _ fun j hlo hhi => (hbefore j hlo hhi).trans ?_
    exact (decide_eq_false fun h => hs (Use.chunks.inj h).symm).symm

theorem chunkPages_congr {own own' : PageMap} {N : ℕ}
    (h : ∀ j < N, ∀ s, (own' j).label = .chunks s ↔ (own j).label = .chunks s) (s : ℕ) :
    chunkPages own' N s = chunkPages own N s :=
  count_congr _ fun j hj => decide_eq_decide.mpr (h j hj s)

end KirinFS.Slab
