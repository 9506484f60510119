import KirinFS.Slab.Grants
import KirinFS.Slab.Stats

/-! # `stl_slab_alloc` adds one grant or fails -/

namespace KirinFS.Slab
open Foundation.Tiling Foundation.IntrusiveRing Function

variable {ps : PageShift} {pool pool' : StlSlab} {own own' : PageMap} {fresh : Bool}
  {i k size : ℕ}

section Sizes

/-- The class of a small request has a slot and is large enough. -/
theorem classShift_spec (hb : Base ps pool) (hsz : size ≤ 2 ^ ps.val / 2) :
    ∃ k, pool.classShift size = k + 3 ∧ k < ps.val - 3 ∧ size ≤ 2 ^ (k + 3) := by
  have hlo := ps.lo
  have hhi := ps.hi
  rw [StlSlab.classShift, hb.minSize, hb.minShift]
  by_cases h8 : 8 < size
  · rw [if_pos h8]
    have hhalf : 2 ^ ps.val / 2 = 2 ^ (ps.val - 1) := by
      rw [← Nat.pow_div (by omega) (by omega), pow_one]
    have hle := @pagesize_le ps
    obtain ⟨h₁, h₂⟩ := @halvings_spec 64 (size - 1) (by omega) (by omega)
    have hup : halvings 64 (size - 1) < ps.val - 1 := by
      rw [← Nat.pow_lt_pow_iff_right (a := 2) (by omega)]
      omega
    have hdown : 3 < halvings 64 (size - 1) + 1 := by
      rw [← Nat.pow_lt_pow_iff_right (a := 2) (by omega)]
      omega
    refine ⟨halvings 64 (size - 1) - 2, by omega, by omega, ?_⟩
    rw [show halvings 64 (size - 1) - 2 + 3 = halvings 64 (size - 1) + 1 by omega]
    omega
  · rw [if_neg h8]
    exact ⟨0, rfl, by omega, by omega⟩

theorem pagesFor_spec (hsz : 2 ^ ps.val / 2 < size) :
    0 < StlSlab.pagesFor (geo ps) size ∧
      size ≤ StlSlab.pagesFor (geo ps) size * 2 ^ ps.val := by
  have hpos := Nat.two_pow_pos ps.val
  have hdm := Nat.div_add_mod size (2 ^ ps.val)
  have hlt := Nat.mod_lt size hpos
  rw [StlSlab.pagesFor, Nat.shiftRight_eq_div_pow]
  change 0 < size / 2 ^ ps.val + (if size % 2 ^ ps.val ≠ 0 then 1 else 0) ∧
    size ≤ (size / 2 ^ ps.val + if size % 2 ^ ps.val ≠ 0 then 1 else 0) * 2 ^ ps.val
  rw [Nat.add_mul, Nat.mul_comm (size / 2 ^ ps.val)]
  generalize size / 2 ^ ps.val = d at hdm ⊢
  generalize size % 2 ^ ps.val = r at hdm hlt ⊢
  by_cases h0 : r = 0
  · rw [if_neg (by simpa using h0)]
    refine ⟨?_, by omega⟩
    by_contra hz
    obtain rfl : d = 0 := by omega
    omega
  · rw [if_pos h0]
    omega

theorem pagesFor_mul (n : ℕ) : StlSlab.pagesFor (geo ps) (n * 2 ^ ps.val) = n := by
  rw [StlSlab.pagesFor, Nat.shiftRight_eq_div_pow]
  change n * 2 ^ ps.val / 2 ^ ps.val + (if n * 2 ^ ps.val % 2 ^ ps.val ≠ 0 then 1 else 0) = n
  rw [Nat.mul_div_cancel _ (Nat.two_pow_pos _), Nat.mul_mod_left]
  simp

end Sizes

theorem takeChunk_spec (hI : Inv ps pool own fresh) (hi : i < pool.last) (hk : k < ps.val - 3)
    (hown : own i = ⟨i, 1, .chunks (k + 3)⟩) (hnf : ¬ Full ps pool i (k + 3)) :
    ∃ pool' c, pool.takeChunk (geo ps) (.page i) (k + 3) k =
        some (some (pool', pool.pageAddr (geo ps) i + c * 2 ^ (k + 3))) ∧
      ChunkTaken ps pool pool' own i (k + 3) c := by
  have hx : (geo ps).stlSlabExactShift = ps.val - 6 := rfl
  rcases lt_trichotomy (k + 3) (ps.val - 6) with h | h | h
  · obtain ⟨pool', c, heq, ht⟩ := takeSmall_spec hI hi hk hown hnf h
    exact ⟨pool', c, (if_pos h).trans heq, ht⟩
  · obtain ⟨pool', c, heq, ht⟩ := takeExact_spec hI hi hk hown hnf h
    exact ⟨pool', c, (if_neg (by omega)).trans ((if_pos h).trans heq), ht⟩
  · obtain ⟨pool', c, heq, ht⟩ := takeBig_spec hI hi hk hown hnf h
    exact ⟨pool', c, (if_neg (by omega)).trans ((if_neg (by omega)).trans heq), ht⟩

/-- A page that has just been taken becomes a chunk page with one chunk out. -/
theorem newPage_spec (hb : Base ps pool) (hi : i < pool.last) (hk : k < ps.val - 3) :
    ∃ pool', (if k + 3 < (geo ps).stlSlabExactShift then pool.newSmall (geo ps) i (k + 3) k
        else if k + 3 = (geo ps).stlSlabExactShift then pool.newExact (geo ps) i k
        else pool.newBig (geo ps) i (k + 3) k) =
          some (pool', pool.pageAddr (geo ps) i + reserved ps (k + 3) * 2 ^ (k + 3)) ∧
      PageInit ps pool pool' i k := by
  have hx : (geo ps).stlSlabExactShift = ps.val - 6 := rfl
  rcases lt_trichotomy (k + 3) (ps.val - 6) with h | h | h
  · obtain ⟨pool', heq, ht⟩ := newSmall_spec hb hi hk h
    exact ⟨pool', (if_pos h).trans heq, ht⟩
  · obtain ⟨pool', heq, ht⟩ := newExact_spec hb hi hk h
    exact ⟨pool', (if_neg (by omega)).trans ((if_pos h).trans heq), ht⟩
  · obtain ⟨pool', heq, ht⟩ := newBig_spec hb hi hk h
    exact ⟨pool', (if_neg (by omega)).trans ((if_neg (by omega)).trans heq), ht⟩

def AllocFails (pool : StlSlab) (own : PageMap) (r : Option (StlSlab × ℕ))
    (n : ℕ) : Prop :=
  ∃ st, r = some (pool.withStats st, 0) ∧
    ∀ i < pool.last, (own i).label = .free → (own i).len < n

structure Granted (ps : PageShift) (pool pool' : StlSlab) (own own' : PageMap) (w : Grant) :
    Prop where
  good : Good ps pool' own' false
  frame : SameFrame pool pool'
  fresh : ¬ w.Held ps pool own
  held : ∀ v : Grant, v.Held ps pool' own' ↔ v.Held ps pool own ∨ v = w

/-- The counters of chunks are as before; requests and failures may not be. -/
def KeepsCounters (st st' : ℕ → StlSlabStat) : Prop :=
  ∀ k, (st' k).total = (st k).total ∧ (st' k).used = (st k).used

theorem keepsCounters_setStat {q : StlSlab} {f : StlSlabStat → StlSlabStat}
    (h : pool.setStat k f = some q) (hf : ∀ st, (f st).total = st.total ∧ (f st).used = st.used) :
    KeepsCounters pool.stats q.stats := by
  intro m
  rw [StlSlab.setStat_stats h]
  by_cases hm : m = k
  · subst hm
    rw [update_self]
    exact hf _
  · rw [update_of_ne hm]
    exact ⟨rfl, rfl⟩

theorem KeepsCounters.counted {st : ℕ → StlSlabStat} (h : KeepsCounters pool.stats st) {u : ℕ → ℕ}
    (hc : Counted ps pool own u) : Counted ps (pool.withStats st) own u :=
  hc.congr rfl (fun _ => rfl) (fun k => (h k).1) fun k => (h k).2

theorem RunTaken.chunkPages_eq {n : ℕ} (h : RunTaken ps pool pool' own own' i n) (s : ℕ) :
    chunkPages own' pool.last s = chunkPages own pool.last s := by
  apply chunkPages_congr
  intro j _ t
  by_cases hin : i ≤ j ∧ j < i + n
  · rw [h.taken j hin.1 hin.2, h.wasFree j hin.1 hin.2]
    simp
  · rcases h.others j (by omega) with heq | ⟨h₁, h₂⟩
    · rw [heq]
    · simp [h₁, h₂]

theorem newChunkPage_spec (hG : Good ps pool own fresh) (hk : k < ps.val - 3)
    (hempty : listed ps pool own (k + 3) = ∅) :
    (∃ st, pool.newChunkPage (geo ps) (k + 3) k = some (pool.withStats st, 0) ∧
        KeepsCounters pool.stats st ∧ ∀ i < pool.last, (own i).label = .free → (own i).len < 1) ∨
      ∃ pool' own' i c, pool.newChunkPage (geo ps) (k + 3) k =
          some (pool', (Grant.chunk i (k + 3) c).addr ps pool) ∧
        Granted ps pool pool' own own' (.chunk i (k + 3) c) ∧
        ∀ u, Counted ps pool own u → Counted ps pool' own' (update u k (u k + 1)) := by
  rcases StlSlab.stlSlabAllocPages_spec hG.inv (k := 1) (by omega) with
    ⟨heq, hshort⟩ | ⟨i, pool₁, own₁, heq, ht⟩
  · left
    obtain ⟨st, hst⟩ := setStat_eq pool (by rw [hG.inv.base.nslots]; exact hk : k < pool.nslots)
      fun st => { st with fails := st.fails + 1 }
    refine ⟨st, ?_, keepsCounters_setStat hst fun _ => ⟨rfl, rfl⟩, hshort⟩
    simp only [StlSlab.newChunkPage, heq, hst, Option.bind_eq_bind, Option.bind_some]
  · right
    have hfit := ht.fits
    have hown := ht.taken i le_rfl (by omega)
    have hi : i < pool₁.last := by rw [ht.frozen.last]; omega
    obtain ⟨pool', hnew, hp⟩ := newPage_spec ht.inv.base hi hk
    have hG₁ := ht.good hG
    have hempty₁ : listed ps pool₁ own₁ (k + 3) = ∅ := by
      rw [Set.eq_empty_iff_forall_notMem]
      rintro r ⟨j, rfl, hj, hl, hf⟩
      rw [ht.frozen.last] at hj
      have hlj : (own j).label = .chunks (k + 3) := by
        by_cases hin : i ≤ j ∧ j < i + 1
        · rw [ht.taken j hin.1 hin.2] at hl
          simp at hl
        · rcases ht.others j (by omega) with heq | ⟨-, h₂⟩
          · rwa [heq] at hl
          · rw [h₂] at hl
            simp at hl
      rw [(ht.bits j hj _ hlj).full_iff] at hf
      have hx : PageRef.page j ∈ listed ps pool own (k + 3) := page_mem_listed.mpr ⟨hj, hlj, hf⟩
      rw [hempty] at hx
      exact Set.notMem_empty _ hx
    refine ⟨pool', _, i, reserved ps (k + 3), ?_, ⟨hp.good hG₁ hi hk hown hempty₁,
      ht.frozen.toSameFrame.trans hp.frame, ?_, ?_⟩, ?_⟩
    · simp only [StlSlab.newChunkPage, heq, Option.bind_eq_bind, Option.bind_some]
      rw [hnew, Grant.addr, StlSlab.pageAddr, StlSlab.pageAddr, ht.frozen.start]
    · rintro ⟨-, hl, -⟩
      rw [ht.wasFree i le_rfl (by omega)] at hl
      simp at hl
    · intro v
      rw [hp.held_iff ht.inv hi hk hown, ht.held_iff (by omega)]
      constructor
      · rintro (⟨h | h, hne⟩ | h)
        · exact Or.inl h
        · exact absurd h hne
        · exact Or.inr h
      · rintro (h | h)
        · refine Or.inl ⟨Or.inl h, ?_⟩
          rintro rfl
          have hfree := ht.wasFree i le_rfl (by omega)
          rw [h.2] at hfree
          simp at hfree
        · exact Or.inr h
    · intro u hu
      have hpages := chunkPages_paint (s := k + 3) hi (congrArg Block.label hown) (by simp)
      have hu₁ : Counted ps pool₁ own₁ u :=
        hu.congr ht.frozen.last ht.chunkPages_eq (fun _ => by rw [ht.frozen.stats])
          fun _ => by rw [ht.frozen.stats]
      refine hu₁.gain hp.frame.last (StlSlab.newChunkPage_stats hnew) ?_ fun s hs => ?_
      · rw [hpages, if_pos rfl]
      · rw [hpages, if_neg hs, Nat.add_zero]

def pagesNeeded (ps : PageShift) (size : ℕ) : ℕ :=
  if (geo ps).stlSlabMaxSize < size then StlSlab.pagesFor (geo ps) size else 1

theorem stlSlabAlloc_pages (hG : Good ps pool own fresh) {size : ℕ}
    (hbig : (geo ps).stlSlabMaxSize < size) :
    (pool.stlSlabAlloc (geo ps) size = some (pool.withStats pool.stats, 0) ∧
        ∀ i < pool.last, (own i).label = .free →
          (own i).len < StlSlab.pagesFor (geo ps) size) ∨
      ∃ pool' own' i, pool.stlSlabAlloc (geo ps) size =
          some (pool', (Grant.run i (StlSlab.pagesFor (geo ps) size)).addr ps pool) ∧
        Granted ps pool pool' own own' (.run i (StlSlab.pagesFor (geo ps) size)) ∧
        ∀ u, Counted ps pool own u → Counted ps pool' own' u := by
  have hk := (pagesFor_spec hbig).1
  rcases StlSlab.stlSlabAllocPages_spec hG.inv hk with ⟨heq, hshort⟩ | ⟨i, pool', own', heq, ht⟩
  · refine Or.inl ⟨?_, hshort⟩
    simp [StlSlab.stlSlabAlloc, hbig, heq]
    rfl
  · refine Or.inr ⟨pool', own', i, ?_, ⟨ht.good hG, ht.frozen.toSameFrame, ?_, ht.held_iff hk⟩, ?_⟩
    · simp [StlSlab.stlSlabAlloc, hbig, heq, StlSlab.pageAddr, ht.frozen.start, Grant.addr]
    · rintro ⟨-, hown⟩
      have hfree := ht.wasFree i le_rfl (by omega)
      rw [hown] at hfree
      simp at hfree
    · intro u hu
      exact hu.congr ht.frozen.last ht.chunkPages_eq (fun _ => by rw [ht.frozen.stats])
        fun _ => by rw [ht.frozen.stats]

/-- Every outcome of a request, with what it does to the counters. -/
theorem stlSlabAlloc_counted (hG : Good ps pool own fresh) (size : ℕ) :
    (∃ st, pool.stlSlabAlloc (geo ps) size = some (pool.withStats st, 0) ∧
        KeepsCounters pool.stats st ∧
        (∀ i < pool.last, (own i).label = .free → (own i).len < pagesNeeded ps size) ∧
        (size ≤ (geo ps).stlSlabMaxSize → listed ps pool own (pool.classShift size) = ∅)) ∨
      ∃ pool' own' w, pool.stlSlabAlloc (geo ps) size = some (pool', w.addr ps pool) ∧
        w.Serves ps pool size ∧ Granted ps pool pool' own own' w ∧
        ∀ u, Counted ps pool own u → Counted ps pool' own' (w.charge u) := by
  by_cases hbig : (geo ps).stlSlabMaxSize < size
  · rw [pagesNeeded, if_pos hbig]
    rcases stlSlabAlloc_pages hG hbig with ⟨heq, hshort⟩ | ⟨pool', own', i, heq, hgr, hcount⟩
    · exact Or.inl ⟨pool.stats, heq, fun _ => ⟨rfl, rfl⟩, hshort,
        fun hle => absurd hle (Nat.not_le.mpr hbig)⟩
    · exact Or.inr ⟨pool', own', .run i (StlSlab.pagesFor (geo ps) size), heq, ⟨hbig, rfl⟩, hgr,
        hcount⟩
  · rw [pagesNeeded, if_neg hbig]
    obtain ⟨k, hshift, hk, -⟩ := classShift_spec hG.inv.base (not_lt.mp hbig)
    have hhi := ps.hi
    have hslot := hG.inv.base.slot_eq hk
    obtain ⟨st, hst⟩ := setStat_eq pool (by rw [hG.inv.base.nslots]; exact hk : k < pool.nslots)
      fun st => { st with reqs := st.reqs + 1 }
    have hkeeps : KeepsCounters pool.stats st := keepsCounters_setStat hst fun _ => ⟨rfl, rfl⟩
    have hG₁ := hG.withStats st
    have hf : SameFrame pool (pool.withStats st) := ⟨rfl, rfl, rfl, rfl, rfl, rfl⟩
    have hring := hG₁.inv.slotRing k hk
    have hvalid := listed_slot_valid hG₁.inv hk
    by_cases hempty : listed ps (pool.withStats st) own (k + 3) = ∅
    · have hnext : (pool.withStats st).next (.slot k) = .slot k :=
        hring.next_sentinel_eq_iff.mpr hempty
      have heq : pool.stlSlabAlloc (geo ps) size =
          (pool.withStats st).newChunkPage (geo ps) (k + 3) k := by
        simp only [StlSlab.stlSlabAlloc, if_neg hbig, hshift, hslot, hst, hnext,
          hvalid _ (Or.inl rfl), Option.bind_eq_bind, Option.bind_some, if_true, ne_eq, not_true,
          if_false]
      rw [heq]
      rcases newChunkPage_spec hG₁ hk hempty with
        ⟨st', h, hkeeps', hshort⟩ | ⟨pool', own', i, c, h, hgr, hcount⟩
      · refine Or.inl ⟨st', h, fun m => ?_, hshort, fun _ => ?_⟩
        · exact ⟨(hkeeps' m).1.trans (hkeeps m).1, (hkeeps' m).2.trans (hkeeps m).2⟩
        · rw [hshift]
          exact hempty
      · exact Or.inr ⟨pool', own', .chunk i (k + 3) c, h, ⟨not_lt.mp hbig, hshift.symm⟩,
          ⟨hgr.good, hf.trans hgr.frame, hgr.fresh, hgr.held⟩,
          fun u hu => hcount u (hkeeps.counted hu)⟩
    · have hmem : (pool.withStats st).next (.slot k) ∈ listed ps (pool.withStats st) own (k + 3) := by
        rcases hring.next_sentinel with h | h
        · exact absurd (hring.next_sentinel_eq_iff.mp h) hempty
        · exact h
      obtain ⟨-, -, -, -, -, -, hne⟩ := hring.neighbours hmem
      have hv := hvalid _ (Or.inr hmem)
      obtain ⟨i, hnext, hi, hl, hnf⟩ := hmem
      rw [hnext] at hne hv
      have hown : own i = ⟨i, 1, .chunks (k + 3)⟩ := hG₁.inv.own_chunks hi hl
      obtain ⟨pool', c, heq, ht⟩ := takeChunk_spec hG₁.inv hi hk hown hnf
      refine Or.inr ⟨pool', own, .chunk i (k + 3) c, ?_, ⟨not_lt.mp hbig, hshift.symm⟩,
        ⟨ht.good hG₁ (by rw [hown]), hf.trans ht.frame, ?_, ht.held_iff hG₁.inv hi (by rw [hown])⟩,
        fun u hu => (hkeeps.counted hu).take ht.frame.last (StlSlab.takeChunk_stats heq)⟩
      · simp only [StlSlab.stlSlabAlloc, if_neg hbig, hshift, hslot, hst, hnext, hv, hne, heq,
          Option.bind_eq_bind, Option.bind_some, if_true, ne_eq, not_false_iff]
        rfl
      · rintro ⟨-, -, -, -, hbit⟩
        have hc := ht.clear
        change chunkBit ps pool i (k + 3) c = false at hc
        rw [hc] at hbit
        simp at hbit

theorem stlSlabAlloc_spec (hG : Good ps pool own fresh) (size : ℕ) :
    AllocFails pool own (pool.stlSlabAlloc (geo ps) size) (pagesNeeded ps size) ∨
      ∃ pool' own' w, pool.stlSlabAlloc (geo ps) size = some (pool', w.addr ps pool) ∧
        w.Serves ps pool size ∧ Granted ps pool pool' own own' w := by
  rcases stlSlabAlloc_counted hG size with
    ⟨st, heq, -, hshort, -⟩ | ⟨pool', own', w, heq, hserve, hgr, -⟩
  · exact Or.inl ⟨st, heq, hshort⟩
  · exact Or.inr ⟨pool', own', w, heq, hserve, hgr⟩

end KirinFS.Slab
