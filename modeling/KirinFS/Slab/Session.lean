import KirinFS.Slab.AllocSpec
import KirinFS.Slab.FreeSpec
import KirinFS.Slab.Layout

/-! # Client sessions on one pool

A client allocates, frees addresses it still holds and writes to bytes it
holds. The session remembers what is live; the invariant matches the live
addresses with the grants of the page map.
-/

namespace KirinFS.Slab
open Foundation.Tiling Foundation.IntrusiveRing Function

/-- A pool with the live allocations, as address and requested size, and a flag for whether an
allocation has succeeded yet. -/
structure Session where
  pool : StlSlab
  live : List (ℕ × ℕ)
  started : Bool

inductive Call where
  | alloc (size : ℕ)
  | free (a : ℕ)
  | store (b : ℕ) (v : Word)

namespace Session
variable (g : SlabGlobals)

def new (pool : StlSlab) : Session := ⟨pool, [], false⟩

/-- The client only frees what is live and only writes to bytes it asked for. -/
def Allows (σ : Session) : Call → Prop
  | .alloc _ => True
  | .free a => ∃ x ∈ σ.live, x.1 = a
  | .store b _ => ∃ x ∈ σ.live, x.1 ≤ b ∧ b < x.1 + x.2

instance (σ : Session) : (c : Call) → Decidable (σ.Allows c)
  | .alloc _ => inferInstanceAs (Decidable True)
  | .free a => inferInstanceAs (Decidable (∃ x ∈ σ.live, x.1 = a))
  | .store b _ => inferInstanceAs (Decidable (∃ x ∈ σ.live, x.1 ≤ b ∧ b < x.1 + x.2))

/-- One call; a store replaces the word around byte `b`. -/
def step (σ : Session) : Call → Option Session
  | .alloc size => (σ.pool.stlSlabAlloc g size).map fun r =>
      if r.2 = 0 then { σ with pool := r.1 } else ⟨r.1, (r.2, size) :: σ.live, true⟩
  | .free a => (σ.pool.stlSlabFree g a).map fun pool =>
      { σ with pool := pool, live := σ.live.filter fun x => x.1 ≠ a }
  | .store b v => some { σ with pool := { σ.pool with mem := update σ.pool.mem (b / 8) v } }

def liveIn (σ : Session) (k : ℕ) : ℕ :=
  σ.live.countP fun x =>
    decide (x.2 ≤ g.stlSlabMaxSize ∧ σ.pool.classShift x.2 = k + σ.pool.minShift)

theorem liveIn_cons (pool : StlSlab) (x : ℕ × ℕ) (l : List (ℕ × ℕ)) (s : Bool) (k : ℕ) :
    liveIn g ⟨pool, x :: l, s⟩ k = liveIn g ⟨pool, l, s⟩ k +
      if decide (x.2 ≤ g.stlSlabMaxSize ∧ pool.classShift x.2 = k + pool.minShift) then 1 else 0 :=
  List.countP_cons

/-- A finite sequence of calls that the client is allowed to make. -/
def run (σ : Session) : List Call → Option Session
  | [] => some σ
  | c :: cs => if σ.Allows c then (σ.step g c).bind fun σ' => σ'.run cs else none

end Session

section Setup
variable {ps : PageShift} {addr poolSize : ℕ}

theorem lastPage_spec {p size stop pages m last start : ℕ} (hp : 0 < p) (hstop : p + size = stop)
    (hend : stop ≤ 2 ^ 64) (hpages : pages = size / (2 ^ ps.val + pageBytes))
    (hstart : start = stlAlignPtr (p + pages * pageBytes) (2 ^ ps.val))
    (hm : m = wsub pages (wsub stop start / 2 ^ ps.val))
    (hlast : last = if 0 < m ∧ m < 2 ^ 63 then pages - m else pages) :
    last < 2 ^ 60 ∧ 2 ^ ps.val ∣ start ∧
      (0 < last → 0 < start ∧ start + last * 2 ^ ps.val ≤ stop) := by
  have hlo := @pagesize_ge ps
  have h64 : ps.val ≤ 64 := ps.hi.trans (by decide)
  have hdvd : 2 ^ ps.val ∣ 2 ^ 64 := Nat.pow_dvd_pow 2 h64
  generalize 2 ^ ps.val = P at *
  have hsmall : pages < 2 ^ 60 := by
    rw [hpages]
    exact pages_lt (by omega) (by omega)
  have hmin := lastPage_eq (by omega) hsmall hm hlast
  have hle : last ≤ pages := hmin.trans_le (min_le_right _ _)
  have hfits : stop - start < 2 ^ 64 → start ≤ stop → start + last * P ≤ stop := fun h₁ h₂ =>
    lastPage_fits h₁ h₂ (hmin.trans_le (min_le_left _ _))
  have hreach := @roundUp_descriptors_lt P size pages (by omega) p hpages
  have hup := @le_roundUp (p + pages * pageBytes) P (by omega)
  have hround := @stlAlignPtr_eq (p + pages * pageBytes) P hdvd
  rw [← hstart] at hround
  clear hpages hm hlast hmin
  refine ⟨by omega, by rw [hstart]; exact dvd_stlAlignPtr, fun hpos => ?_⟩
  have hlt := hreach (by omega)
  have heq := hround (by omega)
  exact ⟨by omega, hfits (by omega) (by omega)⟩

/-- The page map of a new pool: one free run. -/
def newMap (pool : StlSlab) : PageMap := fun _ => ⟨0, pool.last, .free⟩

theorem count_const {L : Type*} (b : Block L) (N : ℕ) (p : L → Bool) (h : p b.label = true) :
    count (fun _ => b) N p = N := by
  simp [count, h]

structure IsNew (pool : StlSlab) : Prop where
  head : pool.slab (.page 0) = BitVec.ofNat 64 pool.last
  headNext : pool.next (.page 0) = .free
  headPrev : pool.prev (.page 0) = ⟨.free, .page⟩
  rest : ∀ i, i ≠ 0 → Blank pool i
  free : pool.next .free = .page 0
  slots : ∀ k, pool.next (.slot k) = .slot k
  pfree : pool.pfree = BitVec.ofNat 64 pool.last

theorem IsNew.good {pool : StlSlab} (h : IsNew pool) (hb : Base ps pool) :
    Good ps pool (newMap pool) true := by
  refine ⟨{
    base := hb
    tiling := ?_
    gap := ?_
    desc := ?_
    void := ?_
    freeRing := ?_
    slotRing := ?_
    backPtr := by simp
    untouched := fun _ _ _ => rfl
    pfree := ?_ }, ?_, ?_⟩
  · intro i hi
    exact ⟨⟨Nat.zero_le i, by simpa [newMap, Block.stop] using hi⟩, by simp [newMap, Block.stop],
      fun _ _ => rfl⟩
  · intro i hi _ hst
    simp [newMap, Block.stop] at hst
  · intro i hi
    change PageDesc ps pool ⟨0, pool.last, .free⟩ i
    simp only [PageDesc]
    by_cases h0 : i = 0
    · rw [if_pos h0, h0]
      exact h.head
    · rw [if_neg h0]
      exact h.rest i h0
  · intro h0
    rw [h.head, h0]
    rfl
  · refine (Ring.single h.free h.headPrev h.headNext (by simp)).congr_set ?_
    intro r
    rw [Set.mem_singleton_iff]
    constructor
    · rintro rfl
      exact ⟨0, rfl, by simp [newMap]; omega⟩
    · rintro ⟨i, rfl, ⟨-, -, hh⟩ | ⟨-, rfl⟩⟩
      · rw [← hh]
        rfl
      · rfl
  · intro k hk
    refine (Ring.empty (h.slots k)).congr_set ?_
    intro r
    simp only [Set.mem_empty_iff_false, false_iff]
    rintro ⟨i, rfl, -, hl, -⟩
    simp [newMap] at hl
  · rw [h.pfree]
    have hcount : count (newMap pool) pool.last Use.isVacant = pool.last :=
      count_const (⟨0, pool.last, .free⟩ : Block Use) pool.last Use.isVacant rfl
    rw [hcount]
  · intro j _
    simp [newMap]
  · intro j _ s hl
    simp [newMap] at hl

/-- `stl_slab_init` establishes the invariant. -/
theorem stlSlabInit_good (hend : addr + poolSize ≤ 2 ^ 64) {g : SlabGlobals} {pool : StlSlab}
    (hinit : stlSlabInit .zero (2 ^ ps.val) addr poolSize = some (some (g, pool))) :
    g = geo ps ∧ Good ps pool (newMap pool) true := by
  have hlo := ps.lo
  obtain ⟨⟨haddr, htab⟩, hg, hpool⟩ := stlSlabInit_eq hinit
  rw [sizesInit_zero] at hg
  rw [hg] at htab hpool
  have hslots : slotCount (geo ps) = ps.val - 3 := slotCount_geo ps
  have htable : tableBytes (geo ps) = (ps.val - 3) * 56 := by
    rw [tableBytes, hslots]
    rfl
  have hsize : wsub poolSize (tableBytes (geo ps)) = poolSize - tableBytes (geo ps) := by
    rw [wsub]
    omega
  obtain ⟨haddr', hslots', hstop, hcleared, hstart, m, hm, hlast⟩ := newPool_layout hpool
  rw [clearedPages, hsize] at hcleared
  rw [StlSlab.descriptorAddr_eq hslots'] at hstart
  have hblock : pool.addr + tableBytes (geo ps) + (poolSize - tableBytes (geo ps)) = pool.stop := by
    omega
  obtain ⟨hbound, haligned, hroom⟩ := @lastPage_spec ps _ _ _ _ _ _ _ (by omega) hblock (by omega)
    hcleared hstart hm hlast
  refine ⟨hg, IsNew.good ?_ ?_⟩
  · rw [hpool]
    refine ⟨rfl, rfl, rfl, ?_, rfl, fun _ => rfl, rfl⟩
    intro i hi
    simp [Blank, newPool, hi, bareTag]
  · exact ⟨hpool ▸ rfl, hpool ▸ rfl, hslots'.trans hslots, haligned, hroom, hbound⟩

theorem stlSlabInit_new {g₀ g : SlabGlobals} {pagesize : ℕ} {pool : StlSlab}
    (hinit : stlSlabInit g₀ pagesize addr poolSize = some (some (g, pool))) :
    pool.stop = addr + poolSize ∧ pool.stats = fun _ => ⟨0, 0, 0, 0⟩ := by
  rw [(stlSlabInit_eq hinit).2.2]
  exact ⟨rfl, rfl⟩

end Setup

section Grants
variable {ps : PageShift} {pool : StlSlab} {own : PageMap} {fresh : Bool}

theorem Grant.Held.disjoint (hG : Good ps pool own fresh) {v w : Grant}
    (hv : v.Held ps pool own) (hw : w.Held ps pool own) (hne : v ≠ w) :
    v.addr ps pool + v.bytes ps ≤ w.addr ps pool ∨
      w.addr ps pool + w.bytes ps ≤ v.addr ps pool := by
  obtain ⟨hv₁, hv₂, hv₃⟩ := hv.span hG
  obtain ⟨hw₁, hw₂, hw₃⟩ := hw.span hG
  rcases lt_trichotomy v.page w.page with h | h | h
  · left
    have hedge := hG.inv.tiling.edge_head hw.page_lt _ hv.page_lt
    rw [hw₃, hv₃] at hedge
    have hm := @pageAddr_mono ps pool _ _ (by omega : (own v.page).stop ≤ w.page)
    omega
  · cases v with
    | run i k =>
      cases w with
      | run j m =>
        obtain rfl : i = j := h
        have heq := hv.2.symm.trans hw.2
        exact absurd (congrArg Block.len heq) (fun hk => hne (by simp only at hk; rw [hk]))
      | chunk j s c =>
        obtain rfl : i = j := h
        have hl := hw.2.1
        rw [hv.2] at hl
        simp at hl
    | chunk i s c =>
      cases w with
      | run j m =>
        obtain rfl : i = j := h
        have hl := hv.2.1
        rw [hw.2] at hl
        simp at hl
      | chunk j t d =>
        obtain rfl : i = j := h
        obtain rfl := Use.chunks.inj (hv.2.1.symm.trans hw.2.1)
        have hcd : c ≠ d := fun hcd => hne (by rw [hcd])
        rcases Nat.lt_or_gt_of_ne hcd with hlt | hlt
        · left
          have hm : (c + 1) * 2 ^ s ≤ d * 2 ^ s := Nat.mul_le_mul_right _ hlt
          rw [Nat.add_mul, Nat.one_mul] at hm
          simp only [Grant.addr, Grant.bytes]
          omega
        · right
          have hm : (d + 1) * 2 ^ s ≤ c * 2 ^ s := Nat.mul_le_mul_right _ hlt
          rw [Nat.add_mul, Nat.one_mul] at hm
          simp only [Grant.addr, Grant.bytes]
          omega
  · right
    have hedge := hG.inv.tiling.edge_head hv.page_lt _ hw.page_lt
    rw [hw₃, hv₃] at hedge
    have hm := @pageAddr_mono ps pool _ _ (by omega : (own w.page).stop ≤ v.page)
    omega

theorem Grant.Held.bytes_pos (hG : Good ps pool own fresh) {w : Grant}
    (hw : w.Held ps pool own) : 0 < w.bytes ps := by
  cases w with
  | run i k =>
    have hk := hG.inv.tiling.len_pos hw.1
    rw [hw.2] at hk
    exact Nat.mul_pos hk (Nat.two_pow_pos _)
  | chunk i s c => exact Nat.two_pow_pos _

theorem Grant.Held.addr_inj (hG : Good ps pool own fresh) {v w : Grant}
    (hv : v.Held ps pool own) (hw : w.Held ps pool own)
    (h : v.addr ps pool = w.addr ps pool) : v = w := by
  by_contra hne
  have hvp := hv.bytes_pos hG
  have hwp := hw.bytes_pos hG
  rcases hv.disjoint hG hw hne with h' | h' <;> omega

theorem Grant.Held.addr_pos (hG : Good ps pool own fresh) {w : Grant}
    (hw : w.Held ps pool own) : 0 < w.addr ps pool := by
  have hroom := hG.inv.base.room (by have := hw.page_lt; omega)
  have hspan := (hw.span hG).1
  rw [pageAddr_geo] at hspan
  omega

theorem Grant.Held.not_fresh (hG : Good ps pool own fresh) {w : Grant}
    (hw : w.Held ps pool own) : fresh = false := by
  by_contra hf
  have hu := hG.inv.untouched (by simpa using hf) w.page hw.page_lt
  cases w with
  | run i k =>
    have hl := congrArg Block.label (hw.2.symm.trans hu)
    simp at hl
  | chunk i s c =>
    have hl := hw.2.1.symm.trans (congrArg Block.label hu)
    simp at hl

/-- Addresses and services do not depend on what the calls change. -/
theorem SameFrame.addr {pool' : StlSlab} (h : SameFrame pool pool') (w : Grant) :
    w.addr ps pool' = w.addr ps pool := by
  cases w <;> simp [Grant.addr, StlSlab.pageAddr, h.start]

theorem SameFrame.serves {pool' : StlSlab} (h : SameFrame pool pool') {w : Grant} {n : ℕ}
    (hw : w.Serves ps pool n) : w.Serves ps pool' n := by
  cases w with
  | run i k => exact hw
  | chunk i s c =>
    refine ⟨hw.1, hw.2.trans ?_⟩
    simp [StlSlab.classShift, h.minSize, h.minShift]

theorem Grant.Serves.le_bytes (hb : Base ps pool) {w : Grant} {n : ℕ}
    (hw : w.Serves ps pool n) : n ≤ w.bytes ps := by
  cases w with
  | run i k =>
    rw [Grant.bytes, hw.2]
    exact (pagesFor_spec hw.1).2
  | chunk i s c =>
    obtain ⟨k, hk, -, hle⟩ := classShift_spec hb hw.1
    rwa [Grant.bytes, hw.2, hk]

theorem Grant.Held.word_dvd (hG : Good ps pool own fresh) {w : Grant}
    (hw : w.Held ps pool own) : 8 ∣ w.addr ps pool ∧ 8 ∣ w.bytes ps := by
  have hpage := fun i => pagesize_dvd_eight.trans (pageAddr_dvd hG.inv.base i)
  cases w with
  | run i k => exact ⟨hpage i, pagesize_dvd_eight.mul_left k⟩
  | chunk i s c =>
    have hs := hG.inv.isClass hw.1 hw.2.1
    have h8 : 2 ^ 3 ∣ 2 ^ s := Nat.pow_dvd_pow 2 hs.1
    exact ⟨Nat.dvd_add (hpage i) (h8.mul_left c), h8⟩

end Grants

/-- The session invariant: live addresses and grants correspond. -/
structure Sound (ps : PageShift) (σ : Session) (own : PageMap) : Prop where
  good : Good ps σ.pool own (!σ.started)
  backed : ∀ x ∈ σ.live, ∃ w : Grant, w.Held ps σ.pool own ∧ w.addr ps σ.pool = x.1 ∧
    w.Serves ps σ.pool x.2
  recorded : ∀ w : Grant, w.Held ps σ.pool own → ∃ n, (w.addr ps σ.pool, n) ∈ σ.live
  distinct : (σ.live.map Prod.fst).Nodup

section Steps
variable {ps : PageShift} {σ σ' : Session} {pool : StlSlab} {own : PageMap} {fresh : Bool}

theorem Sound.store_bits (h : Sound ps σ own) {b : ℕ} {x : ℕ × ℕ} (hx : x ∈ σ.live)
    (hlo : x.1 ≤ b) (hhi : b < x.1 + x.2) (v : Word) : ∀ j < σ.pool.last, ∀ s,
      (own j).label = .chunks s →
        SameBits ps σ.pool { σ.pool with mem := update σ.pool.mem (b / 8) v } j s := by
  intro j hj s hl d hd
  obtain ⟨w, hw, ha, hserve⟩ := h.backed x hx
  have hlen := hserve.le_bytes h.good.inv.base
  have hs := h.good.inv.isClass hj hl
  simp only [chunkBit]
  split
  · next hsm =>
    have hout := hw.words_out h.good hl hs hsm hd
    obtain ⟨m, hm⟩ := (hw.word_dvd h.good).1
    obtain ⟨m', hm'⟩ := (hw.word_dvd h.good).2
    change (update σ.pool.mem (b / 8) v (σ.pool.pageAddr (geo ps) j / 8 + d / 64)).getLsbD _ = _
    rw [update_of_ne (by omega)]
    rfl
  · rfl

/-- An allocation counts in the slot of the grant that serves it. -/
theorem countP_charge (hG : Good ps pool own fresh) {w : Grant} (hw : w.Held ps pool own) {n : ℕ}
    (hserve : w.Serves ps pool n) (u : ℕ → ℕ) (k : ℕ) :
    w.charge u k = u k + if decide (n ≤ (geo ps).stlSlabMaxSize ∧
      pool.classShift n = k + pool.minShift) then 1 else 0 := by
  cases w with
  | run i m =>
    have hbig := hserve.1
    rw [Grant.charge, if_neg (by simp; omega), Nat.add_zero]
  | chunk i s c =>
    have hs := (hG.inv.isClass hw.1 hw.2.1).1
    rw [Grant.charge, hG.inv.base.minShift, ← hserve.2]
    by_cases hk : s = k + 3
    · subst hk
      rw [Nat.add_sub_cancel, update_self, if_pos (by simp [hserve.1])]
    · rw [update_of_ne (by omega), if_neg (by simp [hk]), Nat.add_zero]

theorem SameFrame.liveIn_eq {pool' : StlSlab} (h : SameFrame pool pool') (g : SlabGlobals)
    (l : List (ℕ × ℕ)) (s s' : Bool) (k : ℕ) :
    Session.liveIn g ⟨pool', l, s'⟩ k = Session.liveIn g ⟨pool, l, s⟩ k := by
  refine List.countP_congr fun x _ => ?_
  simp only [StlSlab.classShift, h.minSize, h.minShift]

theorem countP_filter_ne {l : List (ℕ × ℕ)} (hd : (l.map Prod.fst).Nodup) {x : ℕ × ℕ} (hx : x ∈ l)
    (p : ℕ × ℕ → Bool) :
    l.countP p = (l.filter fun y => y.1 ≠ x.1).countP p + if p x then 1 else 0 := by
  induction l with
  | nil => exact absurd hx List.not_mem_nil
  | cons y l ih =>
    rw [List.map_cons, List.nodup_cons] at hd
    rcases List.mem_cons.mp hx with rfl | hxl
    · have hkeep : (l.filter fun y => y.1 ≠ x.1) = l := by
        rw [List.filter_eq_self]
        intro z hz
        have hne : z.1 ≠ x.1 := fun h => hd.1 (h ▸ List.mem_map_of_mem hz)
        simpa using hne
      rw [List.filter_cons_of_neg (by simp), hkeep, List.countP_cons]
    · have hne : y.1 ≠ x.1 := fun h => hd.1 (h ▸ List.mem_map_of_mem hxl)
      rw [List.filter_cons_of_pos (by simpa using hne), List.countP_cons, List.countP_cons,
        ih hd.2 hxl]
      omega

/-- A granted allocation is recorded under its address. -/
theorem Sound.handOut (h : Sound ps σ own) {pool' : StlSlab} {own' : PageMap} {w : Grant}
    {size : ℕ} (hgr : Granted ps σ.pool pool' own own' w) (hserve : w.Serves ps σ.pool size) :
    Sound ps ⟨pool', (w.addr ps σ.pool, size) :: σ.live, true⟩ own' := by
  have hw : w.Held ps pool' own' := (hgr.held w).mpr (Or.inr rfl)
  refine ⟨hgr.good, ?_, ?_, ?_⟩
  · intro x hx
    rcases List.mem_cons.mp hx with rfl | hx
    · exact ⟨w, hw, hgr.frame.addr w, hgr.frame.serves hserve⟩
    · obtain ⟨v, hv, ha, hs⟩ := h.backed x hx
      exact ⟨v, (hgr.held v).mpr (Or.inl hv), (hgr.frame.addr v).trans ha, hgr.frame.serves hs⟩
  · intro v hv
    rw [hgr.frame.addr]
    rcases (hgr.held v).mp hv with hv | rfl
    · obtain ⟨n, hn⟩ := h.recorded v hv
      exact ⟨n, List.mem_cons_of_mem _ hn⟩
    · exact ⟨size, List.mem_cons_self⟩
  · rw [List.map_cons, List.nodup_cons]
    refine ⟨?_, h.distinct⟩
    intro hmem
    obtain ⟨x, hx, ha⟩ := List.mem_map.mp hmem
    obtain ⟨v, hv, hva, -⟩ := h.backed x hx
    have heq : v = w := by
      refine Grant.Held.addr_inj hgr.good ((hgr.held v).mpr (Or.inl hv)) hw ?_
      rw [hgr.frame.addr, hgr.frame.addr, hva, ha]
    exact hgr.fresh (heq ▸ hv)

theorem Sound.takeBack (h : Sound ps σ own) {pool' : StlSlab} {own' : PageMap} {w : Grant}
    (hr : Released ps σ.pool pool' own own' w) (hw : w.Held ps σ.pool own) :
    Sound ps ⟨pool', σ.live.filter fun y => y.1 ≠ w.addr ps σ.pool, σ.started⟩ own' := by
  have hstarted := hw.not_fresh h.good
  refine ⟨by simp only [hstarted]; exact hr.good, ?_, ?_, ?_⟩
  · intro y hy
    obtain ⟨hy, hne⟩ := List.mem_filter.mp hy
    obtain ⟨v, hv, hva, hs⟩ := h.backed y hy
    refine ⟨v, (hr.held v).mpr ⟨hv, ?_⟩, (hr.frame.addr v).trans hva, hr.frame.serves hs⟩
    rintro rfl
    simp [← hva] at hne
  · intro v hv
    obtain ⟨hv, hne⟩ := (hr.held v).mp hv
    obtain ⟨n, hn⟩ := h.recorded v hv
    rw [hr.frame.addr]
    refine ⟨n, List.mem_filter.mpr ⟨hn, ?_⟩⟩
    simp only [ne_eq, decide_eq_true_eq]
    intro heq
    exact hne (hv.addr_inj h.good hw heq)
  · exact h.distinct.sublist (List.filter_sublist.map _)

/-- What a call of a session does: it succeeds, and what was true of the pool stays true. -/
def Session.Serves (ps : PageShift) (σ : Session) (own : PageMap) (c : Call) : Prop :=
  ∃ σ' own', σ.step (geo ps) c = some σ' ∧ Sound ps σ' own' ∧ SameFrame σ.pool σ'.pool ∧
    (Counted ps σ.pool own (σ.liveIn (geo ps)) → Counted ps σ'.pool own' (σ'.liveIn (geo ps)))

theorem Sound.alloc_counted (h : Sound ps σ own) (size : ℕ) : σ.Serves ps own (.alloc size) := by
  rcases stlSlabAlloc_counted h.good size with
    ⟨st, heq, hkeeps, -⟩ | ⟨pool', own', w, heq, hserve, hgr, hcount⟩
  · refine ⟨{ σ with pool := σ.pool.withStats st }, own, ?_, ?_, ⟨rfl, rfl, rfl, rfl, rfl, rfl⟩,
      hkeeps.counted⟩
    · simp [Session.step, heq]
    · exact ⟨h.good.withStats st, h.backed, h.recorded, h.distinct⟩
  · have hw : w.Held ps pool' own' := (hgr.held w).mpr (Or.inr rfl)
    have hpos := hw.addr_pos hgr.good
    rw [hgr.frame.addr] at hpos
    have hlive : Session.liveIn (geo ps) ⟨pool', (w.addr ps σ.pool, size) :: σ.live, true⟩ =
        w.charge (σ.liveIn (geo ps)) := by
      funext k
      have hcons := Session.liveIn_cons (geo ps) pool' (w.addr ps σ.pool, size) σ.live true k
      have hsame := hgr.frame.liveIn_eq (geo ps) σ.live σ.started true k
      rw [countP_charge hgr.good hw (hgr.frame.serves hserve)]
      rw [hsame] at hcons
      exact hcons
    refine ⟨⟨pool', (w.addr ps σ.pool, size) :: σ.live, true⟩, own', ?_, h.handOut hgr hserve,
      hgr.frame, ?_⟩
    · simp only [Session.step, heq, Option.map_some]
      rw [if_neg (by omega)]
    · intro hu
      rw [hlive]
      exact hcount _ hu

theorem Sound.free_counted (h : Sound ps σ own) {x : ℕ × ℕ} (hx : x ∈ σ.live) :
    σ.Serves ps own (.free x.1) := by
  obtain ⟨w, hw, ha, hserve⟩ := h.backed x hx
  obtain ⟨pool', own', heq, hr, hcount⟩ := stlSlabFree_counted h.good hw
  have hsound := h.takeBack hr hw
  rw [ha] at heq hsound
  have hlive : σ.liveIn (geo ps) =
      w.charge (Session.liveIn (geo ps) ⟨pool', σ.live.filter fun y => y.1 ≠ x.1, σ.started⟩) := by
    funext k
    rw [countP_charge h.good hw hserve, hr.frame.liveIn_eq _ _ σ.started]
    exact countP_filter_ne h.distinct hx _
  refine ⟨⟨pool', σ.live.filter fun y => y.1 ≠ x.1, σ.started⟩, own', ?_, hsound, hr.frame, ?_⟩
  · simp [Session.step, heq]
  · intro hu
    apply hcount
    rwa [← hlive]

theorem Sound.store_counted (h : Sound ps σ own) {b : ℕ} {v : Word} {x : ℕ × ℕ}
    (hx : x ∈ σ.live) (hlo : x.1 ≤ b) (hhi : b < x.1 + x.2) : σ.Serves ps own (.store b v) := by
  have hbits := h.store_bits hx hlo hhi v
  obtain ⟨hgood, hheld⟩ := h.good.withMem hbits
  refine ⟨_, own, rfl, ⟨hgood, ?_, ?_, h.distinct⟩, ⟨rfl, rfl, rfl, rfl, rfl, rfl⟩,
    fun hu => hu.congr rfl (fun _ => rfl) (fun _ => rfl) fun _ => rfl⟩
  · intro y hy
    obtain ⟨w, hw, ha, hs⟩ := h.backed y hy
    exact ⟨w, (hheld w).mpr hw, ha, hs⟩
  · intro w hw
    exact h.recorded w ((hheld w).mp hw)

theorem Sound.step_counted (h : Sound ps σ own) {c : Call} (hc : σ.Allows c) :
    σ.Serves ps own c := by
  cases c with
  | alloc size => exact h.alloc_counted size
  | free a =>
    obtain ⟨x, hx, rfl⟩ := hc
    exact h.free_counted hx
  | store b v =>
    obtain ⟨x, hx, hlo, hhi⟩ := hc
    exact h.store_counted hx hlo hhi

theorem Sound.step (h : Sound ps σ own) {c : Call} (hc : σ.Allows c) :
    ∃ σ' own', σ.step (geo ps) c = some σ' ∧ Sound ps σ' own' ∧ SameFrame σ.pool σ'.pool := by
  obtain ⟨σ', own', heq, hs, hf, -⟩ := h.step_counted hc
  exact ⟨σ', own', heq, hs, hf⟩

theorem Sound.run_counted {cs : List Call} (h : Sound ps σ own)
    (hu : Counted ps σ.pool own (σ.liveIn (geo ps))) (hr : σ.run (geo ps) cs = some σ') :
    ∃ own', Sound ps σ' own' ∧ SameFrame σ.pool σ'.pool ∧
      Counted ps σ'.pool own' (σ'.liveIn (geo ps)) := by
  induction cs generalizing σ own with
  | nil =>
    obtain rfl := Option.some.inj hr
    exact ⟨own, h, .refl _, hu⟩
  | cons c cs ih =>
    rw [Session.run] at hr
    by_cases hc : σ.Allows c
    · obtain ⟨σ₁, own₁, heq, hs, hf, hcount⟩ := h.step_counted hc
      rw [if_pos hc, heq, Option.bind_some] at hr
      obtain ⟨own', hs', hf', hu'⟩ := ih hs (hcount hu) hr
      exact ⟨own', hs', hf.trans hf', hu'⟩
    · rw [if_neg hc] at hr
      exact absurd hr (by simp)

theorem newMap_counted {pool : StlSlab} (hstats : ∀ k, (pool.stats k).total = 0 ∧ (pool.stats k).used = 0) :
    Counted ps pool (newMap pool) ((Session.new pool).liveIn (geo ps)) := by
  have hpages : ∀ s, chunkPages (newMap pool) pool.last s = 0 := by
    intro s
    rw [chunkPages, count, Finset.card_eq_zero, Finset.filter_eq_empty_iff]
    intro i _
    simp [newMap]
  refine ⟨?_, ?_⟩
  · intro k _
    rw [(hstats k).1, hpages, Nat.zero_mul]
    rfl
  · intro k _
    rw [(hstats k).2]
    rfl

/-- With pages of 16 to 65536 bytes set-up is defined in a block that the tables and one descriptor
fit into. -/
theorem exists_init (ps : PageShift) {addr poolSize : ℕ} (haddr : 0 < addr)
    (hend : addr + poolSize ≤ 2 ^ 64) (htab : tableBytes (geo ps) + pageBytes ≤ poolSize) :
    ∃ pool, stlSlabInit .zero (2 ^ ps.val) addr poolSize = some (some (geo ps, pool)) := by
  have hinit := @stlSlabInit_defined .zero (2 ^ ps.val) addr poolSize haddr (by omega)
  rw [sizesInit_zero] at hinit
  exact hinit htab

/-- Every session on a new pool is sound, and the counters are right. -/
theorem sound_counted_of_init {addr poolSize : ℕ} {g : SlabGlobals} {pool : StlSlab} {cs : List Call}
    (hend : addr + poolSize ≤ 2 ^ 64)
    (hinit : stlSlabInit .zero (2 ^ ps.val) addr poolSize = some (some (g, pool)))
    (hr : (Session.new pool).run g cs = some σ) :
    g = geo ps ∧ ∃ own, Sound ps σ own ∧ SameFrame pool σ.pool ∧
      Counted ps σ.pool own (σ.liveIn (geo ps)) := by
  obtain ⟨rfl, hgood⟩ := stlSlabInit_good hend hinit
  have hnew : Sound ps (Session.new pool) (newMap pool) := by
    refine ⟨hgood, by simp [Session.new], ?_, by simp [Session.new]⟩
    intro w hw
    cases w with
    | run i k =>
      have hl := congrArg Block.label hw.2
      simp [newMap] at hl
    | chunk i s c =>
      have hl := hw.2.1
      simp [newMap] at hl
  refine ⟨rfl, hnew.run_counted (newMap_counted fun k => ?_) hr⟩
  change (pool.stats k).total = 0 ∧ (pool.stats k).used = 0
  rw [(stlSlabInit_new hinit).2]
  exact ⟨rfl, rfl⟩

theorem sound_of_init {addr poolSize : ℕ} {g : SlabGlobals} {pool : StlSlab} {cs : List Call}
    (hend : addr + poolSize ≤ 2 ^ 64)
    (hinit : stlSlabInit .zero (2 ^ ps.val) addr poolSize = some (some (g, pool)))
    (hr : (Session.new pool).run g cs = some σ) :
    g = geo ps ∧ ∃ own, Sound ps σ own ∧ SameFrame pool σ.pool := by
  obtain ⟨hg, own, hs, hf, -⟩ := sound_counted_of_init hend hinit hr
  exact ⟨hg, own, hs, hf⟩

end Steps

end KirinFS.Slab
