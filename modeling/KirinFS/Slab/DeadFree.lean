import KirinFS.Slab.Process
import KirinFS.Slab.Classes

/-! # Freeing addresses that are not live

`stl_slab_free` looks at the page kind, the alignment and one bit. The bits of
the chunks that hold the bitmap of a small page are set as well, and the range
test lets addresses through that have no descriptor.
-/

namespace KirinFS.Slab
open Foundation.Tiling Foundation.IntrusiveRing Foundation.WordBits Function

section Definitions
variable (g : SlabGlobals) (pool : StlSlab) (p : ℕ)

/-- The range test lets `p` through. -/
def Admitted : Prop := pool.start ≤ p ∧ p ≤ pool.stop

/-- `p` is the address of a chunk that holds the bitmap of its own small page. -/
def InOwnBitmap : Prop :=
  let i := Process.descriptor g pool p
  let shift := (pool.slab (.page i) &&& slabShiftMask).toNat
  Admitted pool p ∧ i < pool.last ∧ (pool.prev (.page i)).tag = .small ∧ p % 2 ^ shift = 0 ∧
    (p % g.stlPagesize) >>> shift < StlSlab.bitmapChunks g shift

/-- There is no descriptor for `p`, and the words in its place pass for a block in use. -/
def StrayInUse : Prop :=
  let i := Process.descriptor g pool p
  Admitted pool p ∧ max (pool.last + pool.spare) 1 ≤ i ∧ pool.strayInUse g i p = true

instance : Decidable (InOwnBitmap g pool p) :=
  inferInstanceAs (Decidable ((_ ∧ _) ∧ _ ∧ _ ∧ _ ∧ _))

instance : Decidable (StrayInUse g pool p) := inferInstanceAs (Decidable ((_ ∧ _) ∧ _ ∧ _))

end Definitions

section Frames
variable {g : SlabGlobals} {σ σ' : Session}

theorem Session.step_confined {c : Call} (h : σ.step g c = some σ') :
    Confined σ.pool σ'.pool := by
  cases c with
  | alloc size =>
    obtain ⟨⟨q, a⟩, halloc, h⟩ := Option.map_eq_some_iff.mp h
    have hq := StlSlab.stlSlabAlloc_confined halloc
    dsimp only at h
    split at h
    · rw [← h]
      exact hq
    · rw [← h]
      exact hq
  | free a =>
    obtain ⟨q, hfree, rfl⟩ := Option.map_eq_some_iff.mp h
    exact StlSlab.stlSlabFree_confined hfree
  | store b v =>
    obtain rfl := Option.some.inj h
    exact StlSlab.confined_withMem σ.pool _

theorem Session.run_confined {cs : List Call} (h : σ.run g cs = some σ') :
    Confined σ.pool σ'.pool := by
  induction cs generalizing σ with
  | nil =>
    obtain rfl := Option.some.inj h
    exact .refl _
  | cons c cs ih =>
    rw [Session.run] at h
    split at h
    · obtain ⟨σ₁, h₁, h⟩ := Option.bind_eq_some_iff.mp h
      exact (Session.step_confined h₁).trans (ih h)
    · cases h

end Frames

section Small
variable {g : SlabGlobals} {pool q : StlSlab} {i p shift slot size c : ℕ}

theorem finish_used {b : Prop} [Decidable b] {f : StlSlabStat → StlSlabStat}
    (h : (if b then (pool.stlSlabFreePages i 1).bind fun q =>
        (q.setStat slot f).bind fun q => q.freeDone p size slot
      else (some pool).bind fun q => q.freeDone p size slot) = some q)
    (hf : ∀ st, (f st).used = st.used) :
    (q.stats slot).used = (pool.stats slot).used - 1 := by
  split at h
  · obtain ⟨q₁, h₁, h⟩ := Option.bind_eq_some_iff.mp h
    obtain ⟨q₂, h₂, h⟩ := Option.bind_eq_some_iff.mp h
    rw [StlSlab.freeDone_stats h, StlSlab.setStat_stats h₂,
      (StlSlab.stlSlabFreePages_relinked h₁).stats, update_self, update_self, StlSlabStat.give, hf]
  · rw [Option.bind_some] at h
    rw [StlSlab.freeDone_stats h, update_self, StlSlabStat.give]

/-- A chunk that is marked as taken never goes without a trace. -/
theorem freeSmall_ne_self (hshift : (pool.slab (.page i) &&& slabShiftMask).toNat = shift)
    (hsize : p % 2 ^ shift = 0) (hc : (p % g.stlPagesize) >>> shift = c)
    (hbit : (pool.bitmap (p / g.stlPagesize * g.stlPagesize) (c / wordBits)).getLsbD
      (c % wordBits) = true) : pool.freeSmall g i p ≠ some pool := by
  intro h
  have hset : pool.bitmap (p / g.stlPagesize * g.stlPagesize) (c / wordBits) &&&
      BitVec.twoPow 64 (c % wordBits) ≠ 0 := by
    rw [Ne, and_bit_eq_zero_iff, hbit]
    simp
  rw [StlSlab.freeSmall] at h
  simp only [hshift, Nat.one_shiftLeft, hc] at h
  rw [if_neg (not_not.mpr hsize), if_pos hset] at h
  obtain ⟨q₁, h₁, h⟩ := bind_of_ite h
  have hused := finish_used h fun _ => rfl
  have hstats := (StlSlab.relinked_of_ite StlSlab.relistPage_relinked h₁).stats
  change _ = (q₁.stats _).used - 1 at hused
  rw [hstats] at hused
  generalize (pool.stats (wsub shift pool.minShift)).used = w at hused
  bv_omega

end Small

section Pages
variable {ps : PageShift} {pool : StlSlab} {own : PageMap} {fresh : Bool} {i p s : ℕ}

/-- Nothing that is out starts at `p`. -/
def Dead (ps : PageShift) (pool : StlSlab) (own : PageMap) (p : ℕ) : Prop :=
  ∀ w : Grant, w.Held ps pool own → w.addr ps pool ≠ p

/-- An address behind `start` lies in the page that the code computes. -/
theorem Base.addr_split (hb : Base ps pool) (h : pool.start ≤ p) :
    pool.pageAddr (geo ps) ((p - pool.start) >>> ps.val) + p % 2 ^ ps.val = p := by
  obtain ⟨a, ha⟩ := hb.aligned
  have hmod : p % 2 ^ ps.val = (p - pool.start) % 2 ^ ps.val := by
    have hsum : p = 2 ^ ps.val * a + (p - pool.start) := by omega
    conv_lhs => rw [hsum, Nat.mul_add_mod]
  have hdiv := Nat.div_add_mod (p - pool.start) (2 ^ ps.val)
  rw [pageAddr_geo, Nat.shiftRight_eq_div_pow, hmod, Nat.mul_comm _ (2 ^ ps.val)]
  omega

/-- An aligned address in a page is that of one of its chunks. -/
theorem chunk_at (hs : IsClass ps s) (hp : pool.pageAddr (geo ps) i + p % 2 ^ ps.val = p)
    (hsize : p % 2 ^ s = 0) :
    (Grant.chunk i s ((p % 2 ^ ps.val) >>> s)).addr ps pool = p ∧
      (p % 2 ^ ps.val) >>> s < chunkCount ps s := by
  have hpow : 2 ^ s ∣ 2 ^ ps.val := Nat.pow_dvd_pow 2 hs.2.le
  have hdvd : 2 ^ s ∣ p % 2 ^ ps.val := (Nat.dvd_mod_iff hpow).mpr (Nat.dvd_of_mod_eq_zero hsize)
  constructor
  · rw [Grant.addr, Nat.shiftRight_eq_div_pow, Nat.div_mul_cancel hdvd, hp]
  · rw [Nat.shiftRight_eq_div_pow, Nat.div_lt_iff_lt_mul (Nat.two_pow_pos s), chunkCount_mul hs]
    exact Nat.mod_lt _ (Nat.two_pow_pos _)

/-- The bit of a client's chunk is clear unless the chunk is out. -/
theorem Dead.bit_clear (hdead : Dead ps pool own p) (hG : Good ps pool own fresh)
    (hi : i < pool.last) (hl : (own i).label = .chunks s)
    (hp : pool.pageAddr (geo ps) i + p % 2 ^ ps.val = p) (hsize : p % 2 ^ s = 0)
    (hres : reserved ps s ≤ (p % 2 ^ ps.val) >>> s) :
    chunkBit ps pool i s ((p % 2 ^ ps.val) >>> s) = false := by
  obtain ⟨haddr, hlt⟩ := chunk_at (hG.inv.isClass hi hl) hp hsize
  by_contra hbit
  exact hdead (.chunk i s _) ⟨hi, hl, hres, hlt, Bool.eq_true_of_not_eq_false hbit⟩ haddr

theorem freeExact_dead (hG : Good ps pool own fresh) (hdead : Dead ps pool own p)
    (hi : i < pool.last) (hl : (own i).label = .chunks s) (hex : s = ps - 6)
    (hp : pool.pageAddr (geo ps) i + p % 2 ^ ps.val = p) :
    pool.freeExact (geo ps) i p = some pool := by
  have hsize := exactSize_eq hex (hG.inv.isClass hi hl)
  by_cases h0 : p % 2 ^ s = 0
  · have hbit := hdead.bit_clear hG hi hl hp h0 (by
      rw [reserved_eq_zero (by omega)]
      exact Nat.zero_le _)
    rw [chunkBit_exact hex] at hbit
    have hclear : pool.slab (.page i) &&&
        BitVec.twoPow 64 ((p % (geo ps).stlPagesize) >>> (geo ps).stlSlabExactShift) = 0 := by
      rw [and_bit_eq_zero_iff, ← hbit, hex]
      rfl
    simp only [StlSlab.freeExact, hsize, h0, hclear, ne_eq, not_true, if_false]
  · simp only [StlSlab.freeExact, hsize, ne_eq, h0, not_false_iff, if_true]

theorem freeBig_dead (hG : Good ps pool own fresh) (hdead : Dead ps pool own p)
    (hi : i < pool.last) (hl : (own i).label = .chunks s) (hbig : ps - 6 < s)
    (hp : pool.pageAddr (geo ps) i + p % 2 ^ ps.val = p) :
    pool.freeBig (geo ps) i p = some pool := by
  have hs := hG.inv.isClass hi hl
  have hshift := shape_shift hs (by omega) (hG.inv.shape hi hl)
  by_cases h0 : p % 2 ^ s = 0
  · have hbit := hdead.bit_clear hG hi hl hp h0 (by
      rw [reserved_eq_zero (by omega)]
      exact Nat.zero_le _)
    rw [chunkBit_big hbig] at hbit
    have hclear : pool.slab (.page i) &&&
        BitVec.twoPow 64 ((p % (geo ps).stlPagesize) >>> s + slabMapShift) = 0 := by
      rw [and_bit_eq_zero_iff, ← hbit, Nat.add_comm]
      rfl
    simp only [StlSlab.freeBig, hshift, Nat.one_shiftLeft, h0, hclear, ne_eq, not_true, if_false]
  · simp only [StlSlab.freeBig, hshift, Nat.one_shiftLeft, ne_eq, h0, not_false_iff, if_true]

/-- On a small page the chunks of the bitmap go, and no others. -/
theorem freeSmall_dead_iff (hG : Good ps pool own fresh) (hdead : Dead ps pool own p)
    (hi : i < pool.last) (hl : (own i).label = .chunks s) (hsm : s < ps - 6)
    (hp : pool.pageAddr (geo ps) i + p % 2 ^ ps.val = p) :
    pool.freeSmall (geo ps) i p = some pool ↔
      ¬ (p % 2 ^ s = 0 ∧ (p % 2 ^ ps.val) >>> s < reserved ps s) := by
  have hs := hG.inv.isClass hi hl
  have hshift := shape_shift hs (by omega) (hG.inv.shape hi hl)
  have hpage : p / 2 ^ ps.val * 2 ^ ps.val = pool.pageAddr (geo ps) i := by
    have hdm := Nat.div_add_mod p (2 ^ ps.val)
    rw [Nat.mul_comm]
    omega
  constructor
  · rintro hself ⟨h0, hc⟩
    refine freeSmall_ne_self hshift h0 rfl ?_ hself
    have hd := hG.inv.desc i hi
    simp only [PageDesc, hl] at hd
    have hbit := hd.2.2.2.1 _ hc
    rw [chunkBit_small hsm, ← hpage] at hbit
    exact hbit
  · intro hno
    by_cases h0 : p % 2 ^ s = 0
    · have hbit := hdead.bit_clear hG hi hl hp h0 (not_lt.mp fun hc => hno ⟨h0, hc⟩)
      rw [chunkBit_small hsm, ← hpage] at hbit
      have hclear : pool.bitmap (p / (geo ps).stlPagesize * (geo ps).stlPagesize)
          ((p % (geo ps).stlPagesize) >>> s / wordBits) &&&
            BitVec.twoPow 64 ((p % (geo ps).stlPagesize) >>> s % wordBits) = 0 := by
        rw [and_bit_eq_zero_iff]
        exact hbit
      simp only [StlSlab.freeSmall, hshift, Nat.one_shiftLeft, h0, hclear, ne_eq, not_true,
        if_false]
    · simp only [StlSlab.freeSmall, hshift, Nat.one_shiftLeft, ne_eq, h0, not_false_iff, if_true]

theorem freeRun_self {g : SlabGlobals} (h : p % g.stlPagesize ≠ 0 ∨
    pool.slab (.page i) &&& slabPageStart = 0 ∨ pool.slab (.page i) = slabPageBusy) :
    pool.freeRun g i p = some pool := by
  rw [StlSlab.freeRun]
  dsimp only
  split_ifs with h₁ h₂ h₃
  · rfl
  · rfl
  · rfl
  · rcases h with h | h | h
    · exact absurd h h₁
    · exact absurd h h₂
    · exact absurd h h₃

theorem len_no_start {k : ℕ} (hk : k < 2 ^ 60) : BitVec.ofNat 64 k &&& slabPageStart = 0 := by
  have hbit : slabPageStart = BitVec.twoPow 64 63 := by decide
  rw [hbit, and_bit_eq_zero_iff, BitVec.getLsbD_ofNat, Nat.testBit_lt_two_pow (by omega)]
  simp

theorem freeRun_dead (hG : Good ps pool own fresh) (hdead : Dead ps pool own p)
    (hi : i < pool.last) (hl : (own i).label = .free ∨ (own i).label = .busy)
    (hp : pool.pageAddr (geo ps) i + p % 2 ^ ps.val = p) :
    pool.freeRun (geo ps) i p = some pool := by
  refine freeRun_self ?_
  have hd := hG.inv.desc i hi
  have hstop := hG.inv.tiling.stop_le hi
  have hbound := hG.inv.base.bound
  by_cases h0 : p % 2 ^ ps.val = 0
  · right
    rcases hl with hl | hl
    · left
      simp only [PageDesc, hl] at hd
      split at hd
      · rw [hd]
        refine len_no_start ?_
        simp only [Block.stop] at hstop
        omega
      · rw [hd.1]
        decide
    · simp only [PageDesc, hl] at hd
      by_cases hhead : i = (own i).head
      · refine absurd ?_ (hdead (.run i (own i).len) ⟨hi, ?_⟩)
        · rw [Grant.addr]
          omega
        · calc own i = ⟨(own i).head, (own i).len, (own i).label⟩ := rfl
            _ = ⟨i, (own i).len, .busy⟩ := by rw [← hhead, hl]
      · rw [if_neg hhead] at hd
        exact Or.inr hd.1
  · exact Or.inl h0

end Pages

section Main
variable {ps : PageShift} {pool : StlSlab} {own : PageMap} {fresh : Bool} {i p : ℕ}

/-- Descriptors behind the managed pages have never been written. -/
def SparesBlank (pool : StlSlab) : Prop :=
  ∀ i, pool.valid (.page i) = false →
    pool.slab (.page i) = 0 ∧ (pool.prev (.page i)).tag = .page

theorem Good.spare_rejects (hG : Good ps pool own fresh) (hspare : SparesBlank pool)
    (hi : pool.last ≤ i) : pool.slab (.page i) = 0 ∧ (pool.prev (.page i)).tag = .page := by
  by_cases hv : pool.valid (.page i) = false
  · exact hspare i hv
  · have hlt : i < max pool.last 1 := of_decide_eq_true (Bool.eq_true_of_not_eq_false hv)
    obtain ⟨h0, rfl⟩ : pool.last = 0 ∧ i = 0 := by omega
    refine ⟨hG.inv.void h0, ?_⟩
    obtain ⟨a, ha, -⟩ := hG.inv.freeRing.neighbours (x := .page 0) ⟨0, rfl, Or.inr ⟨h0, rfl⟩⟩
    rw [ha]
    rfl

theorem Good.free_managed_iff (hG : Good ps pool own fresh) (hdead : Dead ps pool own p)
    (hadm : Admitted pool p) (hi : i < pool.last)
    (hdesc : (p - pool.start) >>> ps.val = i) :
    pool.stlSlabFree (geo ps) p = some pool ↔ ¬ InOwnBitmap (geo ps) pool p := by
  have hp := hG.inv.base.addr_split hadm.1
  rw [hdesc] at hp
  have hin : ¬ (p < pool.start ∨ pool.stop < p) := by
    rw [Admitted] at hadm
    omega
  have hshift : (geo ps).stlPagesizeShift = ps.val := rfl
  have hown : InOwnBitmap (geo ps) pool p ↔ (pool.prev (.page i)).tag = .small ∧
      p % 2 ^ (pool.slab (.page i) &&& slabShiftMask).toNat = 0 ∧
        (p % 2 ^ ps.val) >>> (pool.slab (.page i) &&& slabShiftMask).toNat <
          StlSlab.bitmapChunks (geo ps) (pool.slab (.page i) &&& slabShiftMask).toNat := by
    simp only [InOwnBitmap, Process.descriptor, hshift, hdesc, hadm, hi, true_and]
    rfl
  rw [hown]
  simp only [StlSlab.stlSlabFree, if_neg hin, hshift, hdesc, if_pos (described hi)]
  cases hl : (own i).label with
  | free =>
    have htag := hG.inv.page_tag hi (hG.settled i hi) (by simp [hl])
    simp [htag, freeRun_dead hG hdead hi (Or.inl hl) hp]
  | hole => exact absurd hl (hG.settled i hi)
  | busy =>
    have htag := hG.inv.page_tag hi (hG.settled i hi) (by simp [hl])
    simp [htag, freeRun_dead hG hdead hi (Or.inr hl) hp]
  | chunks s =>
    have htag := hG.inv.chunk_tag hi hl
    rcases lt_trichotomy s (ps.val - 6) with h | h | h
    · rw [kind_small h] at htag
      have hs := hG.inv.isClass hi hl
      rw [htag, shape_shift hs (by omega) (hG.inv.shape hi hl), ← reserved_small h]
      simpa using freeSmall_dead_iff hG hdead hi hl h hp
    · rw [kind_exact h] at htag
      simp [htag, freeExact_dead hG hdead hi hl h hp]
    · rw [kind_big h] at htag
      simp [htag, freeBig_dead hG hdead hi hl h hp]

/-- Behind the managed pages an address is turned away unless stray words pass for a block. -/
theorem Good.free_unmanaged_iff (hG : Good ps pool own fresh) (hspare : SparesBlank pool)
    (hadm : Admitted pool p) (hi : pool.last ≤ i)
    (hdesc : (p - pool.start) >>> ps.val = i) :
    pool.stlSlabFree (geo ps) p = some pool ↔ ¬ StrayInUse (geo ps) pool p := by
  have hin : ¬ (p < pool.start ∨ pool.stop < p) := by
    rw [Admitted] at hadm
    omega
  have hshift : (geo ps).stlPagesizeShift = ps.val := rfl
  simp only [StlSlab.stlSlabFree, StrayInUse, Process.descriptor, if_neg hin, hshift, hdesc, hadm,
    true_and]
  by_cases hd : i < max (pool.last + pool.spare) 1
  · obtain ⟨hslab, htag⟩ := hG.spare_rejects hspare hi
    have hself : pool.freeRun (geo ps) i p = some pool := by
      refine freeRun_self (Or.inr (Or.inl ?_))
      rw [hslab]
      decide
    rw [if_pos hd, htag]
    simp [hself, not_le.mpr hd]
  · rw [if_neg hd]
    by_cases hstray : pool.strayInUse (geo ps) i p = true
    · simp [hstray, not_lt.mp hd]
    · simp [hstray]

theorem Good.free_dead_iff (hG : Good ps pool own fresh) (hspare : SparesBlank pool)
    (hdead : Dead ps pool own p) : pool.stlSlabFree (geo ps) p = some pool ↔
      ¬ InOwnBitmap (geo ps) pool p ∧ ¬ StrayInUse (geo ps) pool p := by
  by_cases hadm : Admitted pool p
  · by_cases hi : (p - pool.start) >>> ps.val < pool.last
    · have hstray : ¬ StrayInUse (geo ps) pool p := by
        rintro ⟨-, hle, -⟩
        have hlt := described hi
        exact absurd hle (not_le.mpr hlt)
      rw [hG.free_managed_iff hdead hadm hi rfl]
      simp [hstray]
    · have hown : ¬ InOwnBitmap (geo ps) pool p := fun h => hi h.2.1
      rw [hG.free_unmanaged_iff hspare hadm (not_lt.mp hi) rfl]
      simp [hown]
  · have hout : p < pool.start ∨ pool.stop < p := by
      rw [Admitted] at hadm
      omega
    have hown : ¬ InOwnBitmap (geo ps) pool p := fun h => hadm h.1
    have hstray : ¬ StrayInUse (geo ps) pool p := fun h => hadm h.1
    simp [StlSlab.stlSlabFree, hout, hown, hstray]

theorem stlSlabInit_spares {g₀ g : SlabGlobals} {pagesize addr poolSize : ℕ}
    (hinit : stlSlabInit g₀ pagesize addr poolSize = some (some (g, pool))) : SparesBlank pool := by
  intro i hv
  have hi : i ≠ 0 := by
    rintro rfl
    rw [StlSlab.valid, decide_eq_false_iff_not] at hv
    omega
  rw [(stlSlabInit_eq hinit).2.2]
  simp [newPool, hi, bareTag]

theorem Confined.spares {q : StlSlab} (h : Confined pool q) (hspare : SparesBlank pool) :
    SparesBlank q := by
  intro i hv
  rw [h.valid_eq] at hv
  obtain ⟨hslab, -, hprev⟩ := h.words _ hv
  rw [hslab, hprev]
  exact hspare i hv

theorem Sound.dead {σ : Session} (h : Sound ps σ own) (hp : ∀ x ∈ σ.live, x.1 ≠ p) :
    Dead ps σ.pool own p := by
  intro w hw
  obtain ⟨n, hn⟩ := h.recorded w hw
  exact hp _ hn

end Main

/-- Set-up returns a pool, and in every session on it an address that is not live is turned away,
apart from the bitmap chunks of small pages and from addresses without a descriptor. -/
theorem session_free_dead (ps : PageShift) {addr poolSize : ℕ} (haddr : 0 < addr)
    (hend : addr + poolSize ≤ 2 ^ 64) (htab : tableBytes (geo ps) + pageBytes ≤ poolSize) :
    ∃ pool, stlSlabInit .zero (2 ^ ps.val) addr poolSize = some (some (geo ps, pool)) ∧
      ∀ cs σ p, (Session.new pool).run (geo ps) cs = some σ → (∀ x ∈ σ.live, x.1 ≠ p) →
        (σ.pool.stlSlabFree (geo ps) p = some σ.pool ↔
          ¬ InOwnBitmap (geo ps) σ.pool p ∧ ¬ StrayInUse (geo ps) σ.pool p) := by
  obtain ⟨pool, hinit⟩ := exists_init ps haddr hend htab
  refine ⟨pool, hinit, fun cs σ p hr hp => ?_⟩
  obtain ⟨-, own, hs, -⟩ := sound_of_init hend hinit hr
  have hspare := (Session.run_confined hr).spares (stlSlabInit_spares hinit)
  exact hs.good.free_dead_iff hspare (hs.dead hp)

theorem session_free_dead_8193 : ∃ g pool σ,
    stlSlabInit .zero (2 ^ 12) 4096 20000 = some (some (g, pool)) ∧
      (Session.new pool).run g [.alloc 8] = some σ ∧ σ.live = [(8256, 8)] ∧
      σ.pool.stlSlabFree g 8193 = some σ.pool := by
  have h : ((stlSlabInit .zero (2 ^ 12) 4096 20000).join.bind fun r =>
      ((Session.new r.2).run r.1 [.alloc 8]).map fun σ =>
        (σ.live, decide (InOwnBitmap r.1 σ.pool 8193), decide (StrayInUse r.1 σ.pool 8193))) =
      some ([(8256, 8)], false, false) := by
    decide +kernel
  simp only [Option.bind_eq_some_iff, Option.join_eq_some_iff, Option.map_eq_some_iff, Prod.mk.injEq,
    decide_eq_false_iff_not] at h
  obtain ⟨⟨g, pool⟩, hinit, σ, hrun, hlive, hown, hstray⟩ := h
  obtain ⟨pool', hinit', hsession⟩ := @session_free_dead ⟨12, by decide, by decide⟩ 4096
    20000 (by decide) (by decide) (by decide)
  obtain ⟨rfl, rfl⟩ := Prod.mk.inj (Option.some.inj (Option.some.inj (hinit.symm.trans hinit')))
  exact ⟨_, pool, σ, hinit, hrun, hlive,
    (hsession _ σ 8193 hrun (by simp [hlive])).mpr ⟨hown, hstray⟩⟩

/-- With one chunk of 8 bytes out, freeing the start of its page releases the bitmap: the count of
chunks in use drops to 0 and the next request is served with the bitmap. On a new pool with four
pages freeing the address behind them reads the fill bytes as a big page. -/
theorem dead_free_harms :
    (∃ g pool σ pool', stlSlabInit .zero (2 ^ 12) 4096 20000 = some (some (g, pool)) ∧
      (Session.new pool).run g [.alloc 8] = some σ ∧ σ.live = [(8256, 8)] ∧
      (σ.pool.stats 0).used = 1 ∧ σ.pool.stlSlabFree g 8192 = some pool' ∧
      (pool'.stats 0).used = 0 ∧ (pool'.stlSlabAlloc g 8).map Prod.snd = some 8192 ∧
      σ.pool.stlSlabFree g 8192 ≠ some σ.pool) ∧
      ∃ g pool, stlSlabInit .zero (2 ^ 12) 7552 20000 = some (some (g, pool)) ∧
        pool.pageAddr g pool.last = 24576 ∧ pool.stlSlabFree g 24576 = none := by
  have h₁ : ((stlSlabInit .zero (2 ^ 12) 4096 20000).join.bind fun r =>
      ((Session.new r.2).run r.1 [.alloc 8]).bind fun σ =>
        (σ.pool.stlSlabFree r.1 8192).map fun pool' =>
          (σ.live, (σ.pool.stats 0).used, (pool'.stats 0).used,
            (pool'.stlSlabAlloc r.1 8).map Prod.snd)) =
      some ([(8256, 8)], 1, 0, some 8192) := by
    decide +kernel
  have h₂ : (stlSlabInit .zero (2 ^ 12) 7552 20000).join.map (fun r =>
      (r.2.pageAddr r.1 r.2.last, (r.2.stlSlabFree r.1 24576).isSome)) = some (24576, false) := by
    decide +kernel
  simp only [Option.bind_eq_some_iff, Option.join_eq_some_iff, Option.map_eq_some_iff, Prod.mk.injEq,
    Option.isSome_eq_false_iff, Option.isNone_iff_eq_none] at h₁ h₂
  obtain ⟨⟨g, pool⟩, hinit, σ, hrun, pool', hfree, hlive, hbefore, hafter, hnext⟩ := h₁
  obtain ⟨⟨g₂, pool₂⟩, hinit₂, haddr, hnone⟩ := h₂
  refine ⟨⟨g, pool, σ, pool', hinit, hrun, hlive, hbefore, hfree, hafter, ?_, ?_⟩, g₂, pool₂,
    hinit₂, haddr, hnone⟩
  · simpa using hnext
  · intro hself
    rw [hfree] at hself
    rw [Option.some.inj hself, hbefore] at hafter
    exact absurd hafter (by decide)

end KirinFS.Slab
