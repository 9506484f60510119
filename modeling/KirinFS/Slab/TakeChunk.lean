import KirinFS.Slab.Chunks
import KirinFS.Slab.TakeRun

/-! # Handing out chunks -/

namespace KirinFS.Slab
open Foundation.Tiling Foundation.IntrusiveRing Foundation.WordBits Function

variable {ps : PageShift} {pool pool' q : StlSlab} {own own' : PageMap} {fresh : Bool} {i k c : ℕ}

/-- Chunk `c` of the listed page `i` has been taken. -/
structure ChunkTaken (ps : PageShift) (pool pool' : StlSlab) (own : PageMap) (i s c : ℕ) :
    Prop where
  inv : Inv ps pool' own false
  frame : SameFrame pool pool'
  lo : reserved ps s ≤ c
  hi : c < chunkCount ps s
  clear : chunkBit ps pool i s c = false
  bit : ∀ d < chunkCount ps s,
    chunkBit ps pool' i s d = if d = c then true else chunkBit ps pool i s d
  bitsOut : ∀ j, j ≠ i → ∀ t, IsClass ps t → SameBits ps pool pool' j t

theorem Inv.reserved_le (hI : Inv ps pool own fresh) {s : ℕ} (hi : i < pool.last)
    (hl : (own i).label = .chunks s) (hc : chunkBit ps pool i s c = false) :
    reserved ps s ≤ c := by
  have hd := hI.desc i hi
  simp only [PageDesc, hl] at hd
  by_contra hlt
  rw [hd.2.2.2.1 c (by omega)] at hc
  exact absurd hc (by simp)

theorem BitWrite.taken (hI : Inv ps pool own fresh) (hi : i < pool.last)
    (hown : own i = ⟨i, 1, .chunks (k + 3)⟩) (hw : BitWrite ps pool q i (k + 3) c true)
    (hcc : c < chunkCount ps (k + 3)) (hclear : chunkBit ps pool i (k + 3) c = false)
    (hinv : Inv ps pool' own false) (hframe : SameFrame q pool') (hslab : pool'.slab = q.slab)
    (hmem : pool'.mem = q.mem) : ChunkTaken ps pool pool' own i (k + 3) c := by
  have hbit : ∀ j s d, chunkBit ps pool' j s d = chunkBit ps q j s d := by
    intro j s d
    simp only [chunkBit, StlSlab.bitmap, StlSlab.pageAddr, hframe.start, hslab, hmem]
  refine ⟨hinv, hw.frame.trans hframe, hI.reserved_le hi (by rw [hown]) hclear, hcc, hclear, ?_, ?_⟩
  · intro d hd
    rw [hbit, hw.bit d hd]
  · intro j hj s hs d hd
    rw [hbit, hw.bitsOut j hj s hs d hd]

theorem setStat_eq (pool : StlSlab) {slot : ℕ} (h : slot < pool.nslots) (f : StlSlabStat → StlSlabStat) :
    ∃ st, pool.setStat slot f = some (pool.withStats st) :=
  ⟨_, if_pos h⟩

/-- A conditional step in front of the rest of a `do` block. -/
theorem ite_bind {α β : Type*} {b : Prop} [Decidable b] {x : Option α} {y r : α}
    {f : α → Option β} (h : (if b then x else some y) = some r) :
    (if b then x.bind f else f y) = f r := by
  by_cases hb : b
  · rw [if_pos hb] at h ⊢
    rw [h]
    rfl
  · rw [if_neg hb] at h ⊢
    rw [Option.some.inj h]

section Take
variable (hI : Inv ps pool own fresh) (hi : i < pool.last) (hk : k < ps.val - 3)
  (hown : own i = ⟨i, 1, .chunks (k + 3)⟩) (hnf : ¬ Full ps pool i (k + 3))

include hI hi hk hown hnf

theorem takeSmall_spec (hsm : k + 3 < ps - 6) :
    ∃ pool' c, pool.takeSmall (geo ps) i (k + 3) k =
        some (some (pool', pool.pageAddr (geo ps) i + c * 2 ^ (k + 3))) ∧
      ChunkTaken ps pool pool' own i (k + 3) c := by
  have hs : IsClass ps (k + 3) := ⟨by omega, by omega⟩
  have hcount := chunkCount_small hsm
  have hmap := bitmapWords hs
  rcases scanBitmap_spec pool (pool.pageAddr (geo ps) i) (chunkCount ps (k + 3) / 64) with
    ⟨-, hall⟩ | ⟨n, b, hscan, hn, hb, hclear, hbefore⟩
  · exact absurd ((full_small hsm).mpr hall) hnf
  · have hdiv : (n * 64 + b) / 64 = n := by omega
    have hmod : (n * 64 + b) % 64 = b := by omega
    have hcc : n * 64 + b < chunkCount ps (k + 3) := by omega
    have hw := bitWrite_small (v := true) (i := i) hI.base hs hsm hcc
    rw [hdiv, hmod] at hw
    have hwrite : writeBit (pool.bitmap (pool.pageAddr (geo ps) i) n) b true =
        pool.bitmap (pool.pageAddr (geo ps) i) n ||| BitVec.twoPow 64 b := rfl
    rw [hwrite] at hw
    generalize hq : pool.setBitmap (pool.pageAddr (geo ps) i) n
      (pool.bitmap (pool.pageAddr (geo ps) i) n ||| BitVec.twoPow 64 b) = q at hw
    have hother : ∀ m, m ≠ n → q.bitmap (pool.pageAddr (geo ps) i) m =
        pool.bitmap (pool.pageAddr (geo ps) i) m := by
      intro m hm
      rw [← hq]
      exact update_of_ne (by omega) _ _
    obtain ⟨st, hst⟩ := setStat_eq q
      (by rw [hw.frame.nslots, hI.base.nslots]; exact hk : k < q.nslots)
      fun st => { st with used := st.used + 1 }
    have hfull : StlSlab.bitmapFull (q.withStats st) (pool.pageAddr (geo ps) i) n
        (chunkCount ps (k + 3) / 64) ↔ Full ps (q.withStats st) i (k + 3) := by
      rw [full_small hsm]
      have haddr : StlSlab.pageAddr (q.withStats st) (geo ps) i =
          pool.pageAddr (geo ps) i := by
        rw [← hq]
        rfl
      rw [haddr]
      constructor
      · rintro ⟨hfirst, hlater⟩ m hm
        rcases lt_trichotomy m n with hlt | rfl | hgt
        · exact (hother m hlt.ne).trans (hbefore m hlt)
        · exact hfirst
        · exact hlater m (List.mem_range'_1.mpr (by omega))
      · intro hall
        refine ⟨hall n hn, ?_⟩
        intro m hm
        have hr := List.mem_range'_1.mp hm
        exact hall m (by omega)
    obtain ⟨nx, pv, heq, hinv⟩ := hI.takeBit hi hk hown hnf (hw.withStats st) hfull
    have hclear' : chunkBit ps pool i (k + 3) (n * 64 + b) = false := by
      rw [chunkBit_small hsm, hdiv, hmod]
      exact hclear
    refine ⟨_, n * 64 + b, ?_, hw.taken hI hi hown hcc hclear' hinv
      ⟨rfl, rfl, rfl, rfl, rfl, rfl⟩ rfl rfl⟩
    rw [kind_small hsm] at heq
    simp only [StlSlab.takeSmall, hmap, hscan, hq, hst, Option.bind_eq_bind, Option.bind_some]
    rw [ite_bind heq, Nat.shiftLeft_eq]
    rfl

theorem takeExact_spec (hex : k + 3 = ps - 6) :
    ∃ pool' c, pool.takeExact (geo ps) i (k + 3) k =
        some (some (pool', pool.pageAddr (geo ps) i + c * 2 ^ (k + 3))) ∧
      ChunkTaken ps pool pool' own i (k + 3) c := by
  have hs : IsClass ps (k + 3) := ⟨by omega, by omega⟩
  have hcount := chunkCount_exact hex hs
  have hbusy : ∀ b, slabBusy.getLsbD b = decide (0 ≤ b ∧ b < 0 + 64) := by
    intro b
    simpa [slabBusy] using BitVec.getLsbD_allOnes (v := 64) (i := b)
  rcases scanBits_spec (w := pool.slab (.page i)) hbusy 64 (i := 0) (by omega) with
    ⟨-, hall⟩ | ⟨b, hscan, -, hb, hclear⟩
  · refine absurd ?_ hnf
    intro c hc
    rw [chunkBit_exact hex]
    simpa using hall c (by omega) (by omega)
  · rw [Nat.zero_add] at hclear
    obtain ⟨q, hset, hslab, hw⟩ := bitWrite_exact (v := true) (c := b) hex hb
      (StlSlab.valid_page hi)
    have hfull : writeBit (pool.slab (.page i)) b true = slabBusy ↔ Full ps q i (k + 3) := by
      rw [full_exact hex hs, hslab]
    obtain ⟨nx, pv, heq, hinv⟩ := hI.takeBit hi hk hown hnf hw hfull
    obtain ⟨st, hst⟩ := setStat_eq (q.withLinks nx pv)
      (by rw [hw.frame.nslots, hI.base.nslots]; exact hk : k < q.nslots)
      fun st => { st with used := st.used + 1 }
    refine ⟨_, b, ?_, hw.taken hI hi hown (by omega)
      (by rw [chunkBit_exact hex]; exact hclear) (hinv.withStats st) ⟨rfl, rfl, rfl, rfl, rfl, rfl⟩ rfl rfl⟩
    rw [kind_exact hex] at heq
    have hwrite : writeBit (pool.slab (.page i)) b true =
        pool.slab (.page i) ||| BitVec.twoPow 64 b := rfl
    rw [hwrite] at hset heq
    simp only [StlSlab.takeExact, hscan, hset, Option.bind_eq_bind, Option.bind_some]
    rw [ite_bind heq]
    simp only [Option.bind_some, hst, Nat.shiftLeft_eq]
    rw [StlSlab.pageAddr, StlSlab.pageAddr]
    change some (some (_, _ + q.start + _)) = _
    rw [hw.frame.start]

theorem takeBig_spec (hbig : ps - 6 < k + 3) :
    ∃ pool' c, pool.takeBig (geo ps) i (k + 3) k =
        some (some (pool', pool.pageAddr (geo ps) i + c * 2 ^ (k + 3))) ∧
      ChunkTaken ps pool pool' own i (k + 3) c := by
  have hs : IsClass ps (k + 3) := ⟨by omega, by omega⟩
  have hcount := chunkCount_big hbig
  have hshape := hI.shape hi (congrArg Block.label hown)
  rcases scanBits_spec (w := pool.slab (.page i)) (getLsbD_bigMask hs hbig) 64 (i := 0)
    (by omega) with ⟨-, hall⟩ | ⟨b, hscan, -, hb, hclear⟩
  · refine absurd ?_ hnf
    intro c hc
    rw [chunkBit_big hbig]
    exact hall c (by omega) hc
  · obtain ⟨q, hset, hslab, hw⟩ := bitWrite_big (v := true) (c := b) hbig hb
      (StlSlab.valid_page hi)
    have hfull : writeBit (pool.slab (.page i)) (32 + b) true &&& slabMapMask =
        StlSlab.bigMask (geo ps) (k + 3) ↔ Full ps q i (k + 3) := by
      rw [full_big hs hbig (hw.shape hshape), hslab]
    obtain ⟨nx, pv, heq, hinv⟩ := hI.takeBit hi hk hown hnf hw hfull
    obtain ⟨st, hst⟩ := setStat_eq (q.withLinks nx pv)
      (by rw [hw.frame.nslots, hI.base.nslots]; exact hk : k < q.nslots)
      fun st => { st with used := st.used + 1 }
    refine ⟨_, b, ?_, hw.taken hI hi hown hb
      (by rw [chunkBit_big hbig]; exact hclear) (hinv.withStats st) ⟨rfl, rfl, rfl, rfl, rfl, rfl⟩ rfl rfl⟩
    rw [kind_big hbig] at heq
    have hwrite : writeBit (pool.slab (.page i)) (32 + b) true =
        pool.slab (.page i) ||| BitVec.twoPow 64 (slabMapShift + b) := rfl
    rw [hwrite] at hset heq
    simp only [StlSlab.takeBig, show slabMapShift = 32 + 0 from rfl, hscan] at hset heq ⊢
    simp only [hset, Option.bind_eq_bind, Option.bind_some]
    rw [ite_bind heq]
    simp only [Option.bind_some, hst, Nat.shiftLeft_eq]
    rw [StlSlab.pageAddr, StlSlab.pageAddr]
    change some (some (_, _ + q.start + _)) = _
    rw [hw.frame.start]

end Take

theorem StlSlab.initBitmap_mem (pool : StlSlab) (a r m w : ℕ) : (pool.initBitmap a r m).mem w =
    if a / 8 ≤ w ∧ w < a / 8 + (r + 1) / 64 then slabBusy
    else if w = a / 8 + (r + 1) / 64 then BitVec.twoPow 64 ((r + 1) % 64) - 1#64
    else if a / 8 + (r + 1) / 64 < w ∧ w < a / 8 + m then 0
    else pool.mem w := rfl

/-- Of a new bitmap the chunks that hold it and the one after them are marked. -/
theorem StlSlab.getLsbD_initBitmap (pool : StlSlab) {a r m d : ℕ} (hd : d < m * 64) :
    ((pool.initBitmap a r m).bitmap a (d / 64)).getLsbD (d % 64) = decide (d ≤ r) := by
  rw [StlSlab.bitmap, initBitmap_mem]
  by_cases h₁ : d / 64 < (r + 1) / 64
  · rw [if_pos (by omega), slabBusy_iff.mp rfl _ (by omega)]
    simp only [true_eq_decide_iff]
    omega
  · rw [if_neg (by omega)]
    by_cases h₂ : d / 64 = (r + 1) / 64
    · rw [if_pos (by omega), getLsbD_lowMask (by omega)]
      simp only [decide_eq_decide]
      omega
    · rw [if_neg (by omega), if_pos (by omega)]
      simp only [BitVec.ofNat_eq_ofNat, BitVec.getLsbD_zero, false_eq_decide_iff]
      omega

theorem StlSlab.initBitmap_outside (pool : StlSlab) {a r m w : ℕ} (hr : (r + 1) / 64 < m)
    (hw : w < a / 8 ∨ a / 8 + m ≤ w) : (pool.initBitmap a r m).mem w = pool.mem w := by
  rw [initBitmap_mem, if_neg (by omega), if_neg (by omega), if_neg (by omega)]

def StlSlab.asListed (pool : StlSlab) (i k : ℕ) (w : Word) (t : PageType) : StlSlab :=
  { pool with
    slab := update pool.slab (.page i) w
    next := update (update pool.next (.page i) (.slot k)) (.slot k) (.page i)
    prev := update pool.prev (.page i) ⟨.slot k, t⟩ }

theorem listPage_eq (hi : i < pool.last) (hk : k < pool.nslots) (w : Word) (t : PageType) :
    pool.listPage i k w t = some (pool.asListed i k w t) := by
  have hv : pool.valid (.page i) = true := StlSlab.valid_page hi
  have hvk := fun p hn hl =>
    @StlSlab.valid_congr pool p hn hl (.slot k) (StlSlab.valid_slot hk)
  simp [StlSlab.listPage, StlSlab.setPage, StlSlab.setNext, hv, hvk, StlSlab.asListed]

/-- What remains to be checked of a page that has just been listed. -/
theorem pageInit_asListed {w : Word} {mem : ℕ → Word} {st : ℕ → StlSlabStat}
    (hq : q = (StlSlab.asListed { pool with mem := mem } i k w (kind ps (k + 3))).withStats st)
    (hshape : SlabShape ps (k + 3) w)
    (hbit : ∀ d < chunkCount ps (k + 3),
      chunkBit ps q i (k + 3) d = decide (d ≤ reserved ps (k + 3)))
    (hout : ∀ j, j ≠ i → ∀ t, IsClass ps t → SameBits ps pool { pool with mem := mem } j t) :
    PageInit ps pool q i k := by
  subst hq
  have hslab : ∀ j, j ≠ i → update pool.slab (.page i) w (.page j) = pool.slab (.page j) :=
    fun j hj => update_of_ne (by simpa using hj) _ _
  refine ⟨⟨rfl, rfl, rfl, rfl, rfl, rfl⟩, rfl, hslab, ?_, hbit, ?_, update_self _ _ _, ?_,
    update_self _ _ _, ?_⟩
  · change SlabShape ps (k + 3) (update pool.slab (.page i) w (.page i))
    rwa [update_self]
  · intro j hj s d hs hd
    rw [← hout j hj s d hs hd]
    simp only [chunkBit, StlSlab.withStats, StlSlab.asListed, hslab j hj]
    rfl
  · change update (update pool.next (.page i) (.slot k)) (.slot k) (.page i) (.page i) = _
    rw [update_of_ne (by simp), update_self]
  · intro r hrk hri
    refine ⟨?_, update_of_ne hri _ _⟩
    change update (update pool.next (.page i) (.slot k)) (.slot k) (.page i) r = _
    rw [update_of_ne hrk, update_of_ne hri]

section Fresh
variable (hb : Base ps pool) (hi : i < pool.last) (hk : k < ps.val - 3)

include hb hi hk

theorem newSmall_spec (hsm : k + 3 < ps - 6) :
    ∃ pool', pool.newSmall (geo ps) i (k + 3) k =
        some (pool', pool.pageAddr (geo ps) i + reserved ps (k + 3) * 2 ^ (k + 3)) ∧
      PageInit ps pool pool' i k := by
  have hs : IsClass ps (k + 3) := ⟨by omega, by omega⟩
  have hcount := chunkCount_small hsm
  obtain ⟨-, hres, -⟩ := bitmapChunks_spec hs hsm
  have hreserved := reserved_small hsm
  have hmap := bitmapWords hs
  rw [hreserved]
  generalize hr : StlSlab.bitmapChunks (geo ps) (k + 3) = r at hres hreserved
  generalize hm : chunkCount ps (k + 3) / 64 = m at hmap hcount
  generalize hq : pool.initBitmap (pool.pageAddr (geo ps) i) r m = q
  have hmem : q = { pool with mem := q.mem } := by
    rw [← hq]
    rfl
  have hiq : i < q.last := by
    rw [hmem]
    exact hi
  have hkq : k < q.nslots := by
    rw [hmem]
    exact (hb.nslots.symm ▸ hk : k < pool.nslots)
  have hlist := listPage_eq hiq hkq (BitVec.ofNat 64 (k + 3)) .small
  obtain ⟨st, hst⟩ := setStat_eq (q.asListed i k (BitVec.ofNat 64 (k + 3)) .small) hkq fun st =>
    { st with
      total := st.total + BitVec.ofNat 64 ((geo ps).stlPagesize >>> (k + 3) - r)
      used := st.used + 1 }
  refine ⟨(q.asListed i k (BitVec.ofNat 64 (k + 3)) .small).withStats st, ?_,
    pageInit_asListed (by rw [kind_small hsm, ← hmem]) ?_ ?_ ?_⟩
  · simp only [StlSlab.newSmall, hr, hmap, hq, hlist, hst, Option.bind_eq_bind, Option.bind_some,
      Nat.shiftLeft_eq]
  · rw [SlabShape, if_pos hsm]
  · intro d hd
    rw [chunkBit_small hsm, hreserved, ← StlSlab.getLsbD_initBitmap pool (show d < m * 64 by omega),
      hq, hmem]
    rfl
  · intro j hj s hs' d hd
    simp only [chunkBit]
    split
    · have hdw := bitmap_word_lt hs' hd
      have hlast := bitmap_word_lt hs (c := chunkCount ps (k + 3) - 1) (by omega)
      have hfar : pool.pageAddr (geo ps) j / 8 + d / 64 < pool.pageAddr (geo ps) i / 8 ∨
          pool.pageAddr (geo ps) i / 8 + m ≤ pool.pageAddr (geo ps) j / 8 + d / 64 := by
        have hne : ∀ n < 2 ^ ps.val / 8, pool.pageAddr (geo ps) j / 8 + d / 64 ≠
            pool.pageAddr (geo ps) i / 8 + n :=
          fun n hn h => hj (word_inj hb hdw hn h).1
        by_contra hin
        exact hne (pool.pageAddr (geo ps) j / 8 + d / 64 - pool.pageAddr (geo ps) i / 8)
          (by omega) (by omega)
      have hkeep := StlSlab.initBitmap_outside pool (r := r) (by omega) hfar
      rw [hq] at hkeep
      change (q.mem _).getLsbD _ = (pool.mem _).getLsbD _
      rw [← hkeep]
      rfl
    · rfl

theorem newExact_spec (hex : k + 3 = ps - 6) :
    ∃ pool', pool.newExact (geo ps) i k =
        some (pool', pool.pageAddr (geo ps) i + reserved ps (k + 3) * 2 ^ (k + 3)) ∧
      PageInit ps pool pool' i k := by
  have hns : ¬ k + 3 < ps.val - 6 := by omega
  have hreserved := reserved_eq_zero hns
  have hlist := listPage_eq (k := k) hi (by rw [hb.nslots]; exact hk) 1 .exact
  obtain ⟨st, hst⟩ := setStat_eq (pool.asListed i k 1 .exact)
    (by rw [hb.nslots]; exact hk : k < pool.nslots) fun st =>
      { st with total := st.total + BitVec.ofNat 64 wordBits, used := st.used + 1 }
  refine ⟨(pool.asListed i k 1 .exact).withStats st, ?_,
    @pageInit_asListed ps pool _ i k _ pool.mem _ (by rw [kind_exact hex]) ?_ ?_ (fun _ _ _ _ _ _ => rfl)⟩
  · simp only [StlSlab.newExact, hlist, hst, Option.bind_eq_bind, Option.bind_some, hreserved,
      Nat.zero_mul, Nat.add_zero]
    rfl
  · rw [SlabShape, if_neg hns]
    intro h
    omega
  · intro d hd
    rw [chunkBit_exact hex, hreserved]
    change (update pool.slab (.page i) 1 (.page i)).getLsbD d = _
    rw [update_self]
    simp

theorem newBig_spec (hbig : ps - 6 < k + 3) :
    ∃ pool', pool.newBig (geo ps) i (k + 3) k =
        some (pool', pool.pageAddr (geo ps) i + reserved ps (k + 3) * 2 ^ (k + 3)) ∧
      PageInit ps pool pool' i k := by
  have hs : IsClass ps (k + 3) := ⟨by omega, by omega⟩
  have hcount := chunkCount_big hbig
  have hps := ps.hi
  have hns : ¬ k + 3 < ps.val - 6 := by omega
  have hreserved := reserved_eq_zero hns
  have hlist := listPage_eq (k := k) hi (by rw [hb.nslots]; exact hk)
    (BitVec.twoPow 64 slabMapShift ||| BitVec.ofNat 64 (k + 3)) .big
  obtain ⟨st, hst⟩ := setStat_eq
    (pool.asListed i k (BitVec.twoPow 64 slabMapShift ||| BitVec.ofNat 64 (k + 3)) .big)
    (by rw [hb.nslots]; exact hk : k < pool.nslots) fun st =>
      { st with
        total := st.total + BitVec.ofNat 64 ((geo ps).stlPagesize >>> (k + 3))
        used := st.used + 1 }
  have hbit : ∀ b, (BitVec.twoPow 64 slabMapShift ||| BitVec.ofNat 64 (k + 3)).getLsbD b =
      (decide (b = 32) || (BitVec.ofNat 64 (k + 3)).getLsbD b) := by
    intro b
    rw [BitVec.getLsbD_or, BitVec.getLsbD_twoPow]
    simp [slabMapShift, eq_comm]
  have hlow : ∀ b, 4 ≤ b → (BitVec.ofNat 64 (k + 3)).getLsbD b = false := by
    intro b hb4
    rw [BitVec.getLsbD_ofNat, Nat.testBit_lt_two_pow]
    · simp
    · calc k + 3 < 2 ^ 4 := by omega
        _ ≤ 2 ^ b := Nat.pow_le_pow_right (by omega) hb4
  refine ⟨(pool.asListed i k
      (BitVec.twoPow 64 slabMapShift ||| BitVec.ofNat 64 (k + 3)) .big).withStats st, ?_,
    @pageInit_asListed ps pool _ i k _ pool.mem _ (by rw [kind_big hbig]) ?_ ?_ (fun _ _ _ _ _ _ => rfl)⟩
  · simp only [StlSlab.newBig, hlist, hst, Option.bind_eq_bind, Option.bind_some, hreserved,
      Nat.zero_mul, Nat.add_zero]
    rfl
  · rw [SlabShape, if_neg hns]
    refine fun _ => ⟨?_, ?_⟩
    · apply BitVec.eq_of_getLsbD_eq
      intro b hb
      rw [BitVec.getLsbD_and, hbit, getLsbD_shiftMask]
      by_cases h4 : b < 4
      · have h32 : ¬ b = 32 := by omega
        simp [h4, h32]
      · simp [h4, hlow b (by omega)]
    · intro b hb
      have h2 := two_le_chunkCount hs
      rw [hbit, hlow b (by omega)]
      simp
      omega
  · intro d hd
    rw [chunkBit_big hbig, hreserved]
    change (update pool.slab (.page i) _ (.page i)).getLsbD (32 + d) = _
    rw [update_self, hbit, hlow _ (by omega)]
    simp

end Fresh

end KirinFS.Slab
