import KirinFS.Slab.GiveChunk

/-! # `stl_slab_free` takes one grant back -/

namespace KirinFS.Slab
open Foundation.Tiling Foundation.IntrusiveRing Foundation.WordBits Function

variable {ps : PageShift} {pool : StlSlab} {own : PageMap} {fresh : Bool} {i k c s : ℕ}

theorem chunk_addr (hb : Base ps pool) (hs : IsClass ps s) (hc : c < chunkCount ps s) :
    (Grant.chunk i s c).addr ps pool % 2 ^ s = 0 ∧
      ((Grant.chunk i s c).addr ps pool % 2 ^ ps.val) >>> s = c ∧
      (Grant.chunk i s c).addr ps pool / 2 ^ ps.val * 2 ^ ps.val = pool.pageAddr (geo ps) i ∧
      ((Grant.chunk i s c).addr ps pool - pool.start) >>> ps.val = i := by
  have hmul := chunkCount_mul hs
  have hlt : c * 2 ^ s < 2 ^ ps.val := by
    rw [← hmul]
    exact Nat.mul_lt_mul_of_pos_right hc (Nat.two_pow_pos s)
  obtain ⟨a, ha⟩ := hb.aligned
  have haddr : (Grant.chunk i s c).addr ps pool = 2 ^ ps.val * (a + i) + c * 2 ^ s := by
    rw [Grant.addr, pageAddr_geo, ha, Nat.mul_add, Nat.mul_comm i]
  have hmod : (Grant.chunk i s c).addr ps pool % 2 ^ ps.val = c * 2 ^ s := by
    rw [haddr, Nat.mul_add_mod, Nat.mod_eq_of_lt hlt]
  refine ⟨?_, ?_, ?_, ?_⟩
  · rw [haddr, ← hmul, Nat.mul_right_comm, ← Nat.add_mul]
    exact Nat.mul_mod_left _ _
  · rw [hmod, Nat.shiftRight_eq_div_pow, Nat.mul_div_cancel _ (Nat.two_pow_pos s)]
  · rw [haddr, Nat.mul_add_div (Nat.two_pow_pos _), Nat.div_eq_of_lt hlt, pageAddr_geo, ha]
    ring
  · have hsub : (Grant.chunk i s c).addr ps pool - pool.start = 2 ^ ps.val * i + c * 2 ^ s := by
      rw [Grant.addr, pageAddr_geo, Nat.mul_comm i]
      omega
    rw [hsub, Nat.shiftRight_eq_div_pow, Nat.mul_add_div (Nat.two_pow_pos _),
      Nat.div_eq_of_lt hlt, Nat.add_zero]

/-- The class index survives in the low bits of the `slab` word. -/
theorem shape_shift (hs : IsClass ps s) (hne : s ≠ ps - 6) {w : Word} (hw : SlabShape ps s w) :
    (w &&& slabShiftMask).toNat = s := by
  have hlt := hs.2
  have hhi := ps.hi
  rw [SlabShape] at hw
  by_cases hsm : s < ps - 6
  · rw [if_pos hsm] at hw
    rw [hw]
    have h16 : ∀ n < 16, (BitVec.ofNat 64 n &&& slabShiftMask).toNat = n := by decide
    exact h16 s (by omega)
  · rw [if_neg hsm] at hw
    rw [(hw (by omega)).1, BitVec.toNat_ofNat, Nat.mod_eq_of_lt (by omega)]

section Chunk
variable (hG : Good ps pool own fresh) (hw : (Grant.chunk i (k + 3) c).Held ps pool own)

include hG hw

theorem freeSmall_spec (hsm : k + 3 < ps - 6) :
    ∃ pool' own', pool.freeSmall (geo ps) i ((Grant.chunk i (k + 3) c).addr ps pool) =
        some pool' ∧ Released ps pool pool' own own' (.chunk i (k + 3) c) ∧
      ∀ u, 0 < u k → Counted ps pool own u → Counted ps pool' own' (update u k (u k - 1)) := by
  obtain ⟨hi, hl, hres, hcc, hbit⟩ := hw
  have hs := hG.inv.isClass hi hl
  have hk : k < ps.val - 3 := by omega
  have hhi := ps.hi
  have hown := hG.inv.own_chunks hi hl
  obtain ⟨hmod, hidx, hpage, -⟩ := chunk_addr hG.inv.base hs hcc (i := i)
  have hshape := hG.inv.shape hi hl
  have hshift := shape_shift hs (by omega) hshape
  have hslot := hG.inv.base.slot_eq hk
  have hcount := chunkCount_small hsm
  have hmap := bitmapWords hs
  obtain ⟨n, p, hlist, hclear⟩ := hG.inv.clearBit hi hk hown (hG.inv.next_null_iff hi hk hl)
  rw [kind_small hsm] at hlist
  have hset : pool.bitmap (pool.pageAddr (geo ps) i) (c / 64) &&& BitVec.twoPow 64 (c % 64) ≠ 0 := by
    rw [Ne, and_bit_eq_zero_iff]
    rw [chunkBit_small hsm] at hbit
    simp [hbit]
  have hbase : Base ps (pool.withLinks n p) :=
    @SameFrame.base ps pool _ ⟨rfl, rfl, rfl, rfl, rfl, rfl⟩ hG.inv.base
  generalize hq₀ : (pool.withLinks n p).setBitmap (pool.pageAddr (geo ps) i) (c / 64)
    ((pool.withLinks n p).bitmap (pool.pageAddr (geo ps) i) (c / 64) &&&
      ~~~(BitVec.twoPow 64 (c % 64))) = q at *
  have hwrite : BitWrite ps (pool.withLinks n p) q i (k + 3) c false := by
    rw [← hq₀]
    exact bitWrite_small (v := false) hbase hs hsm hcc
  have hq := hclear q c hwrite hres hcc
  have hocc : q.bitmapClear (pool.pageAddr (geo ps) i) (StlSlab.bitmapChunks (geo ps) (k + 3))
      (chunkCount ps (k + 3) / 64) ↔ ¬ Occupied ps q i (k + 3) := by
    rw [← hq₀]
    exact (not_iff_comm.mp (occupied_small hs hsm).symm).symm
  have husable : StlSlab.usable (geo ps) (k + 3) = (geo ps).stlPagesize >>> (k + 3) -
      StlSlab.bitmapChunks (geo ps) (k + 3) := if_pos hsm
  obtain ⟨pool', own', hfin, hr⟩ := hq.finish hG ⟨hi, hl, hres, hcc, hbit⟩ (by rw [← hq₀]; rfl)
    hocc (f := fun st =>
      StlSlabStat.mk (st.total - BitVec.ofNat 64 ((geo ps).stlPagesize >>> (k + 3) -
        StlSlab.bitmapChunks (geo ps) (k + 3))) st.used st.reqs st.fails) (by rw [husable]; rfl)
  refine ⟨pool', own', ?_, hr⟩
  have hps : (geo ps).stlPagesize = 2 ^ ps.val := rfl
  have hwb : wordBits = 64 := rfl
  rw [← hfin]
  simp only [StlSlab.freeSmall, hshift, Nat.one_shiftLeft, hmod, ne_eq, not_true, if_false, hps,
    hidx, hpage, hwb, hset, not_false_iff, if_true, hslot, Option.bind_eq_bind, Option.bind_some]
  rw [ite_bind hlist, hq₀]
  rw [hps, hwb] at hmap
  rw [hmap]

theorem freeExact_spec (hex : k + 3 = ps - 6) :
    ∃ pool' own', pool.freeExact (geo ps) i ((Grant.chunk i (k + 3) c).addr ps pool) =
        some pool' ∧ Released ps pool pool' own own' (.chunk i (k + 3) c) ∧
      ∀ u, 0 < u k → Counted ps pool own u → Counted ps pool' own' (update u k (u k - 1)) := by
  obtain ⟨hi, hl, hres, hcc, hbit⟩ := hw
  have hs := hG.inv.isClass hi hl
  have hk : k < ps.val - 3 := by omega
  have hhi := ps.hi
  have hns : ¬ k + 3 < ps.val - 6 := by omega
  have hown := hG.inv.own_chunks hi hl
  have hcount := chunkCount_exact hex hs
  obtain ⟨hmod, hidx, hpage, -⟩ := chunk_addr hG.inv.base hs hcc (i := i)
  have hslot := hG.inv.base.slot_eq hk
  obtain ⟨n, p, hlist, hclear⟩ := hG.inv.clearBit hi hk hown (full_exact hex hs).symm
  rw [kind_exact hex] at hlist
  have hset : pool.slab (.page i) &&& BitVec.twoPow 64 c ≠ 0 := by
    rw [Ne, and_bit_eq_zero_iff]
    rw [chunkBit_exact hex] at hbit
    simp [hbit]
  obtain ⟨q, hq₀, hslab, hwrite⟩ := bitWrite_exact (v := false)
    (c := c) hex (by omega) (@StlSlab.valid_page (pool.withLinks n p) i hi)
  have hq := hclear q c hwrite hres hcc
  have hocc : q.slab (.page i) = 0 ↔ ¬ Occupied ps q i (k + 3) := by
    rw [occupied_exact hex hs, not_not]
  have husable : StlSlab.usable (geo ps) (k + 3) = wordBits := (if_neg hns).trans (if_pos hex)
  obtain ⟨pool', own', hfin, hr⟩ := hq.finish hG ⟨hi, hl, hres, hcc, hbit⟩
    ((StlSlab.setSlab_relinked hq₀).stats.trans rfl) hocc (f := fun st =>
      StlSlabStat.mk (st.total - BitVec.ofNat 64 wordBits) st.used st.reqs st.fails)
    (by rw [husable]; rfl)
  refine ⟨pool', own', ?_, hr⟩
  have hps : (geo ps).stlPagesize = 2 ^ ps.val := rfl
  have hshift : (geo ps).stlSlabExactShift = k + 3 := hex.symm
  have hsize := exactSize_eq hex hs
  have hwrite' : writeBit ((pool.withLinks n p).slab (.page i)) c false =
      (pool.withLinks n p).slab (.page i) &&& ~~~(BitVec.twoPow 64 c) := rfl
  rw [hwrite'] at hq₀
  rw [← hfin]
  simp only [StlSlab.freeExact, hshift, hsize, hmod, ne_eq, not_true, if_false, hps, hidx, hset,
    not_false_iff, if_true, hslot, Option.bind_eq_bind, Option.bind_some]
  rw [ite_bind hlist, hq₀]
  rfl

theorem freeBig_spec (hbig : ps - 6 < k + 3) :
    ∃ pool' own', pool.freeBig (geo ps) i ((Grant.chunk i (k + 3) c).addr ps pool) =
        some pool' ∧ Released ps pool pool' own own' (.chunk i (k + 3) c) ∧
      ∀ u, 0 < u k → Counted ps pool own u → Counted ps pool' own' (update u k (u k - 1)) := by
  obtain ⟨hi, hl, hres, hcc, hbit⟩ := hw
  have hs := hG.inv.isClass hi hl
  have hlt := hs.2
  have hk : k < ps.val - 3 := by omega
  have hhi := ps.hi
  have hns : ¬ k + 3 < ps.val - 6 := by omega
  have hne : ¬ k + 3 = ps.val - 6 := by omega
  have hown := hG.inv.own_chunks hi hl
  obtain ⟨hmod, hidx, hpage, -⟩ := chunk_addr hG.inv.base hs hcc (i := i)
  have hshape := hG.inv.shape hi hl
  have hshift := shape_shift hs hne hshape
  have hslot := hG.inv.base.slot_eq hk
  obtain ⟨n, p, hlist, hclear⟩ := hG.inv.clearBit hi hk hown (hG.inv.next_null_iff hi hk hl)
  rw [kind_big hbig] at hlist
  have hset : pool.slab (.page i) &&& BitVec.twoPow 64 (c + slabMapShift) ≠ 0 := by
    rw [Ne, and_bit_eq_zero_iff, Nat.add_comm]
    rw [chunkBit_big hbig] at hbit
    simp [slabMapShift, hbit]
  obtain ⟨q, hq₀, hslab, hwrite⟩ := bitWrite_big (v := false)
    (c := c) hbig hcc (@StlSlab.valid_page (pool.withLinks n p) i hi)
  have hq := hclear q c hwrite hres hcc
  have hocc : q.slab (.page i) &&& slabMapMask = 0 ↔ ¬ Occupied ps q i (k + 3) := by
    rw [occupied_big hbig (hwrite.shape hshape), not_not]
  have husable : StlSlab.usable (geo ps) (k + 3) = (geo ps).stlPagesize >>> (k + 3) :=
    (if_neg hns).trans (if_neg hne)
  obtain ⟨pool', own', hfin, hr⟩ := hq.finish hG ⟨hi, hl, hres, hcc, hbit⟩
    ((StlSlab.setSlab_relinked hq₀).stats.trans rfl) hocc (f := fun st =>
      StlSlabStat.mk (st.total - BitVec.ofNat 64 ((geo ps).stlPagesize >>> (k + 3))) st.used
        st.reqs st.fails) (by rw [husable]; rfl)
  refine ⟨pool', own', ?_, hr⟩
  have hps : (geo ps).stlPagesize = 2 ^ ps.val := rfl
  have hwrite' : writeBit ((pool.withLinks n p).slab (.page i)) (32 + c) false =
      (pool.withLinks n p).slab (.page i) &&& ~~~(BitVec.twoPow 64 (c + slabMapShift)) := by
    rw [Nat.add_comm c]
    rfl
  rw [hwrite'] at hq₀
  rw [← hfin]
  simp only [StlSlab.freeBig, hshift, Nat.one_shiftLeft, hmod, ne_eq, not_true, if_false, hps, hidx,
    hset, not_false_iff, if_true, hslot, Option.bind_eq_bind, Option.bind_some]
  rw [ite_bind hlist, hq₀]
  rfl

end Chunk

/-- The word of an allocated run is recognised and gives back the length. -/
theorem runWord_spec (hk : k < 2 ^ 60) :
    ¬ (BitVec.ofNat 64 k ||| slabPageStart) &&& slabPageStart = 0 ∧
      ¬ BitVec.ofNat 64 k ||| slabPageStart = slabPageBusy ∧
      ((BitVec.ofNat 64 k ||| slabPageStart) &&& ~~~slabPageStart).toNat = k := by
  have hlow : ∀ b, 60 ≤ b → (BitVec.ofNat 64 k).getLsbD b = false := by
    intro b hb
    rw [BitVec.getLsbD_ofNat, Nat.testBit_lt_two_pow]
    · simp
    · calc k < 2 ^ 60 := hk
        _ ≤ 2 ^ b := Nat.pow_le_pow_right (by omega) hb
  have hstart : ∀ b, slabPageStart.getLsbD b = decide (b = 63) := by
    intro b
    by_cases hb : b < 64
    · revert b
      decide
    · rw [BitVec.getLsbD_of_ge _ _ (by omega)]
      simp
      omega
  refine ⟨?_, ?_, ?_⟩
  · intro h0
    have hbit := congrArg (fun w => BitVec.getLsbD w 63) h0
    simp only [BitVec.getLsbD_and, BitVec.getLsbD_or, hstart] at hbit
    simp at hbit
  · intro h0
    have hbit := congrArg (fun w => BitVec.getLsbD w 60) h0
    simp only [BitVec.getLsbD_or, hlow 60 le_rfl, hstart] at hbit
    revert hbit
    decide
  · have hw : (BitVec.ofNat 64 k ||| slabPageStart) &&& ~~~slabPageStart = BitVec.ofNat 64 k := by
      apply BitVec.eq_of_getLsbD_eq
      intro b hb
      rw [BitVec.getLsbD_and, BitVec.getLsbD_or, BitVec.getLsbD_not, hstart]
      by_cases h63 : b = 63
      · rw [h63, hlow 63 (by omega)]
        simp
      · simp [h63, hb]
    rw [hw, toNat_ofNat_len hk]

section Run
variable {pool' : StlSlab} {own' : PageMap}

theorem RunGiven.held_ne (h : RunGiven ps pool pool' own own' i k) (hI : Inv ps pool own fresh)
    (hi : i < pool.last) (hown : own i = ⟨i, k, .busy⟩) (v : Grant) :
    v.Held ps pool' own' ↔ v.Held ps pool own ∧ v ≠ .run i k := by
  have hkpos := hI.tiling.len_pos hi
  simp only [hown] at hkpos
  refine (h.held_iff v).trans (and_congr_right fun hv => ?_)
  constructor
  · rintro hout rfl
    simp only [Grant.page] at hout
    omega
  · intro hne
    by_contra hin
    have hpage := hI.tiling.same hi (j := v.page)
      (by rw [hown]; exact ⟨by simp only; omega, by simp only [Block.stop]; omega⟩)
    rw [hown] at hpage
    cases v with
    | run j m =>
      have h₁ := hpage.symm.trans hv.2
      have h₂ := congrArg Block.head h₁
      have h₃ := congrArg Block.len h₁
      simp only at h₂ h₃
      exact hne (by rw [h₂, h₃])
    | chunk j t d =>
      have hl := hv.2.1
      rw [show own j = _ from hpage] at hl
      simp at hl

theorem RunGiven.chunkPage_iff (h : RunGiven ps pool pool' own own' i k)
    (hI : Inv ps pool own fresh) (hi : i < pool.last) (hown : own i = ⟨i, k, .busy⟩) {j : ℕ}
    (hj : j < pool.last) (t : ℕ) : (own' j).label = .chunks t ↔ (own j).label = .chunks t := by
  by_cases hin : j < i ∨ i + k ≤ j
  · rcases h.others j hj hin with heq | ⟨h₁, h₂⟩
    · rw [heq]
    · simp [h₁, h₂]
  · have hsame := hI.tiling.same hi (j := j)
      (by rw [hown]; exact ⟨by simp only; omega, by simp only [Block.stop]; omega⟩)
    rw [h.given j (by omega) (by omega), hsame, hown]
    simp

/-- The code recovers the length from the word of the first page. -/
theorem freeRun_eq (hI : Inv ps pool own fresh) (hi : i < pool.last)
    (hown : own i = ⟨i, k, .busy⟩) (hfree : pool.stlSlabFreePages i k = some pool') :
    pool.freeRun (geo ps) i ((Grant.run i k).addr ps pool) =
      some (pool'.clearMem ((Grant.run i k).addr ps pool) (k * 2 ^ ps.val)) := by
  have hst := hI.tiling.stop_le hi
  have hbound := hI.base.bound
  simp only [Block.stop, hown] at hst
  have hslab : pool.slab (.page i) = BitVec.ofNat 64 k ||| slabPageStart := by
    have hd := hI.desc i hi
    rw [hown] at hd
    simpa using hd.1
  have hmod : (Grant.run i k).addr ps pool % 2 ^ ps.val = 0 := by
    obtain ⟨a, ha⟩ := hI.base.aligned
    rw [Grant.addr, pageAddr_geo, ha, Nat.mul_comm i, ← Nat.mul_add]
    exact Nat.mul_mod_right _ _
  obtain ⟨h₁, h₂, h₃⟩ := runWord_spec (by omega : k < 2 ^ 60)
  rw [← hslab] at h₁ h₂ h₃
  have hps : (geo ps).stlPagesize = 2 ^ ps.val := rfl
  have hshift : (geo ps).stlPagesizeShift = ps.val := rfl
  simp only [StlSlab.freeRun, hps, hmod, ne_eq, not_true, if_false, h₁, h₂, h₃, hfree,
    Option.bind_eq_bind, Option.bind_some, hshift, Nat.shiftLeft_eq]

end Run

theorem freeRun_spec (hG : Good ps pool own fresh) (hw : (Grant.run i k).Held ps pool own) :
    ∃ pool' own', pool.freeRun (geo ps) i ((Grant.run i k).addr ps pool) = some pool' ∧
      Released ps pool pool' own own' (.run i k) ∧
      ∀ u, Counted ps pool own u → Counted ps pool' own' u := by
  obtain ⟨hi, hown⟩ := hw
  obtain ⟨pool₁, own₁, hfree, hgiven⟩ := stlSlabFreePages_busy hG.inv hG.settled hi hown
  have hG₁ : Good ps pool₁ own₁ false :=
    hgiven.good fun j hj _ s hl => hG.occupied j hj s hl
  have haddr : ∀ j, pool₁.pageAddr (geo ps) j = pool.pageAddr (geo ps) j := by
    intro j
    rw [StlSlab.pageAddr, StlSlab.pageAddr, hgiven.frozen.start]
  have hend : pool.pageAddr (geo ps) i + k * 2 ^ ps.val = pool.pageAddr (geo ps) (i + k) := by
    rw [pageAddr_geo, pageAddr_geo]
    ring
  obtain ⟨hgood, hheld⟩ := hG₁.clearMem (p := (Grant.run i k).addr ps pool)
    (n := k * 2 ^ ps.val) (by
      intro j hj t hlj
      apply clearMem_sameBits
      intro hsm d hd
      rw [haddr]
      refine other_page_words (i := i) (m := k) ?_ (hG₁.inv.isClass hj hlj) hd le_rfl hend.le
      by_contra hin
      rw [hgiven.given j (by omega) (by omega)] at hlj
      simp at hlj)
  have hframe : SameFrame pool (pool₁.clearMem ((Grant.run i k).addr ps pool) (k * 2 ^ ps.val)) :=
    hgiven.frozen.toSameFrame.trans ⟨rfl, rfl, rfl, rfl, rfl, rfl⟩
  refine ⟨_, own₁, freeRun_eq hG.inv hi hown hfree,
    ⟨hgood, hframe, fun v => (hheld v).trans (hgiven.held_ne hG.inv hi hown v)⟩, ?_⟩
  intro u hu
  exact hu.congr hgiven.frozen.last
    (chunkPages_congr fun j hj t => hgiven.chunkPage_iff hG.inv hi hown hj t)
    (fun m => congrArg StlSlabStat.total (congrFun hgiven.frozen.stats m))
    fun m => congrArg StlSlabStat.used (congrFun hgiven.frozen.stats m)

theorem described (hi : i < pool.last) : i < max (pool.last + pool.spare) 1 := by omega

/-- Freeing the address of a live grant takes exactly that grant back, also in the counters. -/
theorem stlSlabFree_counted (hG : Good ps pool own fresh) {w : Grant} (hw : w.Held ps pool own) :
    ∃ pool' own', pool.stlSlabFree (geo ps) (w.addr ps pool) = some pool' ∧
      Released ps pool pool' own own' w ∧
      ∀ u, Counted ps pool own (w.charge u) → Counted ps pool' own' u := by
  have hroom := hG.inv.base.room (by have := hw.page_lt; omega)
  have hshift : (geo ps).stlPagesizeShift = ps.val := rfl
  cases w with
  | run i k =>
    obtain ⟨hi, hown⟩ := hw
    have htag := hG.inv.page_tag hi (hG.settled i hi) (by simp [hown])
    have haddr : (Grant.run i k).addr ps pool = pool.start + i * 2 ^ ps.val := pageAddr_geo pool i
    have hle : i * 2 ^ ps.val ≤ pool.last * 2 ^ ps.val := Nat.mul_le_mul_right _ hi.le
    have hidx : ((Grant.run i k).addr ps pool - pool.start) >>> ps.val = i := by
      rw [haddr, Nat.add_sub_cancel_left, Nat.shiftRight_eq_div_pow,
        Nat.mul_div_cancel _ (Nat.two_pow_pos _)]
    have hin : ¬ ((Grant.run i k).addr ps pool < pool.start ∨
        pool.stop < (Grant.run i k).addr ps pool) := by omega
    obtain ⟨pool', own', heq, hr, hcount⟩ := freeRun_spec hG ⟨hi, hown⟩
    refine ⟨pool', own', ?_, hr, hcount⟩
    simp only [StlSlab.stlSlabFree, if_neg hin, hshift, hidx, if_pos (described hi), htag, heq]
  | chunk i s c =>
    have hi := hw.1
    have hl := hw.2.1
    have hs := hG.inv.isClass hi hl
    obtain ⟨k, rfl⟩ : ∃ k, s = k + 3 := ⟨s - 3, by have h := hs.1; omega⟩
    have htag := hG.inv.chunk_tag hi hl
    obtain ⟨-, -, -, hidx⟩ := chunk_addr hG.inv.base hs hw.2.2.2.1 (i := i)
    have hmul := chunkCount_mul hs
    have hlt : c * 2 ^ (k + 3) < 2 ^ ps.val := by
      rw [← hmul]
      exact Nat.mul_lt_mul_of_pos_right hw.2.2.2.1 (Nat.two_pow_pos _)
    have haddr : (Grant.chunk i (k + 3) c).addr ps pool =
        pool.start + i * 2 ^ ps.val + c * 2 ^ (k + 3) := by
      rw [Grant.addr, pageAddr_geo]
    have hle : (i + 1) * 2 ^ ps.val ≤ pool.last * 2 ^ ps.val := Nat.mul_le_mul_right _ hi
    rw [Nat.add_mul, Nat.one_mul] at hle
    have hin : ¬ ((Grant.chunk i (k + 3) c).addr ps pool < pool.start ∨
        pool.stop < (Grant.chunk i (k + 3) c).addr ps pool) := by omega
    have hrefund : ∀ {pool' own'},
        (∀ u, 0 < u k → Counted ps pool own u → Counted ps pool' own' (update u k (u k - 1))) →
          ∀ u, Counted ps pool own ((Grant.chunk i (k + 3) c).charge u) →
            Counted ps pool' own' u := by
      intro pool' own' hcount u hu
      have hback := hcount _ (by rw [Grant.charge, Nat.add_sub_cancel, update_self]; omega) hu
      rwa [Grant.charge, Nat.add_sub_cancel, update_self, Nat.add_sub_cancel, update_idem,
        update_eq_self] at hback
    rcases lt_trichotomy (k + 3) (ps.val - 6) with h | h | h
    · obtain ⟨pool', own', heq, hr, hcount⟩ := freeSmall_spec hG hw h
      refine ⟨pool', own', ?_, hr, hrefund hcount⟩
      rw [kind_small h] at htag
      simp only [StlSlab.stlSlabFree, if_neg hin, hshift, hidx, if_pos (described hi), htag, heq]
    · obtain ⟨pool', own', heq, hr, hcount⟩ := freeExact_spec hG hw h
      refine ⟨pool', own', ?_, hr, hrefund hcount⟩
      rw [kind_exact h] at htag
      simp only [StlSlab.stlSlabFree, if_neg hin, hshift, hidx, if_pos (described hi), htag, heq]
    · obtain ⟨pool', own', heq, hr, hcount⟩ := freeBig_spec hG hw h
      refine ⟨pool', own', ?_, hr, hrefund hcount⟩
      rw [kind_big h] at htag
      simp only [StlSlab.stlSlabFree, if_neg hin, hshift, hidx, if_pos (described hi), htag, heq]

end KirinFS.Slab
