import KirinFS.Slab.SlotStep

/-! # The three encodings of a chunk map

Small pages keep the map in their own first words, exact pages in the whole
`slab` word and big pages in its upper half.
-/

namespace KirinFS.Slab
open Foundation.Tiling Foundation.IntrusiveRing Foundation.WordBits Function

variable {ps : PageShift} {pool q : StlSlab} {own : PageMap} {i j s c : ℕ} {v : Bool}

theorem getLsbD_shiftMask (b : ℕ) : slabShiftMask.getLsbD b = decide (b < 4) :=
  getLsbD_lowMask (n := 64) (k := 4) (by omega) b

theorem getLsbD_mapMask (b : ℕ) : slabMapMask.getLsbD b = decide (32 ≤ b ∧ b < 64) := by
  by_cases hb : b < 64
  · revert b
    decide
  · rw [BitVec.getLsbD_of_ge _ _ (by omega)]
    simp [hb]

theorem getLsbD_bigMask (hs : IsClass ps s) (hbig : ps - 6 < s) (b : ℕ) :
    (StlSlab.bigMask (geo ps) s).getLsbD b = decide (32 ≤ b ∧ b < 32 + chunkCount ps s) := by
  have hc := chunkCount_big hbig
  rw [StlSlab.bigMask, pagesize_shiftRight hs, BitVec.getLsbD_shiftLeft, slabMapShift,
    getLsbD_lowMask (by omega)]
  by_cases h32 : b < 32
  · simp [h32]
  · have h := (by omega : 32 ≤ b)
    simp only [h32, decide_false, Bool.not_false, Bool.and_true, h, true_and]
    by_cases hb : b < 64
    · simp only [hb, decide_true, Bool.true_and, decide_eq_decide]
      omega
    · simp only [hb, decide_false, Bool.false_and, Bool.false_eq, decide_eq_false_iff_not]
      omega

section Search

/-- The search stops at the first clear bit, or has seen that there is none. -/
theorem scanBits_spec {w mask : Word} {base count : ℕ}
    (hmask : ∀ b, mask.getLsbD b = decide (base ≤ b ∧ b < base + count)) (fuel : ℕ)
    {i : ℕ} (hf : count ≤ fuel + i) :
    (StlSlab.scanBits w mask fuel (BitVec.twoPow 64 (base + i)) i = none ∧
        ∀ c, i ≤ c → c < count → w.getLsbD (base + c) = true) ∨
      ∃ c, StlSlab.scanBits w mask fuel (BitVec.twoPow 64 (base + i)) i = some c ∧
        i ≤ c ∧ c < count ∧ w.getLsbD (base + c) = false := by
  induction fuel generalizing i with
  | zero => exact Or.inl ⟨rfl, fun c h₁ h₂ => by omega⟩
  | succ fuel ih =>
    have hm : BitVec.twoPow 64 (base + i) &&& mask = 0 ↔ ¬ i < count := by
      rw [BitVec.and_comm, and_bit_eq_zero_iff, hmask]
      simp
    rw [StlSlab.scanBits]
    by_cases hi : i < count
    · rw [if_neg (by rw [hm]; simpa using hi)]
      by_cases hw : w.getLsbD (base + i) = true
      · have hne : w &&& BitVec.twoPow 64 (base + i) ≠ 0 := by
          rw [Ne, and_bit_eq_zero_iff, hw]
          simp
        rw [if_pos hne, twoPow_shift_one, Nat.add_assoc]
        rcases ih (i := i + 1) (by omega) with ⟨heq, hall⟩ | ⟨c, heq, h₁, h₂, h₃⟩
        · refine Or.inl ⟨heq, ?_⟩
          intro c h₁ h₂
          by_cases hc : c = i
          · rw [hc, hw]
          · exact hall c (by omega) h₂
        · exact Or.inr ⟨c, heq, by omega, h₂, h₃⟩
      · have hw' : w.getLsbD (base + i) = false := by simpa using hw
        have hz : ¬ w &&& BitVec.twoPow 64 (base + i) ≠ 0 := by
          rw [not_not, and_bit_eq_zero_iff, hw']
        rw [if_neg hz]
        exact Or.inr ⟨i, rfl, le_rfl, hi, hw'⟩
    · rw [if_pos (hm.mpr hi)]
      exact Or.inl ⟨rfl, fun c h₁ h₂ => by omega⟩

theorem slabBusy_iff {w : Word} : w = slabBusy ↔ ∀ b < 64, w.getLsbD b = true :=
  eq_allOnes_iff (n := 64)

theorem scanBitmap_spec (pool : StlSlab) (a map : ℕ) :
    (pool.scanBitmap a map = none ∧ ∀ n < map, pool.bitmap a n = slabBusy) ∨
      ∃ n b, pool.scanBitmap a map = some (n, b) ∧ n < map ∧ b < 64 ∧
        (pool.bitmap a n).getLsbD b = false ∧ ∀ m < n, pool.bitmap a m = slabBusy := by
  have hbusy : ∀ b, slabBusy.getLsbD b = decide (0 ≤ b ∧ b < 0 + 64) := by
    intro b
    simpa [slabBusy] using BitVec.getLsbD_allOnes (v := 64) (i := b)
  have hscan : ∀ w : Word, (StlSlab.scanBits w slabBusy 64 (BitVec.twoPow 64 0) 0 = none ∧
      w = slabBusy) ∨ ∃ b, StlSlab.scanBits w slabBusy 64 (BitVec.twoPow 64 0) 0 = some b ∧
        b < 64 ∧ w.getLsbD b = false := by
    intro w
    rcases scanBits_spec (w := w) hbusy 64 (i := 0) (by omega) with ⟨h, hall⟩ | h
    · exact Or.inl ⟨h, slabBusy_iff.mpr fun b hb => by simpa using hall b (by omega) hb⟩
    · obtain ⟨b, h, -, hb, hw⟩ := h
      exact Or.inr ⟨b, h, hb, by simpa using hw⟩
  let f : ℕ → Option (ℕ × ℕ) := fun n =>
    if pool.bitmap a n = slabBusy then none
    else (StlSlab.scanBits (pool.bitmap a n) slabBusy 64 (BitVec.twoPow 64 0) 0).map fun i => (n, i)
  have hnone : ∀ n, f n = none → pool.bitmap a n = slabBusy := by
    intro n hn
    by_contra hb
    simp only [f, hb, if_false, Option.map_eq_none_iff] at hn
    rcases hscan (pool.bitmap a n) with h | ⟨b, h, -⟩
    · exact hb h.2
    · rw [hn] at h
      simp at h
  change (((List.range map).findSome? f = none) ∧ _) ∨ ∃ n b, (List.range map).findSome? f = _ ∧ _
  cases hres : (List.range map).findSome? f with
  | none =>
    refine Or.inl ⟨rfl, ?_⟩
    intro n hn
    exact hnone n (List.findSome?_eq_none_iff.mp hres n (List.mem_range.mpr hn))
  | some r =>
    obtain ⟨l₁, n, l₂, hl, hn, hpre⟩ := List.findSome?_eq_some_iff.mp hres
    have hne : pool.bitmap a n ≠ slabBusy := by
      intro hb
      simp [f, hb] at hn
    simp only [f, hne, if_false, Option.map_eq_some_iff] at hn
    obtain ⟨b, hb, rfl⟩ := hn
    have hlen : l₁.length = n := by
      have hget : (List.range map)[l₁.length]? = some n := by rw [hl]; simp
      have hlt : l₁.length < map := by
        have hlm := congrArg List.length hl
        simp at hlm
        omega
      rw [List.getElem?_range hlt] at hget
      exact Option.some.inj hget
    refine Or.inr ⟨n, b, rfl, ?_, ?_⟩
    · have hmem : n ∈ List.range map := by rw [hl]; simp
      exact List.mem_range.mp hmem
    · rcases hscan (pool.bitmap a n) with h | ⟨b', h, hlt, hclear⟩
      · exact absurd h.2 hne
      · rw [hb] at h
        obtain rfl := Option.some.inj h
        refine ⟨hlt, hclear, ?_⟩
        intro m hm
        refine hnone m (hpre m ?_)
        have hget : (List.range map)[m]? = some m := List.getElem?_range (by
          have hmem : n ∈ List.range map := by rw [hl]; simp
          have := List.mem_range.mp hmem
          omega)
        rw [hl, List.getElem?_append_left (by omega)] at hget
        exact List.mem_of_getElem? hget

end Search

/-- Bit `c` of the chunk map of page `i` becomes `v`, and nothing else changes. -/
structure BitWrite (ps : PageShift) (pool q : StlSlab) (i s c : ℕ) (v : Bool) : Prop where
  frame : SameFrame pool q
  next : q.next = pool.next
  prev : q.prev = pool.prev
  pfree : q.pfree = pool.pfree
  slabOut : ∀ j, j ≠ i → q.slab (.page j) = pool.slab (.page j)
  shape : SlabShape ps s (pool.slab (.page i)) → SlabShape ps s (q.slab (.page i))
  bit : ∀ d < chunkCount ps s,
    chunkBit ps q i s d = if d = c then v else chunkBit ps pool i s d
  bitsOut : ∀ j, j ≠ i → ∀ t, IsClass ps t → SameBits ps pool q j t

theorem BitWrite.withStats (h : BitWrite ps pool q i s c v) (st : ℕ → StlSlabStat) :
    BitWrite ps pool (q.withStats st) i s c v :=
  ⟨⟨h.frame.minShift, h.frame.minSize, h.frame.nslots, h.frame.last, h.frame.start, h.frame.stop⟩,
    h.next, h.prev, h.pfree, h.slabOut, h.shape, h.bit, h.bitsOut⟩

section Words
variable {m n : ℕ}

theorem pageAddr_geo (pool : StlSlab) (i : ℕ) :
    pool.pageAddr (geo ps) i = pool.start + i * 2 ^ ps.val := by
  rw [StlSlab.pageAddr, Nat.shiftLeft_eq]
  exact Nat.add_comm _ _

theorem pageAddr_dvd (hb : Base ps pool) (i : ℕ) : 2 ^ ps.val ∣ pool.pageAddr (geo ps) i := by
  rw [pageAddr_geo]
  exact Nat.dvd_add hb.aligned (Nat.dvd_mul_left _ _)

theorem pageAddr_div_eight (hb : Base ps pool) (i : ℕ) :
    pool.pageAddr (geo ps) i / 8 = pool.start / 8 + i * (2 ^ ps.val / 8) := by
  have h8 : 8 ∣ 2 ^ ps.val := pagesize_dvd_eight
  obtain ⟨a, ha⟩ := h8.trans hb.aligned
  obtain ⟨b, hb'⟩ := h8
  rw [pageAddr_geo, ha, hb', Nat.mul_div_cancel_left _ (by omega),
    Nat.mul_div_cancel_left _ (by omega), Nat.mul_left_comm, ← Nat.mul_add,
    Nat.mul_div_cancel_left _ (by omega)]

/-- A word inside a page determines the page and its index there. -/
theorem word_inj (hb : Base ps pool) (hm : m < 2 ^ ps.val / 8) (hn : n < 2 ^ ps.val / 8)
    (h : pool.pageAddr (geo ps) i / 8 + m = pool.pageAddr (geo ps) j / 8 + n) :
    i = j ∧ m = n := by
  rw [pageAddr_div_eight hb, pageAddr_div_eight hb, Nat.add_assoc, Nat.add_assoc] at h
  have h' : m + 2 ^ ps.val / 8 * i = n + 2 ^ ps.val / 8 * j := by
    rw [Nat.mul_comm _ i, Nat.mul_comm _ j]
    omega
  have hdiv := congrArg (· / (2 ^ ps.val / 8)) h'
  simp only [Nat.add_mul_div_left _ _ (by omega : 0 < 2 ^ ps.val / 8), Nat.div_eq_of_lt hm,
    Nat.div_eq_of_lt hn, Nat.zero_add] at hdiv
  rw [hdiv] at h'
  exact ⟨hdiv, by omega⟩

theorem bitmap_word_lt (hs : IsClass ps s) (hc : c < chunkCount ps s) :
    c / 64 < 2 ^ ps.val / 8 := by
  have hmul := chunkCount_mul hs
  have h8 : 8 ≤ 2 ^ s :=
    calc 8 = 2 ^ 3 := rfl
      _ ≤ 2 ^ s := Nat.pow_le_pow_right (by omega) hs.1
  have hle : chunkCount ps s * 8 ≤ 2 ^ ps.val := by
    rw [← hmul]
    exact Nat.mul_le_mul_left _ h8
  omega

end Words

section Writes

theorem bitWrite_small (hb : Base ps pool) (hs : IsClass ps s) (hsm : s < ps - 6)
    (hc : c < chunkCount ps s) :
    BitWrite ps pool (pool.setBitmap (pool.pageAddr (geo ps) i) (c / 64)
      (writeBit (pool.bitmap (pool.pageAddr (geo ps) i) (c / 64)) (c % 64) v)) i s c v := by
  have hword := bitmap_word_lt hs hc
  refine ⟨⟨rfl, rfl, rfl, rfl, rfl, rfl⟩, rfl, rfl, rfl, fun _ _ => rfl, fun h => h, ?_, ?_⟩
  · intro d hd
    simp only [chunkBit, if_pos hsm]
    change (update pool.mem _ _ (pool.pageAddr (geo ps) i / 8 + d / 64)).getLsbD _ = _
    by_cases hdc : d / 64 = c / 64
    · rw [hdc, update_self, getLsbD_writeBit _ (by omega)]
      by_cases h : d = c
      · rw [if_pos h, h, if_pos rfl]
      · rw [if_neg h, if_neg (by omega)]
    · rw [update_of_ne (by omega), if_neg (by rintro rfl; exact hdc rfl)]
      rfl
  · intro j hj t ht d hd
    simp only [chunkBit]
    split
    · change (update pool.mem _ _ (pool.pageAddr (geo ps) j / 8 + d / 64)).getLsbD _ = _
      rw [update_of_ne]
      · rfl
      · intro h
        exact hj (word_inj hb (bitmap_word_lt ht hd) hword h).1
    · rfl

theorem bitWrite_exact (hs : s = ps - 6) (hc : c < 64) (hv : pool.valid (.page i) = true) :
    ∃ q, pool.setSlab (.page i) (writeBit (pool.slab (.page i)) c v) = some q ∧
      q.slab (.page i) = writeBit (pool.slab (.page i)) c v ∧ BitWrite ps pool q i s c v := by
  have hns : ¬ s < ps - 6 := by omega
  have hout : ∀ j, j ≠ i → update pool.slab (.page i) (writeBit (pool.slab (.page i)) c v)
      (.page j) = pool.slab (.page j) := fun j hj => update_of_ne (by simpa using hj) _ _
  refine ⟨_, if_pos hv, update_self _ _ _, ⟨rfl, rfl, rfl, rfl, rfl, rfl⟩, rfl, rfl, rfl, hout,
    ?_, ?_, ?_⟩
  · intro _
    rw [SlabShape, if_neg hns]
    intro h
    omega
  · intro d hd
    simp only [chunkBit, if_neg hns, if_pos hs, update_self]
    exact getLsbD_writeBit _ hc v d
  · intro j hj t ht d hd
    simp only [chunkBit, hout j hj]
    rfl

theorem bitWrite_big (hbig : ps - 6 < s) (hc : c < chunkCount ps s)
    (hv : pool.valid (.page i) = true) :
    ∃ q, pool.setSlab (.page i) (writeBit (pool.slab (.page i)) (32 + c) v) = some q ∧
      q.slab (.page i) = writeBit (pool.slab (.page i)) (32 + c) v ∧ BitWrite ps pool q i s c v := by
  have hns : ¬ s < ps - 6 := by omega
  have hne : ¬ s = ps - 6 := by omega
  have hcount := chunkCount_big hbig
  have hout : ∀ j, j ≠ i → update pool.slab (.page i)
      (writeBit (pool.slab (.page i)) (32 + c) v) (.page j) = pool.slab (.page j) :=
    fun j hj => update_of_ne (by simpa using hj) _ _
  refine ⟨_, if_pos hv, update_self _ _ _, ⟨rfl, rfl, rfl, rfl, rfl, rfl⟩, rfl, rfl, rfl, hout,
    ?_, ?_, ?_⟩
  · simp only [SlabShape, if_neg hns, update_self]
    intro h _
    obtain ⟨hlow, hhigh⟩ := h hbig
    constructor
    · rw [← hlow]
      apply BitVec.eq_of_getLsbD_eq
      intro b hb
      rw [BitVec.getLsbD_and, BitVec.getLsbD_and, getLsbD_shiftMask,
        getLsbD_writeBit _ (by omega)]
      by_cases h4 : b < 4
      · rw [if_neg (by omega)]
      · simp [h4]
    · intro b hb
      rw [getLsbD_writeBit _ (by omega), if_neg (by omega)]
      exact hhigh b hb
  · intro d hd
    simp only [chunkBit, if_neg hns, if_neg hne, update_self]
    rw [getLsbD_writeBit _ (by omega)]
    by_cases h : d = c
    · rw [if_pos h, if_pos (by omega)]
    · rw [if_neg h, if_neg (by omega)]
  · intro j hj t ht d hd
    simp only [chunkBit, hout j hj]
    rfl

end Writes

section Tests

/-- A page has a chunk out when a bit beyond its bookkeeping chunks is set. -/
def Occupied (ps : PageShift) (pool : StlSlab) (i s : ℕ) : Prop :=
  ∃ c, reserved ps s ≤ c ∧ c < chunkCount ps s ∧ chunkBit ps pool i s c = true

theorem full_exact (hs : s = ps - 6) (hc : IsClass ps s) :
    Full ps pool i s ↔ pool.slab (.page i) = slabBusy := by
  have hns : ¬ s < ps - 6 := by omega
  rw [slabBusy_iff]
  simp only [Full, chunkCount_exact hs hc, chunkBit, if_neg hns, if_pos hs]

theorem occupied_exact (hs : s = ps - 6) (hc : IsClass ps s) :
    Occupied ps pool i s ↔ pool.slab (.page i) ≠ 0 := by
  have hns : ¬ s < ps - 6 := by omega
  rw [Ne, eq_zero_iff]
  simp only [Occupied, reserved, chunkCount_exact hs hc, chunkBit, if_neg hns, if_pos hs,
    Nat.zero_le, true_and]
  push Not
  simp

theorem full_big (hs : IsClass ps s) (hbig : ps - 6 < s)
    (hshape : SlabShape ps s (pool.slab (.page i))) :
    Full ps pool i s ↔
      pool.slab (.page i) &&& slabMapMask = StlSlab.bigMask (geo ps) s := by
  have hns : ¬ s < ps - 6 := by omega
  have hne : ¬ s = ps - 6 := by omega
  have hcount := chunkCount_big hbig
  rw [SlabShape, if_neg hns] at hshape
  obtain ⟨-, hhigh⟩ := hshape hbig
  simp only [Full, chunkBit, if_neg hns, if_neg hne]
  constructor
  · intro hf
    apply BitVec.eq_of_getLsbD_eq
    intro b hb
    rw [BitVec.getLsbD_and, getLsbD_mapMask, getLsbD_bigMask hs hbig]
    by_cases h32 : 32 ≤ b
    · by_cases hbc : b < 32 + chunkCount ps s
      · have hbit := hf (b - 32) (by omega)
        rw [show 32 + (b - 32) = b by omega] at hbit
        simp [hbit, h32, hb, hbc]
      · simp [hhigh b (by omega), hbc]
    · simp [h32]
  · intro heq c hc
    have hbit := congrArg (fun w => w.getLsbD (32 + c)) heq
    simp only [BitVec.getLsbD_and, getLsbD_mapMask, getLsbD_bigMask hs hbig] at hbit
    simpa [hc, (by omega : 32 + c < 64)] using hbit

theorem occupied_big (hbig : ps - 6 < s) (hshape : SlabShape ps s (pool.slab (.page i))) :
    Occupied ps pool i s ↔ pool.slab (.page i) &&& slabMapMask ≠ 0 := by
  have hns : ¬ s < ps - 6 := by omega
  have hne : ¬ s = ps - 6 := by omega
  have hcount := chunkCount_big hbig
  rw [SlabShape, if_neg hns] at hshape
  obtain ⟨-, hhigh⟩ := hshape hbig
  rw [Ne, eq_zero_iff]
  simp only [Occupied, reserved, chunkBit, if_neg hns, if_neg hne, Nat.zero_le, true_and,
    BitVec.getLsbD_and, getLsbD_mapMask]
  push Not
  constructor
  · rintro ⟨c, hc, hbit⟩
    exact ⟨32 + c, by omega, by simp [hbit]; omega⟩
  · rintro ⟨b, hb, hbit⟩
    simp only [Bool.not_eq_false, Bool.and_eq_true, decide_eq_true_eq] at hbit
    have hlt : b < 32 + chunkCount ps s := by
      by_contra h
      rw [hhigh b (by omega)] at hbit
      exact absurd hbit.1 (by simp)
    exact ⟨b - 32, by omega, by rw [show 32 + (b - 32) = b by omega]; exact hbit.1⟩

theorem full_small (hsm : s < ps - 6) : Full ps pool i s ↔
    ∀ n < chunkCount ps s / 64, pool.bitmap (pool.pageAddr (geo ps) i) n = slabBusy := by
  have hcount := chunkCount_small hsm
  simp only [Full, chunkBit, if_pos hsm]
  constructor
  · intro hf n hn
    rw [slabBusy_iff]
    intro b hb
    have hbit := hf (n * 64 + b) (by omega)
    rwa [show (n * 64 + b) / 64 = n by omega, show (n * 64 + b) % 64 = b by omega] at hbit
  · intro hw c hc
    exact slabBusy_iff.mp (hw (c / 64) (by omega)) _ (by omega)

theorem occupied_small (hs : IsClass ps s) (hsm : s < ps - 6) : Occupied ps pool i s ↔
    ¬ pool.bitmapClear (pool.pageAddr (geo ps) i) (StlSlab.bitmapChunks (geo ps) s)
      (chunkCount ps s / 64) := by
  have hcount := chunkCount_small hsm
  have hres := (bitmapChunks_spec hs hsm).2.1
  simp only [Occupied, reserved, if_pos hsm, chunkBit, StlSlab.bitmapClear, wordBits]
  generalize StlSlab.bitmapChunks (geo ps) s = r at hres ⊢
  have hlow : ∀ w : Word, w &&& ~~~(BitVec.twoPow 64 (r % 64) - 1#64) = 0 ↔
      ∀ b < 64, r % 64 ≤ b → w.getLsbD b = false := by
    intro w
    rw [eq_zero_iff]
    refine forall₂_congr fun b hb => ?_
    rw [BitVec.getLsbD_and, BitVec.getLsbD_not, getLsbD_lowMask (by omega)]
    by_cases h : b < r % 64
    · simp [hb, h]
    · simp [hb, h, (by omega : r % 64 ≤ b)]
  rw [hlow]
  constructor
  · rintro ⟨c, h₁, h₂, hbit⟩ ⟨hfirst, hlater⟩
    by_cases hc : c / 64 = r / 64
    · rw [hc, hfirst _ (by omega) (by omega)] at hbit
      exact absurd hbit (by simp)
    · have hz := hlater (c / 64) (List.mem_range'_1.mpr (by omega))
      rw [hz] at hbit
      simp at hbit
  · intro h
    by_contra hno
    push Not at hno
    refine h ⟨?_, ?_⟩
    · intro b hb hrb
      have hz := hno (r / 64 * 64 + b) (by omega) (by omega)
      rw [show (r / 64 * 64 + b) / 64 = r / 64 by omega,
        show (r / 64 * 64 + b) % 64 = b by omega] at hz
      simpa using hz
    · intro n hn
      obtain ⟨h₁, h₂⟩ := List.mem_range'_1.mp hn
      rw [eq_zero_iff]
      intro b hb
      have hz := hno (n * 64 + b) (by omega) (by omega)
      rw [show (n * 64 + b) / 64 = n by omega, show (n * 64 + b) % 64 = b by omega] at hz
      simpa using hz

end Tests

end KirinFS.Slab
