import KirinFS.Slab.TakeChunk
import KirinFS.Slab.GiveRun

/-! # What the allocator has handed out

A grant is a run of pages or one chunk of a chunk page. Every call of the
allocator adds or removes exactly one grant, or fails and changes nothing.
-/

namespace KirinFS.Slab
open Foundation.Tiling Foundation.IntrusiveRing Function

inductive Grant where
  | run (i k : ℕ)
  | chunk (i s c : ℕ)
  deriving DecidableEq

section Definitions
variable (ps : PageShift) (pool : StlSlab) (own : PageMap)

namespace Grant

def addr : Grant → ℕ
  | run i _ => pool.pageAddr (geo ps) i
  | chunk i s c => pool.pageAddr (geo ps) i + c * 2 ^ s

def bytes : Grant → ℕ
  | run _ k => k * 2 ^ ps.val
  | chunk _ s _ => 2 ^ s

/-- The grant is out. -/
def Held : Grant → Prop
  | run i k => i < pool.last ∧ own i = ⟨i, k, .busy⟩
  | chunk i s c => i < pool.last ∧ (own i).label = .chunks s ∧ reserved ps s ≤ c ∧
      c < chunkCount ps s ∧ chunkBit ps pool i s c = true

/-- The grant is what a request for `size` bytes gets. -/
def Serves (size : ℕ) : Grant → Prop
  | run _ k => (geo ps).stlSlabMaxSize < size ∧ k = StlSlab.pagesFor (geo ps) size
  | chunk _ s _ => size ≤ (geo ps).stlSlabMaxSize ∧ s = pool.classShift size

/-- The chunks that are out of each slot, with one more grant out. -/
def charge : Grant → (ℕ → ℕ) → ℕ → ℕ
  | run _ _, u => u
  | chunk _ s _, u => update u (s - 3) (u (s - 3) + 1)

end Grant

/-- The invariant between two calls. -/
structure Good (fresh : Bool) : Prop where
  inv : Inv ps pool own fresh
  settled : Settled pool own
  occupied : ∀ i < pool.last, ∀ s, (own i).label = .chunks s → Occupied ps pool i s

end Definitions

variable {ps : PageShift} {pool pool' q : StlSlab} {own own' : PageMap} {fresh : Bool}
  {i k c s : ℕ}

theorem SameBits.occupied_iff (h : SameBits ps pool pool' i s) :
    Occupied ps pool' i s ↔ Occupied ps pool i s := by
  refine exists_congr fun c => and_congr_right fun _ => and_congr_right fun hc => ?_
  rw [h c hc]

theorem Good.withStats (hG : Good ps pool own fresh) (st : ℕ → StlSlabStat) :
    Good ps (pool.withStats st) own fresh :=
  ⟨hG.inv.withStats st, hG.settled, hG.occupied⟩

namespace RunTaken

theorem held_iff (h : RunTaken ps pool pool' own own' i k) (hk : 0 < k) (w : Grant) :
    w.Held ps pool' own' ↔ w.Held ps pool own ∨ w = .run i k := by
  have hfit := h.fits
  cases w with
  | run j m =>
    simp only [Grant.Held, h.frozen.last, Grant.run.injEq]
    by_cases hj : i ≤ j ∧ j < i + k
    · rw [h.taken j hj.1 hj.2]
      have hfree := h.wasFree j hj.1 hj.2
      constructor
      · rintro ⟨-, heq⟩
        have h₁ := congrArg Block.head heq
        have h₂ := congrArg Block.len heq
        exact Or.inr ⟨h₁.symm, h₂.symm⟩
      · rintro (⟨-, heq⟩ | ⟨rfl, rfl⟩)
        · rw [heq] at hfree
          simp at hfree
        · exact ⟨by omega, rfl⟩
    · have hne : ¬ (j = i ∧ m = k) := by omega
      simp only [hne, or_false]
      refine and_congr_right fun _ => ?_
      rcases h.others j (by omega) with heq | ⟨h₁, h₂⟩
      · rw [heq]
      · constructor
        · intro heq
          rw [heq] at h₂
          simp at h₂
        · intro heq
          rw [heq] at h₁
          simp at h₁
  | chunk j s c =>
    simp only [Grant.Held, h.frozen.last, reduceCtorEq, or_false]
    refine and_congr_right fun hj => ?_
    have hlabel : (own' j).label = .chunks s ↔ (own j).label = .chunks s := by
      by_cases hin : i ≤ j ∧ j < i + k
      · rw [h.taken j hin.1 hin.2, h.wasFree j hin.1 hin.2]
        simp
      · rcases h.others j (by omega) with heq | ⟨h₁, h₂⟩
        · rw [heq]
        · rw [h₁, h₂]
    rw [hlabel]
    refine and_congr_right fun hl => and_congr_right fun _ => and_congr_right fun hc => ?_
    rw [h.bits j hj s hl c hc]

theorem good (h : RunTaken ps pool pool' own own' i k) (hG : Good ps pool own fresh) :
    Good ps pool' own' false := by
  have hlast := h.frozen.last
  refine ⟨h.inv, ?_, ?_⟩
  · intro j hj
    rw [hlast] at hj
    by_cases hin : i ≤ j ∧ j < i + k
    · rw [h.taken j hin.1 hin.2]
      simp
    · rcases h.others j (by omega) with heq | ⟨-, h₂⟩
      · rw [heq]
        exact hG.settled j hj
      · rw [h₂]
        simp
  · intro j hj s hl
    rw [hlast] at hj
    by_cases hin : i ≤ j ∧ j < i + k
    · rw [h.taken j hin.1 hin.2] at hl
      simp at hl
    · rcases h.others j (by omega) with heq | ⟨-, h₂⟩
      · rw [heq] at hl
        rw [(h.bits j hj s hl).occupied_iff]
        exact hG.occupied j hj s hl
      · rw [h₂] at hl
        simp at hl

end RunTaken

namespace ChunkTaken

theorem held_iff (h : ChunkTaken ps pool pool' own i s c) (hI : Inv ps pool own fresh)
    (hi : i < pool.last) (hl : (own i).label = .chunks s) (w : Grant) :
    w.Held ps pool' own ↔ w.Held ps pool own ∨ w = .chunk i s c := by
  cases w with
  | run j m => simp [Grant.Held, h.frame.last]
  | chunk j t d =>
    simp only [Grant.Held, h.frame.last, Grant.chunk.injEq]
    by_cases hj : j = i
    · subst hj
      constructor
      · rintro ⟨hj, hlj, h₁, h₂, hbit⟩
        obtain rfl : s = t := Use.chunks.inj (hl.symm.trans hlj)
        by_cases hd : d = c
        · exact Or.inr ⟨rfl, rfl, hd⟩
        · rw [h.bit d h₂, if_neg hd] at hbit
          exact Or.inl ⟨hj, hlj, h₁, h₂, hbit⟩
      · rintro (⟨hj, hlj, h₁, h₂, hbit⟩ | ⟨-, rfl, rfl⟩)
        · obtain rfl : s = t := Use.chunks.inj (hl.symm.trans hlj)
          refine ⟨hj, hlj, h₁, h₂, ?_⟩
          rw [h.bit d h₂, hbit]
          simp
        · exact ⟨hi, hl, h.lo, h.hi, by rw [h.bit _ h.hi, if_pos rfl]⟩
    · simp only [hj, false_and, or_false]
      refine and_congr_right fun hjl => and_congr_right fun hlj => and_congr_right fun _ =>
        and_congr_right fun hd => ?_
      rw [h.bitsOut j hj t (hI.isClass hjl hlj) d hd]

theorem good (h : ChunkTaken ps pool pool' own i s c) (hG : Good ps pool own fresh)
    (hl : (own i).label = .chunks s) : Good ps pool' own false := by
  have hlast := h.frame.last
  refine ⟨h.inv, ?_, ?_⟩
  · intro j hj
    rw [hlast] at hj
    exact hG.settled j hj
  · intro j hj t hlj
    rw [hlast] at hj
    by_cases hji : j = i
    · subst hji
      obtain rfl : s = t := Use.chunks.inj (hl.symm.trans hlj)
      exact ⟨c, h.lo, h.hi, by rw [h.bit c h.hi, if_pos rfl]⟩
    · rw [(h.bitsOut j hji t (hG.inv.isClass hj hlj)).occupied_iff]
      exact hG.occupied j hj t hlj

end ChunkTaken

namespace PageInit

theorem held_iff (h : PageInit ps pool pool' i k) (hI : Inv ps pool own fresh)
    (hi : i < pool.last) (hk : k < ps.val - 3) (hown : own i = ⟨i, 1, .busy⟩) (w : Grant) :
    w.Held ps pool' (paint own i 1 (.chunks (k + 3))) ↔
      w.Held ps pool own ∧ w ≠ .run i 1 ∨ w = .chunk i (k + 3) (reserved ps (k + 3)) := by
  have hs : IsClass ps (k + 3) := ⟨by omega, by omega⟩
  have hlt := reserved_lt hs
  cases w with
  | run j m =>
    simp only [Grant.Held, h.frame.last, ne_eq, Grant.run.injEq, reduceCtorEq, or_false]
    by_cases hj : j = i
    · subst hj
      rw [paint_inside (by omega), hown]
      constructor
      · rintro ⟨-, heq⟩
        have hc := congrArg Block.label heq
        simp at hc
      · rintro ⟨⟨-, heq⟩, hne⟩
        have hm := congrArg Block.len heq
        exact absurd ⟨rfl, hm.symm⟩ hne
    · rw [paint_outside (by omega)]
      simp [hj]
  | chunk j t d =>
    simp only [Grant.Held, h.frame.last, ne_eq, reduceCtorEq, not_false_eq_true, and_true,
      Grant.chunk.injEq]
    by_cases hj : j = i
    · subst hj
      rw [paint_inside (by omega), hown]
      constructor
      · rintro ⟨-, hl, h₁, h₂, hbit⟩
        obtain rfl := Use.chunks.inj hl
        rw [h.bit d h₂, decide_eq_true_eq] at hbit
        exact Or.inr ⟨rfl, rfl, by omega⟩
      · rintro (⟨-, hl, -⟩ | ⟨-, rfl, rfl⟩)
        · simp at hl
        · exact ⟨hi, rfl, le_rfl, by omega, by rw [h.bit _ (by omega)]; simp⟩
    · rw [paint_outside (by omega)]
      simp only [hj, false_and, or_false]
      refine and_congr_right fun hjl => and_congr_right fun hlj => and_congr_right fun _ =>
        and_congr_right fun hd => ?_
      rw [h.bitsOut j hj t (hI.isClass hjl hlj) d hd]

theorem good (h : PageInit ps pool pool' i k) (hG : Good ps pool own fresh)
    (hi : i < pool.last) (hk : k < ps.val - 3) (hown : own i = ⟨i, 1, .busy⟩)
    (hempty : listed ps pool own (k + 3) = ∅) :
    Good ps pool' (paint own i 1 (.chunks (k + 3))) false := by
  have hlast := h.frame.last
  have hs : IsClass ps (k + 3) := ⟨by omega, by omega⟩
  have hlt := reserved_lt hs
  refine ⟨hG.inv.newPage hi hk hown hempty h, ?_, ?_⟩
  · intro j hj
    rw [hlast] at hj
    by_cases hji : j = i
    · rw [paint_inside (by omega)]
      simp
    · rw [paint_outside (by omega)]
      exact hG.settled j hj
  · intro j hj t hlj
    rw [hlast] at hj
    by_cases hji : j = i
    · subst hji
      rw [paint_inside (by omega)] at hlj
      obtain rfl := Use.chunks.inj hlj
      exact ⟨reserved ps (k + 3), le_rfl, by omega, by rw [h.bit _ (by omega)]; simp⟩
    · rw [paint_outside (by omega)] at hlj
      rw [(h.bitsOut j hji t (hG.inv.isClass hj hlj)).occupied_iff]
      exact hG.occupied j hj t hlj

end PageInit

section Bytes
variable {p n : ℕ}

def Grant.page : Grant → ℕ
  | run i _ => i
  | chunk i _ _ => i

theorem Grant.Held.page_lt {w : Grant} (h : w.Held ps pool own) : w.page < pool.last := by
  cases w with
  | run i k => exact h.1
  | chunk i s c => exact h.1

theorem pageAddr_mono (pool : StlSlab) {a b : ℕ} (h : a ≤ b) :
    pool.pageAddr (geo ps) a ≤ pool.pageAddr (geo ps) b := by
  rw [pageAddr_geo, pageAddr_geo]
  exact Nat.add_le_add_left (Nat.mul_le_mul_right _ h) _

/-- Bytes of page `i` are far from the bitmaps of other pages. -/
theorem other_page_words {j m d t : ℕ} (hj : j < i ∨ i + m ≤ j)
    (ht : IsClass ps t) (hd : d < chunkCount ps t)
    (hlo : pool.pageAddr (geo ps) i ≤ p) (hhi : p + n ≤ pool.pageAddr (geo ps) (i + m)) :
    pool.pageAddr (geo ps) j / 8 + d / 64 < p / 8 ∨
      (p + n) / 8 ≤ pool.pageAddr (geo ps) j / 8 + d / 64 := by
  have hw := bitmap_word_lt ht hd
  have h8 : 2 ^ ps.val / 8 * 8 = 2 ^ ps.val := Nat.div_mul_cancel pagesize_dvd_eight
  have hstep : pool.pageAddr (geo ps) (j + 1) = pool.pageAddr (geo ps) j + 2 ^ ps.val := by
    rw [pageAddr_geo, pageAddr_geo, Nat.add_mul, Nat.one_mul, Nat.add_assoc]
  rcases hj with h | h
  · have hle := @pageAddr_mono ps pool _ _ (by omega : j + 1 ≤ i)
    omega
  · have hle := @pageAddr_mono ps pool _ _ h
    omega

theorem Grant.Held.class_of (hG : Good ps pool own fresh) {i s c : ℕ}
    (hw : (Grant.chunk i s c).Held ps pool own) : IsClass ps s ∧ (c + 1) * 2 ^ s ≤ 2 ^ ps.val := by
  have hs := hG.inv.isClass hw.1 hw.2.1
  refine ⟨hs, ?_⟩
  rw [← chunkCount_mul hs]
  exact Nat.mul_le_mul_right _ hw.2.2.2.1

/-- A grant lies between the page it starts at and the end of its block. -/
theorem Grant.Held.span (hG : Good ps pool own fresh) {w : Grant} (hw : w.Held ps pool own) :
    pool.pageAddr (geo ps) w.page ≤ w.addr ps pool ∧
      w.addr ps pool + w.bytes ps ≤ pool.pageAddr (geo ps) (own w.page).stop ∧
      (own w.page).head = w.page := by
  cases w with
  | run i k =>
    obtain ⟨-, hown⟩ := hw
    rw [Grant.page, hown, Grant.addr, Grant.bytes, Block.stop, pageAddr_geo, pageAddr_geo]
    refine ⟨le_rfl, ?_, rfl⟩
    simp only
    rw [Nat.add_mul, Nat.add_assoc]
  | chunk i s c =>
    have hown := hG.inv.own_chunks hw.1 hw.2.1
    have hfit := (hw.class_of hG).2
    rw [Grant.page, hown, Grant.addr, Grant.bytes, Block.stop, pageAddr_geo, pageAddr_geo]
    rw [Nat.add_mul, Nat.one_mul] at hfit
    refine ⟨by omega, ?_, rfl⟩
    simp only
    rw [Nat.add_mul, Nat.one_mul]
    omega

/-- The bytes of a grant are far from the bitmaps of all small pages. -/
theorem Grant.Held.words_out (hG : Good ps pool own fresh) {w : Grant}
    (hw : w.Held ps pool own) {j t d : ℕ} (hl : (own j).label = .chunks t)
    (ht : IsClass ps t) (hsm : t < ps - 6) (hd : d < chunkCount ps t) :
    pool.pageAddr (geo ps) j / 8 + d / 64 < w.addr ps pool / 8 ∨
      (w.addr ps pool + w.bytes ps) / 8 ≤ pool.pageAddr (geo ps) j / 8 + d / 64 := by
  obtain ⟨h₁, h₂, h₃⟩ := hw.span hG
  by_cases hin : (own w.page).Has j
  · left
    have hsame := hG.inv.tiling.same hw.page_lt hin
    cases w with
    | run i k =>
      rw [hsame, Grant.page, hw.2] at hl
      simp at hl
    | chunk i s c =>
      rw [hsame, Grant.page, hw.2.1] at hl
      obtain rfl := Use.chunks.inj hl
      have hown := hG.inv.own_chunks hw.1 hw.2.1
      rw [Grant.page, hown] at hin
      have hji : i ≤ j ∧ j < i + 1 := hin
      obtain rfl : j = i := by omega
      obtain ⟨-, -, hfit⟩ := bitmapChunks_spec ht hsm
      have hcount := chunkCount_small hsm
      have hres := hw.2.2.1
      rw [reserved_small hsm] at hres
      have hmono := Nat.mul_le_mul_right (2 ^ s) hres
      rw [Grant.addr]
      generalize c * 2 ^ s = x at hmono ⊢
      generalize StlSlab.bitmapChunks (geo ps) s * 2 ^ s = y at hmono hfit
      omega
  · have hout : j < w.page ∨ w.page + (own w.page).len ≤ j := by
      simp only [Block.Has, Block.stop, h₃] at hin
      omega
    rw [Block.stop, h₃] at h₂
    exact other_page_words hout ht hd h₁ h₂

end Bytes

end KirinFS.Slab
