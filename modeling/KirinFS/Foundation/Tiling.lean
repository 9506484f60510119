import Mathlib.Algebra.BigOperators.Group.Finset.Basic
import Mathlib.Order.Interval.Finset.Nat

/-! # Labelled tilings of an initial segment

Every index below `N` belongs to one block of consecutive indices, and all
indices of a block name that block. Repainting a stretch between two block
edges as one block is the only surgery needed for splitting and coalescing.
-/

namespace KirinFS.Foundation.Tiling

variable {L : Type*}

/-- The block `[head, head + len)` with its label. -/
structure Block (L : Type*) where
  head : ℕ
  len : ℕ
  label : L

namespace Block
variable (b : Block L)

def stop : ℕ := b.head + b.len

/-- Membership of an index in the stretch of a block. -/
def Has (i : ℕ) : Prop := b.head ≤ i ∧ i < b.stop

end Block

/-- `own` assigns to each index below `N` the block that contains it. -/
def IsTiling (own : ℕ → Block L) (N : ℕ) : Prop :=
  ∀ i < N, (own i).Has i ∧ (own i).stop ≤ N ∧ ∀ j, (own i).Has j → own j = own i

def Edge (own : ℕ → Block L) (N x : ℕ) : Prop :=
  ∀ i < N, x ≤ (own i).head ∨ (own i).stop ≤ x

def paint (own : ℕ → Block L) (lo n : ℕ) (l : L) (j : ℕ) : Block L :=
  if lo ≤ j ∧ j < lo + n then ⟨lo, n, l⟩ else own j

variable {own : ℕ → Block L} {N lo n : ℕ} {l : L}

theorem paint_inside {j : ℕ} (h : lo ≤ j ∧ j < lo + n) : paint own lo n l j = ⟨lo, n, l⟩ :=
  if_pos h

theorem paint_outside {j : ℕ} (h : j < lo ∨ lo + n ≤ j) : paint own lo n l j = own j :=
  if_neg (by omega)

namespace IsTiling

theorem has (h : IsTiling own N) {i : ℕ} (hi : i < N) : (own i).head ≤ i ∧ i < (own i).stop :=
  (h i hi).1

theorem stop_le (h : IsTiling own N) {i : ℕ} (hi : i < N) : (own i).stop ≤ N :=
  (h i hi).2.1

theorem same (h : IsTiling own N) {i j : ℕ} (hi : i < N) (hj : (own i).Has j) :
    own j = own i :=
  (h i hi).2.2 j hj

theorem head_lt (h : IsTiling own N) {i : ℕ} (hi : i < N) : (own i).head < N :=
  lt_of_le_of_lt (h.has hi).1 hi

theorem own_head (h : IsTiling own N) {i : ℕ} (hi : i < N) : own (own i).head = own i := by
  have hb := h.has hi
  exact h.same hi ⟨le_rfl, by omega⟩

theorem len_pos (h : IsTiling own N) {i : ℕ} (hi : i < N) : 0 < (own i).len := by
  have hb := h.has hi
  simp only [Block.stop] at hb
  omega

theorem eq_of_has (h : IsTiling own N) {i j k : ℕ} (hi : i < N) (hj : j < N)
    (hik : (own i).Has k) (hjk : (own j).Has k) : own i = own j :=
  (h.same hi hik).symm.trans (h.same hj hjk)

theorem edge_head (h : IsTiling own N) {i : ℕ} (hi : i < N) : Edge own N (own i).head := by
  intro j hj
  by_contra hc
  have hb := h.has hi
  have hjk : (own j).Has (own i).head := ⟨by omega, by omega⟩
  have he := h.eq_of_has hj hi hjk ⟨le_rfl, by omega⟩
  rw [he] at hc
  omega

theorem edge_stop (h : IsTiling own N) {i : ℕ} (hi : i < N) : Edge own N (own i).stop := by
  intro j hj
  by_contra hc
  have hb := h.has hi
  have hs := h.stop_le hj
  have hk : (own i).stop < N := by omega
  have hjk : (own j).Has (own i).stop := ⟨by omega, by omega⟩
  have hlast : (own j).Has ((own i).stop - 1) := ⟨by omega, by omega⟩
  have he := h.eq_of_has hj hi hlast ⟨by omega, by omega⟩
  rw [he] at hc
  omega

theorem paint (h : IsTiling own N) (hlo : Edge own N lo) (hhi : Edge own N (lo + n))
    (hN : lo + n ≤ N) : IsTiling (paint own lo n l) N := by
  intro i hi
  by_cases hin : lo ≤ i ∧ i < lo + n
  · rw [paint_inside hin]
    refine ⟨hin, hN, ?_⟩
    intro j hj
    exact paint_inside hj
  · rw [paint_outside (by omega)]
    refine ⟨h.has hi, h.stop_le hi, ?_⟩
    intro j hj
    have hb := h.has hi
    have hl := hlo i hi
    have hr := hhi i hi
    have hj' : (own i).head ≤ j ∧ j < (own i).stop := hj
    rw [paint_outside (by omega), h.same hi hj]

theorem cut (h : IsTiling own N) {k : ℕ} {m : L} (hlo : Edge own N lo)
    (hhi : Edge own N (lo + n)) (hN : lo + n ≤ N) (hk : k ≤ n) :
    IsTiling (Tiling.paint (Tiling.paint own lo k l) (lo + k) (n - k) m) N := by
  intro i hi
  by_cases hr : lo + k ≤ i ∧ i < lo + k + (n - k)
  · rw [paint_inside hr]
    refine ⟨hr, by simp only [Block.stop]; omega, ?_⟩
    intro j hj
    exact paint_inside hj
  · rw [paint_outside (by omega)]
    by_cases hl : lo ≤ i ∧ i < lo + k
    · rw [paint_inside hl]
      refine ⟨hl, by simp only [Block.stop]; omega, ?_⟩
      intro j hj
      have hj' : lo ≤ j ∧ j < lo + k := hj
      rw [paint_outside (by omega), paint_inside hj']
    · rw [paint_outside (by omega)]
      refine ⟨h.has hi, h.stop_le hi, ?_⟩
      intro j hj
      have hb := h.has hi
      have hl' := hlo i hi
      have hr' := hhi i hi
      have hj' : (own i).head ≤ j ∧ j < (own i).stop := hj
      rw [paint_outside (by omega), paint_outside (by omega), h.same hi hj]

end IsTiling

theorem Edge.paint {x : ℕ} (h : Edge own N x) (hx : x ≤ lo ∨ lo + n ≤ x) :
    Edge (paint own lo n l) N x := by
  intro i hi
  by_cases hin : lo ≤ i ∧ i < lo + n
  · rw [paint_inside hin]
    exact hx
  · rw [paint_outside (by omega)]
    exact h i hi

section Counting
variable (p : L → Bool)

/-- Number of indices whose block carries a label in `p`. -/
def count (own : ℕ → Block L) (N : ℕ) (p : L → Bool) : ℕ :=
  ((Finset.range N).filter fun i => p (own i).label).card

theorem count_congr {own' : ℕ → Block L}
    (h : ∀ i < N, p (own' i).label = p (own i).label) : count own' N p = count own N p := by
  unfold count
  congr 1
  apply Finset.filter_congr
  intro i hi
  rw [h i (Finset.mem_range.mp hi)]

theorem count_paint_same (h : ∀ i, lo ≤ i → i < lo + n → p (own i).label = p l) :
    count (paint own lo n l) N p = count own N p := by
  apply count_congr
  intro i _
  by_cases hin : lo ≤ i ∧ i < lo + n
  · rw [paint_inside hin, h i hin.1 hin.2]
  · rw [paint_outside (by omega)]

/-- Two tilings that differ in a stretch, of which the second has all in `p` and the first none. -/
theorem count_stretch {own' : ℕ → Block L} (hN : lo + n ≤ N)
    (hin : ∀ i, lo ≤ i → i < lo + n → p (own i).label = false ∧ p (own' i).label = true)
    (hout : ∀ i, i < lo ∨ lo + n ≤ i → own' i = own i) : count own' N p = count own N p + n := by
  unfold count
  have hsplit : ((Finset.range N).filter fun i => p (own' i).label) =
      ((Finset.range N).filter fun i => p (own i).label) ∪ Finset.Ico lo (lo + n) := by
    ext i
    simp only [Finset.mem_filter, Finset.mem_range, Finset.mem_union, Finset.mem_Ico]
    by_cases hi : lo ≤ i ∧ i < lo + n
    · simp only [(hin i hi.1 hi.2).2, and_true]
      omega
    · rw [hout i (by omega)]
      tauto
  rw [hsplit, Finset.card_union_of_disjoint, Nat.card_Ico]
  · omega
  · rw [Finset.disjoint_left]
    intro i hi hio
    obtain ⟨hlo, hhi⟩ := Finset.mem_Ico.mp hio
    have hf := (hin i hlo hhi).1
    rw [(Finset.mem_filter.mp hi).2] at hf
    exact absurd hf (by simp)

/-- Painting a stretch without `p` with a label in `p` adds its length. -/
theorem count_paint_add (hN : lo + n ≤ N) (hl : p l = true)
    (h : ∀ i, lo ≤ i → i < lo + n → p (own i).label = false) :
    count (paint own lo n l) N p = count own N p + n := by
  refine count_stretch p hN (fun i hlo hhi => ⟨h i hlo hhi, ?_⟩) fun i hi => paint_outside hi
  rw [paint_inside ⟨hlo, hhi⟩]
  exact hl

/-- Painting a stretch inside `p` with a label outside `p` removes its length. -/
theorem count_paint_sub (hN : lo + n ≤ N) (hl : p l = false)
    (h : ∀ i, lo ≤ i → i < lo + n → p (own i).label = true) :
    count (paint own lo n l) N p + n = count own N p := by
  refine (count_stretch p hN (fun i hlo hhi => ⟨?_, h i hlo hhi⟩) fun i hi => ?_).symm
  · rw [paint_inside ⟨hlo, hhi⟩]
    exact hl
  · exact (paint_outside hi).symm

/-- The lengths of the blocks with a label in `p` add up to the indices they cover. -/
theorem sum_len (h : IsTiling own N) :
    ∑ i ∈ (Finset.range N).filter (fun i => (own i).head = i ∧ p (own i).label),
      (own i).len = count own N p := by
  unfold count
  rw [Finset.card_eq_sum_card_fiberwise (f := fun i => (own i).head)
    (t := (Finset.range N).filter (fun i => (own i).head = i ∧ p (own i).label))]
  · apply Finset.sum_congr rfl
    intro i hi
    obtain ⟨hiN, hhead, hp⟩ := by simpa using hi
    have hs := h.stop_le hiN
    have hfib : ((Finset.range N).filter fun j => p (own j).label).filter
        (fun j => (own j).head = i) = Finset.Ico i (own i).stop := by
      ext j
      simp only [Finset.mem_filter, Finset.mem_range, Finset.mem_Ico]
      constructor
      · rintro ⟨⟨hj, -⟩, hji⟩
        have hb := h.has hj
        have he := h.own_head hj
        rw [hji] at he hb
        rw [he]
        exact hb
      · rintro hj
        have he := h.same hiN (j := j) ⟨by omega, hj.2⟩
        exact ⟨⟨by omega, by rw [he]; exact hp⟩, by rw [he]; exact hhead⟩
    rw [hfib, Nat.card_Ico, Block.stop, hhead]
    omega
  · intro i hi
    obtain ⟨hiN, hp⟩ := by simpa using hi
    have he := h.own_head hiN
    refine Finset.mem_coe.mpr (Finset.mem_filter.mpr ⟨Finset.mem_range.mpr (h.head_lt hiN), ?_⟩)
    exact ⟨by rw [he], by rw [he]; exact hp⟩

end Counting

end KirinFS.Foundation.Tiling
