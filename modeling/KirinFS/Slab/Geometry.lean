import KirinFS.Slab.Alloc
import KirinFS.Foundation.WordBits
import Mathlib.Tactic.IntervalCases
import Mathlib.Tactic.Ring

/-! # Size classes and addresses of a pool

The class index of a page has to fit the four bits of `STL_SLAB_SHIFT_MASK` and
every class needs a slot head, so the page size ranges from 16 to 65536 bytes.
-/

namespace KirinFS.Slab

/-- The base-two logarithm of a page size whose classes fit `STL_SLAB_SHIFT_MASK`. -/
structure PageShift where
  val : ℕ
  lo : 4 ≤ val
  hi : val ≤ 16

instance : Coe PageShift ℕ := ⟨PageShift.val⟩

theorem halvings_spec {fuel n : ℕ} (hn : 0 < n) (hf : n < 2 ^ fuel) :
    2 ^ halvings fuel n ≤ n ∧ n < 2 ^ (halvings fuel n + 1) := by
  induction fuel generalizing n with
  | zero => simp at hf; omega
  | succ fuel ih =>
    rw [halvings, Nat.shiftRight_one]
    by_cases h : n / 2 = 0
    · simp only [h, if_true]
      omega
    · have hs := ih (n := n / 2) (by omega) (by omega)
      rw [if_neg h, pow_succ, pow_succ]
      rw [pow_succ] at hs
      omega

theorem halvings_two_pow {k : ℕ} (hk : k < 64) : halvings 64 (2 ^ k) = k := by
  have hs := halvings_spec (Nat.two_pow_pos k) (Nat.pow_lt_pow_right (by norm_num) hk)
  have h₁ := (Nat.pow_le_pow_iff_right (by norm_num : 1 < 2)).mp hs.1
  have h₂ := (Nat.pow_lt_pow_iff_right (by norm_num : 1 < 2)).mp hs.2
  omega

variable (ps : PageShift)

/-- What `stl_slab_sizes_init` leaves in the file-level variables. -/
def geo : SlabGlobals where
  stlPagesize := 2 ^ ps.val
  stlPagesizeShift := ps
  stlSlabMaxSize := 2 ^ ps.val / 2
  stlSlabExactSize := 2 ^ ps.val / 64
  stlSlabExactShift := ps - 6

theorem sizesInit_zero : stlSlabSizesInit .zero (2 ^ ps.val) = geo ps := by
  have hlo := ps.lo
  have hhi := ps.hi
  have hexact : halvings 64 (2 ^ ps.val / 64) = ps.val - 6 := by
    by_cases h6 : 6 ≤ ps.val
    · have hdiv : 2 ^ ps.val / 64 = 2 ^ (ps.val - 6) := by
        rw [show (64 : ℕ) = 2 ^ 6 from rfl, Nat.pow_div h6 (by norm_num)]
      rw [hdiv, halvings_two_pow (by omega)]
    · have h45 : ps.val = 4 ∨ ps.val = 5 := by omega
      rcases h45 with h | h <;> rw [h] <;> rfl
  simp [stlSlabSizesInit, SlabGlobals.zero, geo, halvings_two_pow (by omega : ps.val < 64), hexact]

theorem slotCount_geo : slotCount (geo ps) = ps - 3 := by
  have hlo := ps.lo
  have hhi := ps.hi
  simp only [slotCount, wsub, geo]
  omega

def kind (s : ℕ) : PageType :=
  if s < ps - 6 then .small else if s = ps - 6 then .exact else .big

/-- Chunks at the front of a page that never go to a client. -/
def reserved (s : ℕ) : ℕ := if s < ps - 6 then StlSlab.bitmapChunks (geo ps) s else 0

def chunkCount (s : ℕ) : ℕ := 2 ^ (ps - s)

def IsClass (s : ℕ) : Prop := 3 ≤ s ∧ s < ps

variable {ps} {s : ℕ}

theorem kind_small (hs : s < ps - 6) : kind ps s = .small := if_pos hs

theorem kind_exact (hs : s = ps - 6) : kind ps s = .exact := by
  rw [kind, if_neg (by omega), if_pos hs]

theorem kind_big (hs : ps - 6 < s) : kind ps s = .big := by
  rw [kind, if_neg (by omega), if_neg (by omega)]

theorem reserved_small (hs : s < ps - 6) :
    reserved ps s = StlSlab.bitmapChunks (geo ps) s := if_pos hs

theorem reserved_eq_zero (hs : ¬ s < ps - 6) : reserved ps s = 0 := if_neg hs

theorem chunkCount_mul (hs : IsClass ps s) : chunkCount ps s * 2 ^ s = 2 ^ ps.val := by
  rw [chunkCount, ← pow_add]
  congr 1
  have h := hs.2
  omega

theorem pagesize_shiftRight (hs : IsClass ps s) :
    (geo ps).stlPagesize >>> s = chunkCount ps s := by
  change 2 ^ ps.val >>> s = 2 ^ (ps.val - s)
  rw [Nat.shiftRight_eq_div_pow, Nat.pow_div hs.2.le (by norm_num)]

theorem bitmapWords (hs : IsClass ps s) :
    (geo ps).stlPagesize >>> s / wordBits = chunkCount ps s / 64 := by
  rw [pagesize_shiftRight hs]
  rfl

theorem two_le_chunkCount (hs : IsClass ps s) : 2 ≤ chunkCount ps s := by
  have h := hs.2
  calc 2 = 2 ^ 1 := rfl
    _ ≤ 2 ^ (ps.val - s) := Nat.pow_le_pow_right (by norm_num) (by omega)

theorem chunkCount_small (hsm : s < ps - 6) :
    chunkCount ps s = chunkCount ps s / 64 * 64 ∧ 2 ≤ chunkCount ps s / 64 := by
  have hp : chunkCount ps s = 2 ^ (ps.val - s - 6) * 64 := by
    rw [chunkCount, show (64 : ℕ) = 2 ^ 6 from rfl, ← pow_add]
    congr 1
    omega
  have h2 : 2 ^ 1 ≤ 2 ^ (ps.val - s - 6) := Nat.pow_le_pow_right (by norm_num) (by omega)
  omega

theorem chunkCount_exact (hs : s = ps - 6) (hc : IsClass ps s) : chunkCount ps s = 64 := by
  have h := hc.1
  rw [chunkCount, show ps.val - s = 6 by omega]
  rfl

theorem exactSize_eq (hs : s = ps - 6) (hc : IsClass ps s) : (geo ps).stlSlabExactSize = 2 ^ s := by
  change 2 ^ ps.val / 64 = 2 ^ s
  rw [← chunkCount_mul hc, chunkCount_exact hs hc, Nat.mul_div_cancel_left _ (by omega)]

theorem chunkCount_big (hs : ps - 6 < s) : chunkCount ps s ≤ 32 := by
  calc 2 ^ (ps.val - s) ≤ 2 ^ 5 := Nat.pow_le_pow_right (by norm_num) (by omega)
    _ = 32 := rfl

private theorem bitmapChunks_arith : ∀ p < 17, ∀ s < p - 6, 3 ≤ s →
    1 ≤ (if 2 ^ p >>> s / ((1 <<< s) * 8) = 0 then 1 else 2 ^ p >>> s / ((1 <<< s) * 8)) ∧
      (if 2 ^ p >>> s / ((1 <<< s) * 8) = 0 then 1 else 2 ^ p >>> s / ((1 <<< s) * 8)) + 1 <
        2 ^ (p - s) ∧
      2 ^ (p - s) / 64 * 8 ≤
        (if 2 ^ p >>> s / ((1 <<< s) * 8) = 0 then 1 else 2 ^ p >>> s / ((1 <<< s) * 8)) * 2 ^ s := by
  decide

/-- The bitmap of a small page fits in the chunks set aside for it, and leaves chunks over. -/
theorem bitmapChunks_spec (hs : IsClass ps s) (hsm : s < ps - 6) :
    1 ≤ StlSlab.bitmapChunks (geo ps) s ∧
      StlSlab.bitmapChunks (geo ps) s + 1 < chunkCount ps s ∧
      chunkCount ps s / 64 * 8 ≤ StlSlab.bitmapChunks (geo ps) s * 2 ^ s :=
  bitmapChunks_arith ps (Nat.lt_succ_of_le ps.hi) s hsm hs.1

theorem reserved_lt (hs : IsClass ps s) : reserved ps s + 1 ≤ chunkCount ps s := by
  unfold reserved
  split
  · next h =>
    have hb := (bitmapChunks_spec hs h).2.1
    omega
  · have h2 := two_le_chunkCount hs
    omega

theorem pagesize_dvd_eight : 8 ∣ 2 ^ ps.val := by
  have h := ps.lo
  exact ⟨2 ^ (ps.val - 3), by rw [show (8 : ℕ) = 2 ^ 3 from rfl, ← pow_add]; congr 1; omega⟩

theorem pagesize_ge : 16 ≤ 2 ^ ps.val :=
  calc 16 = 2 ^ 4 := rfl
    _ ≤ 2 ^ ps.val := Nat.pow_le_pow_right (by norm_num) ps.lo

theorem pagesize_le : 2 ^ ps.val ≤ 65536 :=
  calc 2 ^ ps.val ≤ 2 ^ 16 := Nat.pow_le_pow_right (by norm_num) ps.hi
    _ = 65536 := rfl

end KirinFS.Slab
