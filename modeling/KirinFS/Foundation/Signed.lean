import Mathlib.Data.Int.DivMod
import Mathlib.Algebra.Group.Int.Defs
import Mathlib.Tactic.NormNum

/-! # Signed arithmetic

A result that the type holds is exact. What becomes of another one depends on
the implementation.
-/

namespace KirinFS.Foundation.Signed

/-- Without promises of the compiler an overflow is undefined. -/
inductive Overflow | undefined | wraps
deriving DecidableEq

/-- The signed type of `w` bits holds `z`. -/
def Fits (w : ℕ) (z : ℤ) : Prop := -(2 ^ (w - 1)) ≤ z ∧ z < 2 ^ (w - 1)

instance (w : ℕ) (z : ℤ) : Decidable (Fits w z) := inferInstanceAs (Decidable (_ ∧ _))

theorem fits_int {z : ℤ} : Fits 32 z ↔ -2147483648 ≤ z ∧ z ≤ 2147483647 := by
  rw [Fits]
  norm_num
  omega

theorem fits_long {z : ℤ} :
    Fits 64 z ↔ -9223372036854775808 ≤ z ∧ z ≤ 9223372036854775807 := by
  rw [Fits]
  norm_num
  omega

/-- The value of an expression whose type is signed with `w` bits. -/
def signed (o : Overflow) (w : ℕ) (z : ℤ) : Option ℤ :=
  if Fits w z then some z else
    match o with
    | .undefined => none
    | .wraps => some (z.bmod (2 ^ w))

variable {o : Overflow} {w : ℕ} {z r : ℤ}

theorem signed_of_fits (h : Fits w z) : signed o w z = some z := if_pos h

theorem fits_bmod (hw : 0 < w) : Fits w (z.bmod (2 ^ w)) := by
  obtain ⟨w, rfl⟩ := Nat.exists_eq_add_one_of_ne_zero (Nat.pos_iff_ne_zero.mp hw)
  have hpow : 0 < 2 ^ (w + 1) := Nat.two_pow_pos _
  have hcast : ((2 ^ (w + 1) : ℕ) : ℤ) = 2 * 2 ^ w := by
    rw [pow_succ, mul_comm]
    norm_num
  have hlow := Int.le_bmod (x := z) hpow
  have hhigh := Int.bmod_lt (x := z) hpow
  rw [hcast] at hlow hhigh
  rw [Fits, Nat.add_sub_cancel]
  constructor <;> omega

theorem fits_of_signed (hw : 0 < w) (h : signed o w z = some r) : Fits w r := by
  unfold signed at h
  split at h
  · cases h
    assumption
  · cases o with
    | undefined => cases h
    | wraps =>
      cases h
      exact fits_bmod hw

theorem signed_int_over (hlow : 2147483647 < z) (hhigh : z ≤ 6442450943)
    (h : signed o 32 z = some r) : r = z - 4294967296 := by
  have hfits : ¬Fits 32 z := fun hf => Int.not_le.mpr hlow (fits_int.mp hf).2
  unfold signed at h
  rw [if_neg hfits] at h
  cases o with
  | undefined => cases h
  | wraps =>
    cases h
    rw [Int.bmod_def]
    norm_num
    split <;> omega

/-- A result that does not fit is never exact. -/
theorem signed_ne (hw : 0 < w) (h : ¬Fits w z) : signed o w z ≠ some z :=
  fun hz => h (fits_of_signed hw hz)

end KirinFS.Foundation.Signed
