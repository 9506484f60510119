import Mathlib.Data.Nat.Bitwise

/-! # Single bits, low masks and bit searches in machine words -/

namespace KirinFS.Foundation.WordBits
open BitVec

variable {n : ℕ} {w mask : BitVec n}

theorem and_bit_eq_zero_iff (w : BitVec n) (b : ℕ) :
    w &&& twoPow n b = 0 ↔ w.getLsbD b = false := by
  rw [and_twoPow]
  cases h : w.getLsbD b with
  | false => simp
  | true =>
    have hb : b < n := lt_of_getLsbD h
    simp only [if_true, Bool.true_eq_false, iff_false]
    intro hz
    have hc := congrArg (fun v => getLsbD v b) hz
    simp [hb] at hc

theorem getLsbD_set (w : BitVec n) {b : ℕ} (hb : b < n) (c : ℕ) :
    (w ||| twoPow n b).getLsbD c = (w.getLsbD c || decide (c = b)) := by
  simp [hb, eq_comm]

theorem getLsbD_clear (w : BitVec n) (b c : ℕ) :
    (w &&& ~~~(twoPow n b)).getLsbD c = (w.getLsbD c && !decide (c = b)) := by
  by_cases hc : c < n
  · by_cases hcb : c = b
    · simp [hcb, hcb ▸ hc]
    · simp [hc, hcb]
  · simp [getLsbD_of_ge w c (by omega)]

def writeBit (w : BitVec n) (b : ℕ) (v : Bool) : BitVec n :=
  if v then w ||| twoPow n b else w &&& ~~~(twoPow n b)

theorem getLsbD_writeBit (w : BitVec n) {b : ℕ} (hb : b < n) (v : Bool) (c : ℕ) :
    (writeBit w b v).getLsbD c = if c = b then v else w.getLsbD c := by
  cases v with
  | true =>
    rw [writeBit, if_pos rfl, getLsbD_set w hb]
    by_cases hc : c = b <;> simp [hc]
  | false =>
    rw [writeBit, if_neg (by simp), getLsbD_clear]
    by_cases hc : c = b <;> simp [hc]

theorem twoPow_shift_one (b : ℕ) : twoPow n b <<< 1 = twoPow n (b + 1) := by
  rw [twoPow_eq, twoPow_eq, ← shiftLeft_add]

theorem getLsbD_lowMask {k : ℕ} (hk : k < n) (c : ℕ) :
    (twoPow n k - 1#n).getLsbD c = decide (c < k) := by
  have hpos : 1 ≤ 2 ^ k := Nat.one_le_two_pow
  have hlt : 2 ^ k < 2 ^ n := Nat.pow_lt_pow_right (by omega) hk
  have hone : (1#n).toNat = 1 := by
    rw [BitVec.toNat_ofNat]
    exact Nat.mod_eq_of_lt (by omega)
  have hnat : (twoPow n k - 1#n).toNat = 2 ^ k - 1 := by
    rw [toNat_sub_of_le, toNat_twoPow_of_lt hk, hone]
    rw [le_def, toNat_twoPow_of_lt hk, hone]
    exact hpos
  rw [getLsbD, hnat, Nat.testBit_two_pow_sub_one]

theorem eq_allOnes_iff : w = allOnes n ↔ ∀ b < n, w.getLsbD b = true := by
  constructor
  · rintro rfl b hb
    simp [hb]
  · intro h
    apply eq_of_getLsbD_eq
    intro b hb
    simp [h b hb, hb]

theorem eq_zero_iff : w = 0 ↔ ∀ b < n, w.getLsbD b = false := by
  constructor
  · rintro rfl b _
    simp
  · intro h
    apply eq_of_getLsbD_eq
    intro b hb
    simp [h b hb]

end KirinFS.Foundation.WordBits
