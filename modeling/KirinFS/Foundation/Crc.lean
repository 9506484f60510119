import Mathlib.Data.Nat.Bitwise
import Mathlib.Logic.Function.Iterate

/-! # Cyclic redundancy checks

The remainder moves to the right, one bit at a time, or to the left with the
highest bit first. Every step is linear for exclusive or, so a byte can be
looked up in a table.
-/

namespace KirinFS.Foundation.Crc
open Function

variable {w : ℕ}

def bitStep (poly r : BitVec w) : BitVec w := (r >>> 1) ^^^ if r.getLsbD 0 then poly else 0

def byteStep (poly r : BitVec w) (b : UInt8) : BitVec w :=
  (bitStep poly)^[8] (r ^^^ b.toBitVec.setWidth w)

def absorb (poly r : BitVec w) (l : List UInt8) : BitVec w := l.foldl (byteStep poly) r

def tableStep (tab : List (BitVec w)) (r : BitVec w) (b : UInt8) : BitVec w :=
  tab.getD ((r ^^^ b.toBitVec.setWidth w) &&& 0xff).toNat 0 ^^^ (r >>> 8)

variable (poly : BitVec w)

section Linear

theorem xor_interchange (a b c d : BitVec w) :
    (a ^^^ b) ^^^ (c ^^^ d) = (a ^^^ c) ^^^ (b ^^^ d) := by
  ac_rfl

theorem bitStep_xor (a b : BitVec w) :
    bitStep poly (a ^^^ b) = bitStep poly a ^^^ bitStep poly b := by
  simp only [bitStep, BitVec.ushiftRight_xor_distrib, BitVec.getLsbD_xor]
  rw [xor_interchange]
  congr 1
  cases a.getLsbD 0 <;> cases b.getLsbD 0 <;> simp

theorem iterate_xor_of {step : BitVec w → BitVec w}
    (hstep : ∀ a b, step (a ^^^ b) = step a ^^^ step b) (k : ℕ) (a b : BitVec w) :
    step^[k] (a ^^^ b) = step^[k] a ^^^ step^[k] b := by
  induction k generalizing a b with
  | zero => rfl
  | succ k ih => rw [iterate_succ_apply, hstep, ih, iterate_succ_apply, iterate_succ_apply]

theorem iterate_xor (k : ℕ) (a b : BitVec w) :
    (bitStep poly)^[k] (a ^^^ b) = (bitStep poly)^[k] a ^^^ (bitStep poly)^[k] b :=
  iterate_xor_of (bitStep_xor poly) k a b

theorem byteStep_xor (a b : BitVec w) (x y : UInt8) :
    byteStep poly (a ^^^ b) (x ^^^ y) = byteStep poly a x ^^^ byteStep poly b y := by
  rw [byteStep, UInt8.toBitVec_xor, BitVec.setWidth_xor, xor_interchange, iterate_xor]
  rfl

/-- The difference of two checks is the check of the difference. -/
theorem absorb_xor (a b : BitVec w) {l m : List UInt8} (h : l.length = m.length) :
    absorb poly (a ^^^ b) (List.zipWith (· ^^^ ·) l m) = absorb poly a l ^^^ absorb poly b m := by
  induction l generalizing a b m with
  | nil =>
    obtain rfl : m = [] := List.length_eq_zero_iff.mp h.symm
    rfl
  | cons x l ih =>
    cases m with
    | nil => cases h
    | cons y m =>
      have hrest := ih (byteStep poly a x) (byteStep poly b y) (Nat.succ.inj h)
      rw [← byteStep_xor] at hrest
      exact hrest

end Linear

section Table

/-- Where the low bits are clear the remainder only moves. -/
theorem iterate_clear {r : BitVec w} {k : ℕ} (h : ∀ i < k, r.getLsbD i = false) :
    (bitStep poly)^[k] r = r >>> k := by
  induction k with
  | zero => rfl
  | succ k ih =>
    have hlow : (r >>> k).getLsbD 0 = false := by
      rw [BitVec.getLsbD_ushiftRight]
      exact h k (Nat.lt_succ_self k)
    rw [iterate_succ_apply', ih fun i hi => h i (Nat.lt_succ_of_lt hi), bitStep, hlow,
      BitVec.shiftRight_add]
    simp

theorem split_byte (r : BitVec w) : r = (r.setWidth 8).setWidth w ^^^ (r >>> 8 <<< 8) := by
  apply BitVec.eq_of_getLsbD_eq
  intro i hi
  simp only [BitVec.getLsbD_xor, BitVec.getLsbD_setWidth, BitVec.getLsbD_shiftLeft,
    BitVec.getLsbD_ushiftRight, hi]
  by_cases h : i < 8
  · simp [h]
  · have hback : 8 + (i - 8) = i := by omega
    simp [h, hback]

/-- The low byte gives the entry of the table, the rest moves. -/
theorem iterate_byte (r : BitVec w) :
    (bitStep poly)^[8] r = (bitStep poly)^[8] ((r.setWidth 8).setWidth w) ^^^ (r >>> 8) := by
  have hclear : ∀ i < 8, (r >>> 8 <<< 8).getLsbD i = false := by
    intro i hi
    simp [BitVec.getLsbD_shiftLeft, hi]
  have hback : r >>> 8 <<< 8 >>> 8 = r >>> 8 := by
    apply BitVec.eq_of_getLsbD_eq
    intro i hi
    simp only [BitVec.getLsbD_shiftLeft, BitVec.getLsbD_ushiftRight]
    by_cases h : 8 + i < w
    · simp [h]
    · simp [h, BitVec.getLsbD_of_ge r (8 + i) (by omega)]
  conv_lhs => rw [split_byte r]
  rw [iterate_xor, iterate_clear poly hclear, hback]

theorem high_byte (r : BitVec w) (b : UInt8) : (r ^^^ b.toBitVec.setWidth w) >>> 8 = r >>> 8 := by
  rw [BitVec.ushiftRight_xor_distrib]
  have hzero : b.toBitVec.setWidth w >>> 8 = 0 := by
    apply BitVec.eq_of_getLsbD_eq
    intro i hi
    simp [BitVec.getLsbD_ushiftRight, BitVec.getLsbD_setWidth]
  rw [hzero]
  simp

theorem toNat_and_ff (hw : 8 ≤ w) (r : BitVec w) : (r &&& 0xff).toNat = r.toNat % 2 ^ 8 := by
  have hff : (0xff : BitVec w).toNat = 2 ^ 8 - 1 :=
    Nat.mod_eq_of_lt (Nat.lt_of_lt_of_le (by decide) (Nat.pow_le_pow_right (by decide) hw))
  rw [BitVec.toNat_and, hff, Nat.and_two_pow_sub_one_eq_mod]

/-- Only the low byte of an index counts, whatever type it is computed in. -/
theorem index_eq {v : ℕ} (hv : 8 ≤ v) (hw : 8 ≤ w) {x : BitVec v} {y : BitVec w}
    (h : x.setWidth 8 = y.setWidth 8) : (x &&& 0xff).toNat = (y &&& 0xff).toNat := by
  rw [toNat_and_ff hv, toNat_and_ff hw, ← BitVec.toNat_setWidth, ← BitVec.toNat_setWidth, h]

theorem low_signExtend {v : ℕ} (hv : 8 ≤ v) (c : BitVec 8) : (c.signExtend v).setWidth 8 = c := by
  apply BitVec.eq_of_getLsbD_eq
  intro i hi
  have hin : i < v := by omega
  rw [BitVec.getLsbD_setWidth, BitVec.getLsbD_signExtend]
  simp [hi, hin]

variable {poly} {tab : List (BitVec w)}

theorem tableStep_eq (hw : 8 ≤ w)
    (htab : ∀ i < 256, tab.getD i 0 = (bitStep poly)^[8] (BitVec.ofNat w i)) (r : BitVec w)
    (b : UInt8) : tableStep tab r b = byteStep poly r b := by
  have hmask : ((r ^^^ b.toBitVec.setWidth w) &&& 0xff).toNat =
      ((r ^^^ b.toBitVec.setWidth w).setWidth 8).toNat := by
    rw [toNat_and_ff hw, BitVec.toNat_setWidth]
  rw [tableStep, byteStep, iterate_byte, high_byte, hmask, htab _ (BitVec.isLt _),
    BitVec.ofNat_toNat]

theorem foldl_tableStep (hw : 8 ≤ w)
    (htab : ∀ i < 256, tab.getD i 0 = (bitStep poly)^[8] (BitVec.ofNat w i)) (r : BitVec w)
    (l : List UInt8) : l.foldl (tableStep tab) r = absorb poly r l := by
  have hstep : tableStep tab = byteStep poly := by
    funext r b
    exact tableStep_eq hw htab r b
  rw [hstep, absorb]

end Table

section HighestFirst

def bitStepMsb (poly r : BitVec w) : BitVec w := (r <<< 1) ^^^ if r.getLsbD (w - 1) then poly else 0

def byteStepMsb (poly r : BitVec w) (b : UInt8) : BitVec w :=
  (bitStepMsb poly)^[8] (r ^^^ b.toBitVec.setWidth w <<< (w - 8))

def absorbMsb (poly r : BitVec w) (l : List UInt8) : BitVec w := l.foldl (byteStepMsb poly) r

def tableStepMsb (tab : List (BitVec w)) (r : BitVec w) (b : UInt8) : BitVec w :=
  (r <<< 8) ^^^ tab.getD ((r >>> (w - 8) ^^^ b.toBitVec.setWidth w) &&& 0xff).toNat 0

theorem bitStepMsb_xor (a b : BitVec w) :
    bitStepMsb poly (a ^^^ b) = bitStepMsb poly a ^^^ bitStepMsb poly b := by
  simp only [bitStepMsb, BitVec.shiftLeft_xor_distrib, BitVec.getLsbD_xor]
  rw [xor_interchange]
  congr 1
  cases a.getLsbD (w - 1) <;> cases b.getLsbD (w - 1) <;> simp

/-- Where the high bits are clear the remainder only moves. -/
theorem iterate_clearMsb {r : BitVec w} {k : ℕ} (hk : k ≤ w)
    (h : ∀ i, w - k ≤ i → r.getLsbD i = false) : (bitStepMsb poly)^[k] r = r <<< k := by
  induction k with
  | zero => simp
  | succ k ih =>
    have hhigh : (r <<< k).getLsbD (w - 1) = false := by
      rw [BitVec.getLsbD_shiftLeft, h (w - 1 - k) (by omega), Bool.and_false]
    rw [iterate_succ_apply', ih (by omega) fun i hi => h i (by omega), bitStepMsb, hhigh,
      BitVec.shiftLeft_add]
    simp

theorem split_highByte (hw : 8 ≤ w) (r : BitVec w) :
    r = r >>> (w - 8) <<< (w - 8) ^^^ (r <<< 8 >>> 8) := by
  apply BitVec.eq_of_getLsbD_eq
  intro i hi
  simp only [BitVec.getLsbD_xor, BitVec.getLsbD_shiftLeft, BitVec.getLsbD_ushiftRight, hi]
  by_cases h : i < w - 8
  · have hin : 8 + i < w := by omega
    simp [h, hin]
  · have hin : ¬8 + i < w := by omega
    have hback : w - 8 + (i - (w - 8)) = i := by omega
    simp [h, hin, hback]

/-- The high byte gives the entry of the table, the rest moves. -/
theorem iterate_highByte (hw : 8 ≤ w) (r : BitVec w) :
    (bitStepMsb poly)^[8] r = (bitStepMsb poly)^[8] (r >>> (w - 8) <<< (w - 8)) ^^^ (r <<< 8) := by
  have hclear : ∀ i, w - 8 ≤ i → (r <<< 8 >>> 8).getLsbD i = false := by
    intro i hi
    have hout : ¬8 + i < w := by omega
    simp [BitVec.getLsbD_ushiftRight, BitVec.getLsbD_shiftLeft, hout]
  have hback : r <<< 8 >>> 8 <<< 8 = r <<< 8 := by
    apply BitVec.eq_of_getLsbD_eq
    intro i hi
    simp only [BitVec.getLsbD_shiftLeft, BitVec.getLsbD_ushiftRight, hi]
    by_cases h : i < 8
    · simp [h]
    · have hsum : 8 + (i - 8) = i := by omega
      simp [h, hsum, hi]
  conv_lhs => rw [split_highByte hw r]
  rw [iterate_xor_of (bitStepMsb_xor poly), iterate_clearMsb poly hw hclear, hback]

theorem highByte_xor (hw : 8 ≤ w) (r : BitVec w) (b : UInt8) :
    (r ^^^ b.toBitVec.setWidth w <<< (w - 8)) >>> (w - 8) =
      r >>> (w - 8) ^^^ b.toBitVec.setWidth w := by
  rw [BitVec.ushiftRight_xor_distrib]
  congr 1
  apply BitVec.eq_of_getLsbD_eq
  intro i hi
  simp only [BitVec.getLsbD_ushiftRight, BitVec.getLsbD_shiftLeft, BitVec.getLsbD_setWidth, hi]
  by_cases h : i < 8
  · have hin : w - 8 + i < w := by omega
    have hover : ¬w - 8 + i < w - 8 := by omega
    simp [hi, hin, hover]
  · have hin : ¬w - 8 + i < w := by omega
    simp [hin, BitVec.getLsbD_of_ge b.toBitVec i (by omega)]

theorem lowBytes_xor (r : BitVec w) (b : UInt8) :
    (r ^^^ b.toBitVec.setWidth w <<< (w - 8)) <<< 8 = r <<< 8 := by
  apply BitVec.eq_of_getLsbD_eq
  intro i hi
  simp only [BitVec.getLsbD_shiftLeft, BitVec.getLsbD_xor, hi]
  by_cases h : i < 8
  · simp [h]
  · have hbelow : i - 8 < w - 8 := by omega
    simp [h, hbelow]

theorem highByte_lt (hw : 8 ≤ w) (r : BitVec w) (b : UInt8) :
    (r >>> (w - 8) ^^^ b.toBitVec.setWidth w).toNat < 2 ^ 8 := by
  have hr : (r >>> (w - 8)).toNat < 2 ^ 8 := by
    rw [BitVec.toNat_ushiftRight, Nat.shiftRight_eq_div_pow]
    apply Nat.div_lt_of_lt_mul
    rw [← Nat.pow_add, Nat.sub_add_cancel hw]
    exact r.isLt
  have hb : (b.toBitVec.setWidth w).toNat < 2 ^ 8 := by
    rw [BitVec.toNat_setWidth]
    exact Nat.lt_of_le_of_lt (Nat.mod_le _ _) b.toBitVec.isLt
  rw [BitVec.toNat_xor]
  exact Nat.xor_lt_two_pow hr hb

variable {poly} {tab : List (BitVec w)}

theorem tableStepMsb_eq (hw : 8 ≤ w)
    (htab : ∀ i < 256, tab.getD i 0 = (bitStepMsb poly)^[8] (BitVec.ofNat w i <<< (w - 8)))
    (r : BitVec w) (b : UInt8) : tableStepMsb tab r b = byteStepMsb poly r b := by
  have hlt := highByte_lt hw r b
  have hmask : ((r >>> (w - 8) ^^^ b.toBitVec.setWidth w) &&& 0xff).toNat =
      (r >>> (w - 8) ^^^ b.toBitVec.setWidth w).toNat := by
    rw [toNat_and_ff hw]
    exact Nat.mod_eq_of_lt hlt
  rw [tableStepMsb, byteStepMsb, iterate_highByte poly hw, highByte_xor hw, lowBytes_xor, hmask,
    htab _ hlt, BitVec.ofNat_toNat, BitVec.setWidth_eq, BitVec.xor_comm]

end HighestFirst

end KirinFS.Foundation.Crc
