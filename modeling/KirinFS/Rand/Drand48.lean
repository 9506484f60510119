import Mathlib.Algebra.Group.Nat.Defs
import Mathlib.Data.Nat.Notation

/-! # The generator of `stl_rand.c`

The state of 48 bits is kept in three limbs of 16 bits, and the product is put
together from products of limbs.
-/

namespace KirinFS.Rand

structure RandState where
  x0 : BitVec 32
  x1 : BitVec 32
  x2 : BitVec 32
deriving DecidableEq

/-- `LOW`, with the constant `MASK`. -/
def low (v : BitVec 32) : BitVec 32 := v &&& 0xffff

/-- `HIGH` of an `int32_t`, whose shift keeps the sign. -/
def high (l : BitVec 32) : BitVec 32 := low (l.sshiftRight 16)

/-- The `l` of `MUL`: a product of type `long`, cut to an `int32_t`. -/
def mul (x y : BitVec 32) : BitVec 32 := (x.setWidth 64 * y.setWidth 64).setWidth 32

/-- `CARRY`, computed as `long`. -/
def carry (x y : BitVec 32) : BitVec 32 := if 0xffff < x.toInt + y.toNat then 1 else 0

/-- The array `a`, the factor of the generator. -/
def a0 : BitVec 32 := 0xE66D

def a1 : BitVec 32 := 0xDEEC

def a2 : BitVec 32 := 0x5

/-- The summand `c`. -/
def c : BitVec 32 := 0xB

def stlRandNext (x : RandState) : RandState :=
  let p0 := low (mul a0 x.x0)
  let p1 := high (mul a0 x.x0)
  let carry0 := carry p0 c
  let p0 := low (p0 + c)
  let carry1 := carry p1 carry0
  let p1 := low (p1 + carry0)
  let q0 := low (mul a0 x.x1)
  let q1 := high (mul a0 x.x1)
  let carry0 := carry p1 q0
  let p1 := low (p1 + q0)
  let r0 := low (mul a1 x.x0)
  let r1 := high (mul a1 x.x0)
  let x2 := low (carry0 + carry1 + carry p1 r0 + q1 + r1 + a0 * x.x2 + a1 * x.x1 + a2 * x.x0)
  let x1 := low (p1 + r0)
  let x0 := low p0
  ⟨x0, x1, x2⟩

/-- The number that `stl_rand_int32` makes of a new state. -/
def RandState.int32 (x : RandState) : BitVec 32 := x.x2 <<< 15 + x.x1 >>> 1

def stlRandInt32 (x : RandState) : RandState × BitVec 32 :=
  let x := stlRandNext x
  (x, x.int32)

structure Limbs extends RandState where
  lt0 : x0.toNat < 2 ^ 16
  lt1 : x1.toNat < 2 ^ 16
  lt2 : x2.toNat < 2 ^ 16

def RandState.val (x : RandState) : ℕ := x.x0.toNat + 2 ^ 16 * x.x1.toNat + 2 ^ 32 * x.x2.toNat

def lcg (n : ℕ) : ℕ := (0x5DEECE66D * n + 0xB) % 2 ^ 48

section Limbs

theorem toNat_low (v : BitVec 32) : (low v).toNat = v.toNat % 2 ^ 16 := by
  rw [low, BitVec.toNat_and]
  exact Nat.and_two_pow_sub_one_eq_mod _ 16

theorem low_lt (v : BitVec 32) : (low v).toNat < 2 ^ 16 := by
  rw [toNat_low]
  exact Nat.mod_lt _ (Nat.two_pow_pos 16)

/-- The sign bits that the shift brings in are cut off again. -/
theorem toNat_high (l : BitVec 32) : (high l).toNat = l.toNat / 2 ^ 16 := by
  have hlt := l.isLt
  rw [high, toNat_low, BitVec.toNat_sshiftRight]
  split
  · rw [Nat.shiftRight_eq_div_pow]
    omega
  · rw [Nat.shiftRight_eq_div_pow]
    omega

/-- The cut takes nothing away from a product of limbs. -/
theorem toNat_mul {x y : BitVec 32} (hx : x.toNat < 2 ^ 16) (hy : y.toNat < 2 ^ 16) :
    (mul x y).toNat = x.toNat * y.toNat := by
  have hlt : x.toNat * y.toNat < 2 ^ 16 * 2 ^ 16 := Nat.mul_lt_mul'' hx hy
  have hx64 : x.toNat % 2 ^ 64 = x.toNat := Nat.mod_eq_of_lt (by omega)
  have hy64 : y.toNat % 2 ^ 64 = y.toNat := Nat.mod_eq_of_lt (by omega)
  rw [mul, BitVec.toNat_setWidth, BitVec.toNat_mul, BitVec.toNat_setWidth, BitVec.toNat_setWidth,
    hx64, hy64, Nat.mod_eq_of_lt (show x.toNat * y.toNat < 2 ^ 64 by omega)]
  exact Nat.mod_eq_of_lt hlt

theorem mul_halves {x y : BitVec 32} (hx : x.toNat < 2 ^ 16) (hy : y.toNat < 2 ^ 16) :
    x.toNat * y.toNat = (low (mul x y)).toNat + 2 ^ 16 * (high (mul x y)).toNat := by
  rw [toNat_low, toNat_high, toNat_mul hx hy]
  omega

theorem high_lt (l : BitVec 32) : (high l).toNat < 2 ^ 16 := low_lt _

theorem add_carry {x y : BitVec 32} (hx : x.toNat < 2 ^ 16) (hy : y.toNat < 2 ^ 16) :
    x.toNat + y.toNat = (low (x + y)).toNat + 2 ^ 16 * (carry x y).toNat := by
  have hint : x.toInt = x.toNat := BitVec.toInt_eq_toNat_of_lt (by omega)
  have hsum : (x + y).toNat = x.toNat + y.toNat := by
    rw [BitVec.toNat_add]
    exact Nat.mod_eq_of_lt (by omega)
  rw [toNat_low, hsum, carry, hint]
  split
  · rw [show (1 : BitVec 32).toNat = 1 by rfl]
    omega
  · rw [show (0 : BitVec 32).toNat = 0 by rfl]
    omega

theorem carry_le (x y : BitVec 32) : (carry x y).toNat ≤ 1 := by
  rw [carry]
  split <;> decide

end Limbs

section Step

theorem stlRandNext_lt (x : RandState) : (stlRandNext x).x0.toNat < 2 ^ 16 ∧
    (stlRandNext x).x1.toNat < 2 ^ 16 ∧ (stlRandNext x).x2.toNat < 2 ^ 16 :=
  ⟨low_lt _, low_lt _, low_lt _⟩

def Limbs.next (x : Limbs) : Limbs :=
  ⟨stlRandNext x.toRandState, (stlRandNext_lt _).1, (stlRandNext_lt _).2.1, (stlRandNext_lt _).2.2⟩

/-- The limbs of the new state, when all the carries have gone up. -/
theorem limbs_next {x0 x1 p0 p1 q0 q1 r0 r1 s0 s1 s2 s3 k0 k1 k2 k3 : ℕ} (x2 : ℕ)
    (hp : 0xE66D * x0 = p0 + 2 ^ 16 * p1) (hq : 0xE66D * x1 = q0 + 2 ^ 16 * q1)
    (hr : 0xDEEC * x0 = r0 + 2 ^ 16 * r1) (h0 : p0 + 0xB = s0 + 2 ^ 16 * k0)
    (h1 : p1 + k0 = s1 + 2 ^ 16 * k1) (h2 : s1 + q0 = s2 + 2 ^ 16 * k2)
    (h3 : s2 + r0 = s3 + 2 ^ 16 * k3) (hs0 : s0 < 2 ^ 16) (hs3 : s3 < 2 ^ 16) :
    s0 + 2 ^ 16 * s3 +
        2 ^ 32 * ((k2 + k1 + k3 + q1 + r1 + 0xE66D * x2 + 0xDEEC * x1 + 0x5 * x0) % 2 ^ 16) =
      lcg (x0 + 2 ^ 16 * x1 + 2 ^ 32 * x2) := by
  rw [lcg]
  omega

/-- What overflows in the sum for the third limb does not reach the limb. -/
theorem third_limb (k0 k1 k2 q1 r1 x0 x1 x2 : BitVec 32) :
    (low (k0 + k1 + k2 + q1 + r1 + a0 * x2 + a1 * x1 + a2 * x0)).toNat =
      (k0.toNat + k1.toNat + k2.toNat + q1.toNat + r1.toNat + 0xE66D * x2.toNat +
        0xDEEC * x1.toNat + 0x5 * x0.toNat) % 2 ^ 16 := by
  have ha0 : a0.toNat = 0xE66D := rfl
  have ha1 : a1.toNat = 0xDEEC := rfl
  have ha2 : a2.toNat = 0x5 := rfl
  simp only [toNat_low, BitVec.toNat_add, BitVec.toNat_mul, ha0, ha1, ha2]
  omega

theorem low_low (v : BitVec 32) : low (low v) = low v := by
  rw [low, low, BitVec.and_assoc]
  rfl

theorem stlRandNext_val (x : Limbs) : (stlRandNext x.toRandState).val = lcg x.val := by
  obtain ⟨⟨x0, x1, x2⟩, h0, h1, h2⟩ := x
  simp only at h0 h1 h2
  have ha0 : a0.toNat < 2 ^ 16 := by decide
  have ha1 : a1.toNat < 2 ^ 16 := by decide
  have hc : c.toNat < 2 ^ 16 := by decide
  have hbit : ∀ x y, (carry x y).toNat < 2 ^ 16 := fun x y =>
    Nat.lt_of_le_of_lt (carry_le x y) (by decide)
  have hp := mul_halves ha0 h0
  have hq := mul_halves ha0 h1
  have hr := mul_halves ha1 h0
  have hs0 := add_carry (low_lt (mul a0 x0)) hc
  have hs1 := add_carry (high_lt (mul a0 x0)) (hbit (low (mul a0 x0)) c)
  have hs2 := add_carry (low_lt (high (mul a0 x0) + carry (low (mul a0 x0)) c))
    (low_lt (mul a0 x1))
  have hs3 := add_carry
    (low_lt (low (high (mul a0 x0) + carry (low (mul a0 x0)) c) + low (mul a0 x1)))
    (low_lt (mul a1 x0))
  have hnext := limbs_next x2.toNat hp hq hr hs0 hs1 hs2 hs3 (low_lt _) (low_lt _)
  simp only [stlRandNext, RandState.val, third_limb, low_low]
  exact hnext

theorem toNat_int32 (x : Limbs) : x.int32.toNat = x.val / 2 ^ 17 := by
  obtain ⟨⟨x0, x1, x2⟩, h0, h1, h2⟩ := x
  simp only at h0 h1 h2
  simp only [RandState.int32, RandState.val, BitVec.toNat_add, BitVec.toNat_shiftLeft,
    BitVec.toNat_ushiftRight, Nat.shiftLeft_eq, Nat.shiftRight_eq_div_pow]
  omega

theorem val_lt (x : Limbs) : x.val < 2 ^ 48 := by
  have h0 := x.lt0
  have h1 := x.lt1
  have h2 := x.lt2
  rw [RandState.val]
  omega

theorem toInt_int32 (x : Limbs) : x.int32.toInt = (x.val / 2 ^ 17 : ℕ) := by
  have hlt := val_lt x
  have hnat := toNat_int32 x
  rw [BitVec.toInt_eq_toNat_of_lt (by omega), hnat]

/-- The code computes the generator limb by limb. -/
theorem stl_rand_exact (x : Limbs) :
    (stlRandNext x.toRandState).x0.toNat = lcg x.val % 2 ^ 16 ∧
      (stlRandNext x.toRandState).x1.toNat = lcg x.val / 2 ^ 16 % 2 ^ 16 ∧
      (stlRandNext x.toRandState).x2.toNat = lcg x.val / 2 ^ 32 ∧
      (stlRandInt32 x.toRandState).1 = stlRandNext x.toRandState ∧
      (stlRandInt32 x.toRandState).2.toInt = ((lcg x.val / 2 ^ 17 : ℕ) : ℤ) ∧
      lcg x.val / 2 ^ 32 < 2 ^ 16 := by
  obtain ⟨h0, h1, h2⟩ := stlRandNext_lt x.toRandState
  have hval := stlRandNext_val x
  have hint := toInt_int32 x.next
  have hnext : x.next.val = lcg x.val := hval
  rw [hnext] at hint
  rw [RandState.val] at hval
  refine ⟨by omega, by omega, by omega, rfl, hint, by omega⟩

end Step

end KirinFS.Rand
