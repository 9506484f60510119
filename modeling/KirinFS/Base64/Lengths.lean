import KirinFS.Base64.Padding
import KirinFS.Foundation.Signed

/-! # The buffer sizes for base64

Both bounds multiply before they divide, in an `int`.
-/

namespace KirinFS.Base64
open Foundation.CString Foundation.Signed

def stlBase64EncLen (o : Overflow) (srclen : ℤ) : Option ℤ := do
  let sum ← signed o 32 (srclen + 2)
  let product ← signed o 32 (sum * 4)
  return product.tdiv 3

def stlBase64DecLen (o : Overflow) (srclen : ℤ) : Option ℤ := do
  let product ← signed o 32 (srclen * 3)
  return product >>> (2 : ℕ)

/-- The size computed for `n` bytes holds what the encoder writes for them. -/
def EncLenSuffices (o : Overflow) (n : ℕ) : Prop :=
  ∃ size, stlBase64EncLen o n = some size ∧
    ∀ src : Str, src.length = n → ((stlBase64Encode src).2.length : ℤ) ≤ size

/-- The size computed for `n` characters holds what the decoder writes, whatever it returns. -/
def DecLenSuffices (o : Overflow) (n : ℕ) : Prop :=
  ∃ size, stlBase64DecLen o n = some size ∧
    ∀ src : Str, src.length = n → ((stlBase64Decode src).2.length : ℤ) ≤ size

variable {o : Overflow} {n : ℕ}

section Encoder

theorem encodeFrom_length : ∀ (s : Str) (pos buf : ℕ), pos ≤ 2 →
    (encodeFrom pos buf s).length = 4 * ((s.length + (2 - pos) + 2) / 3)
  | [], pos, buf, hpos => by
    rw [encodeFrom]
    split <;> simp only [List.length_cons, List.length_nil] <;> omega
  | c :: s, pos, buf, hpos => by
    rw [encodeFrom]
    split
    · have hs := encodeFrom_length s 2 0 (by omega)
      simp only [List.length_cons, hs]
      omega
    · have hs := encodeFrom_length s (pos - 1) (buf ||| c.toNat <<< (pos * 8)) (by omega)
      rw [hs, List.length_cons]
      omega

theorem encode_length {src : Str} (h : src.length = n) :
    (stlBase64Encode src).2.length = 4 * ((n + 2) / 3) := by
  rw [stlBase64Encode, encodeFrom_length src 2 0 (by omega), h]

theorem encLen_eq (h : (n + 2) * 4 ≤ 2147483647) :
    stlBase64EncLen o n = some (((n : ℤ) + 2) * 4 / 3) := by
  have hsum : Fits 32 ((n : ℤ) + 2) := fits_int.mpr (by omega)
  have hproduct : Fits 32 (((n : ℤ) + 2) * 4) := fits_int.mpr (by omega)
  rw [stlBase64EncLen, signed_of_fits hsum, Option.bind_eq_bind, Option.bind_some,
    signed_of_fits hproduct, Option.bind_some, Int.tdiv_eq_ediv_of_nonneg (by omega)]
  rfl

theorem encLen_overflow (hfit : 4 * ((n + 2) / 3) ≤ 2147483647) (h : 2147483647 < (n + 2) * 4)
    {size : ℤ} (hsize : stlBase64EncLen o n = some size) : size < (4 * ((n + 2) / 3) : ℕ) := by
  have hsum : Fits 32 ((n : ℤ) + 2) := fits_int.mpr (by omega)
  rw [stlBase64EncLen, signed_of_fits hsum, Option.bind_eq_bind, Option.bind_some] at hsize
  cases hproduct : signed o 32 (((n : ℤ) + 2) * 4) with
  | none =>
    rw [hproduct] at hsize
    cases hsize
  | some product =>
    have hwrapped := signed_int_over (by omega) (by omega) hproduct
    rw [hproduct, Option.bind_some] at hsize
    cases hsize
    have hback := Int.mul_tdiv_add_tmod product 3
    have hrem : (product.tmod 3).natAbs < 3 := by
      rw [Int.natAbs_tmod]
      exact Nat.mod_lt _ (by decide)
    omega

end Encoder

section Decoder

theorem decodeFrom_letters (n : ℕ) : ∀ pos < 4,
    (decodeFrom 0 pos 0 (List.replicate n (chr 'A'))).2.length = 3 * ((pos + n) / 4) := by
  have hchar : ∀ pos, decodeChar pos 0 (chr 'A') = some (0, 0) := fun _ => rfl
  induction n with
  | zero =>
    intro pos hpos
    rw [List.replicate_zero, decodeFrom, List.length_nil]
    omega
  | succ n ih =>
    intro pos hpos
    rw [List.replicate_succ, decodeFrom, hchar]
    simp only [Nat.zero_shiftLeft, Nat.zero_mod, Nat.add_zero]
    split
    · have hs := ih 0 (by omega)
      have hg : (groupBytes 0 0).length = 3 := rfl
      rw [List.length_append, hs, hg]
      omega
    · rw [ih (pos + 1) (by omega)]
      omega

theorem decLen_eq (h : n * 3 ≤ 2147483647) : stlBase64DecLen o n = some ((n : ℤ) * 3 / 4) := by
  have hproduct : Fits 32 ((n : ℤ) * 3) := fits_int.mpr (by omega)
  rw [stlBase64DecLen, signed_of_fits hproduct, Option.bind_eq_bind, Option.bind_some,
    Int.shiftRight_eq_div_pow]
  rfl

theorem decLen_overflow (hint : n ≤ 2147483647) (h : 2147483647 < n * 3) {size : ℤ}
    (hsize : stlBase64DecLen o n = some size) : size < (3 * (n / 4) : ℕ) := by
  rw [stlBase64DecLen, Option.bind_eq_bind] at hsize
  cases hproduct : signed o 32 ((n : ℤ) * 3) with
  | none =>
    rw [hproduct] at hsize
    cases hsize
  | some product =>
    have hwrapped := signed_int_over (by omega) (by omega) hproduct
    rw [hproduct, Option.bind_some] at hsize
    cases hsize
    rw [Int.shiftRight_eq_div_pow]
    norm_num
    omega

end Decoder

section Bounds

theorem encLenSuffices_iff (hfit : 4 * ((n + 2) / 3) ≤ 2147483647) :
    EncLenSuffices o n ↔ (n + 2) * 4 ≤ 2147483647 := by
  constructor
  · rintro ⟨size, hsize, hall⟩
    by_contra hover
    have hlt := encLen_overflow hfit (Nat.lt_of_not_le hover) hsize
    have hwritten := hall (List.replicate n 0) List.length_replicate
    rw [encode_length List.length_replicate] at hwritten
    omega
  · intro h
    refine ⟨_, encLen_eq h, fun src hsrc => ?_⟩
    rw [encode_length hsrc]
    omega

theorem decLenSuffices_iff (hint : n ≤ 2147483647) :
    DecLenSuffices o n ↔ n * 3 ≤ 2147483647 := by
  constructor
  · rintro ⟨size, hsize, hall⟩
    by_contra hover
    have hlt := decLen_overflow hint (Nat.lt_of_not_le hover) hsize
    have hwritten := hall (List.replicate n (chr 'A')) List.length_replicate
    rw [stlBase64Decode, decodeFrom_letters n 0 (by decide), Nat.zero_add] at hwritten
    omega
  · intro h
    refine ⟨_, decLen_eq h, fun src hsrc => ?_⟩
    have hwritten := decodeFrom_written src 0 0 0 (by decide)
    rw [hsrc, Nat.zero_add] at hwritten
    simp only [stlBase64Decode]
    omega

/-- The sizes suffice until the product no longer fits in an `int`. -/
theorem base64_lens_iff (o : Overflow) (hint : n ≤ 2147483647) :
    (4 * ((n + 2) / 3) ≤ 2147483647 → (EncLenSuffices o n ↔ (n + 2) * 4 ≤ 2147483647)) ∧
      (DecLenSuffices o n ↔ n * 3 ≤ 2147483647) :=
  ⟨encLenSuffices_iff, decLenSuffices_iff hint⟩

theorem base64_lens_hundred : EncLenSuffices .wraps 100 ∧ DecLenSuffices .wraps 100 :=
  ⟨((base64_lens_iff .wraps (by decide)).1 (by decide)).mpr (by decide),
    (base64_lens_iff .wraps (by decide)).2.mpr (by decide)⟩

/-- The first length whose product is too large; the encoding has 715827880 characters. -/
theorem enc_len_overflows : 4 * ((536870910 + 2) / 3) = 715827880 ∧
    stlBase64EncLen .undefined 536870910 = none ∧
      stlBase64EncLen .wraps 536870910 = some (-715827882) ∧
      ¬EncLenSuffices .undefined 536870910 ∧ ¬EncLenSuffices .wraps 536870910 := by
  have hnone : stlBase64EncLen .undefined 536870910 = none := by decide
  have hwraps : stlBase64EncLen .wraps 536870910 = some (-715827882) := by decide
  refine ⟨by decide, hnone, hwraps, ?_, ?_⟩
  · rintro ⟨size, hsize, -⟩
    exact absurd (hnone.symm.trans hsize) (by simp)
  · rintro ⟨size, hsize, hall⟩
    have hneg : size = -715827882 := Option.some.inj (hsize.symm.trans hwraps)
    have hwritten := hall (List.replicate 536870910 0) List.length_replicate
    omega

end Bounds

end KirinFS.Base64
