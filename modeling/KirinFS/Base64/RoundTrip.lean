import KirinFS.Base64.Codec
import Mathlib.Tactic.NormNum
import Mathlib.Tactic.Ring

/-! # Decoding what was encoded -/

namespace KirinFS.Base64
open Foundation.CString

section Register

theorem sextet (x i : ℕ) : x >>> i &&& 63 = x / 2 ^ i % 64 := by
  rw [Nat.shiftRight_eq_div_pow]
  exact Nat.and_two_pow_sub_one_eq_mod _ 6

theorem octet (x i : ℕ) : x >>> i &&& 255 = x / 2 ^ i % 256 := by
  rw [Nat.shiftRight_eq_div_pow]
  exact Nat.and_two_pow_sub_one_eq_mod _ 8

theorem low_sextet (x : ℕ) : x &&& 63 = x % 64 := Nat.and_two_pow_sub_one_eq_mod _ 6

theorem low_octet (x : ℕ) : x &&& 255 = x % 256 := Nat.and_two_pow_sub_one_eq_mod _ 8

theorem register_one (a : ℕ) : 0 ||| a <<< (2 * 8) = a * 65536 := by
  rw [Nat.zero_or, Nat.shiftLeft_eq]

theorem register_two (a : ℕ) {b : ℕ} (hb : b < 256) :
    a * 65536 ||| b <<< (1 * 8) = a * 65536 + b * 256 := by
  have h := Nat.shiftLeft_add_eq_or_of_lt (show b * 256 < 2 ^ 16 by omega) a
  rw [Nat.shiftLeft_eq] at h
  rw [Nat.shiftLeft_eq]
  exact h.symm

theorem register_three (a b : ℕ) {c : ℕ} (hc : c < 256) :
    a * 65536 + b * 256 ||| c <<< (0 * 8) = a * 65536 + b * 256 + c := by
  have h := Nat.shiftLeft_add_eq_or_of_lt (show c < 2 ^ 8 by omega) (a * 256 + b)
  rw [Nat.shiftLeft_eq, show (a * 256 + b) * 2 ^ 8 = a * 65536 + b * 256 by ring] at h
  exact h.symm

end Register

section Group
variable {buf pos v : ℕ} {s : Str}

theorem decodeChar_base64 (hv : v < 64) (pos fin : ℕ) :
    decodeChar pos fin (base64 v) = some (v, fin) := by
  obtain ⟨hblank, hpad, hval⟩ := base64_value v hv
  have hneg : ¬ ((v : ℤ) < 0) := by omega
  rw [decodeChar, hblank, if_neg Bool.false_ne_true, if_neg hpad, hval, if_neg hneg]
  rfl

theorem register_next {b : ℕ} (h : buf * 64 + b < 2 ^ 32) :
    ((buf <<< 6) % 2 ^ 32 + b) % 2 ^ 32 = buf * 64 + b := by
  have hb : buf <<< 6 = buf * 64 := Nat.shiftLeft_eq buf 6
  rw [hb, Nat.mod_eq_of_lt (show buf * 64 < 2 ^ 32 by omega), Nat.mod_eq_of_lt h]

theorem decodeFrom_inside {fin fin' b : ℕ} {c : UInt8} (hc : decodeChar pos fin c = some (b, fin'))
    (hpos : pos < 3) (h : buf * 64 + b < 2 ^ 32) :
    decodeFrom buf pos fin (c :: s) = decodeFrom (buf * 64 + b) (pos + 1) fin' s := by
  rw [decodeFrom]
  simp only [hc, register_next h]
  rw [if_neg (by omega)]

/-- The fourth character of a group empties the register. -/
theorem decodeFrom_last {fin fin' b : ℕ} {c : UInt8} (hc : decodeChar 3 fin c = some (b, fin'))
    (h : buf * 64 + b < 2 ^ 32) :
    decodeFrom buf 3 fin (c :: s) =
      ((decodeFrom 0 0 fin' s).1, groupBytes (buf * 64 + b) fin' ++ (decodeFrom 0 0 fin' s).2) := by
  rw [decodeFrom]
  simp only [hc, register_next h]
  rw [if_pos trivial]

/-- Four characters read back the register that they were taken from. -/
theorem decode_group {x : ℕ} (hx : x < 2 ^ 24) :
    decodeFrom 0 0 0 (base64 (x >>> 18 &&& 63) :: base64 (x >>> 12 &&& 63) ::
        base64 (x >>> 6 &&& 63) :: base64 (x &&& 63) :: s) =
      ((decodeFrom 0 0 0 s).1, groupBytes x 0 ++ (decodeFrom 0 0 0 s).2) := by
  have hlt : ∀ n, n % 64 < 64 := fun n => Nat.mod_lt n (by norm_num)
  rw [sextet, sextet, sextet, low_sextet,
    decodeFrom_inside (decodeChar_base64 (hlt _) 0 0) (by norm_num) (by omega),
    decodeFrom_inside (decodeChar_base64 (hlt _) 1 0) (by norm_num) (by omega),
    decodeFrom_inside (decodeChar_base64 (hlt _) 2 0) (by norm_num) (by omega),
    decodeFrom_last (decodeChar_base64 (hlt _) 3 0) (by omega)]
  have hreg : (((0 * 64 + x / 2 ^ 18 % 64) * 64 + x / 2 ^ 12 % 64) * 64 + x / 2 ^ 6 % 64) * 64 +
      x % 64 = x := by omega
  rw [hreg]

/-- The first padding character notes how many bytes its group has, a second changes nothing. -/
theorem decodeChar_pad_third : decodeChar 2 0 (chr '=') = some (0, 1) := rfl

theorem decodeChar_pad_fourth : decodeChar 3 0 (chr '=') = some (0, 2) := rfl

theorem decodeChar_pad_again : decodeChar 3 1 (chr '=') = some (0, 1) := rfl

theorem decode_one {x : ℕ} (hx : x < 2 ^ 24) (hlow : x % 65536 = 0) :
    decodeFrom 0 0 0 [base64 (x >>> 18 &&& 63), base64 (x >>> 12 &&& 63), chr '=', chr '='] =
      (true, [UInt8.ofNat (x / 65536)]) := by
  have hlt : ∀ n, n % 64 < 64 := fun n => Nat.mod_lt n (by norm_num)
  rw [sextet, sextet,
    decodeFrom_inside (decodeChar_base64 (hlt _) 0 0) (by norm_num) (by omega),
    decodeFrom_inside (decodeChar_base64 (hlt _) 1 0) (by norm_num) (by omega),
    decodeFrom_inside decodeChar_pad_third (by norm_num) (by omega),
    decodeFrom_last decodeChar_pad_again (by omega)]
  have hreg : (((0 * 64 + x / 2 ^ 18 % 64) * 64 + x / 2 ^ 12 % 64) * 64 + 0) * 64 + 0 = x := by omega
  have hbyte : x / 2 ^ 16 % 256 = x / 65536 := by omega
  rw [hreg, groupBytes, octet, hbyte]
  rfl

theorem decode_two {x : ℕ} (hx : x < 2 ^ 24) (hlow : x % 256 = 0) :
    decodeFrom 0 0 0 [base64 (x >>> 18 &&& 63), base64 (x >>> 12 &&& 63),
        base64 (x >>> 6 &&& 63), chr '='] =
      (true, [UInt8.ofNat (x / 65536), UInt8.ofNat (x / 256 % 256)]) := by
  have hlt : ∀ n, n % 64 < 64 := fun n => Nat.mod_lt n (by norm_num)
  rw [sextet, sextet, sextet,
    decodeFrom_inside (decodeChar_base64 (hlt _) 0 0) (by norm_num) (by omega),
    decodeFrom_inside (decodeChar_base64 (hlt _) 1 0) (by norm_num) (by omega),
    decodeFrom_inside (decodeChar_base64 (hlt _) 2 0) (by norm_num) (by omega),
    decodeFrom_last decodeChar_pad_fourth (by omega)]
  have hreg : (((0 * 64 + x / 2 ^ 18 % 64) * 64 + x / 2 ^ 12 % 64) * 64 + x / 2 ^ 6 % 64) * 64 + 0 =
      x := by omega
  have hbyte : x / 2 ^ 16 % 256 = x / 65536 := by omega
  rw [hreg, groupBytes, octet, octet, hbyte]
  rfl

end Group

/-- What the encoder writes for whole groups and for the two tails. -/
theorem encode_three (a b c : UInt8) (s : Str) :
    encodeFrom 2 0 (a :: b :: c :: s) =
      let x := a.toNat * 65536 + b.toNat * 256 + c.toNat
      base64 (x >>> 18 &&& 63) :: base64 (x >>> 12 &&& 63) :: base64 (x >>> 6 &&& 63) ::
        base64 (x &&& 63) :: encodeFrom 2 0 s := by
  simp only [encodeFrom]
  rw [if_neg (by norm_num), if_neg (by norm_num), if_pos trivial, register_one,
    register_two _ b.toNat_lt, register_three _ _ c.toNat_lt]

theorem encode_one (a : UInt8) :
    encodeFrom 2 0 [a] = [base64 ((a.toNat * 65536) >>> 18 &&& 63),
      base64 ((a.toNat * 65536) >>> 12 &&& 63), chr '=', chr '='] := by
  simp only [encodeFrom]
  rw [if_neg (by norm_num), register_one, if_pos (by norm_num), if_neg (by norm_num)]

theorem encode_two (a b : UInt8) :
    encodeFrom 2 0 [a, b] =
      let x := a.toNat * 65536 + b.toNat * 256
      [base64 (x >>> 18 &&& 63), base64 (x >>> 12 &&& 63), base64 (x >>> 6 &&& 63), chr '='] := by
  simp only [encodeFrom]
  rw [if_neg (by norm_num), if_neg (by norm_num), register_one, register_two _ b.toNat_lt,
    if_pos (by norm_num), if_pos trivial]

theorem groupBytes_three (a b c : UInt8) :
    groupBytes (a.toNat * 65536 + b.toNat * 256 + c.toNat) 0 = [a, b, c] := by
  have ha := a.toNat_lt
  have hb := b.toNat_lt
  have hc := c.toNat_lt
  have h₁ : (a.toNat * 65536 + b.toNat * 256 + c.toNat) / 2 ^ 16 % 256 = a.toNat := by omega
  have h₂ : (a.toNat * 65536 + b.toNat * 256 + c.toNat) / 2 ^ 8 % 256 = b.toNat := by omega
  have h₃ : (a.toNat * 65536 + b.toNat * 256 + c.toNat) % 256 = c.toNat := by omega
  rw [groupBytes, octet, octet, low_octet, h₁, h₂, h₃, UInt8.ofNat_toNat, UInt8.ofNat_toNat,
    UInt8.ofNat_toNat, if_pos (Or.inl rfl), if_pos (Or.inl rfl)]
  rfl

/-- The induction goes over groups of three bytes. -/
theorem decode_encode : ∀ src : Str, decodeFrom 0 0 0 (encodeFrom 2 0 src) = (true, src)
  | [] => rfl
  | [a] => by
    have ha := a.toNat_lt
    have hbyte : a.toNat * 65536 / 65536 = a.toNat := by omega
    rw [encode_one, decode_one (by omega) (by omega), hbyte, UInt8.ofNat_toNat]
  | [a, b] => by
    have ha := a.toNat_lt
    have hb := b.toNat_lt
    have h₁ : (a.toNat * 65536 + b.toNat * 256) / 65536 = a.toNat := by omega
    have h₂ : (a.toNat * 65536 + b.toNat * 256) / 256 % 256 = b.toNat := by omega
    rw [encode_two, decode_two (by omega) (by omega), h₁, h₂, UInt8.ofNat_toNat, UInt8.ofNat_toNat]
  | a :: b :: c :: s => by
    have ha := a.toNat_lt
    have hb := b.toNat_lt
    have hc := c.toNat_lt
    have hs := decode_encode s
    rw [encode_three, decode_group (by omega), groupBytes_three, hs]
    rfl

theorem length_le_encode : ∀ src : Str, src.length ≤ (encodeFrom 2 0 src).length
  | [] => Nat.le_refl 0
  | [a] => by
    rw [encode_one]
    exact Nat.le_add_left 1 3
  | [a, b] => by
    rw [encode_two]
    exact Nat.le_add_left 2 2
  | a :: b :: c :: s => by
    have hs := length_le_encode s
    rw [encode_three]
    simp only [List.length_cons]
    omega

/-- Decoding an encoding returns the length of the source and writes the source. -/
theorem decode_encode_eq (src : Str) (hlen : (stlBase64Encode src).2.length < 2 ^ 31) :
    stlBase64Decode (stlBase64Encode src).2 = ((src.length : ℤ), src) := by
  have hle := length_le_encode src
  have hsrc : src.length < 2 ^ 31 := Nat.lt_of_le_of_lt hle hlen
  rw [stlBase64Decode, stlBase64Encode, decode_encode, if_pos rfl, toInt_eq hsrc]

theorem decode_encode_eq_five :
    stlBase64Decode (stlBase64Encode [0, 255, 128, 61, 10]).2 = (5, [0, 255, 128, 61, 10]) :=
  decode_encode_eq [0, 255, 128, 61, 10] (by decide +kernel)

end KirinFS.Base64
