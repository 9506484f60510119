import Mathlib.Algebra.Group.Nat.Defs
import Mathlib.Data.List.GetD
import Mathlib.Data.Nat.Notation
import Mathlib.Tactic.NormNum

/-! # Numbers as little-endian bytes -/

namespace KirinFS.Foundation.Bytes

/-- The number that the bytes stand for, the lowest byte first. -/
def ofBytes : List UInt8 → ℕ
  | [] => 0
  | b :: bs => b.toNat + 256 * ofBytes bs

def toBytes : (k n : ℕ) → List UInt8
  | 0, _ => []
  | k + 1, n => UInt8.ofNat n :: toBytes k (n / 256)

@[simp] theorem toBytes_length (k n : ℕ) : (toBytes k n).length = k := by
  induction k generalizing n with
  | zero => rfl
  | succ k ih => rw [toBytes, List.length_cons, ih]

theorem ofBytes_lt (l : List UInt8) : ofBytes l < 256 ^ l.length := by
  induction l with
  | nil => exact Nat.one_pos
  | cons b l ih =>
    have hb : b.toNat < 256 := b.toNat_lt
    rw [ofBytes, List.length_cons, pow_succ']
    omega

theorem ofBytes_append (l m : List UInt8) :
    ofBytes (l ++ m) = ofBytes l + 256 ^ l.length * ofBytes m := by
  induction l with
  | nil => rw [List.nil_append, ofBytes, List.length_nil, pow_zero, Nat.zero_add, Nat.one_mul]
  | cons b l ih =>
    rw [List.cons_append, ofBytes, ofBytes, ih, List.length_cons, pow_succ', Nat.mul_add,
      Nat.mul_assoc, Nat.add_assoc]

theorem ofBytes_take (l : List UInt8) (k : ℕ) : ofBytes (l.take k) = ofBytes l % 256 ^ k := by
  rcases Nat.le_total k l.length with hk | hk
  · have hlt := ofBytes_lt (l.take k)
    rw [List.length_take_of_le hk] at hlt
    conv_rhs => rw [← List.take_append_drop k l]
    rw [ofBytes_append, List.length_take_of_le hk, Nat.add_mul_mod_self_left,
      Nat.mod_eq_of_lt hlt]
  · have hlt := Nat.lt_of_lt_of_le (ofBytes_lt l) (Nat.pow_le_pow_right (by decide) hk)
    rw [List.take_of_length_le hk, Nat.mod_eq_of_lt hlt]

theorem ofBytes_toBytes (k n : ℕ) : ofBytes (toBytes k n) = n % 256 ^ k := by
  induction k generalizing n with
  | zero => rw [toBytes, ofBytes, pow_zero, Nat.mod_one]
  | succ k ih =>
    rw [toBytes, ofBytes, ih, pow_succ', Nat.mod_mul]
    rfl

theorem ofBytes_word {w k : ℕ} (v : BitVec w) (h : 2 ^ w = 256 ^ k) :
    BitVec.ofNat w (ofBytes (toBytes k v.toNat)) = v := by
  rw [ofBytes_toBytes, ← h, Nat.mod_eq_of_lt v.isLt, BitVec.ofNat_toNat, BitVec.setWidth_eq]

/-- As many bytes stand for one number only if they are the same. -/
theorem ofBytes_inj {l m : List UInt8} (hlen : l.length = m.length)
    (h : ofBytes l = ofBytes m) : l = m := by
  induction l generalizing m with
  | nil => exact (List.length_eq_zero_iff.mp hlen.symm).symm
  | cons b l ih =>
    cases m with
    | nil => cases hlen
    | cons c m =>
      rw [ofBytes, ofBytes] at h
      have hb := b.toNat_lt
      have hc := c.toNat_lt
      have hlow : b = c := UInt8.toNat_inj.mp (by omega)
      have hhigh := ih (Nat.succ.inj hlen) (by omega)
      rw [hlow, hhigh]

def field (off k : ℕ) (l : List UInt8) : ℕ := ofBytes ((l.drop off).take k)

theorem ofBytes_zeros (j : ℕ) : ofBytes (List.replicate j 0) = 0 := by
  induction j with
  | zero => rfl
  | succ j ih =>
    rw [List.replicate_succ, ofBytes, ih]
    rfl

theorem ofBytes_append_zeros (l : List UInt8) (j : ℕ) :
    ofBytes (l ++ List.replicate j 0) = ofBytes l := by
  induction l with
  | nil => exact ofBytes_zeros j
  | cons b l ih => rw [List.cons_append, ofBytes, ofBytes, ih]

theorem take_toBytes (n k v : ℕ) : (toBytes k v).take n = toBytes (min n k) v := by
  induction k generalizing n v with
  | zero => simp [toBytes]
  | succ k ih =>
    cases n with
    | zero => simp [toBytes]
    | succ n => rw [toBytes, List.take_succ_cons, ih, Nat.succ_min_succ, toBytes]

/-- A number of which only the bytes before `n` have been copied onto zeros. -/
theorem field_copied (pre post : List UInt8) (k v n j : ℕ) :
    field pre.length k ((pre ++ (toBytes k v ++ post)).take n ++ List.replicate j 0) =
      v % 256 ^ min (n - pre.length) k := by
  rw [field]
  rcases Nat.le_total n pre.length with hn | hn
  · have hgap : n - pre.length = 0 := Nat.sub_eq_zero_of_le hn
    rw [hgap, Nat.zero_min, pow_zero, Nat.mod_one, List.take_append_of_le_length hn,
      List.drop_append, List.drop_eq_nil_of_le ((List.length_take_le n pre).trans hn),
      List.nil_append, List.drop_replicate, List.take_replicate, ofBytes_zeros]
  · have hcut : (pre ++ (toBytes k v ++ post)).take n =
        pre ++ (toBytes k v ++ post).take (n - pre.length) := by
      rw [List.take_append, List.take_of_length_le hn]
    rw [hcut, List.append_assoc, List.drop_left]
    rcases Nat.le_total (n - pre.length) k with hk | hk
    · have hpart : (toBytes k v ++ post).take (n - pre.length) = toBytes (n - pre.length) v := by
        rw [List.take_append_of_le_length (by rwa [toBytes_length]), take_toBytes,
          Nat.min_eq_left hk]
      rw [hpart, List.take_append, List.take_of_length_le (by rwa [toBytes_length]),
        toBytes_length, List.take_replicate, ofBytes_append_zeros, ofBytes_toBytes,
        Nat.min_eq_left hk]
    · have hall : (toBytes k v ++ post).take (n - pre.length) =
          toBytes k v ++ post.take (n - pre.length - k) := by
        rw [List.take_append, List.take_of_length_le (by rwa [toBytes_length]), toBytes_length]
      rw [hall, List.append_assoc, List.take_left' (toBytes_length k v), ofBytes_toBytes,
        Nat.min_eq_right hk]

theorem ofBytes_cons_or (b : UInt8) (bs : List UInt8) :
    ofBytes (b :: bs) = b.toNat ||| ofBytes bs <<< 8 := by
  have h := Nat.two_pow_add_eq_or_of_lt (i := 8) b.toNat_lt (ofBytes bs)
  rw [Nat.or_comm, Nat.shiftLeft_eq, Nat.mul_comm, ← h, Nat.add_comm, ofBytes]

theorem ofNat_ofBytes_four (a b c d : UInt8) : BitVec.ofNat 32 (ofBytes [a, b, c, d]) =
    a.toBitVec.setWidth 32 ||| b.toBitVec.setWidth 32 <<< 8 ||| c.toBitVec.setWidth 32 <<< 16 |||
      d.toBitVec.setWidth 32 <<< 24 := by
  have small : ∀ (x : UInt8) (k : ℕ), k ≤ 24 →
      (x.toBitVec.setWidth 32 <<< k).toNat = x.toNat <<< k := by
    intro x k hk
    have hx := x.toNat_lt
    have hlt : x.toNat <<< k < 2 ^ 32 := by
      rw [Nat.shiftLeft_eq]
      calc x.toNat * 2 ^ k < 2 ^ 8 * 2 ^ k := by
            apply Nat.mul_lt_mul_of_pos_right hx (Nat.two_pow_pos k)
        _ ≤ 2 ^ 8 * 2 ^ 24 := Nat.mul_le_mul_left _ (Nat.pow_le_pow_right (by omega) hk)
        _ = 2 ^ 32 := by norm_num
    have hsmall : x.toNat % 2 ^ 32 = x.toNat := Nat.mod_eq_of_lt (by omega)
    rw [BitVec.toNat_shiftLeft, BitVec.toNat_setWidth, UInt8.toNat_toBitVec, hsmall,
      Nat.mod_eq_of_lt hlt]
  have hval : ofBytes [a, b, c, d] = (a.toBitVec.setWidth 32 ||| b.toBitVec.setWidth 32 <<< 8 |||
      c.toBitVec.setWidth 32 <<< 16 ||| d.toBitVec.setWidth 32 <<< 24).toNat := by
    have ha := small a 0 (by omega)
    rw [BitVec.shiftLeft_zero, Nat.shiftLeft_zero] at ha
    rw [BitVec.toNat_or, BitVec.toNat_or, BitVec.toNat_or, small b 8 (by omega),
      small c 16 (by omega), small d 24 (by omega), ha]
    simp only [ofBytes_cons_or, Nat.shiftLeft_or_distrib, ← Nat.shiftLeft_add, Nat.or_assoc]
    simp [ofBytes]
  rw [hval, BitVec.ofNat_toNat, BitVec.setWidth_eq]

theorem take_four {p : List UInt8} {n : ℕ} (h : 4 * n + 4 ≤ p.length) : (p.drop (4 * n)).take 4 =
    [p.getD (n * 4) 0, p.getD (n * 4 + 1) 0, p.getD (n * 4 + 2) 0, p.getD (n * 4 + 3) 0] := by
  apply List.ext_getElem
  · simp only [List.length_take, List.length_drop, List.length_cons, List.length_nil]
    omega
  · intro i _ hi
    have hi : i < 4 := hi
    rw [List.getElem_take, List.getElem_drop]
    have h₀ : 4 * n < p.length := by omega
    have h₁ : 4 * n + 1 < p.length := by omega
    have h₂ : 4 * n + 2 < p.length := by omega
    have h₃ : 4 * n + 3 < p.length := by omega
    rw [Nat.mul_comm n]
    obtain rfl | rfl | rfl | rfl : i = 0 ∨ i = 1 ∨ i = 2 ∨ i = 3 := by omega
    · exact (List.getD_eq_getElem p 0 h₀).symm
    · exact (List.getD_eq_getElem p 0 h₁).symm
    · exact (List.getD_eq_getElem p 0 h₂).symm
    · exact (List.getD_eq_getElem p 0 h₃).symm

theorem toBytes_eq_map {w : ℕ} (v : BitVec w) (k : ℕ) : toBytes k v.toNat =
    (List.range k).map fun i => UInt8.ofBitVec ((v >>> (8 * i)).setWidth 8) := by
  induction k generalizing v with
  | zero => rfl
  | succ k ih =>
    have hdiv : v.toNat / 256 = (v >>> 8).toNat := by
      rw [BitVec.toNat_ushiftRight, Nat.shiftRight_eq_div_pow]
    have hlow : UInt8.ofNat v.toNat = UInt8.ofBitVec (v.setWidth 8) := by
      apply UInt8.toNat.inj
      rw [UInt8.toNat_ofNat', UInt8.toNat_ofBitVec, BitVec.toNat_setWidth]
    rw [toBytes, hdiv, ih, List.range_succ_eq_map, List.map_cons, List.map_map, hlow]
    congr 1
    apply List.map_congr_left
    intro i _
    rw [Function.comp_apply, ← BitVec.shiftRight_add, Nat.mul_succ, Nat.add_comm]
end KirinFS.Foundation.Bytes
