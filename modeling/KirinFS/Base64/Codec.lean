import KirinFS.Foundation.CString
import Mathlib.Algebra.Group.Nat.Defs

/-! # Encoding and decoding base64

The code works through groups of three bytes and four characters with a shift
register. What is written to `dst` is the list of its bytes.
-/

namespace KirinFS.Base64
open Foundation.CString

def base64Chars : List UInt8 :=
  ['A', 'B', 'C', 'D', 'E', 'F', 'G', 'H', 'I', 'J', 'K', 'L', 'M', 'N', 'O', 'P',
    'Q', 'R', 'S', 'T', 'U', 'V', 'W', 'X', 'Y', 'Z', 'a', 'b', 'c', 'd', 'e', 'f',
    'g', 'h', 'i', 'j', 'k', 'l', 'm', 'n', 'o', 'p', 'q', 'r', 's', 't', 'u', 'v',
    'w', 'x', 'y', 'z', '0', '1', '2', '3', '4', '5', '6', '7', '8', '9', '+', '/'].map chr

def base64 (v : ℕ) : UInt8 := base64Chars.getD v 0

def b64lookup : List ℤ :=
  [-1, -1, -1, -1, -1, -1, -1, -1, -1, -1, -1, -1, -1, -1, -1, -1,
    -1, -1, -1, -1, -1, -1, -1, -1, -1, -1, -1, -1, -1, -1, -1, -1,
    -1, -1, -1, -1, -1, -1, -1, -1, -1, -1, -1, 62, -1, -1, -1, 63,
    52, 53, 54, 55, 56, 57, 58, 59, 60, 61, -1, -1, -1, -1, -1, -1,
    -1, 0, 1, 2, 3, 4, 5, 6, 7, 8, 9, 10, 11, 12, 13, 14,
    15, 16, 17, 18, 19, 20, 21, 22, 23, 24, 25, -1, -1, -1, -1, -1,
    -1, 26, 27, 28, 29, 30, 31, 32, 33, 34, 35, 36, 37, 38, 39, 40,
    41, 42, 43, 44, 45, 46, 47, 48, 49, 50, 51, -1, -1, -1, -1, -1]

def toInt (n : ℕ) : ℤ := (BitVec.ofNat 32 n).toInt

/-- The loop of `stl_base64_encode` with its tail; `pos` goes down from 2. -/
def encodeFrom (pos buf : ℕ) : Str → Str
  | [] =>
    if pos ≠ 2 then
      [base64 (buf >>> 18 &&& 63), base64 (buf >>> 12 &&& 63),
        if pos = 0 then base64 (buf >>> 6 &&& 63) else chr '=', chr '=']
    else []
  | c :: s =>
    let buf := buf ||| c.toNat <<< (pos * 8)
    if pos = 0 then
      base64 (buf >>> 18 &&& 63) :: base64 (buf >>> 12 &&& 63) :: base64 (buf >>> 6 &&& 63) ::
        base64 (buf &&& 63) :: encodeFrom 2 0 s
    else encodeFrom (pos - 1) buf s

/-- The return value and what is written. -/
def stlBase64Encode (src : Str) : ℤ × Str :=
  (toInt (encodeFrom 2 0 src).length, encodeFrom 2 0 src)

/-- The value of a character that is neither a blank nor padding. -/
def symbolValue (c : UInt8) : ℤ :=
  if 0 < c ∧ c < 127 then b64lookup.getD c.toNat (-1) else -1

def isBlank (c : UInt8) : Bool := c = chr ' ' || c = chr '\t' || c = chr '\n' || c = chr '\r'

/-- How the register takes the next character: its value and the new `end`. -/
def decodeChar (pos fin : ℕ) (c : UInt8) : Option (ℕ × ℕ) :=
  if isBlank c then none
  else if c = chr '=' then
    if fin = 0 then
      if pos = 2 then some (0, 1) else if pos = 3 then some (0, 2) else none
    else some (0, fin)
  else if symbolValue c < 0 then none
  else some ((symbolValue c).toNat, fin)

def groupBytes (buf fin : ℕ) : Str :=
  UInt8.ofNat (buf >>> 16 &&& 255) ::
    ((if fin = 0 ∨ 1 < fin then [UInt8.ofNat (buf >>> 8 &&& 255)] else []) ++
      if fin = 0 ∨ 2 < fin then [UInt8.ofNat (buf &&& 255)] else [])

/-- The loop of `stl_base64_decode`: whether it comes to a good end, and what it writes. -/
def decodeFrom (buf pos fin : ℕ) : Str → Bool × Str
  | [] => (decide (pos = 0), [])
  | c :: s =>
    match decodeChar pos fin c with
    | none => (false, [])
    | some (b, fin) =>
      let buf := ((buf <<< 6) % 2 ^ 32 + b) % 2 ^ 32
      if pos + 1 = 4 then
        ((decodeFrom 0 0 fin s).1, groupBytes buf fin ++ (decodeFrom 0 0 fin s).2)
      else decodeFrom buf (pos + 1) fin s

/-- The return value and what is written. -/
def stlBase64Decode (src : Str) : ℤ × Str :=
  (if (decodeFrom 0 0 0 src).1 then toInt (decodeFrom 0 0 0 src).2.length else -1,
    (decodeFrom 0 0 0 src).2)

def isSymbol (c : UInt8) : Bool := base64Chars.contains c

/-- The tables are inverse to each other, and no letter is a blank or padding. -/
theorem base64_value : ∀ v < 64, isBlank (base64 v) = false ∧ base64 v ≠ chr '=' ∧
    symbolValue (base64 v) = v := by decide +kernel

theorem base64_symbolValue : ∀ n < 128, 0 ≤ b64lookup.getD n (-1) →
    (b64lookup.getD n (-1)).toNat < 64 ∧
      base64 (b64lookup.getD n (-1)).toNat = UInt8.ofNat n := by decide +kernel

theorem isSymbol_base64 {v : ℕ} (hv : v < 64) : isSymbol (base64 v) = true := by
  have hlen : v < base64Chars.length := hv
  have hget : base64 v = base64Chars[v] := (List.getElem_eq_getD 0).symm
  rw [hget]
  exact List.contains_iff_mem.mpr (List.getElem_mem hlen)

theorem isSymbol_iff (c : UInt8) : isSymbol c = true ↔ ∃ v < 64, c = base64 v := by
  constructor
  · intro h
    obtain ⟨v, hv, hc⟩ := List.getElem_of_mem (List.contains_iff_mem.mp h)
    exact ⟨v, hv, hc.symm.trans (List.getElem_eq_getD 0)⟩
  · rintro ⟨v, hv, rfl⟩
    exact isSymbol_base64 hv

theorem symbolValue_symbol (c : UInt8) : isSymbol c = true ↔ 0 ≤ symbolValue c := by
  rw [isSymbol_iff]
  constructor
  · rintro ⟨v, hv, rfl⟩
    rw [(base64_value v hv).2.2]
    exact Int.natCast_nonneg v
  · intro h
    by_cases hc : 0 < c ∧ c < 127
    · rw [symbolValue, if_pos hc] at h
      have hlt : c.toNat < 127 := UInt8.lt_iff_toNat_lt.mp hc.2
      obtain ⟨hv, hb⟩ := base64_symbolValue c.toNat (by omega) h
      rw [UInt8.ofNat_toNat] at hb
      exact ⟨_, hv, hb.symm⟩
    · rw [symbolValue, if_neg hc] at h
      omega

theorem isSymbol_ne {c : UInt8} (h : isSymbol c = true) : isBlank c = false ∧ c ≠ chr '=' := by
  obtain ⟨v, hv, rfl⟩ := (isSymbol_iff c).mp h
  exact ⟨(base64_value v hv).1, (base64_value v hv).2.1⟩

theorem toInt_eq {n : ℕ} (h : n < 2 ^ 31) : toInt n = n := by
  rw [toInt, BitVec.toInt_eq_toNat_cond, BitVec.toNat_ofNat, Nat.mod_eq_of_lt (by omega),
    if_pos (by omega)]

end KirinFS.Base64
