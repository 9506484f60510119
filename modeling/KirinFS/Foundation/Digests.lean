import KirinFS.Foundation.Blocks
import KirinFS.Foundation.Bytes

/-! # The digests MD5 and SHA-1

Both chain a state of 32-bit words through blocks of 64 bytes. The message is
padded, so that the last block ends with its length in bits.
-/

namespace KirinFS.Foundation.Digests
open Blocks Bytes

def zeros (n : ℕ) : List UInt8 := List.replicate n 0

@[simp] theorem length_zeros (n : ℕ) : (zeros n).length = n := List.length_replicate

theorem zeros_add (n k : ℕ) : zeros (n + k) = zeros n ++ zeros k :=
  List.replicate_add _ _ _

/-- What is appended to a message of `n` bytes: a one, zeros up to eight bytes before the end of a
block, and the number of bits. -/
def padding (lengthBytes : BitVec 64 → List UInt8) (n : ℕ) : List UInt8 :=
  0x80 :: zeros ((119 - n % 64) % 64) ++ lengthBytes (BitVec.ofNat 64 (8 * n))

/-- The state after the blocks of a whole message with its padding. -/
def chain {σ : Type} (block : σ → List UInt8 → σ) (lengthBytes : BitVec 64 → List UInt8)
    (init : σ) (msg : List UInt8) : σ :=
  let padded := msg ++ padding lengthBytes msg.length
  (List.range (padded.length / 64)).foldl (fun s i => block s ((padded.drop (i * 64)).take 64)) init

theorem chain_eq_absorbAll {σ : Type} (block : σ → List UInt8 → σ)
    (lengthBytes : BitVec 64 → List UInt8) (init : σ) (msg : List UInt8) :
    chain block lengthBytes init msg =
      absorbAll 64 block init (msg ++ padding lengthBytes msg.length) := absorb_eq_foldl.symm

theorem chain_congr {σ : Type} {f g : σ → List UInt8 → σ} {lf lg : BitVec 64 → List UInt8}
    (hfg : ∀ s b, b.length = 64 → f s b = g s b) (hl : ∀ n, lf n = lg n) (init : σ)
    (msg : List UInt8) : chain f lf init msg = chain g lg init msg := by
  rw [chain_eq_absorbAll, chain_eq_absorbAll, padding, padding, hl]
  exact absorbAll_congr hfg

def hexDigit (n : ℕ) : UInt8 := UInt8.ofNat (if n < 10 then 48 + n else 87 + n)

/-- Lower-case hexadecimal digits, two for each byte. -/
def hex (bytes : List UInt8) : List UInt8 :=
  bytes.flatMap fun b => [hexDigit (b.toNat / 16), hexDigit (b.toNat % 16)]

namespace Md5

structure Words where
  a : BitVec 32
  b : BitVec 32
  c : BitVec 32
  d : BitVec 32
deriving DecidableEq, Repr

def init : Words := ⟨0x67452301, 0xefcdab89, 0x98badcfe, 0x10325476⟩

def F (x y z : BitVec 32) : BitVec 32 := (x &&& y) ||| (~~~x &&& z)

def G (x y z : BitVec 32) : BitVec 32 := (x &&& z) ||| (y &&& ~~~z)

def H (x y z : BitVec 32) : BitVec 32 := x ^^^ y ^^^ z

def I (x y z : BitVec 32) : BitVec 32 := y ^^^ (x ||| ~~~z)

/-- The integer parts of `4294967296 * |sin i|` for `i` from 1 to 64. -/
def table : List (BitVec 32) :=
  [0xd76aa478, 0xe8c7b756, 0x242070db, 0xc1bdceee, 0xf57c0faf, 0x4787c62a, 0xa8304613, 0xfd469501,
    0x698098d8, 0x8b44f7af, 0xffff5bb1, 0x895cd7be, 0x6b901122, 0xfd987193, 0xa679438e, 0x49b40821,
    0xf61e2562, 0xc040b340, 0x265e5a51, 0xe9b6c7aa, 0xd62f105d, 0x02441453, 0xd8a1e681, 0xe7d3fbc8,
    0x21e1cde6, 0xc33707d6, 0xf4d50d87, 0x455a14ed, 0xa9e3e905, 0xfcefa3f8, 0x676f02d9, 0x8d2a4c8a,
    0xfffa3942, 0x8771f681, 0x6d9d6122, 0xfde5380c, 0xa4beea44, 0x4bdecfa9, 0xf6bb4b60, 0xbebfbc70,
    0x289b7ec6, 0xeaa127fa, 0xd4ef3085, 0x04881d05, 0xd9d4d039, 0xe6db99e5, 0x1fa27cf8, 0xc4ac5665,
    0xf4292244, 0x432aff97, 0xab9423a7, 0xfc93a039, 0x655b59c3, 0x8f0ccc92, 0xffeff47d, 0x85845dd1,
    0x6fa87e4f, 0xfe2ce6e0, 0xa3014314, 0x4e0811a1, 0xf7537e82, 0xbd3af235, 0x2ad7d2bb, 0xeb86d391]

def mix : (r : ℕ) → BitVec 32 → BitVec 32 → BitVec 32 → BitVec 32
  | 0 => F
  | 1 => G
  | 2 => H
  | _ => I

def index (i : ℕ) : ℕ :=
  match i / 16 with
  | 0 => i % 16
  | 1 => (1 + 5 * i) % 16
  | 2 => (5 + 3 * i) % 16
  | _ => 7 * i % 16

/-- The rotations of the operations, round by round. -/
def rotations : List (List ℕ) := [[7, 12, 17, 22], [5, 9, 14, 20], [4, 11, 16, 23], [6, 10, 15, 21]]

def rotation (i : ℕ) : ℕ := (rotations.getD (i / 16) []).getD (i % 4) 0

/-- Operation `i`. The words change places afterwards. -/
def operation (x : ℕ → BitVec 32) (v : Words) (i : ℕ) : Words where
  a := v.d
  b := v.b + (v.a + mix (i / 16) v.b v.c v.d + x (index i) + table.getD i 0).rotateLeft (rotation i)
  c := v.b
  d := v.c

def word (p : List UInt8) (n : ℕ) : BitVec 32 := BitVec.ofNat 32 (ofBytes ((p.drop (4 * n)).take 4))

def block (v : Words) (p : List UInt8) : Words :=
  let w := (List.range 64).foldl (operation (word p)) v
  ⟨w.a + v.a, w.b + v.b, w.c + v.c, w.d + v.d⟩

def lengthBytes (n : BitVec 64) : List UInt8 := toBytes 8 n.toNat

def output (v : Words) : List UInt8 :=
  [v.a, v.b, v.c, v.d].flatMap fun w => toBytes 4 w.toNat

def digest (msg : List UInt8) : List UInt8 := output (chain block lengthBytes init msg)

/-- The message `abc`. -/
example : digest [0x61, 0x62, 0x63] = [0x90, 0x01, 0x50, 0x98, 0x3c, 0xd2, 0x4f, 0xb0,
    0xd6, 0x96, 0x3f, 0x7d, 0x28, 0xe1, 0x7f, 0x72] := by decide +kernel

end Md5

namespace Sha1

structure Words where
  a : BitVec 32
  b : BitVec 32
  c : BitVec 32
  d : BitVec 32
  e : BitVec 32
deriving DecidableEq, Repr

def init : Words := ⟨0x67452301, 0xefcdab89, 0x98badcfe, 0x10325476, 0xc3d2e1f0⟩

def Ch (x y z : BitVec 32) : BitVec 32 := (x &&& y) ^^^ (~~~x &&& z)

def Parity (x y z : BitVec 32) : BitVec 32 := x ^^^ y ^^^ z

def Maj (x y z : BitVec 32) : BitVec 32 := (x &&& y) ^^^ (x &&& z) ^^^ (y &&& z)

def mix (t : ℕ) : BitVec 32 → BitVec 32 → BitVec 32 → BitVec 32 :=
  if t < 20 then Ch else if t < 40 then Parity else if t < 60 then Maj else Parity

def constant (t : ℕ) : BitVec 32 :=
  if t < 20 then 0x5a827999 else if t < 40 then 0x6ed9eba1
  else if t < 60 then 0x8f1bbcdc else 0xca62c1d6

def word (p : List UInt8) (n : ℕ) : BitVec 32 :=
  BitVec.ofNat 32 (ofBytes ((p.drop (4 * n)).take 4).reverse)

def schedule (x : ℕ → BitVec 32) (t : ℕ) : BitVec 32 :=
  if t < 16 then x t
  else
    (schedule x (t - 3) ^^^ schedule x (t - 8) ^^^ schedule x (t - 14) ^^^
      schedule x (t - 16)).rotateLeft 1
termination_by t

def round (w : ℕ → BitVec 32) (v : Words) (t : ℕ) : Words where
  a := v.a.rotateLeft 5 + mix t v.b v.c v.d + v.e + constant t + w t
  b := v.a
  c := v.b.rotateLeft 30
  d := v.c
  e := v.d

def block (v : Words) (p : List UInt8) : Words :=
  let w := (List.range 80).foldl (round (schedule (word p))) v
  ⟨w.a + v.a, w.b + v.b, w.c + v.c, w.d + v.d, w.e + v.e⟩

def lengthBytes (n : BitVec 64) : List UInt8 := (toBytes 8 n.toNat).reverse

def output (v : Words) : List UInt8 :=
  [v.a, v.b, v.c, v.d, v.e].flatMap fun w => (toBytes 4 w.toNat).reverse

def digest (msg : List UInt8) : List UInt8 := output (chain block lengthBytes init msg)

end Sha1

end KirinFS.Foundation.Digests
