import KirinFS.Digest.Stream
import KirinFS.Foundation.CString

/-! # The MD5 of `stl_md5.c`

The rounds are written out with the four words under changing names. A line of
them is a record here, and what runs it is the macro `STEP`.
-/

namespace KirinFS.Digest.Md5
open Foundation.Blocks Foundation.Bytes Foundation.CString Foundation.Digests
open Foundation.Digests.Md5 (Words)

def F (x y z : BitVec 32) : BitVec 32 := z ^^^ (x &&& (y ^^^ z))

def G (x y z : BitVec 32) : BitVec 32 := y ^^^ (z &&& (x ^^^ y))

def H (x y z : BitVec 32) : BitVec 32 := x ^^^ y ^^^ z

def I (x y z : BitVec 32) : BitVec 32 := y ^^^ (x ||| ~~~z)

inductive Mix where
  | F
  | G
  | H
  | I
deriving DecidableEq

def Mix.apply : Mix → BitVec 32 → BitVec 32 → BitVec 32 → BitVec 32
  | .F => Md5.F
  | .G => Md5.G
  | .H => Md5.H
  | .I => Md5.I

inductive Var where
  | a
  | b
  | c
  | d
deriving DecidableEq

def Var.get (v : Words) : Var → BitVec 32
  | .a => v.a
  | .b => v.b
  | .c => v.c
  | .d => v.d

def Var.set (v : Words) (w : BitVec 32) : Var → Words
  | .a => { v with a := w }
  | .b => { v with b := w }
  | .c => { v with c := w }
  | .d => { v with d := w }

/-- The arguments of a line, with `GET(n)` or `SET(n)` as `n`. -/
structure Step where
  f : Mix
  a : Var
  b : Var
  c : Var
  d : Var
  n : ℕ
  t : BitVec 32
  s : ℕ
deriving DecidableEq

/-- `GET`, which reads the bytes of a word one by one. -/
def GET (p : List UInt8) (n : ℕ) : BitVec 32 :=
  let byte i := (p.getD i 0).toBitVec.setWidth 32
  byte (n * 4) ||| byte (n * 4 + 1) <<< 8 ||| byte (n * 4 + 2) <<< 16 ||| byte (n * 4 + 3) <<< 24

def STEP (p : List UInt8) (v : Words) (l : Step) : Words :=
  let a := l.a.get v + (l.f.apply (l.b.get v) (l.c.get v) (l.d.get v) + GET p l.n + l.t)
  let a := (a <<< l.s) ||| ((a &&& 0xffffffff) >>> (32 - l.s))
  l.a.set v (a + l.b.get v)

def round1 : List Step :=
  [⟨.F, .a, .b, .c, .d, 0, 0xd76aa478, 7⟩,
    ⟨.F, .d, .a, .b, .c, 1, 0xe8c7b756, 12⟩,
    ⟨.F, .c, .d, .a, .b, 2, 0x242070db, 17⟩,
    ⟨.F, .b, .c, .d, .a, 3, 0xc1bdceee, 22⟩,
    ⟨.F, .a, .b, .c, .d, 4, 0xf57c0faf, 7⟩,
    ⟨.F, .d, .a, .b, .c, 5, 0x4787c62a, 12⟩,
    ⟨.F, .c, .d, .a, .b, 6, 0xa8304613, 17⟩,
    ⟨.F, .b, .c, .d, .a, 7, 0xfd469501, 22⟩,
    ⟨.F, .a, .b, .c, .d, 8, 0x698098d8, 7⟩,
    ⟨.F, .d, .a, .b, .c, 9, 0x8b44f7af, 12⟩,
    ⟨.F, .c, .d, .a, .b, 10, 0xffff5bb1, 17⟩,
    ⟨.F, .b, .c, .d, .a, 11, 0x895cd7be, 22⟩,
    ⟨.F, .a, .b, .c, .d, 12, 0x6b901122, 7⟩,
    ⟨.F, .d, .a, .b, .c, 13, 0xfd987193, 12⟩,
    ⟨.F, .c, .d, .a, .b, 14, 0xa679438e, 17⟩,
    ⟨.F, .b, .c, .d, .a, 15, 0x49b40821, 22⟩]

def round2 : List Step :=
  [⟨.G, .a, .b, .c, .d, 1, 0xf61e2562, 5⟩,
    ⟨.G, .d, .a, .b, .c, 6, 0xc040b340, 9⟩,
    ⟨.G, .c, .d, .a, .b, 11, 0x265e5a51, 14⟩,
    ⟨.G, .b, .c, .d, .a, 0, 0xe9b6c7aa, 20⟩,
    ⟨.G, .a, .b, .c, .d, 5, 0xd62f105d, 5⟩,
    ⟨.G, .d, .a, .b, .c, 10, 0x02441453, 9⟩,
    ⟨.G, .c, .d, .a, .b, 15, 0xd8a1e681, 14⟩,
    ⟨.G, .b, .c, .d, .a, 4, 0xe7d3fbc8, 20⟩,
    ⟨.G, .a, .b, .c, .d, 9, 0x21e1cde6, 5⟩,
    ⟨.G, .d, .a, .b, .c, 14, 0xc33707d6, 9⟩,
    ⟨.G, .c, .d, .a, .b, 3, 0xf4d50d87, 14⟩,
    ⟨.G, .b, .c, .d, .a, 8, 0x455a14ed, 20⟩,
    ⟨.G, .a, .b, .c, .d, 13, 0xa9e3e905, 5⟩,
    ⟨.G, .d, .a, .b, .c, 2, 0xfcefa3f8, 9⟩,
    ⟨.G, .c, .d, .a, .b, 7, 0x676f02d9, 14⟩,
    ⟨.G, .b, .c, .d, .a, 12, 0x8d2a4c8a, 20⟩]

def round3 : List Step :=
  [⟨.H, .a, .b, .c, .d, 5, 0xfffa3942, 4⟩,
    ⟨.H, .d, .a, .b, .c, 8, 0x8771f681, 11⟩,
    ⟨.H, .c, .d, .a, .b, 11, 0x6d9d6122, 16⟩,
    ⟨.H, .b, .c, .d, .a, 14, 0xfde5380c, 23⟩,
    ⟨.H, .a, .b, .c, .d, 1, 0xa4beea44, 4⟩,
    ⟨.H, .d, .a, .b, .c, 4, 0x4bdecfa9, 11⟩,
    ⟨.H, .c, .d, .a, .b, 7, 0xf6bb4b60, 16⟩,
    ⟨.H, .b, .c, .d, .a, 10, 0xbebfbc70, 23⟩,
    ⟨.H, .a, .b, .c, .d, 13, 0x289b7ec6, 4⟩,
    ⟨.H, .d, .a, .b, .c, 0, 0xeaa127fa, 11⟩,
    ⟨.H, .c, .d, .a, .b, 3, 0xd4ef3085, 16⟩,
    ⟨.H, .b, .c, .d, .a, 6, 0x04881d05, 23⟩,
    ⟨.H, .a, .b, .c, .d, 9, 0xd9d4d039, 4⟩,
    ⟨.H, .d, .a, .b, .c, 12, 0xe6db99e5, 11⟩,
    ⟨.H, .c, .d, .a, .b, 15, 0x1fa27cf8, 16⟩,
    ⟨.H, .b, .c, .d, .a, 2, 0xc4ac5665, 23⟩]

def round4 : List Step :=
  [⟨.I, .a, .b, .c, .d, 0, 0xf4292244, 6⟩,
    ⟨.I, .d, .a, .b, .c, 7, 0x432aff97, 10⟩,
    ⟨.I, .c, .d, .a, .b, 14, 0xab9423a7, 15⟩,
    ⟨.I, .b, .c, .d, .a, 5, 0xfc93a039, 21⟩,
    ⟨.I, .a, .b, .c, .d, 12, 0x655b59c3, 6⟩,
    ⟨.I, .d, .a, .b, .c, 3, 0x8f0ccc92, 10⟩,
    ⟨.I, .c, .d, .a, .b, 10, 0xffeff47d, 15⟩,
    ⟨.I, .b, .c, .d, .a, 1, 0x85845dd1, 21⟩,
    ⟨.I, .a, .b, .c, .d, 8, 0x6fa87e4f, 6⟩,
    ⟨.I, .d, .a, .b, .c, 15, 0xfe2ce6e0, 10⟩,
    ⟨.I, .c, .d, .a, .b, 6, 0xa3014314, 15⟩,
    ⟨.I, .b, .c, .d, .a, 13, 0x4e0811a1, 21⟩,
    ⟨.I, .a, .b, .c, .d, 4, 0xf7537e82, 6⟩,
    ⟨.I, .d, .a, .b, .c, 11, 0xbd3af235, 10⟩,
    ⟨.I, .c, .d, .a, .b, 2, 0x2ad7d2bb, 15⟩,
    ⟨.I, .b, .c, .d, .a, 9, 0xeb86d391, 21⟩]

/-- One turn of the loop of `stl_md5_body`. -/
def block (saved : Words) (p : List UInt8) : Words :=
  let v := (round1 ++ round2 ++ round3 ++ round4).foldl (STEP p) saved
  ⟨v.a + saved.a, v.b + saved.b, v.c + saved.c, v.d + saved.d⟩

def stlMd5Init : Context Words where
  bytes := 0
  state := ⟨0x67452301, 0xefcdab89, 0x98badcfe, 0x10325476⟩
  buffer := zeros 64

def stlMd5Compute (ctx : Context Words) (data : List UInt8) : Context Words :=
  ctx.update block data

/-- What goes to `buffer[56]` and the bytes behind it. -/
def countBytes (bytes : BitVec 64) : List UInt8 :=
  [uchar bytes, uchar (bytes >>> 8), uchar (bytes >>> 16), uchar (bytes >>> 24),
    uchar (bytes >>> 32), uchar (bytes >>> 40), uchar (bytes >>> 48), uchar (bytes >>> 56)]

def wordBytes (w : BitVec 32) : List UInt8 :=
  [uchar w, uchar (w >>> 8), uchar (w >>> 16), uchar (w >>> 24)]

def sprintf02x (b : UInt8) : List UInt8 :=
  let digits := (Nat.toDigits 16 b.toNat).map chr
  List.replicate (2 - digits.length) (chr '0') ++ digits

/-- `stl_md5_checksum`: what it stores from `result` on, 33 bytes in all. -/
def stlMd5Checksum (ctx : Context Words) : List UInt8 :=
  let v := (ctx.finish block countBytes).state
  let temp := wordBytes v.a ++ wordBytes v.b ++ wordBytes v.c ++ wordBytes v.d
  (List.range 16).foldl
    (fun result i => result.take (i * 2) ++ sprintf02x (temp.getD i 0) ++ [0]) []

/-- The line that operation `i` of the standard amounts to. -/
def line (i : ℕ) : Step where
  f := match i / 16 with
    | 0 => .F
    | 1 => .G
    | 2 => .H
    | _ => .I
  a := match i % 4 with
    | 0 => .a
    | 1 => .d
    | 2 => .c
    | _ => .b
  b := match i % 4 with
    | 0 => .b
    | 1 => .a
    | 2 => .d
    | _ => .c
  c := match i % 4 with
    | 0 => .c
    | 1 => .b
    | 2 => .a
    | _ => .d
  d := match i % 4 with
    | 0 => .d
    | 1 => .c
    | 2 => .b
    | _ => .a
  n := Foundation.Digests.Md5.index i
  t := Foundation.Digests.Md5.table.getD i 0
  s := Foundation.Digests.Md5.rotation i

theorem rounds_eq : round1 ++ round2 ++ round3 ++ round4 = (List.range 64).map line := by
  decide

theorem F_eq (x y z : BitVec 32) : F x y z = Foundation.Digests.Md5.F x y z := by
  apply BitVec.eq_of_getLsbD_eq
  intro i hi
  simp only [F, Foundation.Digests.Md5.F, BitVec.getLsbD_xor, BitVec.getLsbD_and,
    BitVec.getLsbD_or, BitVec.getLsbD_not, hi]
  cases x.getLsbD i <;> cases y.getLsbD i <;> cases z.getLsbD i <;> rfl

theorem G_eq (x y z : BitVec 32) : G x y z = Foundation.Digests.Md5.G x y z := by
  apply BitVec.eq_of_getLsbD_eq
  intro i hi
  simp only [G, Foundation.Digests.Md5.G, BitVec.getLsbD_xor, BitVec.getLsbD_and,
    BitVec.getLsbD_or, BitVec.getLsbD_not, hi]
  cases x.getLsbD i <;> cases y.getLsbD i <;> cases z.getLsbD i <;> rfl

theorem rotate_eq (a : BitVec 32) {s : ℕ} (hs : s < 32) :
    (a <<< s) ||| ((a &&& 0xffffffff) >>> (32 - s)) = a.rotateLeft s := by
  have hmask : a &&& 0xffffffff = a := BitVec.and_allOnes
  rw [hmask, BitVec.rotateLeft_def, Nat.mod_eq_of_lt hs]

theorem GET_eq {p : List UInt8} {n : ℕ} (hp : p.length = 64) (hn : n < 16) :
    GET p n = Foundation.Digests.Md5.word p n := by
  rw [Foundation.Digests.Md5.word, take_four (by omega), ofNat_ofBytes_four]
  rfl

theorem apply_eq (i : ℕ) (x y z : BitVec 32) :
    (line i).f.apply x y z = Foundation.Digests.Md5.mix (i / 16) x y z := by
  rw [line]
  match i / 16 with
  | 0 => exact F_eq x y z
  | 1 => exact G_eq x y z
  | 2 => rfl
  | _ + 3 => rfl

/-- The variables in the order in which line `i` names them. -/
def view (i : ℕ) (v : Words) : Words :=
  ⟨(line i).a.get v, (line i).b.get v, (line i).c.get v, (line i).d.get v⟩

/-- Renaming the variables from line to line is the exchange of places of the standard. -/
theorem view_set (i : ℕ) (v : Words) (w : BitVec 32) : view (i + 1) ((line i).a.set v w) =
    ⟨(line i).d.get v, w, (line i).b.get v, (line i).c.get v⟩ := by
  obtain h | h | h | h : i % 4 = 0 ∨ i % 4 = 1 ∨ i % 4 = 2 ∨ i % 4 = 3 := by omega
  · have h' : (i + 1) % 4 = 1 := by omega
    simp only [view, line, h, h']
    rfl
  · have h' : (i + 1) % 4 = 2 := by omega
    simp only [view, line, h, h']
    rfl
  · have h' : (i + 1) % 4 = 3 := by omega
    simp only [view, line, h, h']
    rfl
  · have h' : (i + 1) % 4 = 0 := by omega
    simp only [view, line, h, h']
    rfl

theorem index_lt (i : ℕ) : Foundation.Digests.Md5.index i < 16 := by
  rw [Foundation.Digests.Md5.index]
  split <;> omega

theorem rotation_lt : ∀ i < 64, Foundation.Digests.Md5.rotation i < 32 := by decide

variable {p : List UInt8}

theorem STEP_eq (hp : p.length = 64) {i : ℕ} (hi : i < 64) (v : Words) :
    view (i + 1) (STEP p v (line i)) =
      Foundation.Digests.Md5.operation (Foundation.Digests.Md5.word p) (view i v) i := by
  have hs : (line i).s < 32 := rotation_lt i hi
  have hget : GET p (line i).n = Foundation.Digests.Md5.word p (Foundation.Digests.Md5.index i) :=
    GET_eq hp (index_lt i)
  rw [STEP, rotate_eq _ hs, view_set, apply_eq, hget, BitVec.add_comm _ ((line i).b.get v),
    ← BitVec.add_assoc, ← BitVec.add_assoc]
  rfl

theorem steps_eq (hp : p.length = 64) {n : ℕ} (hn : n ≤ 64) (v : Words) :
    view n (((List.range n).map line).foldl (STEP p) v) =
      (List.range n).foldl (Foundation.Digests.Md5.operation (Foundation.Digests.Md5.word p)) v := by
  induction n with
  | zero => rfl
  | succ n ih =>
    rw [List.range_succ, List.map_append, List.foldl_append, List.foldl_append, ← ih (by omega)]
    exact STEP_eq hp (by omega) _

theorem block_eq (saved : Words) (hp : p.length = 64) :
    block saved p = Foundation.Digests.Md5.block saved p := by
  have h := steps_eq hp le_rfl saved
  rw [← rounds_eq] at h
  rw [block, Foundation.Digests.Md5.block, ← h]
  generalize (round1 ++ round2 ++ round3 ++ round4).foldl (STEP p) saved = v
  rfl

theorem countBytes_eq (n : BitVec 64) : countBytes n = Foundation.Digests.Md5.lengthBytes n := by
  rw [Foundation.Digests.Md5.lengthBytes, toBytes_eq_map]
  simp [List.range_succ, countBytes, uchar]

theorem wordBytes_eq (w : BitVec 32) : wordBytes w = toBytes 4 w.toNat := by
  rw [toBytes_eq_map]
  simp [List.range_succ, wordBytes, uchar]

theorem sprintf02x_eq (b : UInt8) :
    sprintf02x b = [hexDigit (b.toNat / 16), hexDigit (b.toNat % 16)] := by
  have h : ∀ n : Fin 256, sprintf02x (UInt8.ofNat n) =
      [hexDigit (n / 16), hexDigit (n % 16)] := by decide +kernel
  have hb := h ⟨b.toNat, b.toNat_lt⟩
  rwa [UInt8.ofNat_toNat] at hb

/-- The digits that the loop of `stl_md5_checksum` has written. -/
theorem printed {temp : List UInt8} {n : ℕ} (hn : n < temp.length) :
    (List.range (n + 1)).foldl
      (fun result i => result.take (i * 2) ++ sprintf02x (temp.getD i 0) ++ [0]) [] =
      hex (temp.take (n + 1)) ++ [0] := by
  induction n with
  | zero =>
    cases temp with
    | nil => cases hn
    | cons b temp => simp [List.range_succ, hex, sprintf02x_eq]
  | succ n ih =>
    have hlen : (hex (temp.take (n + 1))).length = (n + 1) * 2 := by
      simp [hex, List.length_flatMap]
      omega
    have htake : temp.take (n + 1 + 1) = temp.take (n + 1) ++ [temp.getD (n + 1) 0] := by
      rw [List.take_succ_eq_append_getElem hn, List.getD_eq_getElem _ _ hn]
    rw [List.range_succ, List.foldl_append, ih (by omega), htake, List.foldl_cons, List.foldl_nil,
      ← hlen, List.take_left, sprintf02x_eq]
    simp [hex]

theorem checksum_eq (ctx : Context Words) : stlMd5Checksum ctx =
    hex (Foundation.Digests.Md5.output (ctx.finish block countBytes).state) ++ [0] := by
  rw [stlMd5Checksum]
  generalize (ctx.finish block countBytes).state = v
  have hlen : (wordBytes v.a ++ wordBytes v.b ++ wordBytes v.c ++ wordBytes v.d).length = 16 := rfl
  have h := printed (n := 15) (by rw [hlen]; omega)
  rw [List.take_of_length_le hlen.le] at h
  rw [h]
  simp [Foundation.Digests.Md5.output, wordBytes_eq]

/-- However the message is cut, the text is that of the digest of the whole. -/
theorem checksum_digest (chunks : List (List UInt8)) :
    stlMd5Checksum (chunks.foldl stlMd5Compute stlMd5Init) =
      hex (Foundation.Digests.Md5.digest chunks.flatten) ++ [0] := by
  have hstart := Holds.start block stlMd5Init (length_zeros 64) rfl
  have hholds := hstart.updates chunks
  rw [List.nil_append] at hholds
  have hfinish := hholds.finish (fun b => (rfl : (countBytes b).length = 8))
  change ((chunks.foldl stlMd5Compute stlMd5Init).finish block countBytes).state = _ at hfinish
  rw [checksum_eq, hfinish, Foundation.Digests.Md5.digest,
    chain_congr (fun s _ hb => block_eq s hb) countBytes_eq]
  rfl

end KirinFS.Digest.Md5
