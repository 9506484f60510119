import KirinFS.Digest.Stream

/-! # The SHA-1 of `stl_sha1.c`

The macro `STEP` moves the values on to the next variables. The 80 lines that
use it differ in the function, the index and the constant only.
-/

namespace KirinFS.Digest.Sha1
open Foundation.Blocks Foundation.Bytes Foundation.Digests
open Foundation.Digests.Sha1 (Words)

def ROTATE (bits : ℕ) (word : BitVec 32) : BitVec 32 := (word <<< bits) ||| (word >>> (32 - bits))

def F1 (b c d : BitVec 32) : BitVec 32 := (b &&& c) ||| (~~~b &&& d)

def F2 (b c d : BitVec 32) : BitVec 32 := b ^^^ c ^^^ d

def F3 (b c d : BitVec 32) : BitVec 32 := (b &&& c) ||| (b &&& d) ||| (c &&& d)

structure Step where
  f : BitVec 32 → BitVec 32 → BitVec 32 → BitVec 32
  n : ℕ
  t : BitVec 32

def STEP (words : List (BitVec 32)) (v : Words) (l : Step) : Words where
  a := ROTATE 5 v.a + l.f v.b v.c v.d + v.e + words.getD l.n 0 + l.t
  b := v.a
  c := ROTATE 30 v.b
  d := v.c
  e := v.d

def steps : List Step :=
  (List.range' 0 20).map (fun n => ⟨F1, n, 0x5a827999⟩) ++
    (List.range' 20 20).map (fun n => ⟨F2, n, 0x6ed9eba1⟩) ++
      (List.range' 40 20).map (fun n => ⟨F3, n, 0x8f1bbcdc⟩) ++
        (List.range' 60 20).map (fun n => ⟨F2, n, 0xca62c1d6⟩)

def GET (p : List UInt8) (n : ℕ) : BitVec 32 :=
  let byte i := (p.getD i 0).toBitVec.setWidth 32
  byte (n * 4 + 3) ||| byte (n * 4 + 2) <<< 8 ||| byte (n * 4 + 1) <<< 16 ||| byte (n * 4) <<< 24

/-- The first loop over `words`, which is filled from its first element to its last. -/
def loadWords (p : List UInt8) : List (BitVec 32) :=
  (List.range' 0 16).foldl (fun words i => words ++ [GET p i]) []

def nextWord (words : List (BitVec 32)) (i : ℕ) : BitVec 32 :=
  ROTATE 1 (words.getD (i - 3) 0 ^^^ words.getD (i - 8) 0 ^^^ words.getD (i - 14) 0 ^^^
    words.getD (i - 16) 0)

def extendWords (words : List (BitVec 32)) : List (BitVec 32) :=
  (List.range' 16 64).foldl (fun words i => words ++ [nextWord words i]) words

/-- One turn of the loop of `stl_sha1_body`. -/
def block (saved : Words) (p : List UInt8) : Words :=
  let v := steps.foldl (STEP (extendWords (loadWords p))) saved
  ⟨v.a + saved.a, v.b + saved.b, v.c + saved.c, v.d + saved.d, v.e + saved.e⟩

/-- `stl_sha1_init` on a context that is not null; the buffer stays as it is. -/
def stlSha1Init (buffer : Vector UInt8 64) : Context Words where
  bytes := 0
  state := ⟨0x67452301, 0xefcdab89, 0x98badcfe, 0x10325476, 0xc3d2e1f0⟩
  buffer := buffer.toList

def stlSha1Update (ctx : Context Words) (data : List UInt8) : Context Words :=
  ctx.update block data

/-- What goes to `buffer[56]` and the bytes behind it. -/
def countBytes (bytes : BitVec 64) : List UInt8 :=
  [uchar (bytes >>> 56), uchar (bytes >>> 48), uchar (bytes >>> 40), uchar (bytes >>> 32),
    uchar (bytes >>> 24), uchar (bytes >>> 16), uchar (bytes >>> 8), uchar bytes]

def wordBytes (w : BitVec 32) : List UInt8 :=
  [uchar (w >>> 24), uchar (w >>> 16), uchar (w >>> 8), uchar w]

/-- `stl_sha1_final`: the 20 bytes of `result`. -/
def stlSha1Final (ctx : Context Words) : List UInt8 :=
  let v := (ctx.finish block countBytes).state
  wordBytes v.a ++ wordBytes v.b ++ wordBytes v.c ++ wordBytes v.d ++ wordBytes v.e

theorem ROTATE_eq (word : BitVec 32) {bits : ℕ} (h : bits < 32) :
    ROTATE bits word = word.rotateLeft bits := by
  rw [ROTATE, BitVec.rotateLeft_def, Nat.mod_eq_of_lt h]

theorem F1_eq (x y z : BitVec 32) : F1 x y z = Foundation.Digests.Sha1.Ch x y z := by
  apply BitVec.eq_of_getLsbD_eq
  intro i hi
  simp only [F1, Foundation.Digests.Sha1.Ch, BitVec.getLsbD_xor, BitVec.getLsbD_and,
    BitVec.getLsbD_or, BitVec.getLsbD_not, hi]
  cases x.getLsbD i <;> cases y.getLsbD i <;> cases z.getLsbD i <;> rfl

theorem F3_eq (x y z : BitVec 32) : F3 x y z = Foundation.Digests.Sha1.Maj x y z := by
  apply BitVec.eq_of_getLsbD_eq
  intro i hi
  simp only [F3, Foundation.Digests.Sha1.Maj, BitVec.getLsbD_xor, BitVec.getLsbD_and,
    BitVec.getLsbD_or]
  cases x.getLsbD i <;> cases y.getLsbD i <;> cases z.getLsbD i <;> rfl

section Words
variable {p : List UInt8}

theorem GET_eq {n : ℕ} (hp : p.length = 64) (hn : n < 16) :
    GET p n = Foundation.Digests.Sha1.word p n := by
  rw [Foundation.Digests.Sha1.word, take_four (by omega)]
  exact (ofNat_ofBytes_four _ _ _ _).symm

/-- A loop that appends element `i` in turn `i`, each from the ones before it. -/
theorem foldl_concat (next : List (BitVec 32) → ℕ → BitVec 32) {w : ℕ → BitVec 32} {m k : ℕ}
    (h : ∀ n, m ≤ n → n < m + k → next ((List.range n).map w) n = w n) :
    (List.range' m k).foldl (fun words i => words ++ [next words i]) ((List.range m).map w) =
      (List.range (m + k)).map w := by
  induction k with
  | zero => rfl
  | succ k ih =>
    rw [List.range'_1_concat, List.foldl_append, List.foldl_cons, List.foldl_nil,
      ih fun n hm hk => h n hm (by omega), h (m + k) (by omega) (by omega), ← Nat.add_assoc,
      List.range_succ, List.map_append]
    rfl

theorem getD_map_range (w : ℕ → BitVec 32) {n i : ℕ} (h : i < n) :
    ((List.range n).map w).getD i 0 = w i := by
  rw [List.getD_eq_getElem _ _ (by simpa using h), List.getElem_map, List.getElem_range]

theorem loadWords_eq (hp : p.length = 64) : loadWords p =
    (List.range 16).map (Foundation.Digests.Sha1.schedule (Foundation.Digests.Sha1.word p)) := by
  have h := foldl_concat (fun _ i => GET p i) (m := 0) (k := 16)
    (w := Foundation.Digests.Sha1.schedule (Foundation.Digests.Sha1.word p)) fun n _ hn => by
      rw [Foundation.Digests.Sha1.schedule, if_pos (by omega), GET_eq hp (by omega)]
  exact h

theorem nextWord_eq (x : ℕ → BitVec 32) {n : ℕ} (hn : 16 ≤ n) :
    nextWord ((List.range n).map (Foundation.Digests.Sha1.schedule x)) n =
      Foundation.Digests.Sha1.schedule x n := by
  rw [nextWord, getD_map_range _ (by omega), getD_map_range _ (by omega),
    getD_map_range _ (by omega), getD_map_range _ (by omega), ROTATE_eq _ (by omega)]
  conv_rhs => rw [Foundation.Digests.Sha1.schedule, if_neg (by omega)]

theorem extendWords_eq (x : ℕ → BitVec 32) :
    extendWords ((List.range 16).map (Foundation.Digests.Sha1.schedule x)) =
      (List.range 80).map (Foundation.Digests.Sha1.schedule x) :=
  foldl_concat nextWord fun _ hm _ => nextWord_eq x hm

end Words

/-- The line that round `t` of the standard amounts to. -/
def line (t : ℕ) : Step :=
  ⟨if t < 20 then F1 else if t < 40 then F2 else if t < 60 then F3 else F2, t,
    Foundation.Digests.Sha1.constant t⟩

theorem steps_eq : steps = (List.range 80).map line := rfl

theorem line_f (t : ℕ) (x y z : BitVec 32) :
    (line t).f x y z = Foundation.Digests.Sha1.mix t x y z := by
  simp only [line, Foundation.Digests.Sha1.mix]
  split
  · exact F1_eq x y z
  split
  · rfl
  split
  · exact F3_eq x y z
  · rfl

theorem STEP_eq {words : List (BitVec 32)} {w : ℕ → BitVec 32} {t : ℕ}
    (h : words.getD t 0 = w t) (v : Words) :
    STEP words v (line t) = Foundation.Digests.Sha1.round w v t := by
  have hn : (line t).n = t := rfl
  have ht : (line t).t = Foundation.Digests.Sha1.constant t := rfl
  rw [STEP, Foundation.Digests.Sha1.round, line_f, hn, ht, h, ROTATE_eq _ (by omega),
    ROTATE_eq _ (by omega), BitVec.add_assoc _ (w t), BitVec.add_comm (w t), ← BitVec.add_assoc]

theorem foldl_STEP {words : List (BitVec 32)} {w : ℕ → BitVec 32} {n : ℕ}
    (h : ∀ t < n, words.getD t 0 = w t) (v : Words) :
    ((List.range n).map line).foldl (STEP words) v =
      (List.range n).foldl (Foundation.Digests.Sha1.round w) v := by
  induction n with
  | zero => rfl
  | succ n ih =>
    rw [List.range_succ, List.map_append, List.foldl_append, List.foldl_append,
      ih fun t ht => h t (by omega)]
    exact STEP_eq (h n (by omega)) _

theorem block_eq (saved : Words) {p : List UInt8} (hp : p.length = 64) :
    block saved p = Foundation.Digests.Sha1.block saved p := by
  have h := foldl_STEP (n := 80) (fun t ht => getD_map_range
    (Foundation.Digests.Sha1.schedule (Foundation.Digests.Sha1.word p)) ht) saved
  rw [block, Foundation.Digests.Sha1.block, steps_eq, loadWords_eq hp, extendWords_eq, h]

theorem countBytes_eq (n : BitVec 64) : countBytes n = Foundation.Digests.Sha1.lengthBytes n := by
  rw [Foundation.Digests.Sha1.lengthBytes, toBytes_eq_map]
  simp [List.range_succ, countBytes, uchar]

theorem wordBytes_eq (w : BitVec 32) : wordBytes w = (toBytes 4 w.toNat).reverse := by
  rw [toBytes_eq_map]
  simp [List.range_succ, wordBytes, uchar]

theorem final_eq (ctx : Context Words) : stlSha1Final ctx =
    Foundation.Digests.Sha1.output (ctx.finish block countBytes).state := by
  simp [stlSha1Final, Foundation.Digests.Sha1.output, wordBytes_eq]

/-- However the message is cut and whatever the buffer holds at first, the result is the digest of
the whole. -/
theorem final_digest (buffer : Vector UInt8 64) (chunks : List (List UInt8)) :
    stlSha1Final (chunks.foldl stlSha1Update (stlSha1Init buffer)) =
      Foundation.Digests.Sha1.digest chunks.flatten := by
  have hstart := Holds.start block (stlSha1Init buffer) buffer.length_toList rfl
  have hholds := hstart.updates chunks
  rw [List.nil_append] at hholds
  have hfinish := hholds.finish (fun b => (rfl : (countBytes b).length = 8))
  change ((chunks.foldl stlSha1Update (stlSha1Init buffer)).finish block countBytes).state = _
    at hfinish
  rw [final_eq, hfinish, Foundation.Digests.Sha1.digest,
    chain_congr (fun s _ hb => block_eq s hb) countBytes_eq]
  rfl

/-- The message `abc`. -/
example : Foundation.Digests.Sha1.digest [0x61, 0x62, 0x63] =
    [0xa9, 0x99, 0x3e, 0x36, 0x47, 0x06, 0x81, 0x6a, 0xba, 0x3e, 0x25, 0x71, 0x78, 0x50, 0xc2, 0x6c,
      0x9c, 0xd0, 0xd8, 0x9d] := by
  rw [Foundation.Digests.Sha1.digest, ← chain_congr (fun s _ hb => block_eq s hb) countBytes_eq]
  decide +kernel

end KirinFS.Digest.Sha1
