import KirinFS.Foundation.Bytes
import Mathlib.Tactic.IntervalCases

/-! # The hash `stl_hash_jenkins`

On a little-endian machine it reads the key by words, by halves of words or by
bytes, as its address allows.
-/

namespace KirinFS.Hash
open Foundation.Bytes

structure Jenkins where
  a : BitVec 32
  b : BitVec 32
  c : BitVec 32
deriving DecidableEq

def rot (x : BitVec 32) (k : ℕ) : BitVec 32 := x <<< k ||| x >>> (32 - k)

def Jenkins.mix (s : Jenkins) : Jenkins :=
  let ⟨a, b, c⟩ := s
  let a := (a - c) ^^^ rot c 4
  let c := c + b
  let b := (b - a) ^^^ rot a 6
  let a := a + c
  let c := (c - b) ^^^ rot b 8
  let b := b + a
  let a := (a - c) ^^^ rot c 16
  let c := c + b
  let b := (b - a) ^^^ rot a 19
  let a := a + c
  let c := (c - b) ^^^ rot b 4
  let b := b + a
  ⟨a, b, c⟩

def Jenkins.final (s : Jenkins) : Jenkins :=
  let ⟨a, b, c⟩ := s
  let c := (c ^^^ b) - rot b 14
  let a := (a ^^^ c) - rot c 11
  let b := (b ^^^ a) - rot a 25
  let c := (c ^^^ b) - rot b 16
  let a := (a ^^^ c) - rot c 4
  let b := (b ^^^ a) - rot a 14
  let c := (c ^^^ b) - rot b 24
  ⟨a, b, c⟩

section Reads

variable (mem : ℕ → UInt8)

def byteAt (p : ℕ) : BitVec 32 := (mem p).toBitVec.setWidth 32

def halfAt (p : ℕ) : BitVec 32 := BitVec.ofNat 32 (ofBytes [mem p, mem (p + 1)])

def wordAt (p : ℕ) : BitVec 32 :=
  BitVec.ofNat 32 (ofBytes [mem p, mem (p + 1), mem (p + 2), mem (p + 3)])

end Reads

section Paths

/-- The loop and the last block of a path. The last block is left out for a length of zero. -/
def jenkinsPath (block : ℕ → Jenkins → Jenkins) (last : ℕ → ℕ → Jenkins → Option Jenkins)
    (k length : ℕ) (s : Jenkins) : BitVec 32 :=
  if 12 < length then jenkinsPath block last (k + 12) (length - 12) (block k s).mix
  else
    match last k length s with
    | some s => s.final.c
    | none => s.c
termination_by length

variable (mem : ℕ → UInt8)

def wordBlock (k : ℕ) (s : Jenkins) : Jenkins :=
  ⟨s.a + wordAt mem k, s.b + wordAt mem (k + 4), s.c + wordAt mem (k + 8)⟩

/-- The `switch` over the length, with words that may reach over the end of the key. -/
def wordLast (k length : ℕ) (s : Jenkins) : Option Jenkins :=
  let w0 := wordAt mem k
  let w1 := wordAt mem (k + 4)
  let w2 := wordAt mem (k + 8)
  match length with
  | 12 => some ⟨s.a + w0, s.b + w1, s.c + w2⟩
  | 11 => some ⟨s.a + w0, s.b + w1, s.c + (w2 &&& 0xffffff)⟩
  | 10 => some ⟨s.a + w0, s.b + w1, s.c + (w2 &&& 0xffff)⟩
  | 9 => some ⟨s.a + w0, s.b + w1, s.c + (w2 &&& 0xff)⟩
  | 8 => some ⟨s.a + w0, s.b + w1, s.c⟩
  | 7 => some ⟨s.a + w0, s.b + (w1 &&& 0xffffff), s.c⟩
  | 6 => some ⟨s.a + w0, s.b + (w1 &&& 0xffff), s.c⟩
  | 5 => some ⟨s.a + w0, s.b + (w1 &&& 0xff), s.c⟩
  | 4 => some ⟨s.a + w0, s.b, s.c⟩
  | 3 => some ⟨s.a + (w0 &&& 0xffffff), s.b, s.c⟩
  | 2 => some ⟨s.a + (w0 &&& 0xffff), s.b, s.c⟩
  | 1 => some ⟨s.a + (w0 &&& 0xff), s.b, s.c⟩
  | _ => none

def halfBlock (k : ℕ) (s : Jenkins) : Jenkins :=
  ⟨s.a + (halfAt mem k + halfAt mem (k + 2) <<< 16),
    s.b + (halfAt mem (k + 4) + halfAt mem (k + 6) <<< 16),
    s.c + (halfAt mem (k + 8) + halfAt mem (k + 10) <<< 16)⟩

/-- The cases of an odd length fall through to the ones before. -/
def halfLast (k length : ℕ) (s : Jenkins) : Option Jenkins :=
  let h := fun i => halfAt mem (k + 2 * i)
  let k8 := fun i => byteAt mem (k + i)
  let w0 := h 0 + h 1 <<< 16
  let w1 := h 2 + h 3 <<< 16
  match length with
  | 12 => some ⟨s.a + w0, s.b + w1, s.c + (h 4 + h 5 <<< 16)⟩
  | 11 => some ⟨s.a + w0, s.b + w1, s.c + k8 10 <<< 16 + h 4⟩
  | 10 => some ⟨s.a + w0, s.b + w1, s.c + h 4⟩
  | 9 => some ⟨s.a + w0, s.b + w1, s.c + k8 8⟩
  | 8 => some ⟨s.a + w0, s.b + w1, s.c⟩
  | 7 => some ⟨s.a + w0, s.b + k8 6 <<< 16 + h 2, s.c⟩
  | 6 => some ⟨s.a + w0, s.b + h 2, s.c⟩
  | 5 => some ⟨s.a + w0, s.b + k8 4, s.c⟩
  | 4 => some ⟨s.a + w0, s.b, s.c⟩
  | 3 => some ⟨s.a + k8 2 <<< 16 + h 0, s.b, s.c⟩
  | 2 => some ⟨s.a + h 0, s.b, s.c⟩
  | 1 => some ⟨s.a + k8 0, s.b, s.c⟩
  | _ => none

def byteBlock (k : ℕ) (s : Jenkins) : Jenkins :=
  let k8 := fun i => byteAt mem (k + i)
  ⟨s.a + k8 0 + k8 1 <<< 8 + k8 2 <<< 16 + k8 3 <<< 24,
    s.b + k8 4 + k8 5 <<< 8 + k8 6 <<< 16 + k8 7 <<< 24,
    s.c + k8 8 + k8 9 <<< 8 + k8 10 <<< 16 + k8 11 <<< 24⟩

/-- All the cases fall through to the first. -/
def byteLast (k length : ℕ) (s : Jenkins) : Option Jenkins :=
  let k8 := fun i => byteAt mem (k + i)
  let add := fun (x : BitVec 32) (i shift : ℕ) => if i < length then x + k8 i <<< shift else x
  if length = 0 ∨ 12 < length then none
  else
    some ⟨add (add (add (add s.a 3 24) 2 16) 1 8) 0 0,
      add (add (add (add s.b 7 24) 6 16) 5 8) 4 0,
      add (add (add (add s.c 11 24) 10 16) 9 8) 8 0⟩

def jenkinsInit (length : ℕ) : Jenkins :=
  let a := 0xdeadbeef + BitVec.ofNat 32 length + 13
  ⟨a, a, a⟩

def jenkinsWords (key length : ℕ) : BitVec 32 :=
  jenkinsPath (wordBlock mem) (wordLast mem) key length (jenkinsInit length)

def jenkinsHalves (key length : ℕ) : BitVec 32 :=
  jenkinsPath (halfBlock mem) (halfLast mem) key length (jenkinsInit length)

def jenkinsBytes (key length : ℕ) : BitVec 32 :=
  jenkinsPath (byteBlock mem) (byteLast mem) key length (jenkinsInit length)

def stlHashJenkins (key : BitVec 64) (length : ℕ) : BitVec 32 :=
  if key &&& 0x3 = 0 then jenkinsWords mem key.toNat length
  else if key &&& 0x1 = 0 then jenkinsHalves mem key.toNat length
  else jenkinsBytes mem key.toNat length

end Paths

section Key

/-- The word in the bytes of a block from `i` on, with zeros behind the last byte of the key. -/
def keyWord (key : List UInt8) (i : ℕ) : BitVec 32 :=
  BitVec.ofNat 32 (ofBytes ((key.drop i).take 4))

/-- The words of the next block are added to the state. -/
def Jenkins.add (s : Jenkins) (key : List UInt8) : Jenkins :=
  ⟨s.a + keyWord key 0, s.b + keyWord key 4, s.c + keyWord key 8⟩

/-- The hash as a function of the bytes of the key alone. -/
def keyHash (key : List UInt8) (s : Jenkins) : BitVec 32 :=
  if 12 < key.length then keyHash (key.drop 12) (s.add key).mix
  else if key = [] then s.c
  else (s.add key).final.c
termination_by key.length

def bytesAt (mem : ℕ → UInt8) (p length : ℕ) : List UInt8 :=
  (List.range length).map fun i => mem (p + i)

variable (mem : ℕ → UInt8)

@[simp] theorem bytesAt_length (p n : ℕ) : (bytesAt mem p n).length = n := by
  rw [bytesAt, List.length_map, List.length_range]

theorem bytesAt_drop (p n i : ℕ) : (bytesAt mem p n).drop i = bytesAt mem (p + i) (n - i) := by
  apply List.ext_getElem
  · simp
  · intro j _ _
    simp [bytesAt, Nat.add_assoc]

theorem bytesAt_take (p n i : ℕ) : (bytesAt mem p n).take i = bytesAt mem p (min i n) := by
  apply List.ext_getElem
  · simp
  · intro j _ _
    simp [bytesAt]

/-- A path computes the hash of its bytes if its blocks and its `switch` add the same words. -/
theorem jenkinsPath_eq {block : ℕ → Jenkins → Jenkins}
    {last : ℕ → ℕ → Jenkins → Option Jenkins}
    (hblock : ∀ k n s, 12 < n → block k s = s.add (bytesAt mem k n))
    (hlast : ∀ k n s, n ≤ 12 → last k n s = if n = 0 then none else some (s.add (bytesAt mem k n)))
    (k length : ℕ) (s : Jenkins) :
    jenkinsPath block last k length s = keyHash (bytesAt mem k length) s := by
  induction length using Nat.strongRecOn generalizing k s with
  | _ length ih =>
    rw [jenkinsPath, keyHash, bytesAt_length]
    by_cases hlong : 12 < length
    · rw [if_pos hlong, if_pos hlong, ih (length - 12) (by omega), hblock k length s hlong,
        bytesAt_drop]
    · rw [if_neg hlong, if_neg hlong, hlast k length s (by omega)]
      by_cases hzero : length = 0
      · subst hzero
        rfl
      · have hne : bytesAt mem k length ≠ [] := by
          rw [← List.length_pos_iff, bytesAt_length]
          omega
        simp [hzero, hne]

end Key

section Words

variable (mem : ℕ → UInt8) (p : ℕ)

/-- The sum of the first `m` bytes of a word, each at its place. -/
def partWord (m : ℕ) : BitVec 32 := BitVec.ofNat 32 (ofBytes (bytesAt mem p m))

theorem keyWord_bytesAt (n i : ℕ) :
    keyWord (bytesAt mem p n) i = partWord mem (p + i) (min 4 (n - i)) := by
  rw [keyWord, bytesAt_drop, bytesAt_take, partWord]

theorem partWord_succ (m : ℕ) :
    partWord mem p (m + 1) = partWord mem p m + byteAt mem (p + m) <<< (8 * m) := by
  have hbyte : byteAt mem (p + m) <<< (8 * m) =
      BitVec.ofNat 32 (256 ^ m * (mem (p + m)).toNat) := by
    apply BitVec.eq_of_toNat_eq
    rw [byteAt, BitVec.toNat_shiftLeft, BitVec.toNat_setWidth, UInt8.toNat_toBitVec,
      BitVec.toNat_ofNat, Nat.shiftLeft_eq, Nat.mod_mul_mod, pow_mul, Nat.mul_comm]
    rfl
  have hbytes : bytesAt mem p (m + 1) = bytesAt mem p m ++ [mem (p + m)] := by
    rw [bytesAt, List.range_succ, List.map_append]
    rfl
  rw [partWord, hbytes, ofBytes_append, bytesAt_length, BitVec.ofNat_add, hbyte]
  rfl

theorem halfAt_eq : halfAt mem p = partWord mem p 2 := rfl

theorem wordAt_eq : wordAt mem p = partWord mem p 4 := rfl

/-- The mask takes away what is read behind the end of the key. -/
theorem partWord_mask {m : ℕ} (hm : m ≤ 4) :
    partWord mem p 4 &&& BitVec.ofNat 32 (2 ^ (8 * m) - 1) = partWord mem p m := by
  have hword : ofBytes (bytesAt mem p 4) < 2 ^ 32 := by
    have hlt := ofBytes_lt (bytesAt mem p 4)
    rwa [bytesAt_length] at hlt
  have hmask : 2 ^ (8 * m) - 1 < 2 ^ 32 :=
    Nat.lt_of_lt_of_le (Nat.sub_lt (Nat.two_pow_pos _) Nat.one_pos)
      (Nat.pow_le_pow_right (by decide) (by omega))
  have htake : ofBytes (bytesAt mem p m) = ofBytes (bytesAt mem p 4) % 2 ^ (8 * m) := by
    rw [pow_mul, show 2 ^ 8 = 256 by decide, ← ofBytes_take, bytesAt_take, Nat.min_eq_left hm]
  apply BitVec.eq_of_toNat_eq
  rw [BitVec.toNat_and, partWord, partWord, BitVec.toNat_ofNat, BitVec.toNat_ofNat,
    BitVec.toNat_ofNat, Nat.mod_eq_of_lt hword, Nat.mod_eq_of_lt hmask,
    Nat.and_two_pow_sub_one_eq_mod, ← htake, Nat.mod_eq_of_lt]
  exact htake ▸ Nat.lt_of_le_of_lt (Nat.mod_le _ _) hword

end Words

section Equal

variable (mem : ℕ → UInt8)

theorem partWord_zero (p : ℕ) : partWord mem p 0 = 0 := rfl

theorem partWord_one (p : ℕ) : partWord mem p 1 = byteAt mem p := by
  rw [partWord_succ, partWord_zero]
  simp

theorem partWord_two (p : ℕ) : partWord mem p 2 = byteAt mem p + byteAt mem (p + 1) <<< 8 := by
  rw [partWord_succ, partWord_one]

theorem partWord_three (p : ℕ) : partWord mem p 3 =
    byteAt mem p + byteAt mem (p + 1) <<< 8 + byteAt mem (p + 2) <<< 16 := by
  rw [partWord_succ, partWord_two]

theorem partWord_four (p : ℕ) : partWord mem p 4 =
    byteAt mem p + byteAt mem (p + 1) <<< 8 + byteAt mem (p + 2) <<< 16 +
      byteAt mem (p + 3) <<< 24 := by
  rw [partWord_succ, partWord_three]

theorem halfAt_add (p : ℕ) : halfAt mem p + halfAt mem (p + 2) <<< 16 = partWord mem p 4 := by
  rw [halfAt_eq, halfAt_eq, partWord_two, partWord_two, partWord_four,
    BitVec.shiftLeft_add_distrib, ← BitVec.shiftLeft_add, ← BitVec.add_assoc]

theorem add_bytesAt (s : Jenkins) (k n : ℕ) : s.add (bytesAt mem k n) =
    ⟨s.a + partWord mem k (min 4 n), s.b + partWord mem (k + 4) (min 4 (n - 4)),
      s.c + partWord mem (k + 8) (min 4 (n - 8))⟩ := by
  rw [Jenkins.add, keyWord_bytesAt, keyWord_bytesAt, keyWord_bytesAt]
  rfl

theorem add_block (s : Jenkins) (k : ℕ) {n : ℕ} (h : 12 < n) : s.add (bytesAt mem k n) =
    ⟨s.a + partWord mem k 4, s.b + partWord mem (k + 4) 4, s.c + partWord mem (k + 8) 4⟩ := by
  rw [add_bytesAt, Nat.min_eq_left (by omega), Nat.min_eq_left (by omega),
    Nat.min_eq_left (by omega)]

theorem wordLast_eq (k n : ℕ) (s : Jenkins) (h : n ≤ 12) :
    wordLast mem k n s = if n = 0 then none else some (s.add (bytesAt mem k n)) := by
  have mask1 : ∀ p, partWord mem p 4 &&& 0xff#32 = partWord mem p 1 := fun p =>
    partWord_mask mem p (show 1 ≤ 4 by decide)
  have mask2 : ∀ p, partWord mem p 4 &&& 0xffff#32 = partWord mem p 2 := fun p =>
    partWord_mask mem p (show 2 ≤ 4 by decide)
  have mask3 : ∀ p, partWord mem p 4 &&& 0xffffff#32 = partWord mem p 3 := fun p =>
    partWord_mask mem p (show 3 ≤ 4 by decide)
  rw [add_bytesAt]
  interval_cases n <;>
    simp [wordLast, mask1, mask2, mask3, wordAt_eq, partWord_zero]

theorem jenkinsWords_eq (key length : ℕ) : jenkinsWords mem key length =
    keyHash (bytesAt mem key length) (jenkinsInit length) :=
  jenkinsPath_eq mem (fun k _ s h => (add_block mem s k h).symm) (wordLast_eq mem) key length _

theorem add_reversed (x a b c d : BitVec 32) : x + d + c + b + a = x + (a + b + c + d) := by
  ac_rfl

theorem add_three (p : ℕ) (x : BitVec 32) :
    x + byteAt mem (p + 2) <<< 16 + partWord mem p 2 = x + partWord mem p 3 := by
  rw [partWord_two, partWord_three, BitVec.add_assoc,
    BitVec.add_comm (byteAt mem (p + 2) <<< 16)]

theorem halfBlock_eq (k : ℕ) (s : Jenkins) {n : ℕ} (h : 12 < n) :
    halfBlock mem k s = s.add (bytesAt mem k n) := by
  rw [add_block mem s k h, halfBlock, ← halfAt_add, ← halfAt_add, ← halfAt_add]

theorem halfLast_eq (k n : ℕ) (s : Jenkins) (h : n ≤ 12) :
    halfLast mem k n s = if n = 0 then none else some (s.add (bytesAt mem k n)) := by
  have word0 : partWord mem k 2 + partWord mem (k + 2) 2 <<< 16 = partWord mem k 4 :=
    halfAt_add mem k
  have word4 : partWord mem (k + 4) 2 + partWord mem (k + 6) 2 <<< 16 = partWord mem (k + 4) 4 :=
    halfAt_add mem (k + 4)
  have word8 : partWord mem (k + 8) 2 + partWord mem (k + 10) 2 <<< 16 = partWord mem (k + 8) 4 :=
    halfAt_add mem (k + 8)
  have three0 := add_three mem k
  have three4 := add_three mem (k + 4)
  have three8 := add_three mem (k + 8)
  rw [Nat.add_assoc] at three4 three8
  rw [add_bytesAt]
  interval_cases n <;>
    simp [halfLast, halfAt_eq, word0, word4, word8, three0, three4, three8, partWord_one,
      partWord_zero]

theorem jenkinsHalves_eq (key length : ℕ) : jenkinsHalves mem key length =
    keyHash (bytesAt mem key length) (jenkinsInit length) :=
  jenkinsPath_eq mem (fun k _ s h => halfBlock_eq mem k s h) (halfLast_eq mem) key length _

theorem byteBlock_eq (k : ℕ) (s : Jenkins) {n : ℕ} (h : 12 < n) :
    byteBlock mem k s = s.add (bytesAt mem k n) := by
  rw [add_block mem s k h, byteBlock, partWord_four, partWord_four, partWord_four]
  simp only [BitVec.add_assoc, Nat.add_assoc, Nat.add_zero, Nat.reduceAdd]

/-- The cases of the word from byte `j` on, from the highest byte down. -/
theorem add_cases (k n j : ℕ) (x : BitVec 32) {add : BitVec 32 → ℕ → ℕ → BitVec 32}
    (hadd : ∀ x i shift, add x i shift = if i < n then x + byteAt mem (k + i) <<< shift else x) :
    add (add (add (add x (j + 3) 24) (j + 2) 16) (j + 1) 8) j 0 =
      x + partWord mem (k + j) (min 4 (n - j)) := by
  have hlow : j < n ↔ 0 < n - j := by omega
  have hlt : ∀ i, j + i < n ↔ i < n - j := by omega
  have hsum := add_reversed x (byteAt mem (k + j))
  simp only [hadd, hlt, hlow, ← Nat.add_assoc, BitVec.shiftLeft_zero]
  rcases n - j with _ | _ | _ | _ | m
  · simp [partWord_zero]
  · simp [partWord_one]
  · simpa [partWord_two] using hsum (byteAt mem (k + j + 1) <<< 8) 0 0
  · simpa [partWord_three] using
      hsum (byteAt mem (k + j + 1) <<< 8) (byteAt mem (k + j + 2) <<< 16) 0
  · simpa [partWord_four] using hsum (byteAt mem (k + j + 1) <<< 8)
      (byteAt mem (k + j + 2) <<< 16) (byteAt mem (k + j + 3) <<< 24)

theorem byteLast_eq (k n : ℕ) (s : Jenkins) (h : n ≤ 12) :
    byteLast mem k n s = if n = 0 then none else some (s.add (bytesAt mem k n)) := by
  rw [byteLast]
  by_cases hzero : n = 0
  · rw [if_pos (Or.inl hzero), if_pos hzero]
  · have hword := fun x j => add_cases mem k n j x (fun _ _ _ => rfl)
    rw [if_neg (by omega), if_neg hzero, add_bytesAt]
    exact congrArg some (congr (congrArg₂ Jenkins.mk (hword s.a 0) (hword s.b 4))
      (hword s.c 8))

theorem jenkinsBytes_eq (key length : ℕ) : jenkinsBytes mem key length =
    keyHash (bytesAt mem key length) (jenkinsInit length) :=
  jenkinsPath_eq mem (fun k _ s h => byteBlock_eq mem k s h) (byteLast_eq mem) key length _

end Equal

section Alignment

/-- A key somewhere in memory, with anything behind it. -/
structure Placed (key : List UInt8) where
  mem : ℕ → UInt8
  addr : BitVec 64
  stored : bytesAt mem addr.toNat key.length = key

variable {key : List UInt8}

theorem stlHashJenkins_eq (x : Placed key) :
    stlHashJenkins x.mem x.addr key.length = keyHash key (jenkinsInit key.length) := by
  rw [stlHashJenkins, jenkinsWords_eq, jenkinsHalves_eq, jenkinsBytes_eq, x.stored]
  simp only [ite_self]

/-- Wherever the key lies, each path returns the same hash for it. -/
theorem jenkins_alignment (key : List UInt8) (x y z : Placed key) :
    jenkinsWords x.mem x.addr.toNat key.length = jenkinsBytes z.mem z.addr.toNat key.length ∧
      jenkinsHalves y.mem y.addr.toNat key.length = jenkinsBytes z.mem z.addr.toNat key.length ∧
      stlHashJenkins x.mem x.addr key.length = stlHashJenkins y.mem y.addr key.length := by
  refine ⟨?_, ?_, ?_⟩
  · rw [jenkinsWords_eq, jenkinsBytes_eq, x.stored, z.stored]
  · rw [jenkinsHalves_eq, jenkinsBytes_eq, y.stored, z.stored]
  · rw [stlHashJenkins_eq, stlHashJenkins_eq]

end Alignment

end KirinFS.Hash
