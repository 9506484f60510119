import KirinFS.Foundation.CString
import KirinFS.Rand.Drand48
import Mathlib.Data.List.Induction
import Mathlib.Logic.Function.Iterate

/-! # Random strings

`stl_rand_string` takes each number modulo the length of the string, not
modulo the size of its alphabet.
-/

namespace KirinFS.Rand
open Foundation.CString

def alphabet : List UInt8 :=
  ['0', '1', '2', '3', '4', '5', '6', '7', '8', '9', 'a', 'b', 'c', 'd', 'e', 'f', 'g', 'h', 'i',
    'j', 'k', 'l', 'm', 'n', 'o', 'p', 'q', 'r', 's', 't', 'u', 'v', 'w', 'x', 'y', 'z', 'A', 'B',
    'C', 'D', 'E', 'F', 'G', 'H', 'I', 'J', 'K', 'L', 'M', 'N', 'O', 'P', 'Q', 'R', 'S', 'T', 'U',
    'V', 'W', 'X', 'Y', 'Z'].map chr

def stlRandChars : List UInt8 := alphabet ++ [0]

/-- The `hash` of a new state, with the sign of the number taken away. -/
def randHash (x : RandState) : BitVec 32 := if x.int32.toInt < 0 then ~~~x.int32 + 1 else x.int32

/-- The loop, with `k` characters still to be stored in a string of `n`. -/
def randChars (n : ℕ) : (k : ℕ) → RandState → Option (RandState × List UInt8)
  | 0, x => some (x, [])
  | k + 1, x => do
    let x := stlRandNext x
    let ch ← stlRandChars[(randHash x).toNat % n]?
    let (x, chars) ← randChars n k x
    return (x, ch :: chars)

/-- The new state, what is stored from `buf` on and the return value, for a buffer that is not null
and takes it all; undefined if a read misses the literal. -/
def stlRandString (x : RandState) (n : ℕ) : Option (RandState × List UInt8 × ℤ) :=
  if 0 < n then (randChars n n x).map fun (x, chars) => (x, chars ++ [0], 0)
  else some (x, [], -1)

def randIndex (x : RandState) (n i : ℕ) : ℕ := (randHash (stlRandNext^[i + 1] x)).toNat % n

/-- The alphabet is read inside only, and the buffer gets a string of `n` of its characters. -/
structure GivesString (x : RandState) (n : ℕ) : Prop where
  reads : ∀ i < n, randIndex x n i ≤ 61
  string : ∃ x' chars, stlRandString x n = some (x', chars ++ [0], 0) ∧ chars.length = n ∧
    ∀ ch ∈ chars, ch ∈ alphabet

variable {n k : ℕ}

theorem randHash_eq (x : Limbs) : (randHash x.toRandState).toNat = x.val / 2 ^ 17 := by
  have hint := toInt_int32 x
  rw [randHash, if_neg (by omega), toNat_int32]

theorem iterate_next (x : Limbs) (i : ℕ) :
    ∃ y : Limbs, stlRandNext^[i] x.toRandState = y.toRandState ∧ y.val = lcg^[i] x.val := by
  induction i with
  | zero => exact ⟨x, rfl, rfl⟩
  | succ i ih =>
    obtain ⟨y, hy, hval⟩ := ih
    refine ⟨y.next, ?_, ?_⟩
    · rw [Function.iterate_succ_apply', hy]
      rfl
    · rw [Function.iterate_succ_apply', ← hval]
      exact stlRandNext_val y

theorem randIndex_eq (x : Limbs) (n i : ℕ) :
    randIndex x.toRandState n i = lcg^[i + 1] x.val / 2 ^ 17 % n := by
  obtain ⟨y, hy, hval⟩ := iterate_next x (i + 1)
  rw [randIndex, hy, randHash_eq, hval]

/-- Where all reads stay inside the alphabet, its characters come out. -/
theorem randChars_eq {x : RandState} (h : ∀ i < k, randIndex x n i ≤ 61) :
    ∃ chars, randChars n k x = some (stlRandNext^[k] x, chars) ∧ chars.length = k ∧
      ∀ ch ∈ chars, ch ∈ alphabet := by
  induction k generalizing x with
  | zero => exact ⟨[], rfl, rfl, fun _ hch => absurd hch List.not_mem_nil⟩
  | succ k ih =>
    have hfirst : randIndex x n 0 < alphabet.length := Nat.lt_succ_of_le (h 0 (Nat.succ_pos k))
    have hread : stlRandChars[(randHash (stlRandNext x)).toNat % n]? =
        some alphabet[randIndex x n 0] := by
      rw [stlRandChars]
      exact (List.getElem?_append_left hfirst).trans (List.getElem?_eq_getElem hfirst)
    obtain ⟨chars, hchars, hlen, hmem⟩ :=
      ih (x := stlRandNext x) fun i hi => h (i + 1) (Nat.succ_lt_succ hi)
    refine ⟨alphabet[randIndex x n 0] :: chars, ?_, ?_, ?_⟩
    · rw [randChars, hread]
      simp only [Option.bind_eq_bind, Option.bind_some, hchars]
      rfl
    · rw [List.length_cons, hlen]
    · intro ch hch
      rcases List.mem_cons.mp hch with rfl | hch
      · exact List.getElem_mem hfirst
      · exact hmem ch hch

/-- The numbers that the generator draws from this state decide. -/
theorem givesString_iff (x : Limbs) (hn : 1 ≤ n) :
    GivesString x.toRandState n ↔ ∀ i < n, lcg^[i + 1] x.val / 2 ^ 17 % n < 62 := by
  constructor
  · intro h i hi
    have hread := h.reads i hi
    rw [randIndex_eq] at hread
    omega
  · intro h
    have hreads : ∀ i < n, randIndex x.toRandState n i ≤ 61 := by
      intro i hi
      have hdraw := h i hi
      rw [randIndex_eq]
      omega
    obtain ⟨chars, hchars, hlen, hmem⟩ := randChars_eq hreads
    refine ⟨hreads, stlRandNext^[n] x.toRandState, chars, ?_, hlen, hmem⟩
    rw [stlRandString, if_pos (show 0 < n from hn), hchars]
    rfl

def draws62 : Limbs := ⟨⟨0x2aa9, 0x7332, 0xd7b9⟩, by decide, by decide, by decide⟩

theorem draws62_next : lcg draws62.val / 2 ^ 17 = 62 := by
  decide

/-- The string is right in exactly these states, and in all of them for up to 62 characters. -/
theorem rand_string_exact (hn : 1 ≤ n) :
    (∀ x : Limbs, GivesString x.toRandState n ↔ ∀ i < n, lcg^[i + 1] x.val / 2 ^ 17 % n < 62) ∧
      ((∀ x : Limbs, GivesString x.toRandState n) ↔ n ≤ 62) := by
  refine ⟨fun x => givesString_iff x hn, ?_, ?_⟩
  · intro h
    have hdraw := (givesString_iff draws62 hn).mp (h draws62) 0 hn
    rw [Function.iterate_one, draws62_next] at hdraw
    by_contra hlong
    rw [Nat.mod_eq_of_lt (by omega)] at hdraw
    omega
  · intro hshort x
    refine (givesString_iff x hn).mpr fun i _ => ?_
    exact Nat.lt_of_lt_of_le (Nat.mod_lt _ hn) hshort

/-- The length of the test. -/
theorem rand_string_sixty : (1 ≤ 60) ∧ ∀ x : Limbs, GivesString x.toRandState 60 :=
  ⟨by decide, (rand_string_exact (by decide)).2.mpr (by decide)⟩

def initialState : Limbs := ⟨⟨0x330E, 0xABCD, 0x1234⟩, by decide, by decide, by decide⟩

/-- The first read for a string of 73 characters lies behind the literal. -/
theorem first_string_undefined : randIndex initialState.toRandState 73 0 = 63 ∧
    stlRandString initialState.toRandState 73 = none ∧
      ¬GivesString initialState.toRandState 73 := by
  have hindex : randIndex initialState.toRandState 73 0 = 63 := by decide
  refine ⟨hindex, by decide, fun h => ?_⟩
  have hread := h.reads 0 (by decide)
  rw [hindex] at hread
  exact absurd hread (by decide)

end KirinFS.Rand
