import Mathlib.Data.List.Basic
import Mathlib.Data.Nat.Notation
import Mathlib.Logic.Function.Basic

/-! # Prefix tables and longest matches

A prefix of a stream of bits is the list of its first bits, the latest one in
front, so that a step down a trie is a `cons` and a step up is a `tail`.
-/

namespace KirinFS.Foundation.PrefixTable

variable {V : Type*}

/-- The first `d` bits of `k`. -/
def path (k : ℕ → Bool) : ℕ → List Bool
  | 0 => []
  | d + 1 => k d :: path k d

@[simp] theorem path_length (k : ℕ → Bool) (d : ℕ) : (path k d).length = d := by
  induction d with
  | zero => rfl
  | succ d ih => rw [path, List.length_cons, ih]

theorem path_ne_nil {k : ℕ → Bool} {d : ℕ} (h : 0 < d) : path k d ≠ [] := by
  cases d with
  | zero => exact absurd h (Nat.lt_irrefl 0)
  | succ d => exact List.cons_ne_nil _ _

/-- Values held by prefixes. -/
abbrev Table (V : Type*) := List Bool → Option V

/-- The value of the longest prefix of `k` with fewer than `n` bits that holds one. -/
def longest (T : Table V) (k : ℕ → Bool) : ℕ → Option V
  | 0 => none
  | n + 1 => (T (path k n)).or (longest T k n)

variable {T : Table V} {k : ℕ → Bool} {n : ℕ} {v : V}

theorem longest_of_none {d : ℕ} (hd : d ≤ n) (h : ∀ e, d ≤ e → T (path k e) = none) :
    longest T k n = longest T k d := by
  induction n with
  | zero => rw [Nat.le_zero.mp hd]
  | succ n ih =>
    rcases Nat.le_succ_iff.mp hd with hle | rfl
    · rw [longest, h n hle, Option.none_or, ih hle]
    · rfl

end KirinFS.Foundation.PrefixTable
