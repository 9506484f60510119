import Mathlib.Algebra.Order.Group.Nat
import Mathlib.Data.List.Basic
import Mathlib.Tactic.Ring

/-! # Folding a function over the blocks of a list

A list is read in blocks of `m` elements. What is behind the last full block
waits for more elements.
-/

namespace KirinFS.Foundation.Blocks

variable {α σ : Type*} (m : ℕ) (f : σ → List α → σ)

def absorb : (n : ℕ) → σ → List α → σ
  | 0, s, _ => s
  | n + 1, s, l => absorb n (f s (l.take m)) (l.drop m)

def absorbAll (s : σ) (l : List α) : σ := absorb m f (l.length / m) s l

def rest (l : List α) : List α := l.drop (l.length / m * m)

variable {m f} {s : σ} {l r : List α} {n : ℕ}

theorem absorb_append (h : n * m ≤ l.length) :
    absorb m f n s (l ++ r) = absorb m f n s l := by
  induction n generalizing s l with
  | zero => rfl
  | succ n ih =>
    rw [Nat.add_mul, Nat.one_mul] at h
    have hm : m ≤ l.length := by omega
    rw [absorb, absorb, List.take_append_of_le_length hm, List.drop_append_of_le_length hm]
    apply ih
    rw [List.length_drop]
    omega

theorem absorb_congr {g : σ → List α → σ} (hfg : ∀ s b, b.length = m → f s b = g s b)
    (h : n * m ≤ l.length) : absorb m f n s l = absorb m g n s l := by
  induction n generalizing s l with
  | zero => rfl
  | succ n ih =>
    rw [Nat.add_mul, Nat.one_mul] at h
    have htake : (l.take m).length = m := by
      rw [List.length_take]
      omega
    rw [absorb, absorb, hfg s _ htake]
    apply ih
    rw [List.length_drop]
    omega

theorem absorbAll_congr {g : σ → List α → σ} (hfg : ∀ s b, b.length = m → f s b = g s b) :
    absorbAll m f s l = absorbAll m g s l :=
  absorb_congr hfg (Nat.div_mul_le_self _ _)

theorem absorb_add (k : ℕ) :
    absorb m f (n + k) s l = absorb m f k (absorb m f n s l) (l.drop (n * m)) := by
  induction n generalizing s l with
  | zero => rw [Nat.zero_add, Nat.zero_mul, List.drop_zero, absorb]
  | succ n ih =>
    rw [Nat.add_right_comm, absorb, ih, List.drop_drop, absorb]
    congr 2
    ring

theorem absorb_eq_foldl : absorb m f n s l =
    (List.range n).foldl (fun s i => f s ((l.drop (i * m)).take m)) s := by
  induction n with
  | zero => rfl
  | succ n ih =>
    rw [absorb_add, ih, List.range_succ, List.foldl_append]
    rfl

theorem length_rest (l : List α) : (rest m l).length = l.length % m := by
  rw [rest, List.length_drop, Nat.mul_comm]
  have h := Nat.div_add_mod l.length m
  omega

theorem rest_of_lt (h : l.length < m) : rest m l = l := by
  rw [rest, Nat.div_eq_of_lt h, Nat.zero_mul, List.drop_zero]

theorem absorbAll_of_lt (h : l.length < m) : absorbAll m f s l = s := by
  rw [absorbAll, Nat.div_eq_of_lt h, absorb]

theorem rest_eq_nil (h : l.length % m = 0) : rest m l = [] := by
  apply List.eq_nil_of_length_eq_zero
  rw [length_rest, h]

section Append
variable (hm : 0 < m)
include hm

theorem absorbAll_block (h : l.length = m) : absorbAll m f s l = f s l := by
  rw [absorbAll, h, Nat.div_self hm, absorb, absorb, List.take_of_length_le h.le]

theorem length_append_div : (l ++ r).length / m = l.length / m + (rest m l ++ r).length / m := by
  rw [List.length_append, List.length_append, length_rest]
  have h := Nat.div_add_mod l.length m
  calc (l.length + r.length) / m = (l.length % m + r.length + m * (l.length / m)) / m := by
        congr 1
        omega
    _ = (l.length % m + r.length) / m + l.length / m := Nat.add_mul_div_left _ _ hm
    _ = _ := Nat.add_comm _ _

omit hm in
theorem drop_append_rest : (l ++ r).drop (l.length / m * m) = rest m l ++ r :=
  List.drop_append_of_le_length (Nat.div_mul_le_self _ _)

theorem absorbAll_append :
    absorbAll m f s (l ++ r) = absorbAll m f (absorbAll m f s l) (rest m l ++ r) := by
  rw [absorbAll, length_append_div hm, absorb_add, absorb_append (Nat.div_mul_le_self _ _),
    drop_append_rest]
  rfl

theorem rest_append : rest m (l ++ r) = rest m (rest m l ++ r) := by
  rw [rest, length_append_div hm, Nat.add_mul, ← List.drop_drop, drop_append_rest]
  rfl

end Append

end KirinFS.Foundation.Blocks
