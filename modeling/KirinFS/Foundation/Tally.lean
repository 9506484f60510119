import Mathlib.Data.Fintype.Card
import Mathlib.Data.List.Count
import Mathlib.Data.Nat.Notation
import Mathlib.Logic.Function.Basic

/-! # A family of parties, one of which moves

What holds of every party after the move, how many are in a state of a kind, and
what each of them has left in a common list.
-/

namespace KirinFS.Foundation.Tally
open Function

variable {ι S : Type*} [Fintype ι] [DecidableEq ι] {p : S → Bool} {f : ι → S} {i : ι} {a : S}

omit [Fintype ι] in
theorem forall_update₂ {T : Type*} {g : ι → T} {b : T} (r : ι → S → T → Prop) :
    (∀ j, r j (update f i a j) (update g i b j)) ↔ r i a b ∧ ∀ j, j ≠ i → r j (f j) (g j) := by
  rw [← and_forall_ne i, update_self, update_self]
  refine and_congr_right fun _ => forall₂_congr ?_
  intro j hj
  rw [update_of_ne hj, update_of_ne hj]

def tally (p : S → Bool) (f : ι → S) : ℕ := (Finset.univ.filter fun i => p (f i) = true).card

omit [DecidableEq ι] in
theorem tally_le (p : S → Bool) (f : ι → S) : tally p f ≤ Fintype.card ι :=
  Finset.card_filter_le _ _

omit [DecidableEq ι] in
theorem tally_eq_zero : tally p f = 0 ↔ ∀ i, p (f i) = false := by
  simp [tally, Finset.filter_eq_empty_iff]

theorem tally_update (h : p a = p (f i)) : tally p (update f i a) = tally p f := by
  rw [tally, tally]
  congr 1
  ext j
  by_cases hj : j = i
  · rw [hj]
    simp [h]
  · simp [hj]

theorem tally_enter (h : p (f i) = false) (ha : p a = true) :
    tally p (update f i a) = tally p f + 1 := by
  have hset : (Finset.univ.filter fun j => p (update f i a j) = true) =
      insert i (Finset.univ.filter fun j => p (f j) = true) := by
    ext j
    by_cases hj : j = i
    · rw [hj]
      simp [ha]
    · simp [hj]
  rw [tally, hset, Finset.card_insert_of_notMem (by simp [h]), tally]

theorem tally_leave (h : p (f i) = true) (ha : p a = false) :
    tally p f = tally p (update f i a) + 1 := by
  have hback : update (update f i a) i (f i) = f := by
    rw [update_idem, update_eq_self]
  have hin := tally_enter (p := p) (f := update f i a) (i := i) (a := f i)
    (by rw [update_self]; exact ha) h
  rw [hback] at hin
  exact hin

section Labels
variable {κ A B : Type*} [DecidableEq κ] {k : κ}

/-- What party `k` has left in a list of things with the names of their parties. -/
def entries (k : κ) (xs : List (κ × A)) : List A :=
  xs.filterMap fun x => if x.1 = k then some x.2 else none

@[simp] theorem entries_nil : entries k ([] : List (κ × A)) = [] := rfl

theorem entries_cons (x : κ × A) (xs : List (κ × A)) :
    entries k (x :: xs) = if x.1 = k then x.2 :: entries k xs else entries k xs := by
  rw [entries, List.filterMap_cons]
  split <;> simp_all [entries]

theorem entries_append (xs ys : List (κ × A)) :
    entries k (xs ++ ys) = entries k xs ++ entries k ys :=
  List.filterMap_append

theorem map_entries (f : A → B) (xs : List (κ × A)) :
    (entries k xs).map f = entries k (xs.map (Prod.map id f)) := by
  induction xs with
  | nil => rfl
  | cons x xs ih =>
    rw [List.map_cons, entries_cons, entries_cons, ← ih]
    by_cases hx : x.1 = k
    · rw [if_pos hx, if_pos (by exact hx), List.map_cons, Prod.map_snd]
    · rw [if_neg hx, if_neg (by exact hx)]

theorem count_entries [DecidableEq A] (a : A) (xs : List (κ × A)) :
    (entries k xs).count a = xs.count (k, a) := by
  induction xs with
  | nil => rfl
  | cons x xs ih =>
    obtain ⟨j, b⟩ := x
    rw [entries_cons, List.count_cons, ← ih]
    by_cases hj : j = k
    · rw [if_pos hj, List.count_cons]
      simp [hj]
    · rw [if_neg hj]
      simp [hj]

/-- Lists in which every party has left the same are the same up to their order. -/
theorem perm_of_entries [DecidableEq A] {xs ys : List (κ × A)}
    (h : ∀ k, entries k xs = entries k ys) : xs.Perm ys := by
  rw [List.perm_iff_count]
  rintro ⟨k, a⟩
  rw [← count_entries, ← count_entries, h k]

end Labels

end KirinFS.Foundation.Tally
