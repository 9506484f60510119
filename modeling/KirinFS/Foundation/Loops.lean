import Mathlib.Data.Nat.Notation
import Mathlib.Data.Sum.Basic

/-! # Loops

A turn of a loop is undefined, leads to the next turn, or ends the loop with a
result.
-/

namespace KirinFS.Foundation.Loops

variable {S R : Type*} {turn : S → Option (S ⊕ R)} {I : S → Prop} {s : S}

/-- The result of the loop, if it takes fewer than `fuel` further turns. -/
def loop (turn : S → Option (S ⊕ R)) : (fuel : ℕ) → S → Option R
  | 0, _ => none
  | fuel + 1, s => (turn s).bind (Sum.elim (loop turn fuel) some)

/-- What a turn from a state with the invariant may lead to: a state with the invariant and a
smaller variant, or a result with the postcondition. -/
def Advances (I : S → Prop) (variant : S → ℕ) (post : R → Prop) (v : ℕ) : S ⊕ R → Prop
  | .inl s => I s ∧ variant s < v
  | .inr r => post r

/-- Total correctness: a loop whose turns are defined and decrease a variant ends within it. -/
theorem loop_of_variant (variant : S → ℕ) {post : R → Prop}
    (hturn : ∀ s, I s → ∃ x, turn s = some x ∧ Advances I variant post (variant s) x) (hs : I s) :
    ∃ r, post r ∧ ∀ fuel, variant s < fuel → loop turn fuel s = some r := by
  induction hv : variant s using Nat.strongRecOn generalizing s with
  | _ v ih =>
    obtain ⟨x, hx, hadv⟩ := hturn s hs
    cases x with
    | inl s' =>
      obtain ⟨hs', hlt⟩ := hadv
      obtain ⟨r, hr, hrun⟩ := ih (variant s') (hv ▸ hlt) hs' rfl
      refine ⟨r, hr, fun fuel hfuel => ?_⟩
      obtain ⟨fuel, rfl⟩ := Nat.exists_eq_add_one_of_ne_zero (Nat.ne_zero_of_lt hfuel)
      rw [loop, hx, Option.bind_some, Sum.elim_inl]
      exact hrun fuel (by omega)
    | inr r =>
      refine ⟨r, hadv, fun fuel hfuel => ?_⟩
      obtain ⟨fuel, rfl⟩ := Nat.exists_eq_add_one_of_ne_zero (Nat.ne_zero_of_lt hfuel)
      rw [loop, hx, Option.bind_some, Sum.elim_inr]

/-- A loop in which every turn is undefined or leads to the next one has no result. -/
theorem loop_endless (hturn : ∀ s, I s → ∀ x ∈ turn s, ∃ s', x = .inl s' ∧ I s') (hs : I s)
    (fuel : ℕ) : loop turn fuel s = none := by
  induction fuel generalizing s with
  | zero => rfl
  | succ fuel ih =>
    rw [loop]
    cases hx : turn s with
    | none => rfl
    | some x =>
      obtain ⟨s', rfl, hs'⟩ := hturn s hs x hx
      exact ih hs'

end KirinFS.Foundation.Loops
