import Mathlib.Data.Nat.Notation
import Mathlib.Logic.Function.Basic

/-! # Objects in a heap that have one holder each -/

namespace KirinFS.Foundation.Holders
open Function

variable {O N : Type*} {heap heap' : ℕ → Option N} {holds holds' : O → ℕ → Prop} {a : ℕ} {o : O}

/-- What anybody holds is there, and nobody else holds it. -/
structure Exclusive (heap : ℕ → Option N) (holds : O → ℕ → Prop) : Prop where
  alive : ∀ o b, holds o b → (heap b).isSome
  apart : ∀ o o' b, holds o b → holds o' b → o = o'

namespace Exclusive

theorem transfer (h : Exclusive heap holds) (ha : (heap' a).isSome)
    (hkeep : ∀ b, b ≠ a → (heap b).isSome → (heap' b).isSome)
    (hmove : ∀ o' b, holds' o' b → o' = o ∧ b = a ∨ b ≠ a ∧ holds o' b) :
    Exclusive heap' holds' := by
  constructor
  · intro o' b hb
    rcases hmove o' b hb with ⟨-, rfl⟩ | ⟨hne, hold⟩
    · exact ha
    · exact hkeep b hne (h.alive o' b hold)
  · intro o₁ o₂ b h₁ h₂
    rcases hmove o₁ b h₁ with ⟨rfl, rfl⟩ | ⟨hne, hold₁⟩
    · rcases hmove o₂ b h₂ with ⟨rfl, -⟩ | ⟨hne, -⟩
      · rfl
      · exact absurd rfl hne
    · rcases hmove o₂ b h₂ with ⟨-, hb⟩ | ⟨-, hold₂⟩
      · exact absurd hb hne
      · exact h.apart o₁ o₂ b hold₁ hold₂

/-- The object at `a` may go away, and nobody holds it any more. -/
theorem drop (h : Exclusive heap holds) (hkeep : ∀ b, b ≠ a → (heap b).isSome → (heap' b).isSome)
    (hmove : ∀ o' b, holds' o' b → b ≠ a ∧ holds o' b) : Exclusive heap' holds' := by
  constructor
  · intro o' b hb
    obtain ⟨hne, hold⟩ := hmove o' b hb
    exact hkeep b hne (h.alive o' b hold)
  · intro o₁ o₂ b h₁ h₂
    exact h.apart o₁ o₂ b (hmove o₁ b h₁).2 (hmove o₂ b h₂).2

theorem mono (h : Exclusive heap holds) (hsub : ∀ o' b, holds' o' b → holds o' b) :
    Exclusive heap holds' :=
  ⟨fun o' b hb => h.alive o' b (hsub o' b hb),
    fun o₁ o₂ b h₁ h₂ => h.apart o₁ o₂ b (hsub o₁ b h₁) (hsub o₂ b h₂)⟩

theorem ne_of_ne (h : Exclusive heap holds) (o₁ o₂ : O) {b c : ℕ} (hne : o₁ ≠ o₂)
    (h₁ : holds o₁ b) (h₂ : holds o₂ c) : b ≠ c := by
  rintro rfl
  exact hne (h.apart o₁ o₂ b h₁ h₂)

theorem ne_of_none (h : Exclusive heap holds) {b : ℕ} (ha : heap a = none) (hb : holds o b) :
    b ≠ a := by
  rintro rfl
  have halive := h.alive o b hb
  rw [ha] at halive
  cases halive

theorem alloc {x : N} (h : Exclusive heap holds) (ha : heap a = none)
    (hmove : ∀ o' b, holds' o' b → o' = o ∧ b = a ∨ holds o' b) :
    Exclusive (update heap a (some x)) holds' := by
  apply h.transfer (a := a) (o := o)
  · rw [update_self]
    rfl
  · intro b hb hsome
    rwa [update_of_ne hb]
  · intro o' b hb
    rcases hmove o' b hb with hnew | hold
    · exact Or.inl hnew
    · exact Or.inr ⟨h.ne_of_none ha hold, hold⟩

theorem ne_of_held {o₁ : O} (h : Exclusive heap holds) (ha : holds o₁ a) {o' : O} {b : ℕ}
    (hold : holds o' b) (hleft : o' = o₁ → b ≠ a) : b ≠ a := by
  by_cases ho : o' = o₁
  · exact hleft ho
  · exact h.ne_of_ne o' o₁ ho hold ha

theorem hand_over {o₁ : O} (h : Exclusive heap holds) (ha : holds o₁ a)
    (hkeep : ∀ b, (heap' b).isSome = (heap b).isSome)
    (hmove : ∀ o' b, holds' o' b → o' = o ∧ b = a ∨ holds o' b ∧ (o' = o₁ → b ≠ a)) :
    Exclusive heap' holds' := by
  apply h.transfer (a := a) (o := o)
  · rw [hkeep a]
    exact h.alive o₁ a ha
  · intro b _ hsome
    rwa [hkeep b]
  · intro o' b hb
    rcases hmove o' b hb with hnew | ⟨hold, hleft⟩
    · exact Or.inl hnew
    · exact Or.inr ⟨h.ne_of_held ha hold hleft, hold⟩

theorem free {o₁ : O} (h : Exclusive heap holds) (ha : holds o₁ a)
    (hmove : ∀ o' b, holds' o' b → holds o' b ∧ o' ≠ o₁) :
    Exclusive (update heap a none) holds' := by
  apply h.drop (a := a)
  · intro b hb hsome
    rwa [update_of_ne hb]
  · intro o' b hb
    obtain ⟨hold, hne⟩ := hmove o' b hb
    exact ⟨h.ne_of_ne o' o₁ hne hold ha, hold⟩

end Exclusive

end KirinFS.Foundation.Holders
