import Mathlib.Data.List.Basic

/-! # Partial computations with a shadow

A computation that may fail goes along with a world that it does not know of.
`Rel` is how the world may move meanwhile, `stuck` what has to hold if the
computation fails.
-/

namespace KirinFS.Foundation.Shadows

variable {W α β γ : Type*} {Rel : W → W → Prop} {stuck : Prop} {w : W}
  {P : α → W → Prop} {Q : β → W → Prop} {x : Option α} {f : α → Option β}

/-- From `w` the computation has a result that fits a world reached meanwhile. -/
def Yields (Rel : W → W → Prop) (stuck : Prop) (w : W) (P : α → W → Prop) : Option α → Prop
  | none => stuck
  | some a => ∃ w', Rel w w' ∧ P a w'

namespace Yields

theorem pure {a : α} (hrefl : Rel w w) (h : P a w) : Yields Rel stuck w P (some a) :=
  ⟨w, hrefl, h⟩

theorem mono {P' : α → W → Prop} (h : Yields Rel stuck w P x)
    (hP : ∀ a w', Rel w w' → P a w' → P' a w') : Yields Rel stuck w P' x := by
  cases x with
  | none => exact h
  | some a =>
    obtain ⟨w', hw, ha⟩ := h
    exact ⟨w', hw, hP a w' hw ha⟩

theorem imp {Rel' : W → W → Prop} (h : Yields Rel stuck w P x) (hRel : ∀ w', Rel w w' → Rel' w w') :
    Yields Rel' stuck w P x := by
  cases x with
  | none => exact h
  | some a =>
    obtain ⟨w', hw, ha⟩ := h
    exact ⟨w', hRel w' hw, ha⟩

theorem after {w' : W} (htrans : ∀ {a b c}, Rel a b → Rel b c → Rel a c) (hw : Rel w w')
    (h : Yields Rel stuck w' P x) : Yields Rel stuck w P x := by
  cases x with
  | none => exact h
  | some a =>
    obtain ⟨w'', hw', ha⟩ := h
    exact ⟨w'', htrans hw hw', ha⟩

theorem bind (htrans : ∀ {a b c}, Rel a b → Rel b c → Rel a c) (hx : Yields Rel stuck w P x)
    (hf : ∀ a w', Rel w w' → P a w' → Yields Rel stuck w' Q (f a)) :
    Yields Rel stuck w Q (x.bind f) := by
  cases x with
  | none => exact hx
  | some a =>
    obtain ⟨w', hw, ha⟩ := hx
    exact (hf a w' hw ha).after htrans hw

theorem map {g : α → β} (h : Yields Rel stuck w P x)
    (hg : ∀ a w', Rel w w' → P a w' → Q (g a) w') : Yields Rel stuck w Q (x.map g) := by
  cases x with
  | none => exact h
  | some a =>
    obtain ⟨w', hw, ha⟩ := h
    exact ⟨w', hw, hg a w' hw ha⟩

/-- A loop over a list, with an invariant that knows what is left. -/
theorem foldlM {I : List γ → α → W → Prop} {body : α → γ → Option α} (hrefl : ∀ {a}, Rel a a)
    (htrans : ∀ {a b c}, Rel a b → Rel b c → Rel a c)
    (hbody : ∀ c l a w, I (c :: l) a w → Yields Rel stuck w (I l) (body a c)) (l : List γ) (a : α)
    (h : I l a w) : Yields Rel stuck w (I []) (l.foldlM body a) := by
  induction l generalizing a w with
  | nil => exact ⟨w, hrefl, h⟩
  | cons c l ih =>
    rw [List.foldlM_cons]
    exact (hbody c l a w h).bind htrans fun a' w' _ ha' => ih a' ha'

end Yields

end KirinFS.Foundation.Shadows
