import Mathlib.Data.List.Chain

/-! # Histories of partial machines

Every step leaves an event. An invariant may speak about the events so far.
-/

namespace KirinFS.Foundation.Histories

variable {S A E : Type*}

/-- Admissible steps lead from `s₀` to a state and leave a list of events. -/
inductive Reaches (step : S → A → Option (S × E)) (ok : S → A → Prop) (s₀ : S) : List E → S → Prop
  | start : Reaches step ok s₀ [] s₀
  | next {es : List E} {s s' : S} {a : A} {e : E} (h : Reaches step ok s₀ es s) (hok : ok s a)
    (hstep : step s a = some (s', e)) : Reaches step ok s₀ (es ++ [e]) s'

variable {step : S → A → Option (S × E)} {ok : S → A → Prop} {s₀ s s' : S} {es : List E}

namespace Reaches

/-- What holds at the start and is kept by every admissible step holds after every history. -/
theorem invariant {I : List E → S → Prop} (h : Reaches step ok s₀ es s) (h₀ : I [] s₀)
    (hkept : ∀ es s a s' e, I es s → ok s a → step s a = some (s', e) → I (es ++ [e]) s') :
    I es s := by
  induction h with
  | start => exact h₀
  | next _ hok hstep ih => exact hkept _ _ _ _ _ ih hok hstep

theorem append {fs : List E} (h : Reaches step ok s₀ es s) (h' : Reaches step ok s fs s') :
    Reaches step ok s₀ (es ++ fs) s' := by
  induction h' with
  | start =>
    rw [List.append_nil]
    exact h
  | next _ hok hstep ih =>
    rw [← List.append_assoc]
    exact ih.next hok hstep

theorem last {e : E} (h : Reaches step ok s₀ (es ++ [e]) s) :
    ∃ s₁ a, Reaches step ok s₀ es s₁ ∧ ok s₁ a ∧ step s₁ a = some (s, e) := by
  generalize hes : es ++ [e] = fs at h
  cases h with
  | start => exact absurd hes (by simp)
  | next h hok hstep =>
    obtain ⟨rfl, heq⟩ := List.append_inj' hes rfl
    cases heq
    exact ⟨_, _, h, hok, hstep⟩

theorem eq_of_nil (h : Reaches step ok s₀ [] s) : s = s₀ := by
  generalize hes : ([] : List E) = es at h
  cases h with
  | start => rfl
  | next => exact absurd hes (by simp)

/-- A simulation along a whole history: a list of states of the other machine, each of which is
related to the state of the history at this place. -/
theorem simulated {T : Type*} {R : T → T → Prop} {I : T → S → Prop} {t₀ : T}
    (h : Reaches step ok s₀ es s) (h₀ : I t₀ s₀)
    (hsim : ∀ t s a s' e, I t s → ok s a → step s a = some (s', e) → ∃ t', R t t' ∧ I t' s') :
    ∃ ts : List T, ts.length = es.length ∧ (t₀ :: ts).IsChain R ∧
      ∀ k t, (t₀ :: ts)[k]? = some t → ∃ s₁, Reaches step ok s₀ (es.take k) s₁ ∧
        Reaches step ok s₁ (es.drop k) s ∧ I t s₁ := by
  induction h with
  | start =>
    refine ⟨[], rfl, .singleton t₀, fun k t ht => ?_⟩
    cases k with
    | zero => exact ⟨s₀, .start, .start, Option.some.inj ht ▸ h₀⟩
    | succ k => cases ht
  | @next es s s' a e h hok hstep ih =>
    obtain ⟨ts, hlen, hchain, hts⟩ := ih
    have hlast : (t₀ :: ts)[es.length]? = (t₀ :: ts).getLast? := by
      rw [List.getLast?_eq_getElem?, List.length_cons, hlen, Nat.add_sub_cancel]
    obtain ⟨t, ht⟩ : ∃ t, (t₀ :: ts).getLast? = some t :=
      ⟨_, List.getLast?_eq_some_getLast (List.cons_ne_nil t₀ ts)⟩
    obtain ⟨s₁, -, hrest, hI⟩ := hts _ t (hlast.trans ht)
    rw [List.drop_length] at hrest
    obtain ⟨t', hR, hI'⟩ := hsim t s a s' e (hrest.eq_of_nil ▸ hI) hok hstep
    refine ⟨ts ++ [t'], by simp [hlen], ?_, fun k t₁ ht₁ => ?_⟩
    · refine hchain.append (.singleton t') ?_
      rintro x hx y hy
      rw [ht, Option.mem_some_iff] at hx
      rw [List.head?_cons, Option.mem_some_iff] at hy
      exact hx ▸ hy ▸ hR
    · rw [← List.cons_append] at ht₁
      rcases Nat.lt_or_ge k (t₀ :: ts).length with hk | hk
      · have hle : k ≤ es.length := by
          rw [List.length_cons, hlen] at hk
          omega
        rw [List.getElem?_append_left hk] at ht₁
        obtain ⟨s₂, h₂, hrest₂, hI₂⟩ := hts k t₁ ht₁
        rw [List.take_append_of_le_length hle, List.drop_append_of_le_length hle]
        exact ⟨s₂, h₂, hrest₂.next hok hstep, hI₂⟩
      · rw [List.getElem?_append_right hk] at ht₁
        have hk' : k = es.length + 1 := by
          have hlt := (List.getElem?_eq_some_iff.mp ht₁).1
          simp [hlen] at hlt hk
          omega
        obtain rfl : t' = t₁ := by simpa [hk', hlen] using ht₁
        rw [List.take_of_length_le (by simp [hk']), List.drop_of_length_le (by simp [hk'])]
        exact ⟨s', h.next hok hstep, .start, hI'⟩

/-- The state and the events after a list of admissible actions. -/
def follow (step : S → A → Option (S × E)) (ok : S → A → Prop) [∀ s a, Decidable (ok s a)] :
    S → List A → Option (S × List E)
  | s, [] => some (s, [])
  | s, a :: as =>
    if ok s a then
      (step s a).bind fun r => (follow step ok r.1 as).map fun q => (q.1, r.2 :: q.2)
    else none

theorem follow_append [∀ s a, Decidable (ok s a)] {as : List A} {fs : List E}
    (h : Reaches step ok s₀ es s) (hf : follow step ok s as = some (s', fs)) :
    Reaches step ok s₀ (es ++ fs) s' := by
  induction as generalizing s es fs with
  | nil =>
    cases hf
    rw [List.append_nil]
    exact h
  | cons a as ih =>
    rw [follow] at hf
    split at hf
    · next hok =>
      obtain ⟨⟨s₁, e⟩, hstep, hf⟩ := Option.bind_eq_some_iff.mp hf
      obtain ⟨⟨s₂, gs⟩, hgs, heq⟩ := Option.map_eq_some_iff.mp hf
      cases heq
      have hrest := ih (h.next hok hstep) hgs
      rw [List.append_assoc] at hrest
      exact hrest
    · cases hf

theorem of_follow [∀ s a, Decidable (ok s a)] {as : List A} {fs : List E}
    (hf : follow step ok s₀ as = some (s', fs)) : Reaches step ok s₀ fs s' :=
  Reaches.start.follow_append hf

end Reaches

section Calls
variable {R : Type*} {op : S → A → R × S} {cs : List (A × R)} {f : List (A × R) → A}

/-- Calls of an operation one after the other, each with its argument and its result. -/
abbrev Calls (op : S → A → R × S) : S → List (A × R) → S → Prop :=
  Reaches (fun s a => some ((op s a).2, a, (op s a).1)) fun _ _ => True

theorem Calls.next (h : Calls op s₀ cs s) (a : A) :
    Calls op s₀ (cs ++ [(a, (op s a).1)]) (op s a).2 :=
  Reaches.next h (a := a) trivial rfl

/-- The argument of every call depends on the calls before it in the given way. -/
def Asks (f : List (A × R) → A) (cs : List (A × R)) : Prop :=
  ∀ pre c, pre ++ [c] <+: cs → c.1 = f pre

theorem asks_nil : Asks f [] := fun pre c h => absurd h (by simp)

theorem Asks.next (h : Asks f cs) {c : A × R} (hc : c.1 = f cs) : Asks f (cs ++ [c]) := by
  intro pre d hpre
  rcases List.prefix_concat_iff.mp hpre with heq | hpre
  · obtain ⟨rfl, hlast⟩ := List.append_inj' heq rfl
    cases hlast
    exact hc
  · exact h pre d hpre

end Calls

section Along
variable {step : S → A → Option S} {p q can : S → A → Prop} {s : S} {as : List A}

/-- `p` holds of every action of the list in the state before it, up to a step that is undefined. -/
def Along (step : S → A → Option S) (p : S → A → Prop) : S → List A → Prop
  | _, [] => True
  | s, a :: as => p s a ∧ ∀ s', step s a = some s' → Along step p s' as

/-- Conditions that agree under an invariant agree along runs, if they keep the invariant. -/
theorem along_iff {I : S → Prop} (hiff : ∀ s a, I s → can s a → (p s a ↔ q s a))
    (hkept : ∀ s a s', I s → can s a → q s a → step s a = some s' → I s') (hI : I s)
    (hcan : Along step can s as) : Along step p s as ↔ Along step q s as := by
  induction as generalizing s with
  | nil => exact Iff.rfl
  | cons a as ih =>
    obtain ⟨ha, hrest⟩ := hcan
    constructor
    · rintro ⟨hp, hps⟩
      have hq := (hiff s a hI ha).mp hp
      exact ⟨hq, fun s' hs => (ih (hkept s a s' hI ha hq hs) (hrest s' hs)).mp (hps s' hs)⟩
    · rintro ⟨hq, hqs⟩
      refine ⟨(hiff s a hI ha).mpr hq, ?_⟩
      intro s' hs
      exact (ih (hkept s a s' hI ha hq hs) (hrest s' hs)).mpr (hqs s' hs)

/-- Steps that meet `q` keep the invariant, and `p` holds of them. -/
theorem along_of {I : S → Prop} (hgood : ∀ s a, I s → can s a → q s a →
    p s a ∧ ∀ s', step s a = some s' → I s') (hI : I s) (hcan : Along step can s as)
    (hq : Along step q s as) : Along step p s as := by
  induction as generalizing s with
  | nil => trivial
  | cons a as ih =>
    obtain ⟨hp, hkept⟩ := hgood s a hI hcan.1 hq.1
    exact ⟨hp, fun s' hs => ih (hkept s' hs) (hcan.2 s' hs) (hq.2 s' hs)⟩

end Along

end KirinFS.Foundation.Histories
