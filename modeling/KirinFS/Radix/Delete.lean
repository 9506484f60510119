import KirinFS.Radix.Insert

/-! # `stl_radix32tree_delete` takes one prefix away -/

namespace KirinFS.Radix
open Foundation.PrefixTable Function

variable {t : StlRadixTree} {pos : Places} {l : List ℕ} {T : Table Word} {key mask : BitVec 32}
  {L n fuel : ℕ} {p : List Bool} {b : Bool} {E : Set (List Bool)}

section Leaves

theorem Pruned.drop (h : Pruned T pos E) (hE : E ⊆ {b :: p}) :
    Pruned (update T (b :: p) none) (update pos (b :: p) none) {p} := by
  intro q hq hne hout hbare
  have hqb : q ≠ b :: p := by
    rintro rfl
    rw [update_self] at hq
    exact absurd hq (by simp)
  rw [update_of_ne hqb] at hq ⊢
  refine h q hq hne (fun hmem => hqb (hE hmem)) ?_
  intro c
  have hc := hbare c
  have hne' : c :: q ≠ b :: p := fun he => hout (List.cons.inj he).2
  rwa [update_of_ne hne'] at hc

/-- The exemption of a path that is no bare leaf without a value is void. -/
theorem Pruned.settle (h : Pruned T pos {p}) (hp : p = [] ∨ ¬ Bare pos p ∨ (T p).isSome) :
    Pruned T pos ∅ := by
  intro q hq hne _ hbare
  by_cases hqp : q = p
  · subst hqp
    rcases hp with he | hnb | hv
    · exact absurd he hne
    · exact absurd hbare hnb
    · exact hv
  · exact h q hq hne hqp hbare

/-- Clearing a value above other nodes leaves no bare leaf. -/
theorem Pruned.clear (h : Pruned T pos ∅) (hp : ¬ Bare pos p) :
    Pruned (update T p none) pos ∅ := by
  intro q hq hne hout hbare
  have hqp : q ≠ p := by
    rintro rfl
    exact hp hbare
  rw [update_of_ne hqp]
  exact h q hq hne hout hbare

end Leaves

structure Deleted (t : StlRadixTree) (pos : Places) (p : List Bool) (t' : StlRadixTree)
    (pos' : Places) (l' : List ℕ) : Prop where
  sound : Sound t' pos' l'
  values : valueAt t' pos' = update (valueAt t pos) p none
  pruned : Pruned (valueAt t' pos') pos' ∅

theorem prune_step (h : Sound t pos l) {m : ℕ} (hm : pos p = some m)
    (hn : pos (b :: p) = some n) :
    StlRadixTree.prune (fuel + 1) t n =
      let t' := t.withoutLeaf m b n
      if (t'.node m).right.isSome ∨ (t'.node m).left.isSome then some t'
      else if (t'.node m).value ≠ noValue then some t'
      else if (t'.node m).parent = none then some t'
      else StlRadixTree.prune fuel t' m := by
  have hup : (t.node n).parent = some m := (h.layout.up hn).1.trans hm
  have hmc := h.layout.carved hm
  have hnc := h.layout.carved hn
  have hnm : n ≠ m := by
    rintro rfl
    have he := congrArg List.length (h.layout.inj hm hn)
    simp at he
  have hload : (t.withoutLeaf m b n).load (some m) = some ((t.withoutLeaf m b n).node m) :=
    StlRadixTree.load_some (by exact hmc)
  rw [StlRadixTree.prune, StlRadixTree.load_some hnc, Option.bind_some, hup,
    StlRadixTree.store_some hmc, Option.bind_some, h.layout.dropChild_eq hm hn,
    StlRadixTree.store_some (by exact hnc), Option.bind_some]
  simp only [update_of_ne hnm, Option.bind_some]
  exact (congrArg (Option.bind · _) hload).trans (Option.bind_some _ _)

/-- A leaf goes, and with it the nodes above that it leaves without children and values. -/
theorem prune_spec (h : Sound t pos l) (hn : pos p = some n) (hne : p ≠ [])
    (hbare : Bare pos p) (hf : p.length < fuel + 1) :
    ∃ t' pos' l', StlRadixTree.prune fuel t n = some t' ∧ Sound t' pos' l' ∧
      valueAt t' pos' = update (valueAt t pos) p none ∧
      ∀ E ⊆ {p}, Pruned (valueAt t pos) pos E → Pruned (valueAt t' pos') pos' ∅ := by
  induction p generalizing t pos l n fuel with
  | nil => exact absurd rfl hne
  | cons b p ih =>
    obtain ⟨fuel, rfl⟩ : ∃ f, fuel = f + 1 := ⟨fuel - 1, by simp at hf; omega⟩
    obtain ⟨m, hm⟩ := Option.isSome_iff_exists.mp (h.layout.up hn).2
    obtain ⟨hlay, hfree, hval⟩ := h.layout.dropLeaf h.free hm hn hbare
    have hroot : (update pos (b :: p) none []).isSome := by
      rw [update_of_ne (List.cons_ne_nil b p).symm]
      exact h.rooted
    have hs : Sound (t.withoutLeaf m b n) (update pos (b :: p) none) (n :: l) :=
      ⟨hlay, hfree, hroot⟩
    have hpb : p ≠ b :: p := fun he => by simpa using congrArg List.length he
    have hm' : update pos (b :: p) none p = some m := by
      rw [update_of_ne hpb]
      exact hm
    have hdrop : ∀ E ⊆ {b :: p}, Pruned (valueAt t pos) pos E →
        Pruned (valueAt (t.withoutLeaf m b n) (update pos (b :: p) none))
          (update pos (b :: p) none) {p} := by
      intro E hE hpr
      rw [hval]
      exact hpr.drop hE
    have hstop : p = [] ∨ ¬ Bare (update pos (b :: p) none) p ∨
        (valueAt (t.withoutLeaf m b n) (update pos (b :: p) none) p).isSome →
        ∀ E ⊆ {b :: p}, Pruned (valueAt t pos) pos E →
          Pruned (valueAt (t.withoutLeaf m b n) (update pos (b :: p) none))
            (update pos (b :: p) none) ∅ :=
      fun hp E hE hpr => (hdrop E hE hpr).settle hp
    have hkids := hlay.bare_iff hm'
    rw [prune_step h hm hn]
    by_cases hk : ((t.withoutLeaf m b n).node m).right.isSome ∨
        ((t.withoutLeaf m b n).node m).left.isSome
    · refine ⟨_, _, _, if_pos hk, hs, hval, hstop (Or.inr (Or.inl ?_))⟩
      rw [← hkids, not_not]
      exact hk
    · by_cases hv : ((t.withoutLeaf m b n).node m).value ≠ noValue
      · refine ⟨_, _, _, (if_neg hk).trans (if_pos hv), hs, hval, hstop (Or.inr (Or.inr ?_))⟩
        rw [valueAt_some hm', if_neg hv]
        rfl
      · by_cases hp : p = []
        · subst hp
          have htop := hlay.top hm'
          exact ⟨_, _, _, (if_neg hk).trans ((if_neg hv).trans (if_pos htop)), hs, hval,
            hstop (Or.inl rfl)⟩
        · have hup : ((t.withoutLeaf m b n).node m).parent ≠ none := by
            cases p with
            | nil => exact absurd rfl hp
            | cons c q =>
              have hsome := hlay.up hm'
              rw [hsome.1]
              exact Option.isSome_iff_ne_none.mp hsome.2
          obtain ⟨t', pos', l', heq, hs', hval', hpr'⟩ := ih hs hm' hp (hkids.mp hk)
            (by simp at hf; omega : p.length < fuel + 1)
          refine ⟨t', pos', l', (if_neg hk).trans ((if_neg hv).trans ((if_neg hup).trans heq)),
            hs', ?_, fun E hE hpr => hpr' _ (Set.Subset.refl _) (hdrop E hE hpr)⟩
          have hnone : valueAt t pos p = none := by
            have hvp := congrFun hval p
            rw [update_of_ne hpb, valueAt_some hm', if_pos (not_not.mp hv)] at hvp
            exact hvp.symm
          rw [hval', hval]
          exact update_eq_self_iff.mpr (by rw [update_of_ne hpb, hnone])

/-- What `stl_radix32tree_delete` takes for a prefix of the tree: one with a value, or a leaf. -/
def Taken (t : StlRadixTree) (pos : Places) (p : List Bool) : Prop :=
  (valueAt t pos p).isSome ∨ (pos p).isSome ∧ Bare pos p

/-- Deletion in a tree that may have leaves without values. -/
theorem delete_cases (key : BitVec 32) (h : Sound t pos l) (hm : Leads mask L) (hL : 0 < L) :
    (¬ Taken t pos (path (keyBit key) L) ∧ t.stlRadix32treeDelete key mask = some (t, -1)) ∨
      Taken t pos (path (keyBit key) L) ∧ ∃ t' pos' l',
        t.stlRadix32treeDelete key mask = some (t', 0) ∧ Sound t' pos' l' ∧
          valueAt t' pos' = update (valueAt t pos) (path (keyBit key) L) none ∧
          (Pruned (valueAt t pos) pos ∅ → Pruned (valueAt t' pos') pos' ∅) := by
  have hle := hm.le
  have hseek := seek_spec key h.layout hm (Nat.zero_le L) (by omega : L < 33 + 0)
  have hroot : t.root = pos (path (keyBit key) 0) := h.layout.root
  rw [← hroot] at hseek
  have hne : path (keyBit key) L ≠ [] := path_ne_nil hL
  cases hp : pos (path (keyBit key) L) with
  | none =>
    left
    rw [hp] at hseek
    refine ⟨?_, by simp [StlRadixTree.stlRadix32treeDelete, hseek]⟩
    simp [Taken, valueAt_none hp, hp]
  | some n =>
    rw [hp] at hseek
    have hload := StlRadixTree.load_some (h.layout.carved hp)
    have hkids := h.layout.bare_iff hp
    by_cases hk : (t.node n).right.isSome ∨ (t.node n).left.isSome
    · have hnb : ¬ Bare pos (path (keyBit key) L) := fun hb => hkids.mpr hb hk
      by_cases hv : (t.node n).value = noValue
      · left
        refine ⟨?_, by simp [StlRadixTree.stlRadix32treeDelete, hseek, hload, hk, hv]⟩
        simp [Taken, valueAt_some hp, hv, hnb]
      · right
        have hval := valueAt_withValue h.layout hp noValue
        rw [if_pos rfl] at hval
        have hst := withValue_eq (h.layout.carved hp) noValue
        refine ⟨Or.inl (by rw [valueAt_some hp, if_neg hv]; rfl), t.withValue n noValue, pos, l,
          by simp [StlRadixTree.stlRadix32treeDelete, hseek, hload, hk, hv, hst],
          ⟨h.layout.withValue n noValue, h.free.withValue hp noValue, h.rooted⟩, hval, ?_⟩
        intro hpr
        rw [hval]
        exact hpr.clear hnb
    · right
      have hbare := hkids.mp hk
      obtain ⟨t', pos', l', heq, hs, hval, hpr⟩ := prune_spec h hp hne hbare
        (by rw [path_length]; omega : _ < 33 + 1)
      refine ⟨Or.inr ⟨by rw [hp]; rfl, hbare⟩, t', pos', l', ?_, hs, hval,
        hpr _ (Set.empty_subset _)⟩
      simp [StlRadixTree.stlRadix32treeDelete, hseek, hload, hk, heq]

/-- In a tree without bare leaves a prefix is taken for present exactly when it has a value. -/
theorem Pruned.taken_iff (hpr : Pruned (valueAt t pos) pos ∅) (hne : p ≠ []) :
    Taken t pos p ↔ (valueAt t pos p).isSome := by
  constructor
  · rintro (hsome | ⟨hplace, hbare⟩)
    · exact hsome
    · exact hpr p hplace hne (Set.notMem_empty _) hbare
  · exact Or.inl

theorem delete_spec (key : BitVec 32) (h : Sound t pos l) (hm : Leads mask L) (hL : 0 < L)
    (hpr : Pruned (valueAt t pos) pos ∅) :
    (valueAt t pos (path (keyBit key) L) = none ∧
        t.stlRadix32treeDelete key mask = some (t, -1)) ∨
      (valueAt t pos (path (keyBit key) L)).isSome ∧ ∃ t' pos' l',
        t.stlRadix32treeDelete key mask = some (t', 0) ∧
          Deleted t pos (path (keyBit key) L) t' pos' l' := by
  have hiff := hpr.taken_iff (path_ne_nil (k := keyBit key) hL)
  rcases delete_cases key h hm hL with ⟨hnot, heq⟩ | ⟨htaken, t', pos', l', heq, hs, hval, hpr'⟩
  · refine Or.inl ⟨?_, heq⟩
    rw [hiff] at hnot
    exact Option.not_isSome_iff_eq_none.mp hnot
  · exact Or.inr ⟨hiff.mp htaken, t', pos', l', heq, hs, hval, hpr' hpr⟩

end KirinFS.Radix
