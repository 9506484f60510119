import KirinFS.Dict.Table

/-! # What a lookup or a deletion hits

Whatever a dict holds, what is returned or destroyed is a pair of one of its
chains that the comparison takes for the key.
-/

namespace KirinFS.Dict
open Foundation.LinkedChain Function

variable {P : Type}

namespace StlDict
variable {d d' : StlDict P} {key : StlDictItem P} {n : ℕ} {x : StlDictItemPair P}

/-- Pair `x` at `n` is stored, and the comparison takes it for the key. -/
structure Hit (d : StlDict P) (key : StlDictItem P) (n : ℕ) (x : StlDictItemPair P) : Prop where
  pair : d.heap n = some x
  equal : d.cmp x.key key = 0
  stored : ∃ i < d.maxCount, (n, x.key, x.value) ∈ d.chain i

theorem index_lt {i : ℕ} (h : d.index key = some i) : i < d.maxCount := by
  rw [index] at h
  split at h
  · cases h
  · cases h
    exact Nat.mod_lt _ (by omega)

theorem collect_cons {fuel : ℕ} (hx : d.heap n = some x) :
    collect pairView d.heap (fuel + 1) (some n) =
      (n, x.key, x.value) :: collect pairView d.heap fuel x.next := by
  rw [collect, hx]
  rfl

theorem lookupFrom_hit {fuel : ℕ} {p : Option ℕ} {v : StlDictItem P}
    (h : d.lookupFrom key fuel p = some (some (n, v))) : ∃ x, d.heap n = some x ∧
      d.cmp x.key key = 0 ∧ (n, x.key, x.value) ∈ collect pairView d.heap fuel p := by
  induction fuel generalizing p with
  | zero => cases h
  | succ fuel ih =>
    cases p with
    | none => cases h
    | some m =>
      rw [lookupFrom] at h
      obtain ⟨x, hx, h⟩ := Option.bind_eq_some_iff.mp h
      rw [collect_cons hx]
      split at h
      · next hcmp =>
        cases h
        exact ⟨x, hx, hcmp, List.mem_cons_self⟩
      · obtain ⟨y, hy, hcmp, hmem⟩ := ih h
        exact ⟨y, hy, hcmp, List.mem_cons_of_mem _ hmem⟩

theorem findFrom_hit {fuel : ℕ} {prev prev' p : Option ℕ}
    (h : d.findFrom key fuel prev p = some (prev', some n)) : ∃ x, d.heap n = some x ∧
      d.cmp x.key key = 0 ∧ (n, x.key, x.value) ∈ collect pairView d.heap fuel p := by
  induction fuel generalizing prev p with
  | zero => cases h
  | succ fuel ih =>
    cases p with
    | none => cases h
    | some m =>
      rw [findFrom] at h
      obtain ⟨x, hx, h⟩ := Option.bind_eq_some_iff.mp h
      rw [collect_cons hx]
      split at h
      · next hcmp =>
        cases h
        exact ⟨x, hx, hcmp, List.mem_cons_self⟩
      · obtain ⟨y, hy, hcmp, hmem⟩ := ih h
        exact ⟨y, hy, hcmp, List.mem_cons_of_mem _ hmem⟩

/-- What `stl_dict_lookup` returns the value of. -/
theorem lookup_hit {v : StlDictItem P} (h : d.stlDictLookup key = some (some (n, v))) :
    ∃ x, d.Hit key n x := by
  rw [stlDictLookup] at h
  split at h
  · obtain ⟨i, hi, h⟩ := Option.bind_eq_some_iff.mp h
    obtain ⟨head, hhead, h⟩ := Option.bind_eq_some_iff.mp h
    obtain ⟨x, hx, hcmp, hmem⟩ := lookupFrom_hit h
    rw [bucket] at hhead
    split at hhead
    · cases hhead
      exact ⟨x, hx, hcmp, i, index_lt hi, hmem⟩
    · cases hhead
  · cases h

/-- Taking a pair out of its chain leaves all pairs alive. -/
theorem unlinkPair_alive {i m : ℕ} {prev : Option ℕ} {pair : StlDictItemPair P}
    (h : d.unlinkPair i prev pair = some d') (hm : d.heap m ≠ none) : d'.heap m ≠ none := by
  cases prev with
  | none =>
    rw [unlinkPair, setBucket] at h
    split at h
    · cases h
      exact hm
    · cases h
  | some k =>
    obtain ⟨y, -, rfl⟩ := Option.map_eq_some_iff.mp h
    simp only
    by_cases hmk : m = k
    · subst hmk
      rw [update_self]
      exact Option.some_ne_none _
    · rw [update_of_ne hmk]
      exact hm

theorem delete_hit {r : ℤ} (h : d.stlDictDelete key = some (d', r)) (hx : d.heap n = some x)
    (hgone : d'.heap n = none) : d.Hit key n x := by
  rw [stlDictDelete] at h
  split at h
  · obtain ⟨i, hi, h⟩ := Option.bind_eq_some_iff.mp h
    rw [stlDictItemPairDelete] at h
    obtain ⟨head, hhead, h⟩ := Option.bind_eq_some_iff.mp h
    obtain ⟨⟨prev, pair⟩, hfind, h⟩ := Option.bind_eq_some_iff.mp h
    cases pair with
    | none =>
      cases h
      rw [hx] at hgone
      cases hgone
    | some m =>
      obtain ⟨y, hy, h⟩ := Option.bind_eq_some_iff.mp h
      obtain ⟨d₁, hd₁, h⟩ := Option.bind_eq_some_iff.mp h
      cases h
      have hnm : n = m := by
        by_contra hne
        refine unlinkPair_alive hd₁ (m := n) (by rw [hx]; exact Option.some_ne_none _) ?_
        simp only [update_of_ne hne] at hgone
        exact hgone
      subst hnm
      obtain ⟨z, hz, hcmp, hmem⟩ := findFrom_hit hfind
      obtain rfl := Option.some.inj (hx.symm.trans hz)
      rw [bucket] at hhead
      split at hhead
      · cases hhead
        exact ⟨hx, hcmp, i, index_lt hi, hmem⟩
      · cases hhead
  · cases h
    rw [hx] at hgone
    cases hgone

end StlDict

end KirinFS.Dict
