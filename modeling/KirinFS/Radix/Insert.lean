import KirinFS.Radix.Walks

/-! # `stl_radix32tree_insert` adds one prefix -/

namespace KirinFS.Radix
open Foundation.PrefixTable Function

variable {alloc : RadixAlloc} {t : StlRadixTree} {pos : Places} {l : List ℕ} {T : Table Word}
  {key mask : BitVec 32} {L d n fuel : ℕ} {p : List Bool} {b : Bool} {v : Word}
  {E : Set (List Bool)}

section Leaves

/-- A new leaf below an exempt path takes over the exemption. -/
theorem Pruned.add (h : Pruned T pos E) (hE : E ⊆ {p}) (hb : pos (b :: p) = none) :
    Pruned T (update pos (b :: p) (some n)) {b :: p} := by
  intro q hq hne hout hbare
  have hqb : q ≠ b :: p := hout
  rw [update_of_ne hqb] at hq
  refine h q hq hne ?_ ?_
  · intro hmem
    obtain rfl : q = p := hE hmem
    have hself := hbare b
    rw [update_self] at hself
    exact absurd hself (by simp)
  · intro c
    have hc := hbare c
    by_cases he : c :: q = b :: p
    · rw [he]
      exact hb
    · rwa [update_of_ne he] at hc

theorem Pruned.fill (h : Pruned T pos E) (hE : E ⊆ {p}) (v : Word) :
    Pruned (update T p (some v)) pos ∅ := by
  intro q hq hne _ hbare
  by_cases hqp : q = p
  · rw [hqp, update_self]
    rfl
  · rw [update_of_ne hqp]
    exact h q hq hne (fun hmem => hqp (hE hmem)) hbare

end Leaves

/-- The second loop appends the missing nodes, all without values, until there is no memory. -/
theorem extend_cases (ha : Supplies alloc) (h : Sound t pos l) (hm : Leads mask L) (hd : d ≤ L)
    (hf : L < fuel + d) (hp : pos (path (keyBit key) d) = some n)
    (hend : d < L → pos (path (keyBit key) (d + 1)) = none) :
    ∃ t' pos' l' last, StlRadixTree.extend alloc key mask fuel t d n = some (t', last) ∧
      Sound t' pos' l' ∧ valueAt t' pos' = valueAt t pos ∧ (last = none → ¬ Allocates alloc) ∧
      ∀ m, last = some m → pos' (path (keyBit key) L) = some m ∧
        ∀ E ⊆ {path (keyBit key) d}, Pruned (valueAt t pos) pos E →
          ∃ E' ⊆ {path (keyBit key) L}, Pruned (valueAt t pos) pos' E' := by
  induction fuel generalizing t pos l d n with
  | zero => omega
  | succ fuel ih =>
    have hbit := hm.bit hd
    have hL := hm.le
    by_cases hlt : d < L
    · have hnone : pos (keyBit key d :: path (keyBit key) d) = none := hend hlt
      have hprom := h.layout.promises h.free
      cases halloc : alloc t with
      | none =>
        refine ⟨t, pos, l, none, ?_, h, rfl, fun _ hall => ?_, fun m hm => by cases hm⟩
        · rw [StlRadixTree.extend, if_pos (hbit.mpr hlt), halloc]
        · obtain ⟨x, t₁, hsome, -⟩ := hall t l hprom
          cases halloc.symm.trans hsome
      | some fresh =>
        obtain ⟨x, t₁⟩ := fresh
        have hfr := ha t l x t₁ hprom halloc
        obtain ⟨hadd, l', hf'⟩ := h.layout.addLeaf h.free hfr hp hnone
          (by rw [path_length]; omega)
        have hn : n < t₁.carved := Nat.lt_of_lt_of_le (h.layout.carved hp) hfr.grows
        have hnx : n ≠ x := by
          rintro rfl
          exact hfr.notInTree (h.layout.reachable_iff.mpr ⟨_, hp⟩)
        have hsame : t₁.node n = t.node n := hfr.same n (h.layout.reachable_iff.mpr ⟨_, hp⟩)
        have hrooted : (update pos (keyBit key d :: path (keyBit key) d) (some x) []).isSome := by
          rw [update_of_ne (List.cons_ne_nil _ _).symm]
          exact h.rooted
        obtain ⟨t', pos', l'', last, heq, hs, hval, hfail, hlast⟩ :=
          ih (d := d + 1) ⟨hadd.layout, hf', hrooted⟩ hlt (by omega) (update_self _ _ _) (by
            intro _
            have hne : keyBit key (d + 1) :: path (keyBit key) (d + 1) ≠
                keyBit key d :: path (keyBit key) d := by
              intro he
              have hlen := congrArg List.length he
              simp at hlen
            rw [path, update_of_ne hne]
            exact h.layout.pos_none_of_none hnone _)
        refine ⟨t', pos', l'', last, ?_, hs, hval.trans hadd.values, hfail, ?_⟩
        · have hstore : update t₁.node x ⟨none, none, some n, noValue⟩ n = t.node n := by
            rw [update_of_ne hnx, hsame]
          rw [StlRadixTree.extend, if_pos (hbit.mpr hlt), halloc]
          simp only [StlRadixTree.store_some hfr.carved, Option.bind_some]
          rw [StlRadixTree.store_some (by exact hn)]
          simp only [Option.bind_some, update_of_ne hnx]
          exact heq
        · intro m hm
          obtain ⟨hplace, hpr⟩ := hlast m hm
          refine ⟨hplace, fun E hE hpruned => ?_⟩
          have hnew := hpruned.add hE hnone (n := x)
          rw [← hadd.values] at hnew
          obtain ⟨E', hE', h'⟩ := hpr _ (Set.Subset.refl _) hnew
          rw [hadd.values] at h'
          exact ⟨E', hE', h'⟩
    · obtain rfl : d = L := by omega
      refine ⟨t, pos, l, some n, ?_, h, rfl, (fun hm => by cases hm), ?_⟩
      · rw [StlRadixTree.extend, if_neg (by rw [hbit]; exact hlt)]
      · intro m hm
        obtain rfl := Option.some.inj hm
        exact ⟨hp, fun E hE hpr => ⟨E, hE, hpr⟩⟩

structure Inserted (t : StlRadixTree) (pos : Places) (p : List Bool) (v : Word)
    (t' : StlRadixTree) (pos' : Places) (l' : List ℕ) : Prop where
  sound : Sound t' pos' l'
  values : valueAt t' pos' = update (valueAt t pos) p (if v = noValue then none else some v)
  pruned : v ≠ noValue → Pruned (valueAt t pos) pos ∅ → Pruned (valueAt t' pos') pos' ∅

theorem Sound.inserted {t₁ : StlRadixTree} {pos₁ : Places} {l₁ : List ℕ} (h : Sound t₁ pos₁ l₁)
    (hp : pos₁ p = some n) (hval : valueAt t₁ pos₁ = valueAt t pos)
    (hpr : Pruned (valueAt t pos) pos ∅ → ∃ E ⊆ {p}, Pruned (valueAt t pos) pos₁ E) :
    Inserted t pos p v (t₁.withValue n v) pos₁ l₁ := by
  have hnew := valueAt_withValue h.layout hp v
  rw [hval] at hnew
  refine ⟨⟨h.layout.withValue n v, h.free.withValue hp v, h.rooted⟩, hnew, ?_⟩
  intro hv hpruned
  obtain ⟨E, hE, hE'⟩ := hpr hpruned
  rw [hnew, if_neg hv]
  exact hE'.fill hE v

/-- Insertion of any value below any mask. It may run out of memory on the way. -/
theorem insert_cases (key : BitVec 32) (ha : Supplies alloc) (h : Sound t pos l)
    (hm : Leads mask L) (v : Word) :
    ((valueAt t pos (path (keyBit key) L)).isSome ∧
        t.stlRadix32treeInsert alloc key mask v = some (t, -3)) ∨
      (valueAt t pos (path (keyBit key) L) = none ∧ ∃ t' pos' l',
        t.stlRadix32treeInsert alloc key mask v = some (t', 0) ∧
          Inserted t pos (path (keyBit key) L) v t' pos' l') ∨
      (¬ Allocates alloc ∧ ∃ t' pos' l',
        t.stlRadix32treeInsert alloc key mask v = some (t', -1) ∧ Sound t' pos' l') := by
  obtain ⟨r, hr⟩ := Option.isSome_iff_exists.mp h.rooted
  have hroot : t.root = some r := h.layout.root.trans hr
  have hL := hm.le
  rcases descend_spec key h.layout hm (Nat.zero_le L) (by omega : L < 33 + 0) hr with
    ⟨n, hn, heq⟩ | ⟨e, n, he, hn, hnone, heq⟩
  · have hload := StlRadixTree.load_some (h.layout.carved hn)
    by_cases hv : (t.node n).value = noValue
    · right
      left
      refine ⟨by rw [valueAt_some hn, if_pos hv], t.withValue n v, pos, l, ?_, ?_⟩
      · have hst := withValue_eq (h.layout.carved hn) v
        simp [StlRadixTree.stlRadix32treeInsert, hroot, heq, hload, hv, hst]
      · exact h.inserted hn rfl fun hpr => ⟨∅, Set.empty_subset _, hpr⟩
    · left
      refine ⟨by rw [valueAt_some hn, if_neg hv]; rfl, ?_⟩
      simp [StlRadixTree.stlRadix32treeInsert, hroot, heq, hload, hv]
  · right
    have hp : valueAt t pos (path (keyBit key) L) = none :=
      valueAt_none (h.layout.path_none hnone he)
    obtain ⟨t₁, pos₁, l₁, last, hext, hs, hval, hfail, hlast⟩ :=
      extend_cases ha h hm he.le (by omega : L < 33 + e) hn fun _ => hnone
    cases last with
    | none =>
      right
      refine ⟨hfail rfl, t₁, pos₁, l₁, ?_, hs⟩
      simp [StlRadixTree.stlRadix32treeInsert, hroot, heq, hext]
    | some m =>
      left
      obtain ⟨hplace, hpr⟩ := hlast m rfl
      refine ⟨hp, t₁.withValue m v, pos₁, l₁, ?_, ?_⟩
      · have hst := withValue_eq (hs.layout.carved hplace) v
        simp [StlRadixTree.stlRadix32treeInsert, hroot, heq, hext, hst]
      · exact hs.inserted hplace hval (hpr ∅ (Set.empty_subset _))

theorem insert_spec (key : BitVec 32) (ha : Allocates alloc) (h : Sound t pos l)
    (hm : Leads mask L) (v : Word) :
    ((valueAt t pos (path (keyBit key) L)).isSome ∧
        t.stlRadix32treeInsert alloc key mask v = some (t, -3)) ∨
      valueAt t pos (path (keyBit key) L) = none ∧ ∃ t' pos' l',
        t.stlRadix32treeInsert alloc key mask v = some (t', 0) ∧
          Inserted t pos (path (keyBit key) L) v t' pos' l' := by
  rcases insert_cases key ha.supplies h hm v with hold | hnew | ⟨hfail, -⟩
  · exact Or.inl hold
  · exact Or.inr hnew
  · exact absurd ha hfail

end KirinFS.Radix
