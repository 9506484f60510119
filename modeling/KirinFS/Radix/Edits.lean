import KirinFS.Radix.Layout

/-! # The three edits of a radix tree

Writing a value, hanging a new leaf below a node and unhanging a leaf. Each
lemma says what the layout and the values are afterwards.
-/

namespace KirinFS.Radix
open Foundation.PrefixTable Function

variable {t t' : StlRadixTree} {pos : Places} {l l' : List ℕ} {n m : ℕ} {p q : List Bool}
  {b : Bool} {v : Word}

section WriteValue

def StlRadixTree.withValue (t : StlRadixTree) (n : ℕ) (v : Word) : StlRadixTree :=
  { t with node := update t.node n { t.node n with value := v } }

theorem withValue_eq (h : n < t.carved) (v : Word) :
    t.store (some n) (fun x => { x with value := v }) = some (t.withValue n v) :=
  StlRadixTree.store_some h _

theorem withValue_node_ne (h : m ≠ n) : (t.withValue n v).node m = t.node m :=
  update_of_ne h _ _

theorem withValue_node_self : (t.withValue n v).node n = { t.node n with value := v } :=
  update_self _ _ _

theorem Layout.withValue (h : Layout t pos) (n : ℕ) (v : Word) :
    Layout (t.withValue n v) pos := by
  refine h.frame rfl (Nat.le_refl _) ?_
  intro q m _
  by_cases hm : m = n
  · rw [hm, withValue_node_self]
    exact ⟨fun b => StlRadixNode.toward_withValue _ b v, rfl⟩
  · rw [withValue_node_ne hm]
    exact ⟨fun _ => rfl, rfl⟩

theorem FreeList.withValue (h : FreeList t pos l) (hp : pos p = some n) (v : Word) :
    FreeList (t.withValue n v) pos l := by
  refine h.frame rfl rfl ?_
  intro m hm
  refine withValue_node_ne ?_
  rintro rfl
  exact h.apart m hm p hp

theorem valueAt_withValue (h : Layout t pos) (hp : pos p = some n) (v : Word) :
    valueAt (t.withValue n v) pos =
      update (valueAt t pos) p (if v = noValue then none else some v) := by
  funext q
  by_cases hq : q = p
  · rw [hq, update_self, valueAt, hp, Option.bind_some, withValue_node_self]
  · rw [update_of_ne hq, valueAt, valueAt]
    cases hm : pos q with
    | none => rfl
    | some m =>
      have hne : m ≠ n := by
        rintro rfl
        exact hq (h.inj hm hp)
      rw [Option.bind_some, Option.bind_some, withValue_node_ne hne]

end WriteValue

section Relink
variable {c : Option ℕ} {r : List Bool} {k : ℕ} {d : Bool}

/-- The link of `m` towards `b` leads to `c` now, and no other node of the layout has changed,
apart from `n`. -/
structure Relinked (t t' : StlRadixTree) (pos : Places) (m : ℕ) (b : Bool) (c : Option ℕ)
    (n : ℕ) : Prop where
  link : t'.node m = (t.node m).setToward b c
  same : ∀ {r k}, pos r = some k → k ≠ m → k ≠ n → t'.node k = t.node k

namespace Relinked

theorem parent (hl : Relinked t t' pos m b c n) (hk : pos r = some k) (hkn : k ≠ n) :
    (t'.node k).parent = (t.node k).parent := by
  by_cases hkm : k = m
  · rw [hkm, hl.link, StlRadixNode.setToward_parent]
  · rw [hl.same hk hkm hkn]

theorem value (hl : Relinked t t' pos m b c n) (hk : pos r = some k) (hkn : k ≠ n) :
    (t'.node k).value = (t.node k).value := by
  by_cases hkm : k = m
  · rw [hkm, hl.link, StlRadixNode.setToward_value]
  · rw [hl.same hk hkm hkn]

/-- The children of the old nodes follow the changed layout. -/
theorem toward (hl : Relinked t t' pos m b c n) (h : Layout t pos) (hp : pos p = some m)
    (hk : pos r = some k) (hkn : k ≠ n) :
    (t'.node k).toward d = update pos (b :: p) c (d :: r) := by
  by_cases hkm : k = m
  · subst hkm
    obtain rfl := h.inj hk hp
    rw [hl.link, StlRadixNode.toward_setToward]
    by_cases hdb : d = b
    · rw [if_pos hdb, hdb, update_self]
    · rw [if_neg hdb, h.child hk d, update_of_ne (by simpa using hdb)]
  · have hne : d :: r ≠ b :: p := by
      intro he
      obtain rfl := (List.cons.inj he).2
      exact hkm (Option.some.inj (hk.symm.trans hp))
    rw [hl.same hk hkm hkn, h.child hk d, update_of_ne hne]

end Relinked

theorem placed_some (h : update pos q (some n) r = some k) :
    r = q ∧ k = n ∨ r ≠ q ∧ pos r = some k := by
  by_cases he : r = q
  · rw [he, update_self] at h
    exact Or.inl ⟨he, (Option.some.inj h).symm⟩
  · rw [update_of_ne he] at h
    exact Or.inr ⟨he, h⟩

theorem placed_none (h : update pos q none r = some k) : r ≠ q ∧ pos r = some k := by
  by_cases he : r = q
  · rw [he, update_self] at h
    cases h
  · rw [update_of_ne he] at h
    exact ⟨he, h⟩

end Relink

section AddLeaf

/-- The tree after a new node has been initialised and linked below `m`. -/
def StlRadixTree.withLeaf (t : StlRadixTree) (m : ℕ) (b : Bool) (n : ℕ) : StlRadixTree :=
  { t with
    node := update (update t.node n ⟨none, none, some m, noValue⟩) m
      ((t.node m).setToward b (some n)) }

theorem withLeaf_leaf (hmn : m ≠ n) :
    (t.withLeaf m b n).node n = ⟨none, none, some m, noValue⟩ :=
  (update_of_ne hmn.symm _ _).trans (update_self _ _ _)

structure LeafAdded (t : StlRadixTree) (pos : Places) (p : List Bool) (b : Bool) (n : ℕ)
    (t' : StlRadixTree) : Prop where
  layout : Layout t' (update pos (b :: p) (some n))
  values : valueAt t' (update pos (b :: p) (some n)) = valueAt t pos

theorem Layout.fresh_ne (h : Layout t pos) (hfr : Fresh t l n t') {r : List Bool} {k : ℕ}
    (hk : pos r = some k) : k ≠ n := by
  rintro rfl
  exact hfr.notInTree (h.reachable_iff.mpr ⟨r, hk⟩)

theorem Layout.relinked_withLeaf (h : Layout t pos) (hfr : Fresh t l n t')
    (hp : pos p = some m) : Relinked t (t'.withLeaf m b n) pos m b (some n) n where
  link := by
    rw [← hfr.same m (h.reachable_iff.mpr ⟨p, hp⟩)]
    exact update_self _ _ _
  same := by
    intro r k hk hkm hkn
    rw [← hfr.same k (h.reachable_iff.mpr ⟨r, hk⟩)]
    exact (update_of_ne hkm _ _).trans (update_of_ne hkn _ _)

theorem Layout.withLeaf (h : Layout t pos) (hfr : Fresh t l n t') (hp : pos p = some m)
    (hb : pos (b :: p) = none) (hlen : p.length < 32) :
    Layout (t'.withLeaf m b n) (update pos (b :: p) (some n)) := by
  have hl : Relinked t (t'.withLeaf m b n) pos m b (some n) n := h.relinked_withLeaf hfr hp
  have hleaf : (t'.withLeaf m b n).node n = ⟨none, none, some m, noValue⟩ :=
    withLeaf_leaf (h.fresh_ne hfr hp)
  have hbare : ∀ c, pos (c :: b :: p) = none := h.pos_none_of_none hb
  refine {
    root := ?_
    child := ?_
    up := ?_
    top := ?_
    inj := ?_
    depth := ?_
    carved := ?_ }
  · rw [update_of_ne (List.cons_ne_nil b p).symm]
    exact hfr.root.trans h.root
  · intro r k hr c
    rcases placed_some hr with ⟨rfl, rfl⟩ | ⟨-, hk⟩
    · have hne : c :: b :: p ≠ b :: p := fun he => by simpa using congrArg List.length he
      rw [hleaf, update_of_ne hne, hbare c]
      cases c <;> rfl
    · exact hl.toward h hp hk (h.fresh_ne hfr hk)
  · intro c r k hr
    rcases placed_some hr with ⟨he, rfl⟩ | ⟨-, hk⟩
    · obtain ⟨rfl, rfl⟩ := List.cons.inj he
      have hne : r ≠ c :: r := fun he => by simpa using congrArg List.length he
      rw [hleaf, update_of_ne hne, hp]
      exact ⟨rfl, rfl⟩
    · have hne : r ≠ b :: p := by
        rintro rfl
        rw [hbare c] at hk
        cases hk
      rw [hl.parent hk (h.fresh_ne hfr hk), update_of_ne hne]
      exact h.up hk
  · intro k hr
    rcases placed_some hr with ⟨he, -⟩ | ⟨-, hk⟩
    · exact absurd he.symm (List.cons_ne_nil b p)
    · rw [hl.parent hk (h.fresh_ne hfr hk)]
      exact h.top hk
  · intro r s k hr hs
    rcases placed_some hr with ⟨rfl, rfl⟩ | ⟨-, hk⟩
    · rcases placed_some hs with ⟨rfl, -⟩ | ⟨-, hk'⟩
      · rfl
      · exact absurd rfl (h.fresh_ne hfr hk')
    · rcases placed_some hs with ⟨rfl, rfl⟩ | ⟨-, hk'⟩
      · exact absurd rfl (h.fresh_ne hfr hk)
      · exact h.inj hk hk'
  · intro r k hr
    rcases placed_some hr with ⟨rfl, -⟩ | ⟨-, hk⟩
    · exact hlen
    · exact h.depth hk
  · intro r k hr
    rcases placed_some hr with ⟨-, rfl⟩ | ⟨-, hk⟩
    · exact hfr.carved
    · exact Nat.lt_of_lt_of_le (h.carved hk) hfr.grows

theorem Layout.valueAt_withLeaf (h : Layout t pos) (hfr : Fresh t l n t') (hp : pos p = some m)
    (hb : pos (b :: p) = none) :
    valueAt (t'.withLeaf m b n) (update pos (b :: p) (some n)) = valueAt t pos := by
  funext r
  rw [valueAt, valueAt]
  by_cases he : r = b :: p
  · rw [he, update_self, hb, Option.bind_some, withLeaf_leaf (h.fresh_ne hfr hp), if_pos rfl]
    rfl
  · rw [update_of_ne he]
    cases hk : pos r with
    | none => rfl
    | some k =>
      rw [Option.bind_some, Option.bind_some,
        (h.relinked_withLeaf hfr hp).value hk (h.fresh_ne hfr hk)]

theorem FreeList.withLeaf (hf : FreeList t pos l) (hfr : Fresh t l n t') (hp : pos p = some m) :
    ∃ l', FreeList (t'.withLeaf m b n) (update pos (b :: p) (some n)) l' := by
  obtain ⟨l', hchain, hsub, hout⟩ := hfr.free
  refine ⟨l', ⟨hchain.congr ?_, hf.nodup.sublist hsub, ?_, ?_⟩⟩
  · intro k hk
    have hkm : k ≠ m := by
      rintro rfl
      exact hf.apart k (hsub.subset hk) p hp
    have hkn : k ≠ n := by
      rintro rfl
      exact hout hk
    exact (update_of_ne hkm _ _).trans (update_of_ne hkn _ _)
  · intro k hk
    exact Nat.lt_of_lt_of_le (hf.carved k (hsub.subset hk)) hfr.grows
  · intro k hk r hr
    rcases placed_some hr with ⟨-, rfl⟩ | ⟨-, hr⟩
    · exact hout hk
    · exact hf.apart k (hsub.subset hk) r hr

theorem Layout.addLeaf (h : Layout t pos) (hf : FreeList t pos l) (hfr : Fresh t l n t')
    (hp : pos p = some m) (hb : pos (b :: p) = none) (hlen : p.length < 32) :
    LeafAdded t pos p b n (t'.withLeaf m b n) ∧
      ∃ l', FreeList (t'.withLeaf m b n) (update pos (b :: p) (some n)) l' :=
  ⟨⟨h.withLeaf hfr hp hb hlen, h.valueAt_withLeaf hfr hp hb⟩, hf.withLeaf hfr hp⟩

end AddLeaf

section DropLeaf

/-- The tree after leaf `n` has been unlinked from `m` and pushed on the free list. -/
def StlRadixTree.withoutLeaf (t : StlRadixTree) (m : ℕ) (b : Bool) (n : ℕ) : StlRadixTree :=
  { t with
    free := some n
    node := update (update t.node m ((t.node m).setToward b none)) n
      { t.node n with right := t.free } }

/-- The link of the parent that is cleared is the one that leads to the node. -/
theorem Layout.dropChild_eq (h : Layout t pos) (hp : pos p = some m)
    (hn : pos (b :: p) = some n) : (t.node m).dropChild n = (t.node m).setToward b none := by
  have hr : (t.node m).right = pos (true :: p) := h.child hp true
  cases b with
  | false =>
    have hne : pos (true :: p) ≠ some n := by
      intro he
      exact absurd (h.inj he hn) (by simp)
    rw [StlRadixNode.dropChild, if_neg (by rw [hr]; exact hne)]
    rfl
  | true =>
    rw [StlRadixNode.dropChild, if_pos (hr.trans hn)]
    rfl

theorem withoutLeaf_other {k : ℕ} (hkm : k ≠ m) (hkn : k ≠ n) :
    (t.withoutLeaf m b n).node k = t.node k :=
  (update_of_ne hkn _ _).trans (update_of_ne hkm _ _)

theorem Layout.relinked_withoutLeaf (h : Layout t pos) (hp : pos p = some m)
    (hn : pos (b :: p) = some n) : Relinked t (t.withoutLeaf m b n) pos m b none n where
  link := by
    have hmn : m ≠ n := by
      rintro rfl
      have he := congrArg List.length (h.inj hp hn)
      simp at he
    exact (update_of_ne hmn _ _).trans (update_self _ _ _)
  same := fun _ hkm hkn => withoutLeaf_other hkm hkn

theorem Layout.placed_ne (h : Layout t pos) (hn : pos q = some n) {r : List Bool} {k : ℕ}
    (hr : update pos q none r = some k) : k ≠ n := by
  rintro rfl
  exact (placed_none hr).1 (h.inj (placed_none hr).2 hn)

theorem Layout.withoutLeaf (h : Layout t pos) (hp : pos p = some m) (hn : pos (b :: p) = some n)
    (hbare : Bare pos (b :: p)) : Layout (t.withoutLeaf m b n) (update pos (b :: p) none) := by
  have hl : Relinked t (t.withoutLeaf m b n) pos m b none n := h.relinked_withoutLeaf hp hn
  refine {
    root := ?_
    child := fun hr _ => hl.toward h hp (placed_none hr).2 (h.placed_ne hn hr)
    up := ?_
    top := ?_
    inj := fun hr hs => h.inj (placed_none hr).2 (placed_none hs).2
    depth := fun hr => h.depth (placed_none hr).2
    carved := fun hr => h.carved (placed_none hr).2 }
  · rw [update_of_ne (List.cons_ne_nil b p).symm]
    exact h.root
  · intro c r k hr
    have hk := (placed_none hr).2
    have hne : r ≠ b :: p := by
      rintro rfl
      rw [hbare c] at hk
      cases hk
    rw [hl.parent hk (h.placed_ne hn hr), update_of_ne hne]
    exact h.up hk
  · intro k hr
    rw [hl.parent (placed_none hr).2 (h.placed_ne hn hr)]
    exact h.top (placed_none hr).2

theorem FreeList.withoutLeaf (hf : FreeList t pos l) (h : Layout t pos) (hp : pos p = some m)
    (hn : pos (b :: p) = some n) :
    FreeList (t.withoutLeaf m b n) (update pos (b :: p) none) (n :: l) := by
  have hnl : n ∉ l := fun hnl => hf.apart n hnl _ hn
  have hright : ((t.withoutLeaf m b n).node n).right = t.free := by
    simp [StlRadixTree.withoutLeaf]
  refine ⟨⟨rfl, ?_⟩, List.nodup_cons.mpr ⟨hnl, hf.nodup⟩, ?_, ?_⟩
  · rw [hright]
    refine hf.chain.congr ?_
    intro k hk
    refine withoutLeaf_other ?_ ?_
    · rintro rfl
      exact hf.apart k hk p hp
    · rintro rfl
      exact hnl hk
  · intro k hk
    rcases List.mem_cons.mp hk with rfl | hk
    · exact h.carved hn
    · exact hf.carved k hk
  · intro k hk r hr
    rcases List.mem_cons.mp hk with rfl | hk
    · exact h.placed_ne hn hr rfl
    · exact hf.apart k hk r (placed_none hr).2

theorem Layout.valueAt_withoutLeaf (h : Layout t pos) (hp : pos p = some m)
    (hn : pos (b :: p) = some n) :
    valueAt (t.withoutLeaf m b n) (update pos (b :: p) none) =
      update (valueAt t pos) (b :: p) none := by
  funext r
  by_cases he : r = b :: p
  · rw [he, update_self, valueAt, update_self]
    rfl
  · rw [update_of_ne he, valueAt, valueAt, update_of_ne he]
    cases hk : pos r with
    | none => rfl
    | some k =>
      have hkn : k ≠ n := by
        rintro rfl
        exact he (h.inj hk hn)
      rw [Option.bind_some, Option.bind_some, (h.relinked_withoutLeaf hp hn).value hk hkn]

theorem Layout.dropLeaf (h : Layout t pos) (hf : FreeList t pos l) (hp : pos p = some m)
    (hn : pos (b :: p) = some n) (hbare : Bare pos (b :: p)) :
    Layout (t.withoutLeaf m b n) (update pos (b :: p) none) ∧
      FreeList (t.withoutLeaf m b n) (update pos (b :: p) none) (n :: l) ∧
      valueAt (t.withoutLeaf m b n) (update pos (b :: p) none) =
        update (valueAt t pos) (b :: p) none :=
  ⟨h.withoutLeaf hp hn hbare, hf.withoutLeaf h hp hn, h.valueAt_withoutLeaf hp hn⟩

end DropLeaf

end KirinFS.Radix
